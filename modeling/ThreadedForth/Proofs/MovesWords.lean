/-
  The moves of words for definitions, data slots and control structures.
-/
import ThreadedForth.Proofs.MovesValues

namespace ThreadedForth

variable {L : Edit → Prop} {m : Machine} {hand : List Value}

/-- Whether a primitive may add to the word under construction. -/
def Primitive.compiles : Primitive → Bool
  | memory .does | defining _ | control _ => true
  | _ => false

/-- The bodies that a primitive may change. -/
def Primitive.Edits (p : Primitive) (m : Machine) : Edit → Prop
  | .build _ => p.compiles = true
  | .store q =>
    (p = .memory .store ∨ p = .memory .addStore) ∧ ∃ rest, m.data.items = .ptr q :: rest
  | .extend w =>
    ((p = .memory .comma ∨ p = .memory .allot) ∧ m.compiler.last? = some w) ∨
      (p = .memory .variable ∧ w = ⟨m.heap.words.size⟩)
  | .action w body entry =>
    p = .memory .doesRuntime ∧ m.compiler.last? = some w ∧
      ∃ f rest, m.frames = f :: ⟨body, entry⟩ :: rest

/-! ## Data slots -/

theorem M.pop_eq_ok {v : Value} {m' : Machine} (h : pop m = .ok v m') :
    ∃ s, m.data.items = v :: s.items ∧ m' = { m with data := s } := by
  unfold pop at h
  split at h
  · rename_i v s hs
    cases h
    exact ⟨s, (Stack.pop_eq_ok hs).1, rfl⟩
  · cases h

theorem Value.refs_of_toInt {v : Value} {n : Int64} (h : v.toInt = .ok n) : v.refs = [] := by
  cases v <;> first | rfl | cases h

/-- An integer is taken off the data stack, and no reference goes with it. -/
theorem M.popInt_eq_ok {n : Int64} {m' : Machine} (h : popInt m = .ok n m') :
    ∃ s, s.items.flatMap Value.refs = m.data.items.flatMap Value.refs ∧
      m' = { m with data := s } := by
  obtain ⟨v, m₁, hp, hl⟩ := M.of_bind_ok h
  obtain ⟨s, hs, rfl⟩ := M.pop_eq_ok hp
  obtain ⟨hv, rfl⟩ := M.lift_eq_ok hl
  refine ⟨s, ?_, rfl⟩
  rw [hs, List.flatMap_cons, Value.refs_of_toInt hv, List.nil_append]

theorem M.nextName_eq_ok {reader name : String} {m' : Machine} (h : nextName reader m = .ok name m') :
    ∃ l, m' = { m with line := l } := by
  have hn : nextToken m = .ok m.line.advance.token? { m with line := m.line.advance } := rfl
  rw [nextName, M.bind_ok hn] at h
  cases ht : m.line.advance.token? with
  | none => rw [ht] at h; cases h
  | some t => rw [ht] at h; cases h; exact ⟨_, rfl⟩

theorem createWord_eq (name : String) (m : Machine) :
    createWord name m = .ok (m.install (.created name)).1 { (m.install (.created name)).2 with
      compiler := { (m.install (.created name)).2.compiler with
        last? := some (m.install (.created name)).1 } } := rfl

theorem createWord_does (name : String) : Does L m hand (createWord name) fun w => [.xt w] := by
  refine (M.install_does fun e he => ?_).bind fun w _ _ => (M.setLast_does w).bind fun _ _ _ =>
    .pure (by simp)
  simp only [Word.created, List.mem_toArray, List.mem_singleton] at he
  subst he
  exact nofun

theorem addSlot_does {w : WordId} {v : Value} (hl : m.compiler.last? = some w)
    (hw : InHand hand (.word w)) (hv : v ∈ hand) (hL : L (.extend w)) :
    Does L m hand (addSlot w v) fun _ => [] :=
  .get (M.changeWord_does fun _ hx => .one (.extend hl hw hv hx hL))

theorem setLastCode_does {body : WordId} {entry : Nat} (hb : InHand hand (.word body))
    (hL : ∀ w, m.compiler.last? = some w → L (.action w body entry)) :
    Does L m hand (setLastCode (.indirect body entry)) fun _ => [] := by
  refine (M.lastWith_does [] nofun).bind fun w m₁ hw => ?_
  obtain ⟨rfl, hl, -⟩ := M.lastWith_eq_ok hw
  exact .get (M.changeWord_does fun _ hx => .one (.action hl (.xt List.mem_cons_self)
    (hb.mono fun v hv => List.mem_cons_of_mem _ hv) hx (hL w hl)))

theorem Value.eq_ptr_of_toPointer {v : Value} {p : Pointer} (h : v.toPointer = .ok p) :
    v = .ptr p := by
  cases v with
  | ptr q => simpa [Value.toPointer] using h
  | _ => simp [Value.toPointer] at h

theorem MemoryWord.run_does (w : MemoryWord) (hL : ∀ e, (Primitive.memory w).Edits m e → L e) :
    Does L m hand w.run Flow.values := by
  cases w with
  | load =>
    refine M.pop_does.bind fun u _ _ => .get <| (M.lift_does _).bind fun v m₂ hv => ?_
    obtain ⟨hd, rfl⟩ := M.lift_eq_ok hv
    unfold Heap.deref at hd
    split at hd
    · rename_i p hp
      obtain rfl := Value.eq_ptr_of_toPointer hp
      refine .gain (.slot (.ptr (p := p) (by simp)) (Word.load_eq_ok hd).1) ?_
      exact (M.push_does List.mem_cons_self).bind fun _ _ _ => .done rfl
    · cases hd
  | store =>
    refine M.pop_does.bind fun t _ hd => M.pop_does.bind fun v _ _ =>
      (M.lift_does _).bind fun p _ hp => .get <| (M.changeWord_does fun _ hx => ?_).bind
        fun _ _ _ => .done rfl
    obtain ⟨s, hd, -⟩ := M.pop_eq_ok hd
    obtain ⟨ht, rfl⟩ := M.lift_eq_ok hp
    obtain rfl := Value.eq_ptr_of_toPointer ht
    exact .one (.store (by simp) (by simp) hx (hL _ ⟨.inl rfl, s.items, hd⟩))
  | addStore =>
    refine M.pop_does.bind fun t _ hd => M.pop_does.bind fun n _ _ =>
      (M.lift_does _).bind fun p _ hp => .get <| (M.lift_does _).bind fun v m₄ hv => ?_
    obtain ⟨s, hd, -⟩ := M.pop_eq_ok hd
    obtain ⟨ht, rfl⟩ := M.lift_eq_ok hp
    obtain rfl := Value.eq_ptr_of_toPointer ht
    obtain ⟨hl, rfl⟩ := M.lift_eq_ok hv
    refine .gain (.slot (.ptr (p := p) (by simp)) (Word.load_eq_ok hl).1) ?_
    refine Operator.applyThen_does (by simp) (by simp) (fun _ u hu => ?_)
      (fun q hq => ?_) _
    · simp only [Pending.values, List.mem_singleton] at hu
      simp [hu]
    · cases hq
      exact hL _ ⟨.inr rfl, s.items, hd⟩
  | here =>
    exact M.here_does.bind fun _ _ _ => (M.pushPlain_does rfl).bind fun _ _ _ => .done rfl
  | comma =>
    refine M.pop_does.bind fun v m₁ hv => (M.lastWith_does _ fun r hr => ⟨v, by simp, hr⟩).bind
      fun w m₂ hw => ?_
    obtain ⟨s, -, rfl⟩ := M.pop_eq_ok hv
    obtain ⟨rfl, hl, -⟩ := M.lastWith_eq_ok hw
    exact (addSlot_does hl (.xt (by simp)) (by simp) (hL _ (.inl ⟨.inl rfl, hl⟩))).bind
      fun _ _ _ => .done rfl
  | allot =>
    refine M.popInt_does.bind fun k m₁ hk => ?_
    obtain ⟨s, -, rfl⟩ := M.popInt_eq_ok hk
    refine .ite ((Does.throw (G := fun _ => [(default : Value)]) _).bind fun _ m₂ h => by cases h) ?_
    refine .get ((M.setHeap_does fun h hh => ?_).bind fun _ _ _ => .done rfl)
    unfold Compiler.expand at hh
    cases hl : m.compiler.last m.heap { m with data := s }.roots with
    | error e => simp [hl, Bind.bind, Except.bind] at hh
    | ok w =>
      have hlast : M.lastWith [] { m with data := s } = .ok w { m with data := s } := by
        show M.lift (m.compiler.last m.heap { m with data := s }.roots) _ = _
        rw [hl]
        rfl
      obtain ⟨-, hl', ha⟩ := M.lastWith_eq_ok hlast
      simp only [hl, Bind.bind, Except.bind, Heap.changeWord] at hh
      split at hh
      · rename_i x hx
        cases hh
        refine .head (.last [] hl' (fun _ hr => absurd hr List.not_mem_nil) ha) (.tail (.one
          (.expand hl' (.xt List.mem_cons_self) hx (hL _ (.inl ⟨.inr rfl, hl'⟩)))) (.drop ?_))
        exact fun v hv => List.mem_cons_of_mem _ hv
      · cases hh
  | create =>
    exact (M.nextName_does _).bind fun _ _ _ => (createWord_does _).bind fun _ _ _ => .done rfl
  | «variable» =>
    refine (M.nextName_does _).bind fun name m₁ hn => (createWord_does _).bind fun w m₂ hw =>
      .gain (.plain (v := .int 0) rfl) ?_
    obtain ⟨l, rfl⟩ := M.nextName_eq_ok hn
    rw [createWord_eq] at hw
    cases hw
    exact (addSlot_does rfl (.xt (List.mem_cons_of_mem _ List.mem_cons_self)) List.mem_cons_self
      (hL _ (.inr ⟨rfl, rfl⟩))).bind fun _ _ _ => .done rfl
  | constant =>
    exact (M.nextName_does _).bind fun _ _ _ => M.pop_does.bind fun _ _ _ =>
      (M.defineConstant_does _ (by simp)).bind fun _ _ _ => .done rfl
  | does =>
    refine M.mode_does.bind fun mode _ _ => ?_
    cases mode with
    | compiling =>
      exact (M.compileBuiltin_does _ fun w => hL (.build w) rfl).bind fun _ _ _ => .done rfl
    | interpreting =>
      exact (M.lastWith_does [] fun _ hr => absurd hr List.not_mem_nil).bind fun _ _ _ =>
        (M.setMode_does _).bind fun _ _ _ => .done rfl
    | compilingPostponed =>
      exact (Does.throw (G := fun _ => []) _).bind fun _ _ _ => .done rfl
    | runtimeCompiling =>
      exact (Does.throw (G := fun _ => []) _).bind fun _ _ _ => .done rfl
  | doesRuntime =>
    refine M.parent_does.bind fun f m₁ hf => ?_
    obtain ⟨rfl, g, rest, hf⟩ := M.parent_eq_ok hf
    exact (setLastCode_does (.xt (by simp)) fun w hw => hL (.action w f.word f.ip)
      ⟨rfl, hw, g, rest, hf⟩).bind fun _ _ _ => .done rfl

/-! ## Definitions -/

namespace DefiningWord

theorem openDefinition_does (name : String) : Does L m hand (openDefinition name) fun _ => [] := by
  by_cases hm : m.compiler.mode = .interpreting
  · exact .ok (openDefinition_eq name hm) (.one (.start name _ _))
  · exact .error (openDefinition_error name hm) (.refl _ _)

theorem checkBalance_does : Does L m hand checkBalance fun _ => [] := by
  refine .get ?_
  refine .ite ((Does.throw (G := fun _ => []) _).bind fun _ _ h => by cases h) (.ite ?_ (.done rfl))
  exact .ite ((Does.throw (G := fun _ => []) _).bind fun _ _ h => by cases h) (.throw _)

theorem building_eq_ok {w : WordId} (h : m.compiler.building = .ok w) :
    m.compiler.building? = some w := by
  unfold Compiler.building at h
  split at h
  · rename_i w' hb
    cases h
    exact hb
  · cases h

theorem reveal_does : Does L m hand reveal fun _ => [] := by
  refine checkBalance_does.bind fun _ m₁ _ => .get <| (M.lift_does _).bind fun w m₂ hw => ?_
  obtain ⟨hw, rfl⟩ := M.lift_eq_ok hw
  refine .gain (.word (.inl (m₂.building_mem_roots (building_eq_ok hw))))
    ((Does.set (.one (.compiler (.inl rfl)))).bind fun _ m₃ h₃ => ?_)
  cases h₃
  refine .ite ((Does.modify (M.updateWord_moves w
    (f := fun x => { x with hidden := false }) fun _ => rfl)).bind fun _ _ _ => M.push_does (by simp)) ?_
  exact .modify (M.addWord_moves (.xt (by simp)))

theorem nextChar_does (reader : String) : Does L m hand (nextChar reader) fun v => [v] := by
  refine (M.nextName_does reader).bind fun name _ _ => ?_
  cases name.toList with
  | nil => exact .throw _
  | cons c _ =>
    exact .gain (.plain (v := .char (UInt8.ofNat c.toNat)) rfl) (.pure (by simp))

theorem forget_does : Does L m hand (act forget) fun _ => [] := by
  refine (M.nextName_does _).bind fun name m₁ _ => .get <| (M.lift_does _).bind fun r m₂ hr => ?_
  obtain ⟨hr, rfl⟩ := M.lift_eq_ok hr
  unfold Dictionary.forget at hr
  split at hr
  · cases hr
  · rename_i w hw
    split at hr
    · cases hr
    · cases hr
      refine .set (.head (.dictionary (d := m₂.dictionary.unbind (.ofString name)) fun e he => .inl ?_)
        (M.updateWord_moves w (f := fun x => { x with hidden := true }) fun _ => rfl))
      exact (List.mem_filter.1 he).1

theorem act_does (w : DefiningWord) (hL : ∀ b, L (.build b)) : Does L m hand w.act fun _ => [] := by
  cases w with
  | colon => exact (M.nextName_does _).bind fun _ _ _ => openDefinition_does _
  | noname => exact openDefinition_does _
  | semicolon =>
    exact (M.requireCompiling_does _).bind fun _ _ _ => reveal_does.bind fun _ _ _ =>
      M.setMode_does _
  | immediate =>
    exact (M.lastWith_does [] nofun).bind fun w _ _ =>
      .modify (M.updateWord_moves w (f := fun x => { x with immediate := true }) fun _ => rfl)
  | postpone => exact (M.requireCompiling_does _).bind fun _ _ _ => M.setMode_does _
  | leftBracket => exact (M.requireCompiling_does _).bind fun _ _ _ => M.setMode_does _
  | rightBracket => exact .get <| (M.lift_does _).bind fun _ _ _ => M.setMode_does _
  | literal =>
    exact (M.requireCompiling_does _).bind fun _ _ _ => M.pop_does.bind fun _ _ _ =>
      M.compileLiteral_does (by simp) hL
  | tick => exact (M.nextWord_does _).bind fun _ _ _ => M.push_does (by simp)
  | bracketTick =>
    exact (M.requireCompiling_does _).bind fun _ _ _ => (M.nextWord_does _).bind fun _ _ _ =>
      M.compileLiteral_does (by simp) hL
  | execute => exact .done rfl
  | compileComma =>
    exact M.popWord_does.bind fun _ _ _ => M.compileWord_does (.xt (by simp)) hL
  | forget => exact forget_does
  | char => exact (nextChar_does _).bind fun _ _ _ => M.push_does (by simp)
  | bracketChar =>
    exact (M.requireCompiling_does _).bind fun _ _ _ => (nextChar_does _).bind fun _ _ _ =>
      M.compileLiteral_does (by simp) hL
  | string =>
    exact M.nextText_does.bind fun _ _ _ => (M.newText_does _).bind fun _ _ _ =>
      M.mode_does.bind fun _ _ _ => .ite (M.compileLiteral_does (by simp) hL) (M.push_does (by simp))
  | printString =>
    exact M.nextText_does.bind fun _ _ _ => M.mode_does.bind fun _ _ _ =>
      .ite ((M.newText_does _).bind fun _ _ _ => (M.compileLiteral_does (by simp) hL).bind
        fun _ _ _ => M.compileBuiltin_does _ hL) (M.put_does _)
  | comment => exact .modify (.one (.other rfl))
  | lineComment => exact .modify (.one (.other rfl))

theorem run_does (w : DefiningWord) (hL : ∀ b, L (.build b)) : Does L m hand w.run Flow.values := by
  have h : Does L m hand w.act fun _ => [] := act_does w hL
  cases w with
  | execute => exact M.popWord_does.bind fun _ _ _ => .pure (by simp [Flow.values])
  | _ => exact h.bind fun _ _ _ => .done rfl

end DefiningWord

/-! ## Control structures -/

namespace ControlWord

theorem openAt_does (address : Nat) (tag : ControlTag) :
    Does L m hand (openAt address tag) fun _ => [] :=
  (M.pushPlain_does rfl).bind fun _ _ _ => M.pushPlain_does rfl

theorem popAddress_does (fault : ControlFault) : Does L m hand (popAddress fault) fun _ => [] :=
  M.popInt_does.bind fun _ _ _ =>
    .ite ((Does.throw (G := fun _ => []) _).bind fun _ _ _ => .done rfl) (.done rfl)

theorem closeTag_does (tags : List ControlTag) (fault : ControlFault) :
    Does L m hand (closeTag tags fault) fun _ => [] :=
  M.pop_does.bind fun _ _ _ => .ite (popAddress_does fault) (.throw _)

variable (hL : ∀ b, L (.build b))
include hL

theorem compilePlain_does {v : Value} (hv : v.refs = []) :
    Does L m hand (M.compile (.lit v)) fun _ => [] :=
  .gain (.plain hv) (M.compile_does (e := .lit v) List.mem_cons_self hL)

theorem compileHole_does : Does L m hand compileHole fun _ => [] :=
  (M.compileBuiltin_does _ hL).bind fun _ _ _ => M.here_does.bind fun _ _ _ =>
    (compilePlain_does hL rfl).bind fun _ _ _ => .done rfl

theorem fillHole_does (hole target : Nat) : Does L m hand (fillHole hole target) fun _ => [] :=
  .get <| .gain (.plain (v := .nat target) rfl) <| M.onBuilding_does fun w _ hw hx =>
    .one (.patch hw List.mem_cons_self hx (hL w))

theorem compileJump_does (target : Nat) (word : String) :
    Does L m hand (compileJump target word) fun _ => [] :=
  (M.compilePlain_does rfl hL).bind fun _ _ _ => M.compileBuiltin_does _ hL

theorem fillHere_does (hole : Nat) : Does L m hand (do fillHole hole (← M.here)) fun _ => [] :=
  M.here_does.bind fun _ _ _ => fillHole_does hL _ _

theorem build_does (w : ControlWord) : Does L m hand w.build fun _ => [] := by
  cases w with
  | openIf =>
    exact (compileHole_does hL).bind fun _ _ _ => (M.compileBuiltin_does _ hL).bind fun _ _ _ =>
      openAt_does _ _
  | elseBranch =>
    exact (closeTag_does _ _).bind fun _ _ _ => (compileHole_does hL).bind fun _ _ _ =>
      (M.compileBuiltin_does _ hL).bind fun _ _ _ => M.here_does.bind fun _ _ _ =>
        (fillHole_does hL _ _).bind fun _ _ _ => openAt_does _ _
  | closeIf => exact (closeTag_does _ _).bind fun _ _ _ => fillHere_does hL _
  | beginLoop => exact M.here_does.bind fun _ _ _ => openAt_does _ _
  | untilFlag => exact (closeTag_does _ _).bind fun _ _ _ => compileJump_does hL _ _
  | again => exact (closeTag_does _ _).bind fun _ _ _ => compileJump_does hL _ _
  | whileFlag =>
    refine (M.peek_does 0).bind fun _ m₁ _ => ?_
    refine .ite ((Does.throw (G := fun _ => []) _).bind fun _ _ h => by cases h) ?_
    exact (compileHole_does hL).bind fun _ _ _ => (M.compileBuiltin_does _ hL).bind fun _ _ _ =>
      openAt_does _ _
  | repeatLoop =>
    exact (closeTag_does _ _).bind fun _ _ _ => (closeTag_does _ _).bind fun _ _ _ =>
      (compileJump_does hL _ _).bind fun _ _ _ => fillHere_does hL _
  | openCount maySkip =>
    exact (compileHole_does hL).bind fun _ _ _ => (M.compileBuiltin_does _ hL).bind fun _ _ _ =>
      M.here_does.bind fun _ _ _ => (M.pushPlain_does rfl).bind fun _ _ _ => openAt_does _ _
  | closeCount stepped =>
    exact (closeTag_does _ _).bind fun _ _ _ => (popAddress_does _).bind fun _ _ _ =>
      (compileJump_does hL _ _).bind fun _ _ _ => fillHere_does hL _
  | leave => exact M.compileBuiltin_does _ hL
  | unloop => exact M.compileBuiltin_does _ hL
  | recurse => exact M.compile_does (e := .recurse) nofun hL

theorem run_does (w : ControlWord) : Does L m hand w.run fun _ => [] :=
  (M.requireCompiling_does _).bind fun _ _ _ => build_does hL w

end ControlWord

namespace BranchWord

theorem jumpTo_does (address : Int64) : Does L m hand (jumpTo address) fun _ => [] :=
  M.parent_does.bind fun _ _ _ => .get (.ite (M.setParentIp_does _) (.throw _))

theorem openLoop_does (exit limit start : Int64) :
    Does L m hand (openLoop exit limit start) fun _ => [] :=
  (M.pushReturn_does _).bind fun _ _ _ => (M.pushReturn_does _).bind fun _ _ _ =>
    M.pushReturn_does _

theorem dropLoop_does : Does L m hand dropLoop fun _ => [] :=
  M.popReturn_does.bind fun _ _ _ => M.popReturn_does.bind fun _ _ _ =>
    M.popReturn_does.bind fun _ _ _ => .done rfl

theorem setIndex_does (k : Int64) : Does L m hand (setIndex k) fun _ => [] := by
  refine .quiet ?_
  unfold setIndex
  cases m.return.overwrite 0 k <;> rfl

theorem advance_does (entry step : Int64) (stepped : Bool) :
    Does L m hand (advance entry step stepped) fun _ => [] :=
  (M.peekReturn_does 0).bind fun _ _ _ => (M.peekReturn_does 1).bind fun _ _ _ =>
    .ite dropLoop_does ((setIndex_does _).bind fun _ _ _ => jumpTo_does entry)

theorem act_does (w : BranchWord) : Does L m hand w.act fun _ => [] := by
  cases w with
  | inlineLiteral =>
    refine M.parent_does.bind fun f m₁ _ => .get <| (M.lift_does _).bind fun v m₂ hv => ?_
    obtain ⟨hl, rfl⟩ := M.lift_eq_ok hv
    refine .gain (.slot (.xt (w := f.word) (by simp)) (Word.load_eq_ok hl).1) ?_
    exact (M.setParentIp_does _).bind fun _ _ _ => M.push_does (by simp)
  | jump => exact M.popInt_does.bind fun _ _ _ => jumpTo_does _
  | jumpIfFalse =>
    exact M.popInt_does.bind fun _ _ _ => M.popFlag_does.bind fun _ _ _ =>
      .ite (jumpTo_does _) (.done rfl)
  | jumpIfTrue =>
    exact M.popInt_does.bind fun _ _ _ => M.popFlag_does.bind fun _ _ _ =>
      .ite (jumpTo_does _) (.done rfl)
  | enterCount maySkip =>
    exact M.popInt_does.bind fun _ _ _ => M.popInt_does.bind fun _ _ _ =>
      M.popInt_does.bind fun _ _ _ => .ite (jumpTo_does _) (openLoop_does _ _ _)
  | advanceCount stepped =>
    refine M.popInt_does.bind fun entry _ _ => ?_
    cases stepped with
    | false => exact advance_does _ _ _
    | true => exact M.popInt_does.bind fun _ _ _ => advance_does _ _ _
  | leave =>
    exact (M.peekReturn_does 2).bind fun _ _ _ => dropLoop_does.bind fun _ _ _ => jumpTo_does _
  | unloop => exact dropLoop_does
  | index => exact (M.peekReturn_does 0).bind fun _ _ _ => M.pushPlain_does rfl
  | outerIndex => exact (M.peekReturn_does 3).bind fun _ _ _ => M.pushPlain_does rfl
  | exit => exact .done rfl

theorem run_does (w : BranchWord) : Does L m hand w.run Flow.values := by
  have h : Does L m hand w.act fun _ => [] := act_does w
  cases w with
  | exit => exact .done rfl
  | _ => exact h.bind fun _ _ _ => .done rfl

end BranchWord

/-! ## All primitives -/

theorem pushDataAddress_does {f : Frame} {rest : List Frame} (hf : m.frames = f :: rest)
    (hc : (m.heap.word f.word).HasData) : Does L m hand pushDataAddress fun _ => [] := by
  refine M.current_does.bind fun g m₁ hg => .get ?_
  obtain ⟨rfl, rest', hg⟩ := M.current_eq_ok hg
  rw [hf] at hg
  cases hg
  exact .gain (.address hf hc addressable_one) (M.push_does List.mem_cons_self)

theorem pushFirstSlot_does : Does L m hand pushFirstSlot fun _ => [] := by
  refine M.current_does.bind fun f m₁ _ => .get <| (M.lift_does _).bind fun v m₂ hv => ?_
  obtain ⟨hl, rfl⟩ := M.lift_eq_ok hv
  exact .gain (.slot (.xt (w := f.word) (by simp)) (Word.load_eq_ok hl).1)
    (M.push_does List.mem_cons_self)

theorem Does.thenNext {act : M Unit} (h : Does L m hand act fun _ => []) :
    Does L m hand (thenNext act) Flow.values :=
  h.bind fun _ _ _ => .done rfl

/-- **What a primitive does is made of moves**, and it changes no other bodies than it may. -/
theorem Primitive.run_does (p : Primitive) {f : Frame} {rest : List Frame}
    (hf : m.frames = f :: rest) (hc : (m.heap.word f.word).code = .ok (.native p))
    (hL : ∀ e, p.Edits m e → L e) : Does L m hand p.run Flow.values := by
  cases p with
  | stack w => exact w.run_does.thenNext
  | arithmetic w => exact w.run_does
  | float w => exact w.run_does.thenNext
  | output w => exact w.run_does.thenNext
  | memory w => exact w.run_does hL
  | defining w => exact w.run_does fun b => hL (.build b) rfl
  | control w => exact (ControlWord.run_does (fun b => hL (.build b) rfl) w).thenNext
  | branch w => exact w.run_does
  | object w => exact w.run_does.thenNext
  | state w => exact w.run_does.thenNext
  | host w => exact w.run_does
  | dataAddress => exact (pushDataAddress_does hf (.inl hc)).thenNext
  | pushConstant => exact pushFirstSlot_does.thenNext
  | nop => exact .done rfl

end ThreadedForth
