/-
  Secure words for definitions, data slots and control structures.
-/
import ThreadedForth.Proofs.SecureValues

namespace ThreadedForth

variable {m : Machine}

/-! ## Data slots -/

theorem created_sound (h : Heap) (name : String) : (Word.created name).Sound h :=
  ⟨.native .dataAddress, [], rfl, trivial, nofun⟩

theorem createWord_secure (name : String) :
    Secure m (createWord name) fun w m' => m'.heap.Has (.word w) :=
  (M.install_secure (created_sound _ name)).bind fun _ _ _ _ hw =>
    (M.setLast_secure hw).bind fun _ _ _ g _ => .pure fun _ => hw.mono g

theorem addSlot_secure {w : WordId} {v : Value} (hw : m.heap.Has (.word w)) (hv : v.In m.heap) :
    Secure m (addSlot w v) fun _ _ => True :=
  .get (M.changeWord_secure hw fun _ _ hx hy => hx.push (.lit hv) hy)

theorem setLastCode_secure {c : Code} (hc : c.Fits m.heap) :
    Secure m (setLastCode c) fun _ _ => True :=
  (M.lastWith_secure []).bind fun _ _ _ g hw =>
    .get (M.changeWord_secure hw fun _ _ hx hy => hx.setCode (hc.mono g) hy)

theorem Value.toPointer_has {h : Heap} {v : Value} {p : Pointer} (hv : v.In h)
    (hp : v.toPointer = .ok p) : h.Has (.word p.target) := by
  cases v with
  | ptr q =>
    obtain rfl : q = p := by simpa [Value.toPointer] using hp
    exact hv _ List.mem_cons_self
  | _ => simp [Value.toPointer] at hp

theorem Heap.load_in {h : Heap} {p : Pointer} {v : Value} (hs : h.Sound)
    (hp : h.Has (.word p.target)) (hl : h.load p = .ok v) : v.In h :=
  ((hs.word hp).load hl).1

theorem Heap.deref_in {h : Heap} {u v : Value} (hs : h.Sound) (hu : u.In h)
    (hd : h.deref u = .ok v) : v.In h := by
  unfold Heap.deref at hd
  split at hd
  · rename_i p hp
    exact Heap.load_in hs (Value.toPointer_has hu hp) hd
  · cases hd

theorem MemoryWord.run_secure (w : MemoryWord) : Secure m w.run fun f m' => f.In m'.heap := by
  cases w with
  | load =>
    refine M.pop_secure.bind fun u _ _ _ hu => .get <| (M.lift_secure _).bind fun v m₂ hs _ hv =>
      (M.push_secure ?_).bind fun _ _ _ _ _ => .pure fun _ => trivial
    obtain ⟨rfl, hv⟩ := hv
    exact Heap.deref_in hs.heap hu hv
  | store =>
    refine M.pop_secure.bind fun _ _ _ _ ht => M.pop_secure.bind fun v _ _ g₁ hv =>
      (M.lift_secure _).bind fun p _ _ g₂ hp => .get <|
        (M.changeWord_secure ?_ fun _ _ hx hy => hx.store (hv.mono g₂) hy).bind
          fun _ _ _ _ _ => .pure fun _ => trivial
    exact Value.toPointer_has (ht.mono (g₁.trans g₂)) hp.2
  | addStore =>
    refine M.pop_secure.bind fun _ _ _ _ ht => M.pop_secure.bind fun n _ _ g₁ hn =>
      (M.lift_secure _).bind fun p _ _ g₂ hp => .get <| (M.lift_secure _).bind
        fun v m₄ hs g₃ hv => ?_
    have hw := Value.toPointer_has (ht.mono (g₁.trans (g₂.trans g₃))) hp.2
    obtain ⟨rfl, hv⟩ := hv
    refine Operator.applyThen_secure (Heap.load_in hs.heap hw hv) (hn.mono (g₂.trans g₃))
      (fun _ r hr => ?_) _
    rw [List.mem_singleton.1 hr]
    exact hw
  | here =>
    exact M.here_secure.bind fun _ _ _ _ _ => (M.push_secure (.plain rfl)).bind
      fun _ _ _ _ _ => .pure fun _ => trivial
  | comma =>
    exact M.pop_secure.bind fun _ _ _ _ hv => (M.lastWith_secure _).bind fun _ _ _ g hw =>
      (addSlot_secure hw (hv.mono g)).bind fun _ _ _ _ _ => .pure fun _ => trivial
  | allot =>
    refine M.popInt_secure.bind fun k m₁ _ _ _ => ?_
    have hb : ∀ m₂, Secure m₂ (do
        let m ← get
        M.setHeap (m.compiler.expand m.heap m.roots k.toInt.toNat)
        pure Flow.next : M Flow) fun f m' => f.In m'.heap := by
      intro m₂
      refine .get ((M.setHeap_secure fun hs h hh => ?_).bind fun _ _ _ _ _ => .pure fun _ => trivial)
      unfold Compiler.expand at hh
      cases hl : m₂.compiler.last m₂.heap m₂.roots with
      | error e => simp [hl, Bind.bind, Except.bind] at hh
      | ok w =>
        rw [hl] at hh
        have hw : m₂.heap.Has (.word w) :=
          (M.lastWith_secure (m := m₂) [] hs).2.2 w m₂ (by
            show M.lift (m₂.compiler.last m₂.heap ([] ++ m₂.roots)) m₂ = _
            rw [List.nil_append, hl]
            rfl)
        exact hs.heap.changeWord hw (fun _ _ hx hy => hx.expand hy) hh
    exact .ite (fun _ => (Secure.throw _).bind (P := fun _ _ => True) fun _ m₂ _ _ _ => hb m₂)
      fun _ => hb m₁
  | create =>
    exact (M.nextName_secure _).bind fun _ _ _ _ _ => (createWord_secure _).bind
      fun _ _ _ _ _ => .pure fun _ => trivial
  | «variable» =>
    exact (M.nextName_secure _).bind fun _ _ _ _ _ => (createWord_secure _).bind
      fun _ _ _ _ hw => (addSlot_secure hw (.plain rfl)).bind fun _ _ _ _ _ => .pure fun _ => trivial
  | constant =>
    exact (M.nextName_secure _).bind fun _ _ _ _ _ => M.pop_secure.bind fun _ _ _ _ hv =>
      (M.defineConstant_secure _ hv).bind fun _ _ _ _ _ => .pure fun _ => trivial
  | does =>
    refine M.mode_secure.bind fun mode _ _ _ _ => ?_
    cases mode with
    | compiling =>
      exact (M.compileBuiltin_secure _).bind fun _ _ _ _ _ => .pure fun _ => trivial
    | interpreting =>
      exact (M.lastWith_secure []).bind fun _ _ _ _ _ => (M.setMode_secure _).bind
        fun _ _ _ _ _ => .pure fun _ => trivial
    | compilingPostponed =>
      exact (Secure.throw _).bind (P := fun _ _ => True) fun _ _ _ _ _ => .pure fun _ => trivial
    | runtimeCompiling =>
      exact (Secure.throw _).bind (P := fun _ _ => True) fun _ _ _ _ _ => .pure fun _ => trivial
  | doesRuntime =>
    refine M.parent_secure.bind fun f m₁ hs _ hf =>
      (setLastCode_secure ?_).bind fun _ _ _ _ _ => .pure fun _ => trivial
    obtain ⟨rfl, g, rest, hf⟩ := hf
    have := hs.frames f (by rw [hf]; simp)
    exact ⟨this.has, this.one_le, this.le_size⟩

/-! ## Definitions -/

/-- The word that a new definition starts with. -/
def Word.opened (name : String) : Word :=
  { Word.blank name with body := #[.direct .docol] }

theorem Heap.setWord_addWord (h : Heap) (x y : Word) :
    (h.addWord x).2.setWord (h.addWord x).1 y = (h.addWord y).2 := by
  simp only [Heap.addWord, Heap.setWord, Heap.mk.injEq, and_true]
  apply Array.toList_inj.1
  simp

namespace DefiningWord

theorem openDefinition_eq (name : String) (hm : m.compiler.mode = .interpreting) :
    openDefinition name m = .ok ()
      { m with
        heap := (m.heap.addWord (.opened name)).2
        compiler :=
          { mode := .compiling
            building? := some (m.heap.addWord (.opened name)).1
            last? := some (m.heap.addWord (.opened name)).1
            startDepth := m.data.depth } } := by
  have hw := m.heap.word_addWord (.blank name)
  have hp : (Word.blank name).push (.direct .docol) = .ok (.opened name) := rfl
  have hc : (m.heap.addWord (.blank name)).2.changeWord (m.heap.addWord (.blank name)).1
      (fun w => w.push (.direct .docol)) = .ok (m.heap.addWord (.opened name)).2 := by
    unfold Heap.changeWord
    rw [hw]
    simp only [hp, Heap.setWord_addWord]
  have hs : M.compile (.direct .docol)
      { m with
        heap := (m.heap.addWord (.blank name)).2
        compiler :=
          { m.compiler with
            building? := some (m.heap.addWord (.blank name)).1
            last? := some (m.heap.addWord (.blank name)).1
            startDepth := m.data.depth } } = .ok ()
      { m with
        heap := (m.heap.addWord (.opened name)).2
        compiler :=
          { m.compiler with
            building? := some (m.heap.addWord (.blank name)).1
            last? := some (m.heap.addWord (.blank name)).1
            startDepth := m.data.depth } } := by
    show M.setHeap ((m.heap.addWord (.blank name)).2.changeWord (m.heap.addWord (.blank name)).1
      (fun w => w.push (.direct .docol))) _ = _
    rw [hc]
    rfl
  show (if m.compiler.mode ≠ .interpreting then _ else _ : M Unit) m = _
  rw [if_neg (by simp [hm])]
  show EStateM.bind (M.compile (.direct .docol)) _ _ = _
  unfold EStateM.bind
  erw [hs]
  rfl

theorem openDefinition_error (name : String) (hm : m.compiler.mode ≠ .interpreting) :
    openDefinition name m = .error (.compileState .nested) m := by
  show (if m.compiler.mode ≠ .interpreting then _ else _ : M Unit) m = _
  rw [if_pos hm]
  rfl

theorem opened_sound (h : Heap) (name : String) : (Word.opened name).Sound h :=
  ⟨.docol, [], rfl, trivial, nofun⟩

theorem openDefinition_secure (name : String) : Secure m (openDefinition name) fun _ _ => True := by
  intro hs
  by_cases hm : m.compiler.mode = .interpreting
  · have hg := Heap.Grows.addWord m.heap (.opened name)
    have hi : (m.heap.addWord (.opened name)).2.Has (.word (m.heap.addWord (.opened name)).1) := by
      show m.heap.words.size < (m.heap.words.push _).size
      rw [Array.size_push]
      exact Nat.lt_succ_self _
    have hs' := hs.withHeap (hs.heap.addWord (opened_sound m.heap name)) hg
    rw [openDefinition_eq name hm]
    refine ⟨{ hs' with building := fun w hw => ?_, last := fun w hw => ?_ }, hg, fun _ _ _ => trivial⟩
    · cases hw
      exact hi
    · cases hw
      exact hi
  · rw [openDefinition_error name hm]
    exact ⟨hs, .refl _, fun _ _ _ => trivial⟩

theorem checkBalance_secure : Secure m checkBalance fun _ m' => m' = m := by
  refine .get ?_
  refine .ite (fun _ => (Secure.throw _).bind (P := fun _ _ => False) fun _ _ _ _ h => h.elim)
    fun _ => .ite (fun _ => ?_) fun _ => .pure fun _ => rfl
  exact .ite (fun _ => (Secure.throw _).bind (P := fun _ _ => False) fun _ _ _ _ h => h.elim)
    fun _ => .throw _

theorem building_has (hs : m.Sound) {w : WordId} (hw : m.compiler.building = .ok w) :
    m.heap.Has (.word w) := by
  unfold Compiler.building at hw
  split at hw
  · rename_i w' hb
    cases hw
    exact hs.building w hb
  · cases hw

theorem reveal_secure : Secure m reveal fun _ _ => True := by
  refine checkBalance_secure.bind fun _ m₁ hs₁ _ _ => .get <| (M.lift_secure _).bind
    fun w m₂ _ _ hw => ?_
  obtain ⟨rfl, hw⟩ := hw
  have hB := building_has hs₁ hw
  have hset : Secure m₂ (set { m₂ with compiler := { m₂.compiler with building? := none } } : M PUnit)
      fun _ m₁ => m₁ = { m₂ with compiler := { m₂.compiler with building? := none } } :=
    Secure.set fun hs => ⟨{ hs with building := fun w hw => by cases hw }, .refl _⟩
  refine hset.bind fun _ m₃ hs₃ _ hm => ?_
  subst hm
  refine .ite (fun _ => ?_) fun _ => .modify fun hs => ?_
  · refine (Secure.modify fun hs => ?_).bind fun _ _ _ g _ =>
      M.push_secure fun r hr => by rw [List.mem_singleton.1 hr]; exact hB.mono g
    obtain ⟨h₁, h₂⟩ := hs.heap.updateWord hB (f := fun x => { x with hidden := false }) fun _ => rfl
    exact ⟨hs.withHeap h₁ h₂, h₂⟩
  · obtain ⟨h₁, h₂⟩ := hs.heap.updateWord hB (f := fun x => { x with hidden := false }) fun _ => rfl
    refine ⟨{ hs.withHeap h₁ h₂ with dictionary := fun e he => ?_ }, h₂⟩
    rcases List.mem_cons.1 he with rfl | he
    · exact hB.mono h₂
    · exact (hs.dictionary e (List.mem_filter.1 he).1).mono h₂

theorem nextChar_secure (reader : String) : Secure m (nextChar reader) fun v m' => v.In m'.heap := by
  refine (M.nextName_secure reader).bind fun name _ _ _ _ => ?_
  cases name.toList with
  | nil => exact .throw _
  | cons c _ => exact .pure fun _ => .plain rfl

theorem forget_secure : Secure m (act forget) fun _ _ => True := by
  refine (M.nextName_secure _).bind fun name m₁ _ _ _ => .get <| (M.lift_secure _).bind
    fun r m₂ hs _ hr => ?_
  obtain ⟨rfl, hr⟩ := hr
  refine (Secure.set fun hs => ?_).weaken fun _ _ _ _ => trivial
  unfold Dictionary.forget at hr
  split at hr
  · cases hr
  · rename_i w hw
    split at hr
    · cases hr
    · cases hr
      obtain ⟨e, he, rfl⟩ := Option.map_eq_some_iff.1 hw
      have hB := hs.dictionary e (List.mem_of_find?_eq_some he)
      obtain ⟨h₁, h₂⟩ := hs.heap.updateWord hB (f := fun x => { x with hidden := true }) fun _ => rfl
      refine ⟨{ hs.withHeap h₁ h₂ with dictionary := fun e he => ?_ }, h₂⟩
      exact (hs.dictionary e (List.mem_filter.1 he).1).mono h₂

theorem xt_in {h : Heap} {w : WordId} (hw : h.Has (.word w)) : (Value.xt w).In h :=
  fun r hr => by rw [List.mem_singleton.1 hr]; exact hw

theorem act_secure (w : DefiningWord) : Secure m w.act fun _ _ => True := by
  cases w with
  | colon => exact (M.nextName_secure _).bind fun _ _ _ _ _ => openDefinition_secure _
  | noname => exact openDefinition_secure _
  | semicolon =>
    exact (M.requireCompiling_secure _).bind fun _ _ _ _ _ => reveal_secure.bind
      fun _ _ _ _ _ => M.setMode_secure _
  | immediate =>
    refine (M.lastWith_secure []).bind fun w _ _ _ hw => .modify fun hs => ?_
    obtain ⟨h₁, h₂⟩ := hs.heap.updateWord hw (f := fun x => { x with immediate := true }) fun _ => rfl
    exact ⟨hs.withHeap h₁ h₂, h₂⟩
  | postpone =>
    exact (M.requireCompiling_secure _).bind fun _ _ _ _ _ => M.setMode_secure _
  | leftBracket =>
    exact (M.requireCompiling_secure _).bind fun _ _ _ _ _ => M.setMode_secure _
  | rightBracket =>
    exact .get <| (M.lift_secure _).bind fun _ _ _ _ _ => M.setMode_secure _
  | literal =>
    exact (M.requireCompiling_secure _).bind fun _ _ _ _ _ => M.pop_secure.bind
      fun _ _ _ _ hv => M.compileLiteral_secure hv
  | tick => exact (M.nextWord_secure _).bind fun _ _ _ _ hw => M.push_secure (xt_in hw)
  | bracketTick =>
    exact (M.requireCompiling_secure _).bind fun _ _ _ _ _ => (M.nextWord_secure _).bind
      fun _ _ _ _ hw => M.compileLiteral_secure (xt_in hw)
  | execute => exact .pure fun _ => trivial
  | compileComma => exact M.popWord_secure.bind fun _ _ _ _ hw => M.compileWord_secure hw
  | forget => exact forget_secure
  | char => exact (nextChar_secure _).bind fun _ _ _ _ hv => M.push_secure hv
  | bracketChar =>
    exact (M.requireCompiling_secure _).bind fun _ _ _ _ _ => (nextChar_secure _).bind
      fun _ _ _ _ hv => M.compileLiteral_secure hv
  | string =>
    exact M.nextText_secure.bind fun _ _ _ _ _ => (M.newText_secure _).bind fun _ _ _ _ hv =>
      M.mode_secure.bind fun _ _ _ g _ =>
        .ite (fun _ => M.compileLiteral_secure (hv.mono g)) fun _ => M.push_secure (hv.mono g)
  | printString =>
    exact M.nextText_secure.bind fun _ _ _ _ _ => M.mode_secure.bind fun _ _ _ _ _ =>
      .ite (fun _ => (M.newText_secure _).bind fun _ _ _ _ hv =>
        (M.compileLiteral_secure hv).bind fun _ _ _ _ _ => M.compileBuiltin_secure _)
        fun _ => M.put_secure _
  | comment => exact .modify fun hs => ⟨{ hs with }, .refl _⟩
  | lineComment => exact .modify fun hs => ⟨{ hs with }, .refl _⟩

theorem run_secure (w : DefiningWord) : Secure m w.run fun f m' => f.In m'.heap := by
  have h := act_secure (m := m) w
  cases w with
  | execute => exact M.popWord_secure.bind fun _ _ _ _ hw => .pure fun _ => hw
  | _ => exact h.bind fun _ _ _ _ _ => .pure fun _ => trivial

end DefiningWord

/-! ## Control structures -/

namespace ControlWord

theorem openAt_secure (address : Nat) (tag : ControlTag) :
    Secure m (openAt address tag) fun _ _ => True :=
  (M.push_secure (.plain rfl)).bind fun _ _ _ _ _ => M.push_secure (.plain rfl)

theorem popAddress_secure (fault : ControlFault) : Secure m (popAddress fault) fun _ _ => True :=
  M.popInt_secure.bind fun _ _ _ _ _ =>
    .ite (fun _ => (Secure.throw _).bind (P := fun _ _ => True) fun _ _ _ _ _ => .pure fun _ => trivial)
      fun _ => .pure fun _ => trivial

theorem closeTag_secure (tags : List ControlTag) (fault : ControlFault) :
    Secure m (closeTag tags fault) fun _ _ => True :=
  M.pop_secure.bind fun _ _ _ _ _ => .ite (fun _ => popAddress_secure fault) fun _ => .throw _

theorem compileHole_secure : Secure m compileHole fun _ _ => True :=
  (M.compileBuiltin_secure _).bind fun _ _ _ _ _ => M.here_secure.bind fun _ _ _ _ _ =>
    (M.compile_secure (.lit (.plain rfl))).bind fun _ _ _ _ _ => .pure fun _ => trivial

theorem fillHole_secure (hole target : Nat) : Secure m (fillHole hole target) fun _ _ => True :=
  .get (M.onBuilding_secure fun _ _ hx hy => hx.poke (.lit (.plain rfl)) hy)

theorem compileJump_secure (target : Nat) (word : String) :
    Secure m (compileJump target word) fun _ _ => True :=
  (M.compileLiteral_secure (.plain rfl)).bind fun _ _ _ _ _ => M.compileBuiltin_secure _

theorem fillHere_secure (hole : Nat) : Secure m (do fillHole hole (← M.here)) fun _ _ => True :=
  M.here_secure.bind fun _ _ _ _ _ => fillHole_secure _ _

theorem build_secure (w : ControlWord) : Secure m w.build fun _ _ => True := by
  cases w with
  | openIf =>
    exact compileHole_secure.bind fun _ _ _ _ _ => (M.compileBuiltin_secure _).bind
      fun _ _ _ _ _ => openAt_secure _ _
  | elseBranch =>
    exact (closeTag_secure _ _).bind fun _ _ _ _ _ => compileHole_secure.bind fun _ _ _ _ _ =>
      (M.compileBuiltin_secure _).bind fun _ _ _ _ _ => M.here_secure.bind fun _ _ _ _ _ =>
        (fillHole_secure _ _).bind fun _ _ _ _ _ => openAt_secure _ _
  | closeIf => exact (closeTag_secure _ _).bind fun _ _ _ _ _ => fillHere_secure _
  | beginLoop => exact M.here_secure.bind fun _ _ _ _ _ => openAt_secure _ _
  | untilFlag => exact (closeTag_secure _ _).bind fun _ _ _ _ _ => compileJump_secure _ _
  | again => exact (closeTag_secure _ _).bind fun _ _ _ _ _ => compileJump_secure _ _
  | whileFlag =>
    refine (M.peek_secure 0).bind fun _ m₁ _ _ _ => ?_
    have hb : ∀ m₂, Secure m₂ (do
        let hole ← compileHole
        M.compileBuiltin "jumponfalse"
        openAt hole .whileOpen) fun _ _ => True := fun m₂ =>
      compileHole_secure.bind fun _ _ _ _ _ => (M.compileBuiltin_secure _).bind
        fun _ _ _ _ _ => openAt_secure _ _
    exact .ite (fun _ => (Secure.throw _).bind (P := fun _ _ => True) fun _ m₂ _ _ _ => hb m₂)
      fun _ => hb m₁
  | repeatLoop =>
    exact (closeTag_secure _ _).bind fun _ _ _ _ _ => (closeTag_secure _ _).bind fun _ _ _ _ _ =>
      (compileJump_secure _ _).bind fun _ _ _ _ _ => fillHere_secure _
  | openCount maySkip =>
    exact compileHole_secure.bind fun _ _ _ _ _ => (M.compileBuiltin_secure _).bind
      fun _ _ _ _ _ => M.here_secure.bind fun _ _ _ _ _ => (M.push_secure (.plain rfl)).bind
        fun _ _ _ _ _ => openAt_secure _ _
  | closeCount stepped =>
    exact (closeTag_secure _ _).bind fun _ _ _ _ _ => (popAddress_secure _).bind fun _ _ _ _ _ =>
      (compileJump_secure _ _).bind fun _ _ _ _ _ => fillHere_secure _
  | leave => exact M.compileBuiltin_secure _
  | unloop => exact M.compileBuiltin_secure _
  | recurse => exact M.compile_secure (.recurse _)

theorem run_secure (w : ControlWord) : Secure m w.run fun _ _ => True :=
  (M.requireCompiling_secure _).bind fun _ _ _ _ _ => build_secure w

end ControlWord

namespace BranchWord

/-- A jump stays within the calling word, whatever address it is given. -/
theorem jumpTo_secure (address : Int64) : Secure m (jumpTo address) fun _ _ => True := by
  refine M.parent_secure.bind fun f m₁ _ _ hf => .get ?_
  obtain ⟨rfl, g, rest, hf⟩ := hf
  exact .ite (fun h => M.setParentIp_secure hf (by omega) (by omega)) fun _ => .throw _

theorem openLoop_secure (exit limit start : Int64) :
    Secure m (openLoop exit limit start) fun _ _ => True :=
  (M.pushReturn_secure _).bind fun _ _ _ _ _ => (M.pushReturn_secure _).bind fun _ _ _ _ _ =>
    M.pushReturn_secure _

theorem dropLoop_secure : Secure m dropLoop fun _ _ => True :=
  M.popReturn_secure.bind fun _ _ _ _ _ => M.popReturn_secure.bind fun _ _ _ _ _ =>
    M.popReturn_secure.bind fun _ _ _ _ _ => .pure fun _ => trivial

theorem setIndex_secure (k : Int64) : Secure m (setIndex k) fun _ _ => True := by
  intro hs
  unfold setIndex
  cases m.return.overwrite 0 k with
  | error e => exact ⟨hs, .refl _, fun _ _ _ => trivial⟩
  | ok s => exact ⟨{ hs with }, .refl _, fun _ _ _ => trivial⟩

theorem advance_secure (entry step : Int64) (stepped : Bool) :
    Secure m (advance entry step stepped) fun _ _ => True :=
  (M.peekReturn_secure 0).bind fun _ _ _ _ _ => (M.peekReturn_secure 1).bind fun _ _ _ _ _ =>
    .ite (fun _ => dropLoop_secure) fun _ => (setIndex_secure _).bind fun _ _ _ _ _ =>
      jumpTo_secure entry

theorem act_secure (w : BranchWord) : Secure m w.act fun _ _ => True := by
  cases w with
  | inlineLiteral =>
    refine M.parent_secure.bind fun f m₁ _ _ hf => .get <| (M.lift_secure _).bind
      fun v m₂ hs _ hv => ?_
    obtain ⟨rfl, g, rest, hf⟩ := hf
    obtain ⟨rfl, hv⟩ := hv
    have hF := hs.frames f (by rw [hf]; simp)
    obtain ⟨hi, _, hl⟩ := (hs.heap.word hF.has).load hv
    exact (M.setParentIp_secure hf (by omega) hl).bind fun _ _ _ g _ => M.push_secure (hi.mono g)
  | jump => exact M.popInt_secure.bind fun _ _ _ _ _ => jumpTo_secure _
  | jumpIfFalse =>
    exact M.popInt_secure.bind fun _ _ _ _ _ => M.popFlag_secure.bind fun _ _ _ _ _ =>
      .ite (fun _ => jumpTo_secure _) fun _ => .pure fun _ => trivial
  | jumpIfTrue =>
    exact M.popInt_secure.bind fun _ _ _ _ _ => M.popFlag_secure.bind fun _ _ _ _ _ =>
      .ite (fun _ => jumpTo_secure _) fun _ => .pure fun _ => trivial
  | enterCount maySkip =>
    exact M.popInt_secure.bind fun _ _ _ _ _ => M.popInt_secure.bind fun _ _ _ _ _ =>
      M.popInt_secure.bind fun _ _ _ _ _ =>
        .ite (fun _ => jumpTo_secure _) fun _ => openLoop_secure _ _ _
  | advanceCount stepped =>
    refine M.popInt_secure.bind fun entry _ _ _ _ => ?_
    cases stepped with
    | false => exact advance_secure _ _ _
    | true => exact M.popInt_secure.bind fun _ _ _ _ _ => advance_secure _ _ _
  | leave =>
    exact (M.peekReturn_secure 2).bind fun _ _ _ _ _ => dropLoop_secure.bind fun _ _ _ _ _ =>
      jumpTo_secure _
  | unloop => exact dropLoop_secure
  | index => exact (M.peekReturn_secure 0).bind fun _ _ _ _ _ => M.push_secure (.plain rfl)
  | outerIndex => exact (M.peekReturn_secure 3).bind fun _ _ _ _ _ => M.push_secure (.plain rfl)
  | exit => exact .pure fun _ => trivial

theorem run_secure (w : BranchWord) : Secure m w.run fun f m' => f.In m'.heap := by
  have h := act_secure (m := m) w
  cases w with
  | exit => exact .pure fun _ => trivial
  | _ => exact h.bind fun _ _ _ _ _ => .pure fun _ => trivial

end BranchWord

/-! ## All primitives -/

theorem pushDataAddress_secure : Secure m pushDataAddress fun _ _ => True := by
  refine M.current_secure.bind fun f m₁ hs _ hf => .get (M.push_secure fun r hr => ?_)
  obtain ⟨rfl, rest, hf⟩ := hf
  rw [List.mem_singleton.1 hr]
  exact (hs.frames f (by rw [hf]; simp)).has

theorem pushFirstSlot_secure : Secure m pushFirstSlot fun _ _ => True := by
  refine M.current_secure.bind fun f m₁ _ _ hf => .get <| (M.lift_secure _).bind
    fun v m₂ hs _ hv => M.push_secure ?_
  obtain ⟨rfl, rest, hf⟩ := hf
  obtain ⟨rfl, hv⟩ := hv
  exact ((hs.heap.word (hs.frames f (by rw [hf]; simp)).has).load hv).1

theorem Secure.thenNext {act : M Unit} (h : Secure m act fun _ _ => True) :
    Secure m (thenNext act) fun f m' => f.In m'.heap :=
  h.bind fun _ _ _ _ _ => .pure fun _ => trivial

/-- Every primitive keeps a machine well formed. -/
theorem Primitive.run_secure (p : Primitive) : Secure m p.run fun f m' => f.In m'.heap := by
  cases p with
  | stack w => exact w.run_secure.thenNext
  | arithmetic w => exact w.run_secure
  | float w => exact w.run_secure.thenNext
  | output w => exact w.run_secure.thenNext
  | memory w => exact w.run_secure
  | defining w => exact w.run_secure
  | control w => exact w.run_secure.thenNext
  | branch w => exact w.run_secure
  | object w => exact w.run_secure.thenNext
  | state w => exact w.run_secure.thenNext
  | host w => exact w.run_secure
  | dataAddress => exact pushDataAddress_secure.thenNext
  | pushConstant => exact pushFirstSlot_secure.thenNext
  | nop => exact .pure fun _ => trivial

end ThreadedForth
