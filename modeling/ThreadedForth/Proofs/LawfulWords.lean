/-
  Lawful words for data slots, definitions and control structures, and the engine.
-/
import ThreadedForth.Proofs.LawfulValues
import ThreadedForth.Proofs.WellFormed

namespace ThreadedForth

variable {α β : Type} {L : Law} {m : Machine}

/-- A computation after another that leaves the machine as it is. -/
theorem Lawful.bind_same {P : α → Prop} {Q : β → Prop} {x : M α} {f : α → M β}
    (hx : Lawful L m x P) (hsame : ∀ a m', x m = .ok a m' → m' = m)
    (hf : ∀ a, P a → Lawful L m (f a) Q) : Lawful L m (x >>= f) Q :=
  hx.bind_at fun a m₁ hr ha => hsame a m₁ hr ▸ hf a ha

/-! ## Data slots -/

theorem created_obeys {name : String} (hn : L.Text name) : (Word.created name).Obeys L := by
  refine ⟨hn.foldCase, fun e he => ?_⟩
  simp only [Word.created, List.mem_toArray, List.mem_cons, List.not_mem_nil, or_false] at he
  subst he
  exact fun _ => rfl

theorem createWord_lawful {name : String} (hn : L.Text name) :
    Lawful L m (createWord name) L.callee :=
  (M.install_lawful (created_obeys hn)).bind fun _ _ hw => (M.setLast_lawful _).bind
    fun _ _ _ => .pure hw

theorem addSlot_lawful (w : WordId) {v : Value} (hv : v.Obeys L) : Lawful L m (addSlot w v) :=
  .get fun hm => M.setHeap_lawful (hm.heap.changeWord w ((hm.heap.word w).push (e := .lit v) hv))

theorem Word.Obeys.setCode {w : Word} (hw : w.Obeys L) {c : Code} (hc : c.Obeys L) :
    Keeping L (Word.Obeys L) (w.setCode c) :=
  hw.poke 0 (e := .direct c) hc

theorem setLastCode_lawful {c : Code} (hc : c.Obeys L) : Lawful L m (setLastCode c) :=
  (M.lastWith_lawful []).bind fun w _ _ => .get fun hm =>
    M.setHeap_lawful (hm.heap.changeWord w ((hm.heap.word w).setCode hc))

/-- Whether a machine is about to give the word created last too many slots. -/
def Machine.AllotsTooMany (m : Machine) : Prop :=
  ∃ n w, m.data.topInt? = some n ∧ m.compiler.last? = some w ∧
    slotLimit < (m.heap.word w).size + n.toInt.toNat

theorem M.popInt_keeps {n : Int64} {m' : Machine} (h : M.popInt m = .ok n m') :
    ∃ data, m' = { m with data } := by
  obtain ⟨v, m₁, hp, hl⟩ := M.of_bind_ok h
  obtain ⟨data, -, rfl⟩ := M.of_pop_ok hp
  cases hv : v.toInt with
  | error e =>
    rw [hv] at hl
    cases hl
  | ok k =>
    rw [hv] at hl
    cases hl
    exact ⟨data, rfl⟩

theorem allot_lawful (hn : m.AllotsTooMany → L.faults) :
    Lawful L m (MemoryWord.run .allot) (Flow.Obeys L) := by
  refine M.popInt_lawful_top.bind_at fun n m₁ hp htop => ?_
  obtain ⟨data, rfl⟩ := M.popInt_keeps hp
  refine .orThrow rfl fun _ => .get fun hm => Lawful.next (M.setHeap_lawful ?_)
  exact Compiler.expand_keeping hm.heap _ fun w hw hlt => hn ⟨n, w, htop, hw, hlt⟩

theorem MemoryWord.run_lawful (w : MemoryWord) (hn : w = .allot → m.AllotsTooMany → L.faults) :
    Lawful L m w.run (Flow.Obeys L) := by
  cases w with
  | load =>
    exact M.pop_lawful.bind fun v _ _ => .get fun hm => (M.lift_lawful (hm.heap.deref v)).bind
      fun _ _ hv => (M.push_lawful hv).next
  | store =>
    exact M.pop_lawful.bind fun _ _ ht => M.pop_lawful.bind fun _ _ hv =>
      (M.lift_lawful (Value.toPointer_keeping ht)).bind fun p _ _ => .get fun hm =>
        (M.setHeap_lawful (hm.heap.store p hv)).next
  | addStore =>
    refine M.pop_lawful.bind fun _ _ ht => M.pop_lawful.bind fun _ _ hn =>
      (M.lift_lawful (Value.toPointer_keeping ht)).bind fun p _ hp => .get fun hm =>
        (M.lift_lawful (hm.heap.load p)).bind fun _ _ hv => Operator.applyThen_lawful hv hn ?_ _
    exact hp
  | here => exact M.here_lawful.bind fun _ _ _ => (M.push_lawful (.inert rfl)).next
  | comma =>
    exact M.pop_lawful.bind fun _ _ hv => (M.lastWith_lawful _).bind fun _ _ _ =>
      (addSlot_lawful _ hv).next
  | allot => exact allot_lawful (hn rfl)
  | create =>
    exact (M.nextName_lawful _).bind fun _ _ hname => (createWord_lawful hname).bind fun _ _ _ =>
      .pure trivial
  | «variable» =>
    exact (M.nextName_lawful _).bind fun _ _ hname => (createWord_lawful hname).bind fun _ _ _ =>
      (addSlot_lawful _ (.inert rfl)).next
  | constant =>
    exact (M.nextName_lawful _).bind fun _ _ hname => M.pop_lawful.bind fun _ _ hv =>
      (M.defineConstant_lawful hname hv).bind fun _ _ _ => .pure trivial
  | does =>
    refine M.mode_lawful.bind fun mode _ _ => ?_
    cases mode with
    | compiling => exact (M.compileBuiltin_lawful _).next
    | interpreting =>
      exact (M.lastWith_lawful []).bind fun _ _ _ => (M.setMode_lawful _ L.draft_pending).next
    | compilingPostponed | runtimeCompiling =>
      exact (Lawful.throw (P := fun _ => True) rfl).bind fun _ _ _ => .pure trivial
  | doesRuntime =>
    refine M.parent_lawful.bind fun f _ hf => (setLastCode_lawful ?_).bind fun _ _ _ => .pure trivial
    exact hf

/-! ## Definitions -/

theorem Machine.Obeys.skipComment (hm : m.Obeys L) : m.skipComment.Obeys L := by
  have hline := hm.bounded.line.skipComment (m.line.text.length + 1)
  exact { hm with bounded := { hm.bounded with line := hline } }

namespace DefiningWord

theorem opened_obeys {name : String} (hn : L.Text name) : (Word.opened name).Obeys L := by
  refine ⟨hn.foldCase, fun e he => ?_⟩
  simp only [Word.opened, List.mem_toArray, List.mem_cons, List.not_mem_nil, or_false] at he
  subst he
  trivial

theorem openDefinition_lawful {name : String} (hn : L.Text name)
    (hd : ∀ w, L.draft .compiling (some w)) : Lawful L m (openDefinition name) := by
  intro hm
  by_cases hmode : m.compiler.mode = .interpreting
  · rw [openDefinition_eq name hmode]
    exact ⟨{ hm with
      heap := hm.heap.addWord (opened_obeys hn)
      draft := hd _
      bounded := { hm.bounded with } }, trivial⟩
  · rw [openDefinition_error name hmode]
    exact ⟨hm, .of_ne rfl⟩

theorem checkBalance_lawful : Lawful L m checkBalance := by
  refine .get fun _ => .orThrow rfl fun _ => .ite ?_ .done
  exact .orThrow rfl fun _ => .throw rfl

theorem checkBalance_same {m' : Machine} (h : checkBalance m = .ok () m') : m' = m := by
  rw [checkBalance, M.bind_ok (x := MonadState.get) rfl] at h
  split at h
  · cases h
  · split at h
    · split at h
      · cases h
      · cases h
    · cases h
      rfl

theorem requireCompiling_same {word : String} {m' : Machine}
    (h : M.requireCompiling word m = .ok () m') : m' = m := by
  have hmode : M.mode m = .ok m.compiler.mode m := rfl
  rw [M.requireCompiling, M.bind_ok hmode] at h
  split at h
  · cases h
    rfl
  · cases h

theorem requireCompiling_error {word : String} {e : Error} {m' : Machine}
    (h : M.requireCompiling word m = .error e m') : m' = m := by
  have hmode : M.mode m = .ok m.compiler.mode m := rfl
  rw [M.requireCompiling, M.bind_ok hmode] at h
  split at h
  · cases h
  · cases h
    rfl

theorem building_same {w : WordId} {m' : Machine}
    (h : M.lift m.compiler.building m = .ok w m') : m' = m := by
  cases hc : m.compiler.building with
  | error e =>
    rw [hc] at h
    cases h
  | ok b =>
    rw [hc] at h
    cases h
    rfl

/-- The word under construction becomes one that may be referred to. -/
theorem reveal_lawful (hb : ∀ b, m.compiler.building? = some b → L.callee b)
    (hd : ∀ mode, L.draft mode none) : Lawful L m reveal := by
  refine checkBalance_lawful.bind_same (fun _ _ => checkBalance_same) fun _ _ => .get fun _ => ?_
  refine (M.lift_lawful Compiler.building_keeping).bind_same (fun _ _ => building_same)
    fun w hw => ?_
  refine fun hm => Lawful.bind (P := fun _ => True) (Lawful.set ?_) (fun _ m₁ _ => ?_) hm
  · exact { hm with draft := hd _, bounded := { hm.bounded with } }
  · refine .ite ((Lawful.modify fun hm => ?_).bind fun _ _ _ => M.push_lawful (hb w hw))
      (.modify fun hm => ?_)
    · exact { hm with heap := hm.heap.hide w false, bounded := { hm.bounded with } }
    · refine { hm with
        heap := hm.heap.hide w false
        dictionary := fun e he => ?_
        bounded := { hm.bounded with } }
      rcases List.mem_cons.1 he with rfl | he
      · exact hb w hw
      · exact hm.dictionary e (List.mem_filter.1 he).1

theorem nextChar_lawful (reader : String) : Lawful L m (nextChar reader) (Value.Obeys L) := by
  refine (M.nextName_lawful reader).bind fun name _ hname => ?_
  cases hcs : name.toList with
  | nil => exact .throw rfl
  | cons c cs =>
    refine .pure fun hc => ?_
    have hascii : isAscii c = true := hname hc c (hcs ▸ List.mem_cons_self)
    have hlt := isAscii_iff.1 hascii
    refine UInt8.lt_iff_toNat_lt.2 ?_
    rw [UInt8.toNat_ofNat', Nat.mod_eq_of_lt (by omega)]
    exact hlt

theorem forget_keeping {d : Dictionary} {h : Heap} {name : String} (hh : h.Obeys L)
    (hd : ∀ e ∈ d.entries, L.callee e.2) :
    Keeping L (fun r => (∀ e ∈ r.2.1.entries, L.callee e.2) ∧ r.2.2.Obeys L) (d.forget h name) := by
  unfold Dictionary.forget
  split
  · exact .error rfl
  · split
    · exact .error rfl
    · exact ⟨fun e he => hd e (List.mem_filter.1 he).1, hh.hide _ true⟩

/-- A word that opens or closes a definition is lawful if the law lets it. -/
theorem act_lawful (w : DefiningWord)
    (ho : w = .colon ∨ w = .noname → ∀ u, L.draft .compiling (some u))
    (hc : w = .semicolon →
      (∀ b, m.compiler.building? = some b → L.callee b) ∧ ∀ mode, L.draft mode none) :
    Lawful L m w.act := by
  cases w with
  | colon =>
    exact (M.nextName_lawful _).bind fun _ _ hname => openDefinition_lawful hname (ho (.inl rfl))
  | noname => exact openDefinition_lawful (.of_ascii (by decide)) (ho (.inr rfl))
  | semicolon =>
    exact (M.requireCompiling_lawful _).bind_same (fun _ _ => requireCompiling_same) fun _ _ =>
      (reveal_lawful (hc rfl).1 (hc rfl).2).bind fun _ _ _ => M.setMode_lawful _ L.draft_interpreting
  | immediate =>
    exact (M.lastWith_lawful []).bind fun w _ _ => .modify fun hm =>
      { hm with
        heap := hm.heap.updateWord w (f := fun x => { x with immediate := true })
          fun _ hx => ⟨hx.name, hx.body⟩
        bounded := { hm.bounded with } }
  | postpone =>
    exact (M.requireCompiling_lawful _).bind_same (fun _ _ => requireCompiling_same) fun _ hmode =>
      M.setMode_lawful _ fun hd => L.draft_postponed (hmode ▸ hd)
  | leftBracket =>
    exact (M.requireCompiling_lawful _).bind fun _ _ _ => M.setMode_lawful _ L.draft_interpreting
  | rightBracket =>
    refine .get fun _ => (M.lift_lawful Compiler.building_keeping).bind_same
      (fun _ _ => building_same) fun w hw => M.setMode_lawful _ fun hd => ?_
    exact L.draft_compiling (.inr fun h => by cases hw.symm.trans h) hd
  | literal =>
    exact (M.requireCompiling_lawful _).bind fun _ _ _ => M.pop_lawful.bind fun _ _ hv =>
      M.compileLiteral_lawful hv
  | tick => exact (M.nextWord_lawful _).bind fun w _ hw => M.push_lawful (v := .xt w) hw
  | bracketTick =>
    exact (M.requireCompiling_lawful _).bind fun _ _ _ => (M.nextWord_lawful _).bind fun w _ hw =>
      M.compileLiteral_lawful (v := .xt w) hw
  | execute => exact .done
  | compileComma => exact M.popWord_lawful.bind fun _ _ hw => M.compileWord_lawful hw
  | forget =>
    refine (M.nextName_lawful _).bind fun name _ _ => .get fun hm =>
      (M.lift_lawful (forget_keeping hm.heap hm.dictionary)).bind fun r _ hr => Lawful.set ?_
    exact { hm with dictionary := hr.1, heap := hr.2, bounded := { hm.bounded with } }
  | char => exact (nextChar_lawful _).bind fun _ _ hv => M.push_lawful hv
  | bracketChar =>
    exact (M.requireCompiling_lawful _).bind fun _ _ _ => (nextChar_lawful _).bind fun _ _ hv =>
      M.compileLiteral_lawful hv
  | string =>
    exact M.nextText_lawful.bind fun _ _ ht => (M.newText_lawful ht).bind fun _ _ hv =>
      M.mode_lawful.bind fun _ _ _ => .ite (M.compileLiteral_lawful hv) (M.push_lawful hv)
  | printString =>
    exact M.nextText_lawful.bind fun _ _ ht => M.mode_lawful.bind fun _ _ _ =>
      .ite ((M.newText_lawful ht).bind fun _ _ hv => (M.compileLiteral_lawful hv).bind fun _ _ _ =>
        M.compileBuiltin_lawful _) (M.put_lawful ht)
  | comment =>
    exact .modify fun hm => hm.skipComment
  | lineComment =>
    exact .modify fun hm => { hm with bounded := { hm.bounded with line := hm.bounded.line.skip } }

theorem run_lawful (w : DefiningWord)
    (ho : w = .colon ∨ w = .noname → ∀ u, L.draft .compiling (some u))
    (hc : w = .semicolon →
      (∀ b, m.compiler.building? = some b → L.callee b) ∧ ∀ mode, L.draft mode none) :
    Lawful L m w.run (Flow.Obeys L) := by
  have h := act_lawful w ho hc
  cases w with
  | execute => exact M.popWord_lawful.bind fun _ _ hw => .pure hw
  | _ => exact h.next

end DefiningWord

/-! ## Control structures -/

namespace ControlWord

theorem openAt_lawful (address : Nat) (tag : ControlTag) : Lawful L m (openAt address tag) :=
  (M.push_lawful (.inert rfl)).bind fun _ _ _ => M.push_lawful (.inert rfl)

theorem popAddress_lawful (fault : ControlFault) : Lawful L m (popAddress fault) :=
  M.popInt_lawful.bind fun _ _ _ => .orThrow rfl fun _ => .done

theorem closeTag_lawful (tags : List ControlTag) (fault : ControlFault) :
    Lawful L m (closeTag tags fault) :=
  M.pop_lawful.bind fun _ _ _ => .ite (popAddress_lawful fault) (.throw rfl)

theorem compileHole_lawful : Lawful L m compileHole :=
  (M.compileBuiltin_lawful _).bind fun _ _ _ => M.here_lawful.bind fun _ _ _ =>
    (M.compile_lawful (e := .lit (.int 0)) trivial).bind fun _ _ _ => .done

theorem fillHole_lawful (hole target : Nat) : Lawful L m (fillHole hole target) :=
  .get fun hm => M.setHeap_lawful (Compiler.alter_keeping hm.heap _ (e := .lit (.nat target)) trivial)

theorem compileJump_lawful (target : Nat) (word : String) : Lawful L m (compileJump target word) :=
  (M.compileLiteral_lawful (.inert rfl)).bind fun _ _ _ => M.compileBuiltin_lawful _

theorem fillHere_lawful (hole : Nat) : Lawful L m (do fillHole hole (← M.here)) :=
  M.here_lawful.bind fun _ _ _ => fillHole_lawful _ _

theorem build_lawful (w : ControlWord) : Lawful L m w.build := by
  cases w with
  | openIf =>
    exact compileHole_lawful.bind fun _ _ _ => (M.compileBuiltin_lawful _).bind fun _ _ _ =>
      openAt_lawful _ _
  | elseBranch =>
    exact (closeTag_lawful _ _).bind fun _ _ _ => compileHole_lawful.bind fun _ _ _ =>
      (M.compileBuiltin_lawful _).bind fun _ _ _ => M.here_lawful.bind fun _ _ _ =>
        (fillHole_lawful _ _).bind fun _ _ _ => openAt_lawful _ _
  | closeIf => exact (closeTag_lawful _ _).bind fun _ _ _ => fillHere_lawful _
  | beginLoop => exact M.here_lawful.bind fun _ _ _ => openAt_lawful _ _
  | untilFlag => exact (closeTag_lawful _ _).bind fun _ _ _ => compileJump_lawful _ _
  | again => exact (closeTag_lawful _ _).bind fun _ _ _ => compileJump_lawful _ _
  | whileFlag =>
    exact (M.peek_lawful 0).bind fun _ _ _ => .orThrow rfl fun _ => compileHole_lawful.bind
      fun _ _ _ => (M.compileBuiltin_lawful _).bind fun _ _ _ => openAt_lawful _ _
  | repeatLoop =>
    exact (closeTag_lawful _ _).bind fun _ _ _ => (closeTag_lawful _ _).bind fun _ _ _ =>
      (compileJump_lawful _ _).bind fun _ _ _ => fillHere_lawful _
  | openCount maySkip =>
    exact compileHole_lawful.bind fun _ _ _ => (M.compileBuiltin_lawful _).bind fun _ _ _ =>
      M.here_lawful.bind fun _ _ _ => (M.push_lawful (.inert rfl)).bind fun _ _ _ =>
        openAt_lawful _ _
  | closeCount stepped =>
    exact (closeTag_lawful _ _).bind fun _ _ _ => (popAddress_lawful _).bind fun _ _ _ =>
      (compileJump_lawful _ _).bind fun _ _ _ => fillHere_lawful _
  | leave => exact M.compileBuiltin_lawful _
  | unloop => exact M.compileBuiltin_lawful _
  | recurse => exact M.compile_lawful (e := .recurse) trivial

theorem run_lawful (w : ControlWord) : Lawful L m w.run :=
  (M.requireCompiling_lawful _).bind fun _ _ _ => build_lawful w

end ControlWord

namespace BranchWord

theorem jumpTo_lawful (address : Int64) : Lawful L m (jumpTo address) :=
  M.parent_lawful.bind fun _ _ _ => .get fun _ => .ite (M.setParentIp_lawful _) (.throw rfl)

theorem openLoop_lawful (exit limit start : Int64) : Lawful L m (openLoop exit limit start) :=
  (M.pushReturn_lawful _).bind fun _ _ _ => (M.pushReturn_lawful _).bind fun _ _ _ =>
    M.pushReturn_lawful _

theorem dropLoop_lawful : Lawful L m dropLoop :=
  M.popReturn_lawful.bind fun _ _ _ => M.popReturn_lawful.bind fun _ _ _ =>
    M.popReturn_lawful.bind fun _ _ _ => .done

theorem setIndex_lawful (k : Int64) : Lawful L m (setIndex k) := by
  intro hm
  unfold setIndex
  cases hs : m.return.overwrite 0 k with
  | error e =>
    refine ⟨hm, ?_⟩
    unfold Stack.overwrite at hs
    split at hs
    · cases hs
    · cases hs
      exact .of_ne rfl
  | ok s =>
    exact ⟨{ hm with
      bounded := { hm.bounded with «return» := hm.bounded.return.overwrite hs } }, trivial⟩

theorem advance_lawful (entry step : Int64) (stepped : Bool) :
    Lawful L m (advance entry step stepped) :=
  (M.peekReturn_lawful 0).bind fun _ _ _ => (M.peekReturn_lawful 1).bind fun _ _ _ =>
    .ite dropLoop_lawful ((setIndex_lawful _).bind fun _ _ _ => jumpTo_lawful entry)

theorem act_lawful (w : BranchWord) : Lawful L m w.act := by
  cases w with
  | inlineLiteral =>
    exact M.parent_lawful.bind fun f _ _ => .get fun hm =>
      (M.lift_lawful ((hm.heap.word f.word).load f.ip)).bind fun _ _ hv =>
        (M.setParentIp_lawful _).bind fun _ _ _ => M.push_lawful hv
  | jump => exact M.popInt_lawful.bind fun _ _ _ => jumpTo_lawful _
  | jumpIfFalse =>
    exact M.popInt_lawful.bind fun _ _ _ => M.popFlag_lawful.bind fun _ _ _ =>
      .ite (jumpTo_lawful _) .done
  | jumpIfTrue =>
    exact M.popInt_lawful.bind fun _ _ _ => M.popFlag_lawful.bind fun _ _ _ =>
      .ite (jumpTo_lawful _) .done
  | enterCount maySkip =>
    exact M.popInt_lawful.bind fun _ _ _ => M.popInt_lawful.bind fun _ _ _ =>
      M.popInt_lawful.bind fun _ _ _ => .ite (jumpTo_lawful _) (openLoop_lawful _ _ _)
  | advanceCount stepped =>
    refine M.popInt_lawful.bind fun _ _ _ => ?_
    cases stepped with
    | false => exact advance_lawful _ _ _
    | true => exact M.popInt_lawful.bind fun _ _ _ => advance_lawful _ _ _
  | leave =>
    exact (M.peekReturn_lawful 2).bind fun _ _ _ => dropLoop_lawful.bind fun _ _ _ =>
      jumpTo_lawful _
  | unloop => exact dropLoop_lawful
  | index => exact (M.peekReturn_lawful 0).bind fun _ _ _ => M.push_lawful (.inert rfl)
  | outerIndex => exact (M.peekReturn_lawful 3).bind fun _ _ _ => M.push_lawful (.inert rfl)
  | exit => exact .done

theorem run_lawful (w : BranchWord) : Lawful L m w.run (Flow.Obeys L) := by
  have h := act_lawful (L := L) (m := m) w
  cases w with
  | exit => exact .pure trivial
  | _ => exact h.next

end BranchWord

/-! ## All primitives -/

theorem pushDataAddress_lawful : Lawful L m pushDataAddress :=
  M.current_lawful.bind fun _ _ hf => .get fun _ => M.push_lawful (v := .ptr _) hf

theorem pushFirstSlot_lawful : Lawful L m pushFirstSlot :=
  M.current_lawful.bind fun f _ _ => .get fun hm =>
    (M.lift_lawful ((hm.heap.word f.word).load 1)).bind fun _ _ hv => M.push_lawful hv

/-- A primitive that is about to ask for more slots than a word or an array can have. -/
def Primitive.Exceeds (m : Machine) : Primitive → Prop
  | memory .allot => m.AllotsTooMany
  | object .new => m.MakesTooMany
  | _ => False

/-- What a law has to allow for a primitive to run under it. -/
structure Primitive.Allowed (L : Law) (m : Machine) (p : Primitive) : Prop where
  /-- A definition may be opened. -/
  opening : p = .defining .colon ∨ p = .defining .noname → ∀ w, L.draft .compiling (some w)
  /-- The word under construction may be referred to, and none may be left. -/
  closing : p = .defining .semicolon →
    (∀ b, m.compiler.building? = some b → L.callee b) ∧ ∀ mode, L.draft mode none
  /-- An allocation may fail. -/
  asking : p.Exceeds m → L.faults

/-- **What every primitive keeps to** that is allowed, and is no word of a host of a closed
    machine. -/
theorem Primitive.run_lawful {p : Primitive} (hp : p.Allowed L m)
    (hhost : L.closed → p.isHost = false) : Lawful L m p.run (Flow.Obeys L) := by
  cases p with
  | stack w => exact w.run_lawful.next
  | arithmetic w => exact w.run_lawful
  | float w => exact w.run_lawful.next
  | output w => exact w.run_lawful.next
  | memory w =>
    refine w.run_lawful fun hw => ?_
    subst hw
    exact hp.asking
  | defining w =>
    refine w.run_lawful (fun hw => hp.opening ?_) fun hw => hp.closing (hw ▸ rfl)
    rcases hw with rfl | rfl
    · exact .inl rfl
    · exact .inr rfl
  | control w => exact w.run_lawful.next
  | branch w => exact w.run_lawful
  | object w =>
    refine (w.run_lawful fun hw => ?_).next
    subst hw
    exact hp.asking
  | state w => exact w.run_lawful.next
  | host w => exact w.run_lawful fun hc => Bool.noConfusion (hhost hc)
  | dataAddress => exact pushDataAddress_lawful.next
  | pushConstant => exact pushFirstSlot_lawful.next
  | nop => exact .pure trivial

end ThreadedForth
