/-
  Runs and lines on machines that are alike.
-/
import ThreadedForth.Proofs.LikenessWords

namespace ThreadedForth

variable {α β : Type}

namespace Likeness

variable {L : Likeness} {x y : Machine} {φ : α → Prop} {ψ : β → Prop}

/-- Two steps are the same, and lead to machines that are alike. -/
inductive SameStep (L : Likeness) : Progress → Progress → Prop
  | running {x y : Machine} (h : L.alike x y) : SameStep L (.running x) (.running y)
  | ended {x y : Machine} (h : L.alike x y) : SameStep L (.ended x) (.ended y)
  | failed {x y : Machine} (e : Error) (h : L.alike x y) : SameStep L (.failed e x) (.failed e y)

/-- Two runs end in the same way and leave machines that are alike, or neither has ended. -/
inductive SameEnd (L : Likeness) : Option (EStateM.Result Error Machine α) →
    Option (EStateM.Result Error Machine α) → Prop
  | none : SameEnd L none none
  | some {r s : EStateM.Result Error Machine α} (h : L.Same (fun _ => True) r s) :
    SameEnd L (some r) (some s)

/-- The likeness allows what a primitive is about to do to two machines. -/
structure Allows (L : Likeness) (x y : Machine) (p : Primitive) : Prop where
  source : p.usesSource x = true → L.Building
  names : p.consults x = true → L.Naming
  answers : p.SameAnswers x y

/-- The likeness allows what the primitives of two runs are about to do, as long as the machines
    are alike. -/
def AllowsRun (L : Likeness) (x y : Machine) : Prop :=
  ∀ n x' y' p, Machine.Goes n x x' → Machine.Goes n y y' → L.alike x' y' →
    x'.primitive? = some p → L.Allows x' y' p

/-! ## Steps -/

namespace Basic

variable (B : L.Basic)
include B

theorem known_frames (h : L.alike x y) : ∀ f ∈ x.frames, L.known f.word := (B.holds h).frames

theorem popFrame (h : L.alike x y) : L.alike x.popFrame y.popFrame := by
  unfold Machine.popFrame
  rw [← B.frames_eq h]
  exact B.setFrames h fun f hf => (B.holds h).frames f (List.mem_of_mem_tail hf)

theorem enter (h : L.alike x y) {w : WordId} (hw : L.known w) : L.alike (x.enter w) (y.enter w) := by
  unfold Machine.enter
  rw [← B.frames_eq h]
  refine B.setFrames h fun f hf => ?_
  rcases List.mem_cons.1 hf with rfl | hf
  · exact hw
  · exact (B.holds h).frames f hf

theorem setRuns (h : L.alike x y) {rs : List Run}
    (hr : ∀ r ∈ rs, ∀ v ∈ r.pending.values, L.Knows v) :
    L.alike { x with runs := rs } { y with runs := rs } :=
  B.change h (fun c => { c with runs := rs }) { B.holds h with runs := hr }

theorem startRun (h : L.alike x y) {w : WordId} (hw : L.known w) {pending : Pending}
    (hp : ∀ v ∈ pending.values, L.Knows v) :
    L.alike (x.startRun w pending) (y.startRun w pending) := by
  have he : y.startRun w pending =
      ({ y with runs := ⟨x.frames.length, pending⟩ :: x.runs } : Machine).enter w := by
    rw [Machine.startRun, ← B.frames_eq h, ← B.runs_eq h]
  rw [he]
  refine B.enter (B.setRuns h fun r hr => ?_) hw
  rcases List.mem_cons.1 hr with rfl | hr
  · exact hp
  · exact (B.holds h).runs r hr

theorem isBackAt_eq (h : L.alike x y) (depth : Nat) : x.isBackAt depth = y.isBackAt depth := by
  unfold Machine.isBackAt
  rw [B.frames_eq h]

theorem proceed (h : L.alike x y) {flow : Flow} (hf : L.Leads flow) :
    L.alike (x.proceed flow) (y.proceed flow) := by
  cases flow with
  | next => exact B.popFrame h
  | leave =>
    have hbase : x.runBase = y.runBase := by
      unfold Machine.runBase
      rw [B.runs_eq h]
    simp only [Machine.proceed, ← hbase, ← B.isBackAt_eq (B.popFrame h)]
    split
    · exact B.popFrame h
    · exact B.popFrame (B.popFrame h)
  | call w => exact B.enter (B.popFrame h) hf
  | nest w pending => exact B.startRun h hf.1 hf.2

theorem unwind (h : L.alike x y) (e : Error) {rs : List Run}
    (hr : ∀ r ∈ rs, ∀ v ∈ r.pending.values, L.Knows v) :
    L.SameStep (Machine.unwind e x rs) (Machine.unwind e y rs) := by
  induction rs generalizing x y e with
  | nil => exact .failed e h
  | cons r rs ih =>
    have hrs : ∀ q ∈ rs, ∀ v ∈ q.pending.values, L.Knows v :=
      fun q hq => hr q (List.mem_cons_of_mem _ hq)
    have hcut : L.alike { x.truncateFrames r.base with runs := rs }
        { y.truncateFrames r.base with runs := rs } := by
      unfold Machine.truncateFrames
      rw [← B.frames_eq h]
      exact B.setRuns (B.setFrames h fun f hf => (B.holds h).frames f (List.mem_of_mem_drop hf)) hrs
    simp only [Machine.unwind]
    cases r.pending with
    | outside => exact .failed e hcut
    | handler depth after => exact ih hcut e hrs
    | run => exact ih hcut e hrs
    | attempt =>
      have hp := B.pushNew (knows_text e.message) _ _ hcut
      simp only
      generalize M.pushNew (.text e.message) { x.truncateFrames r.base with runs := rs } = s at hp ⊢
      generalize M.pushNew (.text e.message) { y.truncateFrames r.base with runs := rs } = t at hp ⊢
      cases hp with
      | ok _ _ h' => exact .running (B.popFrame h')
      | error e' h' => exact ih h' e' hrs

theorem fail (h : L.alike x y) (e : Error) : L.SameStep (x.fail e) (y.fail e) := by
  unfold Machine.fail
  rw [← B.runs_eq h]
  exact B.unwind h e (B.holds h).runs

theorem settle {r s : EStateM.Result Error Machine Flow} (h : L.Same L.Leads r s) :
    L.SameStep (Machine.settle r) (Machine.settle s) := by
  cases h with
  | ok flow hf h => exact .running (B.proceed h hf)
  | error e h => exact B.fail h e

theorem resume {pending : Pending} (hp : ∀ v ∈ pending.values, L.Knows v) :
    L.Keeps (Machine.resume pending) L.Leads := by
  cases pending with
  | outside => exact .pure (a := Flow.next) trivial
  | run => exact .pure (a := Flow.next) trivial
  | handler depth after => exact (B.conclude hp).bind fun _ _ => .pure (a := Flow.next) trivial
  | attempt => exact (B.pushNew (knows_text _)).bind fun _ _ => .pure (a := Flow.next) trivial

/-- A composed word passes an element. -/
theorem pass (h : L.alike x y) {f : Frame} (hf : f ∈ x.frames) {rest : List Frame}
    (hr : ∀ g ∈ rest, L.known g.word) : L.alike (x.pass f rest) (y.pass f rest) := by
  have hw := B.known_frames h f hf
  have hp : ∀ m : Machine, m.pass f rest = m.share { m.common with
      debugger :=
        if m.common.debugger.isWatching then
          m.common.debugger.visit f.word (m.heap.word f.word).label f.ip m.common.frames.length
            m.common.data.depth
        else m.common.debugger
      frames := { f with ip := f.ip + 1 } :: rest } := fun _ => rfl
  rw [hp, hp, ← B.common h, ← B.label_eq h hw]
  refine B.share h { B.holds h with frames := fun g hg => ?_ }
  rcases List.mem_cons.1 hg with rfl | hg
  · exact hw
  · exact hr g hg

theorem stepElement (h : L.alike x y) {f : Frame} {rest : List Frame} (hf : x.frames = f :: rest) :
    L.SameStep (x.stepElement f rest) (y.stepElement f rest) := by
  have hmem : f ∈ x.frames := hf ▸ List.mem_cons_self
  have hrest : ∀ g ∈ rest, L.known g.word :=
    fun g hg => B.known_frames h g (hf ▸ List.mem_cons_of_mem _ hg)
  have hw := B.known_frames h f hmem
  have hpass := B.pass h hmem hrest
  rw [Machine.stepElement_eq, Machine.stepElement_eq, ← B.body_eq h hw, ← B.label_eq h hw]
  cases he : (x.heap.word f.word).body[f.ip]? with
  | none => exact .running (B.popFrame h)
  | some el =>
    cases el with
    | direct c => exact B.fail hpass _
    | lit v => exact B.fail hpass _
    | recurse => exact .running (B.enter hpass hw)
    | call w =>
      refine .running (B.enter hpass ((B.word h hw).2 w (List.mem_flatMap.2 ⟨.call w, ?_, ?_⟩)))
      · exact Array.mem_toList_iff.2 (Array.mem_of_getElem? he)
      · exact List.mem_cons_self

theorem stepFrame (h : L.alike x y) {f : Frame} {rest : List Frame} (hf : x.frames = f :: rest)
    (hp : ∀ p, (x.heap.word f.word).code = .ok (.native p) → L.Allows x y p) :
    L.SameStep (x.stepFrame f rest) (y.stepFrame f rest) := by
  have hw := B.known_frames h f (hf ▸ List.mem_cons_self)
  unfold Machine.stepFrame
  rw [← B.code_eq h hw]
  cases hc : (x.heap.word f.word).code with
  | error e => exact B.fail h e
  | ok code =>
    cases code with
    | docol => exact B.stepElement h hf
    | native p => exact B.settle (B.primitive h (hp p hc).source (hp p hc).names (hp p hc).answers)
    | indirect body entry =>
      have hpush := B.push (.ptr (p := x.heap.pointer f.word 1) hw) x y h
      have hbody : L.known body := (B.word h hw).2.of_code hc
      simp only [← B.pointer_eq h hw]
      generalize M.push (.ptr (x.heap.pointer f.word 1)) x = r at hpush ⊢
      generalize M.push (.ptr (x.heap.pointer f.word 1)) y = s at hpush ⊢
      cases hpush with
      | error e h' => exact B.fail h' e
      | ok _ _ h' =>
        refine .running (B.setFrames h' fun g hg => ?_)
        rcases List.mem_cons.1 hg with rfl | hg
        · exact hbody
        · exact B.known_frames h g (hf ▸ List.mem_cons_of_mem _ hg)

/-- **Machines that are alike take the same step**, if the likeness allows what the next primitive
    is about to do. -/
theorem step (h : L.alike x y) (hp : ∀ p, x.primitive? = some p → L.Allows x y p) :
    L.SameStep x.step y.step := by
  have hruns := B.runs_eq h
  have hframes := B.frames_eq h
  have hi : x.interrupt = y.interrupt := congrArg Common.interrupt (B.common h)
  cases hr : x.runs with
  | nil =>
    rw [Machine.step, Machine.step, ← hruns, hr]
    exact .ended h
  | cons r rs =>
    have hk := (B.holds h).runs
    have hr' := hruns ▸ hr
    by_cases hb : x.frames.length ≤ r.base
    · rw [Machine.step_of_back hr hb, Machine.step_of_back hr' (hframes ▸ hb)]
      have hpop : L.alike { x with runs := rs } { y with runs := rs } :=
        B.setRuns h fun q hq => hk q (show q ∈ x.runs from hr ▸ List.mem_cons_of_mem _ hq)
      have hres := B.resume (hk r (show r ∈ x.runs from hr ▸ List.mem_cons_self)) _ _ hpop
      cases hpend : r.pending with
      | outside => exact .ended hpop
      | _ =>
        rw [hpend] at hres
        exact B.settle hres
    · have hb : r.base < x.frames.length := Nat.lt_of_not_le hb
      cases hint : x.interrupt with
      | true =>
        rw [Machine.step_of_interrupt hr hb hint,
          Machine.step_of_interrupt hr' (hframes ▸ hb) (hi ▸ hint)]
        exact B.fail (B.change h (fun c => { c with interrupt := false }) { B.holds h with }) _
      | false =>
        obtain ⟨f, rest, hf⟩ := List.exists_cons_of_length_pos (Nat.zero_lt_of_lt hb)
        rw [Machine.step_of_frame hr hf hb hint,
          Machine.step_of_frame hr' (hframes ▸ hf) (hframes ▸ hb) (hi ▸ hint)]
        exact B.stepFrame h hf fun p hc => hp p (Machine.primitive?_eq hr hf hb hint hc)

/-- The next primitive of machines that are alike is the same. -/
theorem primitive?_eq (h : L.alike x y) : x.primitive? = y.primitive? := by
  have hi : x.interrupt = y.interrupt := congrArg Common.interrupt (B.common h)
  have hframes := B.frames_eq h
  unfold Machine.primitive?
  rw [← B.runs_eq h, ← hframes, ← hi]
  cases x.runs with
  | nil => rfl
  | cons r rs =>
    cases hf : x.frames with
    | nil => rfl
    | cons f fs =>
      have hw := B.known_frames h f (hf ▸ List.mem_cons_self)
      simp only [B.code_eq h hw, B.isBackAt_eq h]

/-! ## Runs -/

/-- What one run comes to, the other one comes to in as many steps. -/
theorem goes (h : L.alike x y) (hp : L.AllowsRun x y) {n : Nat} {y' : Machine}
    (hg : Machine.Goes n y y') : ∃ x', Machine.Goes n x x' ∧ L.alike x' y' := by
  induction n generalizing x y with
  | zero =>
    cases hg
    exact ⟨x, .refl x, h⟩
  | succ n ih =>
    cases hg with
    | step hy hg =>
      have hstep := B.step h fun p => hp 0 x y p (.refl x) (.refl y) h
      rw [hy] at hstep
      generalize hx : x.step = s at hstep
      cases hstep with
      | running h' =>
        obtain ⟨x', hgx, hx'⟩ := ih h'
          (fun n x' y' p hgx hgy => hp (n + 1) x' y' p (.step hx hgx) (.step hy hgy)) hg
        exact ⟨x', .step hx hgx, hx'⟩

theorem steps (h : L.alike x y) (hp : L.AllowsRun x y) (fuel : Nat) :
    L.SameEnd (Machine.steps fuel x) (Machine.steps fuel y) := by
  induction fuel generalizing x y with
  | zero => exact .none
  | succ fuel ih =>
    have hstep := B.step h fun p => hp 0 x y p (.refl x) (.refl y) h
    rw [Machine.steps, Machine.steps]
    generalize hx : x.step = s at hstep
    generalize hy : y.step = t at hstep
    cases hstep with
    | running h' =>
      exact ih h' fun n x' y' p hgx hgy => hp (n + 1) x' y' p (.step hx hgx) (.step hy hgy)
    | ended h' => exact .some (.ok () trivial h')
    | failed e h' => exact .some (.error e h')

/-- **A word does the same to machines that are alike**, if the likeness allows what its primitives
    are about to do. -/
theorem execute (h : L.alike x y) {w : WordId} (hw : L.known w)
    (hp : L.AllowsRun (x.startRun w .outside) (y.startRun w .outside)) (fuel : Nat) :
    L.SameEnd (x.execute fuel w) (y.execute fuel w) :=
  B.steps (B.startRun h hw (by simp [Pending.values])) hp fuel

end Basic

/-! ## Lines -/

/-- A likeness that allows everything that a line can do. -/
structure Full (L : Likeness) : Prop where
  basic : L.Basic
  building : L.Building
  naming : L.Naming
  latest : ∀ {x y}, L.alike x y → x.latest = y.latest
  topCount : ∀ {x y}, L.alike x y → x.topCount = y.topCount
  topAddress : ∀ {x y}, L.alike x y → x.topAddress = y.topAddress
  reset : ∀ {x y}, L.alike x y → L.alike x.reset y.reset

namespace Full

variable (F : L.Full)
include F

theorem allows (h : L.alike x y) (p : Primitive) : L.Allows x y p :=
  ⟨fun _ => F.building, fun _ => F.naming, fun _ => F.latest h, fun _ => F.topCount h,
    fun _ => F.topAddress h⟩

theorem execute (h : L.alike x y) {w : WordId} (hw : L.known w) (fuel : Nat) :
    L.SameEnd (x.execute fuel w) (y.execute fuel w) :=
  F.basic.execute h hw (fun _ _ _ p _ _ h' _ => F.allows h' p) fuel

theorem immediate_eq (h : L.alike x y) {w : WordId} (hw : L.known w) :
    (x.heap.word w).immediate = (y.heap.word w).immediate := by
  have hs : (x.heap.word w).shown.immediate = (y.heap.word w).shown.immediate :=
    congrArg Word.immediate (F.basic.word h hw).1
  exact hs

theorem compilePostponed {w : WordId} (hw : L.known w) :
    L.Keeps (Machine.compilePostponed w) fun _ => True := by
  have C := F.building
  refine .get (fun x y h => by simp only [F.immediate_eq h hw]) fun x y h => .ite ?_ ?_
  · exact C.compile F.basic (.call hw)
  · exact (F.naming.compileLiteral C F.basic (.xt hw)).bind fun _ _ =>
      F.naming.compileBuiltin C F.basic _

theorem interpretNumber (token : String) :
    L.Keeps (Machine.interpretNumber token) fun _ => True := by
  unfold Machine.interpretNumber
  cases Literal.number? token with
  | none => exact .throw _
  | some n =>
    have hn : n.toValue.refs = [] := by cases n <;> rfl
    refine F.building.getMode.bind fun mode _ => ?_
    cases mode with
    | interpreting => exact F.basic.pushPlain hn
    | compiling => exact F.naming.compileLiteral F.building F.basic (.plain hn)
    | compilingPostponed => exact .throw _
    | runtimeCompiling => exact .throw _

theorem compileToken (token : String) : L.Keeps (Machine.compileToken token) fun _ => True := by
  intro x y h
  have C := F.building
  unfold Machine.compileToken
  rw [← F.naming.find h, ← C.mode h]
  cases hw : x.find? token with
  | none => exact F.interpretNumber token x y h
  | some w =>
    have hk := F.naming.known_find h hw
    cases hm : x.compiler.mode with
    | interpreting => exact C.compileWord F.basic hk x y h
    | compiling => exact C.compileWord F.basic hk x y h
    | compilingPostponed =>
      exact F.compilePostponed hk _ _ (C.setMode h _ (.inr (.inr (.inr (.inl hm)))))
    | runtimeCompiling =>
      have h' := C.setMode h .interpreting (.inl rfl)
      exact C.setLastCode F.basic h' (F.latest h') (.call hk)

theorem interpretToken (h : L.alike x y) (fuel : Nat) (token : String) :
    L.SameEnd (Machine.interpretToken fuel token x) (Machine.interpretToken fuel token y) := by
  have hrun : x.wordToRun? token = y.wordToRun? token := by
    unfold Machine.wordToRun?
    rw [← F.naming.find h, ← F.building.mode h]
    cases hw : x.find? token with
    | none => rfl
    | some w => simp only [Option.filter, F.immediate_eq h (F.naming.known_find h hw)]
  rw [Machine.interpretToken_eq, Machine.interpretToken_eq, ← hrun]
  cases hw : x.wordToRun? token with
  | none => exact .some (F.compileToken token x y h)
  | some w =>
    have hf : x.find? token = some w := (Option.filter_eq_some_iff.1 hw).1
    exact F.execute h (F.naming.known_find h hf) fuel

theorem nextSourceToken : L.Keeps Machine.nextSourceToken fun _ => True := by
  have B := F.basic
  have C := F.building
  have hi : ∀ {x y}, L.alike x y → x.interrupt = y.interrupt :=
    fun h => congrArg Common.interrupt (B.common h)
  have hc : ∀ {x y}, L.alike x y → x.inComment = y.inComment := C.comment
  have hcheck : L.Keeps Machine.checkInterrupt fun _ => True := by
    intro x y h
    unfold Machine.checkInterrupt
    rw [← hi h]
    split
    · exact .error _ (B.change h (fun c => { c with interrupt := false }) { B.holds h with })
    · exact .ok _ trivial h
  have hskip : L.Keeps (modify Machine.skipComment : M Unit) fun _ => True :=
    .modify fun _ _ h => C.skipComment h
  refine hcheck.bind fun _ _ => .get (fun x y h => by simp only [hc h]) fun _ _ _ => .ite ?_ C.nextToken
  exact hskip.bind fun _ _ => .get (fun x y h => by simp only [hc h]) fun _ _ _ =>
    .ite (.pure trivial) C.nextToken

/-- **The rest of a line does the same to machines that are alike.** -/
theorem interpret (h : L.alike x y) (fuel n : Nat) :
    L.SameEnd (Machine.interpret fuel n x) (Machine.interpret fuel n y) := by
  induction n generalizing x y with
  | zero => exact .some (.ok () trivial h)
  | succ n ih =>
    rw [Machine.interpret_succ, Machine.interpret_succ]
    have ht := F.nextSourceToken x y h
    generalize Machine.nextSourceToken x = r at ht ⊢
    generalize Machine.nextSourceToken y = s at ht ⊢
    cases ht with
    | error e h' => exact .some (.error e h')
    | ok t _ h' =>
      cases t with
      | none => exact .some (.ok () trivial h')
      | some t =>
        have hi := F.interpretToken h' fuel t
        simp only
        generalize Machine.interpretToken fuel t _ = r at hi ⊢
        generalize Machine.interpretToken fuel t _ = s at hi ⊢
        cases hi with
        | none => exact .none
        | some hs =>
          cases hs with
          | ok _ _ h₂ => exact ih h₂
          | error e h₂ => exact .some (.error e h₂)

/-- **A line does the same to machines that are alike**, the prompt or the reset included. -/
theorem processLine (h : L.alike x y) (fuel : Nat) :
    L.SameEnd (Machine.processLine fuel x) (Machine.processLine fuel y) := by
  rw [Machine.processLine_eq, Machine.processLine_eq, ← F.building.line h]
  have hi := F.interpret h fuel (x.line.text.length + 2)
  generalize Machine.interpret fuel _ x = r at hi ⊢
  generalize Machine.interpret fuel _ y = s at hi ⊢
  cases hi with
  | none => exact .none
  | some hs =>
    cases hs with
    | @ok x' y' _ _ h' =>
      have hprompt : x'.prompt = y'.prompt := by
        unfold Machine.prompt
        rw [F.building.mode h']
      refine .some ?_
      show L.Same _ (M.put x'.prompt x') (M.put y'.prompt y')
      rw [← hprompt]
      exact F.basic.put _ x' y' h'
    | error e h' =>
      refine .some (.error e (F.reset ?_))
      rw [← F.building.line h']
      exact F.building.setLine h' _

end Full

end Likeness
end ThreadedForth
