/-
  Runs and lines in lower case.
-/
import ThreadedForth.Proofs.LineBreaks
import ThreadedForth.Proofs.LoweredWords

namespace ThreadedForth

variable {α β : Type}

/-! ## Steps that pay no attention to case -/

namespace Machine

/-- No value that has a record in its text is made a string of by the next step. -/
def SparesRecords (m : Machine) : Prop :=
  ∀ p, m.primitive? = some p → ∀ v ∈ p.converted m, ¬ m.heap.ShowsRecord v

/-- The next step pays no attention to case. -/
structure CaseBlind (m : Machine) : Prop where
  records : m.SparesRecords
  fields : m.primitive? = some (.object .struct) → m.EndsFields

end Machine

namespace Likeness

variable {L : Likeness} {x y : Machine} {φ : α → Prop} {ψ : β → Prop}

/-- Two steps are the same up to the case of errors, and lead to a machine and the machine in lower
    case. -/
inductive FoldedStep (L : Likeness) : Progress → Progress → Prop
  | running {x y : Machine} (h : L.Lowered x y) : FoldedStep L (.running x) (.running y)
  | ended {x y : Machine} (h : L.Lowered x y) : FoldedStep L (.ended x) (.ended y)
  | failed {x y : Machine} {e e' : Error} (he : e'.folded = e.folded) (h : L.Lowered x y) :
    FoldedStep L (.failed e x) (.failed e' y)

theorem SameFolded.lowered {r s : EStateM.Result Error Machine α} (h : L.SameFolded φ r s) :
    L.Lowered (Machine.after r) (Machine.after s) := by
  cases h with
  | ok _ _ h => exact h
  | error _ h => exact h

/-- Two runs end in the same way up to the case of errors, or neither has ended. -/
inductive FoldedEnd (L : Likeness) : Option (EStateM.Result Error Machine α) →
    Option (EStateM.Result Error Machine α) → Prop
  | none : FoldedEnd L none none
  | some {r s : EStateM.Result Error Machine α} (h : L.SameFolded (fun _ => True) r s) :
    FoldedEnd L (some r) (some s)

namespace Lowered

theorem frames_eq (h : L.Lowered x y) : y.frames = x.frames := by
  obtain ⟨o, rfl⟩ := h.eq
  rfl

theorem runs_eq (h : L.Lowered x y) : y.runs = x.runs := by
  obtain ⟨o, rfl⟩ := h.eq
  rfl

theorem interrupt_eq (h : L.Lowered x y) : y.interrupt = x.interrupt := by
  obtain ⟨o, rfl⟩ := h.eq
  rfl

theorem word_eq (h : L.Lowered x y) (w : WordId) : y.heap.word w = x.heap.word w := by
  obtain ⟨o, rfl⟩ := h.eq
  rfl

theorem mode_eq (h : L.Lowered x y) : y.compiler.mode = x.compiler.mode := by
  obtain ⟨o, rfl⟩ := h.eq
  rfl

/-- Names are looked up in any case. -/
theorem find?_foldCase (h : L.Lowered x y) (t : String) : y.find? (foldCase t) = x.find? t := by
  obtain ⟨o, rfl⟩ := h.eq
  rw [Machine.find?_lowered, Machine.find?, Dictionary.find?, Name.ofString_foldCase]
  rfl

theorem popFrame (h : L.Lowered x y) : L.Lowered x.popFrame y.popFrame := by
  obtain ⟨o, rfl⟩ := id h.eq
  exact IgnoresCase.setFrames h fun f hf => h.calls.frames f (List.mem_of_mem_tail hf)

theorem enter (h : L.Lowered x y) {w : WordId} (hw : L.known w) :
    L.Lowered (x.enter w) (y.enter w) := by
  obtain ⟨o, rfl⟩ := id h.eq
  refine IgnoresCase.setFrames h fun f hf => ?_
  rcases List.mem_cons.1 hf with rfl | hf
  · exact hw
  · exact h.calls.frames f hf

theorem setRuns (h : L.Lowered x y) {rs : List Run}
    (hr : ∀ r ∈ rs, r.pending ≠ .attempt ∧ ∀ v ∈ r.pending.values, L.Knows v) :
    L.Lowered { x with runs := rs } { y with runs := rs } :=
  h.change (f := ({ · with runs := rs })) (fun _ => rfl) rfl rfl fun hc => { hc with runs := hr }

theorem startRun (h : L.Lowered x y) {w : WordId} (hw : L.known w) {pending : Pending}
    (hp : pending ≠ .attempt ∧ ∀ v ∈ pending.values, L.Knows v) :
    L.Lowered (x.startRun w pending) (y.startRun w pending) := by
  obtain ⟨o, rfl⟩ := id h.eq
  refine enter (setRuns h fun r hr => ?_) hw
  rcases List.mem_cons.1 hr with rfl | hr
  · exact hp
  · exact h.calls.runs r hr

theorem proceed (h : L.Lowered x y) {flow : Flow} (hf : L.GoesOn flow) :
    L.Lowered (x.proceed flow) (y.proceed flow) := by
  cases flow with
  | next => exact h.popFrame
  | leave =>
    obtain ⟨o, rfl⟩ := id h.eq
    show L.Lowered (if x.popFrame.isBackAt x.runBase then x.popFrame else x.popFrame.popFrame)
      (if x.popFrame.isBackAt x.runBase then (x.lowered o).popFrame
        else (x.lowered o).popFrame.popFrame)
    split
    · exact h.popFrame
    · exact h.popFrame.popFrame
  | call w => exact h.popFrame.enter hf
  | nest w pending => exact h.startRun hf.1 hf.2

theorem unwind (h : L.Lowered x y) {e e' : Error} (he : e'.folded = e.folded) {rs : List Run}
    (hr : ∀ r ∈ rs, r.pending ≠ .attempt ∧ ∀ v ∈ r.pending.values, L.Knows v) :
    L.FoldedStep (Machine.unwind e x rs) (Machine.unwind e' y rs) := by
  induction rs generalizing x y with
  | nil => exact .failed he h
  | cons r rs ih =>
    have hrs := fun q hq => hr q (List.mem_cons_of_mem _ hq)
    have hcut : L.Lowered { x.truncateFrames r.base with runs := rs }
        { y.truncateFrames r.base with runs := rs } := by
      obtain ⟨o, rfl⟩ := id h.eq
      exact setRuns (IgnoresCase.setFrames h fun f hf => h.calls.frames f (List.mem_of_mem_drop hf))
        hrs
    rw [Machine.unwind, Machine.unwind]
    cases hp : r.pending with
    | outside => exact .failed he hcut
    | handler depth after => exact ih hcut hrs
    | run => exact ih hcut hrs
    | attempt => exact absurd hp (hr r List.mem_cons_self).1

theorem fail (h : L.Lowered x y) (e : Error) : L.FoldedStep (x.fail e) (y.fail e) := by
  unfold Machine.fail
  rw [h.runs_eq]
  exact h.unwind rfl h.calls.runs

theorem settle {r s : EStateM.Result Error Machine Flow} (h : L.SameFolded L.GoesOn r s) :
    L.FoldedStep (Machine.settle r) (Machine.settle s) := by
  cases h with
  | ok flow hf h => exact .running (h.proceed hf)
  | error he h =>
    show L.FoldedStep (Machine.unwind _ _ _) (Machine.unwind _ _ _)
    rw [h.runs_eq]
    exact h.unwind he h.calls.runs

/-- A nested run has ended. -/
theorem resume {pending : Pending} (hp : pending ≠ .attempt ∧ ∀ v ∈ pending.values, L.Knows v) :
    L.IgnoresCase (Machine.resume pending) L.GoesOn := by
  cases pending with
  | outside => exact IgnoresCase.pure (a := Flow.next) trivial
  | run => exact IgnoresCase.pure (a := Flow.next) trivial
  | handler depth after =>
    exact (IgnoresCase.conclude hp.2).bind fun _ _ => IgnoresCase.pure (a := Flow.next) trivial
  | attempt => exact absurd rfl hp.1

/-- A composed word passes an element. -/
theorem pass (h : L.Lowered x y) {f : Frame} (hf : L.known f.word) {rest : List Frame}
    (hr : ∀ g ∈ rest, L.known g.word) : L.Lowered (x.pass f rest) (y.pass f rest) :=
  h.change (f := (·.pass f rest)) (fun _ => rfl) rfl rfl fun hc =>
    { hc with
      frames := fun g hg => by
        rcases List.mem_cons.1 hg with rfl | hg
        · exact hf
        · exact hr g hg }

theorem stepElement (h : L.Lowered x y) {f : Frame} {rest : List Frame}
    (hf : x.frames = f :: rest) :
    L.FoldedStep (x.stepElement f rest) (y.stepElement f rest) := by
  have hw := h.calls.frames f (hf ▸ List.mem_cons_self)
  have hpass := h.pass hw fun g hg => h.calls.frames g (hf ▸ List.mem_cons_of_mem _ hg)
  rw [Machine.stepElement_eq, Machine.stepElement_eq, h.word_eq]
  cases he : (x.heap.word f.word).body[f.ip]? with
  | none => exact .running h.popFrame
  | some el =>
    cases el with
    | direct c => exact hpass.fail _
    | lit v => exact hpass.fail _
    | recurse => exact .running (hpass.enter hw)
    | call w =>
      have hk := (h.calls.words f.word hw _ (Array.mem_of_getElem? he)).1
      exact .running (hpass.enter (hk w List.mem_cons_self))

theorem stepFrame (h : L.Lowered x y) {f : Frame} {rest : List Frame} (hf : x.frames = f :: rest)
    (hp : ∀ p, (x.heap.word f.word).code = .ok (.native p) →
      L.SameFolded L.GoesOn (p.run x) (p.run y)) :
    L.FoldedStep (x.stepFrame f rest) (y.stepFrame f rest) := by
  have hw := h.calls.frames f (hf ▸ List.mem_cons_self)
  unfold Machine.stepFrame
  rw [h.word_eq]
  cases hc : (x.heap.word f.word).code with
  | error e => exact h.fail e
  | ok code =>
    cases code with
    | docol => exact h.stepElement hf
    | native p => exact settle (hp p hc)
    | indirect body entry =>
      have hpush := IgnoresCase.push (.ptr (p := x.heap.pointer f.word 1) hw) x y h
      have hbody : L.known body :=
        (h.calls.words f.word hw _ (Word.mem_of_code hc)).1 body List.mem_cons_self
      have hptr : y.heap.pointer f.word 1 = x.heap.pointer f.word 1 := by
        obtain ⟨o, rfl⟩ := h.eq
        exact x.heap.pointer_lowered f.word 1
      simp only [hptr]
      generalize M.push (.ptr (x.heap.pointer f.word 1)) x = r at hpush ⊢
      generalize M.push (.ptr (x.heap.pointer f.word 1)) y = s at hpush ⊢
      cases hpush with
      | error he h' =>
        show L.FoldedStep (Machine.unwind _ _ _) (Machine.unwind _ _ _)
        rw [h'.runs_eq]
        exact h'.unwind he h'.calls.runs
      | ok _ _ h' =>
        refine .running (IgnoresCase.setFrames h' fun g hg => ?_)
        rcases List.mem_cons.1 hg with rfl | hg
        · exact hbody
        · exact h.calls.frames g (hf ▸ List.mem_cons_of_mem _ hg)

/-- **A machine and the machine in lower case take the same step**, if it pays no attention to
    case. -/
theorem step (h : L.Lowered x y) (hx : x.CaseBlind) : L.FoldedStep x.step y.step := by
  cases hr : x.runs with
  | nil =>
    rw [Machine.step, Machine.step, h.runs_eq, hr]
    exact .ended h
  | cons r rs =>
    have hk := h.calls.runs
    have hr' := h.runs_eq.trans hr
    by_cases hb : x.frames.length ≤ r.base
    · rw [Machine.step_of_back hr hb, Machine.step_of_back hr' (h.frames_eq ▸ hb)]
      rw [hr] at hk
      have hpop : L.Lowered { x with runs := rs } { y with runs := rs } :=
        h.setRuns fun q hq => hk q (List.mem_cons_of_mem _ hq)
      have hres := resume (hk r List.mem_cons_self) _ _ hpop
      cases hpend : r.pending with
      | outside => exact .ended hpop
      | _ =>
        rw [hpend] at hres
        exact settle hres
    · have hb : r.base < x.frames.length := Nat.lt_of_not_le hb
      have hb' : r.base < y.frames.length := h.frames_eq ▸ hb
      cases hint : x.interrupt with
      | true =>
        rw [Machine.step_of_interrupt hr hb hint,
          Machine.step_of_interrupt hr' hb' (h.interrupt_eq.trans hint)]
        exact fail (h.change (f := ({ · with interrupt := false })) (fun _ => rfl) rfl rfl fun hc =>
          { hc with }) _
      | false =>
        obtain ⟨f, rest, hf⟩ := List.exists_cons_of_length_pos (Nat.zero_lt_of_lt hb)
        rw [Machine.step_of_frame hr hf hb hint,
          Machine.step_of_frame hr' (h.frames_eq.trans hf) hb' (h.interrupt_eq.trans hint)]
        refine h.stepFrame hf fun p hc => ?_
        have hp := Machine.primitive?_eq hr hf hb hint hc
        have hw := h.calls.frames f (hf ▸ List.mem_cons_self)
        have hplain := (h.calls.words f.word hw _ (Word.mem_of_code hc)).2 p rfl
        exact primitive_ignoresCase h hplain (hx.records p hp) fun he => hx.fields (he ▸ hp)

theorem steps (h : L.Lowered x y) (hx : ∀ n z, Machine.Goes n x z → z.CaseBlind) (fuel : Nat) :
    L.FoldedEnd (Machine.steps fuel x) (Machine.steps fuel y) := by
  induction fuel generalizing x y with
  | zero => exact .none
  | succ fuel ih =>
    have hstep := h.step (hx 0 x (.refl x))
    rw [Machine.steps, Machine.steps]
    generalize hsx : x.step = s at hstep
    generalize y.step = t at hstep
    cases hstep with
    | running h' => exact ih h' fun n z hg => hx (n + 1) z (.step hsx hg)
    | ended h' => exact .some (.ok () trivial h')
    | failed he h' => exact .some (.error he h')

/-- **A word does the same to a machine and to the machine in lower case**, if its steps pay no
    attention to case. -/
theorem execute (h : L.Lowered x y) {w : WordId} (hw : L.known w)
    (hx : ∀ n z, Machine.Goes n (x.startRun w .outside) z → z.CaseBlind) (fuel : Nat) :
    L.FoldedEnd (x.execute fuel w) (y.execute fuel w) :=
  have hs : L.Lowered (x.startRun w .outside) (y.startRun w .outside) :=
    h.startRun hw ⟨nofun, nofun⟩
  hs.steps hx fuel

end Lowered

/-! ## Tokens -/

namespace IgnoresCase

theorem compilePostponed {w : WordId} (hw : L.known w) :
    L.IgnoresCase (Machine.compilePostponed w) fun _ => True := by
  refine get (fun _ _ => rfl) fun x y h => ite ?_ ?_
  · exact compile (.call hw)
  · exact (compileLiteral (.xt hw)).bind fun _ _ => compileBuiltin (by decide)

/-- Numbers are read in any case. -/
theorem interpretNumber (h : L.Lowered x y) (token : String) : L.SameFolded (fun _ => True)
    (Machine.interpretNumber token x) (Machine.interpretNumber (foldCase token) y) := by
  unfold Machine.interpretNumber
  rw [Literal.number?_foldCase]
  cases Literal.number? token with
  | none => exact .error (by simp [Error.folded]) h
  | some n =>
    have hn : n.toValue.refs = [] := by cases n <;> rfl
    refine (getMode x y h).bind fun mode x' y' _ _ _ h' => ?_
    cases mode with
    | interpreting => exact pushPlain hn x' y' h'
    | compiling => exact compileLiteral (.plain hn) x' y' h'
    | compilingPostponed => exact .error (by simp [Error.folded, CompileFault.folded]) h'
    | runtimeCompiling => exact .error (by simp [Error.folded, CompileFault.folded]) h'

theorem compileToken (h : L.Lowered x y) {token : String} (ht : Spoken token) :
    L.SameFolded (fun _ => True) (Machine.compileToken token x)
      (Machine.compileToken (foldCase token) y) := by
  unfold Machine.compileToken
  rw [h.find?_foldCase, h.mode_eq]
  cases hw : x.find? token with
  | none => exact interpretNumber h token
  | some w =>
    have hk := h.calls.find? hw ht
    cases x.compiler.mode with
    | interpreting => exact compileWord hk x y h
    | compiling => exact compileWord hk x y h
    | compilingPostponed => exact ((setMode _).bind fun _ _ => compilePostponed hk) x y h
    | runtimeCompiling =>
      exact ((setMode _).bind fun _ _ => setLastCode (.indirect hk 1)) x y h

end IgnoresCase

/-- Two tokens are the same up to case, and leave a machine and the machine in lower case. -/
inductive FoldedToken (L : Likeness) : EStateM.Result Error Machine (Option String) →
    EStateM.Result Error Machine (Option String) → Prop
  | none {x y : Machine} (h : L.Lowered x y) : FoldedToken L (.ok none x) (.ok none y)
  | some {x y : Machine} {t : String} (ht : Spoken t) (h : L.Lowered x y) :
    FoldedToken L (.ok (some t) x) (.ok (some (foldCase t)) y)
  | error {x y : Machine} (e : Error) (h : L.Lowered x y) : FoldedToken L (.error e x) (.error e y)

namespace Lowered

theorem nextToken (h : L.Lowered x y) : L.FoldedToken (M.nextToken x) (M.nextToken y) := by
  obtain ⟨hxy, htoken, hspoken⟩ := IgnoresCase.advanced h
  rw [ObjectWord.nextToken_eq, ObjectWord.nextToken_eq, htoken]
  cases ht : x.line.advance.token? with
  | none => exact .none hxy
  | some t => exact .some (hspoken t ht) hxy

theorem inComment_eq (h : L.Lowered x y) : y.inComment = x.inComment := by
  obtain ⟨o, rfl⟩ := h.eq
  rfl

theorem nextSourceToken (h : L.Lowered x y) :
    L.FoldedToken (Machine.nextSourceToken x) (Machine.nextSourceToken y) := by
  cases hi : x.interrupt with
  | true =>
    rw [Machine.nextSourceToken_interrupted hi,
      Machine.nextSourceToken_interrupted (h.interrupt_eq.trans hi)]
    exact .error _ (h.change (f := ({ · with interrupt := false })) (fun _ => rfl) rfl rfl fun hc =>
      { hc with })
  | false =>
    have hi' := h.interrupt_eq.trans hi
    cases hc : x.inComment with
    | false =>
      rw [Machine.nextSourceToken_quiet hi hc,
        Machine.nextSourceToken_quiet hi' (h.inComment_eq.trans hc)]
      exact h.nextToken
    | true =>
      have hskip := IgnoresCase.skipComment h
      rw [Machine.nextSourceToken_comment hi hc,
        Machine.nextSourceToken_comment hi' (h.inComment_eq.trans hc), hskip.inComment_eq]
      split
      · exact .none hskip
      · exact hskip.nextToken

theorem wordToRun?_foldCase (h : L.Lowered x y) (t : String) :
    y.wordToRun? (foldCase t) = x.wordToRun? t := by
  unfold Machine.wordToRun?
  rw [h.find?_foldCase]
  simp only [h.mode_eq, h.word_eq]

end Lowered
end Likeness

/-! ## Lines -/

namespace Likeness
namespace Lowered

variable {L : Likeness} {m x y : Machine}

theorem interpretToken (h : L.Lowered x y) {token : String} (ht : Spoken token)
    (hx : ∀ w, x.wordToRun? token = some w → ∀ n z, Machine.Goes n (x.startRun w .outside) z →
      z.CaseBlind) (fuel : Nat) :
    L.FoldedEnd (Machine.interpretToken fuel token x)
      (Machine.interpretToken fuel (foldCase token) y) := by
  rw [Machine.interpretToken_eq, Machine.interpretToken_eq, h.wordToRun?_foldCase]
  cases hw : x.wordToRun? token with
  | none => exact .some (IgnoresCase.compileToken h ht)
  | some w =>
    have hk := h.calls.find? (Option.filter_eq_some_iff.1 hw).1 ht
    exact h.execute hk (hx w hw) fuel

/-- The rest of a line, token by token. -/
theorem interpret (h : L.Lowered x y) {n : Nat} (hv : m.Visits (.line n) x)
    (hm : ∀ left? z, m.Visits (.word left?) z → z.CaseBlind) (fuel : Nat) :
    L.FoldedEnd (Machine.interpret fuel n x) (Machine.interpret fuel n y) := by
  induction n generalizing x y with
  | zero => exact .some (.ok () trivial h)
  | succ n ih =>
    rw [Machine.interpret_succ, Machine.interpret_succ]
    have htoken := h.nextSourceToken
    generalize hsx : Machine.nextSourceToken x = r at htoken ⊢
    generalize Machine.nextSourceToken y = s at htoken ⊢
    cases htoken with
    | error e h' => exact .some (.error rfl h')
    | none h' => exact .some (.ok () trivial h')
    | some ht h' =>
      have hi := h'.interpretToken ht
        (fun w hw k z hg => hm _ z ((hv.token hsx hw).goes hg)) fuel
      simp only
      generalize hix : Machine.interpretToken fuel _ _ = r at hi ⊢
      generalize Machine.interpretToken fuel (foldCase _) _ = s at hi ⊢
      cases hi with
      | none => exact .none
      | some hs =>
        cases hs with
        | ok _ _ h₂ => exact ih h₂ (hv.token_ok hsx hix)
        | error he h₂ => exact .some (.error he h₂)

theorem reset (h : L.Lowered x y) : L.Lowered x.reset y.reset :=
  h.change (f := Machine.reset) (fun _ => rfl) rfl rfl fun hc =>
    { hc with
      data := nofun
      temp := nofun
      self := nofun
      frames := nofun
      runs := nofun
      building := nofun }

/-- **A line does the same to a machine and to the machine in lower case**, the prompt or the reset
    included, if the steps on the way pay no attention to case. -/
theorem processLine (h : L.Lowered x y)
    (hx : ∀ left? z, x.Visits (.word left?) z → z.CaseBlind) (fuel : Nat) :
    L.FoldedEnd (Machine.processLine fuel x) (Machine.processLine fuel y) := by
  have hlen : y.line.text.length = x.line.text.length := by
    obtain ⟨o, rfl⟩ := h.eq
    simp [Line.lowered]
  rw [Machine.processLine_eq, Machine.processLine_eq, hlen]
  have hi := h.interpret .start hx fuel
  generalize Machine.interpret fuel _ x = r at hi ⊢
  generalize Machine.interpret fuel _ y = s at hi ⊢
  cases hi with
  | none => exact .none
  | some hs =>
    cases hs with
    | @ok x' y' _ _ h' =>
      refine .some ?_
      show L.SameFolded _ (M.put x'.prompt x') (M.put y'.prompt y')
      have hprompt : y'.prompt = x'.prompt := by
        unfold Machine.prompt
        rw [h'.mode_eq]
      rw [hprompt]
      exact IgnoresCase.put _ x' y' h'
    | error he h' => exact .some (.error he (IgnoresCase.skipLine h').reset)

end Lowered
end Likeness
end ThreadedForth
