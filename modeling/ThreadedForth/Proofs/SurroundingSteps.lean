/-
  The engine amid its surroundings.
-/
import ThreadedForth.Proofs.ReferenceCounts

namespace ThreadedForth

variable {K : Parts}

/-- The parts of the surroundings that the engine uses. -/
def Parts.engine : Parts :=
  { interrupt := true, debugger := true, calls := true }

/-- What is said about a machine after a step, with a change made to it. -/
def Progress.alter (f : Machine → Machine) : Progress → Progress
  | running m => running (f m)
  | ended m => ended (f m)
  | failed e m => failed e (f m)

@[simp] theorem Progress.machine_alter (f : Machine → Machine) (p : Progress) :
    (p.alter f).machine = f p.machine := by
  cases p <;> rfl

namespace Machine

variable {m : Machine} {s : Surroundings}

/-! ## After the work of a primitive -/

section Calls

variable (hK : K.calls = true)
include hK

theorem popFrame_amid : (m.amid K s).popFrame = m.popFrame.amid K s := by
  simp only [popFrame, amid, hK, cond_true]

theorem truncateFrames_amid (depth : Nat) :
    (m.amid K s).truncateFrames depth = (m.truncateFrames depth).amid K s := by
  simp only [truncateFrames, amid, hK, cond_true]

theorem enter_amid (w : WordId) : (m.amid K s).enter w = (m.enter w).amid K s := by
  simp only [enter, amid, hK, cond_true]

theorem startRun_amid (w : WordId) (pending : Pending) :
    (m.amid K s).startRun w pending = (m.startRun w pending).amid K s := by
  simp only [startRun, enter, amid, hK, cond_true]

theorem isBackAt_amid (depth : Nat) : (m.amid K s).isBackAt depth = m.isBackAt depth := by
  simp only [isBackAt, amid, hK, cond_true]

theorem runBase_amid : (m.amid K s).runBase = m.runBase := by
  simp only [runBase, amid, hK, cond_true]

theorem withRuns_amid (rs : List Run) :
    { m.amid K s with runs := rs } = ({ m with runs := rs } : Machine).amid K s := by
  simp only [amid, hK, cond_true]

theorem withFrames_amid (fs : List Frame) :
    { m.amid K s with frames := fs } = ({ m with frames := fs } : Machine).amid K s := by
  simp only [amid, hK, cond_true]

theorem proceed_amid (flow : Flow) : (m.amid K s).proceed flow = (m.proceed flow).amid K s := by
  cases flow with
  | next => exact popFrame_amid hK
  | leave =>
    simp only [proceed, popFrame_amid hK, isBackAt_amid hK, runBase_amid hK]
    split <;> rfl
  | call w =>
    show (m.amid K s).popFrame.enter w = _
    rw [popFrame_amid hK, enter_amid hK]
    rfl
  | nest w pending => exact startRun_amid hK w pending

theorem unwind_amid (e : Error) (rs : List Run) :
    unwind e (m.amid K s) rs = (unwind e m rs).alter (·.amid K s) := by
  induction rs generalizing e m with
  | nil => rfl
  | cons r rs ih =>
    have hcut : { (m.amid K s).truncateFrames r.base with runs := rs } =
        ({ m.truncateFrames r.base with runs := rs } : Machine).amid K s := by
      rw [truncateFrames_amid hK, withRuns_amid hK]
    simp only [unwind, hcut]
    cases r.pending with
    | outside => rfl
    | handler | run => exact ih e
    | attempt =>
      have hp := M.pushNew_uses (K := K) (.text e.message)
        { m.truncateFrames r.base with runs := rs } s
      simp only [hp]
      cases M.pushNew (.text e.message) { m.truncateFrames r.base with runs := rs } with
      | ok _ m₁ =>
        show Progress.running ((m₁.amid K s).proceed .next) = _
        rw [proceed_amid hK]
        rfl
      | error e' m₁ => exact ih e'

theorem fail_amid (e : Error) : (m.amid K s).fail e = (m.fail e).alter (·.amid K s) := by
  show unwind e (m.amid K s) (m.amid K s).runs = _
  rw [amid_runs hK, unwind_amid hK]
  rfl

theorem settle_amid (r : EStateM.Result Error Machine Flow) :
    settle (alter (·.amid K s) r) = (settle r).alter (·.amid K s) := by
  cases r with
  | ok flow m => exact congrArg Progress.running (proceed_amid hK flow)
  | error e m => exact fail_amid hK e

theorem settle_uses {act : M Flow} (h : UsesOnly K act) :
    settle (act (m.amid K s)) = (settle (act m)).alter (·.amid K s) := by
  rw [h, settle_amid hK]

end Calls

/-- What comes after the work of a primitive changes nothing around it but the frames and runs. -/
theorem settle_surroundings (r : EStateM.Result Error Machine Flow) :
    (settle r).machine.amid { calls := true } (after r).surroundings = (settle r).machine := by
  have h := settle_amid (K := { calls := true }) (s := (after r).surroundings) rfl r
  have hr : alter (·.amid { calls := true } (after r).surroundings) r = r := by
    cases r with
    | ok a m => exact congrArg _ (amid_surroundings m _)
    | error e m => exact congrArg _ (amid_surroundings m _)
  rw [hr] at h
  have hm := congrArg Progress.machine h
  rw [Progress.machine_alter] at hm
  exact hm.symm

/-! ## Steps -/

section Steps

variable (hK : Parts.engine.Within K)
include hK

theorem pass_amid (f : Frame) (rest : List Frame) :
    (m.amid K s).pass f rest = (m.pass f rest).amid K s := by
  have hc : K.calls = true := hK.calls rfl
  have hd : K.debugger = true := hK.debugger rfl
  simp only [pass, amid, hc, hd, cond_true]

theorem stepElement_amid (f : Frame) (rest : List Frame) :
    (m.amid K s).stepElement f rest = (m.stepElement f rest).alter (·.amid K s) := by
  have hc : K.calls = true := hK.calls rfl
  rw [stepElement_eq, stepElement_eq, pass_amid hK, popFrame_amid hc, fail_amid hc]
  rw [amid_heap]
  rcases (m.heap.word f.word).body[f.ip]? with _ | e
  · rfl
  · cases e with
    | call callee => exact congrArg Progress.running (enter_amid hc callee)
    | recurse => exact congrArg Progress.running (enter_amid hc f.word)
    | direct | lit => rfl

theorem stepFrame_amid (f : Frame) (rest : List Frame)
    (hp : ∀ p, (m.heap.word f.word).code = .ok (.native p) → p.uses.Within K) :
    (m.amid K s).stepFrame f rest = (m.stepFrame f rest).alter (·.amid K s) := by
  have hc : K.calls = true := hK.calls rfl
  rw [stepFrame, stepFrame, amid_heap]
  cases hcode : (m.heap.word f.word).code with
  | error e => exact fail_amid hc e
  | ok c =>
    cases c with
    | docol => exact stepElement_amid hK f rest
    | native p =>
      exact settle_uses hc (p.run_usesOnly (hp p hcode))
    | indirect body entry =>
      dsimp only
      rw [M.push_uses]
      cases M.push (.ptr (m.heap.pointer f.word 1)) m with
      | ok _ m₁ => exact congrArg Progress.running (withFrames_amid hc _)
      | error e m₁ => exact fail_amid hc e

/-- **A step whose primitive uses only some parts of the surroundings is the same step amid
    others.** -/
theorem step_amid (hp : ∀ p, m.primitive? = some p → p.uses.Within K) :
    (m.amid K s).step = m.step.alter (·.amid K s) := by
  have hc : K.calls = true := hK.calls rfl
  have hi : K.interrupt = true := hK.interrupt rfl
  have hfs := amid_frames hc m s
  cases hr : m.runs with
  | nil =>
    rw [step, step, amid_runs hc, hr]
    rfl
  | cons r rs =>
    have hrs := (amid_runs hc m s).trans hr
    by_cases hb : m.frames.length ≤ r.base
    · rw [step_of_back hrs (hfs ▸ hb), step_of_back hr hb, withRuns_amid hc]
      cases r.pending with
      | outside => rfl
      | handler | run | attempt => exact settle_uses hc (resume_uses _)
    · have hb : r.base < m.frames.length := Nat.lt_of_not_le hb
      have hq : (m.amid K s).interrupt = m.interrupt := by simp only [amid, hi, cond_true]
      cases hm : m.interrupt with
      | true =>
        rw [step_of_interrupt hrs (hfs ▸ hb) (hq.trans hm), step_of_interrupt hr hb hm, ← fail_amid hc]
        simp only [amid, hi, cond_true]
      | false =>
        cases hf : m.frames with
        | nil => simp [hf] at hb
        | cons f fs =>
          rw [step_of_frame hrs (hfs.trans hf) (hfs ▸ hb) (hq.trans hm), step_of_frame hr hf hb hm]
          exact stepFrame_amid hK f fs fun p hcode => hp p (primitive?_eq hr hf hb hm hcode)

end Steps

/-- A step whose primitive uses only some parts of the surroundings leaves the others as they
    are. -/
theorem step_surroundings (hK : Parts.engine.Within K)
    (hp : ∀ p, m.primitive? = some p → p.uses.Within K) :
    m.step.machine.amid K m.surroundings = m.step.machine := by
  have h := step_amid (s := m.surroundings) hK hp
  rw [amid_surroundings] at h
  have hm := congrArg Progress.machine h
  rw [Progress.machine_alter] at hm
  exact hm.symm

/-- Around its frames and runs, a step leaves what its primitive leaves. -/
theorem step_surroundings_of_primitive {p : Primitive} (hp : m.primitive? = some p) :
    m.step.machine.amid { calls := true } (after (p.run m)).surroundings = m.step.machine := by
  rw [step_of_primitive hp]
  exact settle_surroundings _

end Machine
end ThreadedForth
