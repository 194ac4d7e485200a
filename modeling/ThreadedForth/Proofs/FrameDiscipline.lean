/-
  The frames around a run, which it never goes below and leaves as they were.
-/
import ThreadedForth.Proofs.ContextEffects
import ThreadedForth.Proofs.Session

namespace ThreadedForth

/-- Frames of the same words that differ at most in the position of the innermost one. -/
structure SameBelow (fs gs : List Frame) : Prop where
  words : gs.map Frame.word = fs.map Frame.word
  tail : gs.tail = fs.tail

namespace SameBelow

theorem refl (fs : List Frame) : SameBelow fs fs := ⟨rfl, rfl⟩

theorem length_eq {fs gs : List Frame} (h : SameBelow fs gs) : gs.length = fs.length := by
  have := congrArg List.length h.words
  simpa using this

/-- The innermost frame may be moved. -/
theorem setIp {fs gs : List Frame} {f : Frame} (h : SameBelow fs (f :: gs)) (ip : Nat) :
    SameBelow fs ({ f with ip } :: gs) :=
  ⟨h.words, h.tail⟩

end SameBelow

namespace Machine

/-- A machine that has come back to where a run was started. -/
structure Restored (m m' : Machine) : Prop where
  frames : SameBelow m.frames m'.frames
  runs : m'.runs = m.runs

theorem Restored.runBase_eq {m m' : Machine} (h : m.Restored m') : m'.runBase = m.runBase := by
  rw [runBase, runBase, h.runs]

/-- How the primitive that started a run goes on when the run has ended. -/
def handBack : Pending → Machine → Progress
  | .outside, m => .ended m
  | pending, m => settle (resume pending m)

/-- How the primitive that started a run goes on when the run has failed. -/
def handError (e : Error) : Pending → Machine → Progress
  | .outside, m => .failed e m
  | .attempt, m =>
    match M.pushNew (.text e.message) m with
    | .ok _ m => .running (m.proceed .next)
    | .error e m => m.fail e
  | _, m => m.fail e

/-- The machines during the run of a word that a machine has started.  The run is over as soon as
    its entry is gone. -/
inductive InRun (m : Machine) (w : WordId) (pending : Pending) : Machine → Prop
  | start : InRun m w pending (m.startRun w pending)
  | interrupt {x : Machine} (h : InRun m w pending x) : InRun m w pending { x with interrupt := true }
  | step {x x' : Machine} (h : InRun m w pending x) (hs : x.step = .running x')
    (hr : m.runs.length < x'.runs.length) : InRun m w pending x'

/-! ## Nested runs -/

/-- Runs that nest inside a run with the given base, at a depth of the frames: each begins with
    the frame of the primitive that started it. -/
def Nested (base : Nat) : Nat → List Run → Prop
  | depth, [] => base ≤ depth
  | depth, r :: rs => r.base ≤ depth ∧ 0 < r.base ∧ r.pending ≠ .outside ∧ Nested base (r.base - 1) rs

namespace Nested

variable {base depth : Nat} {rs : List Run}

theorem mono {depth' : Nat} (h : Nested base depth rs) (hd : depth ≤ depth') :
    Nested base depth' rs := by
  cases rs with
  | nil => exact Nat.le_trans h hd
  | cons r rs => exact ⟨Nat.le_trans h.1 hd, h.2⟩

theorem le (h : Nested base depth rs) : base ≤ depth := by
  induction rs generalizing depth with
  | nil => exact h
  | cons r rs ih =>
    obtain ⟨h₁, h₂, _, h₃⟩ := h
    have := ih h₃
    omega

end Nested

/-- The invariant of a run that was started by the machine `m`. -/
structure Inside (m : Machine) (pending : Pending) (x : Machine) : Prop where
  frames : ∃ gs fs, x.frames = gs ++ fs ∧ SameBelow m.frames fs
  runs : ∃ rs, x.runs = rs ++ ⟨m.frames.length, pending⟩ :: m.runs ∧
    Nested m.frames.length x.frames.length rs

/-- The invariant of a run whose innermost frame is about to take a step. -/
structure Active (m : Machine) (pending : Pending) (x : Machine) : Prop where
  frames : ∃ g gs fs, x.frames = g :: (gs ++ fs) ∧ SameBelow m.frames fs
  runs : ∃ rs, x.runs = rs ++ ⟨m.frames.length, pending⟩ :: m.runs ∧
    Nested m.frames.length (x.frames.length - 1) rs

variable {m x : Machine} {pending : Pending}

theorem Inside.startRun (m : Machine) (w : WordId) (pending : Pending) :
    Inside m pending (m.startRun w pending) :=
  ⟨⟨[⟨w, 1⟩], m.frames, rfl, .refl _⟩, [], rfl, Nat.le_succ _⟩

theorem Inside.length_le (h : Inside m pending x) : m.frames.length ≤ x.frames.length := by
  obtain ⟨rs, _, hn⟩ := h.runs
  exact hn.le

theorem Inside.active (h : Inside m pending x) (hb : x.runBase < x.frames.length) :
    Active m pending x := by
  obtain ⟨gs, fs, hf, hs⟩ := h.frames
  obtain ⟨rs, hr, hn⟩ := h.runs
  have hn' : Nested m.frames.length (x.frames.length - 1) rs := by
    cases rs with
    | nil =>
      have : x.runBase = m.frames.length := by simp [runBase, hr]
      exact show m.frames.length ≤ _ by omega
    | cons r rs =>
      have : x.runBase = r.base := by simp [runBase, hr]
      exact ⟨by omega, hn.2⟩
  refine ⟨?_, rs, hr, hn'⟩
  cases gs with
  | nil =>
    have := hn'.le
    have := hs.length_eq
    rw [List.nil_append] at hf
    rw [← hf] at this
    omega
  | cons g gs => exact ⟨g, gs, fs, hf, hs⟩

namespace Active

theorem inside (h : Active m pending x) : Inside m pending x := by
  obtain ⟨g, gs, fs, hf, hs⟩ := h.frames
  obtain ⟨rs, hr, hn⟩ := h.runs
  exact ⟨⟨g :: gs, fs, hf, hs⟩, rs, hr, hn.mono (Nat.sub_le _ _)⟩

/-- The frames may change as a primitive can change them. -/
theorem moved (h : Active m pending x) {u : Option Nat} {x' : Machine}
    (hf' : x'.frames = moveParent u x.frames) (hr' : x'.runs = x.runs) : Active m pending x' := by
  obtain ⟨g, gs, fs, hf, hs⟩ := h.frames
  obtain ⟨rs, hr, hn⟩ := h.runs
  refine ⟨?_, rs, hr'.trans hr, by rwa [hf', length_moveParent]⟩
  rw [hf', hf]
  cases u with
  | none => exact ⟨g, gs, fs, moveParent_none _, hs⟩
  | some ip =>
    rcases gs with _ | ⟨g', gs⟩
    · rcases fs with _ | ⟨f, fs⟩
      · exact ⟨g, [], [], rfl, hs⟩
      · exact ⟨g, [], _, rfl, hs.setIp ip⟩
    · exact ⟨g, { g' with ip } :: gs, fs, rfl, hs⟩

/-- The innermost frame may be replaced. -/
theorem replace (h : Active m pending x) {g : Frame} {x' : Machine}
    (hf' : x'.frames = g :: x.frames.tail) (hr' : x'.runs = x.runs) : Active m pending x' := by
  obtain ⟨g', gs, fs, hf, hs⟩ := h.frames
  obtain ⟨rs, hr, hn⟩ := h.runs
  rw [hf, List.tail_cons] at hf'
  refine ⟨⟨g, gs, fs, hf', hs⟩, rs, hr'.trans hr, ?_⟩
  rw [hf']
  rwa [hf] at hn

theorem popFrame (h : Active m pending x) : Inside m pending x.popFrame := by
  obtain ⟨g, gs, fs, hf, hs⟩ := h.frames
  obtain ⟨rs, hr, hn⟩ := h.runs
  have hf' : x.popFrame.frames = gs ++ fs := by simp [Machine.popFrame, hf]
  refine ⟨⟨gs, fs, hf', hs⟩, rs, hr, ?_⟩
  rw [hf']
  rwa [hf] at hn

end Active

theorem Inside.enter (h : Inside m pending x) (w : WordId) : Inside m pending (x.enter w) := by
  obtain ⟨gs, fs, hf, hs⟩ := h.frames
  obtain ⟨rs, hr, hn⟩ := h.runs
  refine ⟨⟨⟨w, 1⟩ :: gs, fs, ?_, hs⟩, rs, hr, hn.mono ?_⟩
  · show _ :: x.frames = _
    rw [hf]; rfl
  · exact Nat.le_succ _

/-- However a primitive goes on, it stays inside the run. -/
theorem Active.proceed (h : Active m pending x) {flow : Flow} {acts nests : Bool}
    (ha : flow.Allowed acts nests) : Inside m pending (x.proceed flow) := by
  cases flow with
  | next => exact h.popFrame
  | leave =>
    simp only [Machine.proceed]
    split
    · exact h.popFrame
    · rename_i hb
      have hb' : x.popFrame.runBase < x.popFrame.frames.length :=
        Nat.lt_of_not_le fun hl => hb (isBackAt_iff.2 hl)
      exact (h.popFrame.active hb').popFrame
  | call w => exact h.popFrame.enter w
  | nest w q =>
    obtain ⟨g, gs, fs, hf, hs⟩ := h.frames
    obtain ⟨rs, hr, hn⟩ := h.runs
    refine ⟨⟨⟨w, 1⟩ :: g :: gs, fs, ?_, hs⟩, ⟨x.frames.length, q⟩ :: rs, ?_, ?_⟩
    · show _ :: x.frames = _
      rw [hf]; rfl
    · show _ :: x.runs = _
      rw [hr]; rfl
    · exact ⟨Nat.le_succ _, by simp [hf], ha.2, hn⟩

/-! ## One step -/

/-- What a step makes of a run: it goes on, or it ends, and then the primitive that started it
    gets back the machine as it was. -/
inductive Outcome (m : Machine) (pending : Pending) : Progress → Prop
  | goesOn {x : Machine} (h : Inside m pending x) : Outcome m pending (.running x)
  | returns {x : Machine} (h : m.Restored x) : Outcome m pending (handBack pending x)
  | raises {x : Machine} (e : Error) (h : m.Restored x) : Outcome m pending (handError e pending x)

theorem unwind_cons (e : Error) (x : Machine) (r : Run) (rs : List Run) :
    unwind e x (r :: rs) = handError e r.pending { x.truncateFrames r.base with runs := rs } := by
  rw [unwind]
  cases r.pending with
  | attempt =>
    have h := (M.pushNew_blind (.text e.message)).context_eq { x.truncateFrames r.base with runs := rs }
    simp only [handError]
    cases hp : M.pushNew (.text e.message) { x.truncateFrames r.base with runs := rs } with
    | ok _ y => rfl
    | error e' y =>
      rw [hp] at h
      have : y.runs = rs := congrArg Context.runs h
      simp only [fail, this]
  | _ => rfl

theorem truncateFrames_frames {gs fs : List Frame} (h : x.frames = gs ++ fs) :
    (x.truncateFrames fs.length).frames = fs := by
  simp [truncateFrames, h]

/-- An error on its way out of the runs inside a run. -/
theorem unwind_outcome (e : Error) (rs : List Run) (x : Machine)
    (hf : ∃ gs fs, x.frames = gs ++ fs ∧ SameBelow m.frames fs)
    (hn : Nested m.frames.length x.frames.length rs) :
    Outcome m pending (unwind e x (rs ++ ⟨m.frames.length, pending⟩ :: m.runs)) := by
  induction rs generalizing e x with
  | nil =>
    obtain ⟨gs, fs, hf, hs⟩ := hf
    rw [List.nil_append, unwind_cons]
    refine .raises e ⟨?_, rfl⟩
    show SameBelow _ (x.truncateFrames m.frames.length).frames
    rw [← hs.length_eq, truncateFrames_frames hf]
    exact hs
  | cons r rs ih =>
    obtain ⟨gs, fs, hf, hs⟩ := hf
    obtain ⟨h₁, h₂, h₃, h₄⟩ := hn
    rw [List.cons_append, unwind_cons]
    generalize hy : ({ x.truncateFrames r.base with
      runs := rs ++ ⟨m.frames.length, pending⟩ :: m.runs } : Machine) = y
    have hl : m.frames.length < r.base := by
      have := h₄.le
      omega
    have hyl : y.frames.length = r.base := by
      subst hy
      simp [truncateFrames]
      omega
    have hya : Active m pending y := by
      refine ⟨?_, rs, by rw [← hy], by rwa [hyl]⟩
      have hk : x.frames.length - r.base ≤ gs.length := by
        have := hs.length_eq
        rw [hf, List.length_append]
        omega
      have hyf : y.frames = gs.drop (x.frames.length - r.base) ++ fs := by
        subst hy
        show x.frames.drop _ = _
        rw [hf, List.drop_append_of_le_length (by rwa [hf] at hk)]
      cases hd : gs.drop (x.frames.length - r.base) with
      | nil =>
        rw [hd, List.nil_append] at hyf
        have := hs.length_eq
        rw [hyf] at hyl
        omega
      | cons g gs' => exact ⟨g, gs', fs, by rw [hyf, hd]; rfl, hs⟩
    have hu : ∀ (e : Error) (z : Machine), z.context = y.context →
        Outcome m pending (z.fail e) := by
      intro e z hz
      have hzf : z.frames = y.frames := congrArg Context.frames hz
      have hzr : z.runs = y.runs := congrArg Context.runs hz
      rw [fail, hzr, ← hy]
      refine ih e z ?_ ?_
      · rw [hzf]; exact hya.inside.frames
      · rw [hzf, hyl]; exact h₄.mono (Nat.sub_le _ _)
    cases hp : r.pending with
    | outside => exact absurd hp h₃
    | handler depth after => exact hu e y rfl
    | run => exact hu e y rfl
    | attempt =>
      have hb := (M.pushNew_blind (.text e.message)).context_eq y
      simp only [handError]
      cases hq : M.pushNew (.text e.message) y with
      | ok _ z =>
        rw [hq] at hb
        have hza : Active m pending z :=
          hya.moved (u := none) (by rw [moveParent_none]; exact congrArg Context.frames hb)
            (congrArg Context.runs hb)
        exact .goesOn hza.popFrame
      | error e' z =>
        rw [hq] at hb
        exact hu e' z hb

theorem Inside.fail (h : Inside m pending x) (e : Error) : Outcome m pending (x.fail e) := by
  obtain ⟨rs, hr, hn⟩ := h.runs
  rw [Machine.fail, hr]
  exact unwind_outcome e rs x h.frames hn

theorem resume_blind (pending : Pending) : Blind (resume pending) := (resume_uses pending).blind

theorem resume_flow (pending : Pending) : Yields (· = Flow.next) (resume pending) := by
  cases pending with
  | outside => exact .pure rfl
  | run => exact .pure rfl
  | handler depth after => exact .bind fun _ => .pure rfl
  | attempt => exact .bind fun _ => .pure rfl

/-- A computation of a primitive, and how the primitive goes on after it. -/
theorem Active.settle {act : M Flow} {acts nests : Bool} (h : Active m pending x)
    (hc : ∃ u d, (after (act x)).context = x.context.moved u d)
    (hy : ∀ flow x', act x = .ok flow x' → flow.Allowed acts nests) :
    Outcome m pending (settle (act x)) := by
  obtain ⟨u, d, hc⟩ := hc
  have ha : Active m pending (after (act x)) :=
    h.moved (congrArg Context.frames hc) (congrArg Context.runs hc)
  cases hr : act x with
  | ok flow x' =>
    rw [hr] at ha
    exact .goesOn (ha.proceed (hy _ _ hr))
  | error e x' =>
    rw [hr] at ha
    exact ha.inside.fail e

theorem Active.stepElement (h : Active m pending x) {f : Frame} {rest : List Frame}
    (hf : x.frames = f :: rest) : Outcome m pending (x.stepElement f rest) := by
  rw [stepElement_eq]
  cases (x.heap.word f.word).body[f.ip]? with
  | none => exact .goesOn h.popFrame
  | some el =>
    have hya : Active m pending (x.pass f rest) :=
      h.replace (g := { f with ip := f.ip + 1 }) (by rw [hf]; rfl) rfl
    cases el with
    | direct c => exact hya.inside.fail _
    | call w => exact .goesOn (hya.inside.enter w)
    | lit v => exact hya.inside.fail _
    | recurse => exact .goesOn (hya.inside.enter _)

theorem Active.stepFrame (h : Active m pending x) {f : Frame} {rest : List Frame}
    (hf : x.frames = f :: rest) : Outcome m pending (x.stepFrame f rest) := by
  unfold Machine.stepFrame
  cases hc : (x.heap.word f.word).code with
  | error e => exact h.inside.fail e
  | ok c =>
    cases c with
    | docol => exact h.stepElement hf
    | native p => exact h.settle (p.run_context x) (p.run_flow x)
    | indirect body entry =>
      simp only
      have hb := (M.push_blind (.ptr (x.heap.pointer f.word 1))).context_eq x
      cases hp : M.push (.ptr (x.heap.pointer f.word 1)) x with
      | ok _ y =>
        rw [hp] at hb
        have hr : y.runs = x.runs := congrArg Context.runs hb
        have hya : Active m pending { y with frames := ⟨body, entry⟩ :: rest } :=
          h.replace (g := ⟨body, entry⟩) (by rw [hf]; rfl) hr
        exact .goesOn hya.inside
      | error e y =>
        rw [hp] at hb
        have hya : Active m pending y :=
          h.moved (u := none) (by rw [moveParent_none]; exact congrArg Context.frames hb)
            (congrArg Context.runs hb)
        exact hya.inside.fail e

/-- **One step inside a run.** -/
theorem Inside.step (h : Inside m pending x) : Outcome m pending x.step := by
  obtain ⟨rs, hr, hn⟩ := h.runs
  by_cases hb : x.frames.length ≤ x.runBase
  · cases rs with
    | nil =>
      -- the run itself is over
      have hl : x.frames.length ≤ m.frames.length := by simpa [runBase, hr] using hb
      rw [step_of_back hr hl]
      have hR : m.Restored { x with runs := m.runs } := by
        obtain ⟨gs, fs, hf, hs⟩ := h.frames
        refine ⟨?_, rfl⟩
        show SameBelow _ x.frames
        have : gs.length = 0 := by
          have := hs.length_eq
          rw [hf, List.length_append] at hl
          omega
        rw [hf, List.length_eq_zero_iff.1 this]
        exact hs
      have hO : Outcome m pending (handBack pending { x with runs := m.runs }) := .returns hR
      cases pending <;> exact hO
    | cons r rs =>
      -- a run inside it is over
      obtain ⟨h₁, h₂, h₃, h₄⟩ := hn
      have hl : x.frames.length ≤ r.base := by simpa [runBase, hr] using hb
      rw [step_of_back hr hl]
      generalize hy : ({ x with runs := rs ++ ⟨m.frames.length, pending⟩ :: m.runs } : Machine) = y
      have hya : Active m pending y := by
        obtain ⟨gs, fs, hf, hs⟩ := h.frames
        have hle := h₄.le
        refine ⟨?_, rs, by rw [← hy], ?_⟩
        · cases gs with
          | nil =>
            have := hs.length_eq
            rw [hf, List.nil_append] at h₁
            omega
          | cons g gs => exact ⟨g, gs, fs, by rw [← hy]; exact hf, hs⟩
        · rw [← hy]
          exact h₄.mono (by show r.base - 1 ≤ x.frames.length - 1; omega)
      have hs : Outcome m pending (Machine.settle (resume r.pending y)) := by
        have hflow : ∀ flow z, resume r.pending y = .ok flow z → flow.Allowed false false := by
          intro flow z hz
          rw [resume_flow _ _ _ _ hz]
          exact trivial
        refine hya.settle ⟨none, y.debugger, ?_⟩ hflow
        rw [(resume_blind r.pending).context_eq y]
        simp [Context.moved, context]
      cases hp : r.pending with
      | outside => exact absurd hp h₃
      | _ => rw [hp] at hs; exact hs
  · have hb : x.runBase < x.frames.length := Nat.lt_of_not_le hb
    have ha := h.active hb
    obtain ⟨r, R, hr'⟩ : ∃ r R, x.runs = r :: R := by
      cases rs with
      | nil => exact ⟨_, _, hr⟩
      | cons r rs => exact ⟨_, _, hr⟩
    have hb' : r.base < x.frames.length := by simpa [runBase, hr'] using hb
    cases hi : x.interrupt with
    | true =>
      rw [step_of_interrupt hr' hb' hi]
      have : Inside m pending { x with interrupt := false } := ⟨h.frames, h.runs⟩
      exact this.fail _
    | false =>
      obtain ⟨g, gs, fs, hf, _⟩ := ha.frames
      rw [step_of_frame hr' hf hb' hi]
      exact ha.stepFrame hf

/-! ## Whole runs -/

theorem length_runs_of_unwind {e : Error} {x' : Machine} {rs : List Run}
    (h : unwind e x rs = .running x') : x'.runs.length ≤ rs.length := by
  induction rs generalizing e x with
  | nil => simp [unwind] at h
  | cons r rs ih =>
    unfold unwind at h
    cases hp : r.pending with
    | outside => simp [hp] at h
    | handler depth after =>
      simp only [hp] at h
      exact Nat.le_succ_of_le (ih h)
    | run =>
      simp only [hp] at h
      exact Nat.le_succ_of_le (ih h)
    | attempt =>
      simp only [hp] at h
      have hb := (M.pushNew_blind (.text e.message)).context_eq
        { x.truncateFrames r.base with runs := rs }
      cases hq : M.pushNew (.text e.message) { x.truncateFrames r.base with runs := rs } with
      | ok _ y =>
        simp only [hq, Progress.running.injEq] at h
        rw [hq] at hb
        have hy : y.runs = rs := congrArg Context.runs hb
        subst h
        show y.runs.length ≤ _
        rw [hy]
        exact Nat.le_succ _
      | error e' y =>
        simp only [hq] at h
        exact Nat.le_succ_of_le (ih h)

/-- Once a run is over, its entry does not come back. -/
theorem length_runs_of_handBack {x' : Machine} (h : handBack pending x = .running x') :
    x'.runs.length ≤ x.runs.length := by
  have hs : settle (resume pending x) = .running x' → x'.runs.length ≤ x.runs.length := by
    intro h
    have hb := (resume_blind pending).context_eq x
    cases hr : resume pending x with
    | ok flow y =>
      rw [hr] at hb h
      have hy : y.runs = x.runs := congrArg Context.runs hb
      obtain rfl := resume_flow _ _ _ _ hr
      simp only [settle, Progress.running.injEq] at h
      subst h
      exact Nat.le_of_eq (congrArg List.length hy)
    | error e y =>
      rw [hr] at hb h
      have hy : y.runs = x.runs := congrArg Context.runs hb
      rw [← hy]
      exact length_runs_of_unwind h
  cases pending with
  | outside => simp [handBack] at h
  | _ => exact hs h

theorem length_runs_of_handError {e : Error} {x' : Machine}
    (h : handError e pending x = .running x') : x'.runs.length ≤ x.runs.length := by
  cases pending with
  | outside => simp [handError] at h
  | handler depth after => exact length_runs_of_unwind h
  | run => exact length_runs_of_unwind h
  | attempt =>
    have hb := (M.pushNew_blind (.text e.message)).context_eq x
    simp only [handError] at h
    cases hq : M.pushNew (.text e.message) x with
    | ok _ y =>
      rw [hq] at hb
      simp only [hq, Progress.running.injEq] at h
      subst h
      exact Nat.le_of_eq (congrArg (fun c => c.runs.length) hb)
    | error e' y =>
      rw [hq] at hb
      simp only [hq] at h
      have hy : y.runs = x.runs := congrArg Context.runs hb
      rw [← hy]
      exact length_runs_of_unwind h

theorem Inside.length_runs_lt (h : Inside m pending x) : m.runs.length < x.runs.length := by
  obtain ⟨rs, hr, _⟩ := h.runs
  rw [hr, List.length_append, List.length_cons]
  omega

theorem Outcome.inside {x : Machine} (h : Outcome m pending (.running x))
    (hr : m.runs.length < x.runs.length) : Inside m pending x := by
  generalize hp : Progress.running x = p at h
  cases h with
  | goesOn hx =>
    cases hp
    exact hx
  | returns hx =>
    have := length_runs_of_handBack hp.symm
    rw [hx.runs] at this
    omega
  | raises e hx =>
    have := length_runs_of_handError hp.symm
    rw [hx.runs] at this
    omega

/-- The invariant holds during the whole run. -/
theorem InRun.inside {w : WordId} (h : InRun m w pending x) : Inside m pending x := by
  induction h with
  | start => exact .startRun m w pending
  | interrupt _ ih => exact ⟨ih.frames, ih.runs⟩
  | step _ hs hr ih =>
    have ho := ih.step
    rw [hs] at ho
    exact ho.inside hr

/-- A run from outside ends with the machine as it was. -/
theorem Outcome.outside {p : Progress} (h : Outcome m .outside p) :
    match p with
    | .running x => Inside m .outside x
    | .ended x | .failed _ x => m.Restored x := by
  cases h with
  | goesOn h => exact h
  | returns h => exact h
  | raises _ h => exact h

theorem InRun.goes {w : WordId} {n : Nat} {x' : Machine} (h : InRun m w .outside x)
    (hg : Goes n x x') : InRun m w .outside x' := by
  induction hg with
  | refl => exact h
  | step hs _ ih =>
    have ho := h.inside.step
    rw [hs] at ho
    exact ih (h.step hs ho.outside.length_runs_lt)

theorem execute_restores {w : WordId} {fuel : Nat} {r : EStateM.Result Error Machine Unit}
    (h : m.execute fuel w = some r) : m.Restored (after r) := by
  obtain ⟨n, y, _, hg, hr⟩ := steps_eq_some h
  have ho := ((InRun.start (m := m) (w := w)).goes hg).inside.step
  rcases hr with ⟨z, hs, rfl⟩ | ⟨e, z, hs, rfl⟩
  · rw [hs] at ho
    exact ho.outside
  · rw [hs] at ho
    exact ho.outside

/-! ## Sessions -/

theorem Restored.eq_nil {x : Machine} (h : m.Restored x) (hf : m.frames = []) : x.frames = [] := by
  have := h.frames.length_eq
  rw [hf] at this
  exact List.length_eq_zero_iff.1 this

/-- What runs in a phase of a session: nothing but the word that was started last. -/
def Phase.Running : Phase → Machine → Prop
  | .word _, x => ∃ m w, m.frames = [] ∧ m.runs = [] ∧ InRun m w .outside x
  | _, x => x.frames = [] ∧ x.runs = []

theorem installAll_context (m : Machine) (bs : List Builtin) :
    (m.installAll bs).context = m.context := by
  unfold installAll
  induction bs generalizing m with
  | nil => rfl
  | cons b bs ih => exact ih _

theorem create_context (p : Params) (bs : List Builtin) :
    (create p bs).context = (empty p).context := by
  have h : ∀ (ws : List Word) (m : Machine),
      (ws.foldl (fun m w => (m.install w).2) m).context = m.context := by
    intro ws
    induction ws with
    | nil => exact fun _ => rfl
    | cons w ws ih => exact fun m => ih _
  rw [create, h, installAll_context]

theorem fill_blind (text : String) : Blind (fill text) := (fill_uses rfl text).blind

theorem nextSourceToken_blind : Blind nextSourceToken := (nextSourceToken_uses rfl rfl).blind

theorem compilePostponed_blind (w : WordId) : Blind (compilePostponed w) :=
  (compilePostponed_uses w).blind

theorem interpretNumber_blind (token : String) : Blind (interpretNumber token) :=
  (interpretNumber_uses token).blind

theorem compileToken_respects {n : Nat} (token : String) : Respects true n (compileToken token) := by
  rw [compileToken_eq]
  refine .get (fun _ _ _ _ => rfl) fun m => ?_
  cases m.find? token with
  | none => exact (interpretNumber_blind token).respects
  | some w =>
    cases m.compiler.mode with
    | interpreting => exact (M.compileWord_blind w).respects
    | compiling => exact (M.compileWord_blind w).respects
    | compilingPostponed =>
      exact Blind.respects <| (M.setMode_blind _).bind fun _ => compilePostponed_blind w
    | runtimeCompiling =>
      exact (M.setMode_blind _).respects.bind fun _ => setLastCode_respects _

/-- Between lines and between the words of a line, nothing is running. -/
theorem Reached.running {ph : Phase} (h : Reached ph x) : Phase.Running ph x := by
  induction h with
  | create p bs =>
    have := create_context p bs
    exact ⟨congrArg Context.frames this, congrArg Context.runs this⟩
  | @add m _ b ih =>
    have := m.installAll_context [b]
    exact ⟨(congrArg Context.frames this).trans ih.1, (congrArg Context.runs this).trans ih.2⟩
  | @interrupt ph _ _ ih =>
    cases ph with
    | word left? =>
      obtain ⟨m, w, hf, hr, hi⟩ := ih
      exact ⟨m, w, hf, hr, hi.interrupt⟩
    | rest => exact ih
    | line n => exact ih
  | @fill m _ text ih =>
    have := (fill_blind text).context_eq m
    exact ⟨(congrArg Context.frames this).trans ih.1, (congrArg Context.runs this).trans ih.2⟩
  | start _ ih => exact ih
  | @run m _ w _ _ ih => exact ⟨m, w, ih.1, ih.2, .start⟩
  | @token _ m m₁ _ w _ ht _ ih =>
    have := nextSourceToken_blind.context_eq m
    rw [ht] at this
    exact ⟨m₁, w, (congrArg Context.frames this).trans ih.1,
      (congrArg Context.runs this).trans ih.2, .start⟩
  | @compile _ m m₁ m₂ t _ ht _ hc ih =>
    have h₁ := nextSourceToken_blind.context_eq m
    have h₂ := (compileToken_respects (n := 1) t).keeps (by omega) m₁
    rw [ht] at h₁
    rw [hc] at h₂
    exact ⟨h₂.1.trans ((congrArg Context.frames h₁).trans ih.1),
      h₂.2.trans ((congrArg Context.runs h₁).trans ih.2)⟩
  | badToken => exact ⟨rfl, rfl⟩
  | noToken => exact ⟨rfl, rfl⟩
  | @finish _ m m₁ _ ht ih =>
    have h₁ := nextSourceToken_blind.context_eq m
    have h₂ := (M.put_blind m₁.prompt).context_eq m₁
    rw [ht] at h₁
    have := h₂.trans h₁
    exact ⟨(congrArg Context.frames this).trans ih.1, (congrArg Context.runs this).trans ih.2⟩
  | @exhaust m _ ih =>
    have := (M.put_blind m.prompt).context_eq m
    exact ⟨(congrArg Context.frames this).trans ih.1, (congrArg Context.runs this).trans ih.2⟩
  | step _ hs ih =>
    obtain ⟨m, w, hf, hr, hi⟩ := ih
    exact ⟨m, w, hf, hr, hi.goes (.one hs)⟩
  | @ended left? _ _ _ hs ih =>
    obtain ⟨m, w, hf, hr, hi⟩ := ih
    have ho := hi.inside.step
    rw [hs] at ho
    have hx := ho.outside
    cases left? <;> exact ⟨hx.eq_nil hf, hx.runs.trans hr⟩
  | failed _ hs ih =>
    obtain ⟨m, w, hf, hr, hi⟩ := ih
    have ho := hi.inside.step
    rw [hs] at ho
    have hx := ho.outside
    exact ⟨hx.eq_nil hf, hx.runs.trans hr⟩
  | failedLine => exact ⟨rfl, rfl⟩

/-- **Frame discipline.**  A run never goes below the depth at which it began.  It goes on, or it
    hands back to the primitive that started it, or to the outside, a machine whose frames are
    those from before up to the position in the primitive's own frame, and whose runs are those
    from before.  So does a whole run from outside; and when a line of a session has been
    processed, nothing is running. -/
theorem run_keeps_frames (m : Machine) :
    (∀ w pending x, InRun m w pending x →
      m.frames.length ≤ x.frames.length ∧
      (∃ gs fs, x.frames = gs ++ fs ∧ SameBelow m.frames fs) ∧
      ((∃ x', x.step = .running x' ∧ InRun m w pending x') ∨
        (∃ x', x.step = handBack pending x' ∧ m.Restored x') ∨
        ∃ e x', x.step = handError e pending x' ∧ m.Restored x')) ∧
    (∀ fuel w r, m.execute fuel w = some r →
      m.Restored (after r) ∧ (after r).frames.length = m.frames.length ∧
        (after r).runBase = m.runBase) ∧
    ∀ fuel r, Reached .rest m → processLine fuel m = some r →
      (after r).frames = [] ∧ (after r).runs = [] := by
  refine ⟨fun w pending x h => ⟨h.inside.length_le, h.inside.frames, ?_⟩, fun fuel w r h => ?_,
    fun fuel r h hr => (h.processLine hr).running⟩
  · have ho := h.inside.step
    generalize hp : x.step = p at ho
    cases ho with
    | goesOn hx => exact .inl ⟨_, rfl, h.step hp hx.length_runs_lt⟩
    | returns hx => exact .inr (.inl ⟨_, rfl, hx⟩)
    | raises e hx => exact .inr (.inr ⟨e, _, rfl, hx⟩)
  · have hx := execute_restores h
    exact ⟨hx, hx.frames.length_eq, hx.runBase_eq⟩

/-- A line on a new machine: all three parts apply to it. -/
theorem run_keeps_frames_of_dup :
    ∃ m w, m = after (fill "1 dup" (ofNames {} ["dup"])) ∧ m.find? "dup" = some w ∧
      m.frames.length ≤ (m.startRun w .run).frames.length ∧
      (∃ r, m.execute 3 w = some r ∧ m.Restored (after r)) ∧
      ∃ r, processLine 3 m = some r ∧ (after r).frames = [] ∧ (after r).runs = [] := by
  have hm := (Reached.create {} (Builtin.all.filter fun b => ["dup"].contains b.name)).fill "1 dup"
  have hw : (after (fill "1 dup" (ofNames {} ["dup"]))).find? "dup" = some ⟨0⟩ := by decide +kernel
  obtain ⟨r, hr⟩ := Option.isSome_iff_exists.1
    (by decide +kernel : ((after (fill "1 dup" (ofNames {} ["dup"]))).execute 3 ⟨0⟩).isSome)
  obtain ⟨q, hq⟩ := Option.isSome_iff_exists.1
    (by decide +kernel : (processLine 3 (after (fill "1 dup" (ofNames {} ["dup"])))).isSome)
  obtain ⟨h₁, h₂, h₃⟩ := run_keeps_frames (after (fill "1 dup" (ofNames {} ["dup"])))
  exact ⟨_, _, rfl, hw, (h₁ _ .run _ .start).1, ⟨r, hr, (h₂ _ _ _ hr).1⟩, q, hq, h₃ _ _ hm hq⟩

end Machine
end ThreadedForth
