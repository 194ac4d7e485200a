/-
  Runs of the engine: the steps from one machine to another, and the fuel that bounds them.
-/
import ThreadedForth.Interpreter

namespace ThreadedForth

variable {α : Type}

theorem M.bind_ok {β : Type} {x : M α} {f : α → M β} {m m' : Machine} {a : α}
    (h : x m = .ok a m') : (x >>= f) m = f a m' := by
  simp only [Bind.bind, EStateM.bind, h]

theorem M.bind_error {β : Type} {x : M α} {f : α → M β} {m m' : Machine} {e : Error}
    (h : x m = .error e m') : (x >>= f) m = .error e m' := by
  simp only [Bind.bind, EStateM.bind, h]

theorem M.of_bind_ok {β : Type} {x : M α} {f : α → M β} {m m' : Machine} {y : β}
    (h : (x >>= f) m = .ok y m') : ∃ a m₁, x m = .ok a m₁ ∧ f a m₁ = .ok y m' := by
  have h : EStateM.bind x f m = .ok y m' := h
  unfold EStateM.bind at h
  split at h
  · exact ⟨_, _, ‹_›, h⟩
  · cases h

theorem M.of_bind_error {β : Type} {x : M α} {f : α → M β} {m m' : Machine} {e : Error}
    (h : (x >>= f) m = .error e m') :
    x m = .error e m' ∨ ∃ a m₁, x m = .ok a m₁ ∧ f a m₁ = .error e m' := by
  cases hx : x m with
  | ok a m₁ => rw [M.bind_ok hx] at h; exact .inr ⟨a, m₁, rfl, h⟩
  | error e₁ m₁ => rw [M.bind_error hx] at h; cases h; exact .inl rfl

/-- A word that is found by its name. -/
theorem M.builtin_ok {m : Machine} {name : String} {w : WordId} (h : m.find? name = some w) :
    M.builtin name m = .ok w m := by
  rw [M.builtin, M.bind_ok (x := MonadState.get) rfl, h]
  rfl

theorem M.builtin_error {m : Machine} {name : String} (h : m.find? name = none) :
    M.builtin name m = .error (.unknownWord name) m := by
  rw [M.builtin, M.bind_ok (x := MonadState.get) rfl, h]
  rfl

theorem M.builtin_eq_ok {m m' : Machine} {name : String} {w : WordId}
    (h : M.builtin name m = .ok w m') : m.find? name = some w := by
  cases hf : m.find? name with
  | none =>
    rw [M.builtin_error hf] at h
    cases h
  | some u =>
    rw [M.builtin_ok hf] at h
    cases h
    rfl

/-- The machine that a computation ends with, whether or not it fails. -/
def Machine.after : EStateM.Result Error Machine α → Machine
  | .ok _ m => m
  | .error _ m => m

/-- The result of a computation with a change made to its machine. -/
def Machine.alter (f : Machine → Machine) :
    EStateM.Result Error Machine α → EStateM.Result Error Machine α
  | .ok a m => .ok a (f m)
  | .error e m => .error e (f m)

/-- The machine after a step. -/
def Progress.machine : Progress → Machine
  | running m | ended m | failed _ m => m

namespace Machine

@[simp] theorem after_ok (a : α) (m : Machine) :
    after (.ok a m : EStateM.Result Error Machine α) = m := rfl

@[simp] theorem after_alter (f : Machine → Machine) (r : EStateM.Result Error Machine α) :
    after (alter f r) = f (after r) := by
  cases r <;> rfl

/-- A number of steps lead from one machine to another, and none of them ends the run. -/
inductive Goes : Nat → Machine → Machine → Prop
  | refl (m : Machine) : Goes 0 m m
  | step {n : Nat} {m m₁ m' : Machine} (h : m.step = .running m₁) (hs : Goes n m₁ m') :
    Goes (n + 1) m m'

namespace Goes

variable {n k : Nat} {m m₁ m₂ : Machine}

theorem one (h : m.step = .running m₁) : Goes 1 m m₁ :=
  .step h (.refl _)

theorem trans (h : Goes n m m₁) (h' : Goes k m₁ m₂) : Goes (n + k) m m₂ := by
  induction h with
  | refl => rwa [Nat.zero_add]
  | step hs _ ih => rw [Nat.add_right_comm]; exact .step hs (ih h')

end Goes

theorem steps_succ_of_running {m m₁ : Machine} (h : m.step = .running m₁) (fuel : Nat) :
    steps (fuel + 1) m = steps fuel m₁ := by
  rw [steps, h]

theorem steps_of_goes {n : Nat} {m m' : Machine} (h : Goes n m m') (fuel : Nat) :
    steps (n + fuel) m = steps fuel m' := by
  induction h with
  | refl => rw [Nat.zero_add]
  | step hs _ ih => rw [Nat.add_right_comm, steps_succ_of_running hs, ih]

/-- A run that ends takes some steps, and the step after them is the one that ends it. -/
theorem steps_eq_some {fuel : Nat} {m : Machine} {r : EStateM.Result Error Machine Unit}
    (h : steps fuel m = some r) :
    ∃ n m', n < fuel ∧ Goes n m m' ∧
      ((∃ x, m'.step = .ended x ∧ r = .ok () x) ∨ ∃ e x, m'.step = .failed e x ∧ r = .error e x) := by
  induction fuel generalizing m with
  | zero => simp [steps] at h
  | succ fuel ih =>
    cases hs : m.step with
    | running m₁ =>
      rw [steps_succ_of_running hs] at h
      obtain ⟨n, m', hn, hg, hr⟩ := ih h
      exact ⟨n + 1, m', by omega, .step hs hg, hr⟩
    | ended x =>
      simp only [steps, hs, Option.some.injEq] at h
      exact ⟨0, m, by omega, .refl m, .inl ⟨x, hs, h.symm⟩⟩
    | failed e x =>
      simp only [steps, hs, Option.some.injEq] at h
      exact ⟨0, m, by omega, .refl m, .inr ⟨e, x, hs, h.symm⟩⟩

theorem steps_mono {fuel more : Nat} {m : Machine} {r : EStateM.Result Error Machine Unit}
    (h : steps fuel m = some r) (hm : fuel ≤ more) : steps more m = some r := by
  obtain ⟨n, m', hn, hg, hr⟩ := steps_eq_some h
  obtain ⟨k, rfl⟩ : ∃ k, more = n + (k + 1) := ⟨more - n - 1, by omega⟩
  rw [steps_of_goes hg, steps]
  rcases hr with ⟨x, hx, rfl⟩ | ⟨e, x, hx, rfl⟩ <;> rw [hx]

/-- How a run ends does not depend on the fuel. -/
theorem steps_unique {fuel fuel' : Nat} {m : Machine} {r r' : EStateM.Result Error Machine Unit}
    (h : steps fuel m = some r) (h' : steps fuel' m = some r') : r = r' := by
  have h₁ := steps_mono h (Nat.le_max_left fuel fuel')
  have h₂ := steps_mono h' (Nat.le_max_right fuel fuel')
  rw [h₁] at h₂
  exact Option.some.inj h₂

/-- A machine that goes on after `n` steps has not ended within them. -/
theorem Goes.cut {n fuel : Nat} {m m' : Machine} {r : EStateM.Result Error Machine Unit}
    (h : Goes n m m') (hr : steps fuel m = some r) :
    ∃ left, fuel = n + left ∧ steps left m' = some r := by
  induction h generalizing fuel with
  | refl => exact ⟨fuel, by omega, hr⟩
  | step hs _ ih =>
    cases fuel with
    | zero => simp [steps] at hr
    | succ fuel =>
      rw [steps_succ_of_running hs] at hr
      obtain ⟨left, rfl, hl⟩ := ih hr
      exact ⟨left, by omega, hl⟩

/-- The machines on which the steps of a run are taken. -/
def trail : Nat → Machine → List Machine
  | 0, _ => []
  | fuel + 1, m =>
    m :: match m.step with
      | .running m₁ => trail fuel m₁
      | _ => []

theorem goes_of_mem_trail {fuel : Nat} {m x : Machine} (h : x ∈ trail fuel m) :
    ∃ n, Goes n m x := by
  induction fuel generalizing m with
  | zero => exact absurd h List.not_mem_nil
  | succ fuel ih =>
    rcases List.mem_cons.1 h with rfl | h
    · exact ⟨0, .refl _⟩
    · cases hs : m.step with
      | running m₁ =>
        rw [hs] at h
        obtain ⟨n, hn⟩ := ih h
        exact ⟨n + 1, .step hs hn⟩
      | ended | failed =>
        rw [hs] at h
        exact absurd h List.not_mem_nil

/-! ## Single steps -/

theorem step_of_back {m : Machine} {r : Run} {rest : List Run} (hr : m.runs = r :: rest)
    (hb : m.frames.length ≤ r.base) :
    m.step = match r.pending with
      | .outside => .ended { m with runs := rest }
      | pending => settle (resume pending { m with runs := rest }) := by
  rw [step, hr]
  refine (if_pos (isBackAt_iff.2 hb)).trans ?_
  cases r.pending <;> rfl

theorem step_of_frame {m : Machine} {r : Run} {rs : List Run} {f : Frame} {rest : List Frame}
    (hr : m.runs = r :: rs) (hf : m.frames = f :: rest) (hb : r.base < m.frames.length)
    (hi : m.interrupt = false) : m.step = m.stepFrame f rest := by
  have hn : ¬ m.isBackAt r.base = true := fun h => by have := isBackAt_iff.1 h; omega
  rw [step, hr]
  simp only [hn, hi, hf]
  simp

theorem step_of_interrupt {m : Machine} {r : Run} {rs : List Run} (hr : m.runs = r :: rs)
    (hb : r.base < m.frames.length) (hi : m.interrupt = true) :
    m.step = fail .interrupted { m with interrupt := false } := by
  have hn : ¬ m.isBackAt r.base = true := fun h => by have := isBackAt_iff.1 h; omega
  rw [step, hr]
  simp only [hn, hi]
  simp

/-- The machine after a composed word has passed an element: the debugger has seen it, and the
    frame stands at the next one. -/
def pass (m : Machine) (f : Frame) (rest : List Frame) : Machine :=
  { m with
    debugger :=
      if m.debugger.isWatching then
        m.debugger.visit f.word (m.heap.word f.word).label f.ip m.frames.length m.data.depth
      else m.debugger
    frames := { f with ip := f.ip + 1 } :: rest }

theorem stepElement_eq (m : Machine) (f : Frame) (rest : List Frame) :
    m.stepElement f rest =
      match (m.heap.word f.word).body[f.ip]? with
      | none => .running m.popFrame
      | some (.call callee) => .running ((m.pass f rest).enter callee)
      | some .recurse => .running ((m.pass f rest).enter f.word)
      | some _ => (m.pass f rest).fail (.notExecutable (m.heap.word f.word).label f.ip) := by
  unfold stepElement pass
  dsimp only
  rcases (m.heap.word f.word).body[f.ip]? with _ | e
  · rfl
  · cases e <;> rfl

/-- The first step of a run is one of the word that it runs. -/
theorem step_startRun {m : Machine} (hi : m.interrupt = false) (w : WordId) (pending : Pending) :
    (m.startRun w pending).step = (m.startRun w pending).stepFrame ⟨w, 1⟩ m.frames :=
  step_of_frame (m := m.startRun w pending) (r := ⟨m.frames.length, pending⟩) rfl rfl
    (Nat.lt_succ_self _) hi

/-- A primitive that goes on with its caller, run alone. -/
theorem execute_native {m m' : Machine} {w : WordId} {p : Primitive}
    (hw : (m.heap.word w).code = .ok (.native p)) (hi : m.interrupt = false)
    (hp : p.run (m.startRun w .outside) = .ok .next m')
    (hf : m'.frames = ⟨w, 1⟩ :: m.frames) (hr : m'.runs = ⟨m.frames.length, .outside⟩ :: m.runs)
    (fuel : Nat) :
    m.execute (fuel + 2) w = some (.ok () { m' with frames := m.frames, runs := m.runs }) := by
  have hw' : ((m.startRun w .outside).heap.word w).code = .ok (.native p) := hw
  have h₁ : (m.startRun w .outside).step = .running m'.popFrame := by
    rw [step_startRun hi, stepFrame]
    simp only [hw', hp, settle, proceed]
  have h₂ : m'.popFrame.step = .ended { m'.popFrame with runs := m.runs } :=
    step_of_back (r := ⟨m.frames.length, .outside⟩) hr (by simp [popFrame, hf])
  rw [execute, steps_succ_of_running h₁, steps, h₂]
  simp [popFrame, hf]

/-- A primitive that fails, run alone: its frame is gone. -/
theorem execute_native_error {m m' : Machine} {w : WordId} {p : Primitive} {e : Error}
    (hw : (m.heap.word w).code = .ok (.native p)) (hi : m.interrupt = false)
    (hp : p.run (m.startRun w .outside) = .error e m')
    (hr : m'.runs = ⟨m.frames.length, .outside⟩ :: m.runs) (fuel : Nat) :
    m.execute (fuel + 1) w =
      some (.error e { m'.truncateFrames m.frames.length with runs := m.runs }) := by
  have hw' : ((m.startRun w .outside).heap.word w).code = .ok (.native p) := hw
  have h₁ : (m.startRun w .outside).step =
      .failed e { m'.truncateFrames m.frames.length with runs := m.runs } := by
    rw [step_startRun hi, stepFrame]
    simp only [hw', hp, settle, fail, hr, unwind]
  rw [execute, steps, h₁]

end Machine
end ThreadedForth
