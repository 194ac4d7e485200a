/-
  Sessions: what happens to a machine from its creation on, down to single steps.
-/
import ThreadedForth.Proofs.Runs

namespace ThreadedForth

/-- Where a session is. -/
inductive Phase where
  /-- Between lines. -/
  | rest
  /-- Inside a line, of which at most so many tokens are still to come. -/
  | line (left : Nat)
  /-- Inside a word, which is a token of a line or was run from outside. -/
  | word (left? : Option Nat)

/-- Where a session is when a word has ended. -/
def Phase.afterWord : Option Nat → Phase
  | none => rest
  | some left => line left

namespace Machine

/-- The word that a token runs, if it runs one. -/
def wordToRun? (m : Machine) (token : String) : Option WordId :=
  (m.find? token).filter fun w =>
    m.compiler.mode = .interpreting || (m.compiler.mode = .compiling && (m.heap.word w).immediate)

/-- What is done with a token that runs no word. -/
def compileToken (token : String) : M Unit := fun m =>
  match m.find? token with
  | none => interpretNumber token m
  | some w =>
    match m.compiler.mode with
    | .compilingPostponed => (do M.setMode .compiling; compilePostponed w : M Unit) m
    | .runtimeCompiling => (do M.setMode .interpreting; setLastCode (.indirect w 1) : M Unit) m
    | _ => M.compileWord w m

theorem interpretToken_eq (fuel : Nat) (token : String) (m : Machine) :
    interpretToken fuel token m =
      match m.wordToRun? token with
      | some w => m.execute fuel w
      | none => some (compileToken token m) := by
  unfold interpretToken wordToRun? compileToken interpretWord
  cases m.find? token with
  | none => rfl
  | some w =>
    cases hm : m.compiler.mode with
    | interpreting => simp [Option.filter]
    | compiling => cases hi : (m.heap.word w).immediate <;> simp [Option.filter, hi]
    | compilingPostponed => simp [Option.filter]
    | runtimeCompiling => simp [Option.filter]

/-- The machine after a line that has failed. -/
def giveUpLine (m : Machine) : Machine :=
  { m with line := m.line.skip }.reset

/-- What a line ends with: the prompt, or the reset after an error. -/
def closeLine : EStateM.Result Error Machine Unit → EStateM.Result Error Machine Unit
  | .ok _ m => M.put m.prompt m
  | .error e m => .error e m.giveUpLine

theorem interpret_succ (fuel n : Nat) (m : Machine) :
    interpret fuel (n + 1) m =
      match nextSourceToken m with
      | .error e m₁ => some (.error e m₁)
      | .ok none m₁ => some (.ok () m₁)
      | .ok (some t) m₁ =>
        match interpretToken fuel t m₁ with
        | none => none
        | some (.ok _ m₂) => interpret fuel n m₂
        | some (.error e m₂) => some (.error e m₂) := by
  simp only [interpret, Runner.andThen, Runner.ofM]
  rcases nextSourceToken m with ⟨_ | t, m₁⟩ | ⟨e, m₁⟩
  · rfl
  · rcases h : interpretToken fuel t m₁ with _ | ⟨_, _⟩ | ⟨_, _⟩ <;> simp only [Runner.andThen, h]
  · rfl

/-- More fuel does not change what a token does. -/
theorem interpretToken_mono {fuel more : Nat} {t : String} {m : Machine}
    {r : EStateM.Result Error Machine Unit} (h : interpretToken fuel t m = some r)
    (hm : fuel ≤ more) : interpretToken more t m = some r := by
  rw [interpretToken_eq] at h ⊢
  cases hw : m.wordToRun? t with
  | none =>
    rw [hw] at h
    exact h
  | some w =>
    rw [hw] at h
    exact steps_mono h hm

/-- More fuel does not change what the rest of a line does. -/
theorem interpret_mono {fuel more n : Nat} {m : Machine} {r : EStateM.Result Error Machine Unit}
    (h : interpret fuel n m = some r) (hm : fuel ≤ more) : interpret more n m = some r := by
  induction n generalizing m with
  | zero => exact h
  | succ n ih =>
    rw [interpret_succ] at h ⊢
    rcases hs : nextSourceToken m with ⟨_ | t, m₁⟩ | ⟨e, m₁⟩
    · rw [hs] at h
      exact h
    · rw [hs] at h
      simp only at h ⊢
      cases ht : interpretToken fuel t m₁ with
      | none =>
        rw [ht] at h
        cases h
      | some q =>
        rw [interpretToken_mono ht hm]
        rw [ht] at h
        cases q with
        | ok _ m₂ => exact ih h
        | error e m₂ => exact h
    · rw [hs] at h
      exact h

theorem processLine_eq (fuel : Nat) (m : Machine) :
    processLine fuel m = (interpret fuel (m.line.text.length + 2) m).map closeLine := by
  unfold processLine
  rcases interpret fuel (m.line.text.length + 2) m with _ | ⟨_, _⟩ | ⟨_, _⟩ <;> rfl

/-- The machines on which the steps of the word are taken that a token runs. -/
def tokenTrail (fuel : Nat) (token : String) (m : Machine) : List Machine :=
  match m.wordToRun? token with
  | some w => trail fuel (m.startRun w .outside)
  | none => []

/-- The machines on which the steps of the words are taken that the rest of a line runs. -/
def lineTrail (fuel : Nat) : Nat → Machine → List Machine
  | 0, _ => []
  | n + 1, m =>
    match nextSourceToken m with
    | .ok (some token) m₁ =>
      tokenTrail fuel token m₁ ++
        match interpretToken fuel token m₁ with
        | some (.ok _ m₂) => lineTrail fuel n m₂
        | _ => []
    | _ => []

/-- The machines that a session can reach. -/
inductive Reached : Phase → Machine → Prop
  | create (p : Params) (bs : List Builtin) : Reached .rest (create p bs)
  | add {m : Machine} (h : Reached .rest m) (b : Builtin) : Reached .rest (m.installAll [b])
  | interrupt {ph : Phase} {m : Machine} (h : Reached ph m) :
    Reached ph { m with interrupt := true }
  | fill {m : Machine} (h : Reached .rest m) (text : String) : Reached .rest (after (fill text m))
  | start {m : Machine} (h : Reached .rest m) : Reached (.line (m.line.text.length + 2)) m
  | run {m : Machine} {name : String} {w : WordId} (h : Reached .rest m)
    (hw : m.find? name = some w) : Reached (.word none) (m.startRun w .outside)
  | token {n : Nat} {m m₁ : Machine} {t : String} {w : WordId} (h : Reached (.line (n + 1)) m)
    (ht : nextSourceToken m = .ok (some t) m₁) (hw : m₁.wordToRun? t = some w) :
    Reached (.word (some n)) (m₁.startRun w .outside)
  | compile {n : Nat} {m m₁ m₂ : Machine} {t : String} (h : Reached (.line (n + 1)) m)
    (ht : nextSourceToken m = .ok (some t) m₁) (hw : m₁.wordToRun? t = none)
    (hc : compileToken t m₁ = .ok () m₂) : Reached (.line n) m₂
  | badToken {n : Nat} {m m₁ m₂ : Machine} {t : String} {e : Error} (h : Reached (.line (n + 1)) m)
    (ht : nextSourceToken m = .ok (some t) m₁) (hw : m₁.wordToRun? t = none)
    (hc : compileToken t m₁ = .error e m₂) : Reached .rest m₂.giveUpLine
  | noToken {n : Nat} {m m₁ : Machine} {e : Error} (h : Reached (.line (n + 1)) m)
    (ht : nextSourceToken m = .error e m₁) : Reached .rest m₁.giveUpLine
  | finish {n : Nat} {m m₁ : Machine} (h : Reached (.line (n + 1)) m)
    (ht : nextSourceToken m = .ok none m₁) : Reached .rest (after (M.put m₁.prompt m₁))
  | exhaust {m : Machine} (h : Reached (.line 0) m) : Reached .rest (after (M.put m.prompt m))
  | step {left? : Option Nat} {m m₁ : Machine} (h : Reached (.word left?) m)
    (hs : m.step = .running m₁) : Reached (.word left?) m₁
  | ended {left? : Option Nat} {m m₁ : Machine} (h : Reached (.word left?) m)
    (hs : m.step = .ended m₁) : Reached (.afterWord left?) m₁
  | failed {m m₁ : Machine} {e : Error} (h : Reached (.word none) m)
    (hs : m.step = .failed e m₁) : Reached .rest m₁
  | failedLine {n : Nat} {m m₁ : Machine} {e : Error} (h : Reached (.word (some n)) m)
    (hs : m.step = .failed e m₁) : Reached .rest m₁.giveUpLine

namespace Reached

theorem goes {n : Nat} {left? : Option Nat} {m m' : Machine} (h : Reached (.word left?) m)
    (hg : Goes n m m') : Reached (.word left?) m' := by
  induction hg with
  | refl => exact h
  | step hs _ ih => exact ih (h.step hs)

/-- A word of a session that ends. -/
theorem steps_ok {fuel : Nat} {left? : Option Nat} {m m' : Machine} (h : Reached (.word left?) m)
    (hr : steps fuel m = some (.ok () m')) : Reached (.afterWord left?) m' := by
  obtain ⟨n, x, _, hg, ⟨y, hs, hy⟩ | ⟨e, y, _, hy⟩⟩ := steps_eq_some hr
  · obtain rfl : m' = y := by simpa using hy
    exact (h.goes hg).ended hs
  · simp at hy

/-- A word of a session that fails. -/
theorem steps_error {fuel : Nat} {left? : Option Nat} {m m' : Machine} {e : Error}
    (h : Reached (.word left?) m) (hr : steps fuel m = some (.error e m')) :
    ∃ x, Reached (.word left?) x ∧ x.step = .failed e m' := by
  obtain ⟨n, x, _, hg, ⟨y, _, hy⟩ | ⟨e', y, hs, hy⟩⟩ := steps_eq_some hr
  · simp at hy
  · obtain ⟨rfl, rfl⟩ : e = e' ∧ m' = y := by simpa using hy
    exact ⟨x, h.goes hg, hs⟩

/-- The rest of a line. -/
theorem interpret {fuel n : Nat} {m : Machine} {r : EStateM.Result Error Machine Unit}
    (h : Reached (.line n) m) (hr : interpret fuel n m = some r) :
    Reached .rest (after (closeLine r)) := by
  induction n generalizing m with
  | zero =>
    obtain rfl : EStateM.Result.ok () m = r := Option.some.inj hr
    exact h.exhaust
  | succ n ih =>
    rw [interpret_succ] at hr
    cases ht : nextSourceToken m with
    | error e m₁ =>
      obtain rfl : EStateM.Result.error e m₁ = r := by simpa [ht] using hr
      exact h.noToken ht
    | ok t m₁ =>
      cases t with
      | none =>
        obtain rfl : EStateM.Result.ok () m₁ = r := by simpa [ht] using hr
        exact h.finish ht
      | some t =>
        simp only [ht, interpretToken_eq] at hr
        cases hw : m₁.wordToRun? t with
        | some w =>
          simp only [hw] at hr
          have hm₁ := h.token ht hw
          cases he : m₁.execute fuel w with
          | none => simp [he] at hr
          | some q =>
            cases q with
            | ok _ m₂ =>
              simp only [he] at hr
              exact ih (hm₁.steps_ok he) hr
            | error e m₂ =>
              obtain rfl : EStateM.Result.error e m₂ = r := by simpa [he] using hr
              obtain ⟨x, hx, hs⟩ := hm₁.steps_error he
              exact hx.failedLine hs
        | none =>
          simp only [hw] at hr
          cases hc : compileToken t m₁ with
          | ok _ m₂ =>
            simp only [hc] at hr
            exact ih (h.compile ht hw hc) hr
          | error e m₂ =>
            obtain rfl : EStateM.Result.error e m₂ = r := by simpa [hc] using hr
            exact h.badToken ht hw hc

/-- A whole line, whether it succeeds or fails. -/
theorem processLine {fuel : Nat} {m : Machine} {r : EStateM.Result Error Machine Unit}
    (h : Reached .rest m) (hr : processLine fuel m = some r) : Reached .rest (after r) := by
  rw [processLine_eq] at hr
  cases hi : Machine.interpret fuel (m.line.text.length + 2) m with
  | none => simp [hi] at hr
  | some q =>
    obtain rfl : closeLine q = r := by simpa [hi] using hr
    exact h.start.interpret hi

end Reached
end Machine
end ThreadedForth
