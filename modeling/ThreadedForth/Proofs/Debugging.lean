/-
  Runs under a debugger.
-/
import ThreadedForth.Proofs.IdentityHashes

namespace ThreadedForth

variable {α : Type}

/-- All parts of the surroundings but the debugger. -/
def Parts.butDebugger : Parts :=
  { line := true, output := true, interrupt := true, host := true, calls := true,
    addresses := true }

theorem Parts.Within.butDebugger {J : Parts} (h : J.debugger = false) : J.Within .butDebugger where
  line _ := rfl
  output _ := rfl
  interrupt _ := rfl
  debugger hd := absurd (h.symm.trans hd) Bool.false_ne_true
  host _ := rfl
  calls _ := rfl
  addresses _ := rfl

/-- No other primitive uses the debugger. -/
theorem Primitive.debugger_uses {p : Primitive} (hp : p ≠ .state .debugLevel) :
    p.uses.debugger = false := by
  unfold Primitive.uses
  split <;> first | rfl | exact absurd rfl hp

namespace Machine

/-- The machine with another debugger. -/
def under (m : Machine) (d : Debugger) : Machine :=
  { m with debugger := d }

variable {m : Machine} {d : Debugger}

@[simp] theorem under_self (m : Machine) : m.under m.debugger = m := rfl

end Machine

/-- A computation that does not use the debugger does the same under another one. -/
theorem UsesOnly.under {act : M α} (h : UsesOnly .butDebugger act) (m : Machine) (d : Debugger) :
    act (m.under d) = Machine.alter (·.under d) (act m) :=
  h m { m.surroundings with debugger := d }

theorem UsesOnly.after_debugger {act : M α} (h : UsesOnly .butDebugger act) (m : Machine) :
    (Machine.after (act m)).debugger = m.debugger := by
  have hd := congrArg (fun r => (Machine.after r).debugger) (h.under m m.debugger)
  rwa [Machine.under_self, Machine.after_alter] at hd

namespace Machine

variable {m : Machine} {d : Debugger}

/-! ## What the debugger sees of a step -/

/-- The frame that takes the next step, unless a run has ended or an interrupt was asked for. -/
def active? (m : Machine) : Option Frame :=
  match m.runs, m.frames with
  | r :: _, f :: _ => if m.isBackAt r.base || m.interrupt then none else some f
  | _, _ => none

/-- The element that the next step starts, if it starts one: the word and the position.  There is
    none at the end of a body. -/
def element? (m : Machine) : Option (WordId × Nat) :=
  match m.active? with
  | none => none
  | some f =>
    match (m.heap.word f.word).code with
    | .ok .docol => if f.ip < (m.heap.word f.word).size then some (f.word, f.ip) else none
    | _ => none

/-- What the next step finds. -/
inductive Turn (m : Machine) : Prop
  /-- Nothing is running. -/
  | idle (hr : m.runs = []) (ha : m.active? = none)
  /-- The innermost run has ended. -/
  | back {r : Run} {rs : List Run} (hr : m.runs = r :: rs) (hb : m.frames.length ≤ r.base)
    (ha : m.active? = none)
  /-- An interrupt has been asked for. -/
  | interrupted {r : Run} {rs : List Run} (hr : m.runs = r :: rs) (hb : r.base < m.frames.length)
    (hi : m.interrupt = true) (ha : m.active? = none)
  /-- A frame is to take a step. -/
  | frame {r : Run} {rs : List Run} {f : Frame} {rest : List Frame} (hr : m.runs = r :: rs)
    (hf : m.frames = f :: rest) (hb : r.base < m.frames.length) (hi : m.interrupt = false)
    (ha : m.active? = some f)

theorem turn (m : Machine) : m.Turn := by
  cases hr : m.runs with
  | nil => exact .idle hr (by rw [active?, hr])
  | cons r rs =>
    rcases Nat.lt_or_ge r.base m.frames.length with hb | hb
    · have hn : m.isBackAt r.base = false :=
        Bool.eq_false_iff.2 fun h => Nat.not_le_of_lt hb (isBackAt_iff.1 h)
      cases hf : m.frames with
      | nil => simp [hf] at hb
      | cons f rest =>
        cases hi : m.interrupt with
        | true => exact .interrupted hr hb hi (by simp [active?, hr, hf, hi])
        | false => exact .frame hr hf hb hi (by simp [active?, hr, hf, hi, hn])
    · have hback := isBackAt_iff.2 hb
      exact .back hr hb (by cases hf : m.frames <;> simp [active?, hr, hf, hback])

theorem primitive?_eq_some_iff {p : Primitive} : m.primitive? = some p ↔
    ∃ f, m.active? = some f ∧ (m.heap.word f.word).code = .ok (.native p) := by
  unfold primitive? active?
  cases m.runs with
  | nil => simp
  | cons r rs =>
    cases m.frames with
    | nil => simp
    | cons f rest =>
      dsimp only
      split
      · simp
      · simp only [Option.some.injEq, exists_eq_left']
        rcases (m.heap.word f.word).code with e | _ | q | _ <;> simp

/-- The level that the next step sets, if it runs the word for that. -/
def level? (m : Machine) : Option DebugLevel :=
  if m.primitive? = some (.state .debugLevel) then
    match M.popInt m with
    | .ok n _ => DebugLevel.ofInt? n.toInt
    | .error _ _ => none
  else none

/-- What becomes of a debugger in the next step.  It is shown an element that is started, and has
    its level set by the word for that; nothing else concerns it. -/
def debuggerNext (m : Machine) (d : Debugger) : Debugger :=
  match m.element?, m.level? with
  | some (w, ip), _ =>
    if d.isWatching then d.visit w (m.heap.word w).label ip m.frames.length m.data.depth else d
  | none, some l => d.setLevel l m.frames.length
  | none, none => d

theorem level?_of_code (hc : ∀ f, m.active? = some f →
    (m.heap.word f.word).code ≠ .ok (.native (.state .debugLevel))) : m.level? = none := by
  refine if_neg fun hp => ?_
  obtain ⟨f, ha, hcode⟩ := primitive?_eq_some_iff.1 hp
  exact hc f ha hcode

theorem debuggerNext_of_none (he : m.element? = none) (hl : m.level? = none) (d : Debugger) :
    m.debuggerNext d = d := by
  rw [debuggerNext, he, hl]

/-- A step that is not taken by a frame shows the debugger nothing. -/
theorem debuggerNext_of_inactive (ha : m.active? = none) (d : Debugger) : m.debuggerNext d = d :=
  debuggerNext_of_none (by rw [element?, ha])
    (level?_of_code fun f hf => absurd (ha.symm.trans hf) (Option.some_ne_none f).symm) d

/-- Nor does one by a frame whose word is neither composed nor the one that sets the level. -/
theorem debuggerNext_of_code {f : Frame} (ha : m.active? = some f)
    (hd : (m.heap.word f.word).code ≠ .ok .docol)
    (hn : (m.heap.word f.word).code ≠ .ok (.native (.state .debugLevel))) (d : Debugger) :
    m.debuggerNext d = d := by
  refine debuggerNext_of_none ?_ (level?_of_code fun g hg => ?_) d
  · simp only [element?, ha]
  · obtain rfl := Option.some.inj (ha.symm.trans hg)
    exact hn

/-- The hook is asked about an element that is started, if anybody watches, and about nothing
    else. -/
theorem asked_debuggerNext (m : Machine) (d : Debugger) :
    (m.debuggerNext d).hook.asked = d.hook.asked + (m.element?.isSome && d.isWatching).toNat := by
  unfold debuggerNext
  cases m.element? with
  | some e =>
    dsimp only
    cases d.isWatching with
    | false => rfl
    | true =>
      simp only [if_true, Debugger.visit]
      split
      · unfold Hook.stopped
        cases d.hook.plan <;> rfl
      · rfl
  | none => cases m.level? <;> rfl

/-! ## One step -/

theorem fail_under (e : Error) (m : Machine) (d : Debugger) :
    (m.under d).fail e = (m.fail e).alter (·.under d) :=
  fail_amid (K := .butDebugger) (s := { m.surroundings with debugger := d }) rfl e

theorem settle_under {act : M Flow} (h : UsesOnly .butDebugger act) (m : Machine) (d : Debugger) :
    settle (act (m.under d)) = (settle (act m)).alter (·.under d) :=
  settle_uses (s := { m.surroundings with debugger := d }) rfl h

theorem under_heap (m : Machine) (d : Debugger) : (m.under d).heap = m.heap := rfl

/-- A machine that has passed an element has shown it to the debugger. -/
theorem pass_under (m : Machine) (d : Debugger) (f : Frame) (rest : List Frame) :
    (m.under d).pass f rest = (m.pass f rest).under
      (if d.isWatching then
        d.visit f.word (m.heap.word f.word).label f.ip m.frames.length m.data.depth
      else d) := rfl

/-- The word that sets the level. -/
theorem run_debugLevel (m : Machine) : (Primitive.state .debugLevel).run m =
    match M.popInt m with
    | .error e m₁ => .error e m₁
    | .ok n m₁ =>
      match DebugLevel.ofInt? n.toInt with
      | none => .error (.indexOutOfRange n.toInt 4) m₁
      | some l =>
        .ok .next { m₁ with debugger := m₁.debugger.setLevel l m₁.frames.length } := by
  show ((M.popInt >>= _) >>= _) m = _
  cases hn : M.popInt m with
  | error e m₁ => rw [M.bind_error (M.bind_error hn)]
  | ok n m₁ =>
    dsimp only
    cases hl : DebugLevel.ofInt? n.toInt with
    | none =>
      refine M.bind_error ((M.bind_ok hn).trans ?_)
      rw [hl]
      rfl
    | some l =>
      refine (M.bind_ok (a := ()) ((M.bind_ok hn).trans ?_)).trans rfl
      rw [hl]
      rfl

section Step

variable {f : Frame} {rest : List Frame} (ha : m.active? = some f)
include ha

theorem debugLevel_under (hcode : (m.heap.word f.word).code = .ok (.native (.state .debugLevel)))
    (d : Debugger) : settle ((Primitive.state .debugLevel).run (m.under d)) =
      (settle ((Primitive.state .debugLevel).run m)).alter (·.under (m.debuggerNext d)) := by
  have he : m.element? = none := by simp only [element?, ha, hcode]
  have hl : m.level? = match M.popInt m with
      | .ok n _ => DebugLevel.ofInt? n.toInt
      | .error _ _ => none := if_pos (primitive?_eq_some_iff.2 ⟨f, ha, hcode⟩)
  rw [run_debugLevel, run_debugLevel, M.popInt_uses.under m d]
  cases hn : M.popInt m with
  | error e m₁ =>
    rw [hn] at hl
    rw [debuggerNext_of_none he hl]
    exact fail_under e m₁ d
  | ok n m₁ =>
    rw [hn] at hl
    obtain ⟨s, -, rfl⟩ := M.popInt_eq_ok hn
    simp only [alter] at hl ⊢
    cases hn' : DebugLevel.ofInt? n.toInt with
    | none =>
      rw [hn'] at hl
      rw [debuggerNext_of_none he hl]
      exact fail_under _ _ d
    | some l =>
      rw [hn'] at hl
      have hnext : m.debuggerNext d = d.setLevel l m.frames.length := by rw [debuggerNext, he, hl]
      rw [hnext]
      rfl

theorem stepElement_under (hcode : (m.heap.word f.word).code = .ok .docol) (d : Debugger) :
    (m.under d).stepElement f rest = (m.stepElement f rest).alter (·.under (m.debuggerNext d)) := by
  have hl : m.level? = none := level?_of_code fun g hg => by
    obtain rfl := Option.some.inj (ha.symm.trans hg)
    simp [hcode]
  have hel : m.element? =
      if f.ip < (m.heap.word f.word).size then some (f.word, f.ip) else none := by
    simp only [element?, ha, hcode]
  rw [stepElement_eq, stepElement_eq, under_heap]
  cases he : (m.heap.word f.word).body[f.ip]? with
  | none =>
    have hend : ¬f.ip < (m.heap.word f.word).size := Nat.not_lt.2 (Array.getElem?_eq_none_iff.1 he)
    rw [if_neg hend] at hel
    rw [debuggerNext_of_none hel hl]
    rfl
  | some e =>
    have hin : f.ip < (m.heap.word f.word).size := (Array.getElem?_eq_some_iff.1 he).1
    rw [if_pos hin] at hel
    have hnext : m.debuggerNext d =
        if d.isWatching then
          d.visit f.word (m.heap.word f.word).label f.ip m.frames.length m.data.depth
        else d := by rw [debuggerNext, hel]
    rw [pass_under, ← hnext]
    cases e with
    | call callee | recurse => rfl
    | direct | lit => exact fail_under _ _ _

theorem stepFrame_under (d : Debugger) :
    (m.under d).stepFrame f rest = (m.stepFrame f rest).alter (·.under (m.debuggerNext d)) := by
  rw [stepFrame, stepFrame, under_heap]
  cases hcode : (m.heap.word f.word).code with
  | error e =>
    rw [debuggerNext_of_code ha (by simp [hcode]) (by simp [hcode])]
    exact fail_under e m d
  | ok c =>
    cases c with
    | docol => exact stepElement_under ha hcode d
    | native p =>
      by_cases hp : p = .state .debugLevel
      · subst hp
        exact debugLevel_under ha hcode d
      · rw [debuggerNext_of_code ha (by simp [hcode]) (by simpa [hcode] using hp)]
        exact settle_under (p.run_usesOnly (.butDebugger (Primitive.debugger_uses hp))) m d
    | indirect body entry =>
      rw [debuggerNext_of_code ha (by simp [hcode]) (by simp [hcode])]
      dsimp only
      rw [(M.push_uses _).under m d]
      cases M.push (.ptr (m.heap.pointer f.word 1)) m with
      | ok _ m₁ => rfl
      | error e m₁ => exact fail_under e m₁ d

end Step

/-- **A step under another debugger is the same step**, and the debugger becomes what the step
    makes of it. -/
theorem step_under (m : Machine) (d : Debugger) :
    (m.under d).step = m.step.alter (·.under (m.debuggerNext d)) := by
  cases m.turn with
  | idle hr ha =>
    have hr' : (m.under d).runs = [] := hr
    rw [debuggerNext_of_inactive ha, step, step, hr, hr']
    rfl
  | @back r rs hr hb ha =>
    rw [debuggerNext_of_inactive ha, step_of_back (m := m.under d) hr hb, step_of_back hr hb]
    cases r.pending with
    | outside => rfl
    | handler | run | attempt => exact settle_under (resume_uses _) { m with runs := rs } d
  | interrupted hr hb hi ha =>
    rw [debuggerNext_of_inactive ha, step_of_interrupt (m := m.under d) hr hb hi,
      step_of_interrupt hr hb hi]
    exact fail_under .interrupted { m with interrupt := false } d
  | frame hr hf hb hi ha =>
    rw [step_of_frame (m := m.under d) hr hf hb hi, step_of_frame hr hf hb hi]
    exact stepFrame_under ha d

theorem debugger_step (m : Machine) : m.step.machine.debugger = m.debuggerNext m.debugger := by
  have h := congrArg (fun p => p.machine.debugger) (step_under m m.debugger)
  rwa [under_self, Progress.machine_alter] at h

/-- **A step asks the hook exactly if it starts an element and somebody watches**, and once. -/
theorem asked_step (m : Machine) : m.step.machine.debugger.hook.asked =
    m.debugger.hook.asked + (m.element?.isSome && m.debugger.isWatching).toNat := by
  rw [debugger_step, asked_debuggerNext]

/-! ## Runs and lines -/

theorem steps_under (fuel : Nat) (m : Machine) (d : Debugger) :
    ∃ d', steps fuel (m.under d) = (steps fuel m).map (alter (·.under d')) := by
  induction fuel generalizing m d with
  | zero => exact ⟨d, rfl⟩
  | succ fuel ih =>
    have hs := step_under m d
    simp only [steps]
    cases hm : m.step with
    | running m₁ =>
      rw [hm] at hs
      rw [hs]
      exact ih m₁ _
    | ended m₁ | failed e m₁ =>
      rw [hm] at hs
      rw [hs]
      exact ⟨_, rfl⟩

theorem execute_under (fuel : Nat) (w : WordId) (m : Machine) (d : Debugger) :
    ∃ d', execute fuel w (m.under d) = (execute fuel w m).map (alter (·.under d')) :=
  steps_under fuel (m.startRun w .outside) d

theorem interpretToken_under (fuel : Nat) (token : String) (m : Machine) (d : Debugger) :
    ∃ d', interpretToken fuel token (m.under d) =
      (interpretToken fuel token m).map (alter (·.under d')) := by
  have hw : (m.under d).wordToRun? token = m.wordToRun? token := rfl
  rw [interpretToken_eq, interpretToken_eq, hw]
  cases m.wordToRun? token with
  | some w => exact execute_under fuel w m d
  | none => exact ⟨d, congrArg some ((compileToken_uses rfl token).under m d)⟩

theorem interpret_under (fuel n : Nat) (m : Machine) (d : Debugger) :
    ∃ d', interpret fuel n (m.under d) = (interpret fuel n m).map (alter (·.under d')) := by
  induction n generalizing m d with
  | zero => exact ⟨d, rfl⟩
  | succ n ih =>
    have hread := (nextSourceToken_uses (K := .butDebugger) rfl rfl).under m d
    rw [interpret_succ, interpret_succ, hread]
    rcases nextSourceToken m with ⟨_ | t, m₁⟩ | ⟨e, m₁⟩
    · exact ⟨d, rfl⟩
    · obtain ⟨d₁, ht⟩ := interpretToken_under fuel t m₁ d
      simp only [alter]
      rw [ht]
      rcases interpretToken fuel t m₁ with _ | ⟨_, m₂⟩ | ⟨e, m₂⟩
      · exact ⟨d, rfl⟩
      · exact ih m₂ d₁
      · exact ⟨d₁, rfl⟩
    · exact ⟨d, rfl⟩

theorem closeLine_under (r : EStateM.Result Error Machine Unit) (d : Debugger) :
    closeLine (alter (·.under d) r) = alter (·.under d) (closeLine r) := by
  cases r with
  | ok _ m => exact (M.put_uses (K := .butDebugger) rfl m.prompt).under m d
  | error e m => rfl

theorem processLine_under (fuel : Nat) (m : Machine) (d : Debugger) :
    ∃ d', processLine fuel (m.under d) = (processLine fuel m).map (alter (·.under d')) := by
  obtain ⟨d', h⟩ := interpret_under fuel (m.line.text.length + 2) m d
  refine ⟨d', ?_⟩
  rw [processLine_eq, processLine_eq]
  show (interpret fuel (m.line.text.length + 2) (m.under d)).map closeLine = _
  rw [h, Option.map_map, Option.map_map]
  exact congrArg (fun g => (interpret fuel _ m).map g) (funext fun r => closeLine_under r d')

/-! ## How often the hook is asked -/

/-- Whether the next step reaches an element of a composed word while debugging is on and a hook
    is attached. -/
def isShown (m : Machine) : Bool :=
  m.element?.isSome && m.debugger.isWatching

theorem asked_steps {fuel : Nat} {m : Machine} {r : EStateM.Result Error Machine Unit}
    (h : steps fuel m = some r) : (after r).debugger.hook.asked =
      m.debugger.hook.asked + (trail fuel m).countP isShown := by
  induction fuel generalizing m with
  | zero => cases h
  | succ fuel ih =>
    have hs := asked_step m
    have hone : (m.element?.isSome && m.debugger.isWatching).toNat = if isShown m then 1 else 0 := by
      show (isShown m).toNat = _
      cases isShown m <;> rfl
    rw [hone] at hs
    rw [steps] at h
    rw [trail, List.countP_cons]
    cases hm : m.step with
    | running m₁ =>
      rw [hm] at h hs
      rw [ih h]
      dsimp only [Progress.machine] at hs ⊢
      omega
    | ended m₁ | failed e m₁ =>
      rw [hm] at h hs
      cases h
      dsimp only [Progress.machine, after] at hs ⊢
      simpa using hs

theorem asked_interpretToken {fuel : Nat} {token : String} {m : Machine}
    {r : EStateM.Result Error Machine Unit} (h : interpretToken fuel token m = some r) :
    (after r).debugger.hook.asked =
      m.debugger.hook.asked + (tokenTrail fuel token m).countP isShown := by
  rw [interpretToken_eq] at h
  unfold tokenTrail
  cases hw : m.wordToRun? token with
  | some w =>
    rw [hw] at h
    exact asked_steps h
  | none =>
    rw [hw] at h
    cases h
    rw [(compileToken_uses (K := .butDebugger) rfl token).after_debugger m]
    rfl

theorem asked_interpret {fuel n : Nat} {m : Machine} {r : EStateM.Result Error Machine Unit}
    (h : interpret fuel n m = some r) : (after r).debugger.hook.asked =
      m.debugger.hook.asked + (lineTrail fuel n m).countP isShown := by
  induction n generalizing m with
  | zero =>
    cases h
    rfl
  | succ n ih =>
    have hread := (nextSourceToken_uses (K := .butDebugger) rfl rfl).after_debugger m
    rw [interpret_succ] at h
    rw [lineTrail]
    rcases hs : nextSourceToken m with ⟨_ | t, m₁⟩ | ⟨e, m₁⟩
    · rw [hs] at h hread
      cases h
      rw [← hread]
      rfl
    · rw [hs, after_ok] at hread
      simp only [hs] at h
      rw [← hread]
      dsimp only
      rcases ht : interpretToken fuel t m₁ with _ | ⟨_, m₂⟩ | ⟨e, m₂⟩
      · rw [ht] at h
        cases h
      · rw [ht] at h
        have hasked := asked_interpretToken ht
        rw [after_ok] at hasked
        dsimp only
        rw [ih h, hasked, List.countP_append, Nat.add_assoc]
      · rw [ht] at h
        cases h
        rw [asked_interpretToken ht, List.append_nil]
    · rw [hs] at h hread
      cases h
      rw [← hread]
      rfl

theorem asked_closeLine (r : EStateM.Result Error Machine Unit) :
    (after (closeLine r)).debugger = (after r).debugger := by
  cases r with
  | ok _ m => exact (M.put_uses (K := .butDebugger) rfl m.prompt).after_debugger m
  | error e m => rfl

theorem map_alter (g h : Machine → Machine) (r : Option (EStateM.Result Error Machine α)) :
    (r.map (alter g)).map (alter h) = r.map (alter fun x => h (g x)) := by
  rcases r with _ | _ | _ <;> rfl

/-- **A debugger is transparent.**  Whatever its level is, whatever its hook answers and whatever
    levels it goes on with, words and lines have the same result and leave the same machine, but
    for the debugger, as without debugging; they end within the same number of steps, if they end.
    The hook is asked once for each step that reaches an element of a composed word while
    debugging is on, and for no other.

    This is said of objects at the same addresses.  A hook that allocates may move the objects that
    are made after it was asked, and this makes no difference either, except to the hash of an array
    or a record at another address. -/
theorem debugger_transparent (m : Machine) (d : Debugger) (fuel : Nat) :
    (∀ w, ∃ d', execute fuel w (m.under d) =
      (execute fuel w (m.under {})).map (alter (·.under d'))) ∧
    (∃ d', processLine fuel (m.under d) =
      (processLine fuel (m.under {})).map (alter (·.under d'))) ∧
    (∀ w r, execute fuel w (m.under d) = some r → (after r).debugger.hook.asked =
      d.hook.asked + (trail fuel ((m.under d).startRun w .outside)).countP isShown) ∧
    (∀ r, processLine fuel (m.under d) = some r → (after r).debugger.hook.asked =
      d.hook.asked + (lineTrail fuel (m.line.text.length + 2) (m.under d)).countP isShown) ∧
    ∀ f : ObjId → UInt64,
      (∀ w, (∀ x ∈ trail fuel ((m.under {}).startRun w .outside), x.HashesAlike f) →
        ∃ d', execute fuel w ((m.under d).located f) =
          (execute fuel w (m.under {})).map (alter fun x => (x.located f).under d')) ∧
      ((∀ x ∈ lineTrail fuel (m.line.text.length + 2) (m.under {}), x.HashesAlike f) →
        ∃ d', processLine fuel ((m.under d).located f) =
          (processLine fuel (m.under {})).map (alter fun x => (x.located f).under d')) := by
  refine ⟨fun w => execute_under fuel w (m.under {}) d, processLine_under fuel (m.under {}) d,
    fun w r h => asked_steps h, fun r h => ?_, fun f => ⟨fun w hash => ?_, fun hash => ?_⟩⟩
  · rw [processLine_eq] at h
    obtain ⟨q, hq, rfl⟩ := Option.map_eq_some_iff.1 h
    rw [asked_closeLine]
    exact asked_interpret hq
  · obtain ⟨d', h⟩ := execute_under fuel w ((m.under {}).located f) d
    rw [execute_located hash, map_alter] at h
    exact ⟨d', h⟩
  · obtain ⟨d', h⟩ := processLine_under fuel ((m.under {}).located f) d
    rw [processLine_located hash, map_alter] at h
    exact ⟨d', h⟩

end Machine
end ThreadedForth
