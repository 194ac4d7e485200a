/-
  The actions of a line, one by one, so that an interrupt can be asked for before any of
  them.
-/
import ThreadedForth.Proofs.LineBreaks

namespace ThreadedForth

variable {α : Type}

/-! ## Signals and stages -/

/-- What somebody outside is told about a request or an action. -/
inductive Signal where
  /-- An interrupt is asked for. -/
  | ask
  /-- The machine looks for a request, and finds one or not. -/
  | look (found : Bool)
  /-- The machine finds a request inside a host word that swallows errors. -/
  | swallowed
  /-- The machine works.  A host word may ask for an interrupt then, if nobody has yet. -/
  | work (asks : Bool)
  /-- The machine ends the line, with the prompt or the reset. -/
  | finish
deriving DecidableEq, Repr

/-- Where a line is between two actions. -/
inductive Stage where
  /-- Before the look that comes before a token. -/
  | check
  /-- Before the next token is read. -/
  | read
  /-- Before a token is run or compiled. -/
  | token (t : String)
  /-- Inside a word, before its next step. -/
  | word
  /-- Inside a word, after the look and before the work of the innermost frame. -/
  | frame
  /-- After the last token. -/
  | close
  /-- After an error. -/
  | giveUp (e : Error)
  /-- After the line, and the error that it ended with. -/
  | ended (e? : Option Error)
deriving DecidableEq, Repr

/-- Where a line is after a step of a word. -/
def Progress.stage : Progress → Stage
  | running _ => .word
  | ended _ => .check
  | failed e _ => .giveUp e

/-- Where a line is after a computation. -/
def Stage.onward (next : α → Stage) : EStateM.Result Error Machine α → Stage × Machine
  | .ok a m => (next a, m)
  | .error e m => (.giveUp e, m)

theorem Stage.onward_machine (next : α → Stage) (r : EStateM.Result Error Machine α) :
    (Stage.onward next r).2 = Machine.after r := by
  cases r <;> rfl

namespace Machine

/-! ## Actions -/

/-- The next token, after the look for a request. -/
def readToken : M (Option String) := do
  if (← get).inComment then
    modify Machine.skipComment
    if (← get).inComment then return none
  M.nextToken

/-- Whether a frame is to take the next step, so that the machine looks for a request first. -/
def isDue (m : Machine) : Bool :=
  match m.runs with
  | [] => false
  | r :: _ => !m.isBackAt r.base

/-- Whether a host word that swallows errors is running. -/
def swallows (m : Machine) : Bool :=
  m.runs.any fun r => r.pending = .attempt

/-- The work of the innermost frame. -/
def stepTop (m : Machine) : Progress :=
  match m.frames with
  | [] => m.fail .callStackCorrupted
  | f :: rest => m.stepFrame f rest

/-- A token is run or compiled. -/
def takeToken (t : String) (m : Machine) : Stage × Machine :=
  match m.wordToRun? t with
  | some w => (.word, m.startRun w .outside)
  | none => Stage.onward (fun _ => .check) (compileToken t m)

/-- The end of a line that has not failed.  The prompt may not fit. -/
def endLine (m : Machine) : Stage × Machine :=
  match M.put m.prompt m with
  | .ok _ m => (.ended none, m)
  | .error e m => (.ended (some e), m)

/-- Work that leads to a stage and a machine. -/
def worked (m : Machine) (next : Stage × Machine) : Signal × Stage × Machine :=
  (.work (!m.interrupt && next.2.interrupt), next)

/-- The next action of a line, unless it is over: what it signals and where it leads. -/
def act (m : Machine) : Stage → Option (Signal × Stage × Machine)
  | .check =>
    if m.interrupt then some (.look true, .giveUp .interrupted, { m with interrupt := false })
    else some (.look false, .read, m)
  | .read =>
    some (m.worked (Stage.onward (fun t? => t?.elim .close .token) (readToken m)))
  | .token t => some (m.worked (takeToken t m))
  | .word =>
    if m.isDue then
      if m.interrupt then
        let p := fail .interrupted { m with interrupt := false }
        some (if m.swallows then .swallowed else .look true, p.stage, p.machine)
      else some (.look false, .frame, m)
    else some (m.worked (m.step.stage, m.step.machine))
  | .frame => some (m.worked (m.stepTop.stage, m.stepTop.machine))
  | .close => some (.finish, m.endLine)
  | .giveUp e => some (.finish, .ended (some e), m.giveUpLine)
  | .ended _ => none

/-- The actions that lead from one stage of a line to another, with requests in between, and what
    they signal. -/
inductive Pass : Stage → Machine → List Signal → Stage → Machine → Prop
  | refl (st : Stage) (m : Machine) : Pass st m [] st m
  | ask {st st' : Stage} {m m' : Machine} {t : List Signal}
    (h : Pass st { m with interrupt := true } t st' m') : Pass st m (.ask :: t) st' m'
  | act {st st₁ st' : Stage} {m m₁ m' : Machine} {s : Signal} {t : List Signal}
    (ha : m.act st = some (s, st₁, m₁)) (h : Pass st₁ m₁ t st' m') : Pass st m (s :: t) st' m'

variable {m m₁ m₂ y : Machine} {st st₁ st₂ : Stage} {s : Signal} {t u : List Signal}
  {e? : Option Error}

namespace Pass

theorem trans (h : Pass st m t st₁ m₁) (h' : Pass st₁ m₁ u st₂ m₂) : Pass st m (t ++ u) st₂ m₂ := by
  induction h with
  | refl => exact h'
  | ask _ ih => exact .ask (ih h')
  | act ha _ ih => exact .act ha (ih h')

theorem split (h : Pass st m (t ++ u) st₂ m₂) :
    ∃ st₁ m₁, Pass st m t st₁ m₁ ∧ Pass st₁ m₁ u st₂ m₂ := by
  induction t generalizing st m with
  | nil => exact ⟨st, m, .refl st m, h⟩
  | cons s t ih =>
    cases h with
    | ask h =>
      obtain ⟨st₁, m₁, hl, hr⟩ := ih h
      exact ⟨st₁, m₁, .ask hl, hr⟩
    | act ha h =>
      obtain ⟨st₁, m₁, hl, hr⟩ := ih h
      exact ⟨st₁, m₁, .act ha hl, hr⟩

end Pass

/-! ## Steps -/

/-- A run that has ended. -/
theorem isDue_eq_false_iff : m.isDue = false ↔
    m.runs = [] ∨ ∃ r rs, m.runs = r :: rs ∧ m.frames.length ≤ r.base := by
  unfold isDue
  cases m.runs with
  | nil => simp
  | cons r rs => simp [isBackAt_iff]

theorem isDue_eq_true_iff : m.isDue = true ↔
    ∃ r rs, m.runs = r :: rs ∧ r.base < m.frames.length := by
  unfold isDue
  cases m.runs with
  | nil => simp
  | cons r rs => simp [← Bool.not_eq_true, isBackAt_iff]

/-- The end of a run is work. -/
theorem step_of_not_due (hd : m.isDue = false) : m.step = .ended m ∨
    ∃ r rs, m.runs = r :: rs ∧ (m.step = .ended { m with runs := rs } ∨
      m.step = settle (resume r.pending { m with runs := rs })) := by
  rcases isDue_eq_false_iff.1 hd with hr | ⟨r, rs, hr, hb⟩
  · left
    rw [step, hr]
  · refine .inr ⟨r, rs, hr, ?_⟩
    rw [step_of_back hr hb]
    cases r.pending with
    | outside => exact .inl rfl
    | handler | run | attempt => exact .inr rfl

theorem step_of_due_interrupted (hd : m.isDue = true) (hi : m.interrupt = true) :
    m.step = fail .interrupted { m with interrupt := false } := by
  obtain ⟨r, rs, hr, hb⟩ := isDue_eq_true_iff.1 hd
  exact step_of_interrupt hr hb hi

theorem step_of_due (hd : m.isDue = true) (hi : m.interrupt = false) : m.step = m.stepTop := by
  obtain ⟨r, rs, hr, hb⟩ := isDue_eq_true_iff.1 hd
  cases hf : m.frames with
  | nil => simp [hf] at hb
  | cons f rest => rw [step_of_frame hr hf hb hi, stepTop, hf]

theorem act_check_interrupted (hi : m.interrupt = true) :
    m.act .check = some (.look true, .giveUp .interrupted, { m with interrupt := false }) :=
  if_pos hi

theorem act_check_quiet (hi : m.interrupt = false) :
    m.act .check = some (.look false, .read, m) :=
  if_neg (by simp [hi])

theorem act_word_of_not_due (hd : m.isDue = false) :
    m.act .word = some (m.worked (m.step.stage, m.step.machine)) :=
  if_neg (by simp [hd])

theorem act_word_interrupted (hd : m.isDue = true) (hi : m.interrupt = true) :
    m.act .word = some (if m.swallows then .swallowed else .look true, m.step.stage, m.step.machine) := by
  rw [step_of_due_interrupted hd hi]
  exact (if_pos hd).trans (if_pos hi)

theorem act_word_quiet (hd : m.isDue = true) (hi : m.interrupt = false) :
    m.act .word = some (.look false, .frame, m) :=
  (if_pos hd).trans (if_neg (by simp [hi]))

/-- Only somebody outside asks as a request of its own. -/
theorem act_ne_ask (ha : m.act st = some (s, st₁, m₁)) : s ≠ .ask := by
  rintro rfl
  cases st with
  | check =>
    dsimp only [act] at ha
    split at ha <;> cases ha
  | word =>
    dsimp only [act] at ha
    split at ha
    · split at ha
      · split at ha <;> cases ha
      · cases ha
    · cases ha
  | _ => cases ha

/-! ## Lines that nobody asks to interrupt -/

/-- The actions of a line lead from one stage to another if nobody asks for an interrupt. -/
def Alone (st : Stage) (m : Machine) (st' : Stage) (m' : Machine) : Prop :=
  ∃ t, .ask ∉ t ∧ Pass st m t st' m'

namespace Alone

theorem trans (h : Alone st m st₁ m₁) (h' : Alone st₁ m₁ st₂ m₂) : Alone st m st₂ m₂ := by
  obtain ⟨t, ht, hp⟩ := h
  obtain ⟨u, hu, hp'⟩ := h'
  exact ⟨t ++ u, by simp [ht, hu], hp.trans hp'⟩

theorem of_act (ha : m.act st = some (s, st₁, m₁)) : Alone st m st₁ m₁ := by
  exact ⟨[s], by simpa using (act_ne_ask ha).symm, .act ha (.refl _ _)⟩

end Alone

theorem nextSourceToken_eq_readToken (hi : m.interrupt = false) :
    nextSourceToken m = readToken m := by
  have hc : checkInterrupt m = .ok () m := by
    rw [checkInterrupt_eq, hi]
    rfl
  exact M.bind_ok hc

/-- A step of a word. -/
theorem step_alone (m : Machine) : Alone .word m m.step.stage m.step.machine := by
  cases hd : m.isDue with
  | false => exact .of_act (act_word_of_not_due hd)
  | true =>
    cases hi : m.interrupt with
    | true => exact .of_act (act_word_interrupted hd hi)
    | false =>
      rw [step_of_due hd hi]
      exact (Alone.of_act (act_word_quiet hd hi)).trans (.of_act rfl)

theorem steps_alone {fuel : Nat} {r : EStateM.Result Error Machine Unit}
    (h : steps fuel m = some r) :
    Alone .word m (Stage.onward (fun _ => .check) r).1 (Stage.onward (fun _ => .check) r).2 := by
  induction fuel generalizing m with
  | zero => cases h
  | succ fuel ih =>
    have hs := step_alone m
    rw [steps] at h
    cases hm : m.step with
    | running m₁ =>
      rw [hm] at h hs
      exact hs.trans (ih h)
    | ended m₁ | failed e m₁ =>
      rw [hm] at h hs
      cases h
      exact hs

theorem interpretToken_alone {fuel : Nat} {w : String} {r : EStateM.Result Error Machine Unit}
    (h : interpretToken fuel w m = some r) :
    Alone (.token w) m (Stage.onward (fun _ => .check) r).1 (Stage.onward (fun _ => .check) r).2 := by
  have ha : Alone (.token w) m (takeToken w m).1 (takeToken w m).2 := .of_act rfl
  rw [interpretToken_eq] at h
  unfold takeToken at ha
  cases hw : m.wordToRun? w with
  | some x =>
    rw [hw] at h ha
    exact ha.trans (steps_alone h)
  | none =>
    rw [hw] at h ha
    cases h
    exact ha

theorem interpret_alone {fuel n : Nat} {r : EStateM.Result Error Machine Unit}
    (h : interpret fuel n m = some r) (hn : m.line.rest.length < n) :
    Alone .check m (Stage.onward (fun _ => .close) r).1 (Stage.onward (fun _ => .close) r).2 := by
  induction n generalizing m with
  | zero => omega
  | succ n ih =>
    rw [interpret_succ] at h
    cases hi : m.interrupt with
    | true =>
      rw [nextSourceToken_interrupted hi] at h
      cases h
      exact .of_act (act_check_interrupted hi)
    | false =>
      have hread : Alone .check m (Stage.onward (fun t? => t?.elim .close .token) (readToken m)).1
          (Stage.onward (fun t? => t?.elim .close .token) (readToken m)).2 :=
        (Alone.of_act (act_check_quiet hi)).trans (.of_act rfl)
      rw [← nextSourceToken_eq_readToken hi] at hread
      rcases hs : nextSourceToken m with ⟨_ | w, m₁⟩ | ⟨e, m₁⟩
      · rw [hs] at h hread
        cases h
        exact hread
      · have hlt := nextSourceToken_lt hs
        rw [hs] at h hread
        dsimp only at h
        cases ht : interpretToken fuel w m₁ with
        | none =>
          rw [ht] at h
          cases h
        | some q =>
          have hw := hread.trans (interpretToken_alone ht)
          have hle := (interpretToken_reads ht).short
          rw [ht] at h
          cases q with
          | ok _ m₂ =>
            have hleft : m₂.line.rest.length < n := by
              simp only [after_ok] at hle
              omega
            exact hw.trans (ih h hleft)
          | error e m₂ =>
            cases h
            exact hw
      · rw [hs] at h hread
        cases h
        exact hread

/-- The result of a line. -/
def ending : Option Error → Machine → EStateM.Result Error Machine Unit
  | none, m => .ok () m
  | some e, m => .error e m

theorem closeLine_alone (r : EStateM.Result Error Machine Unit) : ∃ e? y,
    closeLine r = ending e? y ∧
      Alone (Stage.onward (fun _ => .close) r).1 (Stage.onward (fun _ => .close) r).2 (.ended e?) y := by
  cases r with
  | error e m => exact ⟨some e, m.giveUpLine, rfl, .of_act rfl⟩
  | ok _ m =>
    have ha : Alone .close m m.endLine.1 m.endLine.2 := .of_act rfl
    unfold endLine at ha
    show ∃ e? y, M.put m.prompt m = _ ∧ Alone .close m _ _
    cases hp : M.put m.prompt m with
    | ok _ x =>
      rw [hp] at ha
      exact ⟨none, x, rfl, ha⟩
    | error e x =>
      rw [hp] at ha
      exact ⟨some e, x, rfl, ha⟩

namespace Pass

/-- If nobody asks, an action is followed by what it leads to. -/
theorem next (h : Pass st m t (.ended e?) y) (ht : .ask ∉ t) (ha : m.act st = some (s, st₁, m₁)) :
    ∃ u, u.length < t.length ∧ .ask ∉ u ∧ Pass st₁ m₁ u (.ended e?) y := by
  cases h with
  | refl => cases ha
  | ask => exact absurd List.mem_cons_self ht
  | @act _ _ _ _ _ _ _ u ha' h =>
    cases ha.symm.trans ha'
    exact ⟨u, Nat.lt_succ_self _, List.not_mem_of_not_mem_cons ht, h⟩

theorem ended_eq {o : Option Error} (h : Pass (.ended o) m t (.ended e?) y) (ht : .ask ∉ t) :
    ending e? y = ending o m := by
  cases h with
  | refl => rfl
  | ask => exact absurd List.mem_cons_self ht
  | act ha => cases ha

/-- Where a line is after its last token or after an error. -/
theorem closed {r : EStateM.Result Error Machine Unit}
    (h : Pass (Stage.onward (fun _ => .close) r).1 (Stage.onward (fun _ => .close) r).2 t (.ended e?) y)
    (ht : .ask ∉ t) : closeLine r = ending e? y := by
  cases r with
  | error e m =>
    obtain ⟨u, -, hu, h⟩ := h.next ht rfl
    exact (h.ended_eq hu).symm
  | ok _ m =>
    obtain ⟨u, -, hu, h⟩ := h.next (s := .finish) ht rfl
    show M.put m.prompt m = _
    dsimp only [Stage.onward] at h
    cases hp : M.put m.prompt m with
    | ok _ x | error e x =>
      rw [hp] at h
      exact (h.ended_eq hu).symm

/-- A step of a word of a line that ends. -/
theorem step (h : Pass .word m t (.ended e?) y) (ht : .ask ∉ t) :
    ∃ u, u.length < t.length ∧ .ask ∉ u ∧ Pass m.step.stage m.step.machine u (.ended e?) y := by
  cases hd : m.isDue with
  | false => exact h.next ht (act_word_of_not_due hd)
  | true =>
    cases hi : m.interrupt with
    | true => exact h.next ht (act_word_interrupted hd hi)
    | false =>
      obtain ⟨u, hlt, hu, h⟩ := h.next ht (act_word_quiet hd hi)
      obtain ⟨v, hlt', hv, h⟩ := h.next (s := .work _) hu rfl
      rw [step_of_due hd hi]
      exact ⟨v, Nat.lt_trans hlt' hlt, hv, h⟩

/-- A word of a line that ends. -/
theorem steps (h : Pass .word m t (.ended e?) y) (ht : .ask ∉ t) :
    ∃ fuel r u, steps fuel m = some r ∧ u.length < t.length ∧ .ask ∉ u ∧
      Pass (Stage.onward (fun _ => .check) r).1 (Stage.onward (fun _ => .check) r).2 u (.ended e?) y := by
  induction hk : t.length using Nat.strongRecOn generalizing m t with
  | ind k ih =>
    subst hk
    obtain ⟨u, hlt, hu, h⟩ := h.step ht
    cases hm : m.step with
    | running m₁ =>
      rw [hm] at h
      obtain ⟨fuel, r, v, hr, hlt', hv, h⟩ := ih _ hlt h hu rfl
      exact ⟨fuel + 1, r, v, (steps_succ_of_running hm fuel).trans hr, Nat.lt_trans hlt' hlt, hv, h⟩
    | ended m₁ =>
      rw [hm] at h
      exact ⟨1, .ok () m₁, u, by simp [Machine.steps, hm], hlt, hu, h⟩
    | failed e m₁ =>
      rw [hm] at h
      exact ⟨1, .error e m₁, u, by simp [Machine.steps, hm], hlt, hu, h⟩

theorem interpretToken {w : String} (h : Pass (.token w) m t (.ended e?) y) (ht : .ask ∉ t) :
    ∃ fuel r u, interpretToken fuel w m = some r ∧ u.length < t.length ∧ .ask ∉ u ∧
      Pass (Stage.onward (fun _ => .check) r).1 (Stage.onward (fun _ => .check) r).2 u (.ended e?) y := by
  obtain ⟨u, hlt, hu, h⟩ := h.next (s := .work _) ht rfl
  cases hw : m.wordToRun? w with
  | some x =>
    rw [hw] at h
    obtain ⟨fuel, r, v, hr, hlt', hv, h⟩ := h.steps hu
    refine ⟨fuel, r, v, ?_, Nat.lt_trans hlt' hlt, hv, h⟩
    rw [interpretToken_eq, hw]
    exact hr
  | none =>
    rw [hw] at h
    refine ⟨0, compileToken w m, u, ?_, hlt, hu, h⟩
    rw [interpretToken_eq, hw]

theorem interpret (h : Pass .check m t (.ended e?) y) (ht : .ask ∉ t) :
    ∃ fuel, ∀ n, m.line.rest.length ≤ n →
      (interpret fuel (n + 1) m).map closeLine = some (ending e? y) := by
  induction hk : t.length using Nat.strongRecOn generalizing m t with
  | ind k ih =>
    subst hk
    cases hi : m.interrupt with
    | true =>
      obtain ⟨u, -, hu, h⟩ := h.next ht (act_check_interrupted hi)
      refine ⟨0, fun n _ => ?_⟩
      rw [interpret_succ, nextSourceToken_interrupted hi]
      exact congrArg some (closed (r := .error .interrupted { m with interrupt := false }) h hu)
    | false =>
      obtain ⟨u, hlt, hu, h⟩ := h.next ht (act_check_quiet hi)
      obtain ⟨v, hlt', hv, h⟩ := h.next (s := .work _) hu rfl
      rw [← nextSourceToken_eq_readToken hi] at h
      rcases hs : nextSourceToken m with ⟨_ | w, m₁⟩ | ⟨e, m₁⟩
      · rw [hs] at h
        refine ⟨0, fun n _ => ?_⟩
        rw [interpret_succ, hs]
        exact congrArg some (closed (r := .ok () m₁) h hv)
      · have hltn := nextSourceToken_lt hs
        rw [hs] at h
        have h : Pass (.token w) m₁ v (.ended e?) y := h
        obtain ⟨fuel, r, w', hr, hlt'', hw', h⟩ := h.interpretToken hv
        cases r with
        | error e m₂ =>
          refine ⟨fuel, fun n _ => ?_⟩
          rw [interpret_succ, hs]
          simp only [hr]
          exact congrArg some (closed (r := .error e m₂) h hw')
        | ok _ m₂ =>
          -- The token is at least one character of the line, so that one less is enough for the rest.
          have h : Pass .check m₂ w' (.ended e?) y := h
          have hle := (interpretToken_reads hr).short
          rw [after_ok] at hle
          obtain ⟨fuel', hrest⟩ := ih _ (Nat.lt_trans hlt'' (Nat.lt_trans hlt' hlt)) h hw' rfl
          refine ⟨max fuel fuel', fun n hn => ?_⟩
          obtain ⟨n, rfl⟩ : ∃ k, n = k + 1 := ⟨n - 1, by omega⟩
          obtain ⟨q, hq, hend⟩ := Option.map_eq_some_iff.1 (hrest n (by omega))
          rw [interpret_succ, hs]
          simp only [interpretToken_mono hr (Nat.le_max_left fuel fuel'),
            interpret_mono hq (Nat.le_max_right fuel fuel')]
          exact congrArg some hend
      · rw [hs] at h
        refine ⟨0, fun n _ => ?_⟩
        rw [interpret_succ, hs]
        exact congrArg some (closed (r := .error e m₁) h hv)

end Pass

theorem rest_length_le (m : Machine) : m.line.rest.length ≤ m.line.text.length := by
  simp [Line.rest]

theorem ending_injective {e e' : Option Error} {x y : Machine} (h : ending e x = ending e' y) :
    e = e' ∧ x = y := by
  cases e <;> cases e' <;> cases h <;> exact ⟨rfl, rfl⟩

/-- **If nobody asks, a line does what its actions do**, and it ends if they do. -/
theorem processLine_iff_alone : (∃ fuel, processLine fuel m = some (ending e? y)) ↔
    Alone .check m (.ended e?) y := by
  constructor
  · rintro ⟨fuel, h⟩
    rw [processLine_eq] at h
    obtain ⟨q, hq, hr⟩ := Option.map_eq_some_iff.1 h
    obtain ⟨o, x, hend, ha⟩ := closeLine_alone q
    obtain ⟨rfl, rfl⟩ := ending_injective (hend.symm.trans hr)
    have hle := m.rest_length_le
    exact (interpret_alone hq (by omega)).trans ha
  · rintro ⟨t, ht, h⟩
    obtain ⟨fuel, hrest⟩ := h.interpret ht
    exact ⟨fuel, (processLine_eq fuel m).trans (hrest _ (Nat.le_succ_of_le m.rest_length_le))⟩

end Machine
end ThreadedForth
