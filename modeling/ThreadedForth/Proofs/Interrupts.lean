/-
  Interrupts: no request is lost, and none is answered twice.
-/
import ThreadedForth.Proofs.LineActions
import ThreadedForth.Proofs.Ownership
import ThreadedForth.Proofs.Uninterrupted

namespace ThreadedForth

variable {α : Type}

/-! ## Signals -/

namespace Signal

/-- Whether an interrupt is asked for. -/
def asks : Signal → Bool
  | ask => true
  | work a => a
  | _ => false

/-- Whether the machine looks for a request. -/
def looks : Signal → Bool
  | look _ | swallowed => true
  | _ => false

/-- Whether a request is open after a signal: looking for it ends it. -/
def flag (up : Bool) (s : Signal) : Bool :=
  s.asks || (up && !s.looks)

theorem flag_look (up found : Bool) : flag up (look found) = false := by
  simp [flag, asks, looks]

/-- Whether a request is open after some signals. -/
def flagAfter (up : Bool) (t : List Signal) : Bool :=
  t.foldl flag up

/-- Whether a request is open at the end of a line that has been given up. -/
theorem flagAfter_ended {up : Bool} {t : List Signal} (h : ∀ s ∈ t, s = ask ∨ s = finish) :
    flagAfter up t = true ↔ up = true ∨ ask ∈ t := by
  induction t generalizing up with
  | nil => simp [flagAfter]
  | cons s t ih =>
    have ih : flagAfter (flag up s) t = true ↔ flag up s = true ∨ ask ∈ t :=
      ih fun x hx => h x (List.mem_cons_of_mem s hx)
    show flagAfter (flag up s) t = true ↔ _
    rw [ih]
    rcases h s List.mem_cons_self with rfl | rfl <;> simp [flag, asks, looks]

/-- The signals of a line that finds a request.  It does so once, and then only ends. -/
def FoundOnce (t : List Signal) : Prop :=
  ∃ u v, t = u ++ look true :: v ∧ look true ∉ u ∧ ∀ s ∈ v, s = ask ∨ s = finish

theorem FoundOnce.cons {s : Signal} {t : List Signal} (h : FoundOnce t) (hs : s ≠ look true) :
    FoundOnce (s :: t) := by
  obtain ⟨u, v, rfl, hu, hv⟩ := h
  exact ⟨s :: u, v, rfl, List.not_mem_cons_of_ne_of_not_mem hs.symm hu, hv⟩

theorem FoundOnce.count_eq_one {t : List Signal} (h : FoundOnce t) : t.count (look true) = 1 := by
  obtain ⟨u, v, rfl, hu, hv⟩ := h
  have hv' : look true ∉ v := fun hf => by simpa using hv _ hf
  rw [List.count_append, List.count_cons_self, List.count_eq_zero_of_not_mem hu,
    List.count_eq_zero_of_not_mem hv']

/-- The groups of requests in some signals.  Requests without a look between them are one group,
    and those that come while a request is open belong to it. -/
def groups : Bool → List Signal → Nat
  | _, [] => 0
  | up, s :: t => (s.asks && !up).toNat + groups (flag up s) t

theorem groups_append (up : Bool) (t u : List Signal) :
    groups up (t ++ u) = groups up t + groups (flagAfter up t) u := by
  induction t generalizing up with
  | nil => simp [groups, flagAfter]
  | cons s t ih =>
    rw [List.cons_append, groups, groups, ih, Nat.add_assoc]
    rfl

end Signal

/-- The error that a line is given up with. -/
def Stage.error? : Stage → Option Error
  | giveUp e => some e
  | ended e? => e?
  | _ => none

namespace Machine

variable {m m₁ m₂ y : Machine} {st st₁ st₂ : Stage} {s : Signal} {t u : List Signal}
  {e? : Option Error}

/-! ## Work keeps requests -/

/-- A computation that does not use the interrupt leaves it as it is. -/
theorem after_interrupt_of_uses {K : Parts} {act : M α} (h : UsesOnly K act)
    (hK : K.interrupt = false) (m : Machine) : (after (act m)).interrupt = m.interrupt := by
  have hs := congrArg interrupt (h.surroundings_eq m)
  simp only [amid, hK, cond_false] at hs
  exact hs.symm

theorem settle_interrupt (r : EStateM.Result Error Machine Flow) :
    (settle r).machine.interrupt = (after r).interrupt := by
  rw [← settle_surroundings r]
  rfl

theorem fail_interrupt (e : Error) (m : Machine) : (m.fail e).machine.interrupt = m.interrupt :=
  settle_interrupt (.error e m)

/-- No other primitive uses the interrupt. -/
theorem interrupt_uses {p : Primitive} (hp : p ≠ .host .interrupt) : p.uses.interrupt = false := by
  unfold Primitive.uses
  split <;> first | rfl | exact absurd rfl hp

/-- A primitive leaves a request open. -/
theorem run_interrupt (p : Primitive) (hm : m.interrupt = true) :
    (after (p.run m)).interrupt = true := by
  by_cases hp : p = .host .interrupt
  · subst hp
    rfl
  · rw [after_interrupt_of_uses (p.run_usesOnly (.refl _)) (interrupt_uses hp), hm]

theorem readToken_uses : UsesOnly { line := true } readToken := by
  refine .get (fun _ _ => rfl) fun m => .ite ?_ (M.nextToken_uses rfl)
  refine (skipComment_uses rfl).bind fun _ => .get (fun _ _ => rfl) fun m => ?_
  exact .ite (.pure _) (M.nextToken_uses rfl)

theorem readToken_calm : Uninterrupted readToken := by
  refine .get fun m => .ite ?_ M.nextToken_calm
  exact (Uninterrupted.modify _).bind fun _ => .get fun m => .ite (.pure _) M.nextToken_calm

/-! ## What work leads to -/

/-- Work that leaves a request open, and fails for another reason if it fails. -/
structure Works (m : Machine) (next : Stage × Machine) : Prop where
  keeps : m.interrupt = true → next.2.interrupt = true
  calm : next.1.error? ≠ some .interrupted

/-- An error that is no interruption does not become one on its way out. -/
theorem unwind_calm {e : Error} (he : e ≠ .interrupted) (m : Machine) (rs : List Run) :
    (unwind e m rs).stage.error? ≠ some .interrupted := by
  induction rs generalizing e m with
  | nil => simpa [unwind, Progress.stage, Stage.error?] using he
  | cons r rs ih =>
    rw [unwind]
    cases r.pending with
    | outside => simpa [Progress.stage, Stage.error?] using he
    | handler | run => exact ih he _
    | attempt =>
      dsimp only
      cases hp : M.pushNew (.text e.message) { m.truncateFrames r.base with runs := rs } with
      | ok _ m₁ => simp [Progress.stage, Stage.error?]
      | error e₁ m₁ =>
        refine ih ?_ m₁
        rintro rfl
        exact M.pushNew_calm _ _ _ hp

namespace Works

variable {x : Machine}

theorem fail {e : Error} (he : e ≠ .interrupted) (hx : x.interrupt = m.interrupt) :
    m.Works ((x.fail e).stage, (x.fail e).machine) where
  keeps hm := (fail_interrupt e x).trans (hx.trans hm)
  calm := unwind_calm he x x.runs

theorem settle {act : M Flow} (hact : Uninterrupted act)
    (hk : m.interrupt = true → (after (act x)).interrupt = true) :
    m.Works ((settle (act x)).stage, (settle (act x)).machine) where
  keeps hm := (settle_interrupt _).trans (hk hm)
  calm := by
    cases hr : act x with
    | ok flow y => simp [Machine.settle, Progress.stage, Stage.error?]
    | error e y =>
      refine unwind_calm ?_ y y.runs
      rintro rfl
      exact hact _ _ hr

theorem onward {act : M α} {next : α → Stage} (hact : Uninterrupted act)
    (hk : (after (act m)).interrupt = m.interrupt) (hnext : ∀ a, (next a).error? = none) :
    m.Works (Stage.onward next (act m)) where
  keeps hm := by
    rw [Stage.onward_machine]
    exact hk.trans hm
  calm := by
    cases hr : act m with
    | ok a y => simp [Stage.onward, hnext]
    | error e y =>
      have he : e ≠ .interrupted := by
        rintro rfl
        exact hact _ _ hr
      simpa [Stage.onward, Stage.error?] using he

end Works

theorem readToken_works (m : Machine) :
    m.Works (Stage.onward (fun t? => t?.elim .close .token) (readToken m)) := by
  refine .onward readToken_calm (after_interrupt_of_uses readToken_uses rfl m) fun t? => ?_
  cases t? <;> rfl

theorem takeToken_works (t : String) (m : Machine) : m.Works (takeToken t m) := by
  unfold takeToken
  cases m.wordToRun? t with
  | some w => exact ⟨id, by simp [Stage.error?]⟩
  | none =>
    have hk := after_interrupt_of_uses (compileToken_uses (K := { calls := true }) rfl t) rfl m
    exact .onward (compileToken_calm t) hk fun _ => rfl

/-- The end of a run. -/
theorem step_works (hd : m.isDue = false) : m.Works (m.step.stage, m.step.machine) := by
  rcases step_of_not_due hd with h | ⟨r, rs, -, h | h⟩
  · rw [h]
    exact ⟨id, by simp [Progress.stage, Stage.error?]⟩
  · rw [h]
    exact ⟨id, by simp [Progress.stage, Stage.error?]⟩
  · rw [h]
    refine .settle (resume_calm _) fun hm => ?_
    exact (after_interrupt_of_uses (K := {}) (resume_uses _) rfl { m with runs := rs }).trans hm

theorem stepElement_works (f : Frame) (rest : List Frame) :
    m.Works ((m.stepElement f rest).stage, (m.stepElement f rest).machine) := by
  rw [stepElement_eq]
  cases (m.heap.word f.word).body[f.ip]? with
  | none => exact ⟨id, by simp [Progress.stage, Stage.error?]⟩
  | some e =>
    cases e with
    | call callee | recurse => exact ⟨id, by simp [Progress.stage, Stage.error?]⟩
    | direct | lit => exact .fail (Error.ne_interrupted rfl) rfl

/-- The work of a frame. -/
theorem stepTop_works (m : Machine) : m.Works (m.stepTop.stage, m.stepTop.machine) := by
  unfold stepTop
  cases m.frames with
  | nil => exact .fail (Error.ne_interrupted rfl) rfl
  | cons f rest =>
    dsimp only
    rw [stepFrame]
    cases hc : (m.heap.word f.word).code with
    | error e =>
      refine .fail ?_ rfl
      rintro rfl
      exact Word.code_calm _ hc
    | ok c =>
      cases c with
      | docol => exact stepElement_works f rest
      | native p => exact .settle p.run_calm (run_interrupt p)
      | indirect body entry =>
        have hk := after_interrupt_of_uses (K := {}) (M.push_uses (.ptr (m.heap.pointer f.word 1)))
          rfl m
        dsimp only
        cases hp : M.push (.ptr (m.heap.pointer f.word 1)) m with
        | ok _ y =>
          rw [hp] at hk
          exact ⟨hk.trans, by simp [Progress.stage, Stage.error?]⟩
        | error e y =>
          rw [hp] at hk
          refine .fail ?_ hk
          rintro rfl
          exact M.push_calm _ _ _ hp

/-- A prompt that does not fit is no interruption. -/
theorem endLine_eq (m : Machine) : ∃ e? m₁, m.endLine = (.ended e?, m₁) ∧
    e? ≠ some .interrupted ∧ m₁.interrupt = m.interrupt := by
  have hp := after_interrupt_of_uses (M.put_uses (K := { output := true }) rfl m.prompt) rfl m
  unfold endLine
  cases hput : M.put m.prompt m with
  | ok _ m₁ =>
    rw [hput] at hp
    exact ⟨none, m₁, rfl, (Option.some_ne_none _).symm, hp⟩
  | error e m₁ =>
    rw [hput] at hp
    refine ⟨some e, m₁, rfl, fun he => ?_, hp⟩
    cases he
    exact M.put_calm _ _ _ hput

/-- An interrupt in a word gives the line up, unless a host word swallows the error. -/
theorem fail_of_not_swallows (e : Error) (hw : m.swallows = false) : ∃ x, m.fail e = .failed e x := by
  refine unwind_uncaught fun r hr hp => ?_
  have hs : m.swallows = true := List.any_eq_true.2 ⟨r, hr, by simp [hp]⟩
  rw [hw] at hs
  cases hs

/-! ## What an action does -/

/-- What an action does, as far as requests are concerned. -/
inductive Deed (m : Machine) (st : Stage) (m₁ : Machine) : Signal → Stage → Prop
  /-- It looks, and nobody has asked. -/
  | quiet {st₁ : Stage} (hi : m.interrupt = false) (hm : m₁.interrupt = false)
    (he : st.error? = none) (he₁ : st₁.error? = none) : Deed m st m₁ (.look false) st₁
  /-- It looks and finds a request, and the line is given up. -/
  | found (hi : m.interrupt = true) (hm : m₁.interrupt = false) (he : st.error? = none) :
    Deed m st m₁ (.look true) (.giveUp .interrupted)
  /-- It looks and finds a request, but a host word swallows the error. -/
  | swallowed {st₁ : Stage} (hi : m.interrupt = true) (hm : m₁.interrupt = false)
    (he : st.error? = none) : Deed m st m₁ .swallowed st₁
  /-- It works, and fails for another reason if it fails. -/
  | work {st₁ : Stage} (hm : m.interrupt = true → m₁.interrupt = true) (he : st.error? = none)
    (he₁ : st₁.error? ≠ some .interrupted) :
    Deed m st m₁ (.work (!m.interrupt && m₁.interrupt)) st₁
  /-- It ends the line. -/
  | finish {e? : Option Error} (hm : m₁.interrupt = m.interrupt)
    (he : e? = some .interrupted ↔ st.error? = some .interrupted)
    (hr : st.error? = some .interrupted → m₁.giveUpLine = m₁) : Deed m st m₁ .finish (.ended e?)

theorem Works.deed {next : Stage × Machine} (hw : m.Works next) (he : st.error? = none)
    (ha : some (m.worked next) = some (s, st₁, m₁)) : Deed m st m₁ s st₁ := by
  obtain ⟨a, x⟩ := next
  cases ha
  exact .work hw.keeps he hw.calm

/-- **What an action does is one of these.** -/
theorem act_deed (ha : m.act st = some (s, st₁, m₁)) : Deed m st m₁ s st₁ := by
  cases st with
  | check =>
    cases hi : m.interrupt with
    | true =>
      cases (act_check_interrupted hi).symm.trans ha
      exact .found hi rfl rfl
    | false =>
      cases (act_check_quiet hi).symm.trans ha
      exact .quiet hi hi rfl rfl
  | read => exact m.readToken_works.deed rfl ha
  | token t => exact (takeToken_works t m).deed rfl ha
  | word =>
    cases hd : m.isDue with
    | false => exact (step_works hd).deed rfl ((act_word_of_not_due hd).symm.trans ha)
    | true =>
      cases hi : m.interrupt with
      | false =>
        cases (act_word_quiet hd hi).symm.trans ha
        exact .quiet hi hi rfl rfl
      | true =>
        have hk := fail_interrupt .interrupted { m with interrupt := false }
        rw [act_word_interrupted hd hi, step_of_due_interrupted hd hi] at ha
        cases hw : m.swallows with
        | true =>
          rw [if_pos hw] at ha
          cases ha
          exact .swallowed hi hk rfl
        | false =>
          obtain ⟨x, hx⟩ := fail_of_not_swallows (m := { m with interrupt := false }) .interrupted hw
          rw [if_neg (by simp [hw]), hx] at ha
          rw [hx] at hk
          cases ha
          exact .found hi hk rfl
  | frame => exact m.stepTop_works.deed rfl ha
  | close =>
    obtain ⟨e?, x, hx, he, hk⟩ := m.endLine_eq
    dsimp only [act] at ha
    rw [hx] at ha
    cases ha
    exact .finish hk (by simp [Stage.error?, he]) (by simp [Stage.error?])
  | giveUp e =>
    cases ha
    exact .finish rfl Iff.rfl fun _ => rfl
  | ended e? => cases ha

/-- **An action leaves the flag as its signal says.** -/
theorem act_flag (ha : m.act st = some (s, st₁, m₁)) :
    m₁.interrupt = Signal.flag m.interrupt s := by
  cases act_deed ha with
  | quiet hi hm | found hi hm | swallowed hi hm => simp [Signal.flag, Signal.asks, Signal.looks, hm]
  | work hm =>
    cases hi : m.interrupt with
    | true => simp [Signal.flag, Signal.asks, Signal.looks, hm hi]
    | false => simp [Signal.flag, Signal.asks, Signal.looks]
  | finish hm => simp [Signal.flag, Signal.asks, Signal.looks, hm]

/-- A group of requests that comes up in an action is found or stays open. -/
theorem act_account (ha : m.act st = some (s, st₁, m₁)) (hs : s ≠ .swallowed) :
    (if s = .look true then 1 else 0) + m₁.interrupt.toNat =
      m.interrupt.toNat + (s.asks && !m.interrupt).toNat := by
  cases act_deed ha with
  | quiet hi hm | found hi hm => simp [Signal.asks, hi, hm]
  | swallowed => exact absurd rfl hs
  | work hm =>
    cases hi : m.interrupt with
    | true => simp [Signal.asks, hm hi]
    | false => simp [Signal.asks]
  | finish hm => simp [Signal.asks, hm]

/-- An action that finds no request leaves every one open. -/
theorem act_kept (ha : m.act st = some (s, st₁, m₁)) (hf : s ≠ .look true) (hs : s ≠ .swallowed) :
    m₁.interrupt = (m.interrupt || s.asks) := by
  cases act_deed ha with
  | quiet hi hm => simp [Signal.asks, hi, hm]
  | found => exact absurd rfl hf
  | swallowed => exact absurd rfl hs
  | work hm =>
    cases hi : m.interrupt with
    | true => simp [hm hi]
    | false => simp [Signal.asks]
  | finish hm => simp [Signal.asks, hm]

/-! ## What becomes of requests -/

namespace Pass

/-- The flag after some actions is up if somebody has asked since the last look. -/
theorem flag (h : Pass st m t st₁ m₁) : m₁.interrupt = Signal.flagAfter m.interrupt t := by
  induction h with
  | refl => rfl
  | ask _ ih =>
    rw [ih]
    rfl
  | act ha _ ih =>
    rw [ih, act_flag ha]
    rfl

/-- **Each group of requests is found once, or is still open.** -/
theorem account (h : Pass st m t st₁ m₁) (ht : .swallowed ∉ t) :
    t.count (.look true) + m₁.interrupt.toNat =
      m.interrupt.toNat + Signal.groups m.interrupt t := by
  induction h with
  | refl => simp [Signal.groups]
  | @ask st st' m m' t _ ih =>
    have ih := ih (List.not_mem_of_not_mem_cons ht)
    have hg : Signal.groups m.interrupt (.ask :: t) = (!m.interrupt).toNat + Signal.groups true t := rfl
    rw [List.count_cons_of_ne (by simp), ih, hg]
    cases m.interrupt <;> simp
  | @act st st₁ st' m m₁ m' s t ha _ ih =>
    have ih := ih (List.not_mem_of_not_mem_cons ht)
    have hs := act_account ha (Ne.symm (List.ne_of_not_mem_cons ht))
    have hg : Signal.groups m.interrupt (s :: t) =
        (s.asks && !m.interrupt).toNat + Signal.groups m₁.interrupt t := by rw [act_flag ha]; rfl
    simp only [List.count_cons, beq_iff_eq]
    omega

/-- While a request is open, the next look finds it. -/
theorem no_look (h : Pass st m t st₁ m₁) (hi : m.interrupt = true) (hf : .look true ∉ t)
    (ht : .swallowed ∉ t) : ∀ s ∈ t, s.looks = false := by
  induction h with
  | refl => simp
  | ask _ ih =>
    refine List.forall_mem_cons.2 ⟨rfl, ?_⟩
    exact ih rfl (List.not_mem_of_not_mem_cons hf) (List.not_mem_of_not_mem_cons ht)
  | act ha _ ih =>
    have hrest := fun h₁ => ih h₁ (List.not_mem_of_not_mem_cons hf) (List.not_mem_of_not_mem_cons ht)
    cases act_deed ha with
    | quiet hq => exact absurd (hq.symm.trans hi) Bool.false_ne_true
    | found => exact absurd List.mem_cons_self hf
    | swallowed => exact absurd List.mem_cons_self ht
    | work hm => exact List.forall_mem_cons.2 ⟨rfl, hrest (hm hi)⟩
    | finish hm => exact List.forall_mem_cons.2 ⟨rfl, hrest (hm.trans hi)⟩

/-- What is not found stays open. -/
theorem kept (h : Pass st m t st₁ m₁) (hf : .look true ∉ t) (ht : .swallowed ∉ t) :
    m₁.interrupt = (m.interrupt || t.any Signal.asks) := by
  induction h with
  | refl => simp
  | ask _ ih =>
    rw [ih (List.not_mem_of_not_mem_cons hf) (List.not_mem_of_not_mem_cons ht)]
    simp [Signal.asks]
  | act ha _ ih =>
    rw [ih (List.not_mem_of_not_mem_cons hf) (List.not_mem_of_not_mem_cons ht), List.any_cons,
      act_kept ha (Ne.symm (List.ne_of_not_mem_cons hf)) (Ne.symm (List.ne_of_not_mem_cons ht)),
      Bool.or_assoc]

/-- After an interruption there is nothing left to do but to end the line. -/
theorem given_up (h : Pass st m t (.ended e?) y) (he : st.error? = some .interrupted)
    (hr : ∀ o, st = .ended o → m.giveUpLine = m) :
    (∀ s ∈ t, s = .ask ∨ s = .finish) ∧ e? = some .interrupted ∧ y.giveUpLine = y := by
  generalize ho : Stage.ended e? = st' at h
  induction h with
  | refl =>
    subst ho
    exact ⟨by simp, he, hr e? rfl⟩
  | @ask _ _ m _ _ _ ih =>
    -- The reset does not touch the flag.
    have hask : ∀ x : Machine, x.giveUpLine = x →
        ({ x with interrupt := true } : Machine).giveUpLine = { x with interrupt := true } :=
      fun x hx => congrArg (fun x : Machine => { x with interrupt := true }) hx
    obtain ⟨ht, hres⟩ := ih he (fun o h => hask m (hr o h)) ho
    exact ⟨List.forall_mem_cons.2 ⟨.inl rfl, ht⟩, hres⟩
  | act ha _ ih =>
    cases act_deed ha with
    | quiet _ _ hn | found _ _ hn | swallowed _ _ hn | work _ hn => cases hn.symm.trans he
    | finish _ hn hreset =>
      obtain ⟨ht, hres⟩ := ih (hn.2 he) (fun _ _ => hreset he) ho
      exact ⟨List.forall_mem_cons.2 ⟨.inr rfl, ht⟩, hres⟩

/-- **A line is interrupted if and only if it finds a request**, and then it ends. -/
theorem outcome (h : Pass st m t (.ended e?) y) (he : st.error? ≠ some .interrupted)
    (ht : .swallowed ∉ t) :
    (.look true ∉ t ∧ e? ≠ some .interrupted) ∨
      (Signal.FoundOnce t ∧ e? = some .interrupted ∧ y.giveUpLine = y) := by
  generalize ho : Stage.ended e? = st' at h
  induction h with
  | refl =>
    subst ho
    exact .inl ⟨List.not_mem_nil, he⟩
  | ask _ ih =>
    rcases ih he (List.not_mem_of_not_mem_cons ht) ho with ⟨hf, hne⟩ | ⟨hf, hres⟩
    · exact .inl ⟨List.not_mem_cons_of_ne_of_not_mem (by simp) hf, hne⟩
    · exact .inr ⟨hf.cons (by simp), hres⟩
  | @act _ st₁ _ _ _ m' s t ha h ih =>
    -- An action that finds nothing leaves the question to the actions after it.
    have hlater (hs : s ≠ .look true) (hn : st₁.error? ≠ some .interrupted) :
        (.look true ∉ s :: t ∧ e? ≠ some .interrupted) ∨
          (Signal.FoundOnce (s :: t) ∧ e? = some .interrupted ∧ m'.giveUpLine = m') := by
      rcases ih hn (List.not_mem_of_not_mem_cons ht) ho with ⟨hf, hne⟩ | ⟨hf, hres⟩
      · exact .inl ⟨List.not_mem_cons_of_ne_of_not_mem hs.symm hf, hne⟩
      · exact .inr ⟨hf.cons hs, hres⟩
    cases act_deed ha with
    | quiet _ _ _ hn => exact hlater (by simp) (by simp [hn])
    | found =>
      subst ho
      obtain ⟨hend, hres⟩ := h.given_up rfl (by simp)
      exact .inr ⟨⟨[], t, rfl, List.not_mem_nil, hend⟩, hres⟩
    | swallowed => exact absurd List.mem_cons_self ht
    | work _ _ hn => exact hlater (by simp) hn
    | finish _ hn => exact hlater (by simp) (mt hn.1 he)

end Pass

/-- A line that begins with an open request does no work. -/
theorem Pass.of_open (h : Pass .check m t (.ended e?) y) (hi : m.interrupt = true) :
    e? = some .interrupted ∧ ∀ a, .work a ∉ t := by
  generalize hst : Stage.check = st, ho : Stage.ended e? = st' at h
  induction h with
  | refl =>
    subst hst
    cases ho
  | ask _ ih =>
    obtain ⟨he, ht⟩ := ih rfl hst ho
    exact ⟨he, fun a => List.not_mem_cons_of_ne_of_not_mem (by simp) (ht a)⟩
  | act ha h =>
    subst hst ho
    rw [act_check_interrupted hi] at ha
    cases ha
    obtain ⟨hend, he, -⟩ := h.given_up rfl (by simp)
    refine ⟨he, fun a hw => ?_⟩
    rcases List.mem_cons.1 hw with hw | hw
    · cases hw
    · simpa using hend _ hw

theorem processLine_interrupted (hi : m.interrupt = true) (fuel : Nat) :
    processLine fuel m = some (.error .interrupted ({ m with interrupt := false } : Machine).giveUpLine) := by
  rw [processLine_eq, interpret_succ, nextSourceToken_interrupted hi]
  rfl

/-! ## Line after line -/

/-- Lines one after the other, with requests between them: what they signal, and the errors that
    they end with.  Between two lines the host does to the machine what it likes, but a request
    that is open stays open, and only somebody who asks makes one. -/
inductive Lines : Machine → List Signal → List (Option Error) → Machine → Prop
  | refl (m : Machine) : Lines m [] [] m
  | ask {m y : Machine} {t : List Signal} {es : List (Option Error)}
    (h : Lines { m with interrupt := true } t es y) : Lines m (.ask :: t) es y
  | host {m x y : Machine} {t : List Signal} {es : List (Option Error)}
    (hx : x.interrupt = m.interrupt) (h : Lines x t es y) : Lines m t es y
  | line {m x y : Machine} {t u : List Signal} {e? : Option Error} {es : List (Option Error)}
    (hp : Pass .check m t (.ended e?) x) (h : Lines x u es y) : Lines m (t ++ u) (e? :: es) y

/-- A line is interrupted as often as it finds a request. -/
theorem Pass.count_found (h : Pass .check m t (.ended e?) y) (ht : .swallowed ∉ t) :
    t.count (.look true) = if e? = some .interrupted then 1 else 0 := by
  rcases h.outcome (by simp [Stage.error?]) ht with ⟨hf, he⟩ | ⟨hf, he, -⟩
  · rw [if_neg he, List.count_eq_zero_of_not_mem hf]
  · rw [if_pos he, hf.count_eq_one]

/-- **Each group of requests interrupts one line, or is still open.** -/
theorem Lines.account {es : List (Option Error)} (h : Lines m t es y) (ht : .swallowed ∉ t) :
    es.count (some .interrupted) + y.interrupt.toNat =
      m.interrupt.toNat + Signal.groups m.interrupt t := by
  induction h with
  | refl => simp [Signal.groups]
  | @ask m y t es _ ih =>
    have ih := ih (List.not_mem_of_not_mem_cons ht)
    have hg : Signal.groups m.interrupt (.ask :: t) = (!m.interrupt).toNat + Signal.groups true t := rfl
    rw [ih, hg]
    cases m.interrupt <;> simp
  | host hx _ ih =>
    rw [← hx]
    exact ih ht
  | @line m x y t u e? es hp _ ih =>
    have hp' := hp.account (mt (List.mem_append_left u) ht)
    have hc := hp.count_found (mt (List.mem_append_left u) ht)
    have ih := ih (mt (List.mem_append_right t) ht)
    rw [Signal.groups_append, ← hp.flag]
    simp only [List.count_cons, beq_iff_eq]
    omega

/-- **Requests are neither lost nor answered twice.** -/
theorem interrupts_answered_once (m : Machine) :
    (∀ e? y, (∃ fuel, processLine fuel m = some (ending e? y)) ↔
      ∃ t, .ask ∉ t ∧ Pass .check m t (.ended e?) y) ∧
    (∀ t e? y, Pass .check m t (.ended e?) y → .swallowed ∉ t →
      (∀ u v, t = u ++ v → (m.interrupt = true ∨ ∃ s ∈ u, s.asks = true) →
        (∃ s ∈ v, s.looks = true) → e? = some .interrupted) ∧
      (e? = some .interrupted → ∃ u v, t = u ++ .look true :: v ∧ .look true ∉ u ∧
        (∀ s ∈ v, s = .ask ∨ s = .finish) ∧ (y.interrupt = true ↔ .ask ∈ v) ∧ y.giveUpLine = y) ∧
      (e? ≠ some .interrupted → y.interrupt = (m.interrupt || t.any Signal.asks))) ∧
    (m.interrupt = true →
      (∀ fuel, processLine fuel m =
        some (.error .interrupted ({ m with interrupt := false } : Machine).giveUpLine)) ∧
      ∀ t e? y, Pass .check m t (.ended e?) y → e? = some .interrupted ∧ ∀ a, .work a ∉ t) ∧
    (∀ t es y, Lines m t es y → .swallowed ∉ t →
      es.count (some .interrupted) + y.interrupt.toNat =
        m.interrupt.toNat + Signal.groups m.interrupt t) := by
  refine ⟨fun e? y => processLine_iff_alone, fun t e? y h ht => ⟨?_, ?_, ?_⟩, fun hi => ?_,
    fun t es y h => h.account⟩
  · rintro u v rfl hasked ⟨s, hs, hlooks⟩
    rcases h.outcome (by simp [Stage.error?]) ht with ⟨hf, -⟩ | ⟨-, he, -⟩
    · -- Nothing found the request, so that it was still open at the later look.
      obtain ⟨st₁, x, hu, hv⟩ := h.split
      have hx : x.interrupt = true := by
        rw [hu.kept (mt (List.mem_append_left v) hf) (mt (List.mem_append_left v) ht)]
        simpa using hasked
      have hno := hv.no_look hx (mt (List.mem_append_right u) hf) (mt (List.mem_append_right u) ht) s hs
      cases hno.symm.trans hlooks
    · exact he
  · intro he
    rcases h.outcome (by simp [Stage.error?]) ht with ⟨-, hne⟩ | ⟨⟨u, v, rfl, hu, hv⟩, -, hr⟩
    · exact absurd he hne
    · have hflag : y.interrupt = Signal.flagAfter false v := by
        have hfold := h.flag
        rwa [Signal.flagAfter, List.foldl_append, List.foldl_cons, Signal.flag_look] at hfold
      refine ⟨u, v, rfl, hu, hv, ?_, hr⟩
      rw [hflag, Signal.flagAfter_ended hv]
      simp
  · intro hne
    rcases h.outcome (by simp [Stage.error?]) ht with ⟨hf, -⟩ | ⟨-, he, -⟩
    · exact h.kept hf ht
    · exact absurd he hne
  · exact ⟨processLine_interrupted hi, fun t e? y h => h.of_open hi⟩

/-- A request that comes after the last look of a line interrupts the next line, and only that. -/
theorem interrupts_answered_once_of_late_request : ∃ y,
    Lines (empty {}) [.look false, .ask, .work false, .finish, .look true, .finish]
      [none, some .interrupted] y ∧
    [none, some .interrupted].count (some Error.interrupted) + y.interrupt.toNat = 1 := by
  obtain ⟨x, hx⟩ : ∃ x,
      Pass .check (empty {}) [.look false, .ask, .work false, .finish] (.ended none) x :=
    ⟨_, .act (act_check_quiet rfl) (.ask (.act rfl (.act rfl (.refl _ _))))⟩
  have hn : Pass .check x [.look true, .finish] (.ended (some .interrupted)) _ :=
    .act (act_check_interrupted hx.flag) (.act rfl (.refl _ _))
  have hl := Lines.line hx (.line hn (.refl _))
  exact ⟨_, hl, (interrupts_answered_once (empty {})).2.2.2 _ _ _ hl (by decide)⟩

end Machine
end ThreadedForth
