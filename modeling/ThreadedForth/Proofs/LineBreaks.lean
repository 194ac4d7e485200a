/-
  Lines broken in two at a blank.
-/
import ThreadedForth.Proofs.Alignment

namespace ThreadedForth

variable {T : List Char} {o q : String}

namespace Machine

/-! ## What a line passes through -/

/-- What the line of a machine passes through, from its first token to the machine after it. -/
inductive Visits (m : Machine) : Phase → Machine → Prop
  | start : Visits m (.line (m.line.text.length + 2)) m
  | next {ph : Phase} {z : Machine} (h : Visits m ph z) : Visits m (move ph z).1 (move ph z).2

/-- A line that needs nothing after it: it never runs the word that skips the rest of the line, and
    it fails as soon as a word that reads ahead finds nothing left to read. -/
structure SelfContained (m : Machine) : Prop where
  never : ∀ left? z, m.Visits (.word left?) z → z.primitive? ≠ some (.defining .lineComment)
  fails : ∀ left? z, m.Visits (.word left?) z → z.Lacks → ∃ e z', z.step = .failed e z'

variable {m J A x y z : Machine}

namespace Visits

variable {n : Nat} {t : String}

theorem running {left? : Option Nat} {z' : Machine} (h : m.Visits (.word left?) z)
    (hs : z.step = .running z') : m.Visits (.word left?) z' := by
  simpa only [move, hs] using h.next

theorem goes {z' : Machine} {left? : Option Nat} {k : Nat} (h : m.Visits (.word left?) z)
    (hg : Goes k z z') : m.Visits (.word left?) z' := by
  induction hg with
  | refl => exact h
  | step hs _ ih => exact ih (h.running hs)

theorem ended {z' : Machine} (h : m.Visits (.word (some n)) z) (hs : z.step = .ended z') :
    m.Visits (.line n) z' := by
  simpa only [move, hs, Phase.afterWord] using h.next

theorem failed {z' : Machine} {e : Error} (h : m.Visits (.word (some n)) z)
    (hs : z.step = .failed e z') : m.Visits .rest z'.giveUpLine := by
  simpa only [move, hs, Option.isSome_some, if_true] using h.next

theorem token {z' : Machine} {w : WordId} (h : m.Visits (.line (n + 1)) z)
    (ht : nextSourceToken z = .ok (some t) z') (hw : z'.wordToRun? t = some w) :
    m.Visits (.word (some n)) (z'.startRun w .outside) := by
  simpa only [move, ht, hw] using h.next

theorem compile {z' z'' : Machine} (h : m.Visits (.line (n + 1)) z)
    (ht : nextSourceToken z = .ok (some t) z') (hw : z'.wordToRun? t = none)
    (hc : compileToken t z' = .ok () z'') : m.Visits (.line n) z'' := by
  simpa only [move, ht, hw, hc] using h.next

theorem badToken {z' z'' : Machine} {e : Error} (h : m.Visits (.line (n + 1)) z)
    (ht : nextSourceToken z = .ok (some t) z') (hw : z'.wordToRun? t = none)
    (hc : compileToken t z' = .error e z'') : m.Visits .rest z''.giveUpLine := by
  simpa only [move, ht, hw, hc] using h.next

theorem finish {z' : Machine} (h : m.Visits (.line (n + 1)) z)
    (ht : nextSourceToken z = .ok none z') : m.Visits .rest (after (M.put z'.prompt z')) := by
  simpa only [move, ht] using h.next

theorem steps_ok {fuel : Nat} {z' : Machine} (h : m.Visits (.word (some n)) z)
    (hr : steps fuel z = some (.ok () z')) : m.Visits (.line n) z' := by
  induction fuel generalizing z with
  | zero => cases hr
  | succ fuel ih =>
    unfold steps at hr
    cases hs : z.step with
    | running z₁ =>
      rw [hs] at hr
      exact ih (h.running hs) hr
    | ended z₁ =>
      rw [hs] at hr
      cases hr
      exact h.ended hs
    | failed e z₁ =>
      rw [hs] at hr
      cases hr

/-- A whole token, whether it is run or compiled. -/
theorem token_ok {fuel : Nat} {z' z'' : Machine} (h : m.Visits (.line (n + 1)) z)
    (ht : nextSourceToken z = .ok (some t) z')
    (hr : interpretToken fuel t z' = some (.ok () z'')) : m.Visits (.line n) z'' := by
  rw [interpretToken_eq] at hr
  cases hw : z'.wordToRun? t with
  | some w =>
    rw [hw] at hr
    exact (h.token ht hw).steps_ok hr
  | none =>
    rw [hw] at hr
    exact h.compile ht hw (Option.some.inj hr)

/-- The output has room for a text after a step, as it has at the next moment. -/
theorem step_room (h : m.Visits (.word (some n)) z)
    (hroom : ∀ ph z, m.Visits ph z → z.output.Room q) : z.step.machine.output.Room q := by
  cases hs : z.step with
  | running z' => exact hroom _ _ (h.running hs)
  | ended z' => exact hroom _ _ (h.ended hs)
  | failed e z' =>
    have hr := hroom _ _ (h.failed hs)
    exact hr

end Visits

/-! ## Words -/

/-- Two computations that may not end came to the same, on aligned machines. -/
def AlignedOutcomes (T : List Char) (o q : String) :
    Option (EStateM.Result Error Machine Unit) → Option (EStateM.Result Error Machine Unit) → Prop
  | some rx, some ry => AlignedResults T o q rx ry
  | none, none => True
  | _, _ => False

theorem AlignedOutcomes.split {rx? ry? : Option (EStateM.Result Error Machine Unit)}
    (h : AlignedOutcomes T o q rx? ry?) : (rx? = none ∧ ry? = none) ∨
      (∃ x y, rx? = some (.ok () x) ∧ ry? = some (.ok () y) ∧ Aligned T o q x y) ∨
      ∃ e x y, rx? = some (.error e x) ∧ ry? = some (.error e y) ∧ Aligned T o q x y := by
  cases rx? with
  | none =>
    cases ry? with
    | none => exact .inl ⟨rfl, rfl⟩
    | some ry => exact h.elim
  | some rx =>
    cases ry? with
    | none => exact h.elim
    | some ry =>
      rcases AlignedResults.split h with ⟨_, x, y, rfl, rfl, hxy⟩ | ⟨e, x, y, rfl, rfl, hxy⟩
      · exact .inr (.inl ⟨x, y, rfl, rfl, hxy⟩)
      · exact .inr (.inr ⟨e, x, y, rfl, rfl, hxy⟩)

theorem steps_reads {fuel : Nat} {r : EStateM.Result Error Machine Unit} (h : steps fuel m = some r) :
    m.ReadsTo (after r) := by
  induction fuel generalizing m with
  | zero => cases h
  | succ fuel ih =>
    have hs := m.step_reads
    unfold steps at h
    cases hstep : m.step with
    | running m₁ =>
      rw [hstep] at hs h
      exact hs.trans (ih h)
    | ended m₁ =>
      rw [hstep] at hs h
      cases h
      exact hs
    | failed e m₁ =>
      rw [hstep] at hs h
      cases h
      exact hs

/-- **A word on aligned machines comes to the same**, or the shorter line ends inside it. -/
theorem steps_aligned (hT : Line.Apart T) (hroom : ∀ ph z, J.Visits ph z → z.output.Room q)
    (hA : T ≠ [] → A.SelfContained) {fuel n i : Nat} (h : Aligned T o q x y)
    (hx : J.Visits (.word (some n)) x) (hy : T ≠ [] → A.Visits (.word (some i)) y) :
    AlignedOutcomes T o q (steps fuel x) (steps fuel y) ∨
      T ≠ [] ∧ ∀ y', steps fuel y = some (.ok () y') → y'.Stuck := by
  induction fuel generalizing x y with
  | zero => exact .inl trivial
  | succ fuel ih =>
    have hnever : T = [] ∨ y.primitive? ≠ some (.defining .lineComment) := by
      by_cases hne : T = []
      · exact .inl hne
      · exact .inr ((hA hne).never _ _ (hy hne))
    unfold steps
    rcases step_aligned hT h (hx.step_room hroom) hnever with hstep | ⟨hne, hlost⟩
    · rcases hstep.split with ⟨x₁, y₁, hsx, hsy, h₁⟩ | ⟨x₁, y₁, hsx, hsy, h₁⟩ |
        ⟨e, x₁, y₁, hsx, hsy, h₁⟩
      · rw [hsx, hsy]
        exact ih h₁ (hx.running hsx) fun hne => (hy hne).running hsy
      · rw [hsx, hsy]
        exact .inl ⟨rfl, h₁⟩
      · rw [hsx, hsy]
        exact .inl ⟨rfl, h₁⟩
    · refine .inr ⟨hne, fun y' hrun => ?_⟩
      rcases hlost with hlacks | hst
      · obtain ⟨e, z, hfail⟩ := (hA hne).fails _ _ (hy hne) hlacks
        rw [hfail] at hrun
        cases hrun
      · cases hsy : y.step with
        | running y₁ =>
          rw [hsy] at hrun hst
          exact (steps_reads hrun).stuck hst
        | ended y₁ =>
          rw [hsy] at hrun hst
          cases hrun
          exact hst
        | failed e y₁ =>
          rw [hsy] at hrun
          cases hrun

/-! ## Tokens -/

theorem wordToRun?_aligned (h : Aligned T o q x y) (t : String) : y.wordToRun? t = x.wordToRun? t := by
  rw [h.same]
  rfl

theorem Aligned.startRun (h : Aligned T o q x y) (w : WordId) (pending : Pending) :
    Aligned T o q (x.startRun w pending) (y.startRun w pending) where
  same := by
    rw [h.same]
    rfl
  line := h.line
  output := h.output

theorem interpretToken_reads {fuel : Nat} {t : String} {r : EStateM.Result Error Machine Unit}
    (h : interpretToken fuel t m = some r) : m.ReadsTo (after r) := by
  rw [interpretToken_eq] at h
  cases hw : m.wordToRun? t with
  | some w =>
    rw [hw] at h
    exact (ReadsTo.of_eq rfl rfl rfl : m.ReadsTo (m.startRun w .outside)).trans (steps_reads h)
  | none =>
    rw [hw] at h
    cases h
    exact ReadsOn.of_uses (compileToken_uses rfl t) m

/-- **A token on aligned machines comes to the same**, or the shorter line ends inside it. -/
theorem interpretToken_aligned (hT : Line.Apart T) (hroom : ∀ ph z, J.Visits ph z → z.output.Room q)
    (hA : T ≠ [] → A.SelfContained) {fuel n i : Nat} {t : String} {x₀ y₀ : Machine}
    (h : Aligned T o q x y) (hx : J.Visits (.line (n + 1)) x₀)
    (htx : nextSourceToken x₀ = .ok (some t) x) (hy : T ≠ [] → A.Visits (.line (i + 1)) y₀)
    (hty : nextSourceToken y₀ = .ok (some t) y) :
    AlignedOutcomes T o q (interpretToken fuel t x) (interpretToken fuel t y) ∨
      T ≠ [] ∧ ∀ y', interpretToken fuel t y = some (.ok () y') → y'.Stuck := by
  have hsame := wordToRun?_aligned h t
  rw [interpretToken_eq, interpretToken_eq, hsame]
  cases hw : x.wordToRun? t with
  | some w =>
    exact steps_aligned hT hroom hA (h.startRun w .outside) (hx.token htx hw) fun hne =>
      (hy hne).token hty (hsame.trans hw)
  | none =>
    have htrack : Aligning T o q (compileToken t) := .of_uses (compileToken_uses rfl t)
    have hr : (after (compileToken t x)).output.Room q := by
      cases hc : compileToken t x with
      | ok _ z => exact hroom _ _ (hx.compile htx hw hc)
      | error e z =>
        have hr := hroom _ _ (hx.badToken htx hw hc)
        exact hr
    rcases htrack.aligned x y h hr with hres | ⟨hne, hmiss⟩
    · exact .inl hres
    · refine .inr ⟨hne, fun y' hrun => ?_⟩
      have hrun : compileToken t y = .ok () y' := Option.some.inj hrun
      rw [hrun] at hmiss
      exact hmiss.elim

theorem nextSourceToken_interrupted (hq : m.interrupt = true) :
    nextSourceToken m = .error .interrupted { m with interrupt := false } := by
  have hi : checkInterrupt m = .error .interrupted { m with interrupt := false } := by
    rw [checkInterrupt_eq, hq]
    rfl
  rw [nextSourceToken, M.bind_error hi]

theorem nextSourceToken_comment (hq : m.interrupt = false) (hc : m.inComment = true) :
    nextSourceToken m = if m.skipComment.inComment then .ok none m.skipComment
      else M.nextToken m.skipComment := by
  have hi : checkInterrupt m = .ok () m := by
    rw [checkInterrupt_eq, hq]
    rfl
  rw [nextSourceToken, M.bind_ok hi]
  show (if m.inComment = true then _ else _ : M (Option String)) m = _
  rw [hc]
  show (if m.skipComment.inComment = true then _ else _ : M (Option String)) m.skipComment = _
  split <;> rfl

theorem nextSourceToken_reads (m : Machine) : m.ReadsTo (after (nextSourceToken m)) := by
  cases hq : m.interrupt with
  | true =>
    rw [nextSourceToken_interrupted hq]
    exact .of_eq rfl rfl rfl
  | false =>
    cases hc : m.inComment with
    | false =>
      rw [nextSourceToken_quiet hq hc]
      exact M.nextToken_reads m
    | true =>
      have hskip : m.ReadsTo m.skipComment := skipComment_reads m
      rw [nextSourceToken_comment hq hc]
      split
      · exact hskip
      · exact hskip.trans (M.nextToken_reads _)

theorem nextSourceToken_lt {t : String} {m₁ : Machine} (h : nextSourceToken m = .ok (some t) m₁) :
    m₁.line.rest.length < m.line.rest.length := by
  have hnext : ∀ {z : Machine}, M.nextToken z = .ok (some t) m₁ →
      m₁.line.rest.length < z.line.rest.length := by
    intro z hz
    unfold M.nextToken at hz
    obtain ⟨ht, rfl⟩ := EStateM.Result.ok.inj hz
    exact Line.rest_advance_lt ht
  cases hq : m.interrupt with
  | true =>
    rw [nextSourceToken_interrupted hq] at h
    cases h
  | false =>
    cases hc : m.inComment with
    | false =>
      rw [nextSourceToken_quiet hq hc] at h
      exact hnext h
    | true =>
      have hskip : m.ReadsTo m.skipComment := skipComment_reads m
      rw [nextSourceToken_comment hq hc] at h
      split at h
      · cases h
      · exact Nat.lt_of_lt_of_le (hnext h) hskip.short

/-- The next token on aligned machines, unless the shorter line has ended. -/
theorem nextSourceToken_aligned (hT : Line.Apart T) (h : Aligned T o q x y) :
    AlignedResults T o q (nextSourceToken x) (nextSourceToken y) ∨
      T ≠ [] ∧ ∃ y', nextSourceToken y = .ok none y' := by
  have hsq : y.interrupt = x.interrupt := by rw [h.same]
  have hsc : y.inComment = x.inComment := by rw [h.same]
  cases hq : x.interrupt with
  | true =>
    rw [nextSourceToken_interrupted hq, nextSourceToken_interrupted (hsq.trans hq)]
    exact .inl ⟨rfl, by rw [h.same], h.line, h.output⟩
  | false =>
    cases hc : x.inComment with
    | false =>
      have hx : nextSourceToken x = M.nextToken x := nextSourceToken_quiet hq hc
      have hy : nextSourceToken y = M.nextToken y :=
        nextSourceToken_quiet (hsq.trans hq) (hsc.trans hc)
      rw [hx, hy]
      exact (M.nextToken_aligned hT h).imp_right fun ⟨hne, hy⟩ => ⟨hne, _, hy⟩
    | true =>
      rw [nextSourceToken_comment hq hc, nextSourceToken_comment (hsq.trans hq) (hsc.trans hc)]
      rcases h.skipComment hT with hxy | ⟨hne, hst⟩
      · have hss : y.skipComment.inComment = x.skipComment.inComment := by rw [hxy.same]
        rw [hss]
        split
        · exact .inl ⟨rfl, hxy⟩
        · exact (M.nextToken_aligned hT hxy).imp_right fun ⟨hne, hy⟩ => ⟨hne, _, hy⟩
      · rw [hst.comment]
        exact .inr ⟨hne, _, rfl⟩

/-! ## Lines -/

theorem Stuck.interpret {fuel n : Nat} {m' : Machine} (hm : m.Stuck)
    (h : interpret fuel n m = some (.ok () m')) : m'.Stuck := by
  cases n with
  | zero =>
    cases h
    exact hm
  | succ n =>
    rw [interpret_succ] at h
    cases hq : m.interrupt with
    | true =>
      rw [nextSourceToken_interrupted hq] at h
      cases h
    | false =>
      have hst : m.skipComment.Stuck := (skipComment_reads m).stuck hm
      rw [nextSourceToken_comment hq hm.comment, hst.comment] at h
      cases h
      exact hst

theorem interpret_reads {fuel n : Nat} {r : EStateM.Result Error Machine Unit}
    (h : interpret fuel n m = some r) : m.ReadsTo (after r) := by
  induction n generalizing m with
  | zero =>
    cases h
    exact .of_eq rfl rfl rfl
  | succ n ih =>
    have hnext := nextSourceToken_reads m
    rw [interpret_succ] at h
    rcases ht : nextSourceToken m with ⟨_ | t, m₁⟩ | ⟨e, m₁⟩
    · rw [ht] at h hnext
      cases h
      exact hnext
    · rw [ht] at h hnext
      simp only at h
      cases hrun : interpretToken fuel t m₁ with
      | none =>
        rw [hrun] at h
        cases h
      | some r₂ =>
        have htoken := hnext.trans (interpretToken_reads hrun)
        rw [hrun] at h
        cases r₂ with
        | ok _ m₂ => exact htoken.trans (ih h)
        | error e m₂ =>
          cases h
          exact htoken
    · rw [ht] at h hnext
      cases h
      exact hnext

/-- While a line is processed that needs nothing after it, a longer line gets to where the shorter
    one ends. -/
theorem interpret_reaches (hT : Line.Apart T) (hroom : ∀ ph z, J.Visits ph z → z.output.Room q)
    (hA : A.SelfContained) {fuel n i : Nat} {y' : Machine} (h : Aligned T o q x y)
    (hx : J.Visits (.line n) x) (hy : A.Visits (.line i) y) (hn : x.line.rest.length < n)
    (hi : y.line.rest.length < i) (hrun : interpret fuel i y = some (.ok () y'))
    (hc : y'.inComment = false) :
    ∃ k x₀ y₀, interpret fuel n x = interpret fuel (k + 1) x₀ ∧ J.Visits (.line (k + 1)) x₀ ∧
      x₀.line.rest.length ≤ k ∧ Aligned T o q x₀ y₀ ∧ nextSourceToken y₀ = .ok none y' := by
  induction i generalizing n x y with
  | zero => omega
  | succ i ih =>
    obtain ⟨n, rfl⟩ : ∃ k, n = k + 1 := ⟨n - 1, by omega⟩
    rw [interpret_succ] at hrun
    rcases hty : nextSourceToken y with ⟨_ | t, y₁⟩ | ⟨e, y₁⟩
    · rw [hty] at hrun
      cases hrun
      exact ⟨n, x, y, rfl, hx, by omega, h, hty⟩
    · have hlty := nextSourceToken_lt hty
      have htok := nextSourceToken_aligned hT h
      rw [hty] at hrun htok
      simp only at hrun
      rcases htok with hres | ⟨_, z, hz⟩
      · rcases hres.split with ⟨_, x₁, _, htx, heq, h₁⟩ | ⟨_, _, _, _, heq, _⟩
        · cases heq
          have hltx := nextSourceToken_lt htx
          have hword : AlignedOutcomes T o q (interpretToken fuel t x₁) (interpretToken fuel t y₁) ∨ _ :=
            interpretToken_aligned hT hroom (fun _ => hA) h₁ hx htx (fun _ => hy) hty
          rw [interpret_succ, htx]
          simp only
          rcases hword with hout | ⟨_, hst⟩
          · rcases hout.split with ⟨_, hry⟩ | ⟨x₂, y₂, hrx, hry, h₂⟩ | ⟨e, x₂, y₂, _, hry, _⟩
            · rw [hry] at hrun
              cases hrun
            · have hshortx : x₂.line.rest.length ≤ x₁.line.rest.length := (interpretToken_reads hrx).short
              have hshorty : y₂.line.rest.length ≤ y₁.line.rest.length := (interpretToken_reads hry).short
              rw [hry] at hrun
              rw [hrx]
              exact ih h₂ (hx.token_ok htx hrx) (hy.token_ok hty hry) (by omega) (by omega) hrun
            · rw [hry] at hrun
              cases hrun
          · -- The shorter line has ended inside a comment, and the comment stays open.
            exfalso
            cases hry : interpretToken fuel t y₁ with
            | none =>
              rw [hry] at hrun
              cases hrun
            | some ry =>
              rw [hry] at hrun
              cases ry with
              | error e y₂ => cases hrun
              | ok _ y₂ =>
                have hend := ((hst y₂ hry).interpret hrun).comment
                rw [hc] at hend
                cases hend
        · cases heq
      · cases hz
    · rw [hty] at hrun
      cases hrun

theorem apart_nil : Line.Apart [] := nofun

theorem Aligned.giveUpLine (h : Aligned [] o q x y) : Aligned [] o q x.giveUpLine y.giveUpLine where
  same := by
    rw [h.same]
    rfl
  line := by
    show x.line.skip.rest = y.line.skip.rest ++ []
    rw [Line.rest_skip, Line.rest_skip]
    rfl
  output := h.output

theorem closeLine_ok (h : Aligned [] o q x y)
    (hr : (after (closeLine (.ok () x))).output.Room q) :
    AlignedResults [] o q (closeLine (.ok () x)) (closeLine (.ok () y)) := by
  have hp : y.prompt = x.prompt := by
    rw [h.same]
    rfl
  show AlignedResults [] o q (M.put x.prompt x) (M.put y.prompt y)
  rw [hp]
  exact ((M.put_aligning x.prompt).aligned x y h hr).resolve_right fun hne => hne.1 rfl

theorem closeLine_error (h : Aligned [] o q x y) (e : Error) :
    AlignedResults [] o q (closeLine (.error e x)) (closeLine (.error e y)) :=
  ⟨rfl, h.giveUpLine⟩

/-- **Lines on aligned machines come to the same**, if they have the same left to read. -/
theorem interpret_aligned (hroom : ∀ ph z, J.Visits ph z → z.output.Room q) {fuel n i : Nat}
    (h : AlignedResults [] o q (nextSourceToken x) (nextSourceToken y)) (hx : J.Visits (.line n) x)
    (hn : x.line.rest.length < n) (hi : y.line.rest.length < i) :
    AlignedOutcomes [] o q ((interpret fuel n x).map closeLine)
      ((interpret fuel i y).map closeLine) := by
  induction n generalizing x y i with
  | zero => omega
  | succ n ih =>
    obtain ⟨i, rfl⟩ : ∃ k, i = k + 1 := ⟨i - 1, by omega⟩
    rw [interpret_succ, interpret_succ]
    rcases h.split with ⟨t?, x₁, y₁, htx, hty, h₁⟩ | ⟨e, x₁, y₁, htx, hty, h₁⟩
    · rw [htx, hty]
      cases t? with
      | none =>
        exact closeLine_ok h₁ (hroom _ _ (hx.finish htx))
      | some t =>
        have hltx := nextSourceToken_lt htx
        have hlty := nextSourceToken_lt hty
        have hword : AlignedOutcomes [] o q (interpretToken fuel t x₁) (interpretToken fuel t y₁) ∨ _ :=
          interpretToken_aligned (A := J) (i := i) apart_nil hroom (absurd rfl) h₁ hx htx (absurd rfl) hty
        simp only
        rcases (hword.resolve_right fun hne => hne.1 rfl).split with ⟨hrx, hry⟩ | ⟨x₂, y₂, hrx, hry, h₂⟩ |
          ⟨e, x₂, y₂, hrx, hry, h₂⟩
        · rw [hrx, hry]
          trivial
        · have hshortx : x₂.line.rest.length ≤ x₁.line.rest.length := (interpretToken_reads hrx).short
          have hshorty : y₂.line.rest.length ≤ y₁.line.rest.length := (interpretToken_reads hry).short
          have hnext := (nextSourceToken_aligned apart_nil h₂).resolve_right fun hne => hne.1 rfl
          rw [hrx, hry]
          exact ih hnext (hx.token_ok htx hrx) (by omega) (by omega)
        · rw [hrx, hry]
          exact closeLine_error h₂ e
    · rw [htx, hty]
      exact closeLine_error h₁ e

/-! ## Lines in two parts -/

/-- When the shorter line has ended, what the longer one goes on with is a line of its own. -/
theorem nextSourceToken_broken {b : List Char} {x₀ y₀ second : Machine}
    (h : Aligned (' ' :: b) o "" x₀ y₀) (hy : nextSourceToken y₀ = .ok none y)
    (hc : y.inComment = false) (hs : second = { y with line := second.line, output := second.output })
    (hl : second.line.rest = b) (ho : x₀.output.Noted x₀.output.text q second.output) :
    AlignedResults [] x₀.output.text q (nextSourceToken x₀) (nextSourceToken second) := by
  have hT : Line.Apart (' ' :: b) := by
    rintro c ⟨⟩
    rfl
  have hsq : y₀.interrupt = x₀.interrupt := by rw [h.same]
  have hsc : y₀.inComment = x₀.inComment := by rw [h.same]
  -- Where the comment has ended, if there is one.
  obtain ⟨x₁, y₁, h₁, hx, hy₁, hout, hq₁, hc₁⟩ : ∃ x₁ y₁, Aligned (' ' :: b) o "" x₁ y₁ ∧
      nextSourceToken x₀ = M.nextToken x₁ ∧ M.nextToken y₁ = .ok none y ∧ x₁.output = x₀.output ∧
      y₁.interrupt = false ∧ y₁.inComment = false := by
    cases hq : y₀.interrupt with
    | true =>
      rw [nextSourceToken_interrupted hq] at hy
      cases hy
    | false =>
      cases hcy : y₀.inComment with
      | false =>
        rw [nextSourceToken_quiet hq hcy] at hy
        exact ⟨x₀, y₀, h, nextSourceToken_quiet (hsq.symm.trans hq) (hsc.symm.trans hcy), hy, rfl, hq, hcy⟩
      | true =>
        rw [nextSourceToken_comment hq hcy] at hy
        cases hcs : y₀.skipComment.inComment with
        | true =>
          rw [hcs] at hy
          cases hy
          rw [hcs] at hc
          cases hc
        | false =>
          rw [hcs] at hy
          rcases h.skipComment hT with hxy | ⟨_, hst⟩
          · have hcx : x₀.skipComment.inComment = false := by
              rw [hxy.same] at hcs
              exact hcs
            refine ⟨_, _, hxy, ?_, hy, rfl, hq, hcs⟩
            rw [nextSourceToken_comment (hsq.symm.trans hq) (hsc.symm.trans hcy), hcx]
            rfl
          · rw [hst.comment] at hcs
            cases hcs
  obtain ⟨htok, rfl⟩ := EStateM.Result.ok.inj hy₁
  have hblank : y₁.line.rest.dropWhile isBlank = [] := by
    rw [Line.token?_advance_of_rest] at htok
    cases hd : y₁.line.rest.dropWhile isBlank with
    | nil => rfl
    | cons c cs =>
      rw [hd] at htok
      cases htok
  have hrest : x₁.line.rest.dropWhile isBlank = second.line.rest.dropWhile isBlank := by
    rw [h₁.line, hl, List.dropWhile_append, hblank]
    rfl
  have hsecond : nextSourceToken second =
      .ok second.line.advance.token? (second.atLine second.line.advance) := by
    refine nextSourceToken_quiet ?_ ?_
    · rw [hs]
      exact hq₁
    · rw [hs]
      exact hc₁
  rw [hx, hsecond]
  refine ⟨?_, ?_, ?_, ?_⟩
  · rw [Line.token?_advance_of_rest, Line.token?_advance_of_rest, hrest]
  · have hsame := h₁.same
    show second.atLine _ = _
    rw [hs, hsame]
    rfl
  · show x₁.line.advance.rest = second.line.advance.rest ++ []
    rw [Line.rest_advance, Line.rest_advance, hrest, List.append_nil]
  · exact hout ▸ ho

end Machine

namespace Machine

variable {m x y : Machine}

theorem fill_of_fits {s : String} (hs : s.utf8ByteSize ≤ m.line.capacity)
    (ha : s.toList.all isAscii = true) : fill s m = .ok () (m.atLine (m.line.filled s.toList)) := by
  unfold fill
  rw [Line.fill_of_fits hs ha]
  rfl

/-- A joined line has room for its parts. -/
theorem fits_of_join {a b : String} (h : fill (a ++ " " ++ b) m = .ok () x) :
    (a.utf8ByteSize ≤ m.line.capacity ∧ a.toList.all isAscii = true) ∧
      b.utf8ByteSize ≤ m.line.capacity ∧ b.toList.all isAscii = true := by
  unfold fill at h
  split at h
  · rename_i hl
    obtain ⟨hs, ha⟩ := Line.of_fill_ok hl
    simp only [String.utf8ByteSize_append] at hs
    simp only [String.toList_append, List.all_append, Bool.and_eq_true] at ha
    exact ⟨⟨by omega, ha.1.1⟩, by omega, ha.2⟩
  · cases h

theorem join_eq {a b : String} (h : fill (a ++ " " ++ b) m = .ok () x) :
    x = m.atLine (m.line.filled (a.toList ++ ' ' :: b.toList)) := by
  unfold fill Line.fill at h
  split at h
  · rename_i hl
    split at hl
    · cases hl
    · split at hl
      · cases hl
      · cases hl
        cases h
        simp [atLine, Line.filled, String.toList_append]
  · cases h

/-- A line that succeeds has written its prompt. -/
theorem of_closeLine_ok {r : EStateM.Result Error Machine Unit} (h : closeLine r = .ok () y) :
    ∃ z, r = .ok () z ∧
      y = { z with output := { z.output with text := z.output.text ++ z.prompt } } := by
  cases r with
  | error e z => cases h
  | ok _ z =>
    have h : M.put z.prompt z = .ok () y := h
    refine ⟨z, rfl, ?_⟩
    unfold M.put at h
    cases hp : z.output.push z.prompt with
    | error e =>
      rw [hp] at h
      cases h
    | ok p =>
      obtain ⟨rfl, -⟩ := Output.push_eq_ok hp
      rw [hp] at h
      cases h
      rfl

theorem output_of_nextSourceToken {t? : Option String} (h : nextSourceToken x = .ok t? y) :
    y.output = x.output := by
  have hs := (nextSourceToken_uses (K := { line := true, interrupt := true }) rfl rfl).surroundings_eq x
  rw [h] at hs
  exact (congrArg Machine.output hs).symm

theorem runLine_of_fill {s : String} (h : fill s m = .ok () x) (fuel : Nat) :
    runLine fuel s m = (interpret fuel (x.line.text.length + 2) x).map closeLine := by
  rw [← processLine_eq]
  simp only [runLine, Runner.andThen, Runner.ofM, h]

/-- **A line may be broken at a blank.**  The line that joins two others and the second of them,
    after the first, come to the same: both go on forever, both succeed, or both fail with the same
    error; and then the machines differ only in the line and in the prompt after the first line.
    Both come from one machine, so the objects that they make have the same addresses. -/
theorem runLine_broken {a b : String} {fuel : Nat} (hfit : fill (a ++ " " ++ b) m = .ok () x)
    (hrun : runLine fuel a m = some (.ok () y)) (hself : (after (fill a m)).SelfContained)
    (hc : y.inComment = false) (hroom : ∀ ph z, x.Visits ph z → z.output.Room y.prompt) :
    ∃ o, y.output.text = o ++ y.prompt ∧
      AlignedOutcomes [] o y.prompt (runLine fuel (a ++ " " ++ b) m) (runLine fuel b y) := by
  obtain ⟨⟨hsa, haa⟩, hsb, hab⟩ := fits_of_join hfit
  have hx := join_eq hfit
  have hfirst := fill_of_fits (m := m) hsa haa
  rw [runLine_of_fill hfirst] at hrun
  obtain ⟨r, hr, hclose⟩ := Option.map_eq_some_iff.1 hrun
  obtain ⟨z, rfl, hy⟩ := of_closeLine_ok hclose
  have hprompt : y.prompt = z.prompt := by
    rw [hy]
    rfl
  have hcz : z.inComment = false := by
    rw [hy] at hc
    exact hc
  -- The joined line up to where the first line ends.
  have hstart : Aligned (' ' :: b.toList) "" "" x (m.atLine (m.line.filled a.toList)) := by
    rw [hx]
    exact ⟨rfl, rfl, rfl, m.output.text, by simp [atLine], by simp [atLine]⟩
  have hT : Line.Apart (' ' :: b.toList) := by
    rintro c ⟨⟩
    rfl
  have hroom₀ : ∀ ph z, x.Visits ph z → z.output.Room "" := fun ph z hz =>
    Nat.le_trans (Nat.add_le_add_left (Nat.zero_le _) _) (hroom ph z hz)
  rw [hfirst] at hself
  obtain ⟨k, x₀, y₀, hreach, hpass, hk, h₀, hend⟩ := interpret_reaches hT hroom₀ hself hstart .start .start
    (Nat.lt_succ_of_le (Nat.le_succ_of_le x.line.rest_le_text))
    (Nat.lt_succ_of_le (Nat.le_succ_of_le (Line.rest_le_text _))) hr hcz
  have htext : z.output.text = x₀.output.text := by
    obtain ⟨t, ht, ht'⟩ := h₀.output.text
    rw [output_of_nextSourceToken hend, ht, ht']
    simp
  have hcapacity : y.line.capacity = m.line.capacity := by
    rw [hy]
    exact (interpret_reads hr).width
  refine ⟨x₀.output.text, by rw [hprompt, hy, htext], ?_⟩
  -- The rest of the joined line, and the second line.
  have hsecond := fill_of_fits (m := y) (hcapacity.symm ▸ hsb) hab
  rw [runLine_of_fill hfit, runLine_of_fill hsecond, hreach]
  refine interpret_aligned hroom ?_ hpass (Nat.lt_succ_of_le hk)
    (Nat.lt_succ_of_le (Nat.le_succ_of_le (Line.rest_le_text _)))
  refine nextSourceToken_broken h₀ hend hcz ?_ rfl ⟨?_, "", by simp, ?_⟩
  · rw [hy]
    rfl
  · rw [hy]
    show z.output.capacity = _
    rw [output_of_nextSourceToken hend]
    exact h₀.output.capacity
  · rw [hprompt, hy]
    show z.output.text ++ z.prompt = _
    rw [htext]
    simp

/-! ### Lines in the middle of a definition, and lines that cannot be broken -/

/-- A check of everything that a line passes through, if it ends within some moves. -/
def allVisits (P : Phase → Machine → Bool) : Nat → Phase → Machine → Bool
  | 0, _, _ => false
  | _ + 1, .rest, m => P .rest m
  | k + 1, ph, m => P ph m && allVisits P k (move ph m).1 (move ph m).2

theorem Visits.of_all {P : Phase → Machine → Bool} {k : Nat}
    (h : allVisits P k (.line (m.line.text.length + 2)) m = true) {ph : Phase} {z : Machine}
    (hz : m.Visits ph z) : P ph z = true := by
  suffices hk : ∃ k, allVisits P k ph z = true by
    obtain ⟨k, hk⟩ := hk
    cases k with
    | zero => cases hk
    | succ k =>
      cases ph with
      | rest => exact hk
      | line | word => exact (Bool.and_eq_true_iff.1 hk).1
  induction hz with
  | start => exact ⟨k, h⟩
  | @next ph z _ ih =>
    obtain ⟨k, hk⟩ := ih
    cases k with
    | zero => cases hk
    | succ k =>
      cases ph with
      | rest => exact ⟨k + 1, hk⟩
      | line | word => exact ⟨k, (Bool.and_eq_true_iff.1 hk).2⟩

/-- Whether the next step neither skips the rest of the line nor finds nothing left to read. -/
def keepsReading (_ : Phase) (m : Machine) : Bool :=
  m.primitive? != some (.defining .lineComment) && !m.Lacks

theorem SelfContained.of_check {k : Nat}
    (h : allVisits keepsReading k (.line (m.line.text.length + 2)) m = true) : m.SelfContained where
  never left? z hz hp := by
    have hk := hz.of_all h
    simp [keepsReading, hp] at hk
  fails left? z hz hlacks := by
    have hk := hz.of_all h
    simp [keepsReading, hlacks] at hk

/-- The machine after a line that succeeds within some steps. -/
def ranTo (fuel : Nat) (text : String) (m : Machine) : Option Machine :=
  match runLine fuel text m with
  | some (.ok _ m) => some m
  | _ => none

theorem runLine_of_ranTo {fuel : Nat} {text : String} (h : ranTo fuel text m = some y) :
    runLine fuel text m = some (.ok () y) := by
  unfold ranTo at h
  split at h
  · cases h
    assumption
  · cases h

/-- A machine that can define words. -/
def calculator : Machine :=
  ofNames {} [":", ";", "dup", "*"]

theorem calculator_eq : calculator = stocked {} (supply
    [⟨"dup", .stack .dup, false⟩, .ofOperator .mul, ⟨":", .defining .colon, false⟩,
      ⟨";", .defining .semicolon, true⟩]) :=
  ofNames_eq _ _ (by decide) (by decide)

/-- A definition may be broken. -/
theorem runLine_broken_in_definition :
    ∃ x y, fill (": sq dup" ++ " " ++ "* ; 3 sq") calculator = .ok () x ∧
      runLine 8 ": sq dup" calculator = some (.ok () y) ∧ y.compiler.mode = .compiling ∧
      (after (fill ": sq dup" calculator)).SelfContained ∧ y.inComment = false ∧
      (∀ ph z, x.Visits ph z → z.output.Room y.prompt) ∧
      ∃ o, y.output.text = o ++ y.prompt ∧
        AlignedOutcomes [] o y.prompt (runLine 8 (": sq dup" ++ " " ++ "* ; 3 sq") calculator)
          (runLine 8 "* ; 3 sq" y) := by
  have hfit : fill (": sq dup" ++ " " ++ "* ; 3 sq") calculator =
      .ok () (after (fill (": sq dup" ++ " " ++ "* ; 3 sq") calculator)) := by
    rfl
  have hfacts : allVisits keepsReading 32 (.line (": sq dup".length + 2))
        (after (fill ": sq dup" calculator)) = true ∧
      allVisits (fun _ z => decide (z.output.Room "compiled.\n")) 64
        (.line ((": sq dup" ++ " " ++ "* ; 3 sq").length + 2))
        (after (fill (": sq dup" ++ " " ++ "* ; 3 sq") calculator)) = true ∧
      ∃ y ∈ ranTo 8 ": sq dup" calculator,
        y.compiler.mode = .compiling ∧ y.inComment = false ∧ y.prompt = "compiled.\n" := by
    rw [calculator_eq]
    decide +kernel
  obtain ⟨hreads, hwrites, y, hy, hmode, hc, hprompt⟩ := hfacts
  have hself : (after (fill ": sq dup" calculator)).SelfContained := .of_check hreads
  have hroom : ∀ ph z, (after (fill (": sq dup" ++ " " ++ "* ; 3 sq") calculator)).Visits ph z →
      z.output.Room y.prompt := by
    intro ph z hz
    rw [hprompt]
    exact of_decide_eq_true (hz.of_all hwrites)
  exact ⟨_, y, hfit, runLine_of_ranTo hy, hmode, hself, hc, hroom,
    runLine_broken hfit (runLine_of_ranTo hy) hself hc hroom⟩

/-- A machine whose host catches errors. -/
def catching : Machine :=
  (ofNames {} [":", "'"]).installAll Builtin.hostWords

theorem catching_eq : catching = (stocked {} (supply
    [⟨":", .defining .colon, false⟩, ⟨"'", .defining .tick, false⟩])).installAll Builtin.hostWords :=
  congrArg (installAll · _) (ofNames_eq _ _ (by decide) (by decide))

/-- A machine with little room for output. -/
def tight : Machine :=
  ofNames { outputBuffer := 10 } [".\""]

theorem tight_eq : tight = stocked { outputBuffer := 10 } (supply
    [⟨".\"", .defining .printString, true⟩]) :=
  ofNames_eq _ _ (by decide) (by decide)

/-- The error that a line fails with, within some steps. -/
def errorOf? (fuel : Nat) (text : String) (m : Machine) : Option Error :=
  match runLine fuel text m with
  | some (.error e _) => some e
  | _ => none

/-- Two lines that come to something else than the line that joins them, although the first succeeds
    outside of a comment and never skips the rest of a line: a host catches the error of a word that
    finds no name, or the prompt takes the room of what comes after it. -/
theorem broken_lines_differ :
    (∃ y, ranTo 16 "' : host-try" catching = some y ∧ y.inComment = false ∧
      (∀ left? z, (after (fill "' : host-try" catching)).Visits (.word left?) z →
        z.primitive? ≠ some (.defining .lineComment)) ∧
      (ranTo 16 ("' : host-try" ++ " " ++ "foo") catching).map (·.compiler.mode) = some .compiling ∧
      errorOf? 16 "foo" y = some (.unknownWord "foo")) ∧
    ∃ y, ranTo 16 "1" tight = some y ∧ y.inComment = false ∧
      (∀ left? z, (after (fill "1" tight)).Visits (.word left?) z →
        z.primitive? ≠ some (.defining .lineComment)) ∧
      errorOf? 16 ("1" ++ " " ++ ".\" 12345678\" foo") tight = some (.unknownWord "foo") ∧
      errorOf? 16 ".\" 12345678\" foo" y = some .outputFull := by
  have hnever : ∀ {m : Machine} {k : Nat},
      allVisits (fun _ z => z.primitive? != some (.defining .lineComment)) k
        (.line (m.line.text.length + 2)) m = true →
      ∀ left? z, m.Visits (.word left?) z → z.primitive? ≠ some (.defining .lineComment) := by
    intro m k hk left? z hz
    simpa using hz.of_all hk
  have hcatching : allVisits (fun _ z => z.primitive? != some (.defining .lineComment)) 32
        (.line ("' : host-try".length + 2)) (after (fill "' : host-try" catching)) = true ∧
      (ranTo 16 ("' : host-try" ++ " " ++ "foo") catching).map (·.compiler.mode) = some .compiling ∧
      ∃ y ∈ ranTo 16 "' : host-try" catching,
        y.inComment = false ∧ errorOf? 16 "foo" y = some (.unknownWord "foo") := by
    rw [catching_eq]
    decide +kernel
  have htight : allVisits (fun _ z => z.primitive? != some (.defining .lineComment)) 32
        (.line ("1".length + 2)) (after (fill "1" tight)) = true ∧
      errorOf? 16 ("1" ++ " " ++ ".\" 12345678\" foo") tight = some (.unknownWord "foo") ∧
      ∃ y ∈ ranTo 16 "1" tight,
        y.inComment = false ∧ errorOf? 16 ".\" 12345678\" foo" y = some .outputFull := by
    rw [tight_eq]
    decide +kernel
  obtain ⟨hp, hjoined, y, hy, hc, hb⟩ := hcatching
  obtain ⟨hp', hjoined', y', hy', hc', hb'⟩ := htight
  exact ⟨⟨y, hy, hc, hnever hp, hjoined, hb⟩, y', hy', hc', hnever hp', hjoined', hb'⟩

end Machine
end ThreadedForth
