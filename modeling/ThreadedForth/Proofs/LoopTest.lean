/-
  The test of counted loops, where the sum of index and step wraps around.
-/
import ThreadedForth.Proofs.CountedLoops

namespace ThreadedForth

/-! ## Crossing a limit -/

/-- Whether an index that has come to `next` has crossed the limit.  Counting down, it has to go
    below it; counting up, it only has to reach it. -/
def Crossed (down : Bool) (limit next : Int) : Prop :=
  if down then next < limit else limit ≤ next

instance (down : Bool) (limit next : Int) : Decidable (Crossed down limit next) :=
  inferInstanceAs (Decidable (if down then _ else _))

/-- An integer brought into the range of 64 bits. -/
def wrapped (n : Int) : Int :=
  n.bmod (2 ^ 64)

/-- Whether an integer is in the range of 64 bits. -/
def InRange (n : Int) : Prop :=
  Int64.minValue.toInt ≤ n ∧ n ≤ Int64.maxValue.toInt

theorem inRange_iff {n : Int} :
    InRange n ↔ -0x8000000000000000 ≤ n ∧ n < 0x8000000000000000 := by
  simp only [InRange, Int64.toInt_minValue, Int64.toInt_maxValue]
  omega

theorem inRange_toInt (n : Int64) : InRange n.toInt :=
  inRange_iff.2 ⟨n.le_toInt, n.toInt_lt⟩

theorem wrapped_of_inRange {n : Int} (h : InRange n) : wrapped n = n := by
  rw [inRange_iff] at h
  exact Int.bmod_eq_of_le (by omega) (by omega)

/-- A sum of two integers of 64 bits wraps around at most once. -/
theorem wrapped_add (a b : Int64) :
    wrapped (a.toInt + b.toInt) = a.toInt + b.toInt ∧ InRange (a.toInt + b.toInt) ∨
      wrapped (a.toInt + b.toInt) = a.toInt + b.toInt - 0x10000000000000000 ∧
        0x8000000000000000 ≤ a.toInt + b.toInt ∨
      wrapped (a.toInt + b.toInt) = a.toInt + b.toInt + 0x10000000000000000 ∧
        a.toInt + b.toInt < -0x8000000000000000 := by
  have ha := inRange_iff.1 (inRange_toInt a)
  have hb := inRange_iff.1 (inRange_toInt b)
  by_cases hlow : a.toInt + b.toInt < -0x8000000000000000
  · have hin : wrapped (a.toInt + b.toInt + 0x10000000000000000) =
        a.toInt + b.toInt + 0x10000000000000000 :=
      wrapped_of_inRange (inRange_iff.2 (by omega))
    exact .inr (.inr ⟨(Int.add_bmod_right _ (2 ^ 64)).symm.trans hin, hlow⟩)
  · by_cases hhigh : 0x8000000000000000 ≤ a.toInt + b.toInt
    · have hin : wrapped (a.toInt + b.toInt - 0x10000000000000000) =
          a.toInt + b.toInt - 0x10000000000000000 :=
        wrapped_of_inRange (inRange_iff.2 (by omega))
      exact .inr (.inl ⟨(Int.sub_bmod_right _ (2 ^ 64)).symm.trans hin, hhigh⟩)
    · have hin : InRange (a.toInt + b.toInt) := inRange_iff.2 (by omega)
      exact .inl ⟨wrapped_of_inRange hin, hin⟩

/-- Starting on the near side of the limit, a wrapped sum has crossed it exactly if the sum itself
    has, within the range. -/
theorem crossed_wrapped_iff {down : Bool} {index limit step : Int64}
    (hdown : down = true ↔ step.toInt < 0) (h : ¬ Crossed down limit.toInt index.toInt) :
    Crossed down limit.toInt (wrapped (index.toInt + step.toInt)) ↔
      Crossed down limit.toInt (index.toInt + step.toInt) ∧
        InRange (index.toInt + step.toInt) := by
  have hlimit := inRange_iff.1 (inRange_toInt limit)
  have hindex := inRange_iff.1 (inRange_toInt index)
  have hstep := inRange_iff.1 (inRange_toInt step)
  -- beyond one end of the range the wrapped sum lies on the near side of the limit again
  rcases wrapped_add index step with ⟨hw, hin⟩ | ⟨hw, hout⟩ | ⟨hw, hout⟩ <;> rw [hw]
  · simp [hin]
  all_goals
    rw [inRange_iff]
    cases down with
    | true =>
      have hneg : step.toInt < 0 := hdown.1 rfl
      simp only [Crossed, if_true] at h ⊢
      omega
    | false =>
      have hpos : ¬ step.toInt < 0 := fun hneg => Bool.false_ne_true (hdown.2 hneg)
      simp only [Crossed, Bool.false_eq_true, if_false] at h ⊢
      omega

namespace BranchWord

open Machine

variable {index limit step : Int64} {stepped : Bool}

/-- Whether a loop counts down. -/
def countsDown (stepped : Bool) (step : Int64) : Bool :=
  stepped && step < 0

theorem countsDown_iff (hone : stepped = false → step = 1) :
    countsDown stepped step = true ↔ step.toInt < 0 := by
  cases stepped with
  | true => simp [countsDown, Int64.lt_iff_toInt_lt]
  | false => simp [countsDown, hone rfl]

theorem toInt_add_eq_wrapped (index step : Int64) :
    (index + step).toInt = wrapped (index.toInt + step.toInt) :=
  Int64.toInt_add index step

theorem isOver_iff : isOver limit (index + step) step stepped = true ↔
    Crossed (countsDown stepped step) limit.toInt (wrapped (index.toInt + step.toInt)) := by
  rw [← toInt_add_eq_wrapped]
  unfold isOver Crossed countsDown
  split
  · simp [Int64.lt_iff_toInt_lt]
  · simp [Int64.le_iff_toInt_le]

/-- What a loop leaves on the data stack for its test, above `ds`: its step, unless that is one. -/
def withStep (stepped : Bool) (step : Int64) (ds : List Value) : List Value :=
  if stepped then .int step :: ds else ds

/-- The machine with what the test of a loop works on taken off the data stack, and with another
    record of the loop. -/
def afterTest (s : Machine) (ds : List Value) (record : List Int64) : Machine :=
  { s with data := { s.data with items := ds }, «return» := { s.return with items := record } }

/-- The decision at the end of a round. -/
theorem decision_advanceCount_of_step (address : Int64) {s : Machine} {exit : Int64}
    {ds : List Value} {above : List Int64} (hone : stepped = false → step = 1)
    (hd : s.data.items = withStep stepped step ds)
    (hr : s.return.items = index :: limit :: exit :: above) :
    (advanceCount stepped).decision address s =
      if Crossed (countsDown stepped step) limit.toInt (wrapped (index.toInt + step.toInt)) then
        .ok true (afterTest s ds above)
      else .ok false (afterTest s ds ((index + step) :: limit :: exit :: above)) := by
  have hstep : loopStep stepped s = .ok step { s with data := { s.data with items := ds } } := by
    cases stepped with
    | false =>
      obtain rfl := hone rfl
      obtain rfl : s.data.items = ds := hd
      rfl
    | true =>
      have hd : s.data.items = .int step :: ds := hd
      show M.popInt s = _
      simp only [M.popInt, M.pop, Stack.pop, hd, Bind.bind, EStateM.bind]
      rfl
  rw [decision, M.bind_ok hstep, finishRound_of_items (s := { s with
    data := { s.data with items := ds } }) hr step stepped]
  simp only [isOver_iff]
  rfl

/-- A machine at the test of a counted loop: the place where its rounds start is on the data stack,
    above the step, the record of the loop is on the return stack, and the word `f.word` that the
    loop stands in has the place. -/
structure AtTest (stepped : Bool) (index limit step exit entry : Int64) (ds : List Value)
    (above : List Int64) (g f : Frame) (fs : List Frame) (m : Machine) : Prop where
  data : m.data.items = .int entry :: withStep stepped step ds
  one : stepped = false → step = 1
  record : m.return.items = index :: limit :: exit :: above
  frames : m.frames = g :: f :: fs
  place : 1 ≤ entry.toInt ∧ entry.toInt ≤ (m.heap.word f.word).size

theorem jumpTo_of_place {m : Machine} {entry : Int64} {g f : Frame} {fs : List Frame}
    (hf : m.frames = g :: f :: fs)
    (hplace : 1 ≤ entry.toInt ∧ entry.toInt ≤ (m.heap.word f.word).size) :
    jumpTo entry m = .ok () { m with frames := g :: { f with ip := entry.toInt.toNat } :: fs } := by
  have hparent : M.parent m = .ok f m := by
    rw [M.parent, M.bind_ok (x := MonadState.get) rfl, hf]
    rfl
  have hget : (MonadState.get : M Machine) m = .ok m m := rfl
  rw [jumpTo, M.bind_ok hparent, M.bind_ok hget, if_pos hplace]
  rw [M.setParentIp_eq, hf]
  rfl

/-- **The test.**  The wrapped sum is compared with the limit; the loop is over, or its index is the
    wrapped sum and the calling word goes back to where the rounds start. -/
theorem act_advanceCount {m : Machine} {exit entry : Int64} {ds : List Value} {above : List Int64}
    {g f : Frame} {fs : List Frame}
    (h : AtTest stepped index limit step exit entry ds above g f fs m) :
    act (advanceCount stepped) m =
      if Crossed (countsDown stepped step) limit.toInt (wrapped (index.toInt + step.toInt)) then
        .ok () (afterTest m ds above)
      else .ok () { afterTest m ds ((index + step) :: limit :: exit :: above) with
        frames := g :: { f with ip := entry.toInt.toNat } :: fs } := by
  have hpop : M.popInt m = .ok entry
      { m with data := { m.data with items := withStep stepped step ds } } := by
    simp only [M.popInt, M.pop, Stack.pop, h.data, Bind.bind, EStateM.bind]
    rfl
  have hdec := decision_advanceCount_of_step entry (s := { m with
    data := { m.data with items := withStep stepped step ds } }) h.one rfl h.record
  rw [act_eq (b := advanceCount stepped) trivial, M.bind_ok hpop]
  split
  · rename_i hover
    rw [if_pos hover] at hdec
    rw [M.bind_ok hdec]
    rfl
  · rename_i hover
    rw [if_neg hover] at hdec
    rw [M.bind_ok hdec]
    exact jumpTo_of_place h.frames h.place

end BranchWord

/-! ## Loops with a constant step -/

open Machine BranchWord

/-- A loop whose body comes to its end in every round, with the return stack as it was and with one
    and the same step for the test.  The machines that start a round are those in `I`. -/
def Paced (k : BranchWord → WordId) (w : WordId) (p : Prog) (a : Nat) (stepped : Bool)
    (step : Int64) (I : Machine → Prop) : Prop :=
  ∀ s index record, I s → s.return.items = index :: record →
    ∃ s₁ ds, Eval k w (.prog p) a s (.next s₁) ∧ s₁.return = s.return ∧
      s₁.data.items = withStep stepped step ds ∧ s₁.data.depth < s₁.data.capacity ∧
      I (afterTest s₁ ds ((index + step) :: record))

section Paced

variable {k : BranchWord → WordId} {w : WordId} {p : Prog} {a : Nat} {stepped : Bool}
  {step limit exit : Int64} {I : Machine → Prop} {above : List Int64}

/-- The end of a round, after the body. -/
theorem choose_advanceCount {s : Machine} {index : Int64} {ds : List Value}
    (hone : stepped = false → step = 1) (hd : s.data.items = withStep stepped step ds)
    (hroom : s.data.depth < s.data.capacity)
    (hr : s.return.items = index :: limit :: exit :: above) :
    (advanceCount stepped).choose a s =
      if Crossed (countsDown stepped step) limit.toInt (wrapped (index.toInt + step.toInt)) then
        .ok true (afterTest s ds above)
      else .ok false (afterTest s ds ((index + step) :: limit :: exit :: above)) := by
  have hcheck : StackWord.ensureRoom 1 s = .ok () s := by
    show M.lift (s.data.ensureRoom 1) s = _
    rw [Stack.ensureRoom, if_neg (by omega)]
    rfl
  rw [choose, M.bind_ok hcheck]
  exact decision_advanceCount_of_step _ hone hd hr

/-- A loop is over after the round in which it crosses its limit, if no sum before has crossed it and
    all sums are in range. -/
theorem Paced.ends (hp : Paced k w p a stepped step I) (hone : stepped = false → step = 1)
    (n : Nat) {s : Machine} {index : Int64} (hs : I s)
    (hr : s.return.items = index :: limit :: exit :: above)
    (hrange : ∀ j : Nat, j ≤ n → InRange (index.toInt + (j + 1) * step.toInt))
    (hon : ∀ j : Nat, j < n →
      ¬ Crossed (countsDown stepped step) limit.toInt (index.toInt + (j + 1) * step.toInt))
    (hover : Crossed (countsDown stepped step) limit.toInt (index.toInt + (n + 1) * step.toInt)) :
    ∃ s', Eval k w (.loop p (.advanceCount stepped)) a s (.next s') ∧ s'.return.items = above := by
  induction n generalizing s index with
  | zero =>
    obtain ⟨s₁, ds, hbody, hreturn, hd, hroom, -⟩ := hp s index _ hs hr
    have hsum : wrapped (index.toInt + step.toInt) = index.toInt + step.toInt :=
      wrapped_of_inRange (by simpa using hrange 0 (Nat.le_refl _))
    have hc := choose_advanceCount (a := a) hone hd hroom (hreturn ▸ hr)
    rw [hsum, if_pos (by simpa using hover)] at hc
    exact ⟨_, .loopEnd hbody hc, rfl⟩
  | succ n ih =>
    obtain ⟨s₁, ds, hbody, hreturn, hd, hroom, hnext⟩ := hp s index _ hs hr
    have hsum : wrapped (index.toInt + step.toInt) = index.toInt + step.toInt :=
      wrapped_of_inRange (by simpa using hrange 0 (Nat.zero_le _))
    have hc := choose_advanceCount (a := a) hone hd hroom (hreturn ▸ hr)
    rw [hsum, if_neg (by simpa using hon 0 (Nat.succ_pos n))] at hc
    -- from the next index on, the sums are the later ones
    have hshift : ∀ j : Nat, (index + step).toInt + (j + 1) * step.toInt =
        index.toInt + ((j + 1 : Nat) + 1) * step.toInt := by
      intro j
      have hmul := Int.add_mul ((j : Int) + 1) 1 step.toInt
      rw [toInt_add_eq_wrapped, hsum, show ((j + 1 : Nat) : Int) = j + 1 from rfl]
      omega
    obtain ⟨s', hloop, habove⟩ := ih hnext rfl
      (fun j hj => hshift j ▸ hrange (j + 1) (Nat.succ_le_succ hj))
      (fun j hj => hshift j ▸ hon (j + 1) (Nat.succ_lt_succ hj)) (hshift n ▸ hover)
    exact ⟨s', .loopAgain hbody hc hloop, habove⟩

end Paced

/-- A loop that moves towards its limit, with room in the range for the step that crosses it. -/
def Headed (down : Bool) (limit step index : Int) : Prop :=
  if down then step < 0 ∧ limit ≤ index ∧ InRange (limit + step)
  else 0 < step ∧ index < limit ∧ InRange (limit - 1 + step)

/-- Going up in equal steps, one comes to the limit, and goes less than a step beyond. -/
theorem exists_crossing {limit step index : Int} (hstep : 0 < step) (hindex : index < limit) :
    ∃ n : Nat, (∀ j : Nat, j < n → index + (j + 1) * step < limit) ∧
      limit ≤ index + (n + 1) * step ∧
      ∀ j : Nat, j ≤ n → index < index + (j + 1) * step ∧
        index + (j + 1) * step ≤ limit - 1 + step := by
  have hq : 0 ≤ (limit - 1 - index) / step := Int.ediv_nonneg (by omega) (by omega)
  obtain ⟨n, hn⟩ := Int.eq_ofNat_of_zero_le hq
  have hlow : (n : Int) * step ≤ limit - 1 - index := hn ▸ Int.ediv_mul_le _ (by omega)
  have hhigh : limit - 1 - index < (n + 1) * step := hn ▸ Int.lt_ediv_add_one_mul_self _ hstep
  have hmono : ∀ {i j : Int}, i ≤ j → i * step ≤ j * step :=
    fun h => Int.mul_le_mul_of_nonneg_right h (by omega)
  have hsucc := Int.add_mul (n : Int) 1 step
  refine ⟨n, fun j hj => ?_, by omega, fun j hj => ⟨?_, ?_⟩⟩
  · have := hmono (show (j : Int) + 1 ≤ n by omega)
    omega
  · have := hmono (show (1 : Int) ≤ j + 1 by omega)
    omega
  · have := hmono (show (j : Int) + 1 ≤ n + 1 by omega)
    omega

theorem Headed.exists_crossing {down : Bool} {limit step : Int} {index : Int64}
    (h : Headed down limit step index.toInt) :
    ∃ n : Nat, (∀ j : Nat, j ≤ n → InRange (index.toInt + (j + 1) * step)) ∧
      (∀ j : Nat, j < n → ¬ Crossed down limit (index.toInt + (j + 1) * step)) ∧
      Crossed down limit (index.toInt + (n + 1) * step) := by
  have hindex := inRange_iff.1 (inRange_toInt index)
  cases down with
  | false =>
    obtain ⟨hstep, hlt, hin⟩ : 0 < step ∧ index.toInt < limit ∧ InRange (limit - 1 + step) := h
    rw [inRange_iff] at hin
    obtain ⟨n, hon, hover, hbounds⟩ := ThreadedForth.exists_crossing hstep hlt
    refine ⟨n, fun j hj => inRange_iff.2 ?_, fun j hj => ?_, hover⟩
    · have := hbounds j hj
      omega
    · exact Int.not_le.2 (hon j hj)
  | true =>
    -- counting down is counting up among the negated integers
    obtain ⟨hstep, hle, hin⟩ : step < 0 ∧ limit ≤ index.toInt ∧ InRange (limit + step) := h
    rw [inRange_iff] at hin
    obtain ⟨n, hon, hover, hbounds⟩ := ThreadedForth.exists_crossing
      (show 0 < -step by omega) (show -index.toInt < 1 - limit by omega)
    refine ⟨n, fun j hj => inRange_iff.2 ?_, fun j hj => ?_, ?_⟩
    · have := hbounds j hj
      rw [Int.mul_neg] at this
      omega
    · have := hon j hj
      rw [Int.mul_neg] at this
      exact Int.not_lt.2 (by omega)
    · rw [Int.mul_neg] at hover
      exact show _ < _ by omega

/-- **The test of counted loops.**  The sum that is compared with the limit and becomes the index is
    the exact one, wrapped around into the range of 64 bits.  Hence, while the index has not
    crossed the limit, a loop is over exactly when the sum has, provided that the sum is in range;
    and a loop with a constant step towards its limit comes to an end, provided that no step across
    the limit leaves the range. -/
theorem loop_test {stepped : Bool} {index limit step exit : Int64} {above : List Int64} :
    (∀ {entry : Int64} {ds : List Value} {g f : Frame} {fs : List Frame} {m : Machine},
      AtTest stepped index limit step exit entry ds above g f fs m →
      act (.advanceCount stepped) m =
        (if Crossed (countsDown stepped step) limit.toInt (wrapped (index.toInt + step.toInt)) then
          .ok () (afterTest m ds above)
        else .ok () { afterTest m ds ((index + step) :: limit :: exit :: above) with
          frames := g :: { f with ip := entry.toInt.toNat } :: fs }) ∧
      (index + step).toInt = wrapped (index.toInt + step.toInt) ∧
      (InRange (index.toInt + step.toInt) →
        wrapped (index.toInt + step.toInt) = index.toInt + step.toInt) ∧
      (¬ Crossed (countsDown stepped step) limit.toInt index.toInt →
        (Crossed (countsDown stepped step) limit.toInt (wrapped (index.toInt + step.toInt)) ↔
          Crossed (countsDown stepped step) limit.toInt (index.toInt + step.toInt) ∧
            InRange (index.toInt + step.toInt)))) ∧
    ∀ {k : BranchWord → WordId} {w : WordId} {p : Prog} {a : Nat} {I : Machine → Prop}
      {s : Machine}, Paced k w p a stepped step I → (stepped = false → step = 1) → I s →
      s.return.items = index :: limit :: exit :: above →
      Headed (countsDown stepped step) limit.toInt step.toInt index.toInt →
      ∃ s', Eval k w (.loop p (.advanceCount stepped)) a s (.next s') ∧
        s'.return.items = above := by
  refine ⟨fun h => ⟨act_advanceCount h, toInt_add_eq_wrapped _ _, wrapped_of_inRange,
    crossed_wrapped_iff (countsDown_iff h.one)⟩, fun hp hone hs hr hh => ?_⟩
  obtain ⟨n, hrange, hon, hover⟩ := hh.exists_crossing
  exact hp.ends hone n hs hr hrange hon hover

/-- A machine at the test of a loop with a step of its own, in a word with one element. -/
def testing (index limit step : Int64) : Machine :=
  { Machine.empty {} with
    data := ⟨.data, 8, [.int 1, .int step]⟩
    «return» := ⟨.return, 8, [index, limit, 9]⟩
    heap := (({} : Heap).addWord (.created "v")).2
    frames := [⟨⟨0⟩, 1⟩, ⟨⟨0⟩, 1⟩] }

theorem atTest_testing (index limit step : Int64) :
    AtTest true index limit step 9 1 [] [] ⟨⟨0⟩, 1⟩ ⟨⟨0⟩, 1⟩ [] (testing index limit step) :=
  ⟨rfl, nofun, rfl, rfl, by decide, by show (1 : Int) ≤ 1; decide⟩

theorem paced_number (k : BranchWord → WordId) (w : WordId) (a : Nat) (step : Int64) :
    Paced k w (.simple (.number (.int step))) a true step
      fun s => s.data.depth + 1 < s.data.capacity := by
  intro s index record hroom _
  have hpush : M.push (.int step) s =
      .ok () { s with data := { s.data with items := .int step :: s.data.items } } := by
    simp [M.push, Stack.push, show s.data.depth < s.data.capacity by omega]
  have hbody : Eval k w (.prog (.simple (.number (.int step)))) a s
      (.of (M.push (.int step) s)) := .number
  rw [hpush] at hbody
  exact ⟨_, s.data.items, hbody, rfl, rfl, hroom, hroom⟩

/-- Counting down in sevens: the test after the last round, and a whole loop. -/
theorem loop_test_of_sevens :
    act (.advanceCount true) (testing 12 10 (-7)) =
        .ok () (afterTest (testing 12 10 (-7)) [] []) ∧
      ∃ s', Eval (fun _ => ⟨0⟩) ⟨0⟩
          (.loop (.simple (.number (.int (-7)))) (.advanceCount true)) 4
          (afterTest (testing 100 10 (-7)) [] [100, 10, 9]) (.next s') ∧
        s'.return.items = [] := by
  have hcrossed : Crossed (countsDown true (-7)) (10 : Int64).toInt
      (wrapped ((12 : Int64).toInt + (-7 : Int64).toInt)) := by decide
  have hheaded : Headed (countsDown true (-7)) (10 : Int64).toInt (-7 : Int64).toInt
      (100 : Int64).toInt := by
    refine ⟨by decide, by decide, ?_⟩
    exact ⟨by decide, by decide⟩
  have htest := (loop_test.1 (atTest_testing 12 10 (-7))).1
  rw [if_pos hcrossed] at htest
  exact ⟨htest, loop_test.2 (paced_number _ _ 4 (-7)) nofun (by decide) rfl hheaded⟩

/-- A sum that has crossed the limit beyond the range: the loop goes on. -/
theorem loop_test_misses :
    ¬ ∀ {stepped : Bool} {index limit step exit entry : Int64} {ds : List Value}
      {above : List Int64} {g f : Frame} {fs : List Frame} {m : Machine},
      AtTest stepped index limit step exit entry ds above g f fs m →
      (act (.advanceCount stepped) m = .ok () (afterTest m ds above) ↔
        Crossed (countsDown stepped step) limit.toInt (index.toInt + step.toInt)) := by
  intro h
  have hover := (h (atTest_testing 9223372036854775806 9223372036854775807 5)).2 (by decide)
  have hgoes := act_advanceCount (atTest_testing 9223372036854775806 9223372036854775807 5)
  rw [if_neg (by decide)] at hgoes
  have hrecord := congrArg (fun r => (after r).return.items) (hover.symm.trans hgoes)
  exact absurd hrecord (by decide)

end ThreadedForth
