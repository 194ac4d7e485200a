/-
  Arithmetic of integers of 64 bits.
-/
import ThreadedForth.Proofs.Operands

namespace ThreadedForth

/-! ## Quotients, remainders and bits -/

section Integers

variable (a b : Int64)

/-- One quotient is out of range, and wraps around. -/
theorem toInt_quotient :
    (a / b).toInt =
      if a = Int64.minValue ∧ b = -1 then Int64.minValue.toInt else a.toInt.tdiv b.toInt := by
  split
  · rename_i h
    obtain ⟨rfl, rfl⟩ := h
    rfl
  · rename_i h
    by_cases ha : a = Int64.minValue
    · exact Int64.toInt_div_of_ne_right a b fun hb => h ⟨ha, hb⟩
    · exact Int64.toInt_div_of_ne_left a b ha

theorem quotient_mul_add_remainder : a / b * b + a % b = a := by
  refine Int64.toInt_inj.1 ?_
  rw [Int64.toInt_add, Int64.toInt_mul, Int64.toInt_div, Int64.toInt_mod, Int.bmod_mul_bmod,
    Int.bmod_add_bmod, Int.tdiv_mul_add_tmod]
  exact Int.bmod_eq_of_le (by have := a.le_toInt; omega) (by have := a.toInt_lt; omega)

theorem natAbs_remainder_lt {b : Int64} (hb : b ≠ 0) : (a % b).toInt.natAbs < b.toInt.natAbs := by
  have hpos : 0 < b.toInt.natAbs :=
    Int.natAbs_pos.2 fun h => hb (Int64.toInt_inj.1 h)
  rw [Int64.toInt_mod, Int.natAbs_tmod]
  exact Nat.mod_lt _ hpos

theorem sign_remainder : (a % b).toInt = 0 ∨ (a % b).toInt.sign = a.toInt.sign := by
  rw [Int64.toInt_mod, Int.sign_tmod]
  split
  · exact .inl (Int.tmod_eq_zero_of_dvd ‹_›)
  · exact .inr rfl

/-- Two integers agree in the bits of the one and differ in those of the other part of their
    union. -/
theorem or_sub_and : (a ||| b) - (a &&& b) = a ^^^ b := by
  have hparts : (a ^^^ b).toBitVec + (a &&& b).toBitVec = (a ||| b).toBitVec := by
    simp only [Int64.toBitVec_xor, Int64.toBitVec_and, Int64.toBitVec_or]
    rw [BitVec.add_eq_or_of_and_eq_zero]
    all_goals
      ext i h
      simp only [BitVec.getElem_or, BitVec.getElem_xor, BitVec.getElem_and, BitVec.getElem_zero]
      cases a.toBitVec[i] <;> cases b.toBitVec[i] <;> rfl
  have hsum : (a ^^^ b) + (a &&& b) = a ||| b := Int64.toBitVec_inj.1 hparts
  rw [← hsum, Int64.add_sub_cancel]

theorem toInt_complement : (~~~a).toInt = -1 - a.toInt := by
  have hlow := a.le_toInt
  have hhigh := a.toInt_lt
  rw [Int64.toInt_not, Int.bmod_eq_of_le (by omega) (by omega)]
  omega

end Integers

/-! ## Operators -/

variable {va vb : Value} {a b : Int64}

/-- Two values that are read as integers.  Two flags are not: they have operators of their own. -/
structure IntegerOperands (va vb : Value) (a b : Int64) : Prop where
  left : va.toInt = .ok a
  right : vb.toInt = .ok b
  notFlags : ¬ (va.kind = .bool ∧ vb.kind = .bool)

theorem IntegerOperands.ints (a b : Int64) : IntegerOperands (.int a) (.int b) a b :=
  ⟨rfl, rfl, nofun⟩

theorem IntegerOperands.applyValues (ho : IntegerOperands va vb a b) (h : Heap) (op : Operator) :
    h.applyValues va vb op = intResult a b op := by
  obtain ⟨ha, hb, hn⟩ := ho
  cases va with
  | int | char | bool =>
    cases vb with
    | bool =>
      first
      | exact absurd ⟨rfl, rfl⟩ hn
      | cases ha; cases hb; rfl
    | int | char => cases ha; cases hb; rfl
    | _ => cases hb
  | _ => cases ha

theorem IntegerOperands.handler? (ho : IntegerOperands va vb a b) (m : Machine) :
    Operator.handler? m va vb = none := by
  obtain ⟨ha, hb, -⟩ := ho
  cases va with
  | int | char | bool =>
    cases vb with
    | int | char | bool => rfl
    | _ => cases hb
  | _ => cases ha

/-- The laws of the operators on two values that are read as `a` and `b`; `apply` is how operators
    are applied. -/
structure Operator.Computes (apply : Value → Value → Operator → Except Error Value)
    (va vb : Value) (a b : Int64) : Prop where
  add : ∃ r, apply va vb .add = .ok (.int r) ∧ r.toInt = (a.toInt + b.toInt).bmod Int64.size
  sub : ∃ r, apply va vb .sub = .ok (.int r) ∧ r.toInt = (a.toInt - b.toInt).bmod Int64.size
  mul : ∃ r, apply va vb .mul = .ok (.int r) ∧ r.toInt = (a.toInt * b.toInt).bmod Int64.size
  /-- Only a division by zero fails, and it always does. -/
  zero : b = 0 → apply va vb .div = .error .divideByZero ∧ apply va vb .mod = .error .divideByZero
  division : b ≠ 0 → ∃ q r, apply va vb .div = .ok (.int q) ∧ apply va vb .mod = .ok (.int r) ∧
    (q.toInt = if a = Int64.minValue ∧ b = -1 then Int64.minValue.toInt
      else a.toInt.tdiv b.toInt) ∧
    r.toInt.natAbs < b.toInt.natAbs ∧ (r.toInt = 0 ∨ r.toInt.sign = a.toInt.sign) ∧
    ∃ n, apply (.int q) vb .mul = .ok (.int n) ∧ apply (.int n) (.int r) .add = .ok (.int a)
  bits : ∃ x y z, apply va vb .and = .ok (.int x) ∧ apply va vb .or = .ok (.int y) ∧
    apply va vb .xor = .ok (.int z) ∧ apply (.int y) (.int x) .sub = .ok (.int z)

theorem IntegerOperands.computes (ho : IntegerOperands va vb a b) (h : Heap) :
    Operator.Computes h.applyValues va vb a b := by
  have happly := ho.applyValues h
  have hints : ∀ n k op, h.applyValues (.int n) (.int k) op = intResult n k op :=
    fun n k => (IntegerOperands.ints n k).applyValues h
  refine ⟨⟨a + b, happly .add, Int64.toInt_add a b⟩, ⟨a - b, happly .sub, Int64.toInt_sub a b⟩,
    ⟨a * b, happly .mul, Int64.toInt_mul a b⟩, fun hb => ?_, fun hb => ?_, ?_⟩
  · rw [happly, happly]
    exact ⟨if_pos hb, if_pos hb⟩
  · have hright : IntegerOperands (.int (a / b)) vb (a / b) b := ⟨rfl, ho.right, nofun⟩
    have hback : intResult (a / b * b) (a % b) .add = .ok (.int a) := by
      rw [intResult, quotient_mul_add_remainder]
    refine ⟨a / b, a % b, (happly .div).trans (if_neg hb), (happly .mod).trans (if_neg hb),
      toInt_quotient a b, natAbs_remainder_lt a hb, sign_remainder a b, a / b * b, ?_, ?_⟩
    · exact hright.applyValues h .mul
    · exact (hints _ _ .add).trans hback
  · have hdiff : intResult (a ||| b) (a &&& b) .sub = .ok (.int (a ^^^ b)) := by
      rw [intResult, or_sub_and]
    exact ⟨a &&& b, a ||| b, a ^^^ b, happly .and, happly .or, happly .xor,
      (hints _ _ .sub).trans hdiff⟩

open Machine in
/-- The word that complements an integer takes it away from minus one. -/
theorem run_invert {m : Machine} {rest : List Value} (ha : va.toInt = .ok a)
    (hd : m.data.items = va :: rest) (hfits : m.data.Fits) :
    ∃ n : Int64, n.toInt = -1 - a.toInt ∧
      ArithmeticWord.run .invert m = .ok .next (m.withItems (.int n :: rest)) := by
  have hroom : rest.length < m.data.capacity := by
    have hfits : m.data.items.length ≤ m.data.capacity := hfits
    rw [hd] at hfits
    exact hfits
  have hpop : M.popInt m = .ok a (m.withItems rest) :=
    (M.bind_ok (pop_of_items hd)).trans (lift_ok ha)
  refine ⟨~~~a, toInt_complement a, ?_⟩
  rw [ArithmeticWord.run, M.bind_ok hpop]
  exact M.bind_ok (push_withItems _ hroom)

/-- **Arithmetic of integers.**  On two values that are read as integers, and are not both flags,
    the operators keep to their laws, whatever is on the heap; their words replace the operands by
    the result, or take them off when the operator fails. -/
theorem integer_operators (ho : IntegerOperands va vb a b) :
    (∀ h : Heap, Operator.Computes h.applyValues va vb a b) ∧
    (∀ {m : Machine} {rest : List Value}, m.data.items = vb :: va :: rest → m.data.Fits →
      ∀ op, ArithmeticWord.run (.apply op) m = match m.heap.applyValues va vb op with
        | .ok v => .ok .next (m.withItems (v :: rest))
        | .error e => .error e (m.withItems rest)) ∧
    ∀ {m : Machine} {rest : List Value}, m.data.items = va :: rest → m.data.Fits →
      ∃ n : Int64, n.toInt = -1 - a.toInt ∧
        ArithmeticWord.run .invert m = .ok .next (m.withItems (.int n :: rest)) :=
  ⟨ho.computes, fun hd hfits => Operator.run_apply hd hfits (ho.handler? _), fun hd hfits =>
    run_invert ho.left hd hfits⟩

/-- The quotient that is out of range. -/
theorem integer_operators_of_least :
    IntegerOperands (.int Int64.minValue) (.int (-1)) Int64.minValue (-1) ∧
    ∃ q r : Int64,
      ({} : Heap).applyValues (.int Int64.minValue) (.int (-1)) .div = .ok (.int q) ∧
      ({} : Heap).applyValues (.int Int64.minValue) (.int (-1)) .mod = .ok (.int r) ∧
      q.toInt = Int64.minValue.toInt ∧ r.toInt.natAbs < (-1 : Int64).toInt.natAbs := by
  have ho := IntegerOperands.ints Int64.minValue (-1)
  obtain ⟨q, r, hq, hr, hv, hlt, -⟩ := ((integer_operators ho).1 {}).division (by decide)
  exact ⟨ho, q, r, hq, hr, hv, hlt⟩

end ThreadedForth
