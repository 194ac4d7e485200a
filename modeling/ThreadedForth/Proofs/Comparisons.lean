/-
  All comparisons of two values follow from the way in which the values compare.
-/
import ThreadedForth.Proofs.Operands

namespace ThreadedForth

/-! ## Ways to compare -/

/-- How two values compare. -/
inductive Comparison where
  /-- In an order. -/
  | ordered (o : Ordering)
  /-- They are only equal or different. -/
  | equality (same : Bool)
  /-- Not at all. -/
  | undefined
deriving DecidableEq, Repr

namespace Comparison

/-- What a comparison says, if it applies. -/
def holds? : Comparison → Operator → Option Bool
  | ordered o, .eq => some (o == .eq)
  | ordered o, .ne => some (o != .eq)
  | ordered o, .lt => some (o == .lt)
  | ordered o, .gt => some (o == .gt)
  | ordered o, .le => some (o != .gt)
  | ordered o, .ge => some (o != .lt)
  | equality same, .eq => some same
  | equality same, .ne => some (!same)
  | _, _ => none

/-- The way in which the exchanged values compare. -/
def swap : Comparison → Comparison
  | ordered o => ordered o.swap
  | c => c

variable (c : Comparison)

theorem holds?_ne : c.holds? .ne = (c.holds? .eq).map (!·) := by
  cases c <;> rfl

theorem holds?_swap_eq : c.swap.holds? .eq = c.holds? .eq := by
  cases c with
  | ordered o => cases o <;> rfl
  | _ => rfl

theorem holds?_swap_gt : c.swap.holds? .gt = c.holds? .lt := by
  cases c with
  | ordered o => cases o <;> rfl
  | _ => rfl

theorem holds?_swap_ge : c.swap.holds? .ge = c.holds? .le := by
  cases c with
  | ordered o => cases o <;> rfl
  | _ => rfl

theorem le_eq_not_gt {r s : Bool} (hle : c.holds? .le = some r) (hgt : c.holds? .gt = some s) :
    r = !s := by
  cases c with
  | ordered o => cases o <;> cases hle <;> cases hgt <;> rfl
  | _ => cases hle

theorem le_eq_lt_or_eq {r s t : Bool} (hle : c.holds? .le = some r) (hlt : c.holds? .lt = some s)
    (heq : c.holds? .eq = some t) : r = (s || t) := by
  cases c with
  | ordered o => cases o <;> cases hle <;> cases hlt <;> cases heq <;> rfl
  | _ => cases hle

/-- The six comparisons from three of them. -/
theorem holds?_ordered {o : Ordering} {lt eq gt : Bool} (hlt : (o == .lt) = lt)
    (heq : (o == .eq) = eq) (hgt : (o == .gt) = gt) {op : Operator} (hop : op.isComparison = true) :
    (ordered o).holds? op = some (match op with
      | .eq => eq
      | .ne => !eq
      | .lt => lt
      | .gt => gt
      | .le => !gt
      | _ => !lt) := by
  subst hlt heq hgt
  cases op with
  | eq | ne | lt | gt | le | ge => rfl
  | _ => cases hop

/-- What the comparisons of integers say. -/
theorem ordered_compare_integers (x y : Int64) {op : Operator} (hop : op.isComparison = true) :
    ((ordered (compare x y)).holds? op).map Value.bool = (intResult x y op).toOption := by
  have hlt : (compare x y == .lt) = decide (x < y) := by
    rw [Bool.eq_iff_iff, beq_iff_eq, decide_eq_true_iff]
    exact Std.compare_eq_lt
  have heq : (compare x y == .eq) = (x == y) := by
    rw [Bool.eq_iff_iff, beq_iff_eq, beq_iff_eq]
    exact Std.compare_eq_iff_eq
  have hgt : (compare x y == .gt) = decide (y < x) := by
    rw [Bool.eq_iff_iff, beq_iff_eq, decide_eq_true_iff]
    exact Std.compare_eq_gt
  rw [holds?_ordered hlt heq hgt hop]
  cases op with
  | eq | ne | lt | gt => rfl
  | le => simp [intResult, Except.toOption, ← decide_not, Int64.not_lt]
  | ge => simp [intResult, Except.toOption, ← decide_not, Int64.not_lt]
  | _ => cases hop

/-- What the comparisons of texts say. -/
theorem ordered_compare_texts (s t : String) {op : Operator} (hop : op.isComparison = true) :
    (ordered (compare s t)).holds? op = some (Heap.compareTexts s t op) := by
  have hiff : ∀ s t : String, compare s t = .lt ↔ s < t := fun _ _ => compareOfLessAndEq_eq_lt
  have hlt : (compare s t == .lt) = decide (s < t) := by
    rw [Bool.eq_iff_iff, beq_iff_eq, decide_eq_true_iff]
    exact hiff s t
  have heq : (compare s t == .eq) = (s == t) := by
    rw [Bool.eq_iff_iff, beq_iff_eq, beq_iff_eq]
    exact Std.compare_eq_iff_eq
  have hgt : (compare s t == .gt) = decide (t < s) := by
    rw [Bool.eq_iff_iff, beq_iff_eq, decide_eq_true_iff, ← hiff]
    exact Std.OrientedCmp.gt_iff_lt
  rw [holds?_ordered hlt heq hgt hop]
  cases op with
  | eq | ne | lt | gt | le | ge => rfl
  | _ => cases hop


end Comparison

/-! ## Plain values and strings -/

/-- How two values compare that no handler takes care of. -/
def Value.comparison (a b : Value) : Comparison :=
  match a, b with
  | .bool x, .bool y => .equality (x == y)
  | .ptr _, .ptr _ | .type _, .type _ | .binop _, .binop _ | .xt _, .xt _ | .obj _, .obj _ =>
    .equality (a.same b)
  | _, _ =>
    match a.toInt, b.toInt with
    | .ok x, .ok y => .ordered (compare x y)
    | _, _ => .undefined

/-- How two values compare, at least one of them a string. -/
def Heap.stringComparison (h : Heap) (a b : Value) : Comparison :=
  match h.text? a, h.text? b with
  | some s, some t => .ordered (compare s t)
  | _, _ => .equality false

section Results

variable {h : Heap} {a b : Value} {op : Operator}

theorem same_comm (a b : Value) (ha : a.kind ≠ .float) : a.same b = b.same a := by
  cases a with
  | float => exact absurd rfl ha
  | _ => cases b <;> simp only [Value.same, Bool.beq_comm]

theorem Value.comparison_swap (ha : a.kind ≠ .float) : b.comparison a = (a.comparison b).swap := by
  have hsame := same_comm a b ha
  have hints : ∀ x y : Int64,
      Comparison.ordered (compare y x) = (Comparison.ordered (compare x y)).swap :=
    fun x y => congrArg Comparison.ordered Std.OrientedCmp.eq_swap
  cases a <;> cases b <;>
    first
    | exact absurd rfl ha
    | rfl
    | exact hints _ _
    | exact congrArg Comparison.equality hsame.symm

theorem Heap.stringComparison_swap (h : Heap) (a b : Value) :
    h.stringComparison b a = (h.stringComparison a b).swap := by
  unfold stringComparison
  cases h.text? a <;> cases h.text? b
  · rfl
  · rfl
  · rfl
  · exact congrArg Comparison.ordered Std.OrientedCmp.eq_swap

/-- Without a handler, comparisons say what the way of the operands says. -/
theorem Heap.applyValues_comparison (h : Heap) (ha : a.kind ≠ .float) (hb : b.kind ≠ .float)
    (hop : op.isComparison = true) :
    (h.applyValues a b op).toOption = ((a.comparison b).holds? op).map .bool := by
  cases a <;> cases b <;>
    first
    | exact absurd rfl ha
    | exact absurd rfl hb
    | exact (Comparison.ordered_compare_integers _ _ hop).symm
    | cases op <;> first | rfl | cases hop

/-- With a string, comparisons say what the way of the operands says, and leave the heap alone. -/
theorem Heap.applyStrings_comparison (h : Heap) (a b : Value) (hop : op.isComparison = true) :
    (h.applyStrings a b op).toOption =
      ((h.stringComparison a b).holds? op).map fun r => (.bool r, h) := by
  have hadd : op ≠ .add := by
    rintro rfl
    cases hop
  rw [applyStrings, if_neg hadd, if_pos hop]
  unfold stringComparison
  cases hs : h.text? a with
  | none => cases op <;> rfl
  | some s =>
    cases ht : h.text? b with
    | none => cases op <;> rfl
    | some t =>
      rw [Comparison.ordered_compare_texts s t hop]
      rfl

end Results

/-! ## Operators that no word applies -/

/-- The only type with a handler is that of strings. -/
def Types.OnlyStrings (t : Types) : Prop :=
  ∀ id, t.handler? id = if id.base = TypeId.string.base then some .strings else none

theorem Types.OnlyStrings.handler? {m : Machine} (ht : m.types.OnlyStrings) (a b : Value) :
    Operator.handler? m a b = none ∨ Operator.handler? m a b = some .strings := by
  have hone : ∀ v, Operator.handlerOf? m v = none ∨ Operator.handlerOf? m v = some .strings := by
    intro v
    cases v with
    | obj o =>
      rw [Operator.handlerOf?, ht]
      split
      · exact .inr rfl
      · exact .inl rfl
    | _ => exact .inl rfl
  rcases hone a with h | h
  · rw [Operator.handler?, h]
    exact hone b
  · exact .inr (by rw [Operator.handler?, h]; rfl)

namespace Operator

open Machine

variable {m m' : Machine} {a b c v : Value} {op : Operator}

/-- The handler of strings takes the operands off the data stack and leaves its result there. -/
theorem handleStrings_withItems {rest : List Value} (hroom : rest.length < m.data.capacity) :
    handleStrings (m.withItems (.binop op :: b :: a :: rest)) =
      match m.heap.applyStrings a b op with
      | .ok (v, heap) => .ok () { m.withItems (v :: rest) with heap }
      | .error e => .error e (m.withItems rest) := by
  have hget : (MonadState.get : M Machine) (m.withItems rest) = .ok (m.withItems rest) _ := rfl
  rw [handleStrings, M.bind_ok (pop_of_items rfl)]
  refine (M.bind_ok (lift_ok rfl)).trans ?_
  rw [M.bind_ok (pop_of_items rfl), M.bind_ok (pop_of_items rfl)]
  refine (M.bind_ok hget).trans ?_
  cases hr : m.heap.applyStrings a b op with
  | error e => exact M.bind_error (congrArg (fun r => M.lift r (m.withItems rest)) hr)
  | ok r =>
    refine (M.bind_ok (lift_ok hr)).trans ?_
    exact push_withItems (m := { m with heap := r.2 }) r.1 hroom

theorem takeResult_withItems (m : Machine) (v : Value) (rest : List Value) :
    takeResult rest.length (m.withItems (v :: rest)) = .ok v (m.withItems rest) := by
  have hget : (MonadState.get : M Machine) (m.withItems (v :: rest)) = .ok _ _ := rfl
  have hdepth : (m.withItems (v :: rest)).data.depth = rest.length + 1 := rfl
  exact (M.bind_ok hget).trans ((congrFun (if_pos hdepth) _).trans (pop_of_items rfl))

/-- The result is taken off the data stack again. -/
theorem dispatch_of_strings (hh : handler? m a b = some .strings)
    (hroom : m.data.depth + 3 ≤ m.data.capacity) :
    dispatch a b op m = match m.heap.applyStrings a b op with
      | .ok (v, heap) => .ok (.done v) { m with heap }
      | .error e => .error e m := by
  have hget : ∀ x : Machine, (MonadState.get : M Machine) x = .ok x x := fun _ => rfl
  have hdepth : m.data.items.length + 3 ≤ m.data.capacity := hroom
  have ha : M.push a (m.withItems m.data.items) = .ok () (m.withItems (a :: m.data.items)) :=
    push_withItems a (by omega)
  have hb : M.push b _ = .ok () (m.withItems (b :: a :: m.data.items)) :=
    push_withItems b (by rw [List.length_cons]; omega)
  have hop : M.push (.binop op) _ = .ok () (m.withItems (.binop op :: b :: a :: m.data.items)) :=
    push_withItems (.binop op) (by rw [List.length_cons, List.length_cons]; omega)
  have hhandle : handleStrings (m.withItems (.binop op :: b :: a :: m.data.items)) = _ :=
    handleStrings_withItems (show m.data.items.length < m.data.capacity by omega)
  rw [dispatch, M.bind_ok (hget m), hh]
  refine (M.bind_ok ha).trans ((M.bind_ok hb).trans ((M.bind_ok hop).trans ?_))
  cases hr : m.heap.applyStrings a b op with
  | error e =>
    rw [hr] at hhandle
    exact M.bind_error (M.bind_error hhandle)
  | ok r =>
    rw [hr] at hhandle
    have htake := takeResult_withItems { m with heap := r.2 } r.1 m.data.items
    have hnone : handle .strings (m.withItems (.binop op :: b :: a :: m.data.items)) =
        .ok none _ := M.bind_ok hhandle
    exact (M.bind_ok hnone).trans (M.bind_ok htake)

/-- The result of an operator that no word applies, if it has one. -/
def answer? (m : Machine) (a b : Value) (op : Operator) : Option Value :=
  match dispatch a b op m with
  | .ok (.done v) _ => some v
  | _ => none

/-- An operator is applied by the rules for plain values or by those for strings; a result is all
    that is left, but for the heap. -/
theorem dispatch_cases (ht : m.types.OnlyStrings) (hroom : m.data.depth + 3 ≤ m.data.capacity)
    (a b : Value) (op : Operator) :
    (handler? m a b = none ∧ answer? m a b op = (m.heap.applyValues a b op).toOption ∨
      handler? m a b = some .strings ∧
        answer? m a b op = ((m.heap.applyStrings a b op).toOption).map Prod.fst) ∧
    ∀ d m', dispatch a b op m = .ok d m' → ∃ v heap, d = .done v ∧ m' = { m with heap } := by
  rcases ht.handler? a b with hh | hh
  · have hd : dispatch a b op m = _ := dispatch_of_no_handler hh
    cases hr : m.heap.applyValues a b op with
    | error e =>
      rw [hr] at hd
      exact ⟨.inl ⟨hh, by rw [answer?, hd]; rfl⟩, fun d m' h => by cases hd.symm.trans h⟩
    | ok v =>
      rw [hr] at hd
      refine ⟨.inl ⟨hh, by rw [answer?, hd]; rfl⟩, fun d m' h => ?_⟩
      cases hd.symm.trans h
      exact ⟨v, m.heap, rfl, rfl⟩
  · have hd : dispatch a b op m = _ := dispatch_of_strings hh hroom
    cases hr : m.heap.applyStrings a b op with
    | error e =>
      rw [hr] at hd
      exact ⟨.inr ⟨hh, by rw [answer?, hd]; rfl⟩, fun d m' h => by cases hd.symm.trans h⟩
    | ok r =>
      rw [hr] at hd
      refine ⟨.inr ⟨hh, by rw [answer?, hd]; rfl⟩, fun d m' h => ?_⟩
      cases hd.symm.trans h
      exact ⟨r.1, r.2, rfl, rfl⟩

/-- How two values compare on a machine. -/
def comparison (m : Machine) (a b : Value) : Comparison :=
  if (handler? m a b).isSome then m.heap.stringComparison a b else a.comparison b

theorem comparison_swap (ha : a.kind ≠ .float) :
    comparison m b a = (comparison m a b).swap := by
  have hcomm : (handler? m b a).isSome = (handler? m a b).isSome := by
    simp only [Operator.handler?, Option.isSome_or, Bool.or_comm]
  unfold comparison
  rw [hcomm]
  split
  · exact m.heap.stringComparison_swap a b
  · exact Value.comparison_swap ha

/-- **Comparisons say what the way of the operands says.** -/
theorem answer?_eq (ht : m.types.OnlyStrings) (hroom : m.data.depth + 3 ≤ m.data.capacity)
    (ha : a.kind ≠ .float) (hb : b.kind ≠ .float) (hop : op.isComparison = true) :
    answer? m a b op = ((comparison m a b).holds? op).map .bool := by
  unfold comparison
  rcases (dispatch_cases ht hroom a b op).1 with ⟨hh, hr⟩ | ⟨hh, hr⟩
  · rw [hr, hh, m.heap.applyValues_comparison ha hb hop]
    rfl
  · rw [hr, hh, m.heap.applyStrings_comparison a b hop, Option.map_map]
    rfl

/-! ## The laws -/

/-- An operator applies to two values, and says yes. -/
def Holds (m : Machine) (op : Operator) (a b : Value) : Prop :=
  answer? m a b op = some (.bool true)

/-- The laws of the comparisons of two values. -/
structure Coherent (m : Machine) (a b : Value) : Prop where
  flags : ∀ op, op.isComparison = true → ∀ v, answer? m a b op = some v → ∃ r, v = .bool r
  complementary : ∀ r, answer? m a b .ne = some (.bool r) ↔ answer? m a b .eq = some (.bool !r)
  eq_symm : answer? m b a .eq = answer? m a b .eq
  ne_symm : answer? m b a .ne = answer? m a b .ne
  lt_gt : answer? m b a .gt = answer? m a b .lt
  le_ge : answer? m b a .ge = answer? m a b .le
  le_not_gt : ∀ r s, answer? m a b .le = some (.bool r) → answer? m a b .gt = some (.bool s) →
    r = !s
  le_lt_or_eq : ∀ r s t, answer? m a b .le = some (.bool r) → answer? m a b .lt = some (.bool s) →
    answer? m a b .eq = some (.bool t) → r = (s || t)

/-- The comparisons are a strict total order on a set of values, up to equality. -/
structure Orders (m : Machine) (S : Value → Prop) : Prop where
  answers : ∀ {a b}, S a → S b → ∀ op, op.isComparison = true →
    ∃ r, answer? m a b op = some (.bool r)
  irrefl : ∀ {a}, S a → ¬ Holds m .lt a a
  trans : ∀ {a b c}, S a → S b → S c → Holds m .lt a b → Holds m .lt b c → Holds m .lt a c
  total : ∀ {a b}, S a → S b → Holds m .lt a b ∨ Holds m .eq a b ∨ Holds m .lt b a
  /-- Equal values are compared alike. -/
  equals : ∀ {a b c}, S a → S b → S c → Holds m .eq a b → ¬ Holds m .lt a b ∧
    (Holds m .eq a c ↔ Holds m .eq b c) ∧ (Holds m .lt a c ↔ Holds m .lt b c) ∧
    (Holds m .lt c a ↔ Holds m .lt c b)

theorem coherent (ht : m.types.OnlyStrings) (hroom : m.data.depth + 3 ≤ m.data.capacity)
    (ha : a.kind ≠ .float) (hb : b.kind ≠ .float) : Coherent m a b := by
  have hab : ∀ {op : Operator}, op.isComparison = true → answer? m a b op = _ :=
    fun hop => answer?_eq ht hroom ha hb hop
  have hba : ∀ {op : Operator}, op.isComparison = true →
      answer? m b a op = (((comparison m a b).swap).holds? op).map .bool :=
    fun hop => comparison_swap ha ▸ answer?_eq ht hroom hb ha hop
  have hanswer : ∀ {op : Operator} {r : Bool}, op.isComparison = true →
      (answer? m a b op = some (.bool r) ↔ (comparison m a b).holds? op = some r) := by
    intro op r hop
    rw [hab hop]
    simp
  refine ⟨fun op hop v hv => ?_, fun r => ?_, ?_, ?_, ?_, ?_, fun r s hle hgt => ?_,
    fun r s t hle hlt heq => ?_⟩
  · rw [hab hop] at hv
    obtain ⟨r, -, hr⟩ := Option.map_eq_some_iff.1 hv
    exact ⟨r, hr.symm⟩
  · rw [hanswer rfl, hanswer rfl, Comparison.holds?_ne]
    simp [Bool.not_eq_eq_eq_not]
  · rw [hba rfl, hab rfl, Comparison.holds?_swap_eq]
  · rw [hba rfl, hab rfl, Comparison.holds?_ne, Comparison.holds?_swap_eq, ← Comparison.holds?_ne]
  · rw [hba rfl, hab rfl, Comparison.holds?_swap_gt]
  · rw [hba rfl, hab rfl, Comparison.holds?_swap_ge]
  · exact Comparison.le_eq_not_gt _ ((hanswer rfl).1 hle) ((hanswer rfl).1 hgt)
  · exact Comparison.le_eq_lt_or_eq _ ((hanswer rfl).1 hle) ((hanswer rfl).1 hlt)
      ((hanswer rfl).1 heq)

/-- Values that compare in the order of what they are read as are ordered, up to equality. -/
theorem orders_of_reading {α : Type} [Ord α] [Std.TransOrd α] {S : Value → Prop}
    (ht : m.types.OnlyStrings) (hroom : m.data.depth + 3 ≤ m.data.capacity) (reading : Value → α)
    (hfloat : ∀ a, S a → a.kind ≠ .float)
    (hS : ∀ a b, S a → S b → comparison m a b = .ordered (compare (reading a) (reading b))) :
    Orders m S := by
  have hanswer : ∀ {a b : Value} {op : Operator}, S a → S b → op.isComparison = true →
      answer? m a b op =
        ((Comparison.ordered (compare (reading a) (reading b))).holds? op).map .bool :=
    fun ha hb hop => hS _ _ ha hb ▸ answer?_eq ht hroom (hfloat _ ha) (hfloat _ hb) hop
  have hlt : ∀ {a b}, S a → S b → (Holds m .lt a b ↔ compare (reading a) (reading b) = .lt) := by
    intro a b ha hb
    rw [Holds, hanswer ha hb rfl]
    simp [Comparison.holds?]
  have heq : ∀ {a b}, S a → S b → (Holds m .eq a b ↔ compare (reading a) (reading b) = .eq) := by
    intro a b ha hb
    rw [Holds, hanswer ha hb rfl]
    simp [Comparison.holds?]
  refine ⟨fun ha hb op hop => ?_, fun ha h => ?_, fun ha hb hc hab hbc => ?_, fun {a b} ha hb => ?_,
    fun {a b c} ha hb hc hab => ?_⟩
  · rw [hanswer ha hb hop, Comparison.holds?_ordered rfl rfl rfl hop]
    exact ⟨_, rfl⟩
  · rw [hlt ha ha, Std.ReflOrd.compare_self] at h
    cases h
  · rw [hlt ha hb] at hab
    rw [hlt hb hc] at hbc
    exact (hlt ha hc).2 (Std.TransCmp.lt_trans hab hbc)
  · rw [hlt ha hb, heq ha hb, hlt hb ha]
    cases h : compare (reading a) (reading b) with
    | lt => exact .inl rfl
    | eq => exact .inr (.inl rfl)
    | gt => exact .inr (.inr (Std.OrientedCmp.lt_of_gt h))
  · rw [heq ha hb] at hab
    have hleft : compare (reading a) (reading c) = compare (reading b) (reading c) :=
      Std.TransCmp.congr_left hab
    have hright : compare (reading c) (reading a) = compare (reading c) (reading b) :=
      Std.TransCmp.congr_right hab
    rw [hlt ha hb, hab, heq ha hc, heq hb hc, hlt ha hc, hlt hb hc, hlt hc ha, hlt hc hb, hleft,
      hright]
    exact ⟨nofun, .rfl, .rfl, .rfl⟩

/-- The value is a string. -/
def IsText (m : Machine) (v : Value) : Prop :=
  (m.heap.text? v).isSome

/-- The value is an integer or a character. -/
def IsNumeral (v : Value) : Prop :=
  v.kind = .int ∨ v.kind = .char

theorem orders_texts (ht : m.types.OnlyStrings) (hroom : m.data.depth + 3 ≤ m.data.capacity) :
    Orders m (IsText m) := by
  have hobj : ∀ a, IsText m a → ∃ o s, a = .obj o ∧ m.heap.object o = .text s := by
    intro a ha
    unfold IsText Heap.text? at ha
    split at ha
    · rename_i o
      split at ha
      · exact ⟨o, _, rfl, ‹_›⟩
      · cases ha
    · cases ha
  refine orders_of_reading ht hroom (fun v => (m.heap.text? v).getD "") (fun a ha => ?_)
    fun a b ha hb => ?_
  · obtain ⟨o, s, rfl, -⟩ := hobj a ha
    nofun
  · obtain ⟨o, s, rfl, ho⟩ := hobj a ha
    obtain ⟨o', t, rfl, ho'⟩ := hobj b hb
    have hh : handler? m (.obj o) (.obj o') = some .strings := by
      have hstrings : m.types.handler? .string = some .strings := (ht _).trans (if_pos rfl)
      simp only [handler?, handlerOf?, ho, Obj.type, hstrings, Option.some_or]
    have hs : m.heap.text? (.obj o) = some s := by simp only [Heap.text?, ho]
    have ht : m.heap.text? (.obj o') = some t := by simp only [Heap.text?, ho']
    rw [comparison, hh]
    simp only [Option.isSome_some, if_true, Heap.stringComparison, hs, ht, Option.getD_some]

theorem orders_numerals (ht : m.types.OnlyStrings) (hroom : m.data.depth + 3 ≤ m.data.capacity) :
    Orders m IsNumeral := by
  refine orders_of_reading ht hroom (fun v => v.toInt.toOption.getD 0)
    (fun a ha hf => ?_) fun a b ha hb => ?_
  · rcases ha with ha | ha <;> rw [ha] at hf <;> cases hf
  · cases a with
    | int | char =>
      cases b with
      | int | char => rfl
      | _ => rcases hb with hb | hb <;> cases hb
    | _ => rcases ha with ha | ha <;> cases ha

/-- **Comparisons are coherent.**  As long as strings are the only objects with a handler and there
    is room for it, the comparisons of any two values that are not floats agree with each other;
    strings, and integers with characters, are ordered by them; and an operator that succeeds
    leaves nothing on the data stack and changes nothing there. -/
theorem comparisons_coherent (ht : m.types.OnlyStrings)
    (hroom : m.data.depth + 3 ≤ m.data.capacity) :
    (∀ a b : Value, a.kind ≠ .float → b.kind ≠ .float → Coherent m a b) ∧
    Orders m (IsText m) ∧ Orders m IsNumeral ∧
    ∀ a b op d m', dispatch a b op m = .ok d m' → (∃ v, d = .done v) ∧ m'.data = m.data := by
  refine ⟨fun a b ha hb => coherent ht hroom ha hb, orders_texts ht hroom, orders_numerals ht hroom,
    fun a b op d m' h => ?_⟩
  obtain ⟨v, heap, hd, hm⟩ := (dispatch_cases ht hroom a b op).2 d m' h
  exact ⟨⟨v, hd⟩, hm ▸ rfl⟩

theorem initialTypes_onlyStrings : Machine.initialTypes.OnlyStrings := by
  have hvalues : ∀ e ∈ Machine.initialTypes.values.toList, e.handler? = none := by decide +kernel
  have hlist : Machine.initialTypes.objects.toList.map TypeEntry.handler? =
      [some .strings, none] := by decide +kernel
  have hobjects : ∀ i, Machine.initialTypes.objects[i]?.bind TypeEntry.handler? =
      if i = 0 then some .strings else none := by
    intro i
    have hi := congrArg (·[i]?) hlist
    simp only [List.getElem?_map, Array.getElem?_toList] at hi
    refine (Option.bind_map (f := TypeEntry.handler?) (g := id)).symm.trans ?_
    rw [hi]
    match i with
    | 0 | 1 | _ + 2 => rfl
  have husers : Machine.initialTypes.users = #[] := by decide +kernel
  intro id
  have hbase : id.base = TypeId.string.base ↔ id.base.toNat = TypeId.objectMin :=
    UInt16.toNat_inj.symm
  simp only [Types.handler?, Types.get?, hbase]
  by_cases hlow : id.base.toNat < TypeId.objectMin
  · rw [if_pos hlow, if_neg (Nat.ne_of_lt hlow)]
    cases he : Machine.initialTypes.values[id.base.toNat]? with
    | none => rfl
    | some e => exact hvalues e (Array.mem_toList_iff.2 (Array.mem_of_getElem? he))
  · rw [if_neg hlow]
    split
    · have hfirst : id.base.toNat - TypeId.objectMin = 0 ↔ id.base.toNat = TypeId.objectMin := by
        omega
      simp only [hobjects, hfirst]
    · rename_i hhigh
      have hlt : TypeId.objectMin < TypeId.userMin := by decide
      rw [husers, if_neg (by omega), Array.getElem?_empty, Option.bind_none]

/-- A machine with two strings and an array. -/
def strings : Machine :=
  { Machine.empty {} with heap := ⟨#[], #[.text "ab", .text "b", .ofItems #[]]⟩ }

/-- Two strings, and a string and an array. -/
theorem comparisons_coherent_of_strings :
    (strings.types.OnlyStrings ∧ strings.data.depth + 3 ≤ strings.data.capacity) ∧
    ¬ Holds strings .lt (.obj ⟨0⟩) (.obj ⟨0⟩) ∧
    Coherent strings (.obj ⟨2⟩) (.obj ⟨1⟩) := by
  have ht : strings.types.OnlyStrings := initialTypes_onlyStrings
  have hroom : strings.data.depth + 3 ≤ strings.data.capacity := by decide
  have h := comparisons_coherent ht hroom
  exact ⟨⟨ht, hroom⟩, h.2.1.irrefl rfl, h.1 _ _ nofun nofun⟩

end Operator
end ThreadedForth
