/-
  The grammar of numbers, and the readers that take exactly its texts.
-/
import Mathlib.Data.List.Induction
import Mathlib.Tactic.IntervalCases
import ThreadedForth.Proofs.Runs

namespace ThreadedForth
namespace Literal

/-! ## The grammar -/

/-- One or more decimal digits, and the number they stand for. -/
inductive Numeral : List Char → Nat → Prop
  | digit {d : Nat} (hd : d < 10) : Numeral [d.digitChar] d
  | snoc {cs : List Char} {n d : Nat} (h : Numeral cs n) (hd : d < 10) :
      Numeral (cs ++ [d.digitChar]) (10 * n + d)

/-- An optional sign, and whether it is negative. -/
inductive Sign : List Char → Bool → Prop
  | none : Sign [] false
  | plus : Sign ['+'] false
  | minus : Sign ['-'] true

/-- An optional sign with digits, and the integer they stand for. -/
inductive IntegerForm : List Char → Int → Prop
  | intro {s cs : List Char} {negative : Bool} {n : Nat} (hs : Sign s negative) (hn : Numeral cs n) :
      IntegerForm (s ++ cs) (if negative then -n else n)

/-- Digits with an optional fraction, at least one digit before or after the point. -/
inductive Mantissa : List Char → List Char → List Char → Prop
  | whole {w : List Char} (hw : ∀ c ∈ w, c.isDigit) (hne : w ≠ []) : Mantissa w w []
  | pointed {w f : List Char} (hw : ∀ c ∈ w, c.isDigit) (hf : ∀ c ∈ f, c.isDigit)
      (hne : w ≠ [] ∨ f ≠ []) : Mantissa (w ++ '.' :: f) w f

/-- An optional exponent: a letter, an optional sign and digits. -/
inductive Exponent : List Char → Int → Prop
  | none : Exponent [] 0
  | some {c : Char} {cs : List Char} {n : Int} (hc : c = 'e' ∨ c = 'E') (h : IntegerForm cs n) :
      Exponent (c :: cs) n

/-- An optional sign, digits with an optional fraction and an optional exponent. -/
inductive DecimalForm : List Char → Parts → Prop
  | intro {s m x w f : List Char} {negative : Bool} {e : Int} (hs : Sign s negative)
      (hm : Mantissa m w f) (he : Exponent x e) : DecimalForm (s ++ m ++ x) ⟨negative, w, f, e⟩

/-- A decimal that holds a point or an exponent. -/
structure FloatForm (cs : List Char) (p : Parts) : Prop where
  decimal : DecimalForm cs p
  shown : '.' ∈ cs ∨ 'e' ∈ cs ∨ 'E' ∈ cs

variable {cs : List Char}

/-! ## Digits and signs -/

theorem digitsValue_snoc (cs : List Char) (c : Char) :
    digitsValue (cs ++ [c]) = 10 * digitsValue cs + (c.toNat - '0'.toNat) := by
  simp only [digitsValue, List.foldl_append, List.foldl_cons, List.foldl_nil, Nat.mul_comm]

theorem isDigits_iff : isDigits cs = true ↔ cs ≠ [] ∧ ∀ c ∈ cs, c.isDigit = true := by
  simp [isDigits]

theorem toNat_digitChar {d : Nat} (hd : d < 10) : d.digitChar.toNat - '0'.toNat = d := by
  interval_cases d <;> rfl

theorem exists_digit {c : Char} (hc : c.isDigit = true) : ∃ d < 10, c = d.digitChar := by
  obtain ⟨hlow, hhigh⟩ : 48 ≤ c.toNat ∧ c.toNat ≤ 57 := by
    simpa [Char.isDigit, UInt32.le_iff_toNat_le] using hc
  refine ⟨c.toNat - 48, by omega, Char.ext (UInt32.toNat_inj.1 ?_)⟩
  show c.toNat = _
  interval_cases c.toNat <;> rfl

theorem Numeral.digits {n : Nat} (h : Numeral cs n) :
    (cs ≠ [] ∧ ∀ c ∈ cs, c.isDigit = true) ∧ digitsValue cs = n := by
  induction h with
  | digit hd => simpa [digitsValue, Nat.isDigit_digitChar, hd] using toNat_digitChar hd
  | snoc h hd ih =>
    refine ⟨⟨by simp, fun c hc => ?_⟩, ?_⟩
    · rcases List.mem_append.1 hc with hc | hc
      · exact ih.1.2 c hc
      · simp [List.mem_singleton.1 hc, Nat.isDigit_digitChar, hd]
    · rw [digitsValue_snoc, ih.2, toNat_digitChar hd]

/-- Digits stand for the number that they are read as. -/
theorem numeral_digitsValue (hne : cs ≠ []) (hd : ∀ c ∈ cs, c.isDigit = true) :
    Numeral cs (digitsValue cs) := by
  induction cs using List.reverseRecOn with
  | nil => exact absurd rfl hne
  | append_singleton cs c ih =>
    obtain ⟨d, hlt, rfl⟩ := exists_digit (hd c (by simp))
    rw [digitsValue_snoc, toNat_digitChar hlt]
    by_cases hcs : cs = []
    · subst hcs
      simpa [digitsValue] using Numeral.digit hlt
    · exact .snoc (ih hcs fun c hc => hd c (by simp [hc])) hlt

theorem numeral_iff {n : Nat} : Numeral cs n ↔ isDigits cs = true ∧ digitsValue cs = n := by
  rw [isDigits_iff]
  constructor
  · exact Numeral.digits
  · rintro ⟨⟨hne, hd⟩, rfl⟩
    exact numeral_digitsValue hne hd

/-- The start of what follows a sign: a digit or a point. -/
def Starts (cs : List Char) : Prop :=
  ∃ c ∈ cs.head?, c.isDigit = true ∨ c = '.'

theorem Starts.append (h : Starts cs) (ds : List Char) : Starts (cs ++ ds) := by
  obtain ⟨c, hc, hd⟩ := h
  exact ⟨c, by rw [List.head?_append, hc]; rfl, hd⟩

theorem Numeral.starts {n : Nat} (h : Numeral cs n) : Starts cs := by
  obtain ⟨⟨hne, hd⟩, -⟩ := h.digits
  cases cs with
  | nil => exact absurd rfl hne
  | cons c cs => exact ⟨c, rfl, .inl (hd c List.mem_cons_self)⟩

theorem Mantissa.starts {w f : List Char} (h : Mantissa cs w f) : Starts cs := by
  cases h with
  | whole hw hne =>
    cases cs with
    | nil => exact absurd rfl hne
    | cons c cs => exact ⟨c, rfl, .inl (hw c List.mem_cons_self)⟩
  | pointed hw =>
    cases w with
    | nil => exact ⟨'.', rfl, .inr rfl⟩
    | cons c w => exact ⟨c, rfl, .inl (hw c List.mem_cons_self)⟩

theorem splitSign_append {s : List Char} {negative : Bool} (hs : Sign s negative)
    (h : ∀ c ∈ cs.head?, c ≠ '+' ∧ c ≠ '-') : splitSign (s ++ cs) = (negative, cs) := by
  cases hs with
  | plus | minus => rfl
  | none =>
    cases cs with
    | nil => rfl
    | cons c cs =>
      obtain ⟨hp, hm⟩ := h c rfl
      rw [List.nil_append, splitSign]
      · intro ds hds; exact hm (List.cons.inj hds).1
      · intro ds hds; exact hp (List.cons.inj hds).1

theorem Starts.splitSign (h : Starts cs) {s : List Char} {negative : Bool} (hs : Sign s negative) :
    splitSign (s ++ cs) = (negative, cs) := by
  obtain ⟨c, hc, hd⟩ := h
  refine splitSign_append hs fun d hd' => ?_
  obtain rfl : d = c := Option.some.inj (Option.mem_def.1 hd' |>.symm.trans hc)
  rcases hd with hd | rfl
  · constructor <;> rintro rfl <;> cases hd
  · decide

theorem sign_splitSign (cs : List Char) :
    ∃ s, Sign s (splitSign cs).1 ∧ cs = s ++ (splitSign cs).2 := by
  unfold Literal.splitSign
  split
  · exact ⟨['-'], .minus, rfl⟩
  · exact ⟨['+'], .plus, rfl⟩
  · exact ⟨[], .none, rfl⟩

/-! ## Integers -/

theorem IntegerForm.starts {n : Int} (h : IntegerForm cs n) : Starts (splitSign cs).2 := by
  obtain ⟨hs, hn⟩ := h
  rw [hn.starts.splitSign hs]
  exact hn.starts

/-- What the readers of integers and of exponents look at. -/
theorem integerForm_iff {n : Int} : IntegerForm cs n ↔ isDigits (splitSign cs).2 = true ∧
    n = if (splitSign cs).1 then -(digitsValue (splitSign cs).2 : Int)
      else digitsValue (splitSign cs).2 := by
  constructor
  · rintro ⟨hs, hn⟩
    rw [hn.starts.splitSign hs]
    obtain ⟨hd, rfl⟩ := numeral_iff.1 hn
    exact ⟨hd, rfl⟩
  · rintro ⟨hd, rfl⟩
    obtain ⟨s, hs, hcs⟩ := sign_splitSign cs
    have := IntegerForm.intro hs (numeral_iff.2 ⟨hd, rfl⟩)
    rwa [← hcs] at this

/-- The reader of integers takes exactly the integers in range. -/
theorem integer?_eq_some_iff {n : Int64} : integer? cs = some n ↔ IntegerForm cs n.toInt := by
  rw [integerForm_iff, integer?]
  dsimp only
  cases hd : isDigits (splitSign cs).2 with
  | false => simp
  | true =>
    rw [if_pos rfl]
    generalize (if (splitSign cs).1 = true then -(digitsValue (splitSign cs).2 : Int)
      else digitsValue (splitSign cs).2) = k
    split
    · rename_i hk
      have hback : (Int64.ofInt k).toInt = k :=
        Int64.toInt_ofInt_of_le hk.1 (Int.lt_add_one_of_le hk.2)
      constructor
      · intro h
        rw [← Option.some.inj h]
        exact ⟨rfl, hback⟩
      · rintro ⟨-, rfl⟩
        rw [Int64.ofInt_toInt]
    · rename_i hk
      refine ⟨nofun, ?_⟩
      rintro ⟨-, rfl⟩
      exact absurd ⟨n.minValue_le_toInt, n.toInt_le⟩ hk

/-! ## Decimals -/

theorem exponent?_eq_some_iff {n : Int} : exponent? cs = some n ↔ Exponent cs n := by
  cases cs with
  | nil =>
    constructor
    · rintro ⟨⟩
      exact .none
    · rintro ⟨⟩
      rfl
  | cons c cs =>
    have hform := @integerForm_iff cs n
    rw [exponent?]
    dsimp only
    constructor
    · intro h
      split at h <;> rename_i hc
      · split at h <;> rename_i hd
        · exact .some (by simpa using hc) (hform.2 ⟨hd, (Option.some.inj h).symm⟩)
        · cases h
      · cases h
    · rintro (_ | ⟨hc, h⟩)
      obtain ⟨hd, hn⟩ := hform.1 h
      rw [if_pos (by simpa using hc), if_pos hd, hn]

/-- The digits after a point, and what follows them; without a point there are none. -/
def fraction : List Char → List Char × List Char
  | '.' :: cs => (cs.takeWhile Char.isDigit, cs.dropWhile Char.isDigit)
  | cs => ([], cs)

theorem fraction_of_not_point (h : ∀ c ∈ cs.head?, c ≠ '.') : fraction cs = ([], cs) := by
  unfold fraction
  split
  · exact absurd rfl (h '.' rfl)
  · rfl

/-- A text cut behind its first digits, and behind the point and the digits that follow them. -/
def cut (cs : List Char) : List Char × List Char × List Char :=
  (cs.takeWhile Char.isDigit, fraction (cs.dropWhile Char.isDigit))

theorem parts?_eq (cs : List Char) : parts? cs =
    if (cut (splitSign cs).2).1.isEmpty && (cut (splitSign cs).2).2.1.isEmpty then none
    else (exponent? (cut (splitSign cs).2).2.2).map
      (Parts.mk (splitSign cs).1 (cut (splitSign cs).2).1 (cut (splitSign cs).2).2.1) := rfl

theorem takeWhile_append_of_stop {p : Char → Bool} {xs ys : List Char} (hx : ∀ c ∈ xs, p c = true)
    (hy : ∀ c ∈ ys.head?, p c = false) :
    (xs ++ ys).takeWhile p = xs ∧ (xs ++ ys).dropWhile p = ys := by
  rw [List.takeWhile_append_of_pos hx, List.dropWhile_append_of_pos hx]
  cases ys with
  | nil => simp
  | cons c ys => simp [hy c rfl]

theorem Exponent.head {n : Int} (h : Exponent cs n) :
    ∀ c ∈ cs.head?, c.isDigit = false ∧ c ≠ '.' := by
  cases h with
  | none => nofun
  | some hc =>
    rintro c ⟨⟩
    rcases hc with rfl | rfl <;> decide

/-- A mantissa ends where its exponent begins. -/
theorem Mantissa.cut {m w f x : List Char} {e : Int} (hm : Mantissa m w f) (hx : Exponent x e) :
    Literal.cut (m ++ x) = (w, f, x) := by
  have hstop : ∀ c ∈ x.head?, c.isDigit = false := fun c hc => (hx.head c hc).1
  cases hm with
  | whole hw =>
    obtain ⟨ht, hd⟩ := takeWhile_append_of_stop hw hstop
    rw [Literal.cut, ht, hd, fraction_of_not_point fun c hc => (hx.head c hc).2]
  | pointed hw hf =>
    have hpoint : ∀ c ∈ ('.' :: (f ++ x)).head?, c.isDigit = false := by
      rintro c ⟨⟩
      rfl
    obtain ⟨ht, hd⟩ := takeWhile_append_of_stop hw hpoint
    obtain ⟨ht', hd'⟩ := takeWhile_append_of_stop hf hstop
    rw [Literal.cut, List.append_assoc, List.cons_append, ht, hd, fraction, ht', hd']

theorem isDigit_of_mem_takeWhile {c : Char} (h : c ∈ cs.takeWhile Char.isDigit) :
    c.isDigit = true :=
  List.all_eq_true.1 List.all_takeWhile c h

theorem exists_mantissa (h : (cut cs).1 ≠ [] ∨ (cut cs).2.1 ≠ []) :
    ∃ m, Mantissa m (cut cs).1 (cut cs).2.1 ∧ cs = m ++ (cut cs).2.2 := by
  have hcs := List.takeWhile_append_dropWhile (p := Char.isDigit) (l := cs)
  unfold cut at h ⊢
  generalize cs.dropWhile Char.isDigit = rest at h hcs ⊢
  by_cases hrest : ∃ tail, rest = '.' :: tail
  · obtain ⟨tail, rfl⟩ := hrest
    refine ⟨_, .pointed (fun _ => isDigit_of_mem_takeWhile) (fun _ => isDigit_of_mem_takeWhile) h, ?_⟩
    show cs = _ ++ '.' :: tail.takeWhile Char.isDigit ++ tail.dropWhile Char.isDigit
    rw [List.append_assoc, List.cons_append, List.takeWhile_append_dropWhile, hcs]
  · rw [fraction_of_not_point] at h ⊢
    · exact ⟨_, .whole (fun _ => isDigit_of_mem_takeWhile) (h.resolve_right (· rfl)), hcs.symm⟩
    all_goals
      intro c hc hpoint
      cases rest with
      | nil => cases hc
      | cons d tail => cases hc; exact hrest ⟨tail, by rw [hpoint]⟩

theorem DecimalForm.starts {p : Parts} (h : DecimalForm cs p) : Starts (splitSign cs).2 := by
  obtain ⟨hs, hm, -⟩ := h
  rw [List.append_assoc, (hm.starts.append _).splitSign hs]
  exact hm.starts.append _

/-- The reader of decimals takes exactly the decimals. -/
theorem parts?_eq_some_iff {p : Parts} : parts? cs = some p ↔ DecimalForm cs p := by
  rw [parts?_eq]
  constructor
  · intro h
    split at h <;> rename_i hne
    · cases h
    · obtain ⟨e, he, rfl⟩ := Option.map_eq_some_iff.1 h
      obtain ⟨s, hs, hcs⟩ := sign_splitSign cs
      obtain ⟨m, hm, hbody⟩ := @exists_mantissa (splitSign cs).2
        (by simpa [Decidable.or_iff_not_imp_left] using hne)
      have := DecimalForm.intro hs hm (exponent?_eq_some_iff.1 he)
      rwa [List.append_assoc, ← hbody, ← hcs] at this
  · rintro ⟨hs, hm, he⟩
    rw [List.append_assoc, (hm.starts.append _).splitSign hs]
    simp only [hm.cut he, exponent?_eq_some_iff.2 he, Option.map_some]
    rw [if_neg]
    cases hm with
    | whole _ hne => simp [hne]
    | pointed _ _ hne => simpa [Decidable.or_iff_not_imp_left] using hne

/-! ## Floats -/

theorem DecimalForm.looksFloat {p : Parts} (h : DecimalForm cs p)
    (hshown : '.' ∈ cs ∨ 'e' ∈ cs ∨ 'E' ∈ cs) : looksFloat cs = true := by
  have hmark : (cs.any fun c => c == '.' || c == 'e' || c == 'E') = true := by
    simp only [List.any_eq_true, Bool.or_eq_true, beq_iff_eq]
    rcases hshown with h | h | h
    · exact ⟨_, h, .inl (.inl rfl)⟩
    · exact ⟨_, h, .inl (.inr rfl)⟩
    · exact ⟨_, h, .inr rfl⟩
  rw [Literal.looksFloat, hmark, Bool.and_true]
  obtain ⟨hs, hm, he⟩ := h
  rw [List.append_assoc]
  cases hs with
  | plus | minus => rfl
  | none =>
    obtain ⟨c, hc, hstart⟩ := hm.starts.append _
    rw [List.nil_append, Option.mem_def.1 hc]
    rcases hstart with hd | rfl
    · simp [hd]
    · rfl

/-- The reader of floats takes exactly the decimals with a point or an exponent. -/
theorem float?_eq_some_iff {x : Float} :
    float? cs = some x ↔ ∃ p, FloatForm cs p ∧ p.value = x := by
  constructor
  · intro h
    unfold float? at h
    split at h <;> rename_i hlooks
    · obtain ⟨p, hp, hx⟩ := Option.map_eq_some_iff.1 h
      rw [looksFloat, Bool.and_eq_true, List.any_eq_true] at hlooks
      obtain ⟨-, c, hc, hmark⟩ := hlooks
      refine ⟨p, ⟨parts?_eq_some_iff.1 hp, ?_⟩, hx⟩
      simp only [Bool.or_eq_true, beq_iff_eq] at hmark
      rcases hmark with (rfl | rfl) | rfl
      · exact .inl hc
      · exact .inr (.inl hc)
      · exact .inr (.inr hc)
    · cases h
  · rintro ⟨p, ⟨hp, hshown⟩, rfl⟩
    rw [float?, if_pos (hp.looksFloat hshown), parts?_eq_some_iff.2 hp]
    rfl

/-! ## Numbers -/

theorem IntegerForm.mem {n : Int} (h : IntegerForm cs n) {c : Char} (hc : c ∈ cs) :
    c.isDigit = true ∨ c = '+' ∨ c = '-' := by
  obtain ⟨hs, hn⟩ := h
  rcases List.mem_append.1 hc with hc | hc
  · cases hs with
    | none => cases hc
    | plus => exact .inr (.inl (List.mem_singleton.1 hc))
    | minus => exact .inr (.inr (List.mem_singleton.1 hc))
  · exact .inl (hn.digits.1.2 c hc)

/-- No token has both forms. -/
theorem IntegerForm.not_floatForm {n : Int} (h : IntegerForm cs n) (p : Parts) :
    ¬ FloatForm cs p := by
  rintro ⟨-, hc | hc | hc⟩
  all_goals exact absurd (h.mem hc) (by decide)

theorem integer?_of_floatForm {p : Parts} (h : FloatForm cs p) : integer? cs = none := by
  cases hi : integer? cs with
  | none => rfl
  | some n => exact absurd h ((integer?_eq_some_iff.1 hi).not_floatForm p)

theorem number?_eq_int_iff {token : String} {n : Int64} :
    number? token = some (.int n) ↔ IntegerForm token.toList n.toInt := by
  rw [← integer?_eq_some_iff, number?]
  cases integer? token.toList <;> simp

theorem number?_eq_float_iff {token : String} {x : Float} :
    number? token = some (.float x) ↔ ∃ p, FloatForm token.toList p ∧ p.value = x := by
  rw [← float?_eq_some_iff, number?]
  constructor
  · intro h
    cases hi : integer? token.toList with
    | none => simpa [hi] using h
    | some n => simp [hi] at h
  · intro h
    obtain ⟨p, hp, -⟩ := float?_eq_some_iff.1 h
    simp [integer?_of_floatForm hp, h]

theorem number?_eq_none_iff {token : String} : number? token = none ↔
    (∀ n, IntegerForm token.toList n → n < -2 ^ 63 ∨ 2 ^ 63 ≤ n) ∧
      ∀ p, ¬ FloatForm token.toList p := by
  constructor
  · intro h
    refine ⟨fun n hn => ?_, fun p hp => ?_⟩
    · by_contra hrange
      have hback : (Int64.ofInt n).toInt = n := Int64.toInt_ofInt_of_le (by omega) (by omega)
      rw [number?_eq_int_iff.2 (hback.symm ▸ hn)] at h
      cases h
    · rw [number?_eq_float_iff.2 ⟨p, hp, rfl⟩] at h
      cases h
  · rintro ⟨hint, hfloat⟩
    cases hk : number? token with
    | none => rfl
    | some k =>
      cases k with
      | int n =>
        have hlow := n.le_toInt
        have hhigh := n.toInt_lt
        have := hint _ (number?_eq_int_iff.1 hk)
        omega
      | float x =>
        obtain ⟨p, hp, -⟩ := number?_eq_float_iff.1 hk
        exact absurd hp (hfloat p)

/-- Integers out of range are no numbers, and no floats either. -/
theorem number?_of_out_of_range {token : String} {n : Int} (h : IntegerForm token.toList n)
    (hn : ¬ (-2 ^ 63 ≤ n ∧ n < 2 ^ 63)) : number? token = none := by
  refine number?_eq_none_iff.2 ⟨fun k hk => ?_, h.not_floatForm⟩
  have hkn : k = n := (integerForm_iff.1 hk).2.trans (integerForm_iff.1 h).2.symm
  omega

/-- A number goes on after its sign with a digit or a point. -/
theorem number?_of_other_start {s w : List Char} {negative : Bool} (hs : Sign s negative)
    (hw : ∀ c ∈ w.head?, c.isDigit = false ∧ c ≠ '.' ∧ c ≠ '+' ∧ c ≠ '-') :
    number? (String.ofList (s ++ w)) = none := by
  have hsplit : splitSign (s ++ w) = (negative, w) := splitSign_append hs fun c hc => (hw c hc).2.2
  have hstart : ¬ Starts (splitSign (s ++ w)).2 := by
    rw [hsplit]
    rintro ⟨c, hc, hd | hd⟩
    · rw [(hw c hc).1] at hd
      cases hd
    · exact (hw c hc).2.1 hd
  rw [number?_eq_none_iff, String.toList_ofList]
  exact ⟨fun n hn => absurd hn.starts hstart, fun p hp => hstart hp.decimal.starts⟩

theorem toLower_of_le {c : Char} (h : c.toNat ≤ 57) : c.toLower = c := by
  have hupper : ¬ ('A'.val ≤ c.val ∧ c.val ≤ 'Z'.val) := by
    intro hc
    have : 65 ≤ c.toNat := hc.1
    omega
  unfold Char.toLower
  split
  · rename_i hc
    exact absurd (by simpa using hc) hupper
  · rfl

/-- What other notations have for floats that are no numbers are words, however they are spelt. -/
theorem number?_of_name {s w : List Char} {negative : Bool} (hs : Sign s negative)
    (hw : foldCase (String.ofList w) ∈ ["inf", "infinity", "nan"]) :
    number? (String.ofList (s ++ w)) = none := by
  refine number?_of_other_start hs fun c hc => ?_
  have hlower : c.toLower = 'i' ∨ c.toLower = 'n' := by
    have hhead : (foldCase (String.ofList w)).toList.head? = some c.toLower := by
      rw [foldCase, String.toList_ofList, String.toList_ofList, List.head?_map,
        Option.mem_def.1 hc]
      rfl
    simp only [List.mem_cons, List.not_mem_nil, or_false] at hw
    rcases hw with hw | hw | hw
    all_goals
      rw [hw] at hhead
      have := (Option.some.inj hhead).symm
    · exact .inl this
    · exact .inl this
    · exact .inr this
  -- A digit, a point and a sign are no letters.
  have hlarge : 57 < c.toNat := by
    by_contra hle
    rw [toLower_of_le (Nat.le_of_not_lt hle)] at hlower
    rcases hlower with rfl | rfl <;> exact hle (by decide)
  refine ⟨?_, ?_, ?_, ?_⟩
  · by_contra hd
    obtain ⟨d, hd, rfl⟩ := exists_digit (by simpa using hd)
    interval_cases d <;> revert hlarge <;> decide
  all_goals
    rintro rfl
    revert hlarge
    decide

/-! ## Texts of integers -/

theorem numeral_toDigits (n : Nat) : Numeral (Nat.toDigits 10 n) n := by
  refine numeral_iff.2 ⟨isDigits_iff.2 ⟨Nat.toDigits_ne_nil, fun c => ?_⟩, ?_⟩
  · exact Nat.isDigit_of_mem_toDigits (by decide) (by decide)
  · have := Nat.ofDigitChars_toDigits (n := n) (b := 10) (by decide) (by decide)
    simpa [digitsValue, Nat.ofDigitChars, Nat.mul_comm] using this

theorem integerForm_toString (n : Int) : IntegerForm (toString n).toList n := by
  show IntegerForm n.repr.toList n
  rw [Int.repr_eq_if]
  split
  · have hn : (n.toNat : Int) = n := by omega
    have := IntegerForm.intro .none (numeral_toDigits n.toNat)
    rwa [if_neg (by decide), hn, ← Nat.toList_repr] at this
  · have hn : -((-n).toNat : Int) = n := by omega
    have := IntegerForm.intro .minus (numeral_toDigits (-n).toNat)
    rwa [if_pos rfl, hn, ← Nat.toList_repr, ← String.toList_ofList (l := ['-']),
      ← String.toList_append] at this

/-- The text of an integer is read as the integer. -/
theorem number?_display (h : Heap) (n : Int64) : number? (h.display (.int n)) = some (.int n) := by
  have htext : h.display (.int n) = toString n.toInt := by
    unfold Heap.display
    cases h.objects.size <;> simp [Heap.walk, Heap.leaf, Heap.putAll]
  rw [htext, number?_eq_int_iff]
  exact integerForm_toString n.toInt

/-! ## Tokens -/

/-- What a token stands for as a number, by its form. -/
structure ReadByForm (token : String) : Prop where
  /-- An integer is in the form of one, and in range. -/
  int : ∀ n : Int64, number? token = some (.int n) ↔ IntegerForm token.toList n.toInt
  /-- A float is in the form of one. -/
  float : ∀ x, number? token = some (.float x) ↔ ∃ p, FloatForm token.toList p ∧ p.value = x
  /-- Every other token is no number. -/
  other : number? token = none ↔
    (∀ n, IntegerForm token.toList n → n < -2 ^ 63 ∨ 2 ^ 63 ≤ n) ∧ ∀ p, ¬ FloatForm token.toList p
  /-- Among them are the integers out of range. -/
  outOfRange : ∀ n, IntegerForm token.toList n → ¬ (-2 ^ 63 ≤ n ∧ n < 2 ^ 63) → number? token = none
  /-- Infinities and what is not a number are no numbers, however they are spelt. -/
  name : ∀ s w negative, token.toList = s ++ w → Sign s negative →
    foldCase (String.ofList w) ∈ ["inf", "infinity", "nan"] → number? token = none

theorem readByForm (token : String) : ReadByForm token where
  int _ := number?_eq_int_iff
  float _ := number?_eq_float_iff
  other := number?_eq_none_iff
  outOfRange _ := number?_of_out_of_range
  name s w negative htoken hs hw := by
    have := number?_of_name hs hw
    rwa [← htoken, String.ofList_toList] at this

end Literal

namespace Machine

open Literal

variable {m : Machine} {token : String}

theorem interpretToken_of_unseen (h : m.find? token = none) (fuel : Nat) :
    interpretToken fuel token m = some (interpretNumber token m) := by
  simp only [interpretToken, h]

theorem interpretNumber_of_none (h : number? token = none) :
    interpretNumber token m = .error (.unknownWord token) m := by
  unfold interpretNumber
  rw [h]
  rfl

theorem interpretNumber_of_interpreting {k : Number} (h : number? token = some k)
    (hmode : m.compiler.mode = .interpreting) : interpretNumber token m = M.push k.toValue m := by
  have hget : M.mode m = .ok .interpreting m := by
    rw [← hmode]
    rfl
  unfold interpretNumber
  rw [h]
  exact M.bind_ok hget

/-- **The grammar of numbers.**  A token that names no visible word stands for an integer exactly if
    it is an optional sign with digits, and in range; for a float exactly if it is an optional sign,
    digits with an optional fraction and an optional exponent, and holds a point or an exponent; and
    for no number otherwise: then it is an unknown word, and nothing has changed.  The text of an
    integer stands for that integer. -/
theorem number_grammar (hunseen : m.find? token = none) (fuel : Nat) :
    ReadByForm token ∧
    (number? token = none → interpretToken fuel token m = some (.error (.unknownWord token) m)) ∧
    (∀ k, number? token = some k → m.compiler.mode = .interpreting →
      interpretToken fuel token m = some (M.push k.toValue m)) ∧
    ∀ (h : Heap) (n : Int64), number? (h.display (.int n)) = some (.int n) := by
  rw [interpretToken_of_unseen hunseen]
  exact ⟨readByForm token, fun h => congrArg some (interpretNumber_of_none h),
    fun k h hmode => congrArg some (interpretNumber_of_interpreting h hmode), number?_display⟩

/-- The least integer out of range, with a sign in front, is an unknown word. -/
theorem number_grammar_of_large :
    (ofNames {} []).find? "+9223372036854775808" = none ∧
      interpretToken 0 "+9223372036854775808" (ofNames {} []) =
        some (.error (.unknownWord "+9223372036854775808") (ofNames {} [])) := by
  have hunseen : (ofNames {} []).find? "+9223372036854775808" = none := by decide +kernel
  have hform : IntegerForm "+9223372036854775808".toList (2 ^ 63) :=
    integerForm_iff.2 (by decide +kernel)
  obtain ⟨hread, hunknown, -⟩ := number_grammar hunseen 0
  exact ⟨hunseen, hunknown (hread.outOfRange _ hform (by decide))⟩

end Machine
end ThreadedForth
