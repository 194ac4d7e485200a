/-
  ASCII texts: the texts of numbers, and the places where a text can be cut.
-/
import ThreadedForth.Heap.Display
import ThreadedForth.Output

namespace ThreadedForth

/-- A text of ASCII characters. -/
def AsciiText (s : String) : Prop :=
  ∀ c ∈ s.toList, isAscii c = true

-- The instance is named: a search may also decide this by going over every character there is.
instance (s : String) : Decidable (AsciiText s) :=
  List.decidableBAll (fun c => isAscii c = true) s.toList

theorem isAscii_iff {c : Char} : isAscii c = true ↔ c.toNat < 128 := by
  simp [isAscii]

theorem isAscii_of_isDigit {c : Char} (h : c.isDigit = true) : isAscii c = true := by
  simp only [Char.isDigit, Bool.and_eq_true, decide_eq_true_eq] at h
  have h₂ : c.val.toNat ≤ 57 := UInt32.le_iff_toNat_le.1 h.2
  have h₃ : c.toNat ≤ 57 := h₂
  exact isAscii_iff.2 (by omega)

theorem isAscii_toLower {c : Char} (h : isAscii c = true) : isAscii c.toLower = true := by
  unfold Char.toLower
  split
  · rename_i hc
    have h₁ : c.val.toNat ≤ 90 := UInt32.le_iff_toNat_le.1 hc.2
    have h₂ : (c.val + ('a'.val - 'A'.val)).toNat = c.val.toNat + 32 := by
      rw [UInt32.toNat_add, show ('a'.val - 'A'.val).toNat = 32 from rfl]
      omega
    refine isAscii_iff.2 ?_
    show (c.val + ('a'.val - 'A'.val)).toNat < 128
    omega
  · exact h

theorem isAscii_ofNat {n : Nat} (h : n < 128) : isAscii (Char.ofNat n) = true := by
  have hv : n.isValidChar := .inl (by omega)
  refine isAscii_iff.2 ?_
  rw [Char.ofNat, dif_pos hv]
  show n < 128
  exact h

theorem isAscii_byteChar {b : UInt8} (h : b < 128) : isAscii (byteChar b) = true :=
  isAscii_ofNat (UInt8.lt_iff_toNat_lt.1 h)

namespace AsciiText

theorem ofList {cs : List Char} (h : ∀ c ∈ cs, isAscii c = true) : AsciiText (String.ofList cs) := by
  intro c hc
  rw [String.toList_ofList] at hc
  exact h c hc

theorem append {s t : String} (hs : AsciiText s) (ht : AsciiText t) : AsciiText (s ++ t) := by
  intro c hc
  rw [String.toList_append, List.mem_append] at hc
  rcases hc with hc | hc
  · exact hs c hc
  · exact ht c hc

theorem join {ss : List String} (h : ∀ s ∈ ss, AsciiText s) : AsciiText (String.join ss) := by
  intro c hc
  rw [String.toList_join, List.mem_flatMap] at hc
  obtain ⟨s, hs, hc⟩ := hc
  exact h s hs c hc

theorem intercalate {sep : String} (hsep : AsciiText sep) :
    ∀ {ss : List String}, (∀ s ∈ ss, AsciiText s) → AsciiText (sep.intercalate ss)
  | [], _ => by
    intro c hc
    simp at hc
  | [s], h => by
    intro c hc
    simp only [String.toList_intercalate, List.map_cons, List.map_nil, List.intercalate_singleton]
      at hc
    exact h s List.mem_cons_self c hc
  | s :: t :: ss, h => by
    have ht : AsciiText (sep.intercalate (t :: ss)) :=
      intercalate hsep fun u hu => h u (List.mem_cons_of_mem _ hu)
    intro c hc
    simp only [String.toList_intercalate, List.map_cons, List.intercalate_cons_cons,
      List.mem_append] at hc
    rcases hc with (hc | hc) | hc
    · exact h s List.mem_cons_self c hc
    · exact hsep c hc
    · refine ht c ?_
      simpa only [String.toList_intercalate, List.map_cons] using hc

theorem replicate {c : Char} (h : isAscii c = true) (n : Nat) :
    AsciiText (String.ofList (List.replicate n c)) := by
  refine ofList fun d hd => ?_
  rw [List.eq_of_mem_replicate hd]
  exact h

theorem foldCase {s : String} (h : AsciiText s) : AsciiText (foldCase s) := by
  refine ofList fun c hc => ?_
  obtain ⟨d, hd, rfl⟩ := List.mem_map.1 hc
  exact isAscii_toLower (h d hd)

/-! ## Numbers -/

theorem digits (n : Nat) : ∀ c ∈ Nat.toDigits 10 n, isAscii c = true :=
  fun _ hc => isAscii_of_isDigit (Nat.isDigit_of_mem_toDigits (by decide) (by decide) hc)

theorem nat (n : Nat) : AsciiText (toString n) :=
  ofList (digits n)

theorem int (n : Int) : AsciiText (toString n) := by
  cases n with
  | ofNat n => exact nat n
  | negSucc n => exact append (s := "-") (by decide) (nat _)

theorem zeros (n : Nat) : ∀ s ∈ FloatText.zeros n, AsciiText s := by
  intro s hs
  unfold FloatText.zeros at hs
  rcases List.mem_append.1 hs with hs | hs
  · rw [List.eq_of_mem_replicate hs]
    exact replicate (by decide) _
  · split at hs
    · cases hs
    · rw [List.mem_singleton.1 hs]
      exact replicate (by decide) _

theorem sign (negative : Bool) : ∀ s ∈ FloatText.sign negative, AsciiText s := by
  cases negative <;> decide

theorem positional {digits : List Char} (h : ∀ c ∈ digits, isAscii c = true) (k : Int) :
    ∀ s ∈ FloatText.positional digits k, AsciiText s := by
  intro s hs
  unfold FloatText.positional at hs
  split at hs
  · simp only [List.mem_append, List.mem_singleton] at hs
    rcases hs with (rfl | hs) | rfl
    · decide
    · exact zeros _ s hs
    · exact ofList h
  · split at hs
    · simp only [List.mem_cons, List.not_mem_nil, or_false] at hs
      rcases hs with rfl | rfl | rfl
      · exact ofList fun c hc => h c (List.mem_of_mem_take hc)
      · decide
      · exact ofList fun c hc => h c (List.mem_of_mem_drop hc)
    · rcases List.mem_append.1 hs with hs | hs
      · rw [List.mem_singleton.1 hs]
        exact ofList h
      · exact zeros _ s hs

theorem normal (d : Shortest.Decimal) : ∀ c ∈ d.normal.1, isAscii c = true := by
  intro c hc
  refine digits d.digits c ?_
  exact List.mem_reverse.1 ((List.dropWhile_suffix _).subset (List.mem_reverse.1 hc))

theorem plain (x : Float) : ∀ s ∈ FloatText.plain x, AsciiText s := by
  intro s hs
  unfold FloatText.plain at hs
  split at hs
  · rw [List.mem_singleton.1 hs]
    decide
  · rcases List.mem_append.1 hs with hs | hs
    · exact sign _ s hs
    · rw [List.mem_singleton.1 hs]
      decide
  · rcases List.mem_append.1 hs with hs | hs
    · exact sign _ s hs
    · rw [List.mem_singleton.1 hs]
      decide
  · rcases List.mem_append.1 hs with hs | hs
    · exact sign _ s hs
    · exact positional (normal _) _ s hs

theorem shown (x : Float) : ∀ s ∈ FloatText.shown x, AsciiText s := by
  intro s hs
  unfold FloatText.shown at hs
  split at hs
  · rcases List.mem_append.1 hs with hs | hs
    · exact sign _ s hs
    · simp only [List.mem_cons, List.not_mem_nil, or_false] at hs
      rcases hs with rfl | rfl <;> decide
  · split at hs
    · rcases List.mem_append.1 hs with hs | hs
      · exact sign _ s hs
      · simp only [List.mem_cons, List.not_mem_nil, or_false] at hs
        rcases hs with rfl | rfl | rfl
        · exact ofList (digits _)
        · decide
        · decide
    · exact plain x s hs
  · exact plain x s hs

theorem symbol (op : Operator) : AsciiText op.symbol := by
  cases op <;> decide

theorem boolText (b : Bool) : AsciiText (boolText b) := by
  cases b <;> decide

end AsciiText

/-! ## Bytes -/

namespace Utf8

variable {cs : List Char} {c : Char}

theorem utf8Size_eq_one_iff : c.utf8Size = 1 ↔ isAscii c = true := by
  rw [Char.utf8Size_eq_one_iff, isAscii_iff, UInt32.le_iff_toNat_le]
  show c.toNat ≤ 127 ↔ _
  omega

theorem size_toList (s : String) : size s.toList = s.utf8ByteSize := by
  have h : ∀ cs : List Char, size cs = cs.utf8Encode.size := by
    intro cs
    induction cs with
    | nil => rfl
    | cons c cs ih =>
      rw [List.utf8Encode_cons, ByteArray.size_append, ← ih]
      simp [size, List.utf8Encode]
  rw [h, String.utf8Encode_toList]
  rfl

theorem size_of_ascii (h : ∀ c ∈ cs, isAscii c = true) : size cs = cs.length := by
  induction cs with
  | nil => rfl
  | cons c cs ih =>
    have hc := utf8Size_eq_one_iff.2 (h c List.mem_cons_self)
    have hcs := ih fun d hd => h d (List.mem_cons_of_mem _ hd)
    simp only [size, List.foldr_cons, List.length_cons] at hcs ⊢
    omega

theorem utf8Size_le (h : c ∈ cs) : c.utf8Size ≤ size cs := by
  induction cs with
  | nil => cases h
  | cons d cs ih =>
    simp only [size, List.foldr_cons] at ih ⊢
    rcases List.mem_cons.1 h with rfl | h
    · exact Nat.le_add_right _ _
    · have := ih h
      omega

/-- ASCII characters can be cut at every byte. -/
theorem splitBytes?_ascii {n : Nat} (h : ∀ c ∈ cs, isAscii c = true) (hn : n ≤ cs.length) :
    splitBytes? n cs = some (cs.take n, cs.drop n) := by
  induction n generalizing cs with
  | zero => simp [splitBytes?]
  | succ n ih =>
    cases cs with
    | nil => cases hn
    | cons c cs =>
      have hc := utf8Size_eq_one_iff.2 (h c List.mem_cons_self)
      have hcs := ih (fun d hd => h d (List.mem_cons_of_mem _ hd)) (Nat.le_of_succ_le_succ hn)
      rw [splitBytes?, if_pos (by omega), hc, Nat.add_sub_cancel, hcs]
      rfl

theorem slice?_ascii {i j : Nat} (h : ∀ c ∈ cs, isAscii c = true) (hi : i ≤ j)
    (hj : j ≤ cs.length) : slice? i j cs = some ((cs.drop i).take (j - i)) := by
  have hrest : ∀ c ∈ cs.drop i, isAscii c = true := fun c hc => h c (List.mem_of_mem_drop hc)
  have hlen : j - i ≤ (cs.drop i).length := by
    rw [List.length_drop]
    omega
  simp only [slice?, splitBytes?_ascii h (Nat.le_trans hi hj), splitBytes?_ascii hrest hlen,
    Option.bind_eq_bind, Option.bind_some, Option.pure_def]

theorem splice?_ascii {i j : Nat} (new : List Char) (h : ∀ c ∈ cs, isAscii c = true) (hi : i ≤ j)
    (hj : j ≤ cs.length) :
    splice? i j new cs = some (cs.take i ++ new ++ (cs.drop i).drop (j - i)) := by
  have hrest : ∀ c ∈ cs.drop i, isAscii c = true := fun c hc => h c (List.mem_of_mem_drop hc)
  have hlen : j - i ≤ (cs.drop i).length := by
    rw [List.length_drop]
    omega
  simp only [splice?, splitBytes?_ascii h (Nat.le_trans hi hj), splitBytes?_ascii hrest hlen,
    Option.bind_eq_bind, Option.bind_some, Option.pure_def]

/-- The bytes of an ASCII text. -/
theorem lt_of_mem_bytes {s : String} (h : AsciiText s) {b : UInt8} (hb : b ∈ bytes s) : b < 128 := by
  obtain ⟨c, hc, hb⟩ := List.mem_flatMap.1 hb
  have hone := utf8Size_eq_one_iff.2 (h c hc)
  rw [String.utf8EncodeChar_eq_singleton hone, List.mem_singleton] at hb
  have hc : c.val.toNat < 128 := isAscii_iff.1 (h c hc)
  rw [hb, UInt8.lt_iff_toNat_lt, UInt32.toNat_toUInt8]
  exact Nat.lt_of_le_of_lt (Nat.mod_le _ _) hc

/-- A single byte that encodes a text. -/
theorem ascii_of_ofBytes? {b : UInt8} {s : String} (h : ofBytes? [b] = some s) : AsciiText s := by
  intro c hc
  unfold ofBytes? String.fromUTF8? at h
  split at h
  · cases h
    have hle := utf8Size_le hc
    rw [size_toList] at hle
    have hpos := c.utf8Size_pos
    exact utf8Size_eq_one_iff.1 (Nat.le_antisymm hle hpos)
  · cases h

end Utf8

/-- The bytes of an ASCII text are its characters. -/
theorem AsciiText.utf8ByteSize {s : String} (h : AsciiText s) : s.utf8ByteSize = s.toList.length := by
  rw [← Utf8.size_toList, Utf8.size_of_ascii h]

end ThreadedForth
