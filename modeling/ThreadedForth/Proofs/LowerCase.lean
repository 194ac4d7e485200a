/-
  Source text in lower case.
-/
import ThreadedForth.Number.Literal
import ThreadedForth.Proofs.AsciiTexts
import ThreadedForth.Proofs.LineReading

namespace ThreadedForth

/-! ## Characters -/

section Characters

variable {c d : Char}

/-- A character is an upper case letter, or stays as it is. -/
theorem toLower_cases (c : Char) :
    c.toLower = c ∨ 65 ≤ c.toNat ∧ c.toNat ≤ 90 ∧ c.toLower.toNat = c.toNat + 32 := by
  unfold Char.toLower
  split
  · rename_i h
    obtain ⟨hlow, hhigh⟩ : 65 ≤ c.toNat ∧ c.toNat ≤ 90 := by
      simpa [UInt32.le_iff_toNat_le] using h
    refine .inr ⟨hlow, hhigh, ?_⟩
    show (c.val + 32).toNat = c.val.toNat + 32
    rw [UInt32.toNat_add]
    have : c.val.toNat = c.toNat := rfl
    simp only [UInt32.toNat_ofNat]
    omega
  · exact .inl rfl

/-- A character below the letters is not the lower case of another one. -/
theorem toLower_beq (hd : d.toNat < 65) : (c.toLower == d) = (c == d) := by
  rcases toLower_cases c with h | ⟨hlow, -, h⟩
  · rw [h]
  · have hne : c ≠ d := by
      rintro rfl
      omega
    have hne' : c.toLower ≠ d := by
      intro he
      rw [he] at h
      omega
    rw [beq_false_of_ne hne, beq_false_of_ne hne']

theorem toLower_eq_iff (hd : d.toNat < 65) : c.toLower = d ↔ c = d := by
  rw [← beq_iff_eq, toLower_beq hd, beq_iff_eq]

@[simp] theorem isBlank_toLower (c : Char) : isBlank c.toLower = isBlank c := by
  rw [isBlank, isBlank, toLower_beq (show (' ' : Char).toNat < 65 by decide),
    toLower_beq (show ('\t' : Char).toNat < 65 by decide),
    toLower_beq (show ('\n' : Char).toNat < 65 by decide),
    toLower_beq (show ('\x0c' : Char).toNat < 65 by decide),
    toLower_beq (show ('\r' : Char).toNat < 65 by decide)]

@[simp] theorem isAscii_toLower_eq (c : Char) : isAscii c.toLower = isAscii c := by
  rcases toLower_cases c with h | ⟨_, _, h⟩
  · rw [h]
  · simp only [isAscii, h, decide_eq_decide]
    omega

theorem isDigit_iff : c.isDigit = true ↔ 48 ≤ c.toNat ∧ c.toNat ≤ 57 := by
  simp [Char.isDigit, UInt32.le_iff_toNat_le]

@[simp] theorem isDigit_toLower (c : Char) : c.toLower.isDigit = c.isDigit := by
  rcases toLower_cases c with h | ⟨_, _, h⟩
  · rw [h]
  · rw [Bool.eq_iff_iff, isDigit_iff, isDigit_iff, h]
    omega

theorem toLower_of_isDigit (h : c.isDigit = true) : c.toLower = c := by
  rcases toLower_cases c with hc | ⟨hlow, -⟩
  · exact hc
  · have := (isDigit_iff.1 h).2
    omega

/-- The letter of an exponent. -/
theorem isExponent_toLower (c : Char) :
    (c.toLower == 'e' || c.toLower == 'E') = (c == 'e' || c == 'E') := by
  rcases toLower_cases c with h | ⟨hlow, hhigh, h⟩
  · rw [h]
  · by_cases hE : c = 'E'
    · subst hE
      decide
    · -- Among the upper case letters, only this one becomes the letter of an exponent.
      have hval : c.toNat ≠ ('E' : Char).toNat := fun heq => hE (Char.ext (UInt32.toNat_inj.1 heq))
      have hne : ∀ d : Char, d.toNat = 69 ∨ d.toNat = 101 → c.toLower ≠ d ∧ c ≠ d := by
        intro d hd
        have : ('E' : Char).toNat = 69 := rfl
        constructor <;> rintro rfl <;> omega
      rw [beq_false_of_ne (hne 'e' (by decide)).1, beq_false_of_ne (hne 'E' (by decide)).1,
        beq_false_of_ne (hne 'e' (by decide)).2, beq_false_of_ne (hne 'E' (by decide)).2]

theorem utf8Size_toLower (c : Char) : c.toLower.utf8Size = c.utf8Size := by
  rcases toLower_cases c with h | ⟨hlow, hhigh, h⟩
  · rw [h]
  · rw [Utf8.utf8Size_eq_one_iff.2 (isAscii_iff.2 (by omega)),
      Utf8.utf8Size_eq_one_iff.2 (isAscii_iff.2 (by omega))]

end Characters

/-! ## Texts -/

section Texts

variable {s t : String} {cs : List Char}

theorem toList_foldCase (s : String) : (foldCase s).toList = s.toList.map Char.toLower :=
  String.toList_ofList

@[simp] theorem utf8ByteSize_foldCase (s : String) :
    (foldCase s).utf8ByteSize = s.utf8ByteSize := by
  rw [← Utf8.size_toList, ← Utf8.size_toList, toList_foldCase, Utf8.size, List.foldr_map]
  simp only [utf8Size_toLower]
  rfl

/-- Texts that are the same in lower case are the same names. -/
theorem Name.ofString_foldCase (s : String) : ofString (foldCase s) = ofString s :=
  Name.ofString_eq_iff.2 (foldCase_foldCase s)

theorem takeWhile_toLower {p : Char → Bool} (hp : ∀ c, p c.toLower = p c) (cs : List Char) :
    (cs.map Char.toLower).takeWhile p = (cs.takeWhile p).map Char.toLower := by
  rw [List.takeWhile_map]
  exact congrArg (List.map Char.toLower) (congrArg (List.takeWhile · cs) (funext hp))

theorem dropWhile_toLower {p : Char → Bool} (hp : ∀ c, p c.toLower = p c) (cs : List Char) :
    (cs.map Char.toLower).dropWhile p = (cs.dropWhile p).map Char.toLower := by
  rw [List.dropWhile_map]
  exact congrArg (List.map Char.toLower) (congrArg (List.dropWhile · cs) (funext hp))

end Texts

/-! ## Numbers -/

namespace Literal

variable {cs : List Char}

theorem map_toLower_of_digits (h : ∀ c ∈ cs, c.isDigit = true) : cs.map Char.toLower = cs :=
  (List.map_congr_left fun c hc => toLower_of_isDigit (h c hc)).trans (List.map_id cs)

@[simp] theorem isDigits_toLower (cs : List Char) :
    isDigits (cs.map Char.toLower) = isDigits cs := by
  simp [isDigits, Function.comp_def]

theorem splitSign_toLower (cs : List Char) :
    splitSign (cs.map Char.toLower) = ((splitSign cs).1, (splitSign cs).2.map Char.toLower) := by
  rcases cs with _ | ⟨c, cs⟩
  · rfl
  · by_cases hm : c = '-'
    · subst hm
      rfl
    · by_cases hp : c = '+'
      · subst hp
        rfl
      · have hm' : c.toLower ≠ '-' := mt (toLower_eq_iff (by decide)).1 hm
        have hp' : c.toLower ≠ '+' := mt (toLower_eq_iff (by decide)).1 hp
        simp [splitSign, hm, hp, hm', hp']

theorem digitsValue_toLower (h : isDigits cs = true) :
    digitsValue (cs.map Char.toLower) = digitsValue cs := by
  have hd : ∀ c ∈ cs, c.isDigit = true := by
    simpa [isDigits] using (Bool.and_eq_true_iff.1 h).2
  rw [map_toLower_of_digits hd]

theorem integer?_toLower (cs : List Char) : integer? (cs.map Char.toLower) = integer? cs := by
  unfold integer?
  rw [splitSign_toLower]
  simp only [isDigits_toLower]
  split
  · rw [digitsValue_toLower ‹_›]
  · rfl

theorem exponent?_toLower (cs : List Char) : exponent? (cs.map Char.toLower) = exponent? cs := by
  cases cs with
  | nil => rfl
  | cons c cs =>
    simp only [List.map_cons, exponent?, isExponent_toLower, splitSign_toLower, isDigits_toLower]
    split
    · split
      · rw [digitsValue_toLower ‹_›]
      · rfl
    · rfl

theorem takeWhile_digits (cs : List Char) :
    (cs.map Char.toLower).takeWhile Char.isDigit = cs.takeWhile Char.isDigit := by
  rw [takeWhile_toLower isDigit_toLower, map_toLower_of_digits]
  exact fun c hc => List.all_eq_true.1 List.all_takeWhile c hc

theorem parts?_toLower (cs : List Char) : parts? (cs.map Char.toLower) = parts? cs := by
  unfold parts?
  rw [splitSign_toLower]
  simp only [takeWhile_digits, dropWhile_toLower isDigit_toLower]
  generalize (splitSign cs).2.dropWhile Char.isDigit = rest
  rcases rest with _ | ⟨c, rest⟩
  · rfl
  · by_cases hc : c = '.'
    · subst hc
      have hdot : ('.' : Char).toLower = '.' := rfl
      simp only [List.map_cons, hdot, takeWhile_digits, dropWhile_toLower isDigit_toLower,
        exponent?_toLower]
    · have hc' : c.toLower ≠ '.' := mt (toLower_eq_iff (by decide)).1 hc
      have hexp := exponent?_toLower (c :: rest)
      rw [List.map_cons] at hexp
      simp [hc, hc', hexp]

theorem looksFloat_toLower (cs : List Char) : looksFloat (cs.map Char.toLower) = looksFloat cs := by
  have hany : (cs.map Char.toLower).any (fun c => c == '.' || c == 'e' || c == 'E') =
      cs.any fun c => c == '.' || c == 'e' || c == 'E' := by
    rw [List.any_map]
    congr 1
    funext c
    simp only [Function.comp_apply, Bool.or_assoc, isExponent_toLower,
      toLower_beq (show ('.' : Char).toNat < 65 by decide)]
  unfold looksFloat
  rw [hany]
  cases cs with
  | nil => rfl
  | cons c cs =>
    simp only [List.map_cons, List.head?_cons, isDigit_toLower,
      toLower_beq (show ('+' : Char).toNat < 65 by decide),
      toLower_beq (show ('-' : Char).toNat < 65 by decide),
      toLower_beq (show ('.' : Char).toNat < 65 by decide)]

/-- A token and its lower case stand for the same number. -/
theorem number?_foldCase (t : String) : number? (foldCase t) = number? t := by
  simp only [number?, float?, toList_foldCase, integer?_toLower, looksFloat_toLower, parts?_toLower]

end Literal

/-! ## Tokens -/

/-- The tokens of a text, in order. -/
def tokensOf (cs : List Char) : List String :=
  ((cs.splitOnP isBlank).filter fun w => !w.isEmpty).map String.ofList

theorem tokensOf_blank {c : Char} (hc : isBlank c = true) (cs : List Char) :
    tokensOf (c :: cs) = tokensOf cs := by
  have h : ([] ++ c :: cs).splitOnP isBlank = [] :: cs.splitOnP isBlank :=
    List.splitOnP_append_cons_of_forall_mem nofun c hc cs
  rw [List.nil_append] at h
  simp [tokensOf, h]

theorem tokensOf_dropWhile (cs : List Char) : tokensOf (cs.dropWhile isBlank) = tokensOf cs := by
  induction cs with
  | nil => rfl
  | cons c cs ih =>
    cases hc : isBlank c with
    | true => rw [List.dropWhile_cons_of_pos hc, ih, tokensOf_blank hc]
    | false => rw [List.dropWhile_cons_of_neg (by simp [hc])]

/-- The first token, and what comes after it. -/
theorem tokensOf_word {c : Char} (hc : isBlank c = false) (cs : List Char) :
    tokensOf (c :: cs) = String.ofList ((c :: cs).takeWhile fun c => !isBlank c) ::
      tokensOf ((c :: cs).dropWhile fun c => !isBlank c) := by
  have hword : ∀ d ∈ (c :: cs).takeWhile (fun c => !isBlank c), isBlank d = false := fun d hd => by
    simpa using List.all_eq_true.1 List.all_takeWhile d hd
  have hne : (c :: cs).takeWhile (fun c => !isBlank c) ≠ [] := by
    rw [List.takeWhile_cons_of_pos (by simp [hc])]
    exact List.cons_ne_nil _ _
  have happ := List.takeWhile_append_dropWhile (p := fun c => !isBlank c) (l := c :: cs)
  generalize hw : (c :: cs).takeWhile (fun c => !isBlank c) = w at hword hne happ
  have hhead : ∀ d ∈ ((c :: cs).dropWhile fun c => !isBlank c).head?, isBlank d = true := by
    intro d hd
    have := List.head?_dropWhile_not (fun c => !isBlank c) (c :: cs)
    rw [hd] at this
    simpa using this
  generalize (c :: cs).dropWhile (fun c => !isBlank c) = rest at happ hhead
  rw [← happ]
  cases rest with
  | nil =>
    rw [List.append_nil, tokensOf, List.splitOnP_eq_singleton hword]
    simp [tokensOf, hne]
  | cons d rest =>
    rw [tokensOf_blank (hhead d rfl), tokensOf,
      List.splitOnP_append_cons_of_forall_mem hword d (hhead d rfl)]
    simp [tokensOf, hne]

/-! ## Lines -/

namespace Line

variable {l k : Line} {P : String → Prop} {t : String}

/-- The line in lower case. -/
def lowered (l : Line) : Line :=
  { l with text := l.text.map Char.toLower }

theorem rest_lowered (l : Line) : l.lowered.rest = l.rest.map Char.toLower := by
  simp [lowered, rest]

theorem advance_lowered (l : Line) : l.lowered.advance = l.advance.lowered := by
  have hb : (l.lowered.rest.takeWhile isBlank).length = (l.rest.takeWhile isBlank).length := by
    rw [rest_lowered, takeWhile_toLower isBlank_toLower, List.length_map]
  have hw : ∀ c : Char, (!isBlank c.toLower) = !isBlank c := fun c => by rw [isBlank_toLower]
  have hbody : l.lowered.rest.drop (l.rest.takeWhile isBlank).length =
      (l.rest.drop (l.rest.takeWhile isBlank).length).map Char.toLower := by
    rw [rest_lowered, List.map_drop]
  unfold advance
  dsimp only
  rw [hb, hbody]
  generalize l.rest.drop (l.rest.takeWhile isBlank).length = body
  cases body with
  | nil => rfl
  | cons c cs =>
    have hlen : ((c :: cs).map Char.toLower |>.takeWhile fun c => !isBlank c).length =
        ((c :: cs).takeWhile fun c => !isBlank c).length := by
      rw [takeWhile_toLower (p := fun c => !isBlank c) hw, List.length_map]
    have htrail : ∀ n, (((c :: cs).map Char.toLower).drop n |>.takeWhile isBlank).length =
        (((c :: cs).drop n).takeWhile isBlank).length := by
      intro n
      rw [← List.map_drop, takeWhile_toLower isBlank_toLower, List.length_map]
    show ({ l.lowered with cursor := _, held := some ⟨_, _, _⟩ } : Line) = _
    rw [hlen, htrail]
    rfl

theorem token?_lowered (l : Line) : l.lowered.token? = l.token?.map foldCase := by
  have htext : ∀ s, l.lowered.textOf s = foldCase (l.textOf s) := by
    intro s
    simp [textOf, lowered, foldCase]
  rw [token?, token?, Option.map_map]
  exact congrArg (Option.map · l.held) (funext htext)

theorem skip_lowered (l : Line) : l.lowered.skip = l.skip.lowered := by
  simp [skip, lowered]

/-- Comments end at the same token. -/
theorem skipComment_lowered (n : Nat) (l : Line) :
    l.lowered.skipComment n = ((l.skipComment n).1.lowered, (l.skipComment n).2) := by
  induction n generalizing l with
  | zero => rfl
  | succ n ih =>
    unfold skipComment
    dsimp only
    rw [advance_lowered, token?_lowered]
    cases l.advance.token? with
    | none => rfl
    | some t =>
      have hlast : ((foldCase t).toList.getLast? == some ')') =
          (t.toList.getLast? == some ')') := by
        rw [toList_foldCase, List.getLast?_map]
        cases t.toList.getLast? with
        | none => rfl
        | some c => exact toLower_beq (by decide)
      simp only [Option.map_some, hlast]
      split
      · rfl
      · exact ih _

theorem fill_lowered (l : Line) (s : String) :
    l.lowered.fill (foldCase s) = (l.fill s).map lowered := by
  have hascii : (foldCase s).toList.all isAscii = s.toList.all isAscii := by
    rw [toList_foldCase, List.all_map]
    exact congrArg (List.all s.toList) (funext isAscii_toLower_eq)
  unfold fill
  rw [utf8ByteSize_foldCase, hascii]
  show (if l.capacity < _ then _ else _) = _
  split
  · rfl
  · split
    · rfl
    · rw [toList_foldCase]
      rfl

/-- The next token comes before those that are still to come after it. -/
theorem tokensOf_rest (l : Line) :
    tokensOf l.rest = l.advance.token?.toList ++ tokensOf l.advance.rest := by
  rw [token?_advance_of_rest, rest_advance, ← tokensOf_dropWhile]
  cases h : l.rest.dropWhile isBlank with
  | nil => rfl
  | cons c cs =>
    have hc : isBlank c = false := by
      have := List.head?_dropWhile_not isBlank l.rest
      rw [h] at this
      simpa using this
    exact tokensOf_word hc cs

/-- All tokens that are still to come satisfy a condition. -/
def Speaks (P : String → Prop) (l : Line) : Prop :=
  ∀ t ∈ tokensOf l.rest, P t

theorem Speaks.advance (h : l.Speaks P) :
    l.advance.Speaks P ∧ ∀ t, l.advance.token? = some t → P t := by
  rw [Speaks, tokensOf_rest] at h
  refine ⟨fun t ht => h t (List.mem_append_right _ ht), fun t ht => h t (List.mem_append_left _ ?_)⟩
  rw [ht]
  exact List.mem_cons_self

theorem speaks_skip (l : Line) : l.skip.Speaks P := by
  intro t ht
  rw [rest_skip] at ht
  cases ht

theorem Speaks.skipComment (h : l.Speaks P) (n : Nat) : (l.skipComment n).1.Speaks P := by
  induction n generalizing l with
  | zero => exact h
  | succ n ih =>
    unfold Line.skipComment
    dsimp only
    split
    · exact h.advance.1
    · split
      · exact h.advance.1
      · exact ih h.advance.1

theorem speaks_of_fill {s : String} (h : ∀ t ∈ tokensOf s.toList, P t) (hf : l.fill s = .ok k) :
    k.Speaks P := by
  obtain ⟨hs, ha⟩ := of_fill_ok hf
  rw [fill_of_fits hs ha] at hf
  cases hf
  exact h

end Line
end ThreadedForth
