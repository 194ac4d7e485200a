/-
  Reading a line, and reading a longer one.
-/
import ThreadedForth.Proofs.Definitions

namespace ThreadedForth
namespace Line

variable {l k : Line} {T : List Char}

/-! ## New lines -/

/-- The line with a new text, read from its start. -/
def filled (l : Line) (cs : List Char) : Line :=
  { l with text := cs, cursor := 0, held := none }

theorem fill_of_fits {l : Line} {s : String} (hs : s.utf8ByteSize ≤ l.capacity)
    (ha : s.toList.all isAscii = true) :
    l.fill s = .ok (l.filled s.toList) := by
  unfold fill
  rw [if_neg (Nat.not_lt.2 hs), ha]
  rfl

theorem of_fill_ok {l k : Line} {s : String} (h : l.fill s = .ok k) :
    s.utf8ByteSize ≤ l.capacity ∧ s.toList.all isAscii = true := by
  unfold fill at h
  split at h
  · cases h
  · split at h
    · cases h
    · rename_i hs ha
      exact ⟨Nat.not_lt.1 hs, by simpa using ha⟩

/-! ## What has not been read -/

theorem advance_text (l : Line) : l.advance.text = l.text := by
  unfold advance
  dsimp only
  split <;> rfl

theorem takeUntil_spec (l : Line) (c : Char) :
    (l.takeUntil c).2.text = l.text ∧ l.cursor ≤ (l.takeUntil c).2.cursor := by
  unfold takeUntil
  dsimp only
  split <;> split <;> exact ⟨rfl, by dsimp only; omega⟩

theorem drop_text (l : Line) (n : Nat) : l.text.drop (l.cursor + n) = l.rest.drop n :=
  List.drop_drop.symm

theorem cursor_advance (l : Line) :
    l.advance.text = l.text ∧ l.advance.cursor = l.cursor + ((l.rest.takeWhile isBlank).length +
      ((l.rest.dropWhile isBlank).takeWhile fun c => !isBlank c).length) := by
  rw [← drop_blanks]
  unfold advance
  dsimp only
  cases l.rest.drop (l.rest.takeWhile isBlank).length with
  | nil => exact ⟨rfl, rfl⟩
  | cons c cs => exact ⟨rfl, Nat.add_assoc _ _ _⟩

theorem rest_advance (l : Line) :
    l.advance.rest = (l.rest.dropWhile isBlank).dropWhile fun c => !isBlank c := by
  rw [rest, (cursor_advance l).1, (cursor_advance l).2, drop_text, ← List.drop_drop, drop_blanks,
    drop_blanks]

theorem token?_advance_of_rest (l : Line) :
    l.advance.token? = match l.rest.dropWhile isBlank with
      | [] => none
      | c :: cs => some (String.ofList ((c :: cs).takeWhile fun c => !isBlank c)) := by
  rw [← drop_blanks]
  unfold advance
  dsimp only
  cases hd : l.rest.drop (l.rest.takeWhile isBlank).length with
  | nil => rfl
  | cons c cs =>
    have htext : l.text.drop (l.cursor + (l.rest.takeWhile isBlank).length) = c :: cs := by
      rw [← hd, rest, List.drop_drop]
    simp only [token?, textOf, Option.map_some, htext]
    congr 2
    exact (List.prefix_iff_eq_take.1 (List.takeWhile_prefix _)).symm

theorem rest_advance_le (l : Line) : l.advance.rest.length ≤ l.rest.length := by
  rw [rest_advance]
  exact ((List.dropWhile_sublist _).trans (List.dropWhile_sublist _)).length_le

theorem rest_advance_lt {t : String} (h : l.advance.token? = some t) :
    l.advance.rest.length < l.rest.length := by
  obtain ⟨h₁, h₂, h₃, -⟩ := advance_token h
  rw [rest, rest, List.length_drop, List.length_drop, h₃]
  omega

theorem rest_advance_none (h : l.advance.token? = none) : l.advance.rest = [] := by
  rw [token?_advance_of_rest] at h
  rw [rest_advance]
  cases hd : l.rest.dropWhile isBlank with
  | nil => rfl
  | cons c cs => simp [hd] at h

/-- The text that a delimiter is looked for in. -/
def quotable (l : Line) : List Char :=
  if (l.rest.head?.map isBlank).getD false then l.rest.drop 1 else l.rest

theorem takeUntil_eq (l : Line) (c : Char) :
    (l.takeUntil c).1 = (if l.quotable.contains c then .ok (l.quotable.takeWhile (· != c))
      else .error .unterminated) ∧
    (l.takeUntil c).2.rest = if l.quotable.contains c then
      l.quotable.drop ((l.quotable.takeWhile (· != c)).length + 1) else l.quotable := by
  have hbody : l.text.drop (if (l.rest.head?.map isBlank).getD false then l.cursor + 1
      else l.cursor) = l.quotable := by
    unfold quotable
    split
    · exact l.drop_text 1
    · rfl
  unfold takeUntil
  dsimp only
  rw [hbody]
  cases hc : l.quotable.contains c with
  | false => exact ⟨rfl, hbody⟩
  | true =>
    rw [if_pos rfl, if_pos rfl, if_pos rfl]
    refine ⟨rfl, ?_⟩
    show l.text.drop _ = _
    rw [Nat.add_assoc, ← List.drop_drop, hbody]

theorem quotable_le (l : Line) : l.quotable.length ≤ l.rest.length := by
  unfold quotable
  split
  · simp
  · exact Nat.le_refl _

theorem rest_takeUntil_le (l : Line) (c : Char) : (l.takeUntil c).2.rest.length ≤ l.rest.length := by
  rw [(takeUntil_eq l c).2]
  refine Nat.le_trans ?_ l.quotable_le
  split
  · exact (List.drop_sublist _ _).length_le
  · exact Nat.le_refl _

theorem rest_skip (l : Line) : l.skip.rest = [] :=
  List.drop_length

theorem rest_le_text (l : Line) : l.rest.length ≤ l.text.length := by
  simp [rest]

theorem rest_skipComment_le (n : Nat) (l : Line) :
    (l.skipComment n).1.rest.length ≤ l.rest.length := by
  induction n generalizing l with
  | zero => exact Nat.le_refl _
  | succ n ih =>
    have hadv := l.rest_advance_le
    unfold skipComment
    dsimp only
    cases l.advance.token? with
    | none => exact hadv
    | some t =>
      dsimp only
      split
      · exact hadv
      · exact Nat.le_trans (ih _) hadv

/-- A comment that does not end on a line has taken all of it. -/
theorem rest_skipComment_open {n : Nat} (hn : l.rest.length < n) (h : (l.skipComment n).2 = false) :
    (l.skipComment n).1.rest = [] := by
  induction n generalizing l with
  | zero => omega
  | succ n ih =>
    unfold skipComment at h ⊢
    dsimp only at h ⊢
    cases ht : l.advance.token? with
    | none => exact rest_advance_none ht
    | some t =>
      rw [ht] at h
      have hlt := rest_advance_lt ht
      dsimp only at h ⊢
      split at h
      · cases h
      · rw [if_neg ‹_›]
        exact ih (by omega) h

theorem capacity_advance (l : Line) : l.advance.capacity = l.capacity := by
  unfold advance
  dsimp only
  split <;> rfl

theorem capacity_takeUntil (l : Line) (c : Char) : (l.takeUntil c).2.capacity = l.capacity := by
  unfold takeUntil
  dsimp only
  split <;> split <;> rfl

theorem capacity_skipComment (n : Nat) (l : Line) : (l.skipComment n).1.capacity = l.capacity := by
  induction n generalizing l with
  | zero => rfl
  | succ n ih =>
    have hadv := l.capacity_advance
    unfold skipComment
    dsimp only
    cases l.advance.token? with
    | none => exact hadv
    | some t =>
      dsimp only
      split
      · exact hadv
      · exact (ih _).trans hadv

/-! ## Longer lines -/

/-- A text that does not go on with a word. -/
def Apart (T : List Char) : Prop :=
  ∀ c ∈ T.head?, isBlank c = true

/-- The line goes on with a text after the end of another. -/
def Extends (l : Line) (T : List Char) (k : Line) : Prop :=
  l.rest = k.rest ++ T

theorem Apart.takeWhile (hT : Apart T) : T.takeWhile (fun c => !isBlank c) = [] := by
  cases T with
  | nil => rfl
  | cons c cs => simp [hT c rfl]

theorem Apart.dropWhile (hT : Apart T) : T.dropWhile (fun c => !isBlank c) = T := by
  cases T with
  | nil => rfl
  | cons c cs => simp [hT c rfl]

/-- The next token of both lines, if the shorter one has any. -/
theorem advance_extends (hT : Apart T) (h : l.Extends T k) :
    l.advance.token? = k.advance.token? ∧ l.advance.Extends T k.advance ∨
      T ≠ [] ∧ k.advance.token? = none := by
  unfold Extends
  rw [token?_advance_of_rest, token?_advance_of_rest, rest_advance, rest_advance, h,
    List.dropWhile_append]
  cases hk : k.rest.dropWhile isBlank with
  | nil =>
    by_cases hnil : T = []
    · exact .inl (by simp [hnil])
    · exact .inr ⟨hnil, rfl⟩
  | cons c cs =>
    refine .inl ⟨?_, ?_⟩
    · show some (String.ofList ((c :: cs ++ T).takeWhile _)) = _
      rw [List.takeWhile_append, hT.takeWhile, List.append_nil]
      split
      · rename_i hlen
        exact congrArg (some ∘ String.ofList) ((List.takeWhile_sublist _).eq_of_length hlen).symm
      · rfl
    · show (c :: cs ++ T).dropWhile _ = _
      rw [List.dropWhile_append, hT.dropWhile]
      split
      · rename_i hempty
        rw [List.isEmpty_iff.1 hempty, List.nil_append]
      · rfl

/-- The text up to a delimiter on both lines, if the shorter one has the delimiter. -/
theorem takeUntil_extends (h : l.Extends T k) (c : Char) :
    (l.takeUntil c).1 = (k.takeUntil c).1 ∧ (l.takeUntil c).2.Extends T (k.takeUntil c).2 ∨
      T ≠ [] ∧ (k.takeUntil c).1 = .error .unterminated := by
  unfold Extends
  rw [(takeUntil_eq l c).1, (takeUntil_eq k c).1, (takeUntil_eq l c).2, (takeUntil_eq k c).2]
  by_cases hnil : T = []
  · subst hnil
    have hq : l.quotable = k.quotable := by rw [quotable, quotable, h, List.append_nil]
    exact .inl (by rw [hq]; simp)
  · cases hk : k.quotable.contains c with
    | false => exact .inr ⟨hnil, rfl⟩
    | true =>
      have hmem : c ∈ k.quotable := by simpa using hk
      have hrest : k.rest ≠ [] := by
        intro hr
        simp [quotable, hr] at hmem
      have hq : l.quotable = k.quotable ++ T := by
        obtain ⟨d, ds, hd⟩ := List.exists_cons_of_ne_nil hrest
        rw [quotable, quotable, h, hd]
        simp only [List.cons_append, List.head?_cons, List.drop_succ_cons, List.drop_zero]
        split <;> rfl
      have hne : (k.quotable.takeWhile (· != c)).length ≠ k.quotable.length := by
        intro hlen
        have heq := (List.takeWhile_sublist (· != c)).eq_of_length hlen
        have := List.all_eq_true.1 List.all_takeWhile c (heq.symm ▸ hmem)
        simp at this
      have htake : (k.quotable ++ T).takeWhile (· != c) = k.quotable.takeWhile (· != c) := by
        rw [List.takeWhile_append, if_neg hne]
      have hlt : (k.quotable.takeWhile (· != c)).length + 1 ≤ k.quotable.length :=
        Nat.lt_of_le_of_ne (List.takeWhile_sublist _).length_le hne
      refine .inl ?_
      have hl : (k.quotable ++ T).contains c = true := by simp [hmem]
      rw [hq, hl, htake]
      exact ⟨rfl, List.drop_append_of_le_length hlt⟩

/-- A comment on both lines, if it ends on the shorter one. -/
theorem skipComment_extends (hT : Apart T) {n i : Nat} (h : l.Extends T k) (hl : l.rest.length < n)
    (hk : k.rest.length < i) :
    (l.skipComment n).2 = (k.skipComment i).2 ∧ (l.skipComment n).1.Extends T (k.skipComment i).1 ∨
      T ≠ [] ∧ (k.skipComment i).2 = false := by
  induction n generalizing l k i with
  | zero => omega
  | succ n ih =>
    cases i with
    | zero => omega
    | succ i =>
      unfold skipComment
      dsimp only
      rcases advance_extends hT h with ⟨ht, hadv⟩ | ⟨hnil, ht⟩
      · cases hk' : k.advance.token? with
        | none =>
          rw [ht, hk']
          exact .inl ⟨rfl, hadv⟩
        | some t =>
          rw [ht, hk']
          have h₁ := rest_advance_lt (ht.trans hk')
          have h₂ := rest_advance_lt hk'
          dsimp only
          split
          · exact .inl ⟨rfl, hadv⟩
          · exact ih hadv (by omega) (by omega)
      · rw [ht]
        exact .inr ⟨hnil, rfl⟩

end Line

theorem Machine.skipComment_eq (m : Machine) : m.skipComment = { m with
    line := (m.line.skipComment (m.line.text.length + 1)).1
    inComment := !(m.line.skipComment (m.line.text.length + 1)).2 } := rfl

end ThreadedForth
