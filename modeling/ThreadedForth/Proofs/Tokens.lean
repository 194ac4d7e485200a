/-
  The tokens of a line.
-/
import Mathlib.Data.List.TakeWhile
import Mathlib.Logic.Function.Iterate
import ThreadedForth.Proofs.LineReading

namespace ThreadedForth

/-! ## Runs of a text -/

/-- A blank stands at a position of a text. -/
def BlankAt (text : List Char) (i : Nat) : Prop :=
  ∃ c ∈ text[i]?, isBlank c = true

/-- A character that is not blank stands at a position of a text. -/
def WordAt (text : List Char) (i : Nat) : Prop :=
  ∃ c ∈ text[i]?, isBlank c = false

/-- A maximal run of `n` characters that are not blank, at the position `i` of what a text has from
    the position `first` on. -/
structure MaximalRun (text : List Char) (first i n : Nat) : Prop where
  nonempty : 0 < n
  first_le : first ≤ i
  word : ∀ j, i ≤ j → j < i + n → WordAt text j
  before : i = first ∨ BlankAt text (i - 1)
  after : ¬ WordAt text (i + n)

variable {text : List Char} {first i j n k : Nat}

theorem BlankAt.not_wordAt (h : BlankAt text i) : ¬ WordAt text i := by
  rintro ⟨c, hc, hw⟩
  obtain ⟨d, hd, hb⟩ := h
  obtain rfl := Option.some.inj (hc.symm.trans hd)
  rw [hb] at hw
  cases hw

theorem WordAt.lt (h : WordAt text i) : i < text.length := by
  obtain ⟨c, hc, -⟩ := h
  exact (List.getElem?_eq_some_iff.1 hc).1

theorem wordAt_of_not_blankAt (hi : i < text.length) (h : ¬ BlankAt text i) : WordAt text i :=
  ⟨text[i], List.getElem?_eq_getElem hi,
    Bool.eq_false_iff.2 fun hb => h ⟨text[i], List.getElem?_eq_getElem hi, hb⟩⟩

theorem MaximalRun.at_start (h : MaximalRun text first i n) : WordAt text i :=
  h.word i (Nat.le_refl _) (Nat.lt_add_of_pos_right h.nonempty)

/-- A maximal run is as long as it can be. -/
theorem MaximalRun.length_eq (h : MaximalRun text first i n) (h' : MaximalRun text k i j) : n = j := by
  rcases Nat.lt_trichotomy n j with hlt | heq | hgt
  · exact absurd (h'.word _ (Nat.le_add_right ..) (Nat.add_lt_add_left hlt i)) h.after
  · exact heq
  · exact absurd (h.word _ (Nat.le_add_right ..) (Nat.add_lt_add_left hgt i)) h'.after

/-- How long the first part of a list is that satisfies a test. -/
theorem le_length_takeWhile_iff {p : Char → Bool} {cs : List Char} :
    n ≤ (cs.takeWhile p).length ↔ ∀ j < n, ∃ c ∈ cs[j]?, p c = true := by
  induction cs generalizing n with
  | nil =>
    constructor
    · intro h j hj
      exact absurd (Nat.lt_of_lt_of_le hj h) (Nat.not_lt_zero j)
    · intro h
      refine Nat.le_of_not_lt fun hn => ?_
      obtain ⟨c, hc, -⟩ := h 0 hn
      cases hc
  | cons c cs ih =>
    cases n with
    | zero => simp
    | succ n =>
      cases hp : p c with
      | false =>
        refine iff_of_false (by simp [hp]) fun h => ?_
        obtain ⟨d, hd, hpd⟩ := h 0 (Nat.zero_lt_succ n)
        cases hd
        rw [hp] at hpd
        cases hpd
      | true =>
        rw [List.takeWhile_cons_of_pos hp, List.length_cons, Nat.add_le_add_iff_right, ih]
        constructor
        · rintro h (_ | j) hj
          · exact ⟨c, rfl, hp⟩
          · exact h j (Nat.lt_of_succ_lt_succ hj)
        · intro h j hj
          exact h (j + 1) (Nat.succ_lt_succ hj)

theorem le_blanks_iff : n ≤ ((text.drop k).takeWhile isBlank).length ↔
    ∀ j < n, BlankAt text (k + j) := by
  simp only [le_length_takeWhile_iff, BlankAt, List.getElem?_drop]

theorem le_word_iff : n ≤ ((text.drop k).takeWhile fun c => !isBlank c).length ↔
    ∀ j < n, WordAt text (k + j) := by
  simp only [le_length_takeWhile_iff, WordAt, List.getElem?_drop, Bool.not_eq_true']

namespace Line

variable {l : Line} {s : Span} {ts : List Span}

/-! ## The next token -/

/-- The next token of a line: the first run, with the blanks before and after it. -/
structure Takes (l : Line) (s : Span) : Prop where
  held : l.advance.held = some s
  cursor : l.advance.cursor = s.start + s.length
  skipped : ∀ j, l.cursor ≤ j → j < s.start → BlankAt l.text j
  run : MaximalRun l.text l.cursor s.start s.length
  trailing : ∀ n, n ≤ s.trailing ↔ ∀ j < n, BlankAt l.text (s.start + s.length + j)
  joined : l.rest = l.rest.takeWhile isBlank ++
    ((l.text.drop s.start).take s.length ++ l.advance.rest)
  blanks : l.advance.rest.takeWhile isBlank = (l.text.drop (s.start + s.length)).take s.trailing

/-- The span of the characters after the blanks that come next. -/
def nextSpan (l : Line) : Span :=
  let start := l.cursor + (l.rest.takeWhile isBlank).length
  let length := ((l.text.drop start).takeWhile fun c => !isBlank c).length
  ⟨start, length, ((l.text.drop (start + length)).takeWhile isBlank).length⟩

theorem drop_start (l : Line) :
    l.rest.drop (l.rest.takeWhile isBlank).length = l.text.drop l.nextSpan.start :=
  (l.drop_text _).symm

theorem advance_at_end (h : l.text.length ≤ l.nextSpan.start) :
    l.advance = { l with cursor := l.nextSpan.start, held := none } := by
  have hbody := l.drop_start
  rw [List.drop_eq_nil_of_le h] at hbody
  unfold advance
  dsimp only
  rw [hbody]
  rfl

theorem advance_at_word (h : l.nextSpan.start < l.text.length) :
    l.advance = { l with
      cursor := l.nextSpan.start + l.nextSpan.length
      held := some l.nextSpan } := by
  have hbody := l.drop_start
  unfold advance
  dsimp only
  rw [hbody, List.drop_drop]
  split <;> rename_i heq
  · exact absurd (List.drop_eq_nil_iff.1 heq) (Nat.not_le_of_lt h)
  · rfl

theorem blankAt_of_lt_start (hj : l.cursor ≤ j) (hlt : j < l.nextSpan.start) :
    BlankAt l.text j := by
  have hlt : j < l.cursor + (l.rest.takeWhile isBlank).length := hlt
  have := le_blanks_iff.1 (Nat.le_refl (l.rest.takeWhile isBlank).length) (j - l.cursor) (by omega)
  rwa [Nat.add_sub_cancel' hj] at this

theorem not_blankAt_start (l : Line) : ¬ BlankAt l.text l.nextSpan.start := by
  intro h
  have hle : (l.rest.takeWhile isBlank).length + 1 ≤ (l.rest.takeWhile isBlank).length := by
    refine le_blanks_iff.2 fun j hj => ?_
    rcases Nat.lt_or_eq_of_le (Nat.le_of_lt_succ hj) with hlt | rfl
    · exact blankAt_of_lt_start (Nat.le_add_right ..) (Nat.add_lt_add_left hlt _)
    · exact h
  exact Nat.not_succ_le_self _ hle

theorem le_length_nextSpan_iff :
    n ≤ l.nextSpan.length ↔ ∀ j < n, WordAt l.text (l.nextSpan.start + j) :=
  le_word_iff

theorem maximalRun_nextSpan (h : l.nextSpan.start < l.text.length) :
    MaximalRun l.text l.cursor l.nextSpan.start l.nextSpan.length where
  nonempty := by
    refine le_length_nextSpan_iff.2 fun j hj => ?_
    obtain rfl := Nat.lt_one_iff.1 hj
    exact wordAt_of_not_blankAt h l.not_blankAt_start
  first_le := Nat.le_add_right ..
  word j hj hlt := by
    have := le_length_nextSpan_iff.1 (Nat.le_refl l.nextSpan.length) (j - l.nextSpan.start)
      (by omega)
    rwa [Nat.add_sub_cancel' hj] at this
  before := by
    have hle : l.cursor ≤ l.nextSpan.start := Nat.le_add_right ..
    by_cases heq : l.nextSpan.start = l.cursor
    · exact .inl heq
    · exact .inr (blankAt_of_lt_start (by omega) (by omega))
  after h := by
    have : l.nextSpan.length + 1 ≤ l.nextSpan.length := by
      refine le_length_nextSpan_iff.2 fun j hj => ?_
      rcases Nat.lt_or_eq_of_le (Nat.le_of_lt_succ hj) with hlt | rfl
      · exact le_length_nextSpan_iff.1 (Nat.le_refl _) j hlt
      · exact h
    exact Nat.not_succ_le_self _ this

theorem rest_eq_nextSpan (l : Line) : l.rest = l.rest.takeWhile isBlank ++
    ((l.text.drop l.nextSpan.start).take l.nextSpan.length ++
      l.text.drop (l.nextSpan.start + l.nextSpan.length)) := by
  have hbody : l.text.drop l.nextSpan.start = l.rest.dropWhile isBlank := by
    rw [← drop_blanks, drop_start]
  rw [← List.drop_drop, List.take_append_drop, hbody, List.takeWhile_append_dropWhile]

/-- Either there is a token to take, or nothing but blanks is left and the line has been read. -/
theorem advance_spec (l : Line) :
    (∃ s, l.Takes s) ∨
      l.advance.held = none ∧ l.advance.rest = [] ∧ ∀ j, l.cursor ≤ j → ¬ WordAt l.text j := by
  by_cases hend : l.text.length ≤ l.nextSpan.start
  · have hadv := advance_at_end hend
    refine .inr ⟨by rw [hadv], ?_, fun j hj hw => ?_⟩
    · rw [hadv]
      exact List.drop_eq_nil_of_le hend
    · exact (blankAt_of_lt_start hj (Nat.lt_of_lt_of_le hw.lt hend)).not_wordAt hw
  · have hadv := advance_at_word (Nat.lt_of_not_le hend)
    have hrest : l.advance.rest = l.text.drop (l.nextSpan.start + l.nextSpan.length) := by
      rw [hadv]
      rfl
    refine .inl ⟨l.nextSpan, by rw [hadv], by rw [hadv], fun _ => blankAt_of_lt_start,
      maximalRun_nextSpan (Nat.lt_of_not_le hend), fun _ => le_blanks_iff, ?_, ?_⟩
    · rw [hrest]
      exact l.rest_eq_nextSpan
    · rw [hrest]
      exact List.prefix_iff_eq_take.1 (List.takeWhile_prefix _)

/-! ## All tokens -/

/-- The tokens of what has not been read of a line. -/
structure Tokens (l : Line) (ts : List Span) : Prop where
  /-- Taking one token after the other yields these, and then none for ever. -/
  held : ∀ n, (advance^[n + 1] l).held = ts[n]?
  /-- They are exactly the maximal runs. -/
  runs : ∀ i n, (∃ t, ⟨i, n, t⟩ ∈ ts) ↔ MaximalRun l.text l.cursor i n
  /-- They come in order. -/
  ordered : ts.Pairwise fun s t => s.start + s.length < t.start
  /-- Each is recorded with the number of blanks that follow it. -/
  trailing : ∀ s ∈ ts, ∀ n, n ≤ s.trailing ↔ ∀ j < n, BlankAt l.text (s.start + s.length + j)
  /-- The blanks in front and the tokens, each with the blanks that follow it, are all there is. -/
  joined : l.rest = l.rest.takeWhile isBlank ++
    ts.flatMap fun s => (l.text.drop s.start).take (s.length + s.trailing)

theorem text_iterate (n : Nat) (l : Line) : (advance^[n] l).text = l.text := by
  induction n generalizing l with
  | zero => rfl
  | succ n ih => rw [Function.iterate_succ_apply, ih, advance_text]

/-- The texts of the tokens. -/
theorem Tokens.token? (h : l.Tokens ts) (n : Nat) :
    (advance^[n + 1] l).token? = ts[n]?.map l.textOf := by
  have htext : (advance^[n + 1] l).textOf = l.textOf :=
    funext fun s => by rw [textOf, textOf, text_iterate]
  rw [Line.token?, h.held, htext]

theorem held_advance_of_nil (h : l.rest = []) : l.advance.held = none ∧ l.advance.rest = [] := by
  rcases l.advance_spec with ⟨s, hs⟩ | ⟨hheld, hrest, -⟩
  · have hlt := hs.run.at_start.lt
    have hle := hs.run.first_le
    have := List.drop_eq_nil_iff.1 h
    omega
  · exact ⟨hheld, hrest⟩

theorem held_iterate_of_nil (h : l.rest = []) (n : Nat) : (advance^[n + 1] l).held = none := by
  induction n generalizing l with
  | zero => exact (held_advance_of_nil h).1
  | succ n ih =>
    rw [Function.iterate_succ_apply]
    exact ih (held_advance_of_nil h).2

theorem Tokens.nil (hheld : l.advance.held = none) (hrest : l.advance.rest = [])
    (hword : ∀ j, l.cursor ≤ j → ¬ WordAt l.text j) : l.Tokens [] where
  held
    | 0 => hheld
    | n + 1 => by
      rw [Function.iterate_succ_apply]
      exact held_iterate_of_nil hrest n
  runs i n := by
    refine iff_of_false (by simp) fun h => ?_
    exact hword i h.first_le h.at_start
  ordered := .nil
  trailing := nofun
  joined := by
    have hall : ∀ c ∈ l.rest, isBlank c = true := by
      intro c hc
      obtain ⟨j, hj, rfl⟩ := List.getElem_of_mem hc
      by_contra hb
      refine hword (l.cursor + j) (Nat.le_add_right ..) ⟨l.rest[j], ?_, Bool.eq_false_iff.2 hb⟩
      rw [← List.getElem?_drop]
      exact List.getElem?_eq_getElem hj
    rw [List.flatMap_nil, List.append_nil]
    exact (List.takeWhile_eq_self_iff.2 hall).symm

theorem Takes.maximalRun_iff (h : l.Takes s) : MaximalRun l.text l.cursor i n ↔
    i = s.start ∧ n = s.length ∨ MaximalRun l.text l.advance.cursor i n := by
  have hcur := h.cursor
  have hpos := h.run.nonempty
  have hle := h.run.first_le
  constructor
  · intro hr
    rcases Nat.lt_trichotomy i s.start with hlt | rfl | hgt
    · exact absurd hr.at_start (h.skipped i hr.first_le hlt).not_wordAt
    · exact .inl ⟨rfl, hr.length_eq h.run⟩
    · right
      have hblank : BlankAt l.text (i - 1) := hr.before.resolve_left (by omega)
      have hbeyond : s.start + s.length ≤ i := by
        refine Nat.le_of_not_lt fun hlt => hblank.not_wordAt (h.run.word _ ?_ ?_) <;> omega
      exact ⟨hr.nonempty, hcur ▸ hbeyond, hr.word, .inr hblank, hr.after⟩
  · rintro (⟨rfl, rfl⟩ | hr)
    · exact h.run
    · have hne : i ≠ s.start + s.length := by
        rintro rfl
        exact h.run.after hr.at_start
      have hbeyond := hr.first_le
      exact ⟨hr.nonempty, by omega, hr.word, .inr (hr.before.resolve_left (by omega)), hr.after⟩

theorem Tokens.cons (h : l.Takes s) (hts : l.advance.Tokens ts) : l.Tokens (s :: ts) where
  held
    | 0 => h.held
    | n + 1 => by
      rw [Function.iterate_succ_apply]
      exact hts.held n
  runs i n := by
    rw [h.maximalRun_iff, ← l.advance_text, ← hts.runs]
    constructor
    · rintro ⟨t, ht⟩
      rcases List.mem_cons.1 ht with rfl | ht
      · exact .inl ⟨rfl, rfl⟩
      · exact .inr ⟨t, ht⟩
    · rintro (⟨rfl, rfl⟩ | ⟨t, ht⟩)
      · exact ⟨s.trailing, List.mem_cons_self⟩
      · exact ⟨t, List.mem_cons_of_mem s ht⟩
  ordered := by
    refine List.pairwise_cons.2 ⟨fun t ht => ?_, hts.ordered⟩
    have hr := (hts.runs t.start t.length).1 ⟨t.trailing, ht⟩
    rw [advance_text] at hr
    have hle := hr.first_le
    have hne : t.start ≠ s.start + s.length := by
      intro heq
      exact h.run.after (heq ▸ hr.at_start)
    have := h.cursor
    omega
  trailing t ht := by
    rcases List.mem_cons.1 ht with rfl | ht
    · exact h.trailing
    · have := hts.trailing t ht
      rwa [advance_text] at this
  joined := by
    have hts := hts.joined
    rw [advance_text] at hts
    rw [List.flatMap_cons, List.take_add, List.drop_drop, ← h.blanks, List.append_assoc, ← hts]
    exact h.joined

theorem exists_tokens (l : Line) : ∃ ts, l.Tokens ts := by
  induction hn : l.rest.length using Nat.strongRecOn generalizing l with
  | ind n ih =>
    subst hn
    rcases l.advance_spec with ⟨s, hs⟩ | ⟨hheld, hrest, hword⟩
    · have hlt : l.advance.rest.length < l.rest.length :=
        rest_advance_lt (t := l.textOf s) (by
          rw [Line.token?, hs.held, Option.map_some, textOf, textOf, advance_text])
      obtain ⟨ts, hts⟩ := ih _ hlt l.advance rfl
      exact ⟨s :: ts, .cons hs hts⟩
    · exact ⟨[], .nil hheld hrest hword⟩

/-- A token takes at least its own characters. -/
theorem cursor_advance_of_token {t : String} (h : l.advance.token? = some t) :
    0 < t.length ∧ l.cursor + t.length ≤ l.advance.cursor := by
  obtain ⟨-, -, -, hne⟩ := advance_token h
  rcases l.advance_spec with ⟨s, hs⟩ | ⟨hnone, -⟩
  · have hle := hs.run.first_le
    have hcur := hs.cursor
    have hlen : t.length ≤ s.length := by
      rw [Line.token?, hs.held] at h
      cases h
      rw [textOf, String.length_ofList]
      exact List.length_take_le _ _
    refine ⟨?_, by omega⟩
    rw [← String.length_toList]
    exact List.length_pos_iff.2 hne
  · rw [Line.token?, hnone] at h
    cases h

/-! ## The text up to a delimiter -/

variable {c : Char} {part tail : List Char}

/-- Where the text begins that a delimiter is looked for in. -/
def opening (l : Line) : Nat :=
  if (l.rest.head?.map isBlank).getD false then l.cursor + 1 else l.cursor

theorem drop_opening (l : Line) : l.text.drop l.opening = l.quotable := by
  unfold opening quotable
  split
  · exact l.drop_text 1
  · rfl

theorem opening_le (h : l.cursor ≤ l.text.length) : l.opening ≤ l.text.length := by
  unfold opening
  split <;> rename_i hb
  · refine Nat.lt_of_not_le fun hle => ?_
    rw [rest, List.drop_eq_nil_of_le hle] at hb
    cases hb
  · exact h

/-- The text before the first delimiter is unique. -/
theorem takeWhile_ne_append (h : c ∉ part) : (part ++ c :: tail).takeWhile (· != c) = part := by
  have hall : ∀ d ∈ part, (d != c) = true := by
    intro d hd
    rw [bne_iff_ne]
    rintro rfl
    exact h hd
  rw [List.takeWhile_append_of_pos hall, List.takeWhile_cons_of_neg (by simp), List.append_nil]

/-- What is taken is the text before the first delimiter. -/
theorem takeUntil_ok_iff : (l.takeUntil c).1 = .ok part ↔
    ∃ tail, l.quotable = part ++ c :: tail ∧ c ∉ part := by
  rw [(takeUntil_eq l c).1]
  constructor
  · intro h
    split at h <;> rename_i hmem
    · obtain ⟨before, tail, hq, hc⟩ := List.eq_append_cons_of_mem (by simpa using hmem)
      rw [hq, takeWhile_ne_append hc] at h
      cases h
      exact ⟨tail, hq, hc⟩
    · cases h
  · rintro ⟨tail, hq, hc⟩
    rw [hq, if_pos (by simp), takeWhile_ne_append hc]

theorem takeUntil_error_iff {e : Error} : (l.takeUntil c).1 = .error e ↔
    e = .unterminated ∧ c ∉ l.quotable := by
  rw [(takeUntil_eq l c).1]
  by_cases hc : c ∈ l.quotable
  · simp [hc]
  · simp [hc, eq_comm]

theorem cursor_takeUntil_eq (l : Line) (c : Char) : (l.takeUntil c).2.cursor = l.opening +
    if l.quotable.contains c then (l.quotable.takeWhile (· != c)).length + 1 else 0 := by
  have hopen : (if (l.rest.head?.map isBlank).getD false then l.cursor + 1 else l.cursor) =
    l.opening := rfl
  unfold takeUntil
  dsimp only
  rw [hopen, drop_opening]
  split
  · exact Nat.add_assoc _ _ _
  · rfl

/-- The cursor stands after the delimiter. -/
theorem takeUntil_closed (hq : l.quotable = part ++ c :: tail) (hc : c ∉ part) :
    (l.takeUntil c).2.rest = tail ∧ (l.takeUntil c).2.cursor = l.opening + (part.length + 1) := by
  have hcontains : l.quotable.contains c = true := by simp [hq]
  rw [cursor_takeUntil_eq, (takeUntil_eq l c).2, if_pos hcontains, if_pos hcontains, hq,
    takeWhile_ne_append hc]
  refine ⟨?_, rfl⟩
  rw [List.append_cons, List.drop_left' (by simp)]

theorem length_quotable (hq : l.quotable = part ++ c :: tail) :
    l.opening + (part.length + 1) + tail.length = l.text.length := by
  have hlen := congrArg List.length (l.drop_opening.trans hq)
  rw [List.length_drop, List.length_append, List.length_cons] at hlen
  omega

/-! ## Readings in any order -/

/-- A way to read on. -/
inductive Reading where
  /-- The next token is taken. -/
  | token
  /-- The text up to a delimiter is taken. -/
  | upTo (delimiter : Char)
  /-- All that is left is passed. -/
  | all

/-- The line after a reading. -/
def Reading.run : Reading → Line → Line
  | token, l => l.advance
  | upTo c, l => (l.takeUntil c).2
  | all, l => l.skip

/-- The line after some readings. -/
def readAll (rs : List Reading) (l : Line) : Line :=
  rs.foldl (fun l r => r.run l) l

/-- A line that has been read on: the same text, with the cursor further on or where it was. -/
structure ReadsOn (l k : Line) : Prop where
  text : k.text = l.text
  forward : l.cursor ≤ k.cursor
  inside : k.cursor ≤ k.text.length

theorem ReadsOn.trans {l₁ l₂ l₃ : Line} (h : l₁.ReadsOn l₂) (h' : l₂.ReadsOn l₃) :
    l₁.ReadsOn l₃ :=
  ⟨h'.text.trans h.text, Nat.le_trans h.forward h'.forward, h'.inside⟩

theorem readsOn_advance (h : l.cursor ≤ l.text.length) : l.ReadsOn l.advance := by
  obtain ⟨htext, hcur⟩ := l.cursor_advance
  have hlen : l.rest.length = l.text.length - l.cursor := List.length_drop
  have hle := congrArg List.length (List.takeWhile_append_dropWhile (p := isBlank) (l := l.rest))
  have hword := (List.takeWhile_sublist (l := l.rest.dropWhile isBlank)
    fun c => !isBlank c).length_le
  rw [List.length_append] at hle
  refine ⟨htext, ?_, ?_⟩
  · rw [hcur]
    exact Nat.le_add_right ..
  · rw [htext, hcur]
    omega

theorem readsOn_takeUntil (h : l.cursor ≤ l.text.length) (c : Char) :
    l.ReadsOn (l.takeUntil c).2 := by
  obtain ⟨htext, hforward⟩ := l.takeUntil_spec c
  refine ⟨htext, hforward, ?_⟩
  rw [htext]
  by_cases hc : c ∈ l.quotable
  · obtain ⟨part, tail, hq, hpart⟩ := List.eq_append_cons_of_mem hc
    have hlen := length_quotable hq
    rw [(takeUntil_closed hq hpart).2]
    omega
  · rw [cursor_takeUntil_eq, if_neg (by simpa using hc)]
    exact l.opening_le h

/-- One reading keeps the text, and moves the cursor on inside it. -/
theorem Reading.readsOn (r : Reading) (h : l.cursor ≤ l.text.length) : l.ReadsOn (r.run l) := by
  cases r with
  | token => exact readsOn_advance h
  | upTo c => exact readsOn_takeUntil h c
  | all => exact ⟨rfl, h, Nat.le_refl _⟩

/-- So do any number of readings in any order. -/
theorem readAll_readsOn (rs : List Reading) (h : l.cursor ≤ l.text.length) :
    l.ReadsOn (readAll rs l) := by
  induction rs generalizing l with
  | nil => exact ⟨rfl, Nat.le_refl _, h⟩
  | cons r rs ih =>
    have hr := r.readsOn h
    exact hr.trans (ih hr.inside)

/-- What the three readings yield and where they leave the cursor, from where it stands. -/
structure ReadsWell (l : Line) : Prop where
  /-- The tokens that are taken are exactly the maximal runs of what has not been read. -/
  tokens : ∃ ts, l.Tokens ts ∧ ∀ n, (advance^[n + 1] l).token? = ts[n]?.map l.textOf
  /-- Each token takes a character or more. -/
  progress : ∀ t, l.advance.token? = some t →
    0 < t.length ∧ l.cursor + t.length ≤ l.advance.cursor
  /-- The cursor never moves back, and never past the end. -/
  onward : ∀ r : Reading, l.ReadsOn (r.run l)
  /-- The text up to a delimiter is the text before the next one. -/
  quoted : ∀ c part, (l.takeUntil c).1 = .ok part ↔
    ∃ tail, l.quotable = part ++ c :: tail ∧ c ∉ part
  /-- The cursor is left after that delimiter. -/
  closed : ∀ c part tail, l.quotable = part ++ c :: tail → c ∉ part →
    (l.takeUntil c).2.rest = tail ∧ (l.takeUntil c).2.cursor + tail.length = l.text.length
  /-- It is an error if there is none. -/
  unterminated : ∀ c e, (l.takeUntil c).1 = .error e ↔ e = .unterminated ∧ c ∉ l.quotable

theorem readsWell (h : l.cursor ≤ l.text.length) : l.ReadsWell where
  tokens := by
    obtain ⟨ts, hts⟩ := l.exists_tokens
    exact ⟨ts, hts, hts.token?⟩
  progress _ := cursor_advance_of_token
  onward r := r.readsOn h
  quoted _ _ := takeUntil_ok_iff
  closed c part tail hq hc := by
    obtain ⟨hrest, hcur⟩ := takeUntil_closed hq hc
    exact ⟨hrest, hcur ▸ length_quotable hq⟩
  unterminated _ _ := takeUntil_error_iff

/-- **The tokens of a line.**  A line of ASCII text that fits is read from its start.  However it has
    been read on, the text is the same and the cursor has never moved back nor past the end; taking
    tokens yields exactly the maximal runs of what has not been read, in order and with the blanks
    after each, and then none for ever; the text up to a delimiter goes from the one blank that is
    passed to the next delimiter, and fails if there is none. -/
theorem tokens_of_fill {t : String} (hfits : t.utf8ByteSize ≤ l.capacity)
    (hascii : t.toList.all isAscii = true) :
    ∃ k, l.fill t = .ok k ∧ k.rest = t.toList ∧ k.held = none ∧
      ∀ rs, k.ReadsOn (readAll rs k) ∧ (readAll rs k).ReadsWell := by
  refine ⟨l.filled t.toList, fill_of_fits hfits hascii, rfl, rfl, fun rs => ?_⟩
  have hstart : (l.filled t.toList).cursor ≤ (l.filled t.toList).text.length := Nat.zero_le _
  have hrs := readAll_readsOn rs hstart
  exact ⟨hrs, readsWell hrs.inside⟩

/-- A quoted text between two tokens, and no second one after it. -/
theorem tokens_of_fill_of_quote :
    (".\" Hello World\" cr".utf8ByteSize ≤ 64 ∧ ".\" Hello World\" cr".toList.all isAscii = true) ∧
    ∃ k, fill { capacity := 64 } ".\" Hello World\" cr" = .ok k ∧
      ((readAll [.token] k).takeUntil '"').1 = .ok "Hello World".toList ∧
      ((readAll [.token, .upTo '"'] k).takeUntil '"').1 = .error .unterminated := by
  have hfits : ".\" Hello World\" cr".utf8ByteSize ≤ 64 := by decide
  have hascii : ".\" Hello World\" cr".toList.all isAscii = true := by decide
  obtain ⟨k, hk, -, -, h⟩ := tokens_of_fill (l := { capacity := 64 }) hfits hascii
  obtain rfl : k = filled { capacity := 64 } ".\" Hello World\" cr".toList :=
    Except.ok.inj (hk.symm.trans (fill_of_fits hfits hascii))
  refine ⟨⟨hfits, hascii⟩, _, hk, ?_, ?_⟩
  · exact ((h [.token]).2.quoted '"' _).2 ⟨" cr".toList, by decide, by decide⟩
  · exact ((h [.token, .upTo '"']).2.unterminated '"' _).2 ⟨rfl, by decide⟩

end Line
end ThreadedForth
