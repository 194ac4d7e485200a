/-
  Pointer arithmetic on the slots of a word.
-/
import ThreadedForth.Proofs.HeapShape

namespace ThreadedForth

/-! ## Slots -/

/-- A position that a pointer can have. -/
def Addressable (i : Int) : Prop :=
  1 ≤ i ∧ i ≤ Int64.maxValue.toInt

instance (i : Int) : Decidable (Addressable i) :=
  inferInstanceAs (Decidable (_ ∧ _))

/-- The first slot that holds data. -/
theorem addressable_one : Addressable (1 : Nat) := by
  decide

/-- Two pointers point to the same slot; their types may be from different times. -/
def Pointer.SameSlot (p q : Pointer) : Prop :=
  p.target = q.target ∧ p.index = q.index

namespace Pointer.SameSlot

variable {p q r : Pointer}

theorem refl (p : Pointer) : p.SameSlot p :=
  ⟨rfl, rfl⟩

end Pointer.SameSlot

/-- The language calls pointers equal that point to the same slot. -/
theorem Value.same_ptr_iff {p q : Pointer} :
    Value.same (.ptr p) (.ptr q) = true ↔ p.SameSlot q := by
  simp [Value.same, Pointer.SameSlot]

section Integers

variable {n : Int64} {i : Nat}

theorem toInt_maxValue : Int64.maxValue.toInt = 9223372036854775807 := rfl

/-- The negation of an integer, except that of the least integer, which is the least integer. -/
theorem toInt_neg_cases (n : Int64) :
    (-n).toInt = -n.toInt ∨ n.toInt = -9223372036854775808 ∧ (-n).toInt = -9223372036854775808 := by
  have hlow := n.le_toInt
  have hhigh := n.toInt_lt
  rw [Int64.toInt_neg]
  by_cases hmin : n.toInt = -9223372036854775808
  · rw [hmin]
    exact .inr ⟨rfl, rfl⟩
  · exact .inl (Int.bmod_eq_of_le (by omega) (by omega))

/-- Moving backwards by the least integer leads nowhere, and so does moving forwards by it. -/
theorem addressable_add_neg (hi : Addressable i) (n : Int64) :
    Addressable (i + (-n).toInt) ↔ Addressable (i - n.toInt) := by
  have hn := toInt_neg_cases n
  unfold Addressable at hi ⊢
  rw [toInt_maxValue] at hi ⊢
  omega

theorem add_neg_eq (hi : Addressable i) (h : Addressable (i - n.toInt)) :
    i + (-n).toInt = i - n.toInt := by
  have hn := toInt_neg_cases n
  unfold Addressable at hi h
  rw [toInt_maxValue] at hi h
  omega

/-- Two distances that lead from one slot to another can be added. -/
theorem toInt_add_of_addressable {m n : Int64} (hi : Addressable i)
    (h : Addressable (i + m.toInt + n.toInt)) : (m + n).toInt = m.toInt + n.toInt := by
  unfold Addressable at hi h
  rw [toInt_maxValue] at hi h
  rw [Int64.toInt_add]
  exact Int.bmod_eq_of_le (by omega) (by omega)

theorem toInt_difference {j : Nat} (hi : Addressable i) (hj : Addressable j) :
    (Int64.ofInt (i - j)).toInt = i - j := by
  unfold Addressable at hi hj
  rw [toInt_maxValue] at hi hj
  exact Int64.toInt_ofInt_of_le (by omega) (by omega)

/-- A position that a pointer can have is an integer of 64 bits. -/
theorem toInt_ofNat_of_addressable {j : Nat} (h : Addressable j) : (Int64.ofNat j).toInt = j := by
  unfold Addressable at h
  rw [toInt_maxValue] at h
  exact Int64.toInt_ofNat_of_lt (by omega)

end Integers

/-! ## Moving a pointer -/

namespace Heap

variable {h : Heap} {p q : Pointer} {n : Int64} {v : Value} {i : Int}

/-- What comes of moving a pointer to the position `i`: a pointer to this slot of the same word,
    with the type that the slot has now, if a pointer can have this position; otherwise an error
    that tells where the pointer was. -/
structure Reaches (h : Heap) (p : Pointer) (i : Int) (r : Except Error Value) : Prop where
  succeeds_iff : (∃ v, r = .ok v) ↔ Addressable i
  pointer : ∀ v, r = .ok v → ∃ q, v = .ptr q ∧ q.target = p.target ∧ (q.index : Int) = i ∧
    q = h.pointer p.target q.index
  refused : ∀ e, r = .error e → e = .badWordOffset (h.word p.target).name.text p.index

theorem moved_eq (h : Heap) (p : Pointer) (n : Int64) (hi : (Int64.ofNat p.index).toInt + n.toInt = i) :
    h.moved p n = if 1 ≤ i ∧ i ≤ Int64.maxValue.toInt then .ok (.ptr (h.pointer p.target i.toNat))
      else .error (.badWordOffset (h.word p.target).name.text p.index) := by
  unfold moved offset
  rw [hi]
  dsimp only
  split <;> rfl

theorem moved_reaches (hp : Addressable p.index) (h : Heap) (n : Int64) :
    h.Reaches p (p.index + n.toInt) (h.moved p n) := by
  rw [moved_eq h p n (by rw [toInt_ofNat_of_addressable hp])]
  split
  · rename_i hr
    refine ⟨⟨fun _ => hr, fun _ => ⟨_, rfl⟩⟩, fun v hv => ?_, nofun⟩
    cases hv
    exact ⟨_, rfl, rfl, Int.toNat_of_nonneg (by omega), rfl⟩
  · rename_i hr
    exact ⟨⟨nofun, fun ha => absurd ha hr⟩, nofun, fun e he => by cases he; rfl⟩

theorem moved_neg_reaches (hp : Addressable p.index) (h : Heap) (n : Int64) :
    h.Reaches p (p.index - n.toInt) (h.moved p (-n)) := by
  have hm := moved_reaches hp h (-n)
  refine ⟨hm.succeeds_iff.trans (addressable_add_neg hp n), fun v hv => ?_, hm.refused⟩
  have ha := (addressable_add_neg hp n).1 (hm.succeeds_iff.1 ⟨v, hv⟩)
  rw [← add_neg_eq hp ha]
  exact hm.pointer v hv

/-- A pointer that has been moved. -/
theorem Reaches.of_ok (hr : h.Reaches p i (.ok (.ptr q))) :
    q.target = p.target ∧ (q.index : Int) = i ∧ Addressable i := by
  obtain ⟨_, hq, ht, hi, -⟩ := hr.pointer _ rfl
  cases hq
  exact ⟨ht, hi, hr.succeeds_iff.1 ⟨_, rfl⟩⟩

/-- Where a pointer is moved to depends on the slot alone. -/
theorem Reaches.exists_ok {r : Except Error Value} (hr : h.Reaches p i r) (hi : Addressable i) :
    ∃ q, r = .ok (.ptr q) ∧ q.target = p.target ∧ (q.index : Int) = i ∧
      q = h.pointer p.target q.index := by
  obtain ⟨v, rfl⟩ := hr.succeeds_iff.2 hi
  obtain ⟨q, rfl, ht, hq, hs⟩ := hr.pointer v rfl
  exact ⟨q, rfl, ht, hq, hs⟩

end Heap

/-! ## The laws -/

open Heap

/-- Integers act on the slots of the word that a pointer points into.  Each of the operators may
    find another heap, since the word may have grown between them. -/
structure Pointer.Acts (p : Pointer) : Prop where
  add : ∀ (h : Heap) n, h.Reaches p (p.index + n.toInt) (h.applyValues (.ptr p) (.int n) .add)
  addLeft : ∀ (h : Heap) n, h.Reaches p (p.index + n.toInt) (h.applyValues (.int n) (.ptr p) .add)
  sub : ∀ (h : Heap) n, h.Reaches p (p.index - n.toInt) (h.applyValues (.ptr p) (.int n) .sub)
  /-- Moving twice is moving once by the sum, which does not overflow. -/
  assoc : ∀ {h₁ h₂ : Heap} {m n q r}, h₁.applyValues (.ptr p) (.int m) .add = .ok (.ptr q) →
    h₂.applyValues (.ptr q) (.int n) .add = .ok (.ptr r) → ∀ h : Heap, ∃ k s,
      h.applyValues (.int m) (.int n) .add = .ok (.int k) ∧ k.toInt = m.toInt + n.toInt ∧
      h.applyValues (.ptr p) (.int k) .add = .ok (.ptr s) ∧ s.SameSlot r ∧ (h = h₂ → s = r)
  cancel : ∀ {h₁ : Heap} {n q}, h₁.applyValues (.ptr p) (.int n) .add = .ok (.ptr q) →
    ∀ h : Heap, ∃ r, h.applyValues (.ptr q) (.int n) .sub = .ok (.ptr r) ∧ r.SameSlot p
  distance : ∀ {h₁ : Heap} {n q}, h₁.applyValues (.ptr p) (.int n) .add = .ok (.ptr q) →
    ∀ h : Heap, h.applyValues (.ptr q) (.ptr p) .sub = .ok (.int n)
  difference : ∀ q : Pointer, Addressable q.index → q.target = p.target → ∀ h : Heap, ∃ d,
    h.applyValues (.ptr p) (.ptr q) .sub = .ok (.int d) ∧ d.toInt = p.index - q.index
  /-- Pointers into different words have no difference. -/
  apart : ∀ q : Pointer, q.target ≠ p.target → ∀ h : Heap,
    h.applyValues (.ptr p) (.ptr q) .sub = .error (noRule (.ptr p) (.ptr q) .sub)
  /-- What pointers are called equal. -/
  equal : ∀ (q : Pointer) (h : Heap), ∃ b, h.applyValues (.ptr p) (.ptr q) .eq = .ok (.bool b) ∧
    (b = true ↔ p.SameSlot q)

/-- **Integers act on the slots of a word.** -/
theorem Pointer.acts {p : Pointer} (hp : Addressable p.index) : p.Acts := by
  have hadd : ∀ (h : Heap) {q : Pointer} n, Addressable q.index →
      h.Reaches q (q.index + n.toInt) (h.applyValues (.ptr q) (.int n) .add) :=
    fun h _ n hq => moved_reaches hq h n
  have hdiff : ∀ (h : Heap) (q r : Pointer), h.applyValues (.ptr q) (.ptr r) .sub =
      if q.target = r.target then .ok (.int (Int64.ofInt (q.index - r.index)))
      else .error (noRule (.ptr q) (.ptr r) .sub) :=
    fun _ _ _ => rfl
  constructor
  case add => exact fun h n => hadd h n hp
  case addLeft => exact fun h n => hadd h n hp
  case sub => exact fun h n => moved_neg_reaches hp h n
  case assoc =>
    intro h₁ h₂ m n q r hq hr h
    obtain ⟨hqt, hqi, hqa⟩ := (hq ▸ hadd h₁ m hp).of_ok
    have hreach := hr ▸ hadd h₂ n (hqi ▸ hqa)
    obtain ⟨hrt, hri, hra⟩ := hreach.of_ok
    rw [hqi] at hri hra
    have hk : (m + n).toInt = m.toInt + n.toInt := toInt_add_of_addressable hp hra
    have hsum : (p.index : Int) + (m + n).toInt = p.index + m.toInt + n.toInt := by omega
    obtain ⟨s, hs, hst, hsi, hsp⟩ := (hadd h (m + n) hp).exists_ok (hsum ▸ hra)
    have hsame : s.SameSlot r := ⟨hst.trans (hqt.symm.trans hrt.symm), by omega⟩
    refine ⟨m + n, s, rfl, hk, hs, hsame, ?_⟩
    rintro rfl
    obtain ⟨_, hr', -, -, hrp⟩ := hreach.pointer _ rfl
    cases hr'
    rw [hsp, hrp, hqt, hsame.2]
  case cancel =>
    intro h₁ n q hq h
    obtain ⟨hqt, hqi, hqa⟩ := (hq ▸ hadd h₁ n hp).of_ok
    have hback : (q.index : Int) - n.toInt = p.index := by omega
    obtain ⟨r, hr, hrt, hri, -⟩ := (moved_neg_reaches (hqi ▸ hqa) h n).exists_ok (hback ▸ hp)
    exact ⟨r, hr, hrt.trans hqt, by omega⟩
  case distance =>
    intro h₁ n q hq h
    obtain ⟨hqt, hqi, -⟩ := (hq ▸ hadd h₁ n hp).of_ok
    have hn : (q.index : Int) - p.index = n.toInt := by omega
    rw [hdiff, if_pos hqt, hn, Int64.ofInt_toInt]
  case difference =>
    intro q hq ht h
    exact ⟨_, (hdiff h p q).trans (if_pos ht.symm), toInt_difference hp hq⟩
  case apart => exact fun q ht h => (hdiff h p q).trans (if_neg (Ne.symm ht))
  case equal => exact fun q h => ⟨_, rfl, Value.same_ptr_iff⟩

/-! ## Reading and writing -/

namespace Word

variable {w x : Word} {i : Nat} {v : Value} {e : Error}

theorem load_eq_ok_iff : w.load i = .ok v ↔ w.body[i]? = some (.lit v) ∧ i ≠ 0 := by
  unfold load
  split
  · rename_i u hu
    rw [hu]
    split
    · rename_i h₀
      simp [h₀]
    · rename_i h₀
      simp [h₀]
  · rename_i hn
    simp only [reduceCtorEq, false_iff, not_and]
    exact fun h => absurd h (hn v)

theorem load_eq_ok (h : w.load i = .ok v) : w.body[i]? = some (.lit v) ∧ i ≠ 0 :=
  load_eq_ok_iff.1 h

theorem load_eq_error (h : w.load i = .error e) : e = w.badOffset i := by
  unfold load at h
  split at h
  · split at h
    · cases h
      rfl
    · cases h
  · cases h
    rfl

theorem store_of_load {u : Value} (h : w.load i = .ok u) (v : Value) :
    w.store i v = .ok { w with body := w.body.setIfInBounds i (.lit v) } := by
  rw [store, h]

theorem store_of_load_error (h : w.load i = .error e) (v : Value) : w.store i v = .error e := by
  rw [store, h]

end Word

namespace Heap

variable {h h' : Heap} {p : Pointer} {v : Value} {e : Error}

/-- What can be read through a pointer is the data in the slot. -/
theorem load_eq_ok_iff :
    h.load p = .ok v ↔ (h.word p.target).body[p.index]? = some (.lit v) ∧ p.index ≠ 0 :=
  Word.load_eq_ok_iff

theorem load_eq_error (he : h.load p = .error e) :
    e = .badWordOffset (h.word p.target).label p.index :=
  Word.load_eq_error he

/-- A heap after a value has been stored in a slot: nothing else has changed. -/
structure Stored (h : Heap) (p : Pointer) (v : Value) (h' : Heap) : Prop where
  objects : h'.objects = h.objects
  size : h'.words.size = h.words.size
  slots : ∀ w i, (h'.word w).body[i]? =
    if w = p.target ∧ i = p.index then some (.lit v) else (h.word w).body[i]?
  /-- Words keep their names and flags. -/
  word : ∀ w, h'.word w = { h.word w with body := (h'.word w).body }

/-- A value is stored exactly where one can be read, and nowhere else. -/
theorem store_stored {u : Value} (hu : h.load p = .ok u) (v : Value) :
    ∃ h', h.store p v = .ok h' ∧ h.Stored p v h' := by
  obtain ⟨hb, -⟩ := load_eq_ok_iff.1 hu
  have hlt : p.index < (h.word p.target).body.size := (Array.getElem?_eq_some_iff.1 hb).1
  have hw : p.target.index < h.words.size := by
    refine Nat.lt_of_not_le fun hw => ?_
    simp [Heap.word, hw, default, Word.blank] at hlt
  generalize hx : ({ h.word p.target with
    body := (h.word p.target).body.setIfInBounds p.index (.lit v) } : Word) = x
  have hstore : h.store p v = .ok (h.setWord p.target x) := by
    rw [store, changeWord, Word.store_of_load hu, ← hx]
  have hword : ∀ w, (h.setWord p.target x).word w = if w = p.target then x else h.word w := by
    intro w
    rw [word_setWord]
    by_cases hwt : w = p.target
    · rw [if_pos hwt, if_pos ⟨hwt, hw⟩]
    · rw [if_neg hwt, if_neg fun hc => hwt hc.1]
  refine ⟨_, hstore, rfl, by simp [setWord], fun w i => ?_, fun w => ?_⟩
  · rw [hword]
    by_cases hwt : w = p.target
    · subst hwt
      rw [if_pos rfl, ← hx]
      by_cases hi : i = p.index
      · subst hi
        simp [hlt]
      · rw [if_neg fun hc => hi hc.2]
        exact Array.getElem?_setIfInBounds_ne (Ne.symm hi)
    · rw [if_neg hwt, if_neg fun hc => hwt hc.1]
  · rw [hword]
    split
    · rename_i hwt
      rw [hwt, ← hx]
    · rfl

theorem store_of_load_error (he : h.load p = .error e) (v : Value) : h.store p v = .error e := by
  rw [store, changeWord, Word.store_of_load_error he]

/-- **Reading and writing through a pointer.**  Both succeed exactly if the slot holds data; what
    is read is this data, what is written replaces it and changes nothing else. -/
structure Accesses (h : Heap) (p : Pointer) : Prop where
  load_iff : ∀ v, h.load p = .ok v ↔
    (h.word p.target).body[p.index]? = some (.lit v) ∧ p.index ≠ 0
  store_iff : ∀ v, (∃ h', h.store p v = .ok h') ↔ ∃ u, h.load p = .ok u
  stored : ∀ v h', h.store p v = .ok h' → h.Stored p v h'
  load_error : ∀ e, h.load p = .error e → e = .badWordOffset (h.word p.target).label p.index
  store_error : ∀ v e, h.store p v = .error e →
    e = .badWordOffset (h.word p.target).label p.index

theorem accesses (h : Heap) (p : Pointer) : h.Accesses p := by
  cases hl : h.load p with
  | ok u =>
    refine ⟨fun v => load_eq_ok_iff, fun v => ?_, fun v h' hs => ?_,
      fun e he => load_eq_error he, fun v e he => ?_⟩
    · obtain ⟨h', hs, -⟩ := store_stored hl v
      exact ⟨fun _ => ⟨u, hl⟩, fun _ => ⟨h', hs⟩⟩
    · obtain ⟨h'', hs', hd⟩ := store_stored hl v
      rw [hs] at hs'
      cases hs'
      exact hd
    · obtain ⟨h', hs, -⟩ := store_stored hl v
      rw [hs] at he
      cases he
  | error e =>
    have hs := store_of_load_error hl
    refine ⟨fun v => load_eq_ok_iff, fun v => ?_, fun v h' hv => ?_,
      fun e he => load_eq_error he, fun v e' he => ?_⟩
    · rw [hs, hl]
      exact ⟨nofun, nofun⟩
    · rw [hs] at hv
      cases hv
    · rw [hs] at he
      cases he
      exact load_eq_error hl

end Heap
end ThreadedForth
