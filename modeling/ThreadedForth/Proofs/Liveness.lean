/-
  What is alive: the largest set of words and objects that roots and its members keep alive.
-/
import ThreadedForth.Proofs.HeapShape

namespace ThreadedForth

/-! ## Sets that keep themselves alive -/

namespace Heap

variable {h : Heap} {roots more : List Ref} {r s : Ref}

/-- The references held by a word or an object. -/
def refsOf (h : Heap) : Ref → List Ref
  | .word w => (h.word w).refs
  | .object o => (h.object o).refs

theorem has_of_mem_refsOf (hr : r ∈ h.refsOf s) : h.Has s := by
  cases s with
  | word w =>
    refine Nat.lt_of_not_le fun hw => ?_
    simp [refsOf, word, hw, default, Word.blank, Word.refs] at hr
  | object o =>
    refine Nat.lt_of_not_le fun ho => ?_
    simp [refsOf, object, ho, default, Obj.refs, Obj.items] at hr

/-- A set of words and objects of the heap, each of which a root or a member refers to. -/
def Kept (h : Heap) (roots : List Ref) (S : Ref → Prop) : Prop :=
  ∀ r, S r → h.Has r ∧ (r ∈ roots ∨ ∃ s, S s ∧ r ∈ h.refsOf s)

/-- What is alive belongs to a set that keeps itself alive. -/
def Alive (h : Heap) (roots : List Ref) (r : Ref) : Prop :=
  ∃ S, h.Kept roots S ∧ S r

theorem Alive.kept (h : Heap) (roots : List Ref) : h.Kept roots (h.Alive roots) := by
  rintro r ⟨S, hS, hr⟩
  obtain ⟨hh, hroot | ⟨s, hs, hrs⟩⟩ := hS r hr
  · exact ⟨hh, .inl hroot⟩
  · exact ⟨hh, .inr ⟨s, ⟨S, hS, hs⟩, hrs⟩⟩

theorem Alive.has (ha : h.Alive roots r) : h.Has r := (Alive.kept h roots r ha).1

theorem Alive.root (hr : r ∈ roots) (hh : h.Has r) : h.Alive roots r := by
  refine ⟨(· = r), ?_, rfl⟩
  rintro _ rfl
  exact ⟨hh, .inl hr⟩

theorem Alive.ref (hs : h.Alive roots s) (hr : r ∈ h.refsOf s) (hh : h.Has r) :
    h.Alive roots r := by
  refine ⟨fun x => h.Alive roots x ∨ x = r, ?_, .inr rfl⟩
  rintro x (hx | rfl)
  · obtain ⟨hh, hroot | ⟨y, hy, hxy⟩⟩ := Alive.kept h roots x hx
    · exact ⟨hh, .inl hroot⟩
    · exact ⟨hh, .inr ⟨y, .inl hy, hxy⟩⟩
  · exact ⟨hh, .inr ⟨s, .inl hs, hr⟩⟩

theorem Alive.mono (ha : h.Alive roots r) (hsub : ∀ x ∈ roots, x ∈ more) : h.Alive more r := by
  obtain ⟨S, hS, hr⟩ := ha
  refine ⟨S, fun x hx => ?_, hr⟩
  obtain ⟨hh, hroot | hin⟩ := hS x hx
  · exact ⟨hh, .inl (hsub x hroot)⟩
  · exact ⟨hh, .inr hin⟩

end Heap

/-! ## Marks -/

namespace Marks

variable {h : Heap} {m n : Marks} {r s : Ref}

/-- Marks for the words and objects of a heap. -/
structure Fits (m : Marks) (h : Heap) : Prop where
  words : m.words.size = h.words.size
  objects : m.objects.size = h.objects.size

theorem fits_none (h : Heap) : (none h).Fits h := ⟨by simp [none], by simp [none]⟩

theorem fits_all (h : Heap) : (all h).Fits h := ⟨by simp [all], by simp [all]⟩

theorem has_none (h : Heap) (r : Ref) : (none h).has r = false := by
  cases r <;> simp only [none, has, Array.getElem?_replicate] <;> split <;> rfl

theorem has_all : (all h).has r = true ↔ h.Has r := by
  cases r <;> simp only [all, has, Heap.Has, Array.getElem?_replicate] <;> split <;> simp_all

theorem Fits.add (hm : m.Fits h) (r : Ref) : (m.add r).Fits h := by
  cases r with
  | word w => exact ⟨by simpa [Marks.add] using hm.words, hm.objects⟩
  | object o => exact ⟨hm.words, by simpa [Marks.add] using hm.objects⟩

theorem Fits.has_of_has (hm : m.Fits h) (hr : m.has r = true) : h.Has r := by
  cases r with
  | word w =>
    refine Nat.lt_of_not_le fun hw => ?_
    simp [has, hm.words, hw] at hr
  | object o =>
    refine Nat.lt_of_not_le fun ho => ?_
    simp [has, hm.objects, ho] at hr

theorem getD_setIfInBounds (a : Array Bool) (i j : Nat) :
    (a.setIfInBounds j true)[i]?.getD false = true ↔
      a[i]?.getD false = true ∨ (i = j ∧ j < a.size) := by
  rw [Array.getElem?_setIfInBounds]
  by_cases hij : j = i
  · subst hij
    by_cases hj : j < a.size <;> simp [hj]
  · simp [hij, Ne.symm hij]

theorem Fits.has_add (hm : m.Fits h) :
    (m.add s).has r = true ↔ m.has r = true ∨ (r = s ∧ h.Has s) := by
  rcases r with ⟨⟨i⟩⟩ | ⟨⟨i⟩⟩ <;> rcases s with ⟨⟨j⟩⟩ | ⟨⟨j⟩⟩
  · simpa [Marks.add, has, Heap.Has, hm.words] using getD_setIfInBounds m.words i j
  · simp [Marks.add, has]
  · simp [Marks.add, has]
  · simpa [Marks.add, has, Heap.Has, hm.objects] using getD_setIfInBounds m.objects i j

theorem Fits.foldl_add (hm : m.Fits h) (rs : List Ref) :
    (rs.foldl Marks.add m).Fits h ∧
      ∀ r, (rs.foldl Marks.add m).has r = true ↔ m.has r = true ∨ (r ∈ rs ∧ h.Has r) := by
  induction rs generalizing m with
  | nil => exact ⟨hm, by simp⟩
  | cons s rs ih =>
    obtain ⟨hf, hh⟩ := ih (hm.add s)
    refine ⟨hf, fun r => ?_⟩
    rw [List.foldl_cons, hh, hm.has_add, List.mem_cons]
    constructor
    · rintro ((h₁ | ⟨rfl, h₂⟩) | ⟨h₁, h₂⟩)
      · exact .inl h₁
      · exact .inr ⟨.inl rfl, h₂⟩
      · exact .inr ⟨.inr h₁, h₂⟩
    · rintro (h₁ | ⟨rfl | h₁, h₂⟩)
      · exact .inl (.inl h₁)
      · exact .inl (.inr ⟨rfl, h₂⟩)
      · exact .inr ⟨h₁, h₂⟩

/-- One set is part of another. -/
def Below (m n : Marks) : Prop :=
  ∀ r, m.has r = true → n.has r = true

/-- The number of words and objects in the set. -/
def count (m : Marks) : Nat :=
  m.words.toList.count true + m.objects.toList.count true

theorem count_le : ∀ {a b : List Bool}, a.length = b.length →
    (∀ i : Nat, a[i]?.getD false = true → b[i]?.getD false = true) →
    a.count true ≤ b.count true ∧ (a.count true = b.count true → a = b)
  | [], [], _, _ => by simp
  | x :: a, y :: b, hl, h => by
    obtain ⟨h₁, h₂⟩ := count_le (a := a) (b := b) (by simpa using hl) fun i => by
      simpa using h (i + 1)
    have h₀ : x = true → y = true := by simpa using h 0
    cases x <;> cases y
    · simpa using ⟨h₁, h₂⟩
    · refine ⟨by simp; omega, fun he => ?_⟩
      simp at he
      omega
    · simp at h₀
    · simpa using ⟨h₁, h₂⟩

/-- A smaller set that is not the same has fewer members. -/
theorem Fits.count_lt (hm : m.Fits h) (hn : n.Fits h) (hmn : m.Below n) (hne : m ≠ n) :
    m.count < n.count := by
  have hw := count_le (a := m.words.toList) (b := n.words.toList)
    (by simp [hm.words, hn.words]) fun i => by simpa [has] using hmn (.word ⟨i⟩)
  have ho := count_le (a := m.objects.toList) (b := n.objects.toList)
    (by simp [hm.objects, hn.objects]) fun i => by simpa [has] using hmn (.object ⟨i⟩)
  refine Nat.lt_of_le_of_ne (Nat.add_le_add hw.1 ho.1) fun he => hne ?_
  have he : m.words.toList.count true + m.objects.toList.count true =
    n.words.toList.count true + n.objects.toList.count true := he
  have h₁ := Array.toList_inj.1 (hw.2 (by omega))
  have h₂ := Array.toList_inj.1 (ho.2 (by omega))
  cases m; cases n
  simp_all

theorem count_all (h : Heap) : (all h).count = h.words.size + h.objects.size := by
  simp [count, all]

end Marks

/-! ## The computation -/

namespace Heap

variable {h : Heap} {roots more : List Ref} {m n : Marks} {r : Ref}

theorem mem_flatMap_zip {α : Type} (f : α → List Ref) (xs : List α) (bs : List Bool)
    (hl : bs.length = xs.length) :
    (r ∈ (xs.zip bs).flatMap fun (x, kept) => if kept then f x else []) ↔
      ∃ (i : Nat) (x : α), xs[i]? = some x ∧ bs[i]?.getD false = true ∧ r ∈ f x := by
  induction xs generalizing bs with
  | nil => simp
  | cons x xs ih =>
    obtain ⟨b, bs, rfl⟩ : ∃ b bs', bs = b :: bs' := List.exists_cons_of_length_pos (by simp [hl])
    rw [List.zip_cons_cons, List.flatMap_cons, List.mem_append, ih bs (by simpa using hl)]
    constructor
    · rintro (hr | ⟨i, y, hy, hb, hr⟩)
      · cases b with
        | true => exact ⟨0, x, rfl, rfl, hr⟩
        | false => cases hr
      · exact ⟨i + 1, y, hy, hb, hr⟩
    · rintro ⟨_ | i, y, hy, hb, hr⟩
      · obtain rfl : x = y := by simpa using hy
        obtain rfl : b = true := by simpa using hb
        exact .inl hr
      · exact .inr ⟨i, y, hy, hb, hr⟩

theorem mem_heldBy (hm : m.Fits h) :
    r ∈ h.heldBy m ↔ ∃ s, m.has s = true ∧ r ∈ h.refsOf s := by
  rw [heldBy, List.mem_append, mem_flatMap_zip Word.refs _ _ (by simp [hm.words]),
    mem_flatMap_zip Obj.refs _ _ (by simp [hm.objects])]
  constructor
  · rintro (⟨i, w, hw, hb, hr⟩ | ⟨i, o, ho, hb, hr⟩)
    · exact ⟨.word ⟨i⟩, by simpa [Marks.has] using hb, by simp_all [refsOf, word]⟩
    · exact ⟨.object ⟨i⟩, by simpa [Marks.has] using hb, by simp_all [refsOf, object]⟩
  · rintro ⟨⟨⟨i⟩⟩ | ⟨⟨i⟩⟩, hs, hr⟩
    · have hi : i < h.words.size := hm.has_of_has hs
      exact .inl ⟨i, h.words[i], by simp [hi], by simpa [Marks.has] using hs,
        by simpa [refsOf, word, hi] using hr⟩
    · have hi : i < h.objects.size := hm.has_of_has hs
      exact .inr ⟨i, h.objects[i], by simp [hi], by simpa [Marks.has] using hs,
        by simpa [refsOf, object, hi] using hr⟩

theorem fits_supported (h : Heap) (roots : List Ref) (m : Marks) :
    (h.supported roots m).Fits h :=
  ((Marks.fits_none h).foldl_add _).1

theorem has_supported (hm : m.Fits h) : (h.supported roots m).has r = true ↔
    h.Has r ∧ (r ∈ roots ∨ ∃ s, m.has s = true ∧ r ∈ h.refsOf s) := by
  rw [supported, ((Marks.fits_none h).foldl_add _).2, Marks.has_none, List.mem_append,
    mem_heldBy hm]
  simp [and_comm]

theorem supported_below (hm : m.Fits h) (hn : n.Fits h) (hmn : m.Below n) :
    (h.supported roots m).Below (h.supported roots n) := by
  intro r hr
  obtain ⟨hh, hroot | ⟨s, hs, hrs⟩⟩ := (has_supported hm).1 hr
  · exact (has_supported hn).2 ⟨hh, .inl hroot⟩
  · exact (has_supported hn).2 ⟨hh, .inr ⟨s, hmn s hs, hrs⟩⟩

/-- The computation ends with a set that keeps itself alive, and never drops a member of one. -/
theorem settle_kept {fuel : Nat} (hm : m.Fits h) (hd : (h.supported roots m).Below m)
    (hf : m.count < fuel) :
    (h.settle roots fuel m).Fits h ∧ h.Kept roots (fun r => (h.settle roots fuel m).has r = true) ∧
      ∀ S, h.Kept roots S → (∀ r, S r → m.has r = true) →
        ∀ r, S r → (h.settle roots fuel m).has r = true := by
  induction fuel generalizing m with
  | zero => omega
  | succ fuel ih =>
    have hn := fits_supported h roots m
    rw [settle]
    by_cases he : h.supported roots m = m
    · rw [if_pos he]
      refine ⟨hm, fun r hr => (has_supported hm).1 (by rw [he]; exact hr), fun S _ hS => hS⟩
    · rw [if_neg he]
      have hlt := hn.count_lt hm hd he
      obtain ⟨h₁, h₂, h₃⟩ := ih hn (supported_below hn hm hd) (by omega)
      refine ⟨h₁, h₂, fun S hS hsub => h₃ S hS fun r hr => (has_supported hm).2 ?_⟩
      obtain ⟨hh, hroot | ⟨s, hs, hrs⟩⟩ := hS r hr
      · exact ⟨hh, .inl hroot⟩
      · exact ⟨hh, .inr ⟨s, hsub s hs, hrs⟩⟩

theorem alive_spec (h : Heap) (roots : List Ref) :
    (h.alive roots).Fits h ∧ h.Kept roots (fun r => (h.alive roots).has r = true) ∧
      ∀ S, h.Kept roots S → ∀ r, S r → (h.alive roots).has r = true := by
  have hall := Marks.fits_all h
  have hcount : (Marks.all h).count < h.words.size + h.objects.size + 1 := by
    rw [Marks.count_all]
    omega
  obtain ⟨h₁, h₂, h₃⟩ := settle_kept hall
    (fun r (hr : (h.supported roots _).has r = true) =>
      Marks.has_all.2 ((has_supported hall).1 hr).1) hcount
  exact ⟨h₁, h₂, fun S hS => h₃ S hS fun r hr => Marks.has_all.2 (hS r hr).1⟩

/-- **What the computation finds is what is alive.** -/
theorem has_alive_iff : (h.alive roots).has r = true ↔ h.Alive roots r := by
  obtain ⟨-, hk, hmax⟩ := alive_spec h roots
  exact ⟨fun hr => ⟨_, hk, hr⟩, fun ⟨S, hS, hr⟩ => hmax S hS r hr⟩

theorem isAlive_iff {w : WordId} :
    h.isAlive roots w = true ↔ .word w ∈ roots ∨ h.Alive roots (.word w) := by
  rw [isAlive, Bool.or_eq_true, List.contains_iff_mem, has_alive_iff]

end Heap
end ThreadedForth
