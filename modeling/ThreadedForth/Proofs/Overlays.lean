/-
  Words that nothing refers to, and runs that do not notice them.
-/
import ThreadedForth.Proofs.IdentityHashes
import ThreadedForth.Proofs.LikenessRuns

namespace ThreadedForth

variable {x₀ y₀ x y : Machine} {k : Nat}

namespace Primitive

variable {p : Primitive} {m : Machine}

theorem usesSource_of_consults (h : p.consults m = true) : p.usesSource m = true := by
  cases p with
  | memory w => cases w <;> first | rfl | exact h
  | control w => rfl
  | defining w => cases w <;> first | rfl | exact h
  | _ => exact h

theorem usesSource_of_asksLast {c : Compiler} (h : p.asksLast c = true) : p.usesSource m = true := by
  cases p with
  | memory w => cases w <;> first | rfl | cases h
  | control w => rfl
  | defining w => cases w <;> first | rfl | cases h
  | _ => cases h

end Primitive

/-- A primitive that uses neither the line nor the compiler nor the dictionary is always allowed, if
    it reads the same reference counts and addresses. -/
theorem Likeness.Allows.of_detached {L : Likeness} {p : Primitive} (hp : p.usesSource x = false)
    (hc : p = .object .refcount → x.topCount = y.topCount)
    (ha : p = .object (.invoke .hash) → x.topAddress = y.topAddress) : L.Allows x y p where
  source := fun h => Bool.noConfusion (hp.symm.trans h)
  names := fun h => Bool.noConfusion (hp.symm.trans (Primitive.usesSource_of_consults h))
  answers := ⟨fun h => Bool.noConfusion (hp.symm.trans (Primitive.usesSource_of_asksLast h)), hc, ha⟩

/-- No machines are told apart, and the first `k` words are known. -/
def Likeness.below (k : Nat) : Likeness := ⟨fun _ _ => True, fun w => w.index < k⟩

theorem Heap.word_updateWord (h : Heap) (w v : WordId) (f : Word → Word) :
    (h.updateWord w f).word v = if v = w ∧ w.index < h.words.size then f (h.word w) else h.word v :=
  Heap.word_setWord h w v _

namespace Machine

/-- The machine has not changed, apart from its common part, its objects and the bodies of its
    first `k` words; no object has been moved. -/
structure Retains (k : Nat) (x₀ x : Machine) : Prop where
  dictionary : x.dictionary = x₀.dictionary
  compiler : x.compiler = x₀.compiler
  line : x.line = x₀.line
  addresses : x.addresses = x₀.addresses
  comment : x.inComment = x₀.inComment
  size : x.heap.words.size = x₀.heap.words.size
  flags : ∀ w, { x.heap.word w with body := #[] } = { x₀.heap.word w with body := #[] }
  beyond : ∀ w, k ≤ w.index → x.heap.word w = x₀.heap.word w

theorem Retains.refl (k : Nat) (x : Machine) : x.Retains k x :=
  ⟨rfl, rfl, rfl, rfl, rfl, rfl, fun _ => rfl, fun _ _ => rfl⟩

theorem Retains.share (h : x₀.Retains k x) (c : Common) : x₀.Retains k (x.share c) :=
  ⟨h.dictionary, h.compiler, h.line, h.addresses, h.comment, h.size, h.flags, h.beyond⟩

theorem Retains.setObjects (h : x₀.Retains k x) (os : Array Obj) : x₀.Retains k (x.setObjects os) :=
  ⟨h.dictionary, h.compiler, h.line, h.addresses, h.comment, h.size, h.flags, h.beyond⟩

theorem word_setBody (x : Machine) (w v : WordId) (body : Array Elem) :
    (x.setBody w body).heap.word v =
      if v = w ∧ w.index < x.heap.words.size then { x.heap.word w with body } else x.heap.word v :=
  Heap.word_updateWord x.heap w v _

theorem Retains.setBody (h : x₀.Retains k x) {w : WordId} (hw : w.index < k) (body : Array Elem) :
    x₀.Retains k (x.setBody w body) := by
  refine ⟨h.dictionary, h.compiler, h.line, h.addresses, h.comment, ?_, fun v => ?_, fun v hv => ?_⟩
  · rw [← h.size]
    exact Array.size_setIfInBounds
  · rw [word_setBody]
    split
    · rename_i hvw
      rw [hvw.1]
      exact h.flags w
    · exact h.flags v
  · rw [word_setBody, if_neg, h.beyond v hv]
    rintro ⟨rfl, -⟩
    omega

/-- Two machines that have gone on in the same way from `x₀` and `y₀`, where `y₀` has the words of
    `x₀` and possibly others. -/
structure Overlay (x₀ y₀ x y : Machine) : Prop where
  common : x.common = y.common
  holds : (Likeness.below x₀.heap.words.size).Holds x.common
  objects : x.heap.objects = y.heap.objects
  items : ∀ o ∈ x.heap.objects, ∀ v ∈ o.items, (Likeness.below x₀.heap.words.size).Knows v
  word : ∀ w : WordId, w.index < x₀.heap.words.size →
    (x.heap.word w).shown = (y.heap.word w).shown ∧
      (Likeness.below x₀.heap.words.size).KnowsAll (x.heap.word w).refs
  left : x₀.Retains x₀.heap.words.size x
  right : y₀.Retains x₀.heap.words.size y

/-- The machine `y` has what `x` has, and possibly other words and other names.  The words that
    both have may be found in one of them and hidden in the other. -/
structure Enriched (x y : Machine) : Prop where
  common : x.common = y.common
  objects : x.heap.objects = y.heap.objects
  size : x.heap.words.size ≤ y.heap.words.size
  word : ∀ w : WordId, w.index < x.heap.words.size → (x.heap.word w).shown = (y.heap.word w).shown

theorem Enriched.refl (x : Machine) : x.Enriched x := ⟨rfl, rfl, Nat.le_refl _, fun _ _ => rfl⟩

theorem Enriched.trans {z : Machine} (h : x.Enriched y) (h' : y.Enriched z) : x.Enriched z :=
  ⟨h.common.trans h'.common, h.objects.trans h'.objects, Nat.le_trans h.size h'.size,
    fun w hw => (h.word w hw).trans (h'.word w (Nat.lt_of_lt_of_le hw h.size))⟩

/-- The object on top of the data stack is where it would be in the other machine. -/
theorem Overlay.topAddress_eq (h : Overlay x₀ y₀ x y) :
    (x.located y₀.addresses).topAddress = y.topAddress := by
  have hdata : x.data = y.data := congrArg Common.data h.common
  have hobject : ∀ o, x.heap.object o = y.heap.object o := fun o => by
    rw [Heap.object, h.objects, Heap.object]
  simp only [topAddress, located, hdata, hobject, h.right.addresses]

end Machine

namespace Likeness

open Machine (Overlay)

/-- Machines that have gone on in the same way from `x₀` and `y₀`. -/
def overlay (x₀ y₀ : Machine) : Likeness where
  alike := Overlay x₀ y₀
  known w := w.index < x₀.heap.words.size

theorem Holds.overlay {c : Common} (h : (below x₀.heap.words.size).Holds c) :
    (overlay x₀ y₀).Holds c :=
  ⟨h.data, h.temp, h.self, h.frames, h.runs, h.types⟩

/-- **Machines with additional words are alike.** -/
theorem Basic.overlay (x₀ y₀ : Machine) (hsize : x₀.heap.words.size ≤ y₀.heap.words.size) :
    (overlay x₀ y₀).Basic where
  common := fun h => h.common
  holds := fun h => h.holds.overlay
  share := fun h c hc =>
    { h with
      common := rfl
      holds := ⟨hc.data, hc.temp, hc.self, hc.frames, hc.runs, hc.types⟩
      left := h.left.share c
      right := h.right.share c }
  objects := fun h => h.objects
  items := fun h => h.items
  setObjects := fun h os hos =>
    { h with
      objects := rfl
      items := hos
      left := h.left.setObjects os
      right := h.right.setObjects os }
  word := fun h w hw => h.word w hw
  setBody := fun {x y} h {w} hw {body} hb =>
    { h with
      word := fun v hv => by
        have hx : w.index < x.heap.words.size := by rw [h.left.size]; exact hw
        have hy : w.index < y.heap.words.size := by
          rw [h.right.size]
          exact Nat.lt_of_lt_of_le hw hsize
        rw [Machine.word_setBody, Machine.word_setBody]
        by_cases hvw : v = w
        · rw [if_pos ⟨hvw, hx⟩, if_pos ⟨hvw, hy⟩]
          refine ⟨?_, hb⟩
          exact congrArg (fun u : Word => { u with body }) (h.word w hw).1
        · rw [if_neg fun hc => hvw hc.1, if_neg fun hc => hvw hc.1]
          exact h.word v hv
      left := h.left.setBody hw body
      right := h.right.setBody hw body }

end Likeness

namespace Machine

open Likeness (below)

theorem knows_of_in {h : Heap} {v : Value} (hv : v.In h) : (below h.words.size).Knows v :=
  fun w hw => hv (.word w) hw

theorem knowsAll_of_sound {h : Heap} {u : Word} (hu : u.Sound h) :
    (below h.words.size).KnowsAll u.refs := by
  obtain ⟨c, es, hbody, hc, hes⟩ := hu
  intro w hw
  rw [Word.refs, hbody, List.flatMap_cons, List.mem_append] at hw
  rcases hw with hw | hw
  · cases c with
    | indirect body entry =>
      cases List.mem_singleton.1 hw
      exact hc.1
    | _ => cases hw
  · obtain ⟨e, he, hw⟩ := List.mem_flatMap.1 hw
    exact (hes e he).refs _ hw

theorem Sound.holds (h : x.Sound) : (below x.heap.words.size).Holds x.common where
  data := fun v hv => knows_of_in (h.data v hv)
  temp := fun v hv => knows_of_in (h.temp v hv)
  self := fun v hv => knows_of_in (h.self v hv)
  frames := fun f hf => (h.frames f hf).has
  runs := by
    intro r hr v hv
    have hin := h.runs r hr
    cases hp : r.pending with
    | handler depth after =>
      rw [hp] at hin hv
      cases after with
      | push => cases hv
      | select a b =>
        intro w hw
        refine hin (.word w) (List.mem_append.2 ?_)
        rcases List.mem_cons.1 hv with rfl | hv
        · exact .inl hw
        · cases List.mem_singleton.1 hv
          exact .inr hw
      | store p =>
        cases List.mem_singleton.1 hv
        exact fun w hw => hin (.word w) hw
    | _ =>
      rw [hp] at hv
      cases hv
  types := fun w ⟨e, he, hw⟩ => h.types e w he hw

/-- Runs start alike on a machine and on an enriched one. -/
theorem Enriched.overlay (hs : x.Sound) (h : x.Enriched y) : Overlay x y x y where
  common := h.common
  holds := hs.holds
  objects := h.objects
  items := fun o ho v hv => knows_of_in (hs.heap.objects o ho v hv)
  word := by
    intro w hw
    refine ⟨h.word w hw, ?_⟩
    have hu : x.heap.word w ∈ x.heap.words := by
      simp only [Heap.word, hw, Array.getElem?_eq_getElem, Option.getD_some]
      exact Array.getElem_mem hw
    exact knowsAll_of_sound (hs.heap.words _ hu)
  left := .refl _ _
  right := .refl _ _

end Machine
end ThreadedForth
