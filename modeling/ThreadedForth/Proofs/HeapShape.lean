/-
  Well-formed heaps, and what keeps them so.
-/
import ThreadedForth.Objects
import ThreadedForth.Arithmetic
import ThreadedForth.Heap.Liveness

namespace ThreadedForth

/-- Whether an element is a code. -/
def Elem.isDirect : Elem → Bool
  | direct _ => true
  | _ => false

/-- The shape of a word: a code, and then elements that are none. -/
def Word.Shaped (w : Word) : Prop :=
  ∃ c es, w.body.toList = .direct c :: es ∧ ∀ e ∈ es, e.isDirect = false

/-- A heap has what a reference refers to. -/
def Heap.Has (h : Heap) : Ref → Prop
  | .word w => w.index < h.words.size
  | .object o => o.index < h.objects.size

/-- The heap has everything that a value refers to. -/
def Value.In (h : Heap) (v : Value) : Prop :=
  ∀ r ∈ v.refs, h.Has r

/-- An indirect code leads to an element of a body, or to its end. -/
def Code.Fits (h : Heap) : Code → Prop
  | .indirect body entry => h.Has (.word body) ∧ 1 ≤ entry ∧ entry ≤ (h.word body).size
  | _ => True

/-- An element that may stand after the code of a word. -/
structure Elem.Inner (h : Heap) (e : Elem) : Prop where
  notDirect : e.isDirect = false
  refs : ∀ r ∈ e.refs, h.Has r

/-- A word with the right shape, whose references and entry are right as well. -/
def Word.Sound (h : Heap) (w : Word) : Prop :=
  ∃ c es, w.body.toList = .direct c :: es ∧ c.Fits h ∧ ∀ e ∈ es, e.Inner h

/-- The heap has everything that an object refers to. -/
def Obj.In (h : Heap) (o : Obj) : Prop :=
  ∀ v ∈ o.items, v.In h

/-- The invariant of a heap. -/
structure Heap.Sound (h : Heap) : Prop where
  words : ∀ w ∈ h.words, w.Sound h
  objects : ∀ o ∈ h.objects, o.In h

/-- A heap that came from another one: nothing was taken out, and no body got shorter. -/
structure Heap.Grows (h h' : Heap) : Prop where
  words : h.words.size ≤ h'.words.size
  objects : h.objects.size ≤ h'.objects.size
  bodies : ∀ w, (h.word w).size ≤ (h'.word w).size

/-! ## Growth -/

theorem Heap.Grows.refl (h : Heap) : h.Grows h :=
  ⟨Nat.le_refl _, Nat.le_refl _, fun _ => Nat.le_refl _⟩

theorem Heap.Grows.trans {h₁ h₂ h₃ : Heap} (h : h₁.Grows h₂) (h' : h₂.Grows h₃) : h₁.Grows h₃ :=
  ⟨Nat.le_trans h.words h'.words, Nat.le_trans h.objects h'.objects,
    fun w => Nat.le_trans (h.bodies w) (h'.bodies w)⟩

section Growth

variable {h h' : Heap} (hg : h.Grows h')
include hg

theorem Heap.Has.mono {r : Ref} (hr : h.Has r) : h'.Has r := by
  cases r with
  | word w => exact Nat.lt_of_lt_of_le hr hg.words
  | object o => exact Nat.lt_of_lt_of_le hr hg.objects

theorem Value.In.mono {v : Value} (hv : v.In h) : v.In h' :=
  fun r hr => (hv r hr).mono hg

theorem Code.Fits.mono {c : Code} (hc : c.Fits h) : c.Fits h' := by
  cases c with
  | indirect body entry => exact ⟨hc.1.mono hg, hc.2.1, Nat.le_trans hc.2.2 (hg.bodies body)⟩
  | _ => trivial

theorem Elem.Inner.mono {e : Elem} (he : e.Inner h) : e.Inner h' :=
  ⟨he.notDirect, fun r hr => (he.refs r hr).mono hg⟩

theorem Word.Sound.mono {w : Word} (hw : w.Sound h) : w.Sound h' := by
  obtain ⟨c, es, hb, hc, he⟩ := hw
  exact ⟨c, es, hb, hc.mono hg, fun e hm => (he e hm).mono hg⟩

theorem Obj.In.mono {o : Obj} (ho : o.In h) : o.In h' :=
  fun v hv => (ho v hv).mono hg

end Growth

theorem Elem.Inner.lit {h : Heap} {v : Value} (hv : v.In h) : (Elem.lit v).Inner h := ⟨rfl, hv⟩

theorem Elem.Inner.call {h : Heap} {w : WordId} (hw : h.Has (.word w)) : (Elem.call w).Inner h :=
  ⟨rfl, fun r hr => by rw [List.mem_singleton.1 hr]; exact hw⟩

theorem Elem.Inner.recurse (h : Heap) : Elem.recurse.Inner h := ⟨rfl, nofun⟩

/-! ## Looking things up -/

namespace Heap

variable {h : Heap}

theorem word_mem {w : WordId} (hw : h.Has (.word w)) : h.word w ∈ h.words := by
  have hw : w.index < h.words.size := hw
  simp [word, hw]

theorem object_mem {o : ObjId} (ho : h.Has (.object o)) : h.object o ∈ h.objects := by
  have ho : o.index < h.objects.size := ho
  simp [object, ho]

theorem Sound.word (hs : h.Sound) {w : WordId} (hw : h.Has (.word w)) : (h.word w).Sound h :=
  hs.words _ (word_mem hw)

theorem Sound.object (hs : h.Sound) {o : ObjId} (ho : h.Has (.object o)) : (h.object o).In h :=
  hs.objects _ (object_mem ho)

end Heap

/-- An element that is no code is added after the code of a word. -/
theorem Word.push_ok {w : Word} {e : Elem} (hw : 1 ≤ w.size) (he : e.isDirect = false) :
    w.push e = .ok { w with body := w.body.push e } := by
  have hc : checkSlot w.size e = .ok () := by
    have hne : w.size ≠ 0 := by omega
    cases e with
    | direct c => simp [Elem.isDirect] at he
    | _ => simp [checkSlot, hne]
  rw [push, hc]

namespace Word.Sound

variable {h : Heap} {w : Word}

theorem shaped (hw : w.Sound h) : w.Shaped := by
  obtain ⟨c, es, hb, _, he⟩ := hw
  exact ⟨c, es, hb, fun e hm => (he e hm).notDirect⟩

theorem one_le_size (hw : w.Sound h) : 1 ≤ w.size := by
  obtain ⟨c, es, hb, _⟩ := hw
  have := congrArg List.length hb
  rw [Array.length_toList, List.length_cons] at this
  rw [size]
  omega

/-- The value in a data slot. -/
theorem load (hw : w.Sound h) {i : Nat} {v : Value} (hl : w.load i = .ok v) :
    v.In h ∧ 1 ≤ i ∧ i < w.size := by
  unfold Word.load at hl
  split at hl
  · rename_i v' hi
    split at hl
    · simp at hl
    · rename_i h0
      obtain rfl : v' = v := by simpa using hl
      obtain ⟨c, es, hb, _, he⟩ := hw
      rw [← Array.getElem?_toList, hb] at hi
      obtain ⟨j, rfl⟩ : ∃ j, i = j + 1 := ⟨i - 1, by omega⟩
      rw [List.getElem?_cons_succ] at hi
      refine ⟨(he _ (List.mem_of_getElem? hi)).refs, by omega, ?_⟩
      have hlen := congrArg List.length hb
      have := (List.getElem?_eq_some_iff.1 hi).1
      rw [Array.length_toList, List.length_cons] at hlen
      rw [size]
      omega
  · simp at hl

theorem push (hw : w.Sound h) {e : Elem} (he : e.Inner h) {w' : Word} (hp : w.push e = .ok w') :
    w'.Sound h ∧ w.size ≤ w'.size := by
  unfold Word.push at hp
  split at hp
  · obtain rfl : { w with body := w.body.push e } = w' := by simpa using hp
    obtain ⟨c, es, hb, hc, hes⟩ := hw
    refine ⟨⟨c, es ++ [e], by simp [hb], hc, ?_⟩, by simp [size]⟩
    intro e' hm
    rcases List.mem_append.1 hm with hm | hm
    · exact hes e' hm
    · rw [List.mem_singleton.1 hm]; exact he
  · simp at hp

theorem expand (hw : w.Sound h) {n : Nat} {w' : Word} (hp : w.expand n = .ok w') :
    w'.Sound h ∧ w.size ≤ w'.size := by
  unfold Word.expand at hp
  split at hp
  · obtain rfl : { w with body := w.body ++ Array.replicate n (.lit (.int 0)) } = w' := by
      simpa using hp
    obtain ⟨c, es, hb, hc, hes⟩ := hw
    refine ⟨⟨c, es ++ List.replicate n (.lit (.int 0)), by simp [hb], hc, ?_⟩, by simp [size]⟩
    intro e' hm
    rcases List.mem_append.1 hm with hm | hm
    · exact hes e' hm
    · rw [List.eq_of_mem_replicate hm]
      exact ⟨rfl, nofun⟩
  · simp at hp

/-- Any element but the first may be replaced by one that is no code. -/
theorem set (hw : w.Sound h) {e : Elem} (he : e.Inner h) {i : Nat} (hi : 1 ≤ i) :
    Sound h { w with body := w.body.setIfInBounds i e } ∧
      w.size ≤ size { w with body := w.body.setIfInBounds i e } := by
  obtain ⟨c, es, hb, hc, hes⟩ := hw
  obtain ⟨j, rfl⟩ : ∃ j, i = j + 1 := ⟨i - 1, by omega⟩
  refine ⟨⟨c, es.set j e, by simp [hb], hc, ?_⟩, by simp [size]⟩
  intro e' hm
  rcases List.mem_or_eq_of_mem_set hm with hm | rfl
  · exact hes e' hm
  · exact he

theorem poke (hw : w.Sound h) {e : Elem} (he : e.Inner h) {i : Nat} {w' : Word}
    (hp : w.poke i e = .ok w') : w'.Sound h ∧ w.size ≤ w'.size := by
  unfold Word.poke at hp
  split at hp
  · rename_i hc
    split at hp
    · obtain rfl : { w with body := w.body.setIfInBounds i e } = w' := by simpa using hp
      refine hw.set he (Nat.one_le_iff_ne_zero.2 fun h0 => ?_)
      have := he.notDirect
      cases e <;> simp_all [checkSlot, Elem.isDirect]
    · simp at hp
  · simp at hp

theorem setCode (hw : w.Sound h) {c : Code} (hc : c.Fits h) {w' : Word}
    (hp : w.setCode c = .ok w') : w'.Sound h ∧ w.size ≤ w'.size := by
  unfold Word.setCode Word.poke at hp
  split at hp
  · split at hp
    · obtain rfl : { w with body := w.body.setIfInBounds 0 (.direct c) } = w' := by simpa using hp
      obtain ⟨c', es, hb, _, hes⟩ := hw
      exact ⟨⟨c, es, by simp [hb], hc, hes⟩, by simp [size]⟩
    · simp at hp
  · simp at hp

theorem store (hw : w.Sound h) {v : Value} (hv : v.In h) {i : Nat} {w' : Word}
    (hp : w.store i v = .ok w') : w'.Sound h ∧ w.size ≤ w'.size := by
  unfold Word.store at hp
  split at hp
  · rename_i hl
    obtain rfl : { w with body := w.body.setIfInBounds i (.lit v) } = w' := by simpa using hp
    exact hw.set (.lit hv) (hw.load hl).2.1
  · simp at hp

end Word.Sound

/-! ## Changing the heap -/

namespace Heap

variable {h : Heap}

theorem Grows.addWord (h : Heap) (w : Word) : h.Grows (h.addWord w).2 := by
  refine ⟨by simp [Heap.addWord], Nat.le_refl _, fun v => ?_⟩
  simp only [word, Heap.addWord, Array.getElem?_push]
  split
  · rename_i hv
    simp [hv, Word.size, Word.blank, default]
  · exact Nat.le_refl _

theorem Grows.addObject (h : Heap) (o : Obj) : h.Grows (h.addObject o).2 :=
  ⟨Nat.le_refl _, by simp [Heap.addObject], fun _ => Nat.le_refl _⟩

theorem Grows.setObject (h : Heap) (o : ObjId) (x : Obj) : h.Grows (h.setObject o x) :=
  ⟨Nat.le_refl _, by simp [Heap.setObject], fun _ => Nat.le_refl _⟩

theorem word_setWord (h : Heap) (w v : WordId) (x : Word) :
    (h.setWord w x).word v = if v = w ∧ w.index < h.words.size then x else h.word v := by
  have hv : (v = w) = (w.index = v.index) := by
    cases v; cases w
    simp [eq_comm]
  simp only [word, setWord, Array.getElem?_setIfInBounds, hv]
  by_cases he : w.index = v.index
  · by_cases hl : w.index < h.words.size
    · simp [he, he ▸ hl]
    · simp [he, he ▸ hl]
  · simp [he]

theorem object_setObject (h : Heap) (o a : ObjId) (x : Obj) :
    (h.setObject o x).object a = if a = o ∧ o.index < h.objects.size then x else h.object a := by
  have ha : (a = o) = (o.index = a.index) := by
    cases a; cases o
    simp [eq_comm]
  simp only [object, setObject, Array.getElem?_setIfInBounds, ha]
  by_cases he : o.index = a.index
  · by_cases hl : o.index < h.objects.size
    · simp [he, he ▸ hl]
    · simp [he, he ▸ hl]
  · simp [he]

theorem object_addObject (h : Heap) (a : ObjId) (x : Obj) :
    (h.addObject x).2.object a = if a = (h.addObject x).1 then x else h.object a := by
  have ha : (a = ⟨h.objects.size⟩) = (a.index = h.objects.size) := by
    cases a
    simp
  show (h.objects.push x)[a.index]?.getD default = if a = ⟨h.objects.size⟩ then x else h.object a
  simp only [ha, Array.getElem?_push]
  split
  · rfl
  · rfl

theorem word_addWord (h : Heap) (x : Word) : (h.addWord x).2.word (h.addWord x).1 = x := by
  simp [word, addWord]

theorem word_addWord_of_ne (h : Heap) (x : Word) {v : WordId} (hv : v ≠ ⟨h.words.size⟩) :
    (h.addWord x).2.word v = h.word v := by
  have hi : v.index ≠ h.words.size := by
    intro hi
    cases v
    exact hv (congrArg WordId.mk hi)
  simp [word, addWord, Array.getElem?_push, hi]

theorem Grows.setWord {w : WordId} {x : Word} (hx : (h.word w).size ≤ x.size) :
    h.Grows (h.setWord w x) := by
  refine ⟨by simp [Heap.setWord], Nat.le_refl _, fun v => ?_⟩
  rw [word_setWord]
  split
  · rename_i hv
    rw [hv.1]
    exact hx
  · exact Nat.le_refl _

namespace Sound

theorem addWord (hs : h.Sound) {w : Word} (hw : w.Sound h) : (h.addWord w).2.Sound := by
  have hg := Grows.addWord h w
  refine ⟨fun x hx => ?_, fun o ho => (hs.objects o ho).mono hg⟩
  rcases Array.mem_push.1 hx with hx | rfl
  · exact (hs.words x hx).mono hg
  · exact hw.mono hg

theorem addObject (hs : h.Sound) {o : Obj} (ho : o.In h) : (h.addObject o).2.Sound := by
  have hg := Grows.addObject h o
  refine ⟨fun x hx => (hs.words x hx).mono hg, fun x hx => ?_⟩
  rcases Array.mem_push.1 hx with hx | rfl
  · exact (hs.objects x hx).mono hg
  · exact ho.mono hg

theorem setObject (hs : h.Sound) {o : ObjId} {x : Obj} (hx : x.In h) : (h.setObject o x).Sound := by
  have hg := Grows.setObject h o x
  refine ⟨fun w hw => (hs.words w hw).mono hg, fun y hy => ?_⟩
  rcases Array.mem_or_eq_of_mem_setIfInBounds hy with hy | rfl
  · exact (hs.objects y hy).mono hg
  · exact hx.mono hg

theorem setWord (hs : h.Sound) {w : WordId} {x : Word} (hx : x.Sound h)
    (hl : (h.word w).size ≤ x.size) : (h.setWord w x).Sound := by
  have hg := Grows.setWord hl
  refine ⟨fun y hy => ?_, fun o ho => (hs.objects o ho).mono hg⟩
  rcases Array.mem_or_eq_of_mem_setIfInBounds hy with hy | rfl
  · exact (hs.words y hy).mono hg
  · exact hx.mono hg

/-- A change of one word that keeps it well formed. -/
theorem changeWord (hs : h.Sound) {w : WordId} (hw : h.Has (.word w)) {f : Word → Except Error Word}
    (hf : ∀ x y, x.Sound h → f x = .ok y → y.Sound h ∧ x.size ≤ y.size) {h' : Heap}
    (hc : h.changeWord w f = .ok h') : h'.Sound ∧ h.Grows h' := by
  unfold Heap.changeWord at hc
  split at hc
  · rename_i x hx
    obtain rfl : h.setWord w x = h' := by simpa using hc
    obtain ⟨hx, hl⟩ := hf _ _ (hs.word hw) hx
    exact ⟨hs.setWord hx hl, .setWord hl⟩
  · simp at hc

/-- A change of the flags of a word. -/
theorem updateWord (hs : h.Sound) {w : WordId} (hw : h.Has (.word w)) {f : Word → Word}
    (hf : ∀ x, (f x).body = x.body) : (h.updateWord w f).Sound ∧ h.Grows (h.updateWord w f) := by
  have hl : (h.word w).size ≤ (f (h.word w)).size :=
    Nat.le_of_eq (by rw [Word.size, Word.size, hf])
  have hx : (f (h.word w)).Sound h := by
    obtain ⟨c, es, hb, hc, he⟩ := hs.word hw
    exact ⟨c, es, by rw [hf, hb], hc, he⟩
  exact ⟨hs.setWord hx hl, .setWord hl⟩

end Sound
end Heap
end ThreadedForth
