/-
  Heaps that hold the same under other numbers.
-/
import ThreadedForth.Proofs.Pairing
import ThreadedForth.Proofs.PointerChains

namespace ThreadedForth
namespace Pairing

variable {m m' : Machine} {P : Pairing m m'} {h k : Heap} {w u : WordId} {o p : ObjId}

/-! ## Numbers -/

/-- Numbers that belong together are below bounds that are moved alike. -/
theorem lt_iff_of_paired {R : Nat → Nat → Prop} {a b i j : Nat}
    (hR : ∀ {i j k l}, R i j → R k l → (i = k ↔ j = l)) (hnew : ∀ n, R (a + n) (b + n))
    (h : R i j) (n : Nat) : i < a + n ↔ j < b + n := by
  constructor
  · intro hi
    refine Nat.lt_of_not_le fun hj => ?_
    have := (hR h (hnew (j - b))).2 (by omega)
    omega
  · intro hj
    refine Nat.lt_of_not_le fun hi => ?_
    have := (hR h (hnew (i - a))).1 (by omega)
    omega

theorem SameHeap.word_lt (hs : P.SameHeap h k) (hw : P.word w u) :
    w.index < h.words.size ↔ u.index < k.words.size := by
  obtain ⟨n, hh, hk⟩ := hs.words
  rw [hh, hk]
  exact lt_iff_of_paired (R := fun i j => P.word ⟨i⟩ ⟨j⟩)
    (fun h h' => by simpa using P.word_iff h h') P.word_new hw n

theorem SameHeap.object_lt (hs : P.SameHeap h k) (ho : P.object o p) :
    o.index < h.objects.size ↔ p.index < k.objects.size := by
  obtain ⟨n, hh, hk⟩ := hs.objects
  rw [hh, hk]
  exact lt_iff_of_paired (R := fun i j => P.object ⟨i⟩ ⟨j⟩)
    (fun h h' => by simpa using P.object_iff h h') P.object_new ho n

/-! ## Words -/

/-- Bodies that do the same, if it matters. -/
def SameBodies (P : Pairing m m') (w : WordId) (a b : Word) : Prop :=
  P.shared w → List.Forall₂ P.SameElem a.body.toList b.body.toList

namespace SameWord

variable {a b : Word}

theorem name (hab : P.SameWord a b) : a.name = b.name :=
  (congrArg Word.name hab.bare :)

theorem label (hab : P.SameWord a b) : a.label = b.label := by
  unfold Word.label Word.isAnonymous
  rw [hab.name]

theorem size (hab : P.SameWord a b) : a.size = b.size := by
  rw [Word.size, Word.size, ← Array.length_toList, ← Array.length_toList, hab.body.length_eq]

theorem badOffset (hab : P.SameWord a b) (i : Nat) : a.badOffset i = b.badOffset i := by
  rw [Word.badOffset, Word.badOffset, hab.label]

theorem getElem? (hab : P.SameWord a b) (i : Nat) :
    Option.Rel P.SameElem a.body[i]? b.body[i]? := by
  rw [← Array.getElem?_toList, ← Array.getElem?_toList]
  exact forall₂_getElem? hab.body i

theorem setBody (hab : P.SameWord a b) {es fs : Array Elem}
    (he : List.Forall₂ P.SameElem es.toList fs.toList) :
    P.SameWord { a with body := es } { b with body := fs } :=
  ⟨hab.bare, he⟩

theorem code (hab : P.SameWord a b) : SameExcept P.SameCode a.code b.code := by
  have he := hab.getElem? 0
  unfold Word.code
  rw [hab.label]
  generalize a.body[0]? = e at he
  generalize b.body[0]? = f at he
  cases he with
  | none => exact .error _
  | some he =>
    cases he with
    | direct hc => exact .ok hc
    | call _ => exact .error _
    | lit _ => exact .error _
    | recurse => exact .error _

theorem checkSlot {e f : Elem} (he : P.SameElem e f) (i : Nat) :
    Word.checkSlot i e = Word.checkSlot i f := by
  cases he <;> rfl

theorem push (hab : P.SameWord a b) {e f : Elem} (he : P.SameElem e f) :
    SameExcept P.SameWord (a.push e) (b.push f) := by
  unfold Word.push
  rw [hab.size, checkSlot he]
  cases Word.checkSlot b.size f with
  | error err => exact .error err
  | ok _ =>
    refine .ok (hab.setBody ?_)
    rw [Array.toList_push, Array.toList_push]
    exact forall₂_append hab.body (.cons he .nil)

theorem poke (hab : P.SameWord a b) (i : Nat) {e f : Elem} (he : P.SameElem e f) :
    SameExcept P.SameWord (a.poke i e) (b.poke i f) := by
  unfold Word.poke
  rw [hab.size, hab.badOffset, checkSlot he]
  cases Word.checkSlot i f with
  | error err => exact .error err
  | ok _ =>
    dsimp only
    split
    · refine .ok (hab.setBody ?_)
      rw [Array.toList_setIfInBounds, Array.toList_setIfInBounds]
      exact forall₂_set hab.body i he
    · exact .error _

theorem setCode (hab : P.SameWord a b) {c d : Code} (hc : P.SameCode c d) :
    SameExcept P.SameWord (a.setCode c) (b.setCode d) :=
  hab.poke 0 (.direct hc)

theorem expand (hab : P.SameWord a b) (n : Nat) :
    SameExcept P.SameWord (a.expand n) (b.expand n) := by
  unfold Word.expand
  rw [hab.size]
  split
  · refine .ok (hab.setBody ?_)
    rw [Array.toList_append, Array.toList_append, Array.toList_replicate]
    exact forall₂_append hab.body (forall₂_replicate n (.lit (.plain rfl)))
  · exact .error _

theorem load (hab : P.SameWord a b) (i : Nat) : SameExcept P.SameValue (a.load i) (b.load i) := by
  have he := hab.getElem? i
  unfold Word.load
  rw [hab.badOffset]
  generalize a.body[i]? = e at he
  generalize b.body[i]? = f at he
  cases he with
  | none => exact .error _
  | some he =>
    cases he with
    | lit hv =>
      dsimp only
      split
      · exact .error _
      · exact .ok hv
    | direct _ => exact .error _
    | call _ => exact .error _
    | recurse => exact .error _

theorem store (hab : P.SameWord a b) (i : Nat) {v t : Value} (hv : P.SameValue v t) :
    SameExcept P.SameWord (a.store i v) (b.store i t) := by
  have hl := hab.load i
  unfold Word.store
  generalize a.load i = r at hl
  generalize b.load i = s at hl
  cases hl with
  | error e => exact .error e
  | ok _ =>
    refine .ok (hab.setBody ?_)
    rw [Array.toList_setIfInBounds, Array.toList_setIfInBounds]
    exact forall₂_set hab.body i (.lit hv)

end SameWord

namespace SameHeap

variable (hs : P.SameHeap h k)
include hs

theorem word (hw : P.SameCallee w u) : P.SameWord (h.word w) (k.word u) :=
  ⟨hs.bare hw.1, hs.body hw⟩

theorem name (hw : P.word w u) : (h.word w).name = (k.word u).name :=
  (congrArg Word.name (hs.bare hw) :)

theorem label (hw : P.word w u) : (h.word w).label = (k.word u).label := by
  unfold Word.label Word.isAnonymous
  rw [hs.name hw]

theorem hidden (hw : P.word w u) : (h.word w).hidden = (k.word u).hidden :=
  (congrArg Word.hidden (hs.bare hw) :)

theorem immediate (hw : P.word w u) : (h.word w).immediate = (k.word u).immediate :=
  (congrArg Word.immediate (hs.bare hw) :)

theorem builtin (hw : P.word w u) : (h.word w).builtin = (k.word u).builtin :=
  (congrArg Word.builtin (hs.bare hw) :)

/-- Words that belong together are the ones that are replaced, or they stay as they are. -/
theorem word_setWord (hw : P.word w u) {v t : WordId} (hv : P.word v t) (a b : Word) :
    (v = w ∧ (h.setWord w a).word v = a ∧ (k.setWord u b).word t = b) ∨
      (h.setWord w a).word v = h.word v ∧ (k.setWord u b).word t = k.word t := by
  rw [Heap.word_setWord, Heap.word_setWord]
  by_cases hl : w.index < h.words.size
  · have hl' := (hs.word_lt hw).1 hl
    by_cases he : v = w
    · exact .inl ⟨he, if_pos ⟨he, hl⟩, if_pos ⟨(P.word_iff hv hw).1 he, hl'⟩⟩
    · exact .inr ⟨if_neg fun hc => he hc.1, if_neg fun hc => he ((P.word_iff hv hw).2 hc.1)⟩
  · exact .inr ⟨if_neg fun hc => hl hc.2, if_neg fun hc => hl ((hs.word_lt hw).2 hc.2)⟩

theorem setWord (hw : P.word w u) {a b : Word} (hab : a.bare = b.bare) (hb : P.SameBodies w a b) :
    P.SameHeap (h.setWord w a) (k.setWord u b) where
  bare := fun hv => by
    rcases hs.word_setWord hw hv a b with ⟨-, ha, hb⟩ | ⟨ha, hb⟩
    · rw [ha, hb]
      exact hab
    · rw [ha, hb]
      exact hs.bare hv
  body := fun hv => by
    rcases hs.word_setWord hw hv.1 a b with ⟨rfl, ha, hb'⟩ | ⟨ha, hb'⟩
    · rw [ha, hb']
      exact hb hv.2
    · rw [ha, hb']
      exact hs.body hv
  object := hs.object
  unmarked := hs.unmarked
  words := by
    obtain ⟨n, hh, hk⟩ := hs.words
    exact ⟨n, Array.size_setIfInBounds.trans hh, Array.size_setIfInBounds.trans hk⟩
  objects := hs.objects
  left := by
    refine ⟨fun v hv => ?_, hs.left.objects⟩
    rw [Heap.word_setWord, if_neg, hs.left.words v hv]
    rintro ⟨rfl, -⟩
    exact hv ⟨u, hw⟩
  right := by
    refine ⟨fun v hv => ?_, hs.right.objects⟩
    rw [Heap.word_setWord, if_neg, hs.right.words v hv]
    rintro ⟨rfl, -⟩
    exact hv ⟨w, hw⟩

/-- Flags of a word are changed. -/
theorem updateWord (hw : P.word w u) {f : Word → Word} (hf : ∀ a, (f a).bare = f a.bare)
    (hb : ∀ a, (f a).body = a.body) : P.SameHeap (h.updateWord w f) (k.updateWord u f) := by
  refine hs.setWord hw ?_ fun hsh => ?_
  · rw [hf, hf, hs.bare hw]
  · rw [hb, hb]
    exact hs.body ⟨hw, hsh⟩

theorem changeWord (hw : P.SameCallee w u) {f g : Word → Except Error Word}
    (hf : ∀ {a b}, P.SameWord a b → SameExcept P.SameWord (f a) (g b)) :
    SameExcept P.SameHeap (h.changeWord w f) (k.changeWord u g) := by
  have hfg := hf (hs.word hw)
  unfold Heap.changeWord
  generalize f (h.word w) = r at hfg
  generalize g (k.word u) = s at hfg
  cases hfg with
  | error e => exact .error e
  | ok hab => exact .ok (hs.setWord hw.1 hab.bare fun _ => hab.body)

/-- The next new words belong together. -/
theorem newWord : P.SameCallee ⟨h.words.size⟩ ⟨k.words.size⟩ := by
  obtain ⟨n, hh, hk⟩ := hs.words
  rw [hh, hk]
  exact ⟨P.word_new n, P.shared_new n⟩

/-- Words that belong together are the new ones, or they stay as they are. -/
theorem word_addWord {v t : WordId} (hv : P.word v t) (a b : Word) :
    ((h.addWord a).2.word v = a ∧ (k.addWord b).2.word t = b) ∨
      (h.addWord a).2.word v = h.word v ∧ (k.addWord b).2.word t = k.word t := by
  have hnew : P.word (h.addWord a).1 (k.addWord b).1 := hs.newWord.1
  by_cases he : v = (h.addWord a).1
  · obtain rfl := (P.word_iff hv hnew).1 he
    exact .inl ⟨he ▸ Heap.word_addWord h a, Heap.word_addWord k b⟩
  · exact .inr ⟨Heap.word_addWord_of_ne h a he,
      Heap.word_addWord_of_ne k b fun ht => he ((P.word_iff hv hnew).2 ht)⟩

theorem addWord {a b : Word} (hab : P.SameWord a b) :
    P.SameHeap (h.addWord a).2 (k.addWord b).2 where
  bare := fun hv => by
    rcases hs.word_addWord hv a b with ⟨ha, hb⟩ | ⟨ha, hb⟩
    · rw [ha, hb]
      exact hab.bare
    · rw [ha, hb]
      exact hs.bare hv
  body := fun hv => by
    rcases hs.word_addWord hv.1 a b with ⟨ha, hb⟩ | ⟨ha, hb⟩
    · rw [ha, hb]
      exact hab.body
    · rw [ha, hb]
      exact hs.body hv
  object := hs.object
  unmarked := hs.unmarked
  words := by
    obtain ⟨n, hh, hk⟩ := hs.words
    exact ⟨n + 1, by simp [Heap.addWord, hh, Nat.add_assoc], by simp [Heap.addWord, hk, Nat.add_assoc]⟩
  objects := hs.objects
  left := by
    refine ⟨fun v hv => ?_, hs.left.objects⟩
    rw [Heap.word_addWord_of_ne, hs.left.words v hv]
    rintro rfl
    exact hv ⟨_, hs.newWord.1⟩
  right := by
    refine ⟨fun v hv => ?_, hs.right.objects⟩
    rw [Heap.word_addWord_of_ne, hs.right.words v hv]
    rintro rfl
    exact hv ⟨_, hs.newWord.1⟩

end SameHeap

/-! ## Objects -/

namespace SameObj

variable {a b : Obj}

theorem type (hab : P.SameObj a b) : a.type = b.type := by
  cases hab <;> rfl

theorem implements (hab : P.SameObj a b) (f : Function) : a.implements f = b.implements f := by
  cases hab <;> rfl

theorem typeLabel (hab : P.SameObj a b) : a.typeLabel = b.typeLabel := by
  cases hab <;> rfl

theorem hashesAddress (hab : P.SameObj a b) : a.hashesAddress = b.hashesAddress := by
  cases hab <;> rfl

theorem unmarked (hab : P.SameObj a b) : a.visiting? ≠ some true ∧ b.visiting? ≠ some true := by
  cases hab with
  | text s => exact ⟨nofun, nofun⟩
  | array _ => exact ⟨nofun, nofun⟩
  | record _ _ _ => exact ⟨nofun, nofun⟩

theorem setItems (hab : P.SameObj a b) {vs us : Array Value}
    (hv : List.Forall₂ P.SameValue vs.toList us.toList) :
    P.SameObj (a.setItems vs) (b.setItems us) := by
  cases hab with
  | text s => exact .text s
  | array _ => exact .array hv
  | record t d _ => exact .record t d hv

theorem items (hab : P.SameObj a b) : List.Forall₂ P.SameValue a.items.toList b.items.toList := by
  cases hab with
  | text _ => exact .nil
  | array h => exact h
  | record _ _ h => exact h

/-- A new object whose items are zero. -/
theorem zeros (n : Nat) : List.Forall₂ P.SameValue (Array.replicate n (Value.int 0)).toList
    (Array.replicate n (Value.int 0)).toList := by
  rw [Array.toList_replicate]
  exact forall₂_replicate n (.plain rfl)

end SameObj

namespace SameHeap

variable (hs : P.SameHeap h k)
include hs

theorem setObject (ho : P.object o p) {a b : Obj} (hab : P.SameObj a b) :
    P.SameHeap (h.setObject o a) (k.setObject p b) where
  bare := hs.bare
  body := hs.body
  object := fun {o' p'} hop => by
    rw [Heap.object_setObject, Heap.object_setObject]
    by_cases hc : o' = o ∧ o.index < h.objects.size
    · rw [if_pos hc, if_pos ⟨(P.object_iff hop ho).1 hc.1, (hs.object_lt ho).1 hc.2⟩]
      exact hab
    · rw [if_neg hc, if_neg fun hd => hc ⟨(P.object_iff hop ho).2 hd.1, (hs.object_lt ho).2 hd.2⟩]
      exact hs.object hop
  unmarked := by
    constructor
    · intro o'
      rw [Heap.object_setObject]
      split
      · exact hab.unmarked.1
      · exact hs.unmarked.1 o'
    · intro p'
      rw [Heap.object_setObject]
      split
      · exact hab.unmarked.2
      · exact hs.unmarked.2 p'
  words := hs.words
  objects := by
    obtain ⟨n, hh, hk⟩ := hs.objects
    exact ⟨n, Array.size_setIfInBounds.trans hh, Array.size_setIfInBounds.trans hk⟩
  left := by
    refine ⟨hs.left.words, fun q hq => ?_⟩
    rw [Heap.object_setObject, if_neg, hs.left.objects q hq]
    rintro ⟨rfl, -⟩
    exact hq ⟨p, ho⟩
  right := by
    refine ⟨hs.right.words, fun q hq => ?_⟩
    rw [Heap.object_setObject, if_neg, hs.right.objects q hq]
    rintro ⟨rfl, -⟩
    exact hq ⟨o, ho⟩

/-- The next new objects belong together. -/
theorem newObject : P.object ⟨h.objects.size⟩ ⟨k.objects.size⟩ := by
  obtain ⟨n, hh, hk⟩ := hs.objects
  rw [hh, hk]
  exact P.object_new n

theorem addObject {a b : Obj} (hab : P.SameObj a b) :
    P.SameHeap (h.addObject a).2 (k.addObject b).2 where
  bare := hs.bare
  body := hs.body
  object := fun {o' p'} hop => by
    have hnew : P.object (h.addObject a).1 (k.addObject b).1 := hs.newObject
    rw [Heap.object_addObject, Heap.object_addObject]
    by_cases hc : o' = (h.addObject a).1
    · rw [if_pos hc, if_pos ((P.object_iff hop hnew).1 hc)]
      exact hab
    · rw [if_neg hc, if_neg fun hd => hc ((P.object_iff hop hnew).2 hd)]
      exact hs.object hop
  unmarked := by
    constructor
    · intro o'
      rw [Heap.object_addObject]
      split
      · exact hab.unmarked.1
      · exact hs.unmarked.1 o'
    · intro p'
      rw [Heap.object_addObject]
      split
      · exact hab.unmarked.2
      · exact hs.unmarked.2 p'
  words := hs.words
  objects := by
    obtain ⟨n, hh, hk⟩ := hs.objects
    exact ⟨n + 1, by simp [Heap.addObject, hh, Nat.add_assoc],
      by simp [Heap.addObject, hk, Nat.add_assoc]⟩
  left := by
    refine ⟨hs.left.words, fun q hq => ?_⟩
    rw [Heap.object_addObject, if_neg, hs.left.objects q hq]
    rintro rfl
    exact hq ⟨_, hs.newObject⟩
  right := by
    refine ⟨hs.right.words, fun q hq => ?_⟩
    rw [Heap.object_addObject, if_neg, hs.right.objects q hq]
    rintro rfl
    exact hq ⟨_, hs.newObject⟩

/-! ## Values and pointers -/

theorem typeOf {v t : Value} (hv : P.SameValue v t) : h.typeOf v = k.typeOf t := by
  cases hv with
  | plain hv => cases v <;> first | rfl | cases hv
  | xt _ => rfl
  | ptr hp => exact hp.type
  | obj ho => exact (hs.object ho).type

theorem text? {v t : Value} (hv : P.SameValue v t) : h.text? v = k.text? t := by
  cases hv with
  | plain hv => cases v <;> first | rfl | cases hv
  | xt _ => rfl
  | ptr _ => rfl
  | obj ho =>
    have hob := hs.object ho
    unfold Heap.text?
    dsimp only
    generalize h.object _ = a at hob
    generalize k.object _ = b at hob
    cases hob <;> rfl

theorem slotType (hw : P.SameCallee w u) (i : Nat) : h.slotType w i = k.slotType u i := by
  have he := (hs.word hw).getElem? i
  unfold Heap.slotType
  generalize (h.word w).body[i]? = e at he
  generalize (k.word u).body[i]? = f at he
  cases he with
  | none => rfl
  | some he =>
    cases he with
    | lit hv => exact hs.typeOf hv
    | direct _ => rfl
    | call _ => rfl
    | recurse => rfl

theorem pointer (hw : P.SameCallee w u) (i : Nat) :
    P.SamePointer (h.pointer w i) (k.pointer u i) := by
  refine ⟨hw, rfl, ?_⟩
  unfold Heap.pointer
  rw [hs.slotType hw]

theorem load {p q : Pointer} (hp : P.SamePointer p q) :
    SameExcept P.SameValue (h.load p) (k.load q) := by
  unfold Heap.load
  rw [hp.index]
  exact (hs.word hp.target).load _

theorem moved {p q : Pointer} (hp : P.SamePointer p q) (n : Int64) :
    SameExcept P.SameValue (h.moved p n) (k.moved q n) := by
  unfold Heap.moved Heap.offset
  rw [hp.index, hs.name hp.target.1]
  dsimp only
  split
  · exact .ok (.ptr (hs.pointer hp.target _))
  · exact .error _

theorem deref {v t : Value} (hv : P.SameValue v t) :
    SameExcept P.SameValue (h.deref v) (k.deref t) := by
  have hp := hv.toPointer
  unfold Heap.deref
  generalize v.toPointer = r at hp
  generalize t.toPointer = s at hp
  cases hp with
  | error e => exact .error e
  | ok hp => exact hs.load hp

theorem follow {v t : Value} (hv : P.SameValue v t) (n : Nat) :
    SameExcept P.SameValue (h.follow v n) (k.follow t n) := by
  induction n generalizing v t with
  | zero => exact .ok hv
  | succ n ih =>
    have hd := hs.deref hv
    unfold Heap.follow
    generalize h.deref v = r at hd
    generalize k.deref t = s at hd
    cases hd with
    | error e => exact .error e
    | ok hv' => exact ih hv'

/-! ## Texts -/

theorem leaf {v t : Value} (hv : P.SameValue v t) : h.leaf v = k.leaf t := by
  cases hv with
  | plain hv => cases v <;> first | rfl | cases hv
  | xt hw => simp only [Heap.leaf, hs.label hw]
  | ptr hp => simp only [Heap.leaf, hs.label hp.target.1, hp.index]
  | obj _ => rfl

end SameHeap

namespace SameObj

variable {a b : Obj}

theorem opening (hab : P.SameObj a b) : a.opening = b.opening := by
  cases hab <;> rfl

theorem closing (hab : P.SameObj a b) : a.closing = b.closing := by
  cases hab <;> rfl

theorem abbreviation (hab : P.SameObj a b) : a.abbreviation = b.abbreviation := by
  cases hab <;> rfl

theorem ne_text (hab : P.SameObj a b) (ha : ∀ s, a ≠ .text s) (s : String) : b ≠ .text s := by
  cases hab with
  | text s => exact absurd rfl (ha s)
  | array _ => nofun
  | record _ _ _ => nofun

/-- What an object holds, each value with the same text in front of it. -/
theorem entries (hab : P.SameObj a b) :
    List.Forall₂ (fun e f => e.1 = f.1 ∧ P.SameValue e.2 f.2) a.entries b.entries := by
  cases hab with
  | text _ => exact .nil
  | array hv =>
    refine List.forall₂_iff_get.2 ⟨by simp [Obj.entries, hv.length_eq], fun i hi hi' => ?_⟩
    simp only [Obj.entries, List.get_eq_getElem, List.getElem_mapIdx, true_and]
    exact hv.get _ _
  | record t d hv =>
    refine List.forall₂_iff_get.2 ⟨by simp [Obj.entries, hv.length_eq], fun i hi hi' => ?_⟩
    simp only [Obj.entries, List.get_eq_getElem, List.getElem_mapIdx, List.getElem_zip, true_and]
    exact hv.get _ _

end SameObj

theorem joinEntries_eq {es fs : List (String × Value)}
    (he : List.Forall₂ (fun e f => e.1 = f.1 ∧ P.SameValue e.2 f.2) es fs)
    (tss : List (List String)) : Heap.joinEntries es tss = Heap.joinEntries fs tss := by
  induction he generalizing tss with
  | nil => rfl
  | cons he _ ih =>
    cases tss with
    | nil => rfl
    | cons ts tss =>
      have ih := ih tss
      unfold Heap.joinEntries at ih ⊢
      rw [List.zip_cons_cons, List.zip_cons_cons, List.flatMap_cons, List.flatMap_cons, ih, he.1]

theorem mem_iff_of_forall₂ {path qath : List ObjId} (hpath : List.Forall₂ P.object path qath)
    (ho : P.object o p) : o ∈ path ↔ p ∈ qath := by
  induction hpath with
  | nil => simp
  | cons h _ ih => rw [List.mem_cons, List.mem_cons, ih, P.object_iff ho h]

namespace SameHeap

variable (hs : P.SameHeap h k)
include hs

/-- The unfolded graph has the same text. -/
theorem unfolds {path qath : List ObjId} (hpath : List.Forall₂ P.object path qath) {v t : Value}
    (hv : P.SameValue v t) {ts : List String} (hu : h.Unfolds path v ts) :
    k.Unfolds qath t ts := by
  induction hu generalizing qath t with
  | leaf hn =>
    rw [hs.leaf hv]
    refine .leaf fun q hq => ?_
    subst hq
    cases hv with
    | plain hv => cases hv
    | obj _ => exact hn _ rfl
  | text ho =>
    cases hv with
    | plain hv => cases hv
    | obj hop =>
      have hob := hs.object hop
      rw [ho] at hob
      generalize hk : k.object _ = b at hob
      cases hob
      exact .text hk
  | inside ho hp =>
    cases hv with
    | plain hv => cases hv
    | obj hop =>
      have hob := hs.object hop
      rw [hob.abbreviation]
      exact .inside (hob.ne_text ho) ((mem_iff_of_forall₂ hpath hop).1 hp)
  | @full path o tss ho hp hl _ ih =>
    cases hv with
    | plain hv => cases hv
    | obj hop =>
      have hob := hs.object hop
      rw [hob.opening, hob.closing, joinEntries_eq hob.entries]
      refine .full (hob.ne_text ho) (mt (mem_iff_of_forall₂ hpath hop).2 hp)
        (hl.trans hob.entries.length_eq) fun x hx => ?_
      obtain ⟨e, he, -, hv⟩ := mem_zip_of_forall₂ hob.entries hx
      exact ih (e, x.2) he (.cons hop hpath) hv

theorem display {v t : Value} (hv : P.SameValue v t) : h.display v = k.display t := by
  obtain ⟨⟨ts, ht⟩, -⟩ := h.printing_unfolds hs.unmarked.1 v
  obtain ⟨⟨us, hu⟩, -⟩ := k.printing_unfolds hs.unmarked.2 t
  have hts : k.Unfolds [] t ts := hs.unfolds .nil hv ((ht.unfolds_iff ts).2 rfl)
  rw [ht.display_eq, hu.display_eq, (hu.unfolds_iff ts).1 hts]

theorem elemText {e f : Elem} (he : P.SameElem e f) : h.elemText e = k.elemText f := by
  cases he with
  | direct hc =>
    cases hc with
    | native _ => rfl
    | docol => rfl
    | indirect hw entry => simp only [Heap.elemText, Heap.codeText, hs.label hw]
  | call hw => simp only [Heap.elemText, hs.label hw]
  | recurse => rfl
  | @lit v _ hv =>
    have hd := hs.display hv
    cases hv with
    | plain hv =>
      cases v with
      | obj _ => cases hv
      | _ => simp only [Heap.elemText, hd]
    | xt _ => simp only [Heap.elemText, hd]
    | ptr _ => simp only [Heap.elemText, hd]
    | obj _ => simp only [Heap.elemText, hd]

theorem listing (hw : P.SameCallee w u) : h.listing w = k.listing u := by
  have hb := (hs.word hw).body
  unfold Heap.listing
  refine congrArg String.join (List.ext_getElem (by simpa using hb.length_eq) fun i hi hi' => ?_)
  rw [List.length_mapIdx] at hi hi'
  have he : h.elemText (h.word w).body.toList[i] = k.elemText (k.word u).body.toList[i] :=
    hs.elemText (hb.get hi hi')
  simp only [List.getElem_mapIdx, he]

end SameHeap
end Pairing
end ThreadedForth
