/-
  Words for values, on machines that are alike.
-/
import ThreadedForth.Proofs.Likeness

namespace ThreadedForth

variable {α β : Type}

/-! ## Changes of a word -/

/-- A change of the body of a word which does not depend on whether the word can be found. -/
def Word.Revises (f : Word → Except Error Word) : Prop :=
  ∀ (u : Word) (b : Bool),
    (∃ body, f u = .ok { u with body } ∧ f { u with hidden := b } = .ok { u with body, hidden := b }) ∨
    ∃ e, f u = .error e ∧ f { u with hidden := b } = .error e

namespace Word

theorem eq_of_shown {u v : Word} (h : u.shown = v.shown) : v = { u with hidden := v.hidden } := by
  cases u
  cases v
  simp_all [shown]

theorem push_revises (e : Elem) : Revises fun w => w.push e := by
  intro u b
  have hs : ({ u with hidden := b } : Word).size = u.size := rfl
  simp only [push, hs]
  cases checkSlot u.size e with
  | ok _ => exact .inl ⟨_, rfl, rfl⟩
  | error e => exact .inr ⟨e, rfl, rfl⟩

theorem poke_revises (i : Nat) (e : Elem) : Revises fun w => w.poke i e := by
  intro u b
  have hs : ({ u with hidden := b } : Word).size = u.size := rfl
  simp only [poke, hs]
  cases checkSlot i e with
  | ok _ =>
    simp only
    split
    · exact .inl ⟨_, rfl, rfl⟩
    · exact .inr ⟨_, rfl, rfl⟩
  | error e => exact .inr ⟨e, rfl, rfl⟩

theorem setCode_revises (c : Code) : Revises fun w => w.setCode c :=
  poke_revises 0 (.direct c)

theorem expand_revises (n : Nat) : Revises fun w => w.expand n := by
  intro u b
  have hs : ({ u with hidden := b } : Word).size = u.size := rfl
  simp only [expand, hs]
  split
  · exact .inl ⟨_, rfl, rfl⟩
  · exact .inr ⟨_, rfl, rfl⟩

theorem store_revises (i : Nat) (v : Value) : Revises fun w => w.store i v := by
  intro u b
  have hl : ({ u with hidden := b } : Word).load i = u.load i := rfl
  simp only [store, hl]
  cases u.load i with
  | ok _ => exact .inl ⟨_, rfl, rfl⟩
  | error e => exact .inr ⟨e, rfl, rfl⟩

end Word

/-! ## Results of operators -/

theorem Heap.refs_of_moved {h : Heap} {p : Pointer} {n : Int64} {v : Value}
    (hm : h.moved p n = .ok v) : v.refs = (Value.ptr p).refs := by
  unfold Heap.moved Heap.offset at hm
  simp only at hm
  split at hm
  · cases hm
    rfl
  · cases hm

theorem numberResult_plain {a b v : Value} {op : Operator} (h : numberResult a b op = .ok v) :
    v.isCounted = false := by
  unfold numberResult at h
  cases hx : a.toFloat with
  | error e => simp [hx, Bind.bind, Except.bind] at h
  | ok x =>
    cases hy : b.toFloat with
    | error e => simp [hx, hy, Bind.bind, Except.bind] at h
    | ok y =>
      simp only [hx, hy, Bind.bind, Except.bind] at h
      exact floatResult_plain h

theorem intLikeResult_plain {a b v : Value} {op : Operator} (h : intLikeResult a b op = .ok v) :
    v.isCounted = false := by
  unfold intLikeResult at h
  cases hx : a.toInt with
  | error e => simp [hx, Bind.bind, Except.bind] at h
  | ok x =>
    cases hy : b.toInt with
    | error e => simp [hx, hy, Bind.bind, Except.bind] at h
    | ok y =>
      simp only [hx, hy, Bind.bind, Except.bind] at h
      exact intResult_plain h

/-- An operator on plain values refers to nothing that its operands do not refer to. -/
theorem Heap.refs_of_applyValues {h : Heap} {a b v : Value} {op : Operator} {r : Ref}
    (hv : h.applyValues a b op = .ok v) (hr : r ∈ v.refs) : r ∈ a.refs ∨ r ∈ b.refs := by
  have hplain : v.isCounted ≠ false := by
    intro hc
    rw [Value.refs_eq_nil hc] at hr
    cases hr
  unfold Heap.applyValues at hv
  split at hv
  · exact absurd (numberResult_plain hv) hplain
  · split at hv
    · exact absurd (flagResult_plain hv) hplain
    · split at hv
      · exact .inl (Heap.refs_of_moved hv ▸ hr)
      · exact .inl (Heap.refs_of_moved hv ▸ hr)
      · cases hv
    · split at hv
      · exact .inr (Heap.refs_of_moved hv ▸ hr)
      · cases hv
    · split at hv
      · split at hv
        · cases hv
          cases hr
        · cases hv
      · exact absurd (equalityResult_plain hv) hplain
    · exact absurd (equalityResult_plain hv) hplain
    · exact absurd (equalityResult_plain hv) hplain
    · exact absurd (equalityResult_plain hv) hplain
    · exact absurd (equalityResult_plain hv) hplain
    · split at hv
      · exact absurd (intLikeResult_plain hv) hplain
      · cases hv

/-! ## Operators that a word applies by its name -/

/-- The top of the data stack is taken off, and the values below it move up. -/
theorem M.peek?_of_pop {v : Value} {m m' : Machine} (h : M.pop m = .ok v m') :
    m.data.peek? 0 = some v ∧
      ∃ s, m' = { m with data := s } ∧ ∀ n, s.peek? n = m.data.peek? (n + 1) := by
  obtain ⟨s, hs, rfl⟩ := M.pop_eq_ok h
  exact ⟨by simp [Stack.peek?, hs], s, rfl, fun n => by simp [Stack.peek?, hs]⟩

namespace Primitive

/-- The operands that a primitive is about to apply an operator to. -/
def operands? (m : Machine) : Primitive → Option (Value × Value)
  | arithmetic (.apply _) | arithmetic (.select _) =>
    (m.data.peek? 1).bind fun a => (m.data.peek? 0).map fun b => (a, b)
  | arithmetic .increment | arithmetic .decrement => (m.data.peek? 0).map fun a => (a, .int 1)
  | memory .addStore =>
    (m.data.peek? 0).bind fun target => (m.data.peek? 1).bind fun n =>
      match m.heap.deref target with
      | .ok v => some (v, n)
      | .error _ => none
  | _ => none

/-- Whether a primitive is about to have an operator applied by the word that is bound to the name
    `handler`. -/
def callsByName (m : Machine) (p : Primitive) : Bool :=
  (p.operands? m).any fun (a, b) => Operator.handler? m a b = some (.host .call)

end Primitive

namespace Likeness

variable {L : Likeness} {x y : Machine} {φ : α → Prop} {ψ : β → Prop}

/-- The words that a primitive goes on with are known. -/
def Leads (L : Likeness) : Flow → Prop
  | .call w => L.known w
  | .nest w pending => L.known w ∧ ∀ v ∈ pending.values, L.Knows v
  | _ => True

/-- What applying an operator gives is known. -/
def Gives (L : Likeness) : Operator.Dispatch → Prop
  | .done v => L.Knows v
  | .run w _ => L.known w

theorem KnowsAll.of_lit {u : Word} (h : L.KnowsAll u.refs) {i : Nat} {v : Value}
    (hv : u.body[i]? = some (.lit v)) : L.Knows v := by
  intro w hw
  refine h w (List.mem_flatMap.2 ⟨.lit v, ?_, hw⟩)
  exact Array.mem_toList_iff.2 (Array.mem_of_getElem? hv)

theorem KnowsAll.of_body {body body' : Array Elem} (h : L.KnowsAll (body.toList.flatMap Elem.refs))
    (hb : ∀ e ∈ body', e ∈ body ∨ L.KnowsAll e.refs) : L.KnowsAll (body'.toList.flatMap Elem.refs) := by
  intro w hw
  obtain ⟨e, he, hw⟩ := List.mem_flatMap.1 hw
  rcases hb e (Array.mem_toList_iff.1 he) with he | he
  · exact h w (List.mem_flatMap.2 ⟨e, Array.mem_toList_iff.2 he, hw⟩)
  · exact he w hw

theorem Knows.of_toPointer {v : Value} (hv : L.Knows v) {p : Pointer} (hp : v.toPointer = .ok p) :
    L.known p.target := by
  cases v with
  | ptr q =>
    cases hp
    exact hv.of_ptr
  | _ => cases hp

theorem Knows.of_applyValues {a b v : Value} (ha : L.Knows a) (hb : L.Knows b) {op : Operator}
    {h : Heap} (hv : h.applyValues a b op = .ok v) : L.Knows v := by
  intro w hw
  rcases Heap.refs_of_applyValues hv hw with hw | hw
  · exact ha w hw
  · exact hb w hw

/-! ## Text -/

/-- Two heaps have the same objects, and the same names of the known words, which are all that the
    objects refer to. -/
structure Shows (L : Likeness) (h k : Heap) : Prop where
  objects : h.objects = k.objects
  items : ∀ o ∈ h.objects, ∀ v ∈ o.items, L.Knows v
  label : ∀ w, L.known w → (h.word w).label = (k.word w).label

namespace Shows

variable {h k : Heap}

theorem object_eq (hs : L.Shows h k) (o : ObjId) : h.object o = k.object o := by
  unfold Heap.object
  rw [hs.objects]

theorem item (hs : L.Shows h k) (o : ObjId) {v : Value} (hv : v ∈ (h.object o).items) :
    L.Knows v := by
  unfold Heap.object at hv
  cases ho : h.objects[o.index]? with
  | none =>
    rw [ho] at hv
    simp [default, Obj.items] at hv
  | some obj =>
    rw [ho] at hv
    exact hs.items obj (Array.mem_of_getElem? ho) v hv

theorem leaf_eq (hs : L.Shows h k) {v : Value} (hv : L.Knows v) : h.leaf v = k.leaf v := by
  cases v with
  | xt w => simp only [Heap.leaf, hs.label w hv.of_xt]
  | ptr p => simp only [Heap.leaf, hs.label p.target hv.of_ptr]
  | _ => rfl

theorem mark (hs : L.Shows h k) (o : ObjId) (b : Bool) : L.Shows (h.mark o b) (k.mark o b) where
  objects := by
    show h.objects.setIfInBounds _ ((h.object o).setVisiting b) = k.objects.setIfInBounds _ _
    rw [hs.object_eq, hs.objects]
  items := by
    intro p hp v hv
    rcases Array.mem_or_eq_of_mem_setIfInBounds hp with hp | rfl
    · exact hs.items p hp v hv
    · refine hs.item o ?_
      cases ho : h.object o <;> rw [ho] at hv <;> exact hv
  label := hs.label

theorem entries_items {o : Obj} {e : String × Value} (he : e ∈ o.entries) : e.2 ∈ o.items := by
  cases o with
  | text s => cases he
  | array items v =>
    obtain ⟨i, hi, rfl⟩ := List.mem_mapIdx.1 he
    exact Array.mem_toList_iff.1 (List.getElem_mem hi)
  | record t d items v =>
    obtain ⟨i, hi, rfl⟩ := List.mem_mapIdx.1 he
    simp only [List.getElem_zip, Obj.items]
    exact Array.getElem_mem _

variable {σ : Type} {put : σ → String → σ × Bool}

/-- Both walks have written the same, over heaps that still show the same. -/
def Walked (L : Likeness) (r s : Heap × σ × Bool) : Prop :=
  r.2 = s.2 ∧ L.Shows r.1 s.1

theorem walkEntries {visit : Value → Heap → σ → Heap × σ × Bool}
    (hvisit : ∀ v h k s, L.Shows h k → L.Knows v → Walked L (visit v h s) (visit v k s)) :
    ∀ (es : List (String × Value)) {h k : Heap} (s : σ), L.Shows h k → (∀ e ∈ es, L.Knows e.2) →
      Walked L (Heap.walkEntries put visit es h s) (Heap.walkEntries put visit es k s)
  | [], _, _, s, hs, _ => ⟨rfl, hs⟩
  | (t, v) :: rest, h, k, s, hs, he => by
    unfold Heap.walkEntries
    rcases put s t with ⟨s₁, _ | _⟩
    · exact ⟨rfl, hs⟩
    · obtain ⟨hr, hsh⟩ := hvisit v h k s₁ hs (he (t, v) List.mem_cons_self)
      simp only
      rcases hx : visit v h s₁ with ⟨h', s', _ | _⟩ <;> rcases hy : visit v k s₁ with ⟨k', t', _ | _⟩ <;>
        rw [hx, hy] at hr hsh <;> cases hr
      · exact ⟨rfl, hsh⟩
      · exact walkEntries hvisit rest _ hsh fun e hm => he e (List.mem_cons_of_mem _ hm)

theorem walkObject {visit : Value → Heap → σ → Heap × σ × Bool}
    (hvisit : ∀ v h k s, L.Shows h k → L.Knows v → Walked L (visit v h s) (visit v k s))
    {o : Obj} (s : σ) (hs : L.Shows h k) (ho : ∀ v ∈ o.items, L.Knows v) :
    Walked L (Heap.walkObject put visit o h s) (Heap.walkObject put visit o k s) := by
  unfold Heap.walkObject
  rcases put s o.opening with ⟨s₁, _ | _⟩
  · exact ⟨rfl, hs⟩
  · obtain ⟨hr, hsh⟩ : Walked L (Heap.walkEntries put visit o.entries h s₁)
        (Heap.walkEntries put visit o.entries k s₁) :=
      walkEntries hvisit o.entries s₁ hs fun e he => ho _ (entries_items he)
    simp only
    rcases hx : Heap.walkEntries put visit o.entries h s₁ with ⟨h', s', _ | _⟩ <;>
      rcases hy : Heap.walkEntries put visit o.entries k s₁ with ⟨k', t', _ | _⟩ <;>
      rw [hx, hy] at hr hsh <;> cases hr
    · exact ⟨rfl, hsh⟩
    · exact ⟨rfl, hsh⟩

/-- **Values are shown in the same way.**  A walk meets only words that are known. -/
theorem walk : ∀ (fuel : Nat) (v : Value) (h k : Heap) (s : σ), L.Shows h k → L.Knows v →
    Walked L (Heap.walk put fuel v h s) (Heap.walk put fuel v k s) := by
  intro fuel
  induction fuel with
  | zero =>
    intro v h k s hs hv
    cases v with
    | obj o =>
      unfold Heap.walk
      rw [← hs.object_eq o]
      rcases (h.object o).visiting? with _ | _ | _
      · exact ⟨rfl, hs⟩
      · exact ⟨rfl, hs⟩
      · exact ⟨rfl, hs⟩
    | _ => exact ⟨congrArg (Heap.putAll put · s) (hs.leaf_eq hv), hs⟩
  | succ fuel ih =>
    intro v h k s hs hv
    cases v with
    | obj o =>
      unfold Heap.walk
      rw [← hs.object_eq o]
      rcases (h.object o).visiting? with _ | _ | _
      · exact ⟨rfl, hs⟩
      · obtain ⟨hr, hsh⟩ : Walked L (Heap.walkObject put _ _ _ s) (Heap.walkObject put _ _ _ s) :=
          walkObject ih s (hs.mark o true) fun v hv => hs.item o hv
        exact ⟨hr, hsh.mark o false⟩
      · exact ⟨rfl, hs⟩
    | _ => exact ⟨congrArg (Heap.putAll put · s) (hs.leaf_eq hv), hs⟩

theorem display_eq (hs : L.Shows h k) {v : Value} (hv : L.Knows v) : h.display v = k.display v := by
  unfold Heap.display
  rw [← hs.objects, (walk _ v h k "" hs hv).1]

end Shows

/-! ## The heap -/

namespace Basic

variable (B : L.Basic)
include B

theorem name_eq (h : L.alike x y) {w : WordId} (hw : L.known w) :
    (x.heap.word w).name = (y.heap.word w).name := by
  show (x.heap.word w).shown.name = (y.heap.word w).shown.name
  rw [(B.word h hw).1]

theorem body_eq (h : L.alike x y) {w : WordId} (hw : L.known w) :
    (x.heap.word w).body = (y.heap.word w).body := by
  show (x.heap.word w).shown.body = (y.heap.word w).shown.body
  rw [(B.word h hw).1]

theorem label_eq (h : L.alike x y) {w : WordId} (hw : L.known w) :
    (x.heap.word w).label = (y.heap.word w).label := by
  unfold Word.label Word.isAnonymous
  rw [B.name_eq h hw]

theorem code_eq (h : L.alike x y) {w : WordId} (hw : L.known w) :
    (x.heap.word w).code = (y.heap.word w).code := by
  simp only [Word.code, B.body_eq h hw, B.label_eq h hw]

theorem load_eq (h : L.alike x y) {w : WordId} (hw : L.known w) (i : Nat) :
    (x.heap.word w).load i = (y.heap.word w).load i := by
  simp only [Word.load, Word.badOffset, B.body_eq h hw, B.label_eq h hw]

theorem knows_load (h : L.alike x y) {w : WordId} (hw : L.known w) {i : Nat} {v : Value}
    (hv : (x.heap.word w).load i = .ok v) : L.Knows v := by
  unfold Word.load at hv
  split at hv
  · rename_i u hu
    split at hv
    · cases hv
    · cases hv
      exact (B.word h hw).2.of_lit hu
  · cases hv

theorem shows (h : L.alike x y) : L.Shows x.heap y.heap :=
  ⟨B.objects h, B.items h, fun _ hw => B.label_eq h hw⟩

theorem display_eq (h : L.alike x y) {v : Value} (hv : L.Knows v) :
    x.heap.display v = y.heap.display v :=
  (B.shows h).display_eq hv

theorem format_eq (h : L.alike x y) {v : Value} (hv : L.Knows v) : x.format v = y.format v := by
  cases v with
  | type t => simp only [Machine.format, B.types_eq h]
  | _ => exact B.display_eq h hv

theorem stackLine_eq (h : L.alike x y) : x.stackLine = y.stackLine := by
  unfold Machine.stackLine
  rw [← B.data_eq h]
  congr 2
  refine List.map_congr_left fun v hv => ?_
  rw [B.format_eq h ((B.holds h).data v (List.mem_reverse.1 hv))]

theorem typeOf_eq (h : L.alike x y) (v : Value) : x.heap.typeOf v = y.heap.typeOf v := by
  cases v with
  | obj o => simp only [Heap.typeOf, B.object_eq h]
  | _ => rfl

theorem text?_eq (h : L.alike x y) (v : Value) : x.heap.text? v = y.heap.text? v := by
  cases v with
  | obj o => simp only [Heap.text?, B.object_eq h]
  | _ => rfl

theorem pointer_eq (h : L.alike x y) {w : WordId} (hw : L.known w) (i : Nat) :
    x.heap.pointer w i = y.heap.pointer w i := by
  have ht : x.heap.slotType w i = y.heap.slotType w i := by
    unfold Heap.slotType
    rw [B.body_eq h hw]
    split
    · exact B.typeOf_eq h _
    · rfl
    · rfl
  simp only [Heap.pointer, ht]

theorem moved_eq (h : L.alike x y) {p : Pointer} (hp : L.known p.target) (n : Int64) :
    x.heap.moved p n = y.heap.moved p n := by
  simp only [Heap.moved, Heap.offset, B.pointer_eq h hp, B.name_eq h hp]

theorem deref_eq (h : L.alike x y) {v : Value} (hv : L.Knows v) :
    x.heap.deref v = y.heap.deref v ∧ ∀ u, x.heap.deref v = .ok u → L.Knows u := by
  cases v with
  | ptr p => exact ⟨B.load_eq h hv.of_ptr _, fun u hu => B.knows_load h hv.of_ptr hu⟩
  | _ => exact ⟨rfl, nofun⟩

theorem applyValues_eq (h : L.alike x y) {a b : Value} (ha : L.Knows a) (hb : L.Knows b)
    (op : Operator) : x.heap.applyValues a b op = y.heap.applyValues a b op := by
  unfold Heap.applyValues
  split
  · rfl
  · split
    · rfl
    · simp only [B.moved_eq h ha.of_ptr]
    · simp only [B.moved_eq h hb.of_ptr]
    · rfl
    · rfl
    · rfl
    · rfl
    · rfl
    · rfl

theorem changeWord {w : WordId} {f : Word → Except Error Word} (hw : L.known w)
    (hf : Word.Revises f)
    (hk : ∀ u v, L.KnowsAll u.refs → f u = .ok v → L.KnowsAll v.refs) :
    L.Keeps (do M.setHeap ((← get).heap.changeWord w f)) fun _ => True := by
  intro x y h
  show L.Same _ (M.setHeap (x.heap.changeWord w f) x) (M.setHeap (y.heap.changeWord w f) y)
  obtain ⟨hs, hr⟩ := B.word h hw
  unfold Heap.changeWord
  rcases hf (x.heap.word w) (y.heap.word w).hidden with ⟨body, hx, hy⟩ | ⟨e, hx, hy⟩
  · rw [← Word.eq_of_shown hs] at hy
    have hxy : L.alike (x.setBody w body) (y.setBody w body) := B.setBody h hw (hk _ _ hr hx)
    have hy' : f (y.heap.word w) = .ok { y.heap.word w with body } := by
      rw [hy, Word.eq_of_shown hs]
    simp only [hx, hy']
    exact .ok () trivial hxy
  · rw [← Word.eq_of_shown hs] at hy
    simp only [hx, hy]
    exact .error e h

theorem store {p : Pointer} {v : Value} (hp : L.known p.target) (hv : L.Knows v) :
    L.Keeps (do M.setHeap ((← get).heap.store p v)) fun _ => True := by
  refine B.changeWord hp (Word.store_revises _ v) fun u u' hu hs => ?_
  rw [Word.refs, Word.body_of_store hs]
  refine hu.of_body fun e he => ?_
  rcases Array.mem_or_eq_of_mem_setIfInBounds he with he | rfl
  · exact .inl he
  · exact .inr hv

/-! ## Stacks -/

theorem setSide (h : L.alike x y) {s : Stack Value} (hs : ∀ v ∈ s.items, L.Knows v)
    (k : SideStack) : L.alike (StackWord.setSide x s k) (StackWord.setSide y s k) := by
  cases k with
  | temp => exact B.change h (fun c => { c with temp := s }) { B.holds h with temp := hs }
  | self => exact B.change h (fun c => { c with self := s }) { B.holds h with self := hs }

theorem side_eq (h : L.alike x y) (k : SideStack) :
    StackWord.side x k = StackWord.side y k ∧ ∀ v ∈ (StackWord.side x k).items, L.Knows v := by
  cases k with
  | temp => exact ⟨congrArg Common.temp (B.common h), (B.holds h).temp⟩
  | self => exact ⟨congrArg Common.self (B.common h), (B.holds h).self⟩

theorem pushSide (k : SideStack) {v : Value} (hv : L.Knows v) :
    L.Keeps (StackWord.pushSide k v) fun _ => True := by
  intro x y h
  obtain ⟨he, hk⟩ := B.side_eq h k
  unfold StackWord.pushSide
  rw [← he]
  cases hp : (StackWord.side x k).push v with
  | error e => exact .error e h
  | ok s =>
    obtain ⟨-, rfl⟩ := Stack.push_eq_ok hp
    refine .ok () trivial (B.setSide h (fun u hu => ?_) k)
    rcases List.mem_cons.1 hu with rfl | hu
    · exact hv
    · exact hk u hu

theorem popSide (k : SideStack) : L.Keeps (StackWord.popSide k) L.Knows := by
  intro x y h
  obtain ⟨he, hk⟩ := B.side_eq h k
  unfold StackWord.popSide
  rw [← he]
  cases hp : (StackWord.side x k).pop with
  | error e => exact .error e h
  | ok vs =>
    obtain ⟨hi, -⟩ := Stack.pop_eq_ok hp
    exact .ok _ (hk _ (hi ▸ List.mem_cons_self))
      (B.setSide h (fun v hv => hk v (hi ▸ List.mem_cons_of_mem _ hv)) k)

theorem ensureRoom (n : Nat) : L.Keeps (StackWord.ensureRoom n) fun _ => True :=
  .get (fun _ _ h => by simp only [B.data_eq h]) fun _ _ _ => .lift' _

theorem stackWord (w : StackWord) : L.Keeps w.run fun _ => True := by
  cases w with
  | dup => exact (B.peek 0).bind fun _ hv => B.push hv
  | drop => exact B.pop.bind fun _ _ => .pure trivial
  | swap => exact B.pop.bind fun _ ha => B.pop.bind fun _ hb => (B.push ha).bind fun _ _ => B.push hb
  | «over» => exact (B.peek 1).bind fun _ hv => B.push hv
  | rot =>
    exact B.pop.bind fun _ hc => B.pop.bind fun _ hb => B.pop.bind fun _ ha =>
      (B.push hb).bind fun _ _ => (B.push hc).bind fun _ _ => B.push ha
  | nip => exact B.pop.bind fun _ hb => B.pop.bind fun _ _ => B.push hb
  | tuck =>
    exact (B.ensureRoom 1).bind fun _ _ => B.pop.bind fun _ hb => B.pop.bind fun _ ha =>
      (B.push hb).bind fun _ _ => (B.push ha).bind fun _ _ => B.push hb
  | twoDup =>
    exact (B.peek 1).bind fun _ ha => (B.peek 0).bind fun _ hb => (B.ensureRoom 2).bind fun _ _ =>
      (B.push ha).bind fun _ _ => B.push hb
  | twoDrop => exact B.pop.bind fun _ _ => B.pop.bind fun _ _ => .pure trivial
  | pick =>
    exact B.popInt.bind fun _ _ => .get (fun _ _ h => by simp only [B.data_eq h]) fun _ _ _ =>
      (Keeps.lift' _).bind fun _ _ => (B.peek _).bind fun _ hv => B.push hv
  | depth => exact .get (fun _ _ h => by simp only [B.data_eq h]) fun _ _ _ => B.pushPlain rfl
  | clear =>
    refine .modify fun x y h => ?_
    rw [← B.data_eq h]
    exact B.setData h nofun
  | toReturn => exact B.popInt.bind fun _ _ => B.pushReturn _
  | fromReturn => exact B.popReturn.bind fun _ _ => B.pushPlain rfl
  | copyReturn => exact (B.peekReturn 0).bind fun _ _ => B.pushPlain rfl
  | toSide k => exact B.pop.bind fun _ hv => B.pushSide k hv
  | fromSide k => exact (B.popSide k).bind fun _ hv => B.push hv
  | copySide k =>
    refine .get (fun _ _ h => by simp only [(B.side_eq h k).1]) fun x y h =>
      (Keeps.lift _ fun v hv => (B.side_eq h k).2 v ?_).bind fun _ hv => B.push hv
    unfold Stack.peek Stack.peek? at hv
    cases hi : (StackWord.side x k).items[0]? with
    | none =>
      rw [hi] at hv
      cases hv
    | some u =>
      rw [hi] at hv
      cases hv
      exact List.mem_of_getElem? hi

/-! ## Operators -/

theorem handler?_eq (h : L.alike x y) (a b : Value) :
    Operator.handler? x a b = Operator.handler? y a b := by
  have ho : ∀ v, Operator.handlerOf? x v = Operator.handlerOf? y v := by
    intro v
    cases v with
    | obj o => simp only [Operator.handlerOf?, B.types_eq h, B.object_eq h]
    | _ => rfl
  simp only [Operator.handler?, ho]

theorem known_handler (h : L.alike x y) {a b : Value} {w : WordId}
    (hw : Operator.handler? x a b = some (.word w)) : L.known w :=
  (B.holds h).types w (Operator.handler?_handles hw)

theorem takeResult (depth : Nat) : L.Keeps (Operator.takeResult depth) L.Knows :=
  .get (fun _ _ h => by simp only [B.data_eq h]) fun _ _ _ => .ite B.pop (.throw _)

theorem applyStrings {a b : Value} (ha : L.Knows a) (hb : L.Knows b) (op : Operator) :
    L.Keeps (do
      let (v, heap) ← M.lift ((← get).heap.applyStrings a b op)
      modify fun m => { m with heap }
      pure v : M Value) L.Knows := by
  intro x y h
  show L.Same L.Knows
    ((M.lift (x.heap.applyStrings a b op) >>= fun r => do modify (fun m => { m with heap := r.2 }); pure r.1) x)
    ((M.lift (y.heap.applyStrings a b op) >>= fun r => do modify (fun m => { m with heap := r.2 }); pure r.1) y)
  unfold Heap.applyStrings
  rw [B.display_eq h ha, B.display_eq h hb, B.text?_eq h a, B.text?_eq h b]
  split
  · exact B.newText _ x y h
  · split
    · split
      · exact .ok _ (.plain rfl) h
      · split
        · exact .ok _ (.plain rfl) h
        · exact .ok _ (.plain rfl) h
        · exact .error _ h
    · exact .error _ h

theorem handleStrings : L.Keeps Operator.handleStrings fun _ => True := by
  refine B.pop.bind fun v _ => (Keeps.lift' v.toOperator).bind fun op _ => B.pop.bind fun b hb =>
    B.pop.bind fun a ha => ?_
  have hsplit : (do
      let (v, heap) ← M.lift ((← get).heap.applyStrings a b op)
      modify fun m => { m with heap }
      M.push v : M Unit) = (do
      let (v, heap) ← M.lift ((← get).heap.applyStrings a b op)
      modify fun m => { m with heap }
      pure v : M Value) >>= M.push := by
    funext m
    show (M.lift (m.heap.applyStrings a b op) >>= _) m =
      ((M.lift (m.heap.applyStrings a b op) >>= _) >>= M.push) m
    cases m.heap.applyStrings a b op <;> rfl
  exact hsplit ▸ (B.applyStrings ha hb op).bind fun _ hv => B.push hv

theorem handleHost (k : HostHandler) (hn : k = .call → L.Keeps (M.builtin "handler") L.known) :
    L.Keeps (Operator.handleHost k) fun w? => ∀ w, w? = some w → L.known w := by
  cases k with
  | const | exit =>
    exact B.pop.bind fun _ _ => B.pop.bind fun _ _ => B.pop.bind fun _ _ =>
      (B.pushPlain rfl).bind fun _ _ => .pure nofun
  | call =>
    refine (hn rfl).bind fun w hw => .pure fun u hu => ?_
    cases hu
    exact hw
  | broken => exact B.pop.bind fun _ _ => .pure nofun

theorem handle {k : Handler} (hk : ∀ w, k = .word w → L.known w)
    (hn : k = .host .call → L.Keeps (M.builtin "handler") L.known) :
    L.Keeps (Operator.handle k) fun w? => ∀ w, w? = some w → L.known w := by
  cases k with
  | strings => exact B.handleStrings.bind fun _ _ => .pure nofun
  | host k => exact B.handleHost k fun hk => hn (by rw [hk])
  | word w =>
    refine .pure fun u hu => ?_
    cases hu
    exact hk w rfl

theorem dispatch (h : L.alike x y) {a b : Value} (ha : L.Knows a) (hb : L.Knows b) (op : Operator)
    (hn : Operator.handler? x a b = some (.host .call) → L.Keeps (M.builtin "handler") L.known) :
    L.Same L.Gives (Operator.dispatch a b op x) (Operator.dispatch a b op y) := by
  rw [Operator.dispatch, M.bind_ok (x := MonadState.get) rfl, M.bind_ok (x := MonadState.get) rfl,
    ← B.handler?_eq h, B.applyValues_eq h ha hb, B.data_eq h]
  cases hk : Operator.handler? x a b with
  | none =>
    have hv : L.Keeps (M.lift (y.heap.applyValues a b op)) L.Knows :=
      .lift _ fun v hv => .of_applyValues ha hb hv
    exact (hv.bind (ψ := L.Gives) fun v hv => .pure (a := Operator.Dispatch.done v) hv) x y h
  | some k =>
    refine ((B.push ha).bind fun _ _ => (B.push hb).bind fun _ _ => (B.pushPlain rfl).bind fun _ _ =>
      (B.handle (fun w hw => B.known_handler h (hw ▸ hk)) fun hc => hn (hc ▸ hk)).bind
        fun w? hw => ?_) x y h
    cases w? with
    | none => exact (B.takeResult _).bind fun _ hv => .pure hv
    | some w => exact .pure (hw w rfl)

theorem useResult {v : Value} (hv : L.Knows v) {after : After} {depth : Nat}
    (ha : ∀ u ∈ (Pending.handler depth after).values, L.Knows u) :
    L.Keeps (Operator.useResult v after) fun _ => True := by
  cases after with
  | push => exact B.push hv
  | select a b =>
    exact (Keeps.lift' _).bind fun _ _ =>
      .ite (B.push (ha a (by simp [Pending.values]))) (B.push (ha b (by simp [Pending.values])))
  | store p => exact B.store (ha (.ptr p) (by simp [Pending.values])).of_ptr hv

theorem conclude {depth : Nat} {after : After}
    (ha : ∀ u ∈ (Pending.handler depth after).values, L.Knows u) :
    L.Keeps (Operator.conclude depth after) fun _ => True :=
  (B.takeResult depth).bind fun _ hv => B.useResult hv ha

theorem applyThen (h : L.alike x y) {a b : Value} (ha : L.Knows a) (hb : L.Knows b) (op : Operator)
    {after : After} (hafter : ∀ depth, ∀ u ∈ (Pending.handler depth after).values, L.Knows u)
    (hn : Operator.handler? x a b = some (.host .call) → L.Keeps (M.builtin "handler") L.known) :
    L.Same L.Leads (Operator.applyThen a b op after x) (Operator.applyThen a b op after y) := by
  refine (B.dispatch h ha hb op hn).bind fun d x' y' _ _ hd hxy => ?_
  cases d with
  | done v => exact ((B.useResult hd (hafter 0)).bind fun _ _ => .pure trivial) x' y' hxy
  | run w depth => exact .ok _ ⟨hd, hafter depth⟩ hxy

/-! ## Numbers -/

theorem arithmeticWord (h : L.alike x y) (w : ArithmeticWord)
    (hn : (Primitive.arithmetic w).callsByName x = true → L.Keeps (M.builtin "handler") L.known) :
    L.Same L.Leads (w.run x) (w.run y) := by
  have one : L.Knows (.int 1) := .plain rfl
  have two : ∀ {a b x₁ x₂}, M.pop x = .ok b x₁ → M.pop x₁ = .ok a x₂ →
      x.data.peek? 0 = some b ∧ x.data.peek? 1 = some a ∧ ∀ u v, Operator.handler? x₂ u v =
        Operator.handler? x u v := by
    intro a b x₁ x₂ h₁ h₂
    obtain ⟨hb, s, rfl, hs⟩ := M.peek?_of_pop h₁
    obtain ⟨ha, t, rfl, -⟩ := M.peek?_of_pop h₂
    exact ⟨hb, (hs 0).symm.trans ha, fun u v => by cases u <;> cases v <;> rfl⟩
  cases w with
  | apply op =>
    refine (B.pop x y h).bind fun b x₁ y₁ hx₁ _ hb h₁ => (B.pop x₁ y₁ h₁).bind
      fun a x₂ y₂ hx₂ _ ha h₂ => B.applyThen h₂ ha hb op (fun _ => nofun) fun hc => hn ?_
    obtain ⟨h0, h1, hh⟩ := two hx₁ hx₂
    simp [Primitive.callsByName, Primitive.operands?, h0, h1, ← hh, hc]
  | select op =>
    refine (B.pop x y h).bind fun b x₁ y₁ hx₁ _ hb h₁ => (B.pop x₁ y₁ h₁).bind
      fun a x₂ y₂ hx₂ _ ha h₂ => B.applyThen h₂ ha hb op ?_ fun hc => hn ?_
    · intro _ u hu
      rcases List.mem_cons.1 hu with rfl | hu
      · exact ha
      · cases List.mem_singleton.1 hu
        exact hb
    · obtain ⟨h0, h1, hh⟩ := two hx₁ hx₂
      simp [Primitive.callsByName, Primitive.operands?, h0, h1, ← hh, hc]
  | increment =>
    refine (B.pop x y h).bind fun a x₁ y₁ hx₁ _ ha h₁ =>
      B.applyThen h₁ ha one .add (fun _ => nofun) fun hc => hn ?_
    obtain ⟨h0, s, rfl, -⟩ := M.peek?_of_pop hx₁
    have hh : Operator.handler? x a (.int 1) = some (.host .call) := by cases a <;> exact hc
    simp [Primitive.callsByName, Primitive.operands?, h0, hh]
  | decrement =>
    refine (B.pop x y h).bind fun a x₁ y₁ hx₁ _ ha h₁ =>
      B.applyThen h₁ ha one .sub (fun _ => nofun) fun hc => hn ?_
    obtain ⟨h0, s, rfl, -⟩ := M.peek?_of_pop hx₁
    have hh : Operator.handler? x a (.int 1) = some (.host .call) := by cases a <;> exact hc
    simp [Primitive.callsByName, Primitive.operands?, h0, hh]
  | negate =>
    refine (B.pop.bind fun v _ => ?_) x y h
    cases v with
    | float z => exact (B.pushPlain rfl).bind fun _ _ => .pure trivial
    | _ => exact (Keeps.lift' _).bind fun _ _ => (B.pushPlain rfl).bind fun _ _ => .pure trivial
  | abs =>
    refine (B.pop.bind fun v _ => ?_) x y h
    cases v with
    | float z => exact (B.pushPlain rfl).bind fun _ _ => .pure trivial
    | _ => exact (Keeps.lift' _).bind fun _ _ => (B.pushPlain rfl).bind fun _ _ => .pure trivial
  | not => exact (B.popFlag.bind fun _ _ => (B.pushPlain rfl).bind fun _ _ => .pure trivial) x y h
  | invert => exact (B.popInt.bind fun _ _ => (B.pushPlain rfl).bind fun _ _ => .pure trivial) x y h
  | flag b => exact ((B.pushPlain rfl).bind fun _ _ => .pure trivial) x y h

theorem floatWord (w : FloatWord) : L.Keeps w.run fun _ => True := by
  cases w with
  | toInt =>
    refine B.pop.bind fun v _ => ?_
    cases v with
    | float x => exact B.pushPlain rfl
    | _ => exact (Keeps.lift' _).bind fun _ _ => B.pushPlain rfl
  | _ => exact B.pop.bind fun _ _ => (Keeps.lift' _).bind fun _ _ => B.pushPlain rfl

/-! ## Output -/

theorem putSpaces : ∀ n, L.Keeps (putSpaces n) fun _ => True
  | 0 => .pure trivial
  | n + 1 => (B.put _).bind fun _ _ => putSpaces n

theorem outputWord {w : OutputWord} (hw : w ≠ .words) (hs : w ≠ .see) :
    L.Keeps w.run fun _ => True := by
  cases w with
  | print =>
    exact B.pop.bind fun v hv => .get (fun x y h => by simp only [B.format_eq h hv]) fun _ _ _ =>
      B.write _
  | printFloat => exact B.pop.bind fun _ _ => (Keeps.lift' _).bind fun _ _ => B.write _
  | printStack => exact .get (fun x y h => by simp only [B.stackLine_eq h]) fun _ _ _ => B.write _
  | emit => exact B.pop.bind fun _ _ => (Keeps.lift' _).bind fun _ _ => B.putByte _
  | newline => exact B.put _
  | space => exact B.put _
  | spaces => exact B.popInt.bind fun _ _ => B.putSpaces _
  | type =>
    exact B.pop.bind fun v hv => .get (fun x y h => by simp only [B.format_eq h hv]) fun _ _ _ =>
      B.put _
  | words => exact absurd rfl hw
  | see => exact absurd rfl hs

/-! ## Data slots -/

theorem loadWord : L.Keeps (MemoryWord.run .load) L.Leads :=
  B.pop.bind fun v hv => .get (fun x y h => by simp only [(B.deref_eq h hv).1]) fun x y h =>
    (Keeps.lift _ (B.deref_eq h hv).2).bind fun _ hu => (B.push hu).bind fun _ _ => .pure trivial

theorem storeWord : L.Keeps (MemoryWord.run .store) L.Leads :=
  B.pop.bind fun target ht => B.pop.bind fun _ hv =>
    (Keeps.lift target.toPointer fun _ => ht.of_toPointer).bind fun _ hp =>
      (B.store hp hv).bind fun _ _ => .pure trivial

theorem addStoreWord (h : L.alike x y)
    (hn : (Primitive.memory .addStore).callsByName x = true → L.Keeps (M.builtin "handler") L.known) :
    L.Same L.Leads (MemoryWord.run .addStore x) (MemoryWord.run .addStore y) := by
  refine (B.pop x y h).bind fun target x₁ y₁ hx₁ _ ht h₁ => (B.pop x₁ y₁ h₁).bind
    fun n x₂ y₂ hx₂ _ hk h₂ => ?_
  obtain ⟨h0, s, rfl, hs⟩ := M.peek?_of_pop hx₁
  obtain ⟨h1, t, rfl, -⟩ := M.peek?_of_pop hx₂
  have hp : L.Keeps (M.lift target.toPointer) fun p => L.known p.target ∧ target = .ptr p := by
    refine .lift _ fun p hp => ⟨ht.of_toPointer hp, ?_⟩
    cases target <;> cases hp
    rfl
  refine (hp _ y₂ h₂).bind fun p x₃ y₃ hx₃ _ ⟨hkp, hp⟩ h₃ => ?_
  obtain ⟨-, rfl⟩ := M.lift_eq_ok hx₃
  show L.Same _ ((M.lift (x.heap.load p) >>= fun v => Operator.applyThen v n .add (.store p)) _)
    ((M.lift (y₃.heap.load p) >>= fun v => Operator.applyThen v n .add (.store p)) y₃)
  have hl : x.heap.load p = y₃.heap.load p := B.load_eq h₃ hkp p.index
  rw [← hl]
  refine (Keeps.lift (φ := fun v => L.Knows v ∧ x.heap.load p = .ok v) (x.heap.load p)
    (fun v hv => ⟨B.knows_load h₃ hkp hv, hv⟩) _ _ h₃).bind fun v x₄ y₄ hx₄ _ ⟨hv, hload⟩ h₄ => ?_
  obtain ⟨-, rfl⟩ := M.lift_eq_ok hx₄
  refine B.applyThen h₄ hv hk .add ?_ fun hc => hn ?_
  · intro _ u hu
    cases List.mem_singleton.1 hu
    exact .ptr hkp
  · have hderef : x.heap.deref target = .ok v := by rw [hp]; exact hload
    have h1 : x.data.peek? 1 = some n := (hs 0).symm.trans h1
    have hc : Operator.handler? x v n = some (.host .call) := by
      cases v <;> cases n <;> exact hc
    simp [Primitive.callsByName, Primitive.operands?, h0, h1, hderef, hc]

end Basic
end Likeness
end ThreadedForth
