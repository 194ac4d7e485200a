/-
  Heaps and registries in lower case.
-/
import Mathlib.Data.List.Forall2
import ThreadedForth.Proofs.LikenessValues
import ThreadedForth.Proofs.LowerCase

namespace ThreadedForth

/-! ## Objects -/

/-- The declaration in lower case. -/
def Declaration.lowered (d : Declaration) : Declaration :=
  ⟨foldCase d.name, d.fields.map foldCase⟩

namespace Obj

/-- The object with its declaration in lower case. -/
def lowered : Obj → Obj
  | record t d items v => record t d.lowered items v
  | text s => text s
  | array items v => array items v

/-- Whether the object is a record. -/
def isRecord : Obj → Bool
  | record _ _ _ _ => true
  | _ => false

variable {o : Obj}

@[simp] theorem items_lowered (o : Obj) : o.lowered.items = o.items := by cases o <;> rfl

@[simp] theorem type_lowered (o : Obj) : o.lowered.type = o.type := by cases o <;> rfl

@[simp] theorem visiting?_lowered (o : Obj) : o.lowered.visiting? = o.visiting? := by
  cases o <;> rfl

@[simp] theorem refs_lowered (o : Obj) : o.lowered.refs = o.refs := by
  simp [refs]

@[simp] theorem setItems_lowered (items : Array Value) (o : Obj) :
    o.lowered.setItems items = (o.setItems items).lowered := by
  cases o <;> rfl

@[simp] theorem setVisiting_lowered (v : Bool) (o : Obj) :
    o.lowered.setVisiting v = (o.setVisiting v).lowered := by
  cases o <;> rfl

@[simp] theorem implements_lowered (o : Obj) : o.lowered.implements = o.implements := by
  cases o <;> rfl

theorem ofDeclaration_lowered (t : TypeId) (d : Declaration) :
    ofDeclaration t d.lowered = (ofDeclaration t d).lowered := by
  simp [ofDeclaration, lowered, Declaration.lowered]

theorem lowered_eq_self (h : o.isRecord = false) : o.lowered = o := by
  cases o <;> first | rfl | cases h

end Obj

namespace Heap

variable {h : Heap} {v : Value}

/-- The heap with its declarations in lower case. -/
def lowered (h : Heap) : Heap :=
  { h with objects := h.objects.map Obj.lowered }

@[simp] theorem word_lowered (h : Heap) (w : WordId) : h.lowered.word w = h.word w := rfl

@[simp] theorem object_lowered (h : Heap) (o : ObjId) :
    h.lowered.object o = (h.object o).lowered := by
  simp only [object, lowered, Array.getElem?_map]
  cases h.objects[o.index]? <;> rfl

theorem setObject_lowered (h : Heap) (o : ObjId) (x : Obj) :
    h.lowered.setObject o x.lowered = (h.setObject o x).lowered := by
  simp [setObject, lowered, Array.map_setIfInBounds]

theorem addObject_lowered (h : Heap) (x : Obj) :
    h.lowered.addObject x.lowered = ((h.addObject x).1, (h.addObject x).2.lowered) := by
  simp [addObject, lowered]

@[simp] theorem text?_lowered (h : Heap) (v : Value) : h.lowered.text? v = h.text? v := by
  cases v with
  | obj o =>
    simp only [text?, object_lowered]
    cases h.object o <;> rfl
  | _ => rfl

@[simp] theorem typeOf_lowered (h : Heap) (v : Value) : h.lowered.typeOf v = h.typeOf v := by
  cases v <;> simp [typeOf]

@[simp] theorem pointer_lowered (h : Heap) (w : WordId) (i : Nat) :
    h.lowered.pointer w i = h.pointer w i := by
  have ht : h.lowered.slotType w i = h.slotType w i := by
    unfold slotType
    rw [word_lowered]
    split <;> simp
  simp only [pointer, ht]

@[simp] theorem moved_lowered (h : Heap) (p : Pointer) (n : Int64) :
    h.lowered.moved p n = h.moved p n := by
  simp only [moved, offset, pointer_lowered, word_lowered]

theorem applyValues_lowered (h : Heap) (a b : Value) (op : Operator) :
    h.lowered.applyValues a b op = h.applyValues a b op := by
  unfold applyValues
  simp only [moved_lowered]

@[simp] theorem needle_lowered (h : Heap) (v : Value) : h.lowered.needle v = h.needle v := by
  cases v <;> simp only [needle, text?_lowered]

@[simp] theorem sameContent_lowered (h : Heap) (a b : Value) :
    h.lowered.sameContent a b = h.sameContent a b := by
  simp only [sameContent, text?_lowered]

/-! ## References -/

theorem heldBy_lowered (h : Heap) (m : Marks) : h.lowered.heldBy m = h.heldBy m := by
  simp only [heldBy, lowered, Array.toList_map, List.zip_map_left, List.flatMap_map]
  congr 1
  refine congrArg (List.flatMap · _) (funext fun p => ?_)
  simp

theorem supported_lowered (h : Heap) (roots : List Ref) (m : Marks) :
    h.lowered.supported roots m = h.supported roots m := by
  have hnone : Marks.none h.lowered = Marks.none h := by
    simp [Marks.none, lowered]
  rw [supported, supported, heldBy_lowered, hnone]

@[simp] theorem alive_lowered (h : Heap) (roots : List Ref) :
    h.lowered.alive roots = h.alive roots := by
  have hsettle : ∀ n m, h.lowered.settle roots n m = h.settle roots n m := by
    intro n
    induction n with
    | zero => exact fun _ => rfl
    | succ n ih =>
      intro m
      simp only [settle, supported_lowered, ih]
  have hall : Marks.all h.lowered = Marks.all h := by
    simp [Marks.all, lowered]
  rw [alive, alive, hsettle, hall]
  simp [lowered]

@[simp] theorem isAlive_lowered (h : Heap) (roots : List Ref) (w : WordId) :
    h.lowered.isAlive roots w = h.isAlive roots w := by
  simp only [isAlive, alive_lowered]

theorem followFrom_lowered (h : Heap) (seen : List (WordId × Nat)) (n : Nat) (v : Value) :
    h.lowered.followFrom seen n v = h.followFrom seen n v := by
  induction n generalizing seen v with
  | zero => rfl
  | succ n ih =>
    cases v with
    | ptr p =>
      have hl : h.lowered.load p = h.load p := rfl
      simp only [followFrom, hl, ih]
    | _ => rfl

@[simp] theorem liveCount?_lowered (h : Heap) (roots : List Ref) (v : Value) :
    h.lowered.liveCount? roots v = h.liveCount? roots v := by
  have href : ∀ o, h.lowered.references roots o = h.references roots o := by
    intro o
    rw [references, references, alive_lowered, heldBy_lowered]
  cases v with
  | obj o => exact congrArg some (href o)
  | ptr p =>
    simp only [liveCount?, followToEnd, followFrom_lowered, href]
    rfl
  | _ => rfl

/-! ## Texts -/

/-- A value with a record in its text: a record, or an array that holds such a value. -/
inductive ShowsRecord (h : Heap) : Value → Prop
  | record {o : ObjId} (ho : (h.object o).isRecord = true) : ShowsRecord h (.obj o)
  | item {o : ObjId} {v : Value} (hv : v ∈ (h.object o).items) (hs : ShowsRecord h v) :
    ShowsRecord h (.obj o)

theorem object_mark (h : Heap) (o p : ObjId) (b : Bool) :
    (h.mark o b).object p = h.object p ∨ (h.mark o b).object p = (h.object p).setVisiting b := by
  unfold mark
  rw [object_setObject]
  split
  · rename_i hp
    rw [hp.1]
    exact .inr rfl
  · exact .inl rfl

theorem mark_lowered (h : Heap) (o : ObjId) (b : Bool) :
    h.lowered.mark o b = (h.mark o b).lowered := by
  rw [mark, mark, object_lowered, Obj.setVisiting_lowered, setObject_lowered]

theorem ShowsRecord.of_mark {o : ObjId} {b : Bool} (hs : (h.mark o b).ShowsRecord v) :
    h.ShowsRecord v := by
  induction hs with
  | @record p hp =>
    refine .record ?_
    rcases h.object_mark o p b with he | he <;> rw [he] at hp
    · exact hp
    · cases hx : h.object p <;> rw [hx] at hp <;> exact hp
  | @item p u hu _ ih =>
    refine .item ?_ ih
    rcases h.object_mark o p b with he | he <;> rw [he] at hu
    · exact hu
    · cases hx : h.object p <;> rw [hx] at hu <;> exact hu

/-- The sink of a text that takes everything. -/
abbrev grow (s p : String) : String × Bool := (s ++ p, true)

/-- What the texts of objects in lower case have to do with the texts of the objects, as far as
    values are concerned that satisfy a condition. -/
structure Rendering (S : String → String → Prop) (N : Heap → Value → Prop) : Prop where
  refl : ∀ s, S s s
  append : ∀ {s t p q}, S s t → S p q → S (s ++ p) (t ++ q)
  mark : ∀ {h v} o b, N h v → N (h.mark o b) v
  item : ∀ {h o v}, N h (.obj o) → v ∈ (h.object o).items → N h v
  record : ∀ {h o}, N h (.obj o) → (h.object o).isRecord = true → ∀ p, S p (foldCase p)

/-- Two walks, the second over the heap in lower case, have not been stopped, and their texts are
    related. -/
structure Walked (S : String → String → Prop) (N : Heap → Value → Prop) (h : Heap)
    (r r' : Heap × String × Bool) : Prop where
  heap : r'.1 = r.1.lowered
  keeps : ∀ v, N h v → N r.1 v
  text : S r.2.1 r'.2.1
  all : r.2.2 = true ∧ r'.2.2 = true

section Rendering

variable {S : String → String → Prop} {N : Heap → Value → Prop} (R : Rendering S N)
include R

/-- The texts around what an object holds. -/
theorem Rendering.pieces {o : ObjId} (hN : N h (.obj o)) :
    S (h.object o).opening (h.object o).lowered.opening ∧
      S (h.object o).closing (h.object o).lowered.closing ∧
      S (h.object o).abbreviation (h.object o).lowered.abbreviation ∧
      List.Forall₂ (fun e f => S e.1 f.1 ∧ e.2 = f.2) (h.object o).entries
        (h.object o).lowered.entries := by
  cases hr : (h.object o).isRecord with
  | false =>
    rw [Obj.lowered_eq_self hr]
    exact ⟨R.refl _, R.refl _, R.refl _, List.forall₂_same.2 fun e _ => ⟨R.refl _, rfl⟩⟩
  | true =>
    have hfold := R.record hN hr
    cases ho : h.object o with
    | text s => rw [ho] at hr; cases hr
    | array items v => rw [ho] at hr; cases hr
    | record t d items v =>
      have hname := hfold d.name
      refine ⟨R.append hname (R.refl _), R.refl _, R.append hname (R.refl _), ?_⟩
      simp only [Obj.entries, Obj.lowered, Declaration.lowered]
      refine List.forall₂_iff_get.2 ⟨by simp, fun i hi hj => ?_⟩
      simp only [List.get_eq_getElem, List.getElem_mapIdx, List.getElem_zip, List.getElem_map]
      exact ⟨R.append (R.append (R.refl _) (hfold _)) (R.refl _), trivial⟩

theorem Rendering.walkEntries {visit : Value → Heap → String → Heap × String × Bool}
    (hvisit : ∀ v h s t, N h v → S s t → Walked S N h (visit v h s) (visit v h.lowered t))
    {es fs : List (String × Value)} (hes : List.Forall₂ (fun e f => S e.1 f.1 ∧ e.2 = f.2) es fs)
    {s t : String} (hN : ∀ e ∈ es, N h e.2) (hst : S s t) :
    Walked S N h (Heap.walkEntries grow visit es h s)
      (Heap.walkEntries grow visit fs h.lowered t) := by
  induction hes generalizing h s t with
  | nil => exact ⟨rfl, fun _ hv => hv, hst, rfl, rfl⟩
  | @cons e f es fs hef _ ih =>
    obtain ⟨p, v⟩ := e
    obtain ⟨q, w⟩ := f
    obtain ⟨hpq, rfl⟩ := hef
    have hv := hvisit v h (s ++ p) (t ++ q) (hN _ List.mem_cons_self) (R.append hst hpq)
    simp only [Heap.walkEntries]
    generalize visit v h (s ++ p) = r at hv ⊢
    generalize visit v h.lowered (t ++ q) = r' at hv ⊢
    obtain ⟨h₁, s₁, b⟩ := r
    obtain ⟨h₂, s₂, b'⟩ := r'
    obtain ⟨rfl, hk, ht, rfl, rfl⟩ := hv
    have hrest := ih (h := h₁) (fun e he => hk _ (hN e (List.mem_cons_of_mem _ he))) ht
    exact ⟨hrest.heap, fun v hv => hrest.keeps v (hk v hv), hrest.text, hrest.all⟩

theorem Rendering.all (ps : List String) {s t : String} (hst : S s t) :
    S (Heap.putAll grow ps s).1 (Heap.putAll grow ps t).1 ∧
      (Heap.putAll grow ps s).2 = true ∧ (Heap.putAll grow ps t).2 = true := by
  induction ps generalizing s t with
  | nil => exact ⟨hst, rfl, rfl⟩
  | cons p ps ih => exact ih (R.append hst (R.refl p))

/-- A walk over a heap in lower case. -/
theorem Rendering.walk (fuel : Nat) : ∀ (v : Value) (h : Heap) (s t : String), N h v → S s t →
    Walked S N h (Heap.walk grow fuel v h s) (Heap.walk grow fuel v h.lowered t) := by
  have hleaf : ∀ (fuel : Nat) {v : Value} {h : Heap} {s t : String}, N h v → S s t →
      (∀ o, v ≠ .obj o) →
        Walked S N h (Heap.walk grow fuel v h s) (Heap.walk grow fuel v h.lowered t) := by
    intro fuel v h s t hN hst hv
    have hl : h.lowered.leaf v = h.leaf v := by cases v <;> rfl
    have hwalk : ∀ (k : Heap) (s : String),
        Heap.walk grow fuel v k s = (k, putAll grow (k.leaf v) s) := by
      intro k s
      cases v <;> first | exact absurd rfl (hv _) | (cases fuel <;> rfl)
    rw [hwalk, hwalk, hl]
    obtain ⟨hp, ha⟩ := R.all (h.leaf v) hst
    exact ⟨rfl, fun _ hu => hu, hp, ha⟩
  induction fuel with
  | zero =>
    intro v h s t hN hst
    cases v with
    | obj o =>
      obtain ⟨hopen, -, habbr, -⟩ := R.pieces hN
      simp only [Heap.walk, object_lowered, Obj.visiting?_lowered]
      rcases (h.object o).visiting? with _ | _ | _
      · exact ⟨rfl, fun _ hv => hv, R.append hst hopen, rfl, rfl⟩
      · exact ⟨rfl, fun _ hv => hv, hst, rfl, rfl⟩
      · exact ⟨rfl, fun _ hv => hv, R.append hst habbr, rfl, rfl⟩
    | _ => exact hleaf _ hN hst (by simp)
  | succ fuel ih =>
    intro v h s t hN hst
    cases v with
    | obj o =>
      obtain ⟨hopen, hclose, habbr, hes⟩ := R.pieces hN
      simp only [Heap.walk, object_lowered, Obj.visiting?_lowered]
      rcases (h.object o).visiting? with _ | _ | _
      · exact ⟨rfl, fun _ hv => hv, R.append hst hopen, rfl, rfl⟩
      · have hw := R.walkEntries (h := h.mark o true) ih hes (s := s ++ (h.object o).opening)
          (t := t ++ (h.object o).lowered.opening)
          (fun e he => R.mark o true (R.item hN (Likeness.Shows.entries_items he)))
          (R.append hst hopen)
        simp only [mark_lowered, Heap.walkObject]
        generalize Heap.walkEntries grow (Heap.walk grow fuel) (h.object o).entries (h.mark o true) _ =
          r at hw ⊢
        generalize Heap.walkEntries grow (Heap.walk grow fuel) (h.object o).lowered.entries
          (h.mark o true).lowered _ = r' at hw ⊢
        obtain ⟨h₁, s₁, b⟩ := r
        obtain ⟨h₂, s₂, b'⟩ := r'
        obtain ⟨rfl, hk, ht, rfl, rfl⟩ := hw
        exact ⟨mark_lowered _ _ _, fun u hu => R.mark o false (hk u (R.mark o true hu)),
          R.append ht hclose, rfl, rfl⟩
      · exact ⟨rfl, fun _ hv => hv, R.append hst habbr, rfl, rfl⟩
    | _ => exact hleaf _ hN hst (by simp)

theorem Rendering.display (hN : N h v) : S (h.display v) (h.lowered.display v) := by
  have hsize : h.lowered.objects.size = h.objects.size := by simp [lowered]
  rw [Heap.display, Heap.display, hsize]
  exact (R.walk _ v h "" "" hN (R.refl _)).text

end Rendering

/-- The text of a value has the same length in lower case. -/
theorem size_display_lowered (h : Heap) (v : Value) :
    (h.lowered.display v).utf8ByteSize = (h.display v).utf8ByteSize :=
  Rendering.display (S := fun s t => t.utf8ByteSize = s.utf8ByteSize) (N := fun _ _ => True)
    { refl := fun _ => rfl
      append := fun hs hp => by rw [String.utf8ByteSize_append, String.utf8ByteSize_append, hs, hp]
      mark := fun _ _ _ => trivial
      item := fun _ _ => trivial
      record := fun _ _ p => utf8ByteSize_foldCase p } trivial

/-- The text of a value that has no record in it is the same. -/
theorem display_lowered (hv : ¬ h.ShowsRecord v) : h.lowered.display v = h.display v :=
  (Rendering.display (S := Eq) (N := fun h v => ¬ h.ShowsRecord v)
    { refl := fun _ => rfl
      append := fun hs hp => by rw [hs, hp]
      mark := fun _ _ hn hs => hn hs.of_mark
      item := fun hn hv hs => hn (.item hv hs)
      record := fun hn hr => absurd (.record hr) hn } hv).symm

theorem size_join {l k : List String}
    (h : List.Forall₂ (fun s t : String => t.utf8ByteSize = s.utf8ByteSize) l k) :
    (String.join k).utf8ByteSize = (String.join l).utf8ByteSize := by
  induction h with
  | nil => rfl
  | cons hst _ ih =>
    rw [String.join_cons, String.join_cons, String.utf8ByteSize_append, String.utf8ByteSize_append,
      hst, ih]

theorem size_listing_lowered (h : Heap) (w : WordId) :
    (h.lowered.listing w).utf8ByteSize = (h.listing w).utf8ByteSize := by
  have helem : ∀ e, (h.lowered.elemText e).utf8ByteSize = (h.elemText e).utf8ByteSize := by
    intro e
    cases e with
    | lit v =>
      have hd := h.size_display_lowered v
      cases v <;> simp only [elemText, String.utf8ByteSize_append, hd]
    | direct c => cases c <;> rfl
    | _ => rfl
  refine size_join (List.forall₂_iff_get.2 ⟨by simp, fun i _ _ => ?_⟩)
  simp only [List.get_eq_getElem, List.getElem_mapIdx, String.utf8ByteSize_append, helem,
    word_lowered]

end Heap

/-! ## Types -/

/-- The sort of a type with its declaration in lower case. -/
def TypeSort.lowered : TypeSort → TypeSort
  | user d handler => user d.lowered handler
  | value => value
  | object maker handler => object maker handler

/-- The type with its declaration in lower case. -/
def TypeEntry.lowered (e : TypeEntry) : TypeEntry :=
  { e with sort := e.sort.lowered }

@[simp] theorem TypeEntry.handler?_lowered (e : TypeEntry) : e.lowered.handler? = e.handler? := by
  obtain ⟨name, sort⟩ := e
  cases sort <;> rfl

theorem TypeEntry.setHandler_lowered (e : TypeEntry) (h : Handler) :
    e.lowered.setHandler h = (e.setHandler h).map lowered := by
  obtain ⟨name, sort⟩ := e
  cases sort <;> rfl

namespace Types

/-- The registry with its declarations in lower case. -/
def lowered (t : Types) : Types :=
  { t with
    values := t.values.map TypeEntry.lowered
    objects := t.objects.map TypeEntry.lowered
    users := t.users.map TypeEntry.lowered }

theorem get?_lowered (t : Types) (id : TypeId) : t.lowered.get? id = (t.get? id).map .lowered := by
  simp only [get?, lowered, Array.getElem?_map]
  split
  · rfl
  · split <;> rfl

@[simp] theorem handler?_lowered (t : Types) (id : TypeId) :
    t.lowered.handler? id = t.handler? id := by
  rw [handler?, handler?, get?_lowered]
  cases t.get? id <;> simp

@[simp] theorem nameOf_lowered (t : Types) (id : TypeId) : t.lowered.nameOf id = t.nameOf id := by
  simp only [nameOf, get?_lowered]
  cases t.get? id <;> rfl

@[simp] theorem handlerWords_lowered (t : Types) : t.lowered.handlerWords = t.handlerWords := by
  simp only [handlerWords, lowered, Array.toList_map, ← List.map_append, List.filterMap_map]
  congr 1
  funext e
  simp

theorem setEntry_lowered (t : Types) (id : TypeId) (e : TypeEntry) :
    t.lowered.setEntry id e.lowered = (t.setEntry id e).lowered := by
  simp only [setEntry, lowered]
  split
  · simp [Array.map_setIfInBounds]
  · split <;> simp [Array.map_setIfInBounds]

theorem setHandler_lowered (t : Types) (id : TypeId) (h : Handler) :
    t.lowered.setHandler id h = ((t.setHandler id h).1, (t.setHandler id h).2.lowered) := by
  simp only [setHandler, get?_lowered]
  cases t.get? id with
  | none => rfl
  | some e =>
    simp only [Option.map_some, TypeEntry.setHandler_lowered]
    cases e.setHandler h with
    | error _ => rfl
    | ok e => simp only [Except.map, setEntry_lowered]

/-- A declaration and its lower case are accepted or refused alike. -/
theorem addUser_lowered (t : Types) (d : Declaration) :
    (t.lowered.addUser d.lowered).2 = (t.addUser d).2.lowered ∧
      ((t.lowered.addUser d.lowered).1 = (t.addUser d).1 ∨
        (t.addUser d).1 = .error (.typeRedefined d.name) ∧
          (t.lowered.addUser d.lowered).1 = .error (.typeRedefined (foldCase d.name))) := by
  have hfind : t.lowered.find? (foldCase d.name) = t.find? d.name := by
    rw [find?, find?, Name.ofString_foldCase]
    rfl
  have hsize : t.lowered.users.size = t.users.size := by simp [lowered]
  have hcheck : ∀ name, t.lowered.checkFree name t.lowered.users.size TypeId.userRoom =
      if (t.lowered.find? name).isSome then .error (.typeRedefined name)
      else if t.users.size < TypeId.userRoom then .ok () else .error .typeSpaceExhausted := by
    intro name
    rw [checkFree, hsize]
  unfold addUser
  rw [show d.lowered.name = foldCase d.name from rfl, hcheck, hfind, checkFree]
  by_cases hf : (t.find? d.name).isSome = true
  · rw [if_pos hf, if_pos hf]
    exact ⟨rfl, .inr ⟨rfl, rfl⟩⟩
  · rw [if_neg hf, if_neg hf]
    by_cases hr : t.users.size < TypeId.userRoom
    · rw [if_pos hr, hsize]
      refine ⟨?_, .inl rfl⟩
      simp [lowered, Name.ofString_foldCase, TypeEntry.lowered, TypeSort.lowered]
    · rw [if_neg hr]
      exact ⟨rfl, .inl rfl⟩

end Types
end ThreadedForth
