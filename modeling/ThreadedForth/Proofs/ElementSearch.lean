/-
  Searching arrays and records, where values are compared within their kind.
-/
import ThreadedForth.Arithmetic
import ThreadedForth.Proofs.Sequences

namespace ThreadedForth

/-! ## Equality within a kind -/

theorem Value.kind_of_same {a b : Value} (h : a.same b = true) : a.kind = b.kind := by
  cases a <;> cases b <;> first | rfl | cases h

/-- Bytes are told apart by their numbers. -/
theorem int64_ofNat_toNat_beq (c d : UInt8) :
    (Int64.ofNat c.toNat == Int64.ofNat d.toNat) = (c == d) := by
  have hnumber : ∀ c : UInt8, (Int64.ofNat c.toNat).toInt = c.toNat := fun c =>
    Int64.toInt_ofNat_of_lt (Nat.lt_trans c.toNat_lt (by decide))
  rw [Bool.eq_iff_iff, beq_iff_eq, beq_iff_eq]
  constructor
  · intro h
    have h := congrArg Int64.toInt h
    rw [hnumber, hnumber] at h
    exact UInt8.toNat.inj (Int.ofNat.inj h)
  · rintro rfl
    rfl

namespace Heap

variable {a b e v : Value}

/-- Within a kind, `=` is equality of values. -/
theorem applyValues_eq_of_kind (h : Heap) (hk : a.kind = b.kind) :
    h.applyValues a b .eq = .ok (.bool (a.same b)) := by
  cases a with
  | char c =>
    cases b with
    | char d =>
      show Except.ok (Value.bool (Int64.ofNat c.toNat == Int64.ofNat d.toNat)) = _
      rw [int64_ofNat_toNat_beq]
      rfl
    | _ => cases hk
  | _ => cases b <;> first | rfl | cases hk

/-- Of values of two kinds, only numbers are ever equal. -/
theorem isNumber_of_applyValues_eq {h : Heap} {r : Value} (hk : a.kind ≠ b.kind)
    (hr : h.applyValues a b .eq = .ok r) : a.isNumber = true ∧ b.isNumber = true := by
  cases a <;> cases b <;> first | exact ⟨rfl, rfl⟩ | exact (hk rfl).elim | cases hr

/-- Strings of one text, or values that `=` says are equal when no handler takes care of them. -/
def Equals (h : Heap) (e v : Value) : Prop :=
  match h.text? e, h.text? v with
  | some s, some t => s = t
  | _, _ => h.applyValues e v .eq = .ok (.bool true)

theorem kind_of_text? {h : Heap} {s : String} (hs : h.text? v = some s) : v.kind = .object := by
  cases v with
  | obj o => rfl
  | _ => cases hs

/-- A search compares within a kind, and there as `=` does. -/
theorem sameContent_iff (h : Heap) :
    h.sameContent e v = true ↔ e.kind = v.kind ∧ h.Equals e v := by
  have hvalues : e.same v = true ↔
      e.kind = v.kind ∧ h.applyValues e v .eq = .ok (.bool true) := by
    constructor
    · intro hs
      have hk := Value.kind_of_same hs
      exact ⟨hk, by rw [h.applyValues_eq_of_kind hk, hs]⟩
    · rintro ⟨hk, hr⟩
      rw [h.applyValues_eq_of_kind hk] at hr
      exact Value.bool.inj (Except.ok.inj hr)
  unfold sameContent Equals
  cases hs : h.text? e with
  | none => exact hvalues
  | some s =>
    cases ht : h.text? v with
    | none => exact hvalues
    | some t =>
      have hk : e.kind = v.kind := (kind_of_text? hs).trans (kind_of_text? ht).symm
      exact ⟨fun heq => ⟨hk, beq_iff_eq.1 heq⟩, fun heq => beq_iff_eq.2 heq.2⟩

theorem Equals.isNumber {h : Heap} (heq : h.Equals e v) (hk : e.kind ≠ v.kind) :
    e.isNumber = true ∧ v.isNumber = true := by
  unfold Equals at heq
  cases hs : h.text? e with
  | none =>
    rw [hs] at heq
    exact isNumber_of_applyValues_eq hk heq
  | some s =>
    cases ht : h.text? v with
    | none =>
      rw [hs, ht] at heq
      exact isNumber_of_applyValues_eq hk heq
    | some t => exact (hk ((kind_of_text? hs).trans (kind_of_text? ht).symm)).elim

end Heap

/-! ## Searches -/

/-- The index of the first element of a list that has a property; there may be none. -/
def FirstIndex {α : Type} (p : α → Prop) (xs : List α) : Option Nat → Prop
  | some i => ∃ x, xs[i]? = some x ∧ p x ∧ ∀ j < i, ∀ y, xs[j]? = some y → ¬ p y
  | none => ∀ x ∈ xs, ¬ p x

namespace FirstIndex

variable {α : Type} {p q : α → Prop} {xs : List α} {index? : Option Nat}

theorem findIdx? {f : α → Bool} (hf : ∀ x, f x = true ↔ p x) (xs : List α) :
    FirstIndex p xs (xs.findIdx? f) := by
  cases h : xs.findIdx? f with
  | none =>
    intro x hx hp
    have hfalse := List.findIdx?_eq_none_iff.1 h x hx
    rw [(hf x).2 hp] at hfalse
    cases hfalse
  | some i =>
    obtain ⟨hi, hfi, hfirst⟩ := List.findIdx?_eq_some_iff_getElem.1 h
    refine ⟨xs[i], List.getElem?_eq_getElem hi, (hf _).1 hfi, fun j hj y hy => ?_⟩
    obtain ⟨hjlt, rfl⟩ := List.getElem?_eq_some_iff.1 hy
    exact fun hp => hfirst j hj ((hf _).2 hp)

theorem congr (hpq : ∀ x ∈ xs, (p x ↔ q x)) (h : FirstIndex p xs index?) :
    FirstIndex q xs index? := by
  cases index? with
  | none => exact fun x hx hq => h x hx ((hpq x hx).2 hq)
  | some i =>
    obtain ⟨x, hx, hp, hfirst⟩ := h
    refine ⟨x, hx, (hpq x (List.mem_of_getElem? hx)).1 hp, fun j hj y hy hq => ?_⟩
    exact hfirst j hj y hy ((hpq y (List.mem_of_getElem? hy)).2 hq)

end FirstIndex

namespace Store

variable {address : UInt64} {o : ObjId} {x : Obj} {items : Array Value} {s : Store} {v : Value} {rest : List Value}

/-- The shared functions of arrays and records. -/
theorem invoke_holds {f : Function} (hx : s.heap.objects[o.index]? = some x)
    (hitems : x.Holds items) (hrange : f ≠ .subRange) (happend : f ≠ .append) :
    invoke address o f s = invokeItems address o x items f s := by
  rw [invoke_eq hx]
  cases hitems with
  | record => rfl
  | array =>
    cases f with
    | subRange => exact (hrange rfl).elim
    | append => exact (happend rfl).elim
    | _ => rfl

/-- Both searches go through the values from the first on. -/
theorem search_eq (hx : s.heap.objects[o.index]? = some x) (hitems : x.Holds items)
    (hfits : s.data.Fits) (hd : s.data.items = v :: rest) :
    invoke address o .contains s = .ok () (s.withItems
      (.bool (items.toList.findIdx? (s.heap.sameContent · v)).isSome :: rest)) ∧
    invoke address o .indexOf s = .ok () (s.withItems
      ((items.toList.findIdx? (s.heap.sameContent · v)).elim (.int (-1)) .nat :: rest)) := by
  have hroom : (s.withItems rest).data.depth < (s.withItems rest).data.capacity := by
    rwa [Stack.Fits, Stack.depth, hd] at hfits
  constructor
  · rw [invoke_holds hx hitems (by decide) (by decide), List.findIdx?_isSome, Array.any_toList]
    exact (pop_bind hd).trans (push_of_lt _ hroom)
  · rw [invoke_holds hx hitems (by decide) (by decide)]
    refine (pop_bind hd).trans ?_
    show (match items.toList.findIdx? (s.heap.sameContent · v) with
      | some i => push (.nat i)
      | none => push (.int (-1))) (s.withItems rest) = _
    cases items.toList.findIdx? (s.heap.sameContent · v) with
    | none | some i => exact push_of_lt _ hroom

/-- **Searching arrays and records.**  What is found is the first element that is of the kind of
    the value and equal to it.  If no element is a number of another kind than the value, that is
    the first element that is equal to it. -/
theorem element_search (address : UInt64) (hx : s.heap.objects[o.index]? = some x)
    (hitems : x.Holds items) (hfits : s.data.Fits) (hd : s.data.items = v :: rest) :
    ∃ index? : Option Nat,
      invoke address o .contains s = .ok () (s.withItems (.bool index?.isSome :: rest)) ∧
      invoke address o .indexOf s = .ok () (s.withItems (index?.elim (.int (-1)) .nat :: rest)) ∧
      FirstIndex (fun e => e.kind = v.kind ∧ s.heap.Equals e v) items.toList index? ∧
      ((∀ e ∈ items, e.isNumber = true → v.isNumber = true → e.kind = v.kind) →
        FirstIndex (s.heap.Equals · v) items.toList index?) := by
  have hfirst : FirstIndex (fun e => e.kind = v.kind ∧ s.heap.Equals e v) items.toList
      (items.toList.findIdx? (s.heap.sameContent · v)) :=
    .findIdx? (fun e => s.heap.sameContent_iff) _
  obtain ⟨hcontains, hindex⟩ := search_eq hx hitems hfits hd
  refine ⟨_, hcontains, hindex, hfirst, fun hkinds => hfirst.congr fun e he => ?_⟩
  refine ⟨And.right, fun heq => ⟨?_, heq⟩⟩
  by_cases hk : e.kind = v.kind
  · exact hk
  · obtain ⟨hnumber, hv⟩ := heq.isNumber hk
    exact hkinds e (Array.mem_toList_iff.1 he) hnumber hv

/-- A string is found by its text. -/
theorem element_search_of_strings :
    let s : Store := ⟨{ objects := #[.text "b", .text "b", .array #[.obj ⟨0⟩] false] },
      ⟨.data, 1, [.obj ⟨1⟩]⟩⟩
    s.data.Fits ∧ invoke 0 ⟨2⟩ .contains s = .ok () (s.withItems [.bool true]) := by
  intro s
  have hfits : s.data.Fits := Nat.le_refl 1
  have hd : s.data.items = [.obj ⟨1⟩] := rfl
  have hx : s.heap.objects[2]? = some (.array #[.obj ⟨0⟩] false) := rfl
  obtain ⟨index?, hcontains, -, hfirst, -⟩ := element_search (o := ⟨2⟩) 0 hx .array hfits hd
  cases index? with
  | none => exact (hfirst (.obj ⟨0⟩) (.head _) ⟨rfl, (rfl : "b" = "b")⟩).elim
  | some i => exact ⟨hfits, hcontains⟩

/-- **A character passes for no integer.**  The number of the character a is an element and equal
    to it, but it is not found. -/
theorem character_passed_over :
    let s : Store := ⟨{ objects := #[.array #[.int 97] false] }, ⟨.data, 1, [.char 97]⟩⟩
    s.heap.Equals (.int 97) (.char 97) ∧
    invoke 0 ⟨0⟩ .contains s = .ok () (s.withItems [.bool false]) ∧
    invoke 0 ⟨0⟩ .indexOf s = .ok () (s.withItems [.int (-1)]) := by
  intro s
  have hfits : s.data.Fits := Nat.le_refl 1
  have hd : s.data.items = [.char 97] := rfl
  have hx : s.heap.objects[0]? = some (.array #[.int 97] false) := rfl
  exact ⟨rfl, search_eq (o := ⟨0⟩) hx .array hfits hd⟩

end Store
end ThreadedForth
