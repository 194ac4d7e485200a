/-
  Steps of the functions of objects.
-/
import ThreadedForth.Objects

namespace ThreadedForth

/-- Whether the hash of an object is that of its address. -/
def Obj.hashesAddress : Obj → Bool
  | .text _ => false
  | .array _ _ | .record _ _ _ _ => true

namespace Store

variable {α β : Type} {address : UInt64} {o : ObjId} {s s' : Store} {v : Value} {rest : List Value}

/-- The store with the given items on its data stack. -/
def withItems (s : Store) (items : List Value) : Store :=
  { s with data := { s.data with items } }

@[simp] theorem withItems_heap (s : Store) (items : List Value) :
    (s.withItems items).heap = s.heap := rfl

/-! ## What a step has done -/

theorem of_bind_ok {x : StoreM α} {f : α → StoreM β} {b : β} (h : (x >>= f) s = .ok b s') :
    ∃ a s₁, x s = .ok a s₁ ∧ f a s₁ = .ok b s' := by
  have h : EStateM.bind x f s = .ok b s' := h
  unfold EStateM.bind at h
  split at h
  · exact ⟨_, _, ‹_›, h⟩
  · cases h

theorem bind_ok {x : StoreM α} {f : α → StoreM β} {a : α} (h : x s = .ok a s') :
    (x >>= f) s = f a s' := by
  simp only [Bind.bind, EStateM.bind, h]

theorem bind_error {x : StoreM α} {f : α → StoreM β} {e : Error} (h : x s = .error e s') :
    (x >>= f) s = .error e s' := by
  simp only [Bind.bind, EStateM.bind, h]

/-- Reading the store changes nothing. -/
theorem of_get_bind_ok {f : Store → StoreM β} {b : β}
    (h : (MonadState.get >>= f) s = .ok b s') : f s s = .ok b s' :=
  h

theorem of_pop_bind_ok {f : Value → StoreM β} {b : β} (h : (pop >>= f) s = .ok b s') :
    ∃ v rest, s.data.items = v :: rest ∧ f v (s.withItems rest) = .ok b s' := by
  obtain ⟨v, s₁, hv, h⟩ := of_bind_ok h
  unfold pop Stack.pop at hv
  cases hd : s.data.items with
  | nil =>
    rw [hd] at hv
    cases hv
  | cons u rest =>
    rw [hd] at hv
    cases hv
    exact ⟨_, rest, rfl, h⟩

theorem of_lift_bind_ok {r : Except Error α} {f : α → StoreM β} {b : β}
    (h : (lift r >>= f) s = .ok b s') : ∃ a, r = .ok a ∧ f a s = .ok b s' := by
  obtain ⟨a, s₁, ha, h⟩ := of_bind_ok h
  cases r with
  | ok a =>
    cases ha
    exact ⟨a, rfl, h⟩
  | error e => cases ha

theorem of_popInt_bind_ok {f : Int64 → StoreM β} {b : β} (h : (popInt >>= f) s = .ok b s') :
    ∃ u n rest, s.data.items = u :: rest ∧ u.toInt = .ok n ∧ f n (s.withItems rest) = .ok b s' := by
  obtain ⟨n, s₁, hn, h⟩ := of_bind_ok h
  obtain ⟨u, rest, hd, hn⟩ := of_pop_bind_ok hn
  cases hu : u.toInt with
  | ok m =>
    rw [hu] at hn
    cases hn
    exact ⟨u, n, rest, hd, hu, h⟩
  | error e =>
    rw [hu] at hn
    cases hn

theorem push_eq_ok (h : push v s = .ok () s') : s' = s.withItems (v :: s.data.items) := by
  unfold push at h
  split at h
  · rename_i data hdata
    cases h
    obtain ⟨-, rfl⟩ := Stack.push_eq_ok hdata
    rfl
  · cases h

theorem pushAll_eq_ok {vs : List Value} (h : pushAll vs s = .ok () s') :
    s' = s.withItems (vs.reverse ++ s.data.items) := by
  induction vs generalizing s with
  | nil =>
    cases h
    rfl
  | cons v vs ih =>
    obtain ⟨_, s₁, hv, h⟩ := of_bind_ok h
    rw [push_eq_ok hv] at h
    rw [ih h, List.reverse_cons, List.append_assoc]
    rfl

theorem pushNew_eq_ok {x : Obj} (h : pushNew x s = .ok () s') :
    s' = { s.withItems (.obj ⟨s.heap.objects.size⟩ :: s.data.items) with
      heap := (s.heap.addObject x).2 } :=
  push_eq_ok (s := { s with heap := (s.heap.addObject x).2 }) h

/-! ## Doing a step -/

theorem pop_bind {f : Value → StoreM β} (hd : s.data.items = v :: rest) :
    (pop >>= f) s = f v (s.withItems rest) := by
  refine bind_ok ?_
  simp only [pop, Stack.pop, hd]
  rfl

theorem lift_bind {r : Except Error α} {a : α} {f : α → StoreM β} (h : r = .ok a) :
    (lift r >>= f) s = f a s := by
  rw [h]
  rfl

theorem lift_bind_error {r : Except Error α} {e : Error} {f : α → StoreM β} (h : r = .error e) :
    (lift r >>= f) s = .error e s := by
  rw [h]
  rfl

theorem popInt_bind {n : Int64} {f : Int64 → StoreM β} (hd : s.data.items = v :: rest)
    (hn : v.toInt = .ok n) : (popInt >>= f) s = f n (s.withItems rest) := by
  refine bind_ok ((pop_bind hd).trans ?_)
  rw [hn]
  rfl

theorem push_of_lt (v : Value) (h : s.data.depth < s.data.capacity) :
    push v s = .ok () (s.withItems (v :: s.data.items)) := by
  simp only [push, Stack.push, if_pos h]
  rfl

/-! ## Failures -/

/-- A step that leaves the heap alone. -/
def Reads (act : StoreM α) : Prop :=
  ∀ s, match act s with
    | .ok _ s' => s'.heap = s.heap
    | .error _ s' => s'.heap = s.heap

/-- A computation that has not changed any object when it fails. -/
def Careful (act : StoreM α) : Prop :=
  ∀ s e s', act s = .error e s' →
    ∀ i : Nat, i < s.heap.objects.size → s'.heap.objects[i]? = s.heap.objects[i]?

theorem Reads.pop : Reads Store.pop := by
  intro s
  unfold Store.pop
  cases s.data.pop <;> rfl

theorem Reads.push (v : Value) : Reads (Store.push v) := by
  intro s
  unfold Store.push
  cases s.data.push v <;> rfl

theorem Reads.lift (r : Except Error α) : Reads (Store.lift r) := by
  intro s
  cases r <;> rfl

theorem Reads.throw (e : Error) : Reads (MonadExcept.throw e : StoreM α) :=
  fun _ => rfl

theorem Reads.bind {x : StoreM α} {f : α → StoreM β} (hx : Reads x) (hf : ∀ a, Reads (f a)) :
    Reads (x >>= f) := by
  intro s
  have hs := hx s
  cases h : x s with
  | error e s₁ =>
    rw [bind_error h]
    rwa [h] at hs
  | ok a s₁ =>
    rw [bind_ok h]
    rw [h] at hs
    have hs₁ := hf a s₁
    cases h₁ : f a s₁ with
    | ok b s₂ => rw [h₁] at hs₁; exact hs₁.trans hs
    | error e s₂ => rw [h₁] at hs₁; exact hs₁.trans hs

theorem Reads.get {f : Store → StoreM α} (hf : ∀ s, Reads (f s)) : Reads (MonadState.get >>= f) :=
  fun s => hf s s

theorem Reads.popInt : Reads Store.popInt :=
  Reads.pop.bind fun _ => .lift _

theorem Reads.pushAll : ∀ vs : List Value, Reads (Store.pushAll vs)
  | [] => fun _ => rfl
  | v :: vs => (Reads.push v).bind fun _ => Reads.pushAll vs

theorem Reads.careful {act : StoreM α} (h : Reads act) : Careful act := by
  intro s e s' he i _
  have hs := h s
  rw [he] at hs
  exact congrArg (·.objects[i]?) hs

theorem Reads.bind_careful {x : StoreM α} {f : α → StoreM β} (hx : Reads x)
    (hf : ∀ a, Careful (f a)) : Careful (x >>= f) := by
  intro s e s' he i hi
  have hs := hx s
  cases h : x s with
  | error e₁ s₁ =>
    rw [bind_error h] at he
    cases he
    rw [h] at hs
    exact congrArg (·.objects[i]?) hs
  | ok a s₁ =>
    rw [bind_ok h] at he
    rw [h] at hs
    rw [hf a s₁ e s' he i (hs ▸ hi)]
    exact congrArg (·.objects[i]?) hs

theorem Careful.get {f : Store → StoreM α} (hf : ∀ s, Careful (f s)) :
    Careful (MonadState.get >>= f) :=
  fun s => hf s s

theorem Careful.replace (o : ObjId) (x : Obj) : Careful (Store.replace o x) :=
  fun _ _ _ h => nomatch h

/-- A new object takes nothing away from the others. -/
theorem Careful.pushNew (x : Obj) : Careful (Store.pushNew x) := by
  intro s e s' h i hi
  have hheap := Reads.push (.obj ⟨s.heap.objects.size⟩) { s with heap := (s.heap.addObject x).2 }
  have h : Store.push (.obj ⟨s.heap.objects.size⟩) { s with heap := (s.heap.addObject x).2 } =
      .error e s' := h
  rw [h] at hheap
  rw [hheap]
  rw [Heap.addObject, Array.getElem?_push_lt hi, Array.getElem?_eq_getElem hi]

theorem invokeText_careful (o : ObjId) (t : String) (f : Function) :
    Careful (invokeText o t f) := by
  cases f with
  | size | hash => exact (Reads.push _).careful
  | get =>
    exact (Reads.popInt.bind fun _ => (Reads.lift _).bind fun _ => .push _).careful
  | set =>
    refine Reads.popInt.bind_careful fun _ => Reads.pop.bind_careful fun _ =>
      (Reads.lift _).bind_careful fun c => (Reads.lift _).bind_careful fun i => ?_
    cases Utf8.splice? i (i + 1) [c] t.toList with
    | none => exact (Reads.throw _).careful
    | some cs => exact .replace _ _
  | contains =>
    exact (Reads.pop.bind fun _ => .get fun _ => (Reads.lift _).bind fun _ => .push _).careful
  | indexOf =>
    refine (Reads.pop.bind fun _ => .get fun _ => (Reads.lift _).bind fun needle => ?_).careful
    cases Utf8.offsetOf? needle.toList t.toList with
    | none => exact .push _
    | some i => exact .push _
  | subRange =>
    refine Reads.popInt.bind_careful fun _ => Reads.popInt.bind_careful fun _ =>
      (Reads.lift _).bind_careful fun ij => ?_
    dsimp only
    cases Utf8.slice? ij.1 ij.2 t.toList with
    | none => exact (Reads.throw _).careful
    | some cs => exact .pushNew _
  | deconstruct => exact ((Reads.pushAll _).bind fun _ => .push _).careful
  | append => exact Reads.pop.bind_careful fun _ => .get fun _ => .replace _ _
  | implements => exact (Reads.popInt.bind fun _ => .push _).careful
  | close | read | readLine | readChar | eof => exact (Reads.throw _).careful

theorem invokeItems_careful (o : ObjId) (x : Obj) (items : Array Value) (f : Function) :
    Careful (invokeItems address o x items f) := by
  cases f with
  | size | hash => exact (Reads.push _).careful
  | get =>
    exact (Reads.popInt.bind fun _ => (Reads.lift _).bind fun _ => .push _).careful
  | set =>
    exact Reads.popInt.bind_careful fun _ => Reads.pop.bind_careful fun _ =>
      (Reads.lift _).bind_careful fun _ => .replace _ _
  | contains => exact (Reads.pop.bind fun _ => .get fun _ => .push _).careful
  | indexOf =>
    refine (Reads.pop.bind fun v => .get fun s => ?_).careful
    dsimp only
    split
    · exact .push _
    · exact .push _
  | deconstruct => exact ((Reads.pushAll _).bind fun _ => .push _).careful
  | implements => exact (Reads.popInt.bind fun _ => .push _).careful
  | subRange | append | close | read | readLine | readChar | eof => exact (Reads.throw _).careful

/-- **A function that fails has not touched any object.** -/
theorem invoke_careful (o : ObjId) (f : Function) : Careful (invoke address o f) := by
  refine .get fun s => ?_
  cases s.heap.object o with
  | text t => exact invokeText_careful o t f
  | array items v =>
    have h : Careful (invokeItems address o (.array items v) items f) := invokeItems_careful _ _ _ _
    cases f with
    | subRange =>
      exact Reads.popInt.bind_careful fun _ => Reads.popInt.bind_careful fun _ =>
        (Reads.lift _).bind_careful fun _ => .pushNew _
    | append => exact Reads.pop.bind_careful fun _ => .replace _ _
    | _ => exact h
  | record t d items v => exact invokeItems_careful o _ items f

/-! ## Addresses -/

/-- **Where an object is makes a difference to its hash alone.** -/
theorem invoke_address {f : Function} (hf : f ≠ .hash) (a b : UInt64) :
    invoke a o f = invoke b o f := by
  have hitems : ∀ x items, invokeItems a o x items f = invokeItems b o x items f := by
    intro x items
    cases f with
    | hash => exact absurd rfl hf
    | _ => rfl
  have harray : ∀ x items, invokeArray a o x items f = invokeArray b o x items f := by
    intro x items
    cases f with
    | subRange | append => rfl
    | _ => exact hitems x items
  funext s
  show (match s.heap.object o with
    | .text t => invokeText o t f
    | .array items v => invokeArray a o (.array items v) items f
    | .record t d items v => invokeItems a o (.record t d items v) items f) s = _
  simp only [hitems, harray]
  rfl

/-- Where a string is makes no difference to it. -/
theorem invoke_address_of_text (hs : (s.heap.object o).hashesAddress = false) (a b : UInt64)
    (f : Function) : invoke a o f s = invoke b o f s := by
  show (match s.heap.object o with
    | .text t => invokeText o t f
    | .array items v => invokeArray a o (.array items v) items f
    | .record t d items v => invokeItems a o (.record t d items v) items f) s =
    (match s.heap.object o with
    | .text t => invokeText o t f
    | .array items v => invokeArray b o (.array items v) items f
    | .record t d items v => invokeItems b o (.record t d items v) items f) s
  cases ho : s.heap.object o with
  | text t => rfl
  | array items v | record t d items v =>
    rw [ho] at hs
    cases hs

end Store
end ThreadedForth
