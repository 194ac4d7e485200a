/-
  The pointers of a session: none of them leads to the slot that holds the code of a word.
-/
import ThreadedForth.Proofs.Locality
import ThreadedForth.Proofs.Operands
import ThreadedForth.Proofs.PointerChains

namespace ThreadedForth

variable {L : Edit → Prop} {m m' : Machine} {hand hand' : List Value}

/-! ## Where pointers point -/

/-- All pointers of a machine, and all in hand, have positions that pointers can have. -/
structure Machine.Addresses (m : Machine) (hand : List Value) : Prop where
  occurs : ∀ p, m.Occurs (.ptr p) → Addressable p.index
  hand : ∀ p, .ptr p ∈ hand → Addressable p.index

theorem Machine.Addresses.move (ha : m.Addresses hand) (hm : Move L m hand m' hand') :
    m'.Addresses hand' := by
  refine ⟨fun p hp => ?_, fun p hp => ?_⟩
  · rcases hm.occurs hp with hp | hp | hp
    · exact ha.occurs p hp
    · exact ha.hand p hp
    · cases hp
  · rcases hm.pointer hp with hp | hp | ⟨hi, -⟩
    · exact ha.occurs p hp
    · exact ha.hand p hp
    · exact hi

theorem Machine.Addresses.moves (ha : m.Addresses hand) (hm : Moves L m hand m' hand') :
    m'.Addresses hand' := by
  induction hm with
  | refl => exact ha
  | tail _ ht ih => exact (ih ha).move ht

namespace Machine

variable {ph : Phase} {p : Pointer} {v : Value} {rest : List Value}

theorem Reached.addresses (h : Reached ph m) : m.Addresses [] := by
  refine h.invariant (P := fun _ m => m.Addresses []) (fun p bs => ?_) fun _ ha hn => ?_
  · have hm : Moves (fun _ => False) (empty p) [] (Machine.create p bs) [] := create_moves p bs
    exact Addresses.moves ⟨fun q hq => absurd hq (not_occurs_empty p _),
      fun _ hq => absurd hq List.not_mem_nil⟩ hm
  · obtain ⟨hand, hm⟩ := hn.moves
    exact ⟨(ha.moves hm).occurs, fun _ hq => absurd hq List.not_mem_nil⟩

/-- The slot that holds the code of a word is never pointed at. -/
theorem Reached.addressable (h : Reached ph m) (hp : m.Occurs (.ptr p)) : Addressable p.index :=
  h.addresses.occurs p hp

/-! ## The words for pointers -/

/-- A word has taken its operands and left the result, if it has one. -/
def leaves (m : Machine) (rest : List Value) :
    Except Error Value → EStateM.Result Error Machine Flow
  | .ok v => .ok .next (m.withItems (v :: rest))
  | .error e => .error e (m.withItems rest)

theorem room_of_items (hd : m.data.items = v :: rest) (hfits : m.data.Fits) :
    rest.length < m.data.capacity := by
  have hfits : m.data.items.length ≤ m.data.capacity := hfits
  rw [hd] at hfits
  exact hfits

/-- What is read through a pointer takes its place. -/
theorem run_load_ptr (hd : m.data.items = .ptr p :: rest) (hfits : m.data.Fits) :
    MemoryWord.run .load m = m.leaves rest (m.heap.load p) := by
  have hheap : (m.withItems rest).heap = m.heap := rfl
  rw [MemoryWord.run, M.bind_ok (pop_of_items hd)]
  show (M.lift ((m.withItems rest).heap.deref (.ptr p)) >>= fun v =>
    M.push v >>= fun _ => pure Flow.next) (m.withItems rest) = _
  rw [hheap, Heap.deref_ptr]
  cases hl : m.heap.load p with
  | ok v =>
    rw [M.bind_ok (lift_ok rfl), M.bind_ok (push_withItems v (room_of_items hd hfits))]
    rfl
  | error e => rfl

/-- A value is stored through a pointer, or nothing is. -/
theorem run_store_ptr (hd : m.data.items = .ptr p :: v :: rest) :
    MemoryWord.run .store m = match m.heap.store p v with
      | .ok h => .ok .next { m.withItems rest with heap := h }
      | .error e => .error e (m.withItems rest) := by
  rw [MemoryWord.run, M.bind_ok (pop_of_items hd), M.bind_ok (pop_of_items rfl)]
  show (M.setHeap ((m.withItems rest).heap.store p v) >>= fun _ => pure Flow.next)
    (m.withItems rest) = _
  rw [show (m.withItems rest).heap = m.heap from rfl]
  cases m.heap.store p v <;> rfl

/-- What the words for pointers do.  Operators are applied to a pointer and anything that has no
    handler of its own; they never change the heap. -/
structure PointerWords (m : Machine) (p : Pointer) : Prop where
  applyLeft : ∀ b rest op, Operator.handlerOf? m b = none → m.data.items = b :: .ptr p :: rest →
    ArithmeticWord.run (.apply op) m = m.leaves rest (m.heap.applyValues (.ptr p) b op)
  applyRight : ∀ a rest op, Operator.handlerOf? m a = none → m.data.items = .ptr p :: a :: rest →
    ArithmeticWord.run (.apply op) m = m.leaves rest (m.heap.applyValues a (.ptr p) op)
  load : ∀ rest, m.data.items = .ptr p :: rest →
    MemoryWord.run .load m = m.leaves rest (m.heap.load p)
  store : ∀ v rest, m.data.items = .ptr p :: v :: rest →
    MemoryWord.run .store m = match m.heap.store p v with
      | .ok h => .ok .next { m.withItems rest with heap := h }
      | .error e => .error e (m.withItems rest)

theorem pointerWords (hfits : m.data.Fits) (p : Pointer) : m.PointerWords p where
  applyLeft b rest op hb hd := by
    rw [Operator.run_apply hd hfits (by rw [Operator.handler?, hb]; rfl)]
    cases m.heap.applyValues (.ptr p) b op <;> rfl
  applyRight a rest op ha hd := by
    rw [Operator.run_apply hd hfits (by rw [Operator.handler?, ha]; rfl)]
    cases m.heap.applyValues a (.ptr p) op <;> rfl
  load _ hd := run_load_ptr hd hfits
  store _ _ hd := run_store_ptr hd

end Machine

/-! ## The theorem -/

open Machine

/-- **Pointer arithmetic.**  Every pointer of a session points to a slot after the first one of a
    word.  Integers act on such pointers: a sum or difference is the pointer that is so many slots
    further on or further back in the same word if there is a pointer with exactly this position,
    and an error otherwise.  Reading and writing through any pointer touch the slot that it points
    to and no other one, and they fail, without any change, unless the slot holds data. -/
theorem pointer_arithmetic :
    (∀ ph m, Reached ph m → ∀ p, m.Occurs (.ptr p) → Addressable p.index) ∧
      (∀ p : Pointer, Addressable p.index → p.Acts) ∧
      (∀ (h : Heap) (p : Pointer), h.Accesses p) ∧
      ∀ (m : Machine) (p : Pointer), m.data.Fits → m.PointerWords p :=
  ⟨fun _ _ hr _ hp => hr.addressable hp, fun _ hp => Pointer.acts hp, Heap.accesses,
    fun _ p hf => pointerWords hf p⟩

/-- A machine with a word of two data slots and a pointer to the first of them. -/
def Machine.slotted : Machine :=
  afterLine "create b 7 , 8 , b" (ofNames {} ["create", ","])

theorem Machine.ofNames_slotted : ofNames {} ["create", ","] = stocked {} (supply
    [⟨",", .memory .comma, false⟩, ⟨"create", .memory .create, false⟩]) :=
  ofNames_eq _ _ (by decide) (by decide)

/-- The second slot is one further on than the first, no slot is the least integer further back, and
    the first can be read and written. -/
theorem pointer_arithmetic_of_slotted :
    ∃ (m : Machine) (p q : Pointer), Reached .rest m ∧ m.data.items = [.ptr p] ∧
      m.heap.applyValues (.ptr p) (.int 1) .add = .ok (.ptr q) ∧ q.index = p.index + 1 ∧
      m.heap.applyValues (.ptr q) (.ptr p) .sub = .ok (.int 1) ∧
      (¬ ∃ v, m.heap.applyValues (.ptr p) (.int Int64.minValue) .sub = .ok v) ∧
      (∃ h, m.heap.store p (.int 9) = .ok h ∧ m.heap.Stored p (.int 9) h) ∧
      MemoryWord.run .load m = m.leaves [] (m.heap.load p) := by
  have hline : (processLine 64 (after (fill "create b 7 , 8 , b"
      (ofNames {} ["create", ","])))).isSome = true := by
    rw [ofNames_slotted]
    decide +kernel
  have hr : Reached .rest slotted := Reached.afterLine (.create _ _) hline
  obtain ⟨hd, hl, hf⟩ : slotted.data.items = [.ptr ⟨⟨18⟩, 1, slotted.heap.pointer ⟨18⟩ 1 |>.type⟩] ∧
      slotted.heap.load ⟨⟨18⟩, 1, slotted.heap.pointer ⟨18⟩ 1 |>.type⟩ = .ok (.int 7) ∧
      slotted.data.items.length ≤ slotted.data.capacity := by
    rw [slotted, ofNames_slotted]
    decide +kernel
  generalize (slotted.heap.pointer ⟨18⟩ 1).type = t at hd hl
  generalize slotted = m at hr hd hl hf
  obtain ⟨hposition, hacts, haccess, hwords⟩ := pointer_arithmetic
  have hp : Addressable (1 : Nat) :=
    hposition _ _ hr ⟨⟨18⟩, 1, t⟩ (.data (hd ▸ List.mem_cons_self))
  have ha := hacts ⟨⟨18⟩, 1, t⟩ hp
  have hnext : Addressable ((1 : Nat) + (1 : Int64).toInt) := by decide
  have hfar : ¬Addressable ((1 : Nat) - Int64.minValue.toInt) := by decide
  obtain ⟨q, hq, -, hi, -⟩ := (ha.add m.heap 1).exists_ok hnext
  refine ⟨m, ⟨⟨18⟩, 1, t⟩, q, hr, hd, hq, Int.ofNat.inj hi, ha.distance hq m.heap, ?_, ?_,
    (hwords m ⟨⟨18⟩, 1, t⟩ hf).load [] hd⟩
  · rw [(ha.sub m.heap Int64.minValue).succeeds_iff]
    exact hfar
  · obtain ⟨h, hs⟩ := ((haccess m.heap ⟨⟨18⟩, 1, t⟩).store_iff (.int 9)).2 ⟨_, hl⟩
    exact ⟨h, hs, (haccess m.heap ⟨⟨18⟩, 1, t⟩).stored _ h hs⟩

end ThreadedForth
