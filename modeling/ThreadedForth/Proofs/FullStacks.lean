/-
  Words that find a stack full.
-/
import ThreadedForth.Proofs.ContextEffects

namespace ThreadedForth

variable {α β : Type} {m m' : Machine} {k : StackKind}

/-! ## What a word has taken -/

/-- The stack without its top item. -/
def Stack.below (s : Stack α) : Stack α :=
  { s with items := s.items.tail }

theorem Stack.pop_cases (s : Stack α) :
    (∃ x, s.pop = .ok (x, s.below) ∧ 0 < s.depth) ∨ s.pop = .error (.stackEmpty s.kind) := by
  unfold pop
  cases hs : s.items with
  | nil => exact .inr rfl
  | cons x rest => exact .inl ⟨x, by simp [below, hs], by simp [depth, hs]⟩

theorem Stack.peek_cases (s : Stack α) (n : Nat) :
    (∃ x, s.peek n = .ok x) ∨ s.peek n = .error (.stackEmpty s.kind) := by
  unfold peek
  cases s.peek? n with
  | some x => exact .inl ⟨x, rfl⟩
  | none => exact .inr rfl

namespace Machine

/-- How deep a stack is. -/
def depthOf (m : Machine) : StackKind → Nat
  | .data => m.data.depth
  | .return => m.return.depth
  | .temp => m.temp.depth
  | .self => m.self.depth

/-- The machine with the top of a stack gone. -/
def withoutTop (m : Machine) : StackKind → Machine
  | .data => { m with data := m.data.below }
  | .return => { m with «return» := m.return.below }
  | .temp => { m with temp := m.temp.below }
  | .self => { m with self := m.self.below }

/-- The second machine is the first one without the top of the given stack, which was there, or
    without any difference if no stack is given. -/
def Costs (m : Machine) (source? : Option StackKind) (m' : Machine) : Prop :=
  m' = source?.elim m m.withoutTop ∧ ∀ s ∈ source?, 0 < m.depthOf s

theorem Costs.nothing (m : Machine) : m.Costs none m :=
  ⟨rfl, by simp⟩

theorem Costs.top {s : StackKind} (h : 0 < m.depthOf s) : m.Costs (some s) (m.withoutTop s) :=
  ⟨rfl, by simpa using h⟩

end Machine

/-- A stack beside the data stack, among all the stacks. -/
def SideStack.kind : SideStack → StackKind
  | temp => .temp
  | self => .self

/-- A part of a word that costs the top of a stack, or nothing, and finds no stack full. -/
def Takes (source? : Option StackKind) (x : M α) : Prop :=
  ∀ m, match x m with
    | .ok _ m' => m.Costs source? m'
    | .error e _ => ∀ k, e ≠ .stackFull k

namespace Takes

variable {source? : Option StackKind} {x : M α} {f : α → M β}

/-- When a word overflows, its parts that find no stack full have succeeded. -/
theorem full_of_bind (hx : Takes source? x) (h : (x >>= f) m = .error (.stackFull k) m') :
    ∃ a m₁, m.Costs source? m₁ ∧ f a m₁ = .error (.stackFull k) m' := by
  have hm := hx m
  rcases M.of_bind_error h with h | ⟨a, m₁, ha, h⟩
  · rw [h] at hm
    exact absurd rfl (hm k)
  · rw [ha] at hm
    exact ⟨a, m₁, hm, h⟩

/-- The same for a part that only reads. -/
theorem full_of_read (hx : Takes none x) (h : (x >>= f) m = .error (.stackFull k) m') :
    ∃ a, f a m = .error (.stackFull k) m' := by
  obtain ⟨a, m₁, ⟨hm, -⟩, h⟩ := hx.full_of_bind h
  rw [show m₁ = m from hm] at h
  exact ⟨a, h⟩

theorem bind_read {source? : Option StackKind} (hx : Takes source? x) (hf : ∀ a, Takes none (f a)) :
    Takes source? (x >>= f) := by
  intro m
  have hm := hx m
  cases ha : x m with
  | error e m₁ => rw [M.bind_error ha]; rw [ha] at hm; exact hm
  | ok a m₁ =>
    rw [M.bind_ok ha]
    rw [ha] at hm
    have hb := hf a m₁
    cases hr : f a m₁ with
    | ok b m₂ => rw [hr] at hb; exact (show m₂ = m₁ from hb.1) ▸ hm
    | error e m₂ => rw [hr] at hb; exact hb

theorem lift {r : Except Error α} (hr : ∀ k, r ≠ .error (.stackFull k)) :
    Takes none (M.lift r) := by
  intro m
  cases r with
  | ok a => exact .nothing m
  | error e => exact fun k he => hr k (he ▸ rfl)

theorem peek (n : Nat) : Takes none (M.peek n) := by
  intro m
  unfold M.peek
  rcases m.data.peek_cases n with ⟨v, hv⟩ | hv <;> rw [hv]
  · exact .nothing m
  · simp

theorem peekReturn (n : Nat) : Takes none (M.peekReturn n) := by
  intro m
  unfold M.peekReturn
  rcases m.return.peek_cases n with ⟨v, hv⟩ | hv <;> rw [hv]
  · exact .nothing m
  · simp

theorem pop : Takes (some .data) M.pop := by
  intro m
  unfold M.pop
  rcases m.data.pop_cases with ⟨v, hv, hd⟩ | hv <;> rw [hv]
  · exact .top hd
  · simp

theorem popInt : Takes (some .data) M.popInt := by
  refine pop.bind_read fun v => lift fun k h => ?_
  cases v <;> cases h

theorem popReturn : Takes (some .return) M.popReturn := by
  intro m
  unfold M.popReturn
  rcases m.return.pop_cases with ⟨v, hv, hd⟩ | hv <;> rw [hv]
  · exact .top hd
  · simp

theorem popSide (side : SideStack) : Takes (some side.kind) (StackWord.popSide side) := by
  intro m
  unfold StackWord.popSide
  rcases (StackWord.side m side).pop_cases with ⟨v, hv, hd⟩ | hv <;> rw [hv]
  · cases side with
    | temp => exact .top (s := .temp) hd
    | self => exact .top (s := .self) hd
  · simp

theorem peekSide (side : SideStack) :
    Takes none (do M.lift ((StackWord.side (← get) side).peek 0) : M Value) := by
  intro m
  refine lift (fun k h => ?_) m
  rcases (StackWord.side m side).peek_cases 0 with ⟨v, hv⟩ | hv <;> simp [hv] at h

end Takes

/-! ## Pushes -/

namespace M

/-- A push that fails changes nothing. -/
theorem eq_of_push_error {v : Value} {e : Error} (h : push v m = .error e m') : m' = m := by
  unfold push at h
  split at h <;> cases h
  rfl

theorem eq_of_pushReturn_error {n : Int64} {e : Error} (h : pushReturn n m = .error e m') :
    m' = m := by
  unfold pushReturn at h
  split at h <;> cases h
  rfl

/-- A push that there is room for succeeds, and uses some of the room. -/
theorem error_of_push_bind {n : Nat} {v : Value} {f : Unit → M α} {e : Error}
    (hroom : m.data.depth + (n + 1) ≤ m.data.capacity) (h : (push v >>= f) m = .error e m') :
    ∃ m₁, m₁.data.depth + n ≤ m₁.data.capacity ∧ f () m₁ = .error e m' := by
  have hp : push v m = .ok () { m with data := { m.data with items := v :: m.data.items } } := by
    unfold push Stack.push
    rw [if_pos (by omega)]
  rw [bind_ok hp] at h
  refine ⟨_, ?_, h⟩
  simp only [Stack.depth, List.length_cons] at hroom ⊢
  omega

theorem push_ne_error {v : Value} {e : Error} (hroom : m.data.depth + 1 ≤ m.data.capacity) :
    push v m ≠ .error e m' := by
  intro h
  unfold push Stack.push at h
  rw [if_pos (by omega)] at h
  cases h

/-- What is taken leaves room. -/
theorem full_of_pop_bind {n : Nat} {f : Value → M α}
    (hroom : m.data.depth + n ≤ m.data.capacity) (h : (pop >>= f) m = .error (.stackFull k) m') :
    ∃ v m₁, m₁.data.depth + (n + 1) ≤ m₁.data.capacity ∧ f v m₁ = .error (.stackFull k) m' := by
  obtain ⟨v, m₁, ⟨rfl, hd⟩, h⟩ := Takes.pop.full_of_bind h
  have hd : 0 < m.data.depth := hd .data rfl
  refine ⟨v, _, ?_, h⟩
  simp only [Option.elim, Machine.withoutTop, Stack.below, Stack.depth, List.length_tail]
    at hd hroom ⊢
  omega

end M

namespace StackWord

theorem eq_of_pushSide_error {side : SideStack} {v : Value} {e : Error}
    (h : pushSide side v m = .error e m') : m' = m := by
  unfold pushSide at h
  split at h <;> cases h
  rfl

/-- Words that look for room do so before they take anything, and go on only if there is some. -/
theorem of_ensureRoom_bind {n : Nat} {f : Unit → M Unit} {e : Error}
    (h : (ensureRoom n >>= f) m = .error e m') :
    m' = m ∨ n ≤ m.data.capacity - m.data.depth ∧ f () m = .error e m' := by
  have hroom : ensureRoom n m = M.lift (m.data.ensureRoom n) m := rfl
  unfold Stack.ensureRoom at hroom
  by_cases hn : m.data.capacity - m.data.depth < n
  · rw [if_pos hn] at hroom
    rw [M.bind_error hroom] at h
    cases h
    exact .inl rfl
  · rw [if_neg hn] at hroom
    rw [M.bind_ok hroom] at h
    exact .inr ⟨Nat.le_of_not_lt hn, h⟩

/-! ## Words that put values on a stack -/

/-- Words that put more on a stack than they have taken off it. -/
def fills : StackWord → Bool
  | .dup | .over | .tuck | .twoDup | .pick | .depth | .toReturn | .fromReturn | .copyReturn
  | .toSide _ | .fromSide _ | .copySide _ => true
  | .drop | .swap | .rot | .nip | .twoDrop | .clear => false

/-- The stack that a word takes a value off before it knows that there is room for what it
    puts on a stack: the index, or the value that is carried. -/
def source? : StackWord → Option StackKind
  | .pick | .toReturn | .toSide _ => some .data
  | .fromReturn => some .return
  | .fromSide side => some side.kind
  | _ => none

theorem tuck_costs (h : tuck.run m = .error (.stackFull k) m') : m' = m := by
  rcases of_ensureRoom_bind h with h | ⟨hroom, h⟩
  · exact h
  -- a room of one item is left twice two places deeper, and three values are pushed
  have hroom : m.data.depth + 1 ≤ m.data.capacity := by omega
  obtain ⟨b, m₁, h₁, h⟩ := M.full_of_pop_bind hroom h
  obtain ⟨a, m₂, h₂, h⟩ := M.full_of_pop_bind h₁ h
  obtain ⟨m₃, h₃, h⟩ := M.error_of_push_bind h₂ h
  obtain ⟨m₄, h₄, h⟩ := M.error_of_push_bind h₃ h
  exact absurd h (M.push_ne_error h₄)

theorem twoDup_costs (h : twoDup.run m = .error (.stackFull k) m') : m' = m := by
  obtain ⟨a, h⟩ := (Takes.peek 1).full_of_read h
  obtain ⟨b, h⟩ := (Takes.peek 0).full_of_read h
  rcases of_ensureRoom_bind h with h | ⟨hroom, h⟩
  · exact h
  have hroom : m.data.depth + 2 ≤ m.data.capacity := by omega
  obtain ⟨m₁, h₁, h⟩ := M.error_of_push_bind hroom h
  exact absurd h (M.push_ne_error h₁)

theorem pick_costs (h : pick.run m = .error (.stackFull k) m') : m.Costs (some .data) m' := by
  obtain ⟨n, m₁, hm, h⟩ := Takes.popInt.full_of_bind h
  have hindex : Takes none (M.lift (checkIndex n m₁.data.depth)) := by
    refine .lift fun k hk => ?_
    unfold checkIndex at hk
    split at hk <;> cases hk
  obtain ⟨i, h⟩ := hindex.full_of_read h
  obtain ⟨v, h⟩ := (Takes.peek i).full_of_read h
  exact M.eq_of_push_error h ▸ hm

/-- What a word has cost when it finds a stack full. -/
theorem run_costs {w : StackWord} (hw : w.fills = true) (h : w.run m = .error (.stackFull k) m') :
    m.Costs w.source? m' := by
  cases w with
  | dup =>
    obtain ⟨v, h⟩ := (Takes.peek 0).full_of_read h
    exact M.eq_of_push_error h ▸ .nothing m
  | «over» =>
    obtain ⟨v, h⟩ := (Takes.peek 1).full_of_read h
    exact M.eq_of_push_error h ▸ .nothing m
  | tuck => exact tuck_costs h ▸ .nothing m
  | twoDup => exact twoDup_costs h ▸ .nothing m
  | pick => exact pick_costs h
  | depth => exact M.eq_of_push_error h ▸ .nothing m
  | toReturn =>
    obtain ⟨n, m₁, hm, h⟩ := Takes.popInt.full_of_bind h
    exact M.eq_of_pushReturn_error h ▸ hm
  | fromReturn =>
    obtain ⟨n, m₁, hm, h⟩ := Takes.popReturn.full_of_bind h
    exact M.eq_of_push_error h ▸ hm
  | copyReturn =>
    obtain ⟨n, h⟩ := (Takes.peekReturn 0).full_of_read h
    exact M.eq_of_push_error h ▸ .nothing m
  | toSide side =>
    obtain ⟨v, m₁, hm, h⟩ := Takes.pop.full_of_bind h
    exact eq_of_pushSide_error h ▸ hm
  | fromSide side =>
    obtain ⟨v, m₁, hm, h⟩ := (Takes.popSide side).full_of_bind h
    exact M.eq_of_push_error h ▸ hm
  | copySide side =>
    obtain ⟨v, h⟩ := (Takes.peekSide side).full_of_read h
    exact M.eq_of_push_error h ▸ .nothing m
  | drop | swap | rot | nip | twoDrop | clear => cases hw

theorem run_blind (w : StackWord) : Blind w.run :=
  w.run_uses.blind

/-- **Full stacks.**  A word that finds a stack full leaves the machine as it was, stacks and all
    the rest, but for the index of `pick` and for a value on its way from one stack to another:
    that one value is gone from the stack that it was taken off.  It is so wherever the primitive
    is run, and when the word is executed from outside. -/
theorem overflow_costs {w : StackWord} (hw : w.fills = true) :
    (∀ (m : Machine) k m', w.run m = .error (.stackFull k) m' → m.Costs w.source? m') ∧
    ∀ (m : Machine) x fuel k m', (m.heap.word x).code = .ok (.native (.stack w)) →
      m.execute fuel x = some (.error (.stackFull k) m') → m.Costs w.source? m' := by
  refine ⟨fun _ _ _ h => run_costs hw h, fun m x fuel k m' hx h => ?_⟩
  have hmore := Machine.steps_mono h (Nat.le_add_right fuel 2)
  have hrun := (Machine.execute_thenNext rfl w.run_blind hx fuel).symm.trans hmore
  split at hrun
  · cases hrun
  · exact run_costs hw (Option.some.inj hrun)

/-- A machine that has no room on its return stack, and one value on its data stack. -/
def unreturning : Machine :=
  let word := Word.ofPrimitive ">r" (.stack .toReturn) false
  { ((Machine.empty { returnStack := 0 }).install word).2 with data := ⟨.data, 4, [.int 7]⟩ }

/-- The value that `>r` has taken is gone, and nothing else. -/
theorem overflow_costs_of_toReturn :
    toReturn.fills = true ∧ ∃ x m', unreturning.find? ">r" = some x ∧
      unreturning.execute 2 x = some (.error (.stackFull .return) m') ∧
      m' = unreturning.withoutTop .data := by
  have hfind : unreturning.find? ">r" = some ⟨0⟩ := by decide +kernel
  have hcode : (unreturning.heap.word ⟨0⟩).code = .ok (.native (.stack .toReturn)) := rfl
  have hrun : unreturning.execute 2 ⟨0⟩ =
      some (.error (.stackFull .return) (unreturning.withoutTop .data)) :=
    Machine.execute_thenNext rfl toReturn.run_blind hcode 0
  exact ⟨rfl, _, _, hfind, hrun, ((overflow_costs rfl).2 _ _ _ _ _ hcode hrun).1⟩

/-- A value that has been taken to be carried is lost if there is no room for it. -/
theorem carried_value_lost :
    ¬ ∀ (w : StackWord) (m m' : Machine) (k : StackKind), w.fills = true →
      w.run m = .error (.stackFull k) m' →
      m'.return = m.return ∧ m'.temp = m.temp ∧ m'.self = m.self ∧
        m'.data = if w = .pick then m.data.below else m.data := by
  intro h
  have hlost := (h .toReturn unreturning (unreturning.withoutTop .data) .return rfl rfl).2.2.2
  simp [unreturning, Machine.withoutTop, Stack.below] at hlost

end StackWord
end ThreadedForth
