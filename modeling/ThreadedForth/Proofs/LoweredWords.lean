/-
  Words on machines in lower case.
-/
import ThreadedForth.Proofs.LoweredMachines
import ThreadedForth.Proofs.StructDefinitions

namespace ThreadedForth

variable {α β : Type}

/-! ## Values that are made strings of -/

namespace Primitive

/-- The operator that a primitive applies. -/
def operator? : Primitive → Option Operator
  | arithmetic (.apply op) | arithmetic (.select op) => some op
  | arithmetic .increment | memory .addStore => some .add
  | arithmetic .decrement => some .sub
  | _ => none

/-- How many values a primitive that applies an operator takes off the data stack. -/
def taken : Primitive → Nat
  | arithmetic .increment | arithmetic .decrement => 1
  | _ => 2

/-- The values that a primitive is about to make a string of: what is appended to a string, and the
    operands of an addition of strings, if there is room for them and the operator. -/
def converted (m : Machine) : Primitive → List Value
  | object (.invoke .append) =>
    if ((m.data.peek? 0).bind m.heap.text?).isSome then (m.data.peek? 1).toList else []
  | p =>
    match p.operator?, p.operands? m with
    | some .add, some (a, b) =>
      if Operator.handler? m a b = some .strings ∧ m.data.depth + 3 ≤ m.data.capacity + p.taken then
        [a, b]
      else []
    | _, _ => []

end Primitive

theorem M.depth_of_pop {v : Value} {m m' : Machine} (h : M.pop m = .ok v m') :
    m'.data.depth + 1 = m.data.depth ∧ m'.data.capacity = m.data.capacity := by
  unfold M.pop at h
  cases hp : m.data.pop with
  | error e => simp [hp] at h
  | ok vs =>
    simp only [hp, EStateM.Result.ok.injEq] at h
    obtain ⟨-, rfl⟩ := h
    obtain ⟨hi, hcap, -⟩ := Stack.pop_eq_ok hp
    exact ⟨by simp [Stack.depth, hi], hcap⟩

/-- None of the fields of a struct that is about to be read is `;struct` in other letters. -/
def Machine.EndsFields (m : Machine) : Prop :=
  ∀ t ∈ (tokensOf m.line.rest).tail.takeWhile (· ≠ fieldsEnd), foldCase t ≠ fieldsEnd

instance (m : Machine) : Decidable m.EndsFields :=
  inferInstanceAs (Decidable (∀ t ∈ _, _))

/-- A value is put on top of the data stack, and the values below it move down. -/
theorem M.peek?_of_push {v : Value} {m m' : Machine} {u : Unit} (h : M.push v m = .ok u m') :
    ∃ s, m' = { m with data := s } ∧ s.peek? 0 = some v ∧
      (∀ n, s.peek? (n + 1) = m.data.peek? n) ∧
      s.depth = m.data.depth + 1 ∧ s.depth ≤ s.capacity ∧ s.capacity = m.data.capacity := by
  unfold M.push at h
  cases hp : m.data.push v with
  | error e => simp [hp] at h
  | ok s =>
    simp only [hp, EStateM.Result.ok.injEq, true_and] at h
    obtain ⟨hroom, rfl⟩ := Stack.push_eq_ok hp
    exact ⟨_, h.symm, rfl, fun _ => rfl, rfl, hroom, rfl⟩

/-- What `struct:` does once it has read a name. -/
def ObjectWord.declareNamed (name : String) : M Unit := do
  match ← nextFields ((← get).line.text.length + 1) with
  | none => throw (.compileState (.structOpen name))
  | some fields =>
    let t ← M.onTypes fun types => types.addUser ⟨name, fields⟩
    let _ ← M.defineConstant name (.type t)
    defineFields name 0 fields

theorem ObjectWord.declare_eq (m : Machine) : declare m =
    match m.line.advance.token? with
    | none => .error (.missingName "struct:") (m.atLine m.line.advance)
    | some name => declareNamed name (m.atLine m.line.advance) := by
  show (M.nextName "struct:" >>= declareNamed) m = _
  unfold M.nextName
  rw [bind_assoc, M.bind_ok (nextToken_eq m)]
  cases m.line.advance.token? <;> rfl

namespace Likeness

variable {address : UInt64} {L : Likeness} {x y : Machine} {φ : α → Prop} {ψ : β → Prop}

namespace IgnoresCase

/-! ## Stacks -/

theorem setSide (h : L.Lowered x y) {s : Stack Value} (hs : ∀ v ∈ s.items, L.Knows v)
    (k : SideStack) : L.Lowered (StackWord.setSide x s k) (StackWord.setSide y s k) := by
  cases k with
  | temp =>
    exact h.change (f := ({ · with temp := s })) (fun _ => rfl) rfl rfl fun hc =>
      { hc with temp := hs }
  | self =>
    exact h.change (f := ({ · with self := s })) (fun _ => rfl) rfl rfl fun hc =>
      { hc with self := hs }

theorem known_side (h : L.Lowered x y) (k : SideStack) :
    StackWord.side y k = StackWord.side x k ∧ ∀ v ∈ (StackWord.side x k).items, L.Knows v := by
  obtain ⟨o, rfl⟩ := id h.eq
  cases k with
  | temp => exact ⟨rfl, h.calls.temp⟩
  | self => exact ⟨rfl, h.calls.self⟩

theorem pushSide (k : SideStack) {v : Value} (hv : L.Knows v) :
    L.IgnoresCase (StackWord.pushSide k v) fun _ => True := by
  intro x y h
  obtain ⟨he, hk⟩ := known_side h k
  unfold StackWord.pushSide
  rw [he]
  cases hp : (StackWord.side x k).push v with
  | error e => exact .error rfl h
  | ok s =>
    obtain ⟨-, rfl⟩ := Stack.push_eq_ok hp
    refine .ok () trivial (setSide h (fun u hu => ?_) k)
    rcases List.mem_cons.1 hu with rfl | hu
    · exact hv
    · exact hk u hu

theorem popSide (k : SideStack) : L.IgnoresCase (StackWord.popSide k) L.Knows := by
  intro x y h
  obtain ⟨he, hk⟩ := known_side h k
  unfold StackWord.popSide
  rw [he]
  cases hp : (StackWord.side x k).pop with
  | error e => exact .error rfl h
  | ok vs =>
    obtain ⟨hi, -⟩ := Stack.pop_eq_ok hp
    exact .ok _ (hk _ (hi ▸ List.mem_cons_self))
      (setSide h (fun v hv => hk v (hi ▸ List.mem_cons_of_mem _ hv)) k)

theorem ensureRoom (n : Nat) : L.IgnoresCase (StackWord.ensureRoom n) fun _ => True :=
  get (fun _ _ => rfl) fun _ _ _ => lift' _

theorem stackWord (w : StackWord) : L.IgnoresCase w.run fun _ => True := by
  cases w with
  | dup => exact (peek 0).bind fun _ hv => push hv
  | drop => exact pop.bind fun _ _ => pure trivial
  | swap => exact pop.bind fun _ ha => pop.bind fun _ hb => (push ha).bind fun _ _ => push hb
  | «over» => exact (peek 1).bind fun _ hv => push hv
  | rot =>
    exact pop.bind fun _ hc => pop.bind fun _ hb => pop.bind fun _ ha =>
      (push hb).bind fun _ _ => (push hc).bind fun _ _ => push ha
  | nip => exact pop.bind fun _ hb => pop.bind fun _ _ => push hb
  | tuck =>
    exact (ensureRoom 1).bind fun _ _ => pop.bind fun _ hb => pop.bind fun _ ha =>
      (push hb).bind fun _ _ => (push ha).bind fun _ _ => push hb
  | twoDup =>
    exact (peek 1).bind fun _ ha => (peek 0).bind fun _ hb => (ensureRoom 2).bind fun _ _ =>
      (push ha).bind fun _ _ => push hb
  | twoDrop => exact pop.bind fun _ _ => pop.bind fun _ _ => pure trivial
  | pick =>
    exact popInt.bind fun _ _ => get (fun _ _ => rfl) fun _ _ _ =>
      (lift' _).bind fun _ _ => (peek _).bind fun _ hv => push hv
  | depth => exact get (fun _ _ => rfl) fun _ _ _ => pushPlain rfl
  | clear =>
    exact changing fun x y h => h.change (f := fun m => { m with data := m.data.clear })
      (fun _ => rfl) rfl rfl fun hc => { hc with data := nofun }
  | toReturn => exact popInt.bind fun _ _ => pushReturn _
  | fromReturn => exact popReturn.bind fun _ _ => pushPlain rfl
  | copyReturn => exact (peekReturn 0).bind fun _ _ => pushPlain rfl
  | toSide k => exact pop.bind fun _ hv => pushSide k hv
  | fromSide k => exact (popSide k).bind fun _ hv => push hv
  | copySide k =>
    refine get (fun m o => by cases k <;> rfl) fun x y h =>
      (lift _ fun v hv => (known_side h k).2 v ?_).bind fun _ hv => push hv
    unfold Stack.peek Stack.peek? at hv
    cases hi : (StackWord.side x k).items[0]? with
    | none =>
      rw [hi] at hv
      cases hv
    | some u =>
      rw [hi] at hv
      cases hv
      exact List.mem_of_getElem? hi

/-! ## Operators -/

theorem handler?_lowered (m : Machine) (o : Output) (a b : Value) :
    Operator.handler? (m.lowered o) a b = Operator.handler? m a b := by
  have ho : ∀ v, Operator.handlerOf? (m.lowered o) v = Operator.handlerOf? m v := by
    intro v
    cases v with
    | obj i => simp [Operator.handlerOf?]
    | _ => rfl
  simp only [Operator.handler?, ho]

theorem takeResult (depth : Nat) : L.IgnoresCase (Operator.takeResult depth) L.Knows :=
  get (fun _ _ => rfl) fun _ _ _ => ite pop (throw _)

/-- Strings are added, if no record is in their texts, and compared. -/
theorem applyStrings (h : L.Lowered x y) {a b : Value} {op : Operator}
    (hconv : op = .add → ¬ x.heap.ShowsRecord a ∧ ¬ x.heap.ShowsRecord b) :
    L.SameFolded (fun _ => True)
      ((do
        let (v, heap) ← M.lift (x.heap.applyStrings a b op)
        modify fun m => { m with heap }
        M.push v : M Unit) x)
      ((do
        let (v, heap) ← M.lift (y.heap.applyStrings a b op)
        modify fun m => { m with heap }
        M.push v : M Unit) y) := by
  obtain ⟨o, rfl⟩ := id h.eq
  by_cases hadd : op = .add
  · obtain ⟨ha, hb⟩ := hconv hadd
    simp only [Heap.applyStrings, hadd, if_true, Machine.heap_lowered, Heap.display_lowered ha,
      Heap.display_lowered hb]
    exact ((newText _).bind fun _ hv => push hv) x _ h
  · by_cases hcmp : op.isComparison = true
    · simp only [Heap.applyStrings, hadd, hcmp, if_true, if_false, Machine.heap_lowered,
        Heap.text?_lowered]
      split
      · exact pushPlain rfl _ _ h
      · split
        · exact pushPlain rfl _ _ h
        · exact pushPlain rfl _ _ h
        · exact .error rfl h
    · simp only [Heap.applyStrings, hadd, hcmp, if_false, Machine.heap_lowered, Bool.false_eq_true]
      exact .error rfl h

theorem handleStrings (h : L.Lowered x y) (hconv : ∀ a b, x.data.peek? 0 = some (.binop .add) →
      x.data.peek? 1 = some b → x.data.peek? 2 = some a →
      ¬ x.heap.ShowsRecord a ∧ ¬ x.heap.ShowsRecord b) :
    L.SameFolded (fun _ => True) (Operator.handleStrings x) (Operator.handleStrings y) := by
  refine (pop x y h).bind fun v x₁ y₁ hx₁ _ _ h₁ => (lift' v.toOperator x₁ y₁ h₁).bind
    fun op x₂ y₂ hx₂ _ _ h₂ => (pop x₂ y₂ h₂).bind fun b x₃ y₃ hx₃ _ _ h₃ => (pop x₃ y₃ h₃).bind
    fun a x₄ y₄ hx₄ _ _ h₄ => applyStrings h₄ fun hop => ?_
  obtain ⟨hv, rfl⟩ := M.lift_eq_ok hx₂
  obtain ⟨h0, s, rfl, hs⟩ := M.peek?_of_pop hx₁
  obtain ⟨h1, t, rfl, ht⟩ := M.peek?_of_pop hx₃
  obtain ⟨h2, u, rfl, -⟩ := M.peek?_of_pop hx₄
  have hbinop : v = .binop op := by
    cases v <;> cases hv
    rfl
  refine hconv a b (by rw [h0, hbinop, hop]) ?_ ?_
  · exact (hs 0).symm.trans h1
  · exact (hs 1).symm.trans ((ht 0).symm.trans h2)

theorem handleHost (k : HostHandler) :
    L.IgnoresCase (Operator.handleHost k) fun w? => ∀ w, w? = some w → L.known w := by
  cases k with
  | const | exit =>
    exact pop.bind fun _ _ => pop.bind fun _ _ => pop.bind fun _ _ =>
      (pushPlain rfl).bind fun _ _ => pure nofun
  | call =>
    refine (builtin (by decide)).bind fun w hw => pure fun u hu => ?_
    cases hu
    exact hw
  | broken => exact pop.bind fun _ _ => pure nofun

theorem dispatch (h : L.Lowered x y) {a b : Value} (ha : L.Knows a) (hb : L.Knows b) (op : Operator)
    (hconv : op = .add → Operator.handler? x a b = some .strings →
      x.data.depth + 3 ≤ x.data.capacity → ¬ x.heap.ShowsRecord a ∧ ¬ x.heap.ShowsRecord b) :
    L.SameFolded L.Gives (Operator.dispatch a b op x) (Operator.dispatch a b op y) := by
  obtain ⟨o, rfl⟩ := id h.eq
  rw [Operator.dispatch, M.bind_ok (x := MonadState.get) rfl, M.bind_ok (x := MonadState.get) rfl,
    handler?_lowered, Machine.heap_lowered, Heap.applyValues_lowered, Machine.data_lowered]
  cases hk : Operator.handler? x a b with
  | none =>
    have hv : L.IgnoresCase (M.lift (x.heap.applyValues a b op)) L.Knows :=
      lift _ fun v hv => .of_applyValues ha hb hv
    exact (hv.bind (ψ := L.Gives) fun v hv => pure (a := Operator.Dispatch.done v) hv) x _ h
  | some k =>
    refine (push ha x _ h).bind fun _ x₁ y₁ hx₁ _ _ h₁ => (push hb x₁ y₁ h₁).bind
      fun _ x₂ y₂ hx₂ _ _ h₂ => (pushPlain rfl x₂ y₂ h₂).bind fun _ x₃ y₃ hx₃ _ _ h₃ => ?_
    obtain ⟨s, rfl, h0, -, hs, -, hcs⟩ := M.peek?_of_push hx₁
    obtain ⟨t, rfl, h1, ht, hdt, -, hct⟩ := M.peek?_of_push hx₂
    obtain ⟨u, rfl, h2, hu, hdu, hroom, hcu⟩ := M.peek?_of_push hx₃
    have hhandle : L.SameFolded (fun w? => ∀ w, w? = some w → L.known w)
        (Operator.handle k { x with data := u }) (Operator.handle k y₃) := by
      cases k with
      | strings =>
        refine (handleStrings h₃ fun c d hop hd hc => ?_).bind fun _ _ _ _ _ _ h₄ =>
          .ok none (by simp) h₄
        have hop : op = .add := by simpa using h2.symm.trans hop
        have hd : b = d := Option.some.inj (h1.symm.trans ((hu 0).symm.trans hd))
        have hc : a = c :=
          Option.some.inj (h0.symm.trans ((ht 0).symm.trans ((hu 1).symm.trans hc)))
        rw [← hc, ← hd]
        refine hconv hop hk ?_
        rw [hcu, hct, hcs, hdu, hdt, hs] at hroom
        exact hroom
      | host k => exact handleHost k _ _ h₃
      | word w =>
        refine .ok (some w) (fun v hv => ?_) h₃
        cases hv
        exact h.calls.types w (Operator.handler?_handles hk)
    refine hhandle.bind fun w? x₄ y₄ _ _ hw h₄ => ?_
    cases w? with
    | none =>
      exact ((takeResult _).bind (ψ := L.Gives) fun v hv => pure (a := Operator.Dispatch.done v) hv)
        x₄ y₄ h₄
    | some w => exact .ok (Operator.Dispatch.run w x.data.depth) (hw w rfl) h₄

theorem useResult {v : Value} (hv : L.Knows v) {after : After} {depth : Nat}
    (ha : ∀ u ∈ (Pending.handler depth after).values, L.Knows u) :
    L.IgnoresCase (Operator.useResult v after) fun _ => True := by
  cases after with
  | push => exact push hv
  | select a b =>
    exact (lift' _).bind fun _ _ =>
      ite (push (ha a (by simp [Pending.values]))) (push (ha b (by simp [Pending.values])))
  | store p => exact store (ha (.ptr p) (by simp [Pending.values])).of_ptr hv

theorem conclude {depth : Nat} {after : After}
    (ha : ∀ u ∈ (Pending.handler depth after).values, L.Knows u) :
    L.IgnoresCase (Operator.conclude depth after) fun _ => True :=
  (takeResult depth).bind fun _ hv => useResult hv ha

theorem applyThen (h : L.Lowered x y) {a b : Value} (ha : L.Knows a) (hb : L.Knows b)
    (op : Operator) {after : After}
    (hafter : ∀ depth, ∀ u ∈ (Pending.handler depth after).values, L.Knows u)
    (hconv : op = .add → Operator.handler? x a b = some .strings →
      x.data.depth + 3 ≤ x.data.capacity → ¬ x.heap.ShowsRecord a ∧ ¬ x.heap.ShowsRecord b) :
    L.SameFolded L.GoesOn (Operator.applyThen a b op after x)
      (Operator.applyThen a b op after y) := by
  refine (dispatch h ha hb op hconv).bind fun d x' y' _ _ hd hxy => ?_
  cases d with
  | done v =>
    exact ((useResult hd (hafter 0)).bind (ψ := L.GoesOn) fun _ _ => pure (a := Flow.next) trivial)
      x' y' hxy
  | run w depth => exact .ok (Flow.nest w (.handler depth after)) ⟨hd, nofun, hafter depth⟩ hxy

/-! ## Numbers -/

/-- Values that are taken off the data stack are those that the primitive is about to make strings
    of. -/
theorem converts {p : Primitive} (hconv : ∀ v ∈ p.converted x, ¬ x.heap.ShowsRecord v)
    (hp : ∀ f, p ≠ .object f) {op : Operator} (hop : p.operator? = some op) {a b : Value}
    (hab : p.operands? x = some (a, b)) {s : Stack Value} (hd : s.depth + p.taken = x.data.depth)
    (hc : s.capacity = x.data.capacity) :
    op = .add → Operator.handler? { x with data := s } a b = some .strings →
      s.depth + 3 ≤ s.capacity → ¬ x.heap.ShowsRecord a ∧ ¬ x.heap.ShowsRecord b := by
  rintro rfl hs hroom
  have hs : Operator.handler? x a b = some .strings := by cases a <;> cases b <;> exact hs
  have hroom : x.data.depth + 3 ≤ x.data.capacity + p.taken := by omega
  have he : p.converted x = [a, b] := by
    cases p with
    | object f => exact absurd rfl (hp f)
    | _ => simp only [Primitive.converted, hop, hab, hs, hroom, and_self, if_true]
  rw [he] at hconv
  exact ⟨hconv a List.mem_cons_self, hconv b (List.mem_cons_of_mem _ List.mem_cons_self)⟩

theorem arithmeticWord (h : L.Lowered x y) (w : ArithmeticWord)
    (hconv : ∀ v ∈ (Primitive.arithmetic w).converted x, ¬ x.heap.ShowsRecord v) :
    L.SameFolded L.GoesOn (w.run x) (w.run y) := by
  have one : L.Knows (.int 1) := .plain rfl
  have hpush : ∀ depth, ∀ u ∈ (Pending.handler depth .push).values, L.Knows u :=
    fun _ _ hu => absurd hu List.not_mem_nil
  have hobj : ∀ f, Primitive.arithmetic w ≠ .object f := by simp
  have two : ∀ {a b x₁ x₂}, M.pop x = .ok b x₁ → M.pop x₁ = .ok a x₂ →
      ((x.data.peek? 1).bind fun a => (x.data.peek? 0).map fun b => (a, b)) = some (a, b) ∧
        ∃ s, x₂ = { x with data := s } ∧ s.depth + 2 = x.data.depth ∧
          s.capacity = x.data.capacity := by
    intro a b x₁ x₂ h₁ h₂
    obtain ⟨hd₁, hc₁⟩ := M.depth_of_pop h₁
    obtain ⟨hd₂, hc₂⟩ := M.depth_of_pop h₂
    obtain ⟨hb, s, rfl, hs⟩ := M.peek?_of_pop h₁
    obtain ⟨ha, t, rfl, -⟩ := M.peek?_of_pop h₂
    have ha : x.data.peek? 1 = some a := (hs 0).symm.trans ha
    exact ⟨by simp [ha, hb], t, rfl, by rw [← hd₁, ← hd₂], hc₂.trans hc₁⟩
  cases w with
  | apply op =>
    refine (pop x y h).bind fun b x₁ y₁ hx₁ _ hb h₁ => (pop x₁ y₁ h₁).bind
      fun a x₂ y₂ hx₂ _ ha h₂ => ?_
    obtain ⟨hab, s, rfl, hd, hc⟩ := two hx₁ hx₂
    exact applyThen h₂ ha hb op hpush (converts hconv hobj rfl hab hd hc)
  | select op =>
    refine (pop x y h).bind fun b x₁ y₁ hx₁ _ hb h₁ => (pop x₁ y₁ h₁).bind
      fun a x₂ y₂ hx₂ _ ha h₂ => ?_
    obtain ⟨hab, s, rfl, hd, hc⟩ := two hx₁ hx₂
    refine applyThen h₂ ha hb op ?_ (converts hconv hobj rfl hab hd hc)
    intro _ u hu
    rcases List.mem_cons.1 hu with rfl | hu
    · exact ha
    · cases List.mem_singleton.1 hu
      exact hb
  | increment =>
    refine (pop x y h).bind fun a x₁ y₁ hx₁ _ ha h₁ => ?_
    obtain ⟨hd, hc⟩ := M.depth_of_pop hx₁
    obtain ⟨h0, s, rfl, -⟩ := M.peek?_of_pop hx₁
    exact applyThen h₁ ha one .add hpush
      (converts hconv hobj rfl (by simp [Primitive.operands?, h0]) hd hc)
  | decrement =>
    refine (pop x y h).bind fun a x₁ y₁ hx₁ _ ha h₁ => ?_
    obtain ⟨hd, hc⟩ := M.depth_of_pop hx₁
    obtain ⟨h0, s, rfl, -⟩ := M.peek?_of_pop hx₁
    exact applyThen h₁ ha one .sub hpush
      (converts hconv hobj rfl (by simp [Primitive.operands?, h0]) hd hc)
  | negate =>
    refine (pop.bind fun v _ => ?_) x y h
    cases v with
    | float z => exact (pushPlain rfl).bind fun _ _ => pure trivial
    | _ => exact (lift' _).bind fun _ _ => (pushPlain rfl).bind fun _ _ => pure trivial
  | abs =>
    refine (pop.bind fun v _ => ?_) x y h
    cases v with
    | float z => exact (pushPlain rfl).bind fun _ _ => pure trivial
    | _ => exact (lift' _).bind fun _ _ => (pushPlain rfl).bind fun _ _ => pure trivial
  | not => exact (popFlag.bind fun _ _ => (pushPlain rfl).bind fun _ _ => pure trivial) x y h
  | invert => exact (popInt.bind fun _ _ => (pushPlain rfl).bind fun _ _ => pure trivial) x y h
  | flag b => exact ((pushPlain rfl).bind fun _ _ => pure trivial) x y h

theorem floatWord (w : FloatWord) : L.IgnoresCase w.run fun _ => True := by
  cases w with
  | toInt =>
    refine pop.bind fun v _ => ?_
    cases v with
    | float x => exact pushPlain rfl
    | _ => exact (lift' _).bind fun _ _ => pushPlain rfl
  | _ => exact pop.bind fun _ _ => (lift' _).bind fun _ _ => pushPlain rfl

/-! ## Output -/

theorem putSpaces : ∀ n, L.IgnoresCase (ThreadedForth.putSpaces n) fun _ => True
  | 0 => pure trivial
  | n + 1 => (put _).bind fun _ _ => putSpaces n

theorem outputWord (w : OutputWord) : L.IgnoresCase w.run fun _ => True := by
  cases w with
  | print =>
    refine pop.bind fun v _ x y h => ?_
    obtain ⟨o, rfl⟩ := id h.eq
    exact writePieces h (.cons (x.size_format_lowered o v) (.cons rfl .nil))
  | printFloat => exact pop.bind fun _ _ => (lift' _).bind fun _ _ => write _
  | printStack =>
    intro x y h
    obtain ⟨o, rfl⟩ := id h.eq
    exact writePieces h (.cons (x.size_stackLine_lowered o) (.cons rfl .nil))
  | emit => exact pop.bind fun _ _ => (lift' _).bind fun _ _ => putByte _
  | newline => exact put _
  | space => exact put _
  | spaces => exact popInt.bind fun _ _ => putSpaces _
  | type =>
    refine pop.bind fun v _ x y h => ?_
    obtain ⟨o, rfl⟩ := id h.eq
    exact putPiece h (x.size_format_lowered o v)
  | words => exact get (fun _ _ => rfl) fun _ _ _ => write _
  | see =>
    refine (nextWord _).bind fun w _ x y h => ?_
    obtain ⟨o, rfl⟩ := id h.eq
    exact putPiece h (x.heap.size_listing_lowered w)

/-! ## Data slots -/

theorem knows_load (h : L.Lowered x y) {w : WordId} (hw : L.known w) {i : Nat} {v : Value}
    (hv : (x.heap.word w).load i = .ok v) : L.Knows v :=
  (h.calls.words w hw _ (Array.mem_of_getElem? (Word.load_eq_ok hv).1)).1

theorem loadWord : L.IgnoresCase (MemoryWord.run .load) L.GoesOn := by
  refine pop.bind fun v hv => get (fun _ _ => rfl) fun x y h => (lift _ fun u hu => ?_).bind
    fun _ hu => (push hu).bind fun _ _ => pure (a := Flow.next) trivial
  cases v with
  | ptr p => exact knows_load h hv.of_ptr hu
  | _ => cases hu

theorem storeWord : L.IgnoresCase (MemoryWord.run .store) L.GoesOn :=
  pop.bind fun target ht => pop.bind fun _ hv =>
    (lift target.toPointer fun _ => ht.of_toPointer).bind fun _ hp =>
      (store hp hv).bind fun _ _ => pure (a := Flow.next) trivial

theorem addStoreWord (h : L.Lowered x y)
    (hconv : ∀ v ∈ (Primitive.memory .addStore).converted x, ¬ x.heap.ShowsRecord v) :
    L.SameFolded L.GoesOn (MemoryWord.run .addStore x) (MemoryWord.run .addStore y) := by
  refine (pop x y h).bind fun target x₁ y₁ hx₁ _ ht h₁ => (pop x₁ y₁ h₁).bind
    fun n x₂ y₂ hx₂ _ hn h₂ => ?_
  obtain ⟨hd₁, hc₁⟩ := M.depth_of_pop hx₁
  obtain ⟨hd₂, hc₂⟩ := M.depth_of_pop hx₂
  obtain ⟨h0, s, rfl, hs⟩ := M.peek?_of_pop hx₁
  obtain ⟨h1, t, rfl, -⟩ := M.peek?_of_pop hx₂
  have hp : L.IgnoresCase (M.lift target.toPointer) fun p =>
      L.known p.target ∧ target = .ptr p := by
    refine lift _ fun p hp => ⟨ht.of_toPointer hp, ?_⟩
    cases target <;> cases hp
    rfl
  refine (hp _ y₂ h₂).bind fun p x₃ y₃ hx₃ _ ⟨hkp, hp⟩ h₃ => ?_
  obtain ⟨-, rfl⟩ := M.lift_eq_ok hx₃
  obtain ⟨o, rfl⟩ := id h₃.eq
  refine (lift (φ := fun v => L.Knows v ∧ x.heap.load p = .ok v) (x.heap.load p)
    (fun v hv => ⟨knows_load h hkp hv, hv⟩) _ _ h₃).bind fun v x₄ y₄ hx₄ _ ⟨hv, hload⟩ h₄ => ?_
  obtain ⟨-, rfl⟩ := M.lift_eq_ok hx₄
  refine applyThen h₄ hv hn .add ?_
    (converts hconv nofun rfl ?_ (by rw [← hd₁, ← hd₂]; rfl) (hc₂.trans hc₁))
  · intro _ u hu
    cases List.mem_singleton.1 hu
    exact .ptr hkp
  · have hderef : x.heap.deref target = .ok v := by rw [hp]; exact hload
    have h1 : x.data.peek? 1 = some n := (hs 0).symm.trans h1
    simp [Primitive.operands?, h0, h1, hderef]

theorem createWord_foldCase (name : String) :
    ThreadedForth.createWord (foldCase name) = ThreadedForth.createWord name := by
  simp only [ThreadedForth.createWord, Word.created, Name.ofString_foldCase]

theorem defineConstant_foldCase (name : String) (v : Value) :
    M.defineConstant (foldCase name) v = M.defineConstant name v := by
  simp only [M.defineConstant, Word.constant, Name.ofString_foldCase]

theorem memoryWord (h : L.Lowered x y) {w : MemoryWord}
    (hconv : ∀ v ∈ (Primitive.memory w).converted x, ¬ x.heap.ShowsRecord v) :
    L.SameFolded L.GoesOn (w.run x) (w.run y) := by
  have next : L.IgnoresCase (Pure.pure Flow.next : M Flow) L.GoesOn := pure trivial
  cases w with
  | load => exact loadWord x y h
  | store => exact storeWord x y h
  | addStore => exact addStoreWord h hconv
  | here => exact (here.bind fun _ _ => (pushPlain rfl).bind fun _ _ => next) x y h
  | comma =>
    exact (pop.bind fun _ hv => (lastWith _).bind fun _ hw => (addSlot hw hv).bind fun _ _ => next)
      x y h
  | allot =>
    refine (popInt.bind fun n _ => orThrow fun x y h => ?_) x y h
    have hm : (do
        let m ← MonadState.get
        M.setHeap (m.compiler.expand m.heap m.roots n.toInt.toNat)
        Pure.pure Flow.next : M Flow) = (do
        let w ← M.last
        M.setHeap ((← MonadState.get).heap.changeWord w fun u => u.expand n.toInt.toNat)
        Pure.pure Flow.next : M Flow) := by
      funext m
      show (M.setHeap (m.compiler.last m.heap m.roots >>= _) >>= _) m =
        (M.lift (m.compiler.last m.heap m.roots) >>= _) m
      cases m.compiler.last m.heap m.roots <;> rfl
    rw [hm]
    exact ((lastWith []).bind fun _ hw => (changeWord hw (admitting_expand _)).bind fun _ _ => next)
      x y h
  | create =>
    exact (nextName' (fun t => by rw [createWord_foldCase]) fun _ => (createWord _).bind fun _ _ => next) x y h
  | «variable» =>
    exact (nextName' (fun t => by rw [createWord_foldCase]) fun _ => (createWord _).bind fun _ hw =>
      (addSlot hw (.plain rfl)).bind fun _ _ => next) x y h
  | constant =>
    exact (nextName' (fun t => by simp only [defineConstant_foldCase]) fun _ => pop.bind fun _ hv =>
      (defineConstant _ hv).bind fun _ _ => next) x y h
  | does =>
    refine (getMode.bind fun mode _ => ?_) x y h
    cases mode with
    | compiling => exact (compileBuiltin (by decide)).bind fun _ _ => next
    | interpreting => exact (lastWith []).bind fun _ _ => (setMode _).bind fun _ _ => next
    | compilingPostponed => exact (throw (φ := fun _ => True) _).bind fun _ _ => next
    | runtimeCompiling => exact (throw (φ := fun _ => True) _).bind fun _ _ => next
  | doesRuntime =>
    exact (parent.bind fun f hf => (setLastCode (.indirect hf _)).bind fun _ _ =>
      pure (a := Flow.leave) trivial) x y h

/-! ## Control structures -/

theorem openAt (address : Nat) (tag : ControlTag) :
    L.IgnoresCase (ControlWord.openAt address tag) fun _ => True :=
  (pushPlain rfl).bind fun _ _ => pushPlain rfl

theorem popAddress (fault : ControlFault) :
    L.IgnoresCase (ControlWord.popAddress fault) fun _ => True :=
  popInt.bind fun _ _ => orThrow (pure trivial)

theorem closeTag (tags : List ControlTag) (fault : ControlFault) :
    L.IgnoresCase (ControlWord.closeTag tags fault) fun _ => True :=
  pop.bind fun _ _ => ite (popAddress fault) (throw _)

theorem fillHole (hole target : Nat) :
    L.IgnoresCase (ControlWord.fillHole hole target) fun _ => True :=
  onBuilding (admitting_poke (.lit (.plain rfl)))

theorem compileHole : L.IgnoresCase ControlWord.compileHole fun _ => True :=
  (compileBuiltin (by decide)).bind fun _ _ => here.bind fun _ _ =>
    (compile (.lit (.plain rfl))).bind fun _ _ => pure trivial

theorem compileJump (target : Nat) {word : String} (hw : foldCase word ∉ quotingNames) :
    L.IgnoresCase (ControlWord.compileJump target word) fun _ => True :=
  (compileLiteral (.plain rfl)).bind fun _ _ => compileBuiltin hw

theorem controlBuild (w : ControlWord) : L.IgnoresCase w.build fun _ => True := by
  cases w with
  | openIf =>
    exact compileHole.bind fun _ _ => (compileBuiltin (by decide)).bind fun _ _ => openAt _ _
  | elseBranch =>
    exact (closeTag _ _).bind fun _ _ => compileHole.bind fun _ _ =>
      (compileBuiltin (by decide)).bind fun _ _ => here.bind fun _ _ =>
        (fillHole _ _).bind fun _ _ => openAt _ _
  | closeIf => exact (closeTag _ _).bind fun _ _ => here.bind fun _ _ => fillHole _ _
  | beginLoop => exact here.bind fun _ _ => openAt _ _
  | untilFlag => exact (closeTag _ _).bind fun _ _ => compileJump _ (by decide)
  | again => exact (closeTag _ _).bind fun _ _ => compileJump _ (by decide)
  | whileFlag =>
    exact (peek 0).bind fun _ _ => orThrow <| compileHole.bind fun _ _ =>
      (compileBuiltin (by decide)).bind fun _ _ => openAt _ _
  | repeatLoop =>
    exact (closeTag _ _).bind fun _ _ => (closeTag _ _).bind fun _ _ =>
      (compileJump _ (by decide)).bind fun _ _ => here.bind fun _ _ => fillHole _ _
  | openCount maySkip =>
    exact compileHole.bind fun _ _ => (compileBuiltin (by cases maySkip <;> decide)).bind fun _ _ =>
      here.bind fun _ _ => (pushPlain rfl).bind fun _ _ => openAt _ _
  | closeCount stepped =>
    exact (closeTag _ _).bind fun _ _ => (popAddress _).bind fun _ _ =>
      (compileJump _ (by cases stepped <;> decide)).bind fun _ _ => here.bind fun _ _ =>
        fillHole _ _
  | leave => exact compileBuiltin (by decide)
  | unloop => exact compileBuiltin (by decide)
  | recurse => exact compile .recurse

theorem jumpTo (address : Int64) : L.IgnoresCase (BranchWord.jumpTo address) fun _ => True :=
  parent.bind fun _ _ => get (fun _ _ => rfl) fun _ _ _ => ite (setParentIp _) (throw _)

theorem dropLoop : L.IgnoresCase BranchWord.dropLoop fun _ => True :=
  popReturn.bind fun _ _ => popReturn.bind fun _ _ => popReturn.bind fun _ _ => pure trivial

theorem setIndex (n : Int64) : L.IgnoresCase (BranchWord.setIndex n) fun _ => True := by
  intro x y h
  obtain ⟨o, rfl⟩ := h.eq
  unfold BranchWord.setIndex
  rw [Machine.return_lowered]
  cases x.return.overwrite 0 n with
  | error e => exact .error rfl h
  | ok s => exact .ok () trivial (setReturn h s)

theorem advance (entry step : Int64) (stepped : Bool) :
    L.IgnoresCase (BranchWord.advance entry step stepped) fun _ => True :=
  (peekReturn 0).bind fun _ _ => (peekReturn 1).bind fun _ _ =>
    ite dropLoop ((setIndex _).bind fun _ _ => jumpTo entry)

theorem branchAct (w : BranchWord) : L.IgnoresCase w.act fun _ => True := by
  cases w with
  | inlineLiteral =>
    exact parent.bind fun f hf => get (fun _ _ => rfl) fun x y h =>
      (lift _ fun v hv => knows_load h hf hv).bind fun _ hv =>
        (setParentIp _).bind fun _ _ => push hv
  | jump => exact popInt.bind fun _ _ => jumpTo _
  | jumpIfFalse =>
    exact popInt.bind fun _ _ => popFlag.bind fun _ _ => ite (jumpTo _) (pure trivial)
  | jumpIfTrue =>
    exact popInt.bind fun _ _ => popFlag.bind fun _ _ => ite (jumpTo _) (pure trivial)
  | enterCount maySkip =>
    exact popInt.bind fun _ _ => popInt.bind fun _ _ => popInt.bind fun _ _ =>
      ite (jumpTo _) ((pushReturn _).bind fun _ _ => (pushReturn _).bind fun _ _ => pushReturn _)
  | advanceCount stepped =>
    cases stepped with
    | false => exact popInt.bind fun _ _ => advance _ _ _
    | true => exact popInt.bind fun _ _ => popInt.bind fun _ _ => advance _ _ _
  | leave => exact (peekReturn 2).bind fun _ _ => dropLoop.bind fun _ _ => jumpTo _
  | unloop => exact dropLoop
  | index => exact (peekReturn 0).bind fun _ _ => pushPlain rfl
  | outerIndex => exact (peekReturn 3).bind fun _ _ => pushPlain rfl
  | exit => exact pure trivial

theorem branchWord (w : BranchWord) : L.IgnoresCase w.run L.GoesOn := by
  cases w with
  | exit => exact pure (a := Flow.leave) trivial
  | _ => exact (branchAct _).bind fun _ _ => pure (a := Flow.next) trivial

/-! ## Cells -/

theorem popCell : L.IgnoresCase StateWord.popCell fun _ => True :=
  popInt.bind fun _ _ => lift' _

theorem stateWord (w : StateWord) : L.IgnoresCase w.run fun _ => True := by
  cases w with
  | loadCell => exact popCell.bind fun _ _ => get (fun _ _ => rfl) fun _ _ _ => pushPlain rfl
  | storeCell =>
    exact popCell.bind fun i _ => popInt.bind fun n _ => changing fun x y h =>
      h.change (f := fun m => { m with cells := m.cells.setIfInBounds i n }) (fun _ => rfl) rfl rfl
        fun hc => { hc with }
  | loadFlag => exact popCell.bind fun _ _ => get (fun _ _ => rfl) fun _ _ _ => pushPlain rfl
  | storeFlag =>
    exact popCell.bind fun i _ => popFlag.bind fun b _ => changing fun x y h =>
      h.change (f := fun m => { m with flags := m.flags.setIfInBounds i b }) (fun _ => rfl) rfl rfl
        fun hc => { hc with }
  | debugLevel =>
    refine popInt.bind fun n _ => ?_
    cases DebugLevel.ofInt? n.toInt with
    | none => exact throw _
    | some l =>
      exact changing fun x y h =>
        h.change (f := fun m => { m with debugger := m.debugger.setLevel l m.frames.length })
          (fun _ => rfl) rfl rfl fun hc => { hc with }

/-! ## Functions of objects -/

/-- A computation on the objects and the data stack that ignores case. -/
abbrev Store (L : Likeness) (act : StoreM α) (φ : α → Prop) : Prop :=
  L.IgnoresCase (M.onStore act) φ

namespace Store

theorem bind {act : StoreM α} {f : α → StoreM β} (h : Store L act φ)
    (hf : ∀ a, φ a → Store L (f a) ψ) : Store L (act >>= f) ψ := by
  unfold Store
  rw [M.onStore_bind]
  exact IgnoresCase.bind h hf

theorem throw (e : Error) : Store L (MonadExcept.throw e : StoreM α) φ :=
  IgnoresCase.throw e

theorem lift' (r : Except Error α) : Store L (ThreadedForth.Store.lift r) fun _ => True := by
  unfold Store
  rw [M.onStore_lift]
  exact IgnoresCase.lift' r

theorem get {f : ThreadedForth.Store → StoreM α}
    (h : ∀ (m : Machine) o, f ⟨(m.lowered o).heap, m.data⟩ = f ⟨m.heap, m.data⟩)
    (hf : ∀ x y, L.Lowered x y → Store L (f ⟨x.heap, x.data⟩) φ) :
    Store L (MonadState.get >>= f) φ := by
  intro x y hxy
  obtain ⟨o, rfl⟩ := id hxy.eq
  show L.SameFolded φ (M.onStore (f ⟨x.heap, x.data⟩) x)
    (M.onStore (f ⟨(x.lowered o).heap, x.data⟩) (x.lowered o))
  rw [h]
  exact hf x _ hxy x _ hxy

theorem pop : Store L ThreadedForth.Store.pop L.Knows := by
  unfold Store
  rw [M.onStore_pop]
  exact IgnoresCase.pop

theorem push {v : Value} (hv : L.Knows v) :
    Store L (ThreadedForth.Store.push v) fun _ => True := by
  unfold Store
  rw [M.onStore_push]
  exact IgnoresCase.push hv

theorem pushPlain {v : Value} (hv : v.refs = []) :
    Store L (ThreadedForth.Store.push v) fun _ => True :=
  push (.plain hv)

theorem popInt : Store L ThreadedForth.Store.popInt fun _ => True :=
  pop.bind fun _ _ => lift' _

/-- An object that is no record is pushed. -/
theorem pushNew {o : Obj} (hr : o.isRecord = false) (ho : ∀ v ∈ o.items, L.Knows v) :
    Store L (ThreadedForth.Store.pushNew o) fun _ => True := by
  unfold Store
  rw [ThreadedForth.Store.onStore_pushNew]
  intro x y h
  have hp := pushObject h ho
  rwa [Obj.lowered_eq_self hr] at hp

theorem pushAll : ∀ {vs : List Value}, (∀ v ∈ vs, L.Knows v) →
    Store L (ThreadedForth.Store.pushAll vs) fun _ => True
  | [], _ => IgnoresCase.pure trivial
  | _ :: _, h =>
    (push (h _ List.mem_cons_self)).bind fun _ _ =>
      pushAll fun v hv => h v (List.mem_cons_of_mem _ hv)

theorem replace (h : L.Lowered x y) (i : ObjId) {o : Obj} (ho : ∀ v ∈ o.items, L.Knows v) :
    L.SameFolded (fun _ => True) (M.onStore (ThreadedForth.Store.replace i o) x)
      (M.onStore (ThreadedForth.Store.replace i o.lowered) y) :=
  .ok () trivial (setObject h i ho)

theorem replaceText (i : ObjId) (s : String) :
    Store L (ThreadedForth.Store.replace i (.text s)) fun _ => True :=
  fun _ _ h => replace h i (o := .text s) (knows_text s)

theorem invokeText (o : ObjId) (text : String) {f : Function} (hf : f ≠ .append) :
    Store L (ThreadedForth.Store.invokeText o text f) fun _ => True := by
  cases f with
  | size => exact pushPlain rfl
  | hash => exact pushPlain rfl
  | get => exact popInt.bind fun _ _ => (lift' _).bind fun _ _ => pushPlain rfl
  | set =>
    refine popInt.bind fun _ _ => pop.bind fun _ _ => (lift' _).bind fun c _ => (lift' _).bind
      fun i _ => ?_
    cases Utf8.splice? i (i + 1) [c] text.toList with
    | none => exact throw _
    | some cs => exact replaceText o _
  | contains =>
    exact pop.bind fun v _ => get
      (fun m o => by simp only [Machine.heap_lowered, Heap.needle_lowered]) fun _ _ _ =>
        (lift' _).bind fun _ _ => pushPlain rfl
  | indexOf =>
    refine pop.bind fun v _ => get
      (fun m o => by simp only [Machine.heap_lowered, Heap.needle_lowered]) fun _ _ _ =>
        (lift' _).bind fun needle _ => ?_
    cases Utf8.offsetOf? needle.toList text.toList with
    | none => exact pushPlain rfl
    | some i => exact pushPlain rfl
  | subRange =>
    refine popInt.bind fun _ _ => popInt.bind fun _ _ => (lift' _).bind fun ij _ => ?_
    dsimp only
    cases Utf8.slice? ij.1 ij.2 text.toList with
    | none => exact throw _
    | some cs => exact pushNew rfl (knows_text _)
  | deconstruct =>
    refine (pushAll fun v hv => ?_).bind fun _ _ => pushPlain rfl
    obtain ⟨c, -, rfl⟩ := List.mem_map.1 hv
    exact .plain rfl
  | append => exact absurd rfl hf
  | implements => exact popInt.bind fun _ _ => pushPlain rfl
  | close | read | readLine | readChar | eof => exact throw _

/-- A value that has no record in its text is appended to a string. -/
theorem appendText (h : L.Lowered x y) (o : ObjId) (text : String)
    (hconv : ∀ v, x.data.peek? 0 = some v → ¬ x.heap.ShowsRecord v) :
    L.SameFolded (fun _ => True) (M.onStore (ThreadedForth.Store.invokeText o text .append) x)
      (M.onStore (ThreadedForth.Store.invokeText o text .append) y) := by
  simp only [ThreadedForth.Store.invokeText, M.onStore_bind]
  refine (pop x y h).bind fun v x' y' hx _ _ h' => ?_
  rw [M.onStore_pop] at hx
  obtain ⟨hv, s, rfl, -⟩ := M.peek?_of_pop hx
  obtain ⟨out, rfl⟩ := id h'.eq
  have hd : x.heap.lowered.display v = x.heap.display v := Heap.display_lowered (hconv v hv)
  show L.SameFolded _
    (M.onStore (ThreadedForth.Store.replace o (.text (text ++ x.heap.display v))) _)
    (M.onStore (ThreadedForth.Store.replace o (.text (text ++ x.heap.lowered.display v))) _)
  rw [hd]
  exact replaceText o _ _ _ h'

theorem knows_set {o : Obj} (ho : ∀ v ∈ o.items, L.Knows v) {v : Value} (hv : L.Knows v) (i : Nat) :
    ∀ u ∈ (o.setItems (o.items.setIfInBounds i v)).items, L.Knows u :=
  knows_setItems fun u hu => by
    rcases Array.mem_or_eq_of_mem_setIfInBounds hu with hu | rfl
    · exact ho u hu
    · exact hv

/-- The functions that arrays and records share. -/
theorem invokeItems (h : L.Lowered x y) (i : ObjId) {o : Obj} (ho : ∀ v ∈ o.items, L.Knows v)
    (f : Function) :
    L.SameFolded (fun _ => True) (M.onStore (ThreadedForth.Store.invokeItems address i o o.items f) x)
      (M.onStore (ThreadedForth.Store.invokeItems address i o.lowered o.items f) y) := by
  cases f with
  | size => exact pushPlain rfl x y h
  | hash => exact pushPlain rfl x y h
  | get =>
    refine (popInt.bind fun _ _ => (lift' _).bind fun i _ => push ?_) x y h
    cases hv : o.items[i]? with
    | none => exact .plain rfl
    | some v => exact ho v (Array.mem_of_getElem? hv)
  | set =>
    simp only [ThreadedForth.Store.invokeItems, M.onStore_bind, Obj.setItems_lowered]
    exact (popInt x y h).bind fun _ x₁ y₁ _ _ _ h₁ => (pop x₁ y₁ h₁).bind fun v x₂ y₂ _ _ hv h₂ =>
      (lift' _ x₂ y₂ h₂).bind fun i _ _ _ _ _ h₃ => replace h₃ _ (knows_set ho hv i)
  | contains =>
    exact (pop.bind fun v _ => get
      (fun m o => by simp only [Machine.heap_lowered, Heap.sameContent_lowered])
      fun _ _ _ => pushPlain rfl) x y h
  | indexOf =>
    refine (pop.bind fun v _ => get
      (fun m o => by simp only [Machine.heap_lowered, Heap.sameContent_lowered])
      fun x _ _ => ?_) x y h
    dsimp only
    split
    · exact pushPlain rfl
    · exact pushPlain rfl
  | deconstruct =>
    exact ((pushAll fun v hv => ho v (Array.mem_toList_iff.1 hv)).bind fun _ _ =>
      pushPlain rfl) x y h
  | implements =>
    simp only [ThreadedForth.Store.invokeItems, Obj.implements_lowered]
    exact (popInt.bind fun _ _ => pushPlain rfl) x y h
  | subRange | append | close | read | readLine | readChar | eof =>
    refine .error ?_ h
    cases o <;> simp [Error.folded, Obj.typeLabel, Obj.lowered, Declaration.lowered]

theorem invokeArray (h : L.Lowered x y) (i : ObjId) {items : Array Value} {b : Bool}
    (hi : ∀ v ∈ items, L.Knows v) (f : Function) :
    L.SameFolded (fun _ => True)
      (M.onStore (ThreadedForth.Store.invokeArray address i (.array items b) items f) x)
      (M.onStore (ThreadedForth.Store.invokeArray address i (.array items b) items f) y) := by
  have hitems : L.SameFolded (fun _ => True)
      (M.onStore (ThreadedForth.Store.invokeItems address i (.array items b) items f) x)
      (M.onStore (ThreadedForth.Store.invokeItems address i (.array items b) items f) y) :=
    invokeItems h i (o := .array items b) hi f
  cases f with
  | subRange =>
    refine (popInt.bind fun _ _ => popInt.bind fun _ _ => (lift' _).bind fun ij _ =>
      pushNew rfl fun v hv => ?_) x y h
    have hv : v ∈ items.toList.extract ij.1 ij.2 := by
      rw [← Array.toList_extract]
      exact Array.mem_toList_iff.2 hv
    exact hi v (Array.mem_toList_iff.1 (List.mem_of_mem_drop (List.mem_of_mem_take hv)))
  | append =>
    refine (pop.bind fun v hv x y h =>
      replace h i (o := .array (items.push v) b) fun u hu => ?_) x y h
    rcases Array.mem_push.1 hu with hu | rfl
    · exact hi u hu
    · exact hv
  | _ => exact hitems

theorem invoke (h : L.Lowered x y) (o : ObjId) {f : Function}
    (hconv : f = .append → (x.heap.text? (.obj o)).isSome = true →
      ∀ v, x.data.peek? 0 = some v → ¬ x.heap.ShowsRecord v) :
    L.SameFolded (fun _ => True) (M.onStore (ThreadedForth.Store.invoke address o f) x)
      (M.onStore (ThreadedForth.Store.invoke address o f) y) := by
  obtain ⟨out, rfl⟩ := id h.eq
  have hi := h.calls.items o
  rw [ThreadedForth.Store.invoke, M.onStore_bind, M.bind_ok (x := M.onStore MonadState.get) rfl,
    M.bind_ok (x := M.onStore MonadState.get) rfl, Machine.heap_lowered, Heap.object_lowered]
  dsimp only
  cases ho : x.heap.object o with
  | text s =>
    by_cases hf : f = .append
    · subst hf
      exact appendText h o s (hconv rfl (by simp [Heap.text?, ho]))
    · exact invokeText o s hf x _ h
  | array items v =>
    rw [ho] at hi
    exact invokeArray h o hi f
  | record t d items v =>
    rw [ho] at hi
    exact invokeItems h o (o := .record t d items v) hi f

end Store

/-! ## Objects and types -/

theorem pushNew {o : Obj} (hr : o.isRecord = false) (ho : ∀ v ∈ o.items, L.Knows v) :
    L.IgnoresCase (M.pushNew o) fun _ => True := by
  intro x y h
  have hp := pushObject h ho
  rwa [Obj.lowered_eq_self hr] at hp

theorem make (t : TypeId) (maker : Maker) :
    L.IgnoresCase (ObjectWord.make t maker) fun _ => True := by
  cases maker with
  | string => exact pushNew rfl (knows_text _)
  | array => exact popInt.bind fun _ _ => orThrow (orThrow (pushNew rfl (knows_replicate _)))
  | host refuses =>
    cases refuses with
    | false =>
      exact get (fun m o => by simp only [Machine.types_lowered, Types.nameOf_lowered])
        fun _ _ _ => pushNew rfl (knows_text _)
    | true => exact throw _

theorem makeObject : L.IgnoresCase ObjectWord.makeObject fun _ => True := by
  refine pop.bind fun _ _ => (lift' _).bind fun t _ x y h => ?_
  obtain ⟨o, rfl⟩ := id h.eq
  rw [M.bind_ok (x := MonadState.get) rfl, M.bind_ok (x := MonadState.get) rfl]
  simp only [Machine.types_lowered, Types.nameOf_lowered, Types.get?_lowered]
  split
  · exact .error rfl h
  · cases x.types.get? t with
    | none => exact .error rfl h
    | some e =>
      obtain ⟨name, sort⟩ := e
      cases sort with
      | value => exact .error rfl h
      | object maker handler => exact make t maker _ _ h
      | user d handler =>
        show L.SameFolded _ (M.pushNew (.ofDeclaration t d) x)
          (M.pushNew (.ofDeclaration t d.lowered) (x.lowered o))
        rw [Obj.ofDeclaration_lowered]
        exact pushObject h (knows_replicate _)

theorem callObject (h : L.Lowered x y) {f : Function}
    (hconv : ∀ v ∈ (Primitive.object (.invoke f)).converted x, ¬ x.heap.ShowsRecord v) :
    L.SameFolded (fun _ => True) (ObjectWord.call f x) (ObjectWord.call f y) := by
  refine (pop x y h).bind fun v x₁ y₁ hx₁ _ _ h₁ => (lift' v.toObject x₁ y₁ h₁).bind
    fun i x₂ y₂ hx₂ _ _ h₂ => ?_
  obtain ⟨h0, s, rfl, hs⟩ := M.peek?_of_pop hx₁
  obtain ⟨hv, rfl⟩ := M.lift_eq_ok hx₂
  obtain ⟨o, rfl⟩ := id h₂.eq
  rw [M.bind_ok (x := MonadState.get) rfl, M.bind_ok (x := MonadState.get) rfl]
  simp only [Machine.heap_lowered, Heap.object_lowered, Obj.implements_lowered,
    Machine.types_lowered, Types.nameOf_lowered, Obj.type_lowered]
  split
  · refine Store.invoke h₂ i ?_
    rintro rfl htext u hu
    have hobj : v = .obj i := by
      cases v <;> cases hv
      rfl
    have htext : (x.heap.text? (.obj i)).isSome = true := htext
    have hu : x.data.peek? 1 = some u := (hs 0).symm.trans hu
    refine hconv u ?_
    simp [Primitive.converted, h0, hobj, htext, hu]
  · exact .error rfl h₂

/-- The fields of a struct end at the same token, if none of them is `;struct` in other letters. -/
theorem nextFields (h : L.Lowered x y) (n : Nat)
    (hf : ∀ t ∈ (tokensOf x.line.rest).takeWhile (· ≠ fieldsEnd), foldCase t ≠ fieldsEnd) :
    ∃ fields x' y', ObjectWord.nextFields n x = .ok fields x' ∧
      ObjectWord.nextFields n y = .ok (fields.map (·.map foldCase)) y' ∧ L.Lowered x' y' := by
  induction n generalizing x y with
  | zero => exact ⟨none, x, y, rfl, rfl, h⟩
  | succ n ih =>
    obtain ⟨hxy, htoken, -⟩ := advanced h
    rw [Line.tokensOf_rest] at hf
    cases ht : x.line.advance.token? with
    | none =>
      rw [ht] at htoken
      exact ⟨none, _, _, ObjectWord.nextFields_open ht n, ObjectWord.nextFields_open htoken n, hxy⟩
    | some t =>
      rw [ht] at htoken hf
      by_cases he : t = fieldsEnd
      · have hend : y.line.advance.token? = some fieldsEnd := by
          rw [htoken, he]
          rfl
        exact ⟨some [], _, _, ObjectWord.nextFields_close (he ▸ ht) n,
          ObjectWord.nextFields_close hend n, hxy⟩
      · simp only [Option.toList_some, List.singleton_append, List.takeWhile_cons, ne_eq, he,
          not_false_eq_true, decide_true, if_true, List.forall_mem_cons] at hf
        obtain ⟨fields, x', y', hx, hy, h'⟩ :=
          ih (x := x.atLine x.line.advance) (y := y.atLine y.line.advance) hxy hf.2
        refine ⟨fields.map (t :: ·), x', y', ?_, ?_, h'⟩
        · rw [ObjectWord.nextFields_field ht he, M.bind_ok hx]
          rfl
        · rw [ObjectWord.nextFields_field htoken hf.1, M.bind_ok hy]
          cases fields <;> rfl

theorem defineFields_foldCase (name : String) : ∀ i fields,
    ObjectWord.defineFields (foldCase name) i (fields.map foldCase) =
      ObjectWord.defineFields name i fields
  | _, [] => rfl
  | i, field :: rest => by
    have hf : foldCase name ++ "." ++ foldCase field = foldCase (name ++ "." ++ field) := by
      rw [foldCase_append, foldCase_append]
      rfl
    simp only [List.map_cons, ObjectWord.defineFields, hf, defineConstant_foldCase,
      defineFields_foldCase name (i + 1) rest]

/-- What is left to do for a struct once its name has been read. -/
theorem declareNamed (h : L.Lowered x y) (name : String)
    (hf : ∀ t ∈ (tokensOf x.line.rest).takeWhile (· ≠ fieldsEnd), foldCase t ≠ fieldsEnd) :
    L.SameFolded (fun _ => True) (ObjectWord.declareNamed name x)
      (ObjectWord.declareNamed (foldCase name) y) := by
  have hlen : y.line.text.length = x.line.text.length := by
    obtain ⟨o, rfl⟩ := h.eq
    simp [Line.lowered]
  obtain ⟨fields, x', y', hx, hy, h'⟩ := nextFields h (x.line.text.length + 1) hf
  unfold ObjectWord.declareNamed
  rw [M.bind_ok (x := MonadState.get) rfl, M.bind_ok (x := MonadState.get) rfl, hlen,
    M.bind_ok hx, M.bind_ok hy]
  cases fields with
  | none => exact .error (by simp [Error.folded, CompileFault.folded]) h'
  | some fields =>
    refine (addUser h' ⟨name, fields⟩).bind fun t x₁ y₁ _ _ _ h₁ => ?_
    show L.SameFolded _
      ((M.defineConstant name (.type t) >>= fun _ => ObjectWord.defineFields name 0 fields) x₁)
      ((M.defineConstant (foldCase name) (.type t) >>= fun _ =>
        ObjectWord.defineFields (foldCase name) 0 (fields.map foldCase)) y₁)
    rw [defineConstant_foldCase, defineFields_foldCase]
    exact ((defineConstant name (.plain rfl)).bind fun _ _ => defineFields name 0 fields) _ _ h₁

theorem declare (h : L.Lowered x y) (hf : x.EndsFields) :
    L.SameFolded (fun _ => True) (ObjectWord.declare x) (ObjectWord.declare y) := by
  obtain ⟨hxy, htoken, -⟩ := advanced h
  unfold Machine.EndsFields at hf
  rw [Line.tokensOf_rest] at hf
  rw [ObjectWord.declare_eq, ObjectWord.declare_eq, htoken]
  cases ht : x.line.advance.token? with
  | none => exact .error rfl hxy
  | some name =>
    rw [ht] at hf
    exact declareNamed hxy name hf

theorem objectWord (h : L.Lowered x y) {w : ObjectWord}
    (hconv : ∀ v ∈ (Primitive.object w).converted x, ¬ x.heap.ShowsRecord v)
    (hf : w = .struct → x.EndsFields) :
    L.SameFolded (fun _ => True) (w.run x) (w.run y) := by
  cases w with
  | new => exact makeObject x y h
  | typeOf =>
    exact (pop.bind fun v _ => get
      (fun m o => by simp only [Machine.heap_lowered, Heap.typeOf_lowered]) fun _ _ _ =>
      pushPlain rfl) x y h
  | invoke f => exact callObject h hconv
  | struct => exact declare h (hf rfl)
  | setHandler =>
    exact (pop.bind fun _ _ => (lift' _).bind fun t _ => popWord.bind fun w hw =>
      setHandler hw) x y h
  | refcount =>
    exact ((peek 0).bind fun v _ => get
      (fun m o => by
        simp only [Machine.heap_lowered, Machine.roots_lowered, Heap.liveCount?_lowered])
      fun _ _ _ => pushPlain rfl) x y h

/-! ## Definitions -/

theorem checkBalance : L.IgnoresCase DefiningWord.checkBalance fun _ => True := by
  intro x y h
  obtain ⟨o, rfl⟩ := id h.eq
  rw [DefiningWord.checkBalance_eq, DefiningWord.checkBalance_eq, Machine.data_lowered,
    Machine.compiler_lowered]
  cases DefiningWord.imbalance? x.data x.compiler.startDepth with
  | none => exact .ok () trivial h
  | some e => exact .error rfl h

/-- The end of a definition: its word is bound in the dictionary, or left on the data stack. -/
theorem reveal : L.IgnoresCase DefiningWord.reveal fun _ => True := by
  refine checkBalance.bind fun _ _ x y h => ?_
  rw [DefiningWord.closeBalanced_eq, DefiningWord.closeBalanced_eq]
  obtain ⟨o, rfl⟩ := id h.eq
  rw [Machine.compiler_lowered, Machine.heap_lowered]
  cases hw : x.compiler.building? with
  | none => exact .error rfl h
  | some w =>
    have hk := h.calls.building w hw
    have hclosed := setCompiler h (f := ({ · with building? := none })) (.inl rfl) rfl
    dsimp only
    by_cases ha : (x.heap.word w).isAnonymous = true
    · rw [if_pos ha, if_pos (show (x.heap.lowered.word w).isAnonymous = true from ha)]
      exact push (.xt hk) _ _ (setFlag hclosed hk (f := ({ · with hidden := false })) fun _ => rfl)
    · rw [if_neg ha, if_neg (show ¬ (x.heap.lowered.word w).isAnonymous = true from ha)]
      exact .ok () trivial (h.change (f := (·.revealing w)) (fun _ => rfl) rfl rfl fun _ =>
        calls_bind hclosed.calls hk)

theorem forgetWord : L.IgnoresCase (DefiningWord.act .forget) fun _ => True := by
  refine nextName fun name ht x y h => ?_
  obtain ⟨o, rfl⟩ := id h.eq
  show L.SameFolded _ ((M.lift (x.dictionary.forget x.heap name) >>= _) x)
    ((M.lift (x.dictionary.forget x.heap.lowered (foldCase name)) >>= _) (x.lowered o))
  unfold Dictionary.forget
  rw [Name.ofString_foldCase]
  cases hw : x.dictionary.lookup? (.ofString name) with
  | none => exact .error (by simp [Error.folded]) h
  | some w =>
    have hk := h.calls.names name w hw ht
    simp only [Heap.word_lowered]
    by_cases hb : (x.heap.word w).builtin = true
    · simp only [hb, if_true]
      exact .error (by simp [Error.folded]) h
    · simp only [hb]
      refine .ok () trivial (h.change (f := fun m => { m with
        dictionary := m.dictionary.unbind (.ofString name)
        heap := m.heap.updateWord w fun u => { u with hidden := true } }) (fun _ => rfl) rfl rfl
        fun hc => { hc.setWord (u := { x.heap.word w with hidden := true }) (hc.words w hk) w with
          names := fun s v hv hs => ?_ })
      rw [Dictionary.lookup?_unbind] at hv
      split at hv
      · cases hv
      · exact hc.names s v hv hs

/-- The words that make definitions, except those that take characters from the line. -/
theorem definingAct {w : DefiningWord} (hp : (Primitive.defining w).quotes = false) :
    L.IgnoresCase w.act fun _ => True := by
  cases w with
  | colon =>
    exact nextName' (fun t => by
      simp only [DefiningWord.openDefinition, Compiler.start, Word.blank, Name.ofString_foldCase])
      fun _ => openDefinition _
  | noname => exact openDefinition _
  | semicolon => exact (requireCompiling _).bind fun _ _ => reveal.bind fun _ _ => setMode _
  | immediate =>
    exact (lastWith []).bind fun w hw => changing fun x y h =>
      setFlag h hw (f := ({ · with immediate := true })) fun _ => rfl
  | postpone => exact (requireCompiling _).bind fun _ _ => setMode _
  | leftBracket => exact (requireCompiling _).bind fun _ _ => setMode _
  | rightBracket =>
    exact get (fun _ _ => rfl) fun _ _ _ => (lift' _).bind fun _ _ => setMode _
  | literal => exact (requireCompiling _).bind fun _ _ => pop.bind fun _ hv => compileLiteral hv
  | tick => exact (nextWord _).bind fun _ hw => push (.xt hw)
  | bracketTick =>
    exact (requireCompiling _).bind fun _ _ => (nextWord _).bind fun _ hw => compileLiteral (.xt hw)
  | execute => exact pure trivial
  | compileComma => exact popWord.bind fun _ hw => compileWord hw
  | forget => exact forgetWord
  | comment => exact changing fun _ _ h => skipComment h
  | lineComment => exact changing fun _ _ h => skipLine h
  | char | bracketChar | string | printString => cases hp

theorem definingWord {w : DefiningWord} (hp : (Primitive.defining w).quotes = false) :
    L.IgnoresCase w.run L.GoesOn := by
  by_cases hw : w = .execute
  · subst hw
    exact popWord.bind fun w hw => pure (a := Flow.call w) hw
  · have hrun : w.run = (do w.act; Pure.pure Flow.next : M Flow) := by
      cases w <;> first | rfl | exact absurd rfl hw
    rw [hrun]
    exact (definingAct hp).bind fun _ _ => pure (a := Flow.next) trivial

theorem pushDataAddress : L.IgnoresCase ThreadedForth.pushDataAddress fun _ => True :=
  current.bind fun _ hf => get (fun _ _ => by
    simp only [Machine.heap_lowered, Heap.pointer_lowered]) fun _ _ _ => push (.ptr hf)

theorem pushFirstSlot : L.IgnoresCase ThreadedForth.pushFirstSlot fun _ => True :=
  current.bind fun _ hf => get (fun _ _ => rfl) fun _ _ h =>
    (lift _ fun _ hv => knows_load h hf hv).bind fun _ hv => push hv

/-! ## All primitives -/

theorem thenNext {act : M Unit} (h : L.SameFolded (fun _ => True) (act x) (act y)) :
    L.SameFolded L.GoesOn (ThreadedForth.thenNext act x) (ThreadedForth.thenNext act y) :=
  h.bind fun _ _ _ _ _ _ hxy => .ok Flow.next trivial hxy

end IgnoresCase

/-- **A primitive does the same to a machine and to the machine in lower case**, if it takes no
    characters from the line, makes no string of a value that has a record in its text, and reads no
    field that would end a struct in lower case. -/
theorem primitive_ignoresCase (h : L.Lowered x y) {p : Primitive} (hp : p.Plain)
    (hconv : ∀ v ∈ p.converted x, ¬ x.heap.ShowsRecord v)
    (hf : p = .object .struct → x.EndsFields) :
    L.SameFolded L.GoesOn (p.run x) (p.run y) := by
  cases p with
  | stack w => exact IgnoresCase.thenNext (IgnoresCase.stackWord w x y h)
  | arithmetic w => exact IgnoresCase.arithmeticWord h w hconv
  | float w => exact IgnoresCase.thenNext (IgnoresCase.floatWord w x y h)
  | output w => exact IgnoresCase.thenNext (IgnoresCase.outputWord w x y h)
  | memory w => exact IgnoresCase.memoryWord h hconv
  | defining w => exact IgnoresCase.definingWord hp.1 x y h
  | control w =>
    exact IgnoresCase.thenNext (((IgnoresCase.requireCompiling _).bind fun _ _ =>
      IgnoresCase.controlBuild w) x y h)
  | branch w => exact IgnoresCase.branchWord w x y h
  | object w =>
    exact IgnoresCase.thenNext (IgnoresCase.objectWord h hconv fun hw => hf (hw ▸ rfl))
  | state w => exact IgnoresCase.thenNext (IgnoresCase.stateWord w x y h)
  | host w => cases hp.2
  | dataAddress => exact IgnoresCase.thenNext (IgnoresCase.pushDataAddress x y h)
  | pushConstant => exact IgnoresCase.thenNext (IgnoresCase.pushFirstSlot x y h)
  | nop => exact .ok Flow.next trivial h

end Likeness
end ThreadedForth
