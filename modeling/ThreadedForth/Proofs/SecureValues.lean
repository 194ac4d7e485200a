/-
  Secure words for values, operators and objects.
-/
import ThreadedForth.Proofs.Secure

namespace ThreadedForth

variable {α β : Type} {m : Machine}

/-- A value that does not refer to the heap. -/
theorem Value.In.plain {h : Heap} {v : Value} (hv : v.isCounted = false) : v.In h := by
  intro r hr
  cases v <;> simp_all [Value.isCounted, Value.refs]

/-! ## Stacks -/

namespace StackWord

theorem pushSide_secure (k : SideStack) {v : Value} (hv : v.In m.heap) :
    Secure m (pushSide k v) fun _ _ => True := by
  intro hs
  cases k with
  | temp =>
    unfold pushSide side
    cases hp : m.temp.push v with
    | error e => exact ⟨hs, .refl _, fun _ _ _ => trivial⟩
    | ok s =>
      obtain ⟨_, rfl⟩ := Stack.push_eq_ok hp
      refine ⟨{ hs with temp := fun x hx => ?_ }, .refl _, fun _ _ _ => trivial⟩
      rcases List.mem_cons.1 hx with rfl | hx
      · exact hv
      · exact hs.temp x hx
  | self =>
    unfold pushSide side
    cases hp : m.self.push v with
    | error e => exact ⟨hs, .refl _, fun _ _ _ => trivial⟩
    | ok s =>
      obtain ⟨_, rfl⟩ := Stack.push_eq_ok hp
      refine ⟨{ hs with self := fun x hx => ?_ }, .refl _, fun _ _ _ => trivial⟩
      rcases List.mem_cons.1 hx with rfl | hx
      · exact hv
      · exact hs.self x hx

theorem popSide_secure (k : SideStack) : Secure m (popSide k) fun v m' => v.In m'.heap := by
  intro hs
  cases k with
  | temp =>
    unfold popSide side
    cases hp : m.temp.pop with
    | error e => exact ⟨hs, .refl _, fun _ _ hb => by cases hb⟩
    | ok vs =>
      obtain ⟨v, s⟩ := vs
      obtain ⟨hi, _⟩ := Stack.pop_eq_ok hp
      refine ⟨{ hs with temp := fun x hx => hs.temp x (hi ▸ List.mem_cons_of_mem _ hx) }, .refl _,
        fun _ _ hb => ?_⟩
      cases hb
      exact hs.temp v (hi ▸ List.mem_cons_self)
  | self =>
    unfold popSide side
    cases hp : m.self.pop with
    | error e => exact ⟨hs, .refl _, fun _ _ hb => by cases hb⟩
    | ok vs =>
      obtain ⟨v, s⟩ := vs
      obtain ⟨hi, _⟩ := Stack.pop_eq_ok hp
      refine ⟨{ hs with self := fun x hx => hs.self x (hi ▸ List.mem_cons_of_mem _ hx) }, .refl _,
        fun _ _ hb => ?_⟩
      cases hb
      exact hs.self v (hi ▸ List.mem_cons_self)

theorem side_in (hs : m.Sound) (k : SideStack) : ∀ v ∈ (side m k).items, v.In m.heap := by
  cases k with
  | temp => exact hs.temp
  | self => exact hs.self

theorem ensureRoom_secure (n : Nat) : Secure m (ensureRoom n) fun _ _ => True :=
  .get ((M.lift_secure _).weaken fun _ _ _ _ => trivial)

theorem run_secure (w : StackWord) : Secure m w.run fun _ _ => True := by
  cases w with
  | dup => exact (M.peek_secure 0).bind fun _ _ _ _ hv => M.push_secure hv
  | drop => exact M.pop_secure.bind fun _ _ _ _ _ => .pure fun _ => trivial
  | swap =>
    exact M.pop_secure.bind fun _ _ _ _ ha => M.pop_secure.bind fun _ _ _ g₂ hb =>
      (M.push_secure (ha.mono g₂)).bind fun _ _ _ g₃ _ => M.push_secure (hb.mono g₃)
  | «over» => exact (M.peek_secure 1).bind fun _ _ _ _ hv => M.push_secure hv
  | rot =>
    exact M.pop_secure.bind fun _ _ _ _ hc => M.pop_secure.bind fun _ _ _ g₂ hb =>
      M.pop_secure.bind fun _ _ _ g₃ ha => (M.push_secure (hb.mono g₃)).bind fun _ _ _ g₄ _ =>
        (M.push_secure (hc.mono (g₂.trans (g₃.trans g₄)))).bind fun _ _ _ g₅ _ =>
          M.push_secure (ha.mono (g₄.trans g₅))
  | nip =>
    exact M.pop_secure.bind fun _ _ _ _ hb => M.pop_secure.bind fun _ _ _ g₂ _ =>
      M.push_secure (hb.mono g₂)
  | tuck =>
    exact (ensureRoom_secure 1).bind fun _ _ _ _ _ => M.pop_secure.bind fun _ _ _ _ hb =>
      M.pop_secure.bind fun _ _ _ g₂ ha => (M.push_secure (hb.mono g₂)).bind fun _ _ _ g₃ _ =>
        (M.push_secure (ha.mono g₃)).bind fun _ _ _ g₄ _ =>
          M.push_secure (hb.mono (g₂.trans (g₃.trans g₄)))
  | twoDup =>
    exact (M.peek_secure 1).bind fun _ _ _ _ ha => (M.peek_secure 0).bind fun _ _ _ g₂ hb =>
      (ensureRoom_secure 2).bind fun _ _ _ g₃ _ =>
        (M.push_secure (ha.mono (g₂.trans g₃))).bind fun _ _ _ g₄ _ =>
          M.push_secure (hb.mono (g₃.trans g₄))
  | twoDrop =>
    exact M.pop_secure.bind fun _ _ _ _ _ => M.pop_secure.bind fun _ _ _ _ _ =>
      .pure fun _ => trivial
  | pick =>
    exact M.popInt_secure.bind fun _ _ _ _ _ => .get <| (M.lift_secure _).bind fun _ _ _ _ _ =>
      (M.peek_secure _).bind fun _ _ _ _ hv => M.push_secure hv
  | depth => exact .get (M.push_secure (.plain rfl))
  | clear => exact .modify fun hs => ⟨{ hs with data := nofun }, .refl _⟩
  | toReturn => exact M.popInt_secure.bind fun _ _ _ _ _ => M.pushReturn_secure _
  | fromReturn => exact M.popReturn_secure.bind fun _ _ _ _ _ => M.push_secure (.plain rfl)
  | copyReturn => exact (M.peekReturn_secure 0).bind fun _ _ _ _ _ => M.push_secure (.plain rfl)
  | toSide k => exact M.pop_secure.bind fun _ _ _ _ hv => pushSide_secure k hv
  | fromSide k => exact (popSide_secure k).bind fun _ _ _ _ hv => M.push_secure hv
  | copySide k =>
    refine .get ((M.lift_secure _).bind fun v m₁ hs₁ _ ⟨hm, hr⟩ => M.push_secure ?_)
    subst hm
    unfold Stack.peek Stack.peek? at hr
    split at hr
    · rename_i hv
      cases hr
      exact side_in hs₁ k _ (List.mem_of_getElem? hv)
    · cases hr

end StackWord

/-! ## Operators -/

theorem intResult_plain {a b : Int64} {op : Operator} {v : Value} (h : intResult a b op = .ok v) :
    v.isCounted = false := by
  cases op with
  | div | mod =>
    simp only [intResult] at h
    split at h
    · cases h
    · cases h; rfl
  | _ => cases h; rfl

theorem floatResult_plain {a b : Float} {op : Operator} {v : Value} (h : floatResult a b op = .ok v) :
    v.isCounted = false := by
  cases op with
  | div | mod =>
    simp only [floatResult] at h
    split at h
    · cases h
    · cases h; rfl
  | and | or | xor => cases h
  | _ => cases h; rfl

theorem flagResult_plain {a b : Bool} {op : Operator} {v : Value} (h : flagResult a b op = .ok v) :
    v.isCounted = false := by
  cases op with
  | eq | ne | and | or | xor => cases h; rfl
  | _ => cases h

theorem equalityResult_plain {a b : Value} {op : Operator} {v : Value}
    (h : equalityResult a b op = .ok v) : v.isCounted = false := by
  cases op with
  | eq | ne => cases h; rfl
  | _ => cases h

theorem Heap.moved_in {h : Heap} {p : Pointer} {n : Int64} {v : Value}
    (hp : (Value.ptr p).In h) (hm : h.moved p n = .ok v) : v.In h := by
  unfold Heap.moved Heap.offset at hm
  simp only at hm
  split at hm
  · cases hm
    exact hp
  · cases hm

theorem Heap.applyValues_in {h : Heap} {a b v : Value} {op : Operator} (ha : a.In h) (hb : b.In h)
    (hr : h.applyValues a b op = .ok v) : v.In h := by
  unfold Heap.applyValues at hr
  split at hr
  · unfold numberResult at hr
    cases hx : a.toFloat with
    | error e => simp [hx, Bind.bind, Except.bind] at hr
    | ok x =>
      cases hy : b.toFloat with
      | error e => simp [hx, hy, Bind.bind, Except.bind] at hr
      | ok y =>
        simp only [hx, hy, Bind.bind, Except.bind] at hr
        exact .plain (floatResult_plain hr)
  · split at hr
    · exact .plain (flagResult_plain hr)
    · split at hr
      · exact Heap.moved_in ha hr
      · exact Heap.moved_in ha hr
      · cases hr
    · split at hr
      · exact Heap.moved_in hb hr
      · cases hr
    · split at hr
      · split at hr
        · cases hr
          exact .plain rfl
        · cases hr
      · exact .plain (equalityResult_plain hr)
    · exact .plain (equalityResult_plain hr)
    · exact .plain (equalityResult_plain hr)
    · exact .plain (equalityResult_plain hr)
    · exact .plain (equalityResult_plain hr)
    · split at hr
      · unfold intLikeResult at hr
        cases hx : a.toInt with
        | error e => simp [hx, Bind.bind, Except.bind] at hr
        | ok x =>
          cases hy : b.toInt with
          | error e => simp [hx, hy, Bind.bind, Except.bind] at hr
          | ok y =>
            simp only [hx, hy, Bind.bind, Except.bind] at hr
            exact .plain (intResult_plain hr)
      · cases hr

theorem Heap.applyStrings_sound {h h' : Heap} {a b v : Value} {op : Operator} (hs : h.Sound)
    (hr : h.applyStrings a b op = .ok (v, h')) : h'.Sound ∧ h.Grows h' ∧ v.In h' := by
  unfold Heap.applyStrings at hr
  split at hr
  · cases hr
    exact ⟨hs.addObject fun v hv => by simp [Obj.items] at hv, .addObject _ _, M.addObject_in _ _⟩
  · split at hr
    · split at hr
      · cases hr
        exact ⟨hs, .refl _, .plain rfl⟩
      · split at hr
        · cases hr
          exact ⟨hs, .refl _, .plain rfl⟩
        · cases hr
          exact ⟨hs, .refl _, .plain rfl⟩
        · cases hr
    · cases hr

theorem Types.In.handler? {h : Heap} {t : Types} (ht : t.In h) {id : TypeId} {w : WordId}
    (hw : t.handler? id = some (.word w)) : h.Has (.word w) := by
  obtain ⟨e, he, hw⟩ := Option.bind_eq_some_iff.1 hw
  refine ht e w ?_ hw
  unfold Types.get? at he
  simp only at he
  split at he
  · exact .inl (Array.mem_of_getElem? he)
  · split at he
    · exact .inr (.inl (Array.mem_of_getElem? he))
    · exact .inr (.inr (Array.mem_of_getElem? he))

namespace Operator

/-- The heap has what the application of an operator gives. -/
def Dispatch.In (h : Heap) : Dispatch → Prop
  | done v => v.In h
  | run w _ => h.Has (.word w)

theorem handlerOf?_has (hs : m.Sound) {v : Value} {w : WordId} (hw : handlerOf? m v = some (.word w)) :
    m.heap.Has (.word w) := by
  cases v with
  | obj o => exact hs.types.handler? hw
  | _ => simp [handlerOf?] at hw

theorem handler?_has (hs : m.Sound) {a b : Value} {w : WordId} (hw : handler? m a b = some (.word w)) :
    m.heap.Has (.word w) := by
  rcases Option.or_eq_some_iff.1 hw with hw | ⟨_, hw⟩
  · exact handlerOf?_has hs hw
  · exact handlerOf?_has hs hw

theorem takeResult_secure (depth : Nat) : Secure m (takeResult depth) fun v m' => v.In m'.heap :=
  .get (.ite (fun _ => M.pop_secure) fun _ => .throw _)

theorem handleStrings_secure : Secure m handleStrings fun _ _ => True := by
  refine M.pop_secure.bind fun _ _ _ _ _ => (M.lift_secure _).bind fun op _ _ _ _ =>
    M.pop_secure.bind fun b _ _ _ _ => M.pop_secure.bind fun a m₃ _ _ _ => .get <|
      (M.lift_secure _).bind fun vh m₄ _ _ hv => ?_
  obtain ⟨rfl, hr⟩ := hv
  intro hs
  obtain ⟨h₁, h₂, h₃⟩ := Heap.applyStrings_sound hs.heap hr
  have hp := M.push_secure (m := { m₄ with heap := vh.2 }) h₃ (hs.withHeap h₁ h₂)
  exact ⟨hp.1, h₂.trans hp.2.1, fun _ _ _ => trivial⟩

theorem handleHost_secure (h : HostHandler) :
    Secure m (handleHost h) fun w m' => ∀ x, w = some x → m'.heap.Has (.word x) := by
  cases h with
  | const | exit =>
    exact M.pop_secure.bind fun _ _ _ _ _ => M.pop_secure.bind fun _ _ _ _ _ =>
      M.pop_secure.bind fun _ _ _ _ _ => (M.push_secure (.plain rfl)).bind fun _ _ _ _ _ =>
        .pure fun _ => nofun
  | call =>
    refine (M.builtin_secure _).bind fun w _ _ _ hw => .pure fun _ x hx => ?_
    cases hx
    exact hw
  | broken => exact M.pop_secure.bind fun _ _ _ _ _ => .pure fun _ => nofun

theorem handle_secure {h : Handler} (hh : ∀ w, h = .word w → m.heap.Has (.word w)) :
    Secure m (handle h) fun w m' => ∀ x, w = some x → m'.heap.Has (.word x) := by
  cases h with
  | strings => exact handleStrings_secure.bind fun _ _ _ _ _ => .pure fun _ => nofun
  | host h => exact handleHost_secure h
  | word w =>
    refine .pure fun _ x hx => ?_
    cases hx
    exact hh w rfl

theorem dispatch_secure {a b : Value} (ha : a.In m.heap) (hb : b.In m.heap) (op : Operator) :
    Secure m (dispatch a b op) fun d m' => d.In m'.heap := by
  intro hs
  refine Secure.get (f := fun m => _) ?_ hs
  cases hh : handler? m a b with
  | none =>
    refine (M.lift_secure _).bind fun v m₁ _ _ ⟨hm, hr⟩ => .pure fun _ => ?_
    subst hm
    exact Heap.applyValues_in ha hb hr
  | some h =>
    refine (M.push_secure ha).bind fun _ _ _ g₁ _ => (M.push_secure (hb.mono g₁)).bind
      fun _ _ _ g₂ _ => (M.push_secure (.plain rfl)).bind fun _ m₃ _ g₃ _ =>
        (handle_secure fun w hw => ?_).bind fun w _ _ _ hw => ?_
    · subst hw
      exact (handler?_has hs hh).mono (g₁.trans (g₂.trans g₃))
    · cases w with
      | none => exact (takeResult_secure _).bind fun _ _ _ _ hv => .pure fun _ => hv
      | some w => exact .pure fun _ => hw w rfl

/-- The heap has what is held for the result of an operator. -/
theorem after_in {h : Heap} {depth : Nat} {after : After}
    (hp : (Pending.handler depth after).In h) :
    (∀ a b, after = .select a b → a.In h ∧ b.In h) ∧
      ∀ p, after = .store p → h.Has (.word p.target) := by
  refine ⟨?_, ?_⟩
  · rintro a b rfl
    exact ⟨fun r hr => hp r (List.mem_append.2 (.inl hr)),
      fun r hr => hp r (List.mem_append.2 (.inr hr))⟩
  · rintro p rfl
    exact hp _ List.mem_cons_self

theorem useResult_secure {v : Value} {after : After} {depth : Nat} (hv : v.In m.heap)
    (hp : (Pending.handler depth after).In m.heap) : Secure m (useResult v after) fun _ _ => True := by
  obtain ⟨hsel, hst⟩ := after_in hp
  cases after with
  | push => exact M.push_secure hv
  | select a b =>
    obtain ⟨ha, hb⟩ := hsel a b rfl
    exact (M.lift_secure _).bind fun _ _ _ g _ =>
      .ite (fun _ => M.push_secure (ha.mono g)) fun _ => M.push_secure (hb.mono g)
  | store p =>
    exact .get (M.changeWord_secure (hst p rfl) fun _ _ hx hy => hx.store hv hy)

theorem handler_push_in (h : Heap) (depth : Nat) : (Pending.handler depth .push).In h :=
  fun r hr => by simp [Machine.pendingRefs] at hr

theorem conclude_secure {after : After} {depth : Nat} (hp : (Pending.handler depth after).In m.heap) :
    Secure m (conclude depth after) fun _ _ => True :=
  (takeResult_secure depth).bind fun _ _ _ g hv => useResult_secure hv (hp.mono g)

theorem applyThen_secure {a b : Value} {after : After} (ha : a.In m.heap) (hb : b.In m.heap)
    (hp : ∀ depth, (Pending.handler depth after).In m.heap) (op : Operator) :
    Secure m (applyThen a b op after) fun f m' => f.In m'.heap := by
  refine (dispatch_secure ha hb op).bind fun d _ _ g hd => ?_
  cases d with
  | done v =>
    exact (useResult_secure hd ((hp 0).mono g)).bind fun _ _ _ _ _ => .pure fun _ => trivial
  | run w depth => exact .pure fun _ => ⟨hd, (hp depth).mono g⟩

end Operator

theorem ArithmeticWord.run_secure (w : ArithmeticWord) :
    Secure m w.run fun f m' => f.In m'.heap := by
  cases w with
  | apply op =>
    exact M.pop_secure.bind fun _ _ _ _ hb => M.pop_secure.bind fun _ _ _ g ha =>
      Operator.applyThen_secure ha (hb.mono g) (Operator.handler_push_in _) op
  | select op =>
    refine M.pop_secure.bind fun b _ _ _ hb => M.pop_secure.bind fun a _ _ g ha =>
      Operator.applyThen_secure ha (hb.mono g) (fun _ r hr => ?_) op
    rcases List.mem_append.1 hr with hr | hr
    · exact ha r hr
    · exact hb.mono g r hr
  | increment =>
    exact M.pop_secure.bind fun _ _ _ _ ha =>
      Operator.applyThen_secure ha (.plain rfl) (Operator.handler_push_in _) _
  | decrement =>
    exact M.pop_secure.bind fun _ _ _ _ ha =>
      Operator.applyThen_secure ha (.plain rfl) (Operator.handler_push_in _) _
  | negate =>
    refine M.pop_secure.bind fun v _ _ _ _ => ?_
    cases v with
    | float x => exact (M.push_secure (.plain rfl)).bind fun _ _ _ _ _ => .pure fun _ => trivial
    | _ =>
      exact (M.lift_secure _).bind fun _ _ _ _ _ => (M.push_secure (.plain rfl)).bind
        fun _ _ _ _ _ => .pure fun _ => trivial
  | abs =>
    refine M.pop_secure.bind fun v _ _ _ _ => ?_
    cases v with
    | float x => exact (M.push_secure (.plain rfl)).bind fun _ _ _ _ _ => .pure fun _ => trivial
    | _ =>
      exact (M.lift_secure _).bind fun _ _ _ _ _ => (M.push_secure (.plain rfl)).bind
        fun _ _ _ _ _ => .pure fun _ => trivial
  | not =>
    exact M.popFlag_secure.bind fun _ _ _ _ _ => (M.push_secure (.plain rfl)).bind
      fun _ _ _ _ _ => .pure fun _ => trivial
  | invert =>
    exact M.popInt_secure.bind fun _ _ _ _ _ => (M.push_secure (.plain rfl)).bind
      fun _ _ _ _ _ => .pure fun _ => trivial
  | flag b => exact (M.push_secure (.plain rfl)).bind fun _ _ _ _ _ => .pure fun _ => trivial

theorem onFloat_secure (f : Float → Float) : Secure m (onFloat f) fun _ _ => True :=
  M.pop_secure.bind fun _ _ _ _ _ => (M.lift_secure _).bind fun _ _ _ _ _ =>
    M.push_secure (.plain rfl)

theorem FloatWord.run_secure (w : FloatWord) : Secure m w.run fun _ _ => True := by
  cases w with
  | toInt =>
    refine M.pop_secure.bind fun v _ _ _ _ => ?_
    cases v with
    | float x => exact M.push_secure (.plain rfl)
    | _ => exact (M.lift_secure _).bind fun _ _ _ _ _ => M.push_secure (.plain rfl)
  | _ => exact onFloat_secure _

theorem putSpaces_secure : ∀ (n : Nat) {m : Machine}, Secure m (putSpaces n) fun _ _ => True
  | 0, _ => .pure fun _ => trivial
  | n + 1, _ => (M.put_secure _).bind fun _ _ _ _ _ => putSpaces_secure n

theorem putByte_secure (b : UInt8) : Secure m (putByte b) fun _ _ => True := by
  intro hs
  unfold putByte
  cases m.output.pushBytes [b] with
  | error e => exact ⟨hs, .refl _, fun _ _ _ => trivial⟩
  | ok o => exact ⟨{ hs with }, .refl _, fun _ _ _ => trivial⟩

theorem OutputWord.run_secure (w : OutputWord) : Secure m w.run fun _ _ => True := by
  cases w with
  | print => exact M.pop_secure.bind fun _ _ _ _ _ => .get (M.write_secure _)
  | printFloat =>
    exact M.pop_secure.bind fun _ _ _ _ _ => (M.lift_secure _).bind fun _ _ _ _ _ =>
      M.write_secure _
  | printStack => exact .get (M.write_secure _)
  | emit =>
    exact M.pop_secure.bind fun _ _ _ _ _ => (M.lift_secure _).bind fun _ _ _ _ _ =>
      putByte_secure _
  | newline => exact M.put_secure _
  | space => exact M.put_secure _
  | spaces => exact M.popInt_secure.bind fun _ _ _ _ _ => putSpaces_secure _
  | type => exact M.pop_secure.bind fun _ _ _ _ _ => .get (M.put_secure _)
  | words => exact .get (M.write_secure _)
  | see => exact (M.nextWord_secure _).bind fun _ _ _ _ _ => .get (M.put_secure _)

/-! ## Objects -/

namespace M

theorem onStore_bind (x : StoreM α) (f : α → StoreM β) :
    onStore (x >>= f) = onStore x >>= fun a => onStore (f a) := by
  funext m
  simp only [onStore, Bind.bind, EStateM.bind]
  cases x ⟨m.heap, m.data⟩ <;> rfl

theorem onStore_pop : onStore Store.pop = pop := by
  funext m
  simp only [onStore, Store.pop, pop]
  cases m.data.pop <;> rfl

theorem onStore_push (v : Value) : onStore (Store.push v) = push v := by
  funext m
  simp only [onStore, Store.push, push]
  cases m.data.push v <;> rfl

theorem onStore_lift (r : Except Error α) : onStore (Store.lift r) = lift r := by
  cases r <;> rfl

end M

namespace Store

/-- A secure computation on the part of a machine that functions of objects work on. -/
abbrev Secure (m : Machine) (act : StoreM α) (P : α → Machine → Prop) : Prop :=
  ThreadedForth.Secure m (M.onStore act) P

variable {address : UInt64} {P : α → Machine → Prop} {Q : β → Machine → Prop}

theorem Secure.bind {x : StoreM α} {f : α → StoreM β} (hx : Secure m x P)
    (hf : ∀ a m₁, m₁.Sound → m.heap.Grows m₁.heap → P a m₁ → Secure m₁ (f a) Q) :
    Secure m (x >>= f) Q := by
  unfold Secure
  rw [M.onStore_bind]
  exact ThreadedForth.Secure.bind hx hf

theorem Secure.pure {a : α} (h : m.Sound → P a m) : Secure m (Pure.pure a) P :=
  ThreadedForth.Secure.pure h

theorem Secure.throw (e : Error) : Secure m (MonadExcept.throw e) P :=
  ThreadedForth.Secure.throw e

theorem Secure.get {f : Store → StoreM α} (h : Secure m (f ⟨m.heap, m.data⟩) P) :
    Secure m (MonadState.get >>= f) P := h

theorem pop_secure : Secure m pop fun v m' => v.In m'.heap := by
  rw [Secure, M.onStore_pop]
  exact M.pop_secure

theorem push_secure {v : Value} (hv : v.In m.heap) : Secure m (push v) fun _ _ => True := by
  rw [Secure, M.onStore_push]
  exact M.push_secure hv

theorem lift_secure (r : Except Error α) : Secure m (lift r) fun a m' => m' = m ∧ r = .ok a := by
  rw [Secure, M.onStore_lift]
  exact M.lift_secure r

theorem popInt_secure : Secure m popInt fun _ _ => True :=
  pop_secure.bind fun _ _ _ _ _ => (lift_secure _).weaken fun _ _ _ _ => trivial

theorem replace_secure (o : ObjId) {x : Obj} (hx : x.In m.heap) :
    Secure m (replace o x) fun _ _ => True := by
  have hg := Heap.Grows.setObject m.heap o x
  exact fun hs => ⟨hs.withHeap (hs.heap.setObject hx) hg, hg, fun _ _ _ => trivial⟩

theorem pushAll_secure : ∀ {m : Machine} {vs : List Value}, (∀ v ∈ vs, v.In m.heap) →
    Secure m (pushAll vs) fun _ _ => True
  | _, [], _ => .pure fun _ => trivial
  | _, _ :: _, h =>
    (push_secure (h _ List.mem_cons_self)).bind fun _ _ _ g _ =>
      pushAll_secure fun v hv => (h v (List.mem_cons_of_mem _ hv)).mono g

theorem onStore_pushNew (x : Obj) : M.onStore (pushNew x) = M.pushNew x := by
  funext m
  have h := congrFun (M.onStore_push (.obj (m.heap.addObject x).1))
    { m with heap := (m.heap.addObject x).2 }
  exact h

theorem pushNew_secure {x : Obj} (hx : x.In m.heap) : Secure m (pushNew x) fun _ _ => True := by
  rw [Secure, onStore_pushNew]
  exact M.pushNew_secure hx

theorem text_in (h : Heap) (s : String) : (Obj.text s).In h :=
  fun v hv => by simp [Obj.items] at hv

theorem invokeText_secure (o : ObjId) (text : String) (f : Function) :
    Secure m (invokeText o text f) fun _ _ => True := by
  cases f with
  | size => exact push_secure (.plain rfl)
  | hash => exact push_secure (.plain rfl)
  | get =>
    exact popInt_secure.bind fun _ _ _ _ _ => (lift_secure _).bind fun _ _ _ _ _ =>
      push_secure (.plain rfl)
  | set =>
    refine popInt_secure.bind fun _ _ _ _ _ => pop_secure.bind fun _ _ _ _ _ =>
      (lift_secure _).bind fun _ _ _ _ _ => (lift_secure _).bind fun i _ _ _ _ => ?_
    split
    · exact replace_secure o (text_in _ _)
    · exact .throw _
  | contains =>
    exact pop_secure.bind fun _ _ _ _ _ => .get <| (lift_secure _).bind fun _ _ _ _ _ =>
      push_secure (.plain rfl)
  | indexOf =>
    refine pop_secure.bind fun _ _ _ _ _ => .get <| (lift_secure _).bind fun _ _ _ _ _ => ?_
    split
    · exact push_secure (.plain rfl)
    · exact push_secure (.plain rfl)
  | subRange =>
    refine popInt_secure.bind fun _ _ _ _ _ => popInt_secure.bind fun _ _ _ _ _ =>
      (lift_secure _).bind fun ij _ _ _ _ => ?_
    obtain ⟨i, j⟩ := ij
    dsimp only
    split
    · exact pushNew_secure (text_in _ _)
    · exact .throw _
  | deconstruct =>
    refine (pushAll_secure fun v hv => ?_).bind fun _ _ _ _ _ => push_secure (.plain rfl)
    obtain ⟨c, _, rfl⟩ := List.mem_map.1 hv
    exact .plain rfl
  | append =>
    exact pop_secure.bind fun _ _ _ _ _ => .get (replace_secure o (text_in _ _))
  | implements => exact popInt_secure.bind fun _ _ _ _ _ => push_secure (.plain rfl)
  | close | read | readLine | readChar | eof => exact .throw _

theorem setItems_in {h : Heap} {x : Obj} {items : Array Value} (hi : ∀ v ∈ items, v.In h) :
    (x.setItems items).In h := by
  cases x with
  | text s => exact text_in h s
  | array _ _ => exact hi
  | record _ _ _ _ => exact hi

theorem invokeItems_secure (o : ObjId) (x : Obj) {items : Array Value}
    (hi : ∀ v ∈ items, v.In m.heap) (f : Function) :
    Secure m (invokeItems address o x items f) fun _ _ => True := by
  cases f with
  | size => exact push_secure (.plain rfl)
  | hash => exact push_secure (.plain rfl)
  | get =>
    refine popInt_secure.bind fun _ _ _ g₁ _ => (lift_secure _).bind fun i _ _ g₂ _ =>
      push_secure ?_
    cases h : items[i]? with
    | none => exact .plain rfl
    | some v => exact (hi v (Array.mem_of_getElem? h)).mono (g₁.trans g₂)
  | set =>
    refine popInt_secure.bind fun _ _ _ g₁ _ => pop_secure.bind fun v _ _ g₂ hv =>
      (lift_secure _).bind fun i _ _ g₃ _ => replace_secure o (setItems_in fun u hu => ?_)
    rcases Array.mem_or_eq_of_mem_setIfInBounds hu with hu | rfl
    · exact (hi u hu).mono (g₁.trans (g₂.trans g₃))
    · exact hv.mono g₃
  | contains => exact pop_secure.bind fun _ _ _ _ _ => .get (push_secure (.plain rfl))
  | indexOf =>
    refine pop_secure.bind fun _ _ _ _ _ => .get ?_
    dsimp only
    split
    · exact push_secure (.plain rfl)
    · exact push_secure (.plain rfl)
  | deconstruct =>
    exact (pushAll_secure fun v hv => hi v (Array.mem_toList_iff.1 hv)).bind fun _ _ _ _ _ =>
      push_secure (.plain rfl)
  | implements => exact popInt_secure.bind fun _ _ _ _ _ => push_secure (.plain rfl)
  | subRange | append | close | read | readLine | readChar | eof => exact .throw _

theorem invokeArray_secure (o : ObjId) (x : Obj) {items : Array Value}
    (hi : ∀ v ∈ items, v.In m.heap) (f : Function) :
    Secure m (invokeArray address o x items f) fun _ _ => True := by
  have h : Secure m (invokeItems address o x items f) _ := invokeItems_secure o x hi f
  cases f with
  | subRange =>
    refine popInt_secure.bind fun _ _ _ g₁ _ => popInt_secure.bind fun _ _ _ g₂ _ =>
      (lift_secure _).bind fun ij _ _ g₃ _ => pushNew_secure fun v hv => ?_
    have hv : v ∈ items.extract ij.1 ij.2 := hv
    have hv : v ∈ items.toList.extract ij.1 ij.2 := by
      rw [← Array.toList_extract]
      exact Array.mem_toList_iff.2 hv
    have hv : v ∈ items := Array.mem_toList_iff.1 (List.mem_of_mem_drop (List.mem_of_mem_take hv))
    exact (hi v hv).mono (g₁.trans (g₂.trans g₃))
  | append =>
    refine pop_secure.bind fun v _ _ g hv => replace_secure o (setItems_in fun u hu => ?_)
    rcases Array.mem_push.1 hu with hu | rfl
    · exact (hi u hu).mono g
    · exact hv
  | _ => exact h

theorem invoke_secure {o : ObjId} (ho : m.heap.Has (.object o)) (f : Function) :
    Secure m (invoke address o f) fun _ _ => True := by
  intro hs
  have hi := hs.heap.object ho
  refine Secure.get (f := fun s => _) ?_ hs
  cases hx : m.heap.object o with
  | text s => exact invokeText_secure o s f
  | array items v =>
    rw [hx] at hi
    exact invokeArray_secure o _ hi f
  | record t d items v =>
    rw [hx] at hi
    exact invokeItems_secure o _ hi f

end Store

namespace ObjectWord

theorem replicate_in (h : Heap) (n : Nat) : ∀ v ∈ Array.replicate n (Value.int 0), v.In h := by
  intro v hv
  rw [Array.eq_of_mem_replicate hv]
  exact .plain rfl

theorem make_secure (t : TypeId) (maker : Maker) : Secure m (make t maker) fun _ _ => True := by
  cases maker with
  | string => exact M.pushNew_secure (Store.text_in _ _)
  | array =>
    refine M.popInt_secure.bind fun k m₁ _ _ _ => .ite (fun _ => (Secure.throw _).bind
      (P := fun _ _ => True) fun _ m₂ _ _ _ => ?_) fun _ => ?_
    all_goals exact .ite (fun _ => (Secure.throw _).bind (P := fun _ _ => True) fun _ _ _ _ _ =>
      M.pushNew_secure (replicate_in _ _)) fun _ => M.pushNew_secure (replicate_in _ _)
  | host refuses =>
    cases refuses with
    | false => exact .get (M.pushNew_secure (Store.text_in _ _))
    | true => exact .throw _

theorem makeObject_secure : Secure m makeObject fun _ _ => True := by
  refine M.pop_secure.bind fun _ _ _ _ _ => (M.lift_secure _).bind fun t m₁ _ _ _ => .get ?_
  refine .ite (fun _ => (Secure.throw _).bind (P := fun _ _ => True) fun _ m₂ _ _ _ => ?_) fun _ => ?_
  all_goals
    split
    · exact .throw _
    · split
      · exact .throw _
      · exact make_secure _ _
      · exact M.pushNew_secure (replicate_in _ _)

theorem call_secure (f : Function) : Secure m (call f) fun _ _ => True := by
  refine M.pop_secure.bind fun v _ _ _ hv => (M.lift_secure _).bind fun o m₂ _ g ho => .get ?_
  refine .ite (fun _ => Store.invoke_secure ?_ f) fun _ => .throw _
  cases v with
  | obj o' =>
    obtain rfl : o' = o := by simpa [Value.toObject] using ho.2
    exact (hv.mono g) _ List.mem_cons_self
  | _ => simp [Value.toObject] at ho

theorem nextFields_secure : ∀ (n : Nat) {m : Machine}, Secure m (nextFields n) fun _ _ => True
  | 0, _ => .pure fun _ => trivial
  | n + 1, _ => by
    refine M.nextToken_secure.bind fun t _ _ _ _ => ?_
    split
    · exact .pure fun _ => trivial
    · exact .pure fun _ => trivial
    · exact (nextFields_secure n).bind fun _ _ _ _ _ => .pure fun _ => trivial

theorem defineFields_secure (name : String) : ∀ (i : Nat) (fields : List String) {m : Machine},
    Secure m (defineFields name i fields) fun _ _ => True
  | _, [], _ => .pure fun _ => trivial
  | i, _ :: rest, _ =>
    (M.defineConstant_secure _ (.plain rfl)).bind fun _ _ _ _ _ =>
      defineFields_secure name (i + 1) rest

theorem addUser_in {h : Heap} {t : Types} (ht : t.In h) (d : Declaration) : (t.addUser d).2.In h := by
  unfold Types.addUser
  split
  · exact ht
  · intro e w he hw
    rcases he with he | he | he
    · exact ht e w (.inl he) hw
    · exact ht e w (.inr (.inl he)) hw
    · rcases Array.mem_push.1 he with he | rfl
      · exact ht e w (.inr (.inr he)) hw
      · simp [TypeEntry.handler?] at hw

theorem setHandler_in {h : Heap} {t : Types} (ht : t.In h) (id : TypeId) {w : WordId}
    (hw : h.Has (.word w)) : (t.setHandler id (.word w)).2.In h := by
  unfold Types.setHandler
  split
  · exact ht
  · rename_i e he
    split
    · exact ht
    · rename_i e' he'
      have hn : ∀ v, e'.handler? = some (.word v) → h.Has (.word v) := by
        intro v hv
        unfold TypeEntry.setHandler at he'
        split at he'
        · cases he'
        · cases he'
          obtain rfl : w = v := by simpa [TypeEntry.handler?] using hv
          exact hw
        · cases he'
          obtain rfl : w = v := by simpa [TypeEntry.handler?] using hv
          exact hw
      unfold Types.setEntry
      intro x v hx hv
      simp only at hx
      split at hx
      · rcases hx with hx | hx | hx
        · rcases Array.mem_or_eq_of_mem_setIfInBounds hx with hx | rfl
          · exact ht x v (.inl hx) hv
          · exact hn v hv
        · exact ht x v (.inr (.inl hx)) hv
        · exact ht x v (.inr (.inr hx)) hv
      · split at hx
        · rcases hx with hx | hx | hx
          · exact ht x v (.inl hx) hv
          · rcases Array.mem_or_eq_of_mem_setIfInBounds hx with hx | rfl
            · exact ht x v (.inr (.inl hx)) hv
            · exact hn v hv
          · exact ht x v (.inr (.inr hx)) hv
        · rcases hx with hx | hx | hx
          · exact ht x v (.inl hx) hv
          · exact ht x v (.inr (.inl hx)) hv
          · rcases Array.mem_or_eq_of_mem_setIfInBounds hx with hx | rfl
            · exact ht x v (.inr (.inr hx)) hv
            · exact hn v hv

theorem declare_secure : Secure m declare fun _ _ => True := by
  refine (M.nextName_secure _).bind fun name _ _ _ _ => .get <| (nextFields_secure _).bind
    fun fields _ _ _ _ => ?_
  cases fields with
  | none => exact .throw _
  | some fields =>
    exact (M.onTypes_secure fun hs => addUser_in hs.types _).bind fun _ _ _ _ _ =>
      (M.defineConstant_secure _ (.plain rfl)).bind fun _ _ _ _ _ => defineFields_secure _ _ _

theorem run_secure (w : ObjectWord) : Secure m w.run fun _ _ => True := by
  cases w with
  | new => exact makeObject_secure
  | typeOf => exact M.pop_secure.bind fun _ _ _ _ _ => .get (M.push_secure (.plain rfl))
  | invoke f => exact call_secure f
  | struct => exact declare_secure
  | setHandler =>
    exact M.pop_secure.bind fun _ _ _ _ _ => (M.lift_secure _).bind fun t _ _ _ _ =>
      M.popWord_secure.bind fun _ _ _ _ hw => M.onTypes_secure fun hs => setHandler_in hs.types t hw
  | refcount => exact (M.peek_secure 0).bind fun _ _ _ _ _ => .get (M.push_secure (.plain rfl))

end ObjectWord

/-! ## State and host -/

theorem StateWord.popCell_secure : Secure m popCell fun _ _ => True :=
  M.popInt_secure.bind fun _ _ _ _ _ => (M.lift_secure _).weaken fun _ _ _ _ => trivial

theorem StateWord.run_secure (w : StateWord) : Secure m w.run fun _ _ => True := by
  cases w with
  | loadCell => exact popCell_secure.bind fun _ _ _ _ _ => .get (M.push_secure (.plain rfl))
  | storeCell =>
    exact popCell_secure.bind fun _ _ _ _ _ => M.popInt_secure.bind fun _ _ _ _ _ =>
      .modify fun hs => ⟨{ hs with }, .refl _⟩
  | loadFlag => exact popCell_secure.bind fun _ _ _ _ _ => .get (M.push_secure (.plain rfl))
  | storeFlag =>
    exact popCell_secure.bind fun _ _ _ _ _ => M.popFlag_secure.bind fun _ _ _ _ _ =>
      .modify fun hs => ⟨{ hs with }, .refl _⟩
  | debugLevel =>
    refine M.popInt_secure.bind fun _ _ _ _ _ => ?_
    split
    · exact .modify fun hs => ⟨{ hs with }, .refl _⟩
    · exact .throw _

theorem HostWord.run_secure (w : HostWord) : Secure m w.run fun f m' => f.In m'.heap := by
  cases w with
  | log =>
    exact M.pop_secure.bind fun _ _ _ _ _ => (Secure.modify fun hs => ⟨{ hs with }, .refl _⟩).bind
      fun _ _ _ _ _ => .pure fun _ => trivial
  | bump =>
    exact (Secure.modify fun hs => ⟨{ hs with }, .refl _⟩).bind fun _ _ _ _ _ => .get <|
      (M.push_secure (.plain rfl)).bind fun _ _ _ _ _ => .pure fun _ => trivial
  | boom => exact .throw _
  | boomAny => exact .throw _
  | boomText => exact M.popInt_secure.bind fun _ _ _ _ _ => .throw _
  | nested => exact M.popWord_secure.bind fun _ _ _ _ hw => .pure fun _ => ⟨hw, nofun⟩
  | attempt => exact M.popWord_secure.bind fun _ _ _ _ hw => .pure fun _ => ⟨hw, nofun⟩
  | exit => exact .pure fun _ => trivial
  | call => exact M.popWord_secure.bind fun _ _ _ _ hw => .pure fun _ => hw
  | interrupt =>
    exact (Secure.modify fun hs => ⟨{ hs with }, .refl _⟩).bind fun _ _ _ _ _ =>
      .pure fun _ => trivial

end ThreadedForth
