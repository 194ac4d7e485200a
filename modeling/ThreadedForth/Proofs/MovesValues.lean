/-
  The moves of words for values, operators and objects.
-/
import ThreadedForth.Proofs.Moves
import ThreadedForth.Proofs.StoreSteps

namespace ThreadedForth

variable {α β : Type} {L : Edit → Prop} {m : Machine} {hand : List Value}

/-- The values that a primitive hands on. -/
def Flow.values : Flow → List Value
  | call w => [.xt w]
  | nest w pending => .xt w :: pending.values
  | _ => []

/-- A value that is not counted refers to nothing. -/
theorem Value.refs_eq_nil {v : Value} (hv : v.isCounted = false) : v.refs = [] := by
  cases v <;> simp_all [Value.isCounted, Value.refs]

/-! ## Stacks -/

namespace StackWord

theorem pushSide_does (k : SideStack) {v : Value} (hv : v ∈ hand) :
    Does L m hand (pushSide k v) fun _ => [] := by
  refine .of_moves ?_
  cases k with
  | temp =>
    unfold pushSide side
    cases hp : m.temp.push v with
    | error e => exact .refl _ _
    | ok s =>
      obtain ⟨-, rfl⟩ := Stack.push_eq_ok hp
      refine .one (.temp fun x hx => ?_)
      rcases List.mem_cons.1 hx with rfl | hx
      · exact .inr hv
      · exact .inl hx
  | self =>
    unfold pushSide side
    cases hp : m.self.push v with
    | error e => exact .refl _ _
    | ok s =>
      obtain ⟨-, rfl⟩ := Stack.push_eq_ok hp
      refine .one (.self fun x hx => ?_)
      rcases List.mem_cons.1 hx with rfl | hx
      · exact .inr hv
      · exact .inl hx

theorem popSide_does (k : SideStack) : Does L m hand (popSide k) fun v => [v] := by
  cases k with
  | temp =>
    cases hp : m.temp.pop with
    | error e => exact .error (by simp only [popSide, side, hp]; rfl) (.refl _ _)
    | ok vs =>
      obtain ⟨v, s⟩ := vs
      obtain ⟨hi, -⟩ := Stack.pop_eq_ok hp
      refine .ok (by simp only [popSide, side, hp]; rfl) ?_
      refine .head (.stack (.inr (.inl (hi ▸ List.mem_cons_self)))) (.one (.temp fun x hx => .inl ?_))
      rw [hi]
      exact List.mem_cons_of_mem _ hx
  | self =>
    cases hp : m.self.pop with
    | error e => exact .error (by simp only [popSide, side, hp]; rfl) (.refl _ _)
    | ok vs =>
      obtain ⟨v, s⟩ := vs
      obtain ⟨hi, -⟩ := Stack.pop_eq_ok hp
      refine .ok (by simp only [popSide, side, hp]; rfl) ?_
      refine .head (.stack (.inr (.inr (hi ▸ List.mem_cons_self)))) (.one (.self fun x hx => .inl ?_))
      rw [hi]
      exact List.mem_cons_of_mem _ hx

theorem side_mem (k : SideStack) {v : Value} (hv : v ∈ (side m k).items) :
    v ∈ m.data.items ∨ v ∈ m.temp.items ∨ v ∈ m.self.items := by
  cases k with
  | temp => exact .inr (.inl hv)
  | self => exact .inr (.inr hv)

theorem ensureRoom_does (n : Nat) : Does L m hand (ensureRoom n) fun _ => [] :=
  .get (M.lift_does _)

theorem run_does (w : StackWord) : Does L m hand w.run fun _ => [] := by
  cases w with
  | dup => exact (M.peek_does 0).bind fun _ _ _ => M.push_does (by simp)
  | drop => exact M.pop_does.bind fun _ _ _ => .done rfl
  | swap =>
    exact M.pop_does.bind fun _ _ _ => M.pop_does.bind fun _ _ _ =>
      (M.push_does (by simp)).bind fun _ _ _ => M.push_does (by simp)
  | «over» => exact (M.peek_does 1).bind fun _ _ _ => M.push_does (by simp)
  | rot =>
    exact M.pop_does.bind fun _ _ _ => M.pop_does.bind fun _ _ _ => M.pop_does.bind fun _ _ _ =>
      (M.push_does (by simp)).bind fun _ _ _ => (M.push_does (by simp)).bind fun _ _ _ =>
        M.push_does (by simp)
  | nip => exact M.pop_does.bind fun _ _ _ => M.pop_does.bind fun _ _ _ => M.push_does (by simp)
  | tuck =>
    exact (ensureRoom_does 1).bind fun _ _ _ => M.pop_does.bind fun _ _ _ =>
      M.pop_does.bind fun _ _ _ => (M.push_does (by simp)).bind fun _ _ _ =>
        (M.push_does (by simp)).bind fun _ _ _ => M.push_does (by simp)
  | twoDup =>
    exact (M.peek_does 1).bind fun _ _ _ => (M.peek_does 0).bind fun _ _ _ =>
      (ensureRoom_does 2).bind fun _ _ _ => (M.push_does (by simp)).bind fun _ _ _ =>
        M.push_does (by simp)
  | twoDrop => exact M.pop_does.bind fun _ _ _ => M.pop_does.bind fun _ _ _ => .done rfl
  | pick =>
    exact M.popInt_does.bind fun _ _ _ => .get <| (M.lift_does _).bind fun _ _ _ =>
      (M.peek_does _).bind fun _ _ _ => M.push_does (by simp)
  | depth => exact .get (M.pushPlain_does rfl)
  | clear => exact .modify (.one (.data nofun))
  | toReturn => exact M.popInt_does.bind fun _ _ _ => M.pushReturn_does _
  | fromReturn => exact M.popReturn_does.bind fun _ _ _ => M.pushPlain_does rfl
  | copyReturn => exact (M.peekReturn_does 0).bind fun _ _ _ => M.pushPlain_does rfl
  | toSide k => exact M.pop_does.bind fun _ _ _ => pushSide_does k (by simp)
  | fromSide k => exact (popSide_does k).bind fun _ _ _ => M.push_does (by simp)
  | copySide k =>
    refine .get <| (M.lift_does _).bind fun v m₁ hr => ?_
    obtain ⟨hr, rfl⟩ := M.lift_eq_ok hr
    unfold Stack.peek Stack.peek? at hr
    split at hr
    · rename_i hv
      cases hr
      exact .gain (.stack (side_mem k (List.mem_of_getElem? hv))) (M.push_does List.mem_cons_self)
    · cases hr

end StackWord

/-! ## Operators -/

/-- The sum of a pointer and a number points into the same word. -/
theorem Heap.moved_move {p : Pointer} {n : Int64} {v : Value} (hp : .ptr p ∈ hand)
    (hm : m.heap.moved p n = .ok v) : Move L m hand m (v :: hand) := by
  rw [Heap.moved_eq m.heap p n rfl] at hm
  split at hm
  · rename_i hr
    cases hm
    refine .offset hp ?_
    rwa [Int.toNat_of_nonneg (by omega)]
  · cases hm

theorem Heap.applyValues_move {a b v : Value} {op : Operator} (ha : a ∈ hand) (hb : b ∈ hand)
    (hr : m.heap.applyValues a b op = .ok v) : Move L m hand m (v :: hand) := by
  unfold Heap.applyValues at hr
  split at hr
  · unfold numberResult at hr
    cases hx : a.toFloat with
    | error e => simp [hx, Bind.bind, Except.bind] at hr
    | ok x =>
      cases hy : b.toFloat with
      | error e => simp [hx, hy, Bind.bind, Except.bind] at hr
      | ok y =>
        simp only [hx, hy, Bind.bind, Except.bind] at hr
        exact .plain (Value.refs_eq_nil (floatResult_plain hr))
  · split at hr
    · exact .plain (Value.refs_eq_nil (flagResult_plain hr))
    · split at hr
      · exact Heap.moved_move ha hr
      · exact Heap.moved_move ha hr
      · cases hr
    · split at hr
      · exact Heap.moved_move hb hr
      · cases hr
    · split at hr
      · split at hr
        · cases hr
          exact .plain rfl
        · cases hr
      · exact .plain (Value.refs_eq_nil (equalityResult_plain hr))
    · exact .plain (Value.refs_eq_nil (equalityResult_plain hr))
    · exact .plain (Value.refs_eq_nil (equalityResult_plain hr))
    · exact .plain (Value.refs_eq_nil (equalityResult_plain hr))
    · exact .plain (Value.refs_eq_nil (equalityResult_plain hr))
    · split at hr
      · unfold intLikeResult at hr
        cases hx : a.toInt with
        | error e => simp [hx, Bind.bind, Except.bind] at hr
        | ok x =>
          cases hy : b.toInt with
          | error e => simp [hx, hy, Bind.bind, Except.bind] at hr
          | ok y =>
            simp only [hx, hy, Bind.bind, Except.bind] at hr
            exact .plain (Value.refs_eq_nil (intResult_plain hr))
      · cases hr

theorem Heap.applyStrings_moves {h' : Heap} {a b v : Value} {op : Operator}
    (hr : m.heap.applyStrings a b op = .ok (v, h')) :
    Moves L m hand { m with heap := h' } (v :: hand) := by
  unfold Heap.applyStrings at hr
  split at hr
  · cases hr
    exact .one (.newObject (fun v hv => by simp [Obj.items] at hv) (Types.allows_of_record? rfl))
  · split at hr
    · split at hr
      · cases hr
        exact .one (.plain rfl)
      · split at hr
        · cases hr
          exact .one (.plain rfl)
        · cases hr
          exact .one (.plain rfl)
        · cases hr
    · cases hr

theorem Types.Handles.of_handler? {t : Types} {id : TypeId} {w : WordId}
    (hw : t.handler? id = some (.word w)) : t.Handles w := by
  obtain ⟨e, he, hw⟩ := Option.bind_eq_some_iff.1 hw
  refine ⟨e, ?_, hw⟩
  unfold Types.get? at he
  simp only at he
  split at he
  · exact .inl (Array.mem_of_getElem? he)
  · split at he
    · exact .inr (.inl (Array.mem_of_getElem? he))
    · exact .inr (.inr (Array.mem_of_getElem? he))

namespace Operator

/-- The values that the application of an operator gives. -/
def Dispatch.values : Dispatch → List Value
  | done v => [v]
  | run w _ => [.xt w]

theorem handlerOf?_handles {v : Value} {w : WordId} (hw : handlerOf? m v = some (.word w)) :
    m.types.Handles w := by
  cases v with
  | obj o => exact .of_handler? hw
  | _ => simp [handlerOf?] at hw

theorem handler?_handles {a b : Value} {w : WordId} (hw : handler? m a b = some (.word w)) :
    m.types.Handles w := by
  rcases Option.or_eq_some_iff.1 hw with hw | ⟨_, hw⟩
  · exact handlerOf?_handles hw
  · exact handlerOf?_handles hw

theorem takeResult_does (depth : Nat) : Does L m hand (takeResult depth) fun v => [v] :=
  .get (.ite M.pop_does (.throw _))

theorem handleStrings_does : Does L m hand handleStrings fun _ => [] := by
  refine M.pop_does.bind fun _ _ _ => (M.lift_does _).bind fun op _ _ => M.pop_does.bind
    fun b _ _ => M.pop_does.bind fun a m₃ _ => .get <| (M.lift_does _).bind fun vh m₄ hv => ?_
  obtain ⟨hr, rfl⟩ := M.lift_eq_ok hv
  obtain ⟨v, h'⟩ := vh
  -- the result comes into being together with the new heap
  have hm : ∀ K : List Value, Moves L m₄ K { m₄ with heap := h' } (v :: K) := fun K =>
    Heap.applyStrings_moves hr
  have hp : ∀ K : List Value, Does L { m₄ with heap := h' } (v :: K) (M.push v) fun _ => [] :=
    fun K => M.push_does List.mem_cons_self
  refine ⟨fun _ m' hb => ?_, fun _ m' hb => ?_⟩
  · exact ((hm _).trans ((hp _).1 _ _ hb)).tail (.drop fun x hx => List.mem_cons_of_mem _ hx)
  · obtain ⟨hand', h'⟩ := (hp _).2 _ _ hb
    exact ⟨hand', (hm _).trans h'⟩

theorem handleHost_does (h : HostHandler) :
    Does L m hand (handleHost h) fun w => w.toList.map .xt := by
  cases h with
  | const | exit =>
    exact M.pop_does.bind fun _ _ _ => M.pop_does.bind fun _ _ _ => M.pop_does.bind fun _ _ _ =>
      (M.pushPlain_does rfl).bind fun _ _ _ => .done rfl
  | call => exact (M.builtin_does _).bind fun _ _ _ => .pure (by simp)
  | broken => exact M.pop_does.bind fun _ _ _ => .done rfl

theorem handle_does {h : Handler} (hh : ∀ w, h = .word w → .xt w ∈ hand) :
    Does L m hand (handle h) fun w => w.toList.map .xt := by
  cases h with
  | strings => exact handleStrings_does.bind fun _ _ _ => .done rfl
  | host h => exact handleHost_does h
  | word w => exact .pure (by simpa using hh w rfl)

/-- The word of a handler may be taken in hand. -/
theorem handler?_move {a b : Value} {h : Handler} (hh : handler? m a b = some h) :
    ∃ v, Move L m hand m (v :: hand) ∧ ∀ w, h = .word w → v = .xt w := by
  cases h with
  | word w => exact ⟨.xt w, .handler (handler?_handles hh), fun x hx => by cases hx; rfl⟩
  | strings => exact ⟨.int 0, .plain rfl, nofun⟩
  | host h => exact ⟨.int 0, .plain rfl, nofun⟩

theorem dispatch_does {a b : Value} (ha : a ∈ hand) (hb : b ∈ hand) (op : Operator) :
    Does L m hand (dispatch a b op) Dispatch.values := by
  refine .get ?_
  cases hh : handler? m a b with
  | none =>
    refine (M.lift_does _).bind fun v m₁ hr => ?_
    obtain ⟨hr, rfl⟩ := M.lift_eq_ok hr
    exact .gain (Heap.applyValues_move ha hb hr) (.pure (by simp [Dispatch.values]))
  | some h =>
    obtain ⟨x, hx, hw⟩ : ∃ x, Move L m hand m (x :: hand) ∧ _ := handler?_move hh
    refine .gain hx <| (M.push_does (by simp [ha])).bind fun _ _ _ =>
      (M.push_does (by simp [hb])).bind fun _ _ _ => (M.pushPlain_does rfl).bind fun _ m₃ _ =>
        (handle_does fun w he => ?_).bind fun w _ _ => ?_
    · simp [hw w he]
    · cases w with
      | none => exact (takeResult_does _).bind fun _ _ _ => .pure (by simp [Dispatch.values])
      | some w => exact .pure (by simp [Dispatch.values])

theorem useResult_does {v : Value} {after : After} (depth : Nat) (hv : v ∈ hand)
    (hp : ∀ u ∈ (Pending.handler depth after).values, u ∈ hand)
    (hL : ∀ p, after = .store p → L (.store p)) :
    Does L m hand (useResult v after) fun _ => [] := by
  cases after with
  | push => exact M.push_does hv
  | select a b =>
    refine (M.lift_does _).bind fun _ _ _ => .ite (M.push_does ?_) (M.push_does ?_)
    · exact hp a (by simp [Pending.values])
    · exact hp b (by simp [Pending.values])
  | store p =>
    exact .get (M.changeWord_does fun _ hx =>
      .one (.store (hp _ (by simp [Pending.values])) hv hx (hL p rfl)))

theorem conclude_does {after : After} {depth : Nat}
    (hp : ∀ u ∈ (Pending.handler depth after).values, u ∈ hand)
    (hL : ∀ p, after = .store p → L (.store p)) :
    Does L m hand (conclude depth after) fun _ => [] :=
  (takeResult_does depth).bind fun _ _ _ =>
    useResult_does depth (by simp) (fun u hu => by simp [hp u hu]) hL

theorem applyThen_does {a b : Value} {after : After} (ha : a ∈ hand) (hb : b ∈ hand)
    (hp : ∀ depth, ∀ u ∈ (Pending.handler depth after).values, u ∈ hand)
    (hL : ∀ p, after = .store p → L (.store p)) (op : Operator) :
    Does L m hand (applyThen a b op after) Flow.values := by
  refine (dispatch_does ha hb op).bind fun d _ _ => ?_
  cases d with
  | done v =>
    exact (useResult_does 0 (by simp [Dispatch.values])
      (fun u hu => by simp [hp 0 u hu]) hL).bind fun _ _ _ => .done rfl
  | run w depth =>
    refine .pure fun u hu => ?_
    rcases List.mem_cons.1 hu with rfl | hu
    · simp [Dispatch.values]
    · simp [hp depth u hu]

/-- Nothing is kept for a result that is only pushed. -/
theorem push_values_mem (depth : Nat) : ∀ u ∈ (Pending.handler depth .push).values, u ∈ hand := by
  intro u hu
  simp [Pending.values] at hu

end Operator

theorem ArithmeticWord.run_does (w : ArithmeticWord) : Does L m hand w.run Flow.values := by
  cases w with
  | apply op =>
    exact M.pop_does.bind fun _ _ _ => M.pop_does.bind fun _ _ _ =>
      Operator.applyThen_does (by simp) (by simp) Operator.push_values_mem (fun _ h => by cases h) op
  | select op =>
    refine M.pop_does.bind fun b _ _ => M.pop_does.bind fun a _ _ =>
      Operator.applyThen_does (by simp) (by simp) (fun _ u hu => ?_) (fun _ h => by cases h) op
    simp only [Pending.values, List.mem_cons, List.not_mem_nil, or_false] at hu
    rcases hu with rfl | rfl <;> simp
  | increment =>
    exact M.pop_does.bind fun _ _ _ => .gain (.plain (v := .int 1) rfl)
      (Operator.applyThen_does (by simp) (by simp) Operator.push_values_mem (fun _ h => by cases h) _)
  | decrement =>
    exact M.pop_does.bind fun _ _ _ => .gain (.plain (v := .int 1) rfl)
      (Operator.applyThen_does (by simp) (by simp) Operator.push_values_mem (fun _ h => by cases h) _)
  | negate =>
    refine M.pop_does.bind fun v _ _ => ?_
    cases v with
    | float x => exact (M.pushPlain_does rfl).bind fun _ _ _ => .done rfl
    | _ =>
      exact (M.lift_does _).bind fun _ _ _ => (M.pushPlain_does rfl).bind fun _ _ _ => .done rfl
  | abs =>
    refine M.pop_does.bind fun v _ _ => ?_
    cases v with
    | float x => exact (M.pushPlain_does rfl).bind fun _ _ _ => .done rfl
    | _ =>
      exact (M.lift_does _).bind fun _ _ _ => (M.pushPlain_does rfl).bind fun _ _ _ => .done rfl
  | not => exact M.popFlag_does.bind fun _ _ _ => (M.pushPlain_does rfl).bind fun _ _ _ => .done rfl
  | invert => exact M.popInt_does.bind fun _ _ _ => (M.pushPlain_does rfl).bind fun _ _ _ => .done rfl
  | flag b => exact (M.pushPlain_does rfl).bind fun _ _ _ => .done rfl

theorem onFloat_does (f : Float → Float) : Does L m hand (onFloat f) fun _ => [] :=
  M.pop_does.bind fun _ _ _ => (M.lift_does _).bind fun _ _ _ => M.pushPlain_does rfl

theorem FloatWord.run_does (w : FloatWord) : Does L m hand w.run fun _ => [] := by
  cases w with
  | toInt =>
    refine M.pop_does.bind fun v _ _ => ?_
    cases v with
    | float x => exact M.pushPlain_does rfl
    | _ => exact (M.lift_does _).bind fun _ _ _ => M.pushPlain_does rfl
  | _ => exact onFloat_does _

theorem putSpaces_does : ∀ (n : Nat) {m : Machine} {hand : List Value},
    Does L m hand (putSpaces n) fun _ => []
  | 0, _, _ => .done rfl
  | n + 1, _, _ => (M.put_does _).bind fun _ _ _ => putSpaces_does n

theorem putByte_does (b : UInt8) : Does L m hand (putByte b) fun _ => [] := by
  refine .quiet ?_
  unfold putByte
  cases m.output.pushBytes [b] <;> rfl

theorem OutputWord.run_does (w : OutputWord) : Does L m hand w.run fun _ => [] := by
  cases w with
  | print => exact M.pop_does.bind fun _ _ _ => .get (M.write_does _)
  | printFloat =>
    exact M.pop_does.bind fun _ _ _ => (M.lift_does _).bind fun _ _ _ => M.write_does _
  | printStack => exact .get (M.write_does _)
  | emit => exact M.pop_does.bind fun _ _ _ => (M.lift_does _).bind fun _ _ _ => putByte_does _
  | newline => exact M.put_does _
  | space => exact M.put_does _
  | spaces => exact M.popInt_does.bind fun _ _ _ => putSpaces_does _
  | type => exact M.pop_does.bind fun _ _ _ => .get (M.put_does _)
  | words => exact .get (M.write_does _)
  | see => exact (M.nextWord_does _).bind fun _ _ _ => .get (M.put_does _)

/-! ## Objects -/

namespace Store

/-- The moves of a computation on the part of a machine that functions of objects work on. -/
abbrev Does (L : Edit → Prop) (m : Machine) (hand : List Value) (act : StoreM α)
    (G : α → List Value) : Prop :=
  ThreadedForth.Does L m hand (M.onStore act) G

variable {address : UInt64} {G : α → List Value} {G' : β → List Value}

theorem Does.bind {x : StoreM α} {f : α → StoreM β} (hx : Does L m hand x G)
    (hf : ∀ a m₁, M.onStore x m = .ok a m₁ → Does L m₁ (G a ++ hand) (f a) G') :
    Does L m hand (x >>= f) G' := by
  unfold Does
  rw [M.onStore_bind]
  exact ThreadedForth.Does.bind hx hf

theorem heap_onStore {x : StoreM α} (hx : Reads x) {a : α} {m₁ : Machine}
    (h : M.onStore x m = .ok a m₁) : m₁.heap = m.heap := by
  have hs := hx ⟨m.heap, m.data⟩
  unfold M.onStore at h
  cases hr : x ⟨m.heap, m.data⟩ with
  | ok b s =>
    rw [hr] at h hs
    cases h
    exact hs
  | error e s =>
    rw [hr] at h
    cases h

/-- A step that only reads may come first. -/
theorem Does.bind_reads {x : StoreM α} {f : α → StoreM β} (hx : Does L m hand x G) (hr : Reads x)
    (hf : ∀ a m₁, m₁.heap = m.heap → Does L m₁ (G a ++ hand) (f a) G') :
    Does L m hand (x >>= f) G' :=
  hx.bind fun a m₁ h => hf a m₁ (heap_onStore hr h)

theorem Does.throw (e : Error) : Does L m hand (MonadExcept.throw e) G :=
  ThreadedForth.Does.throw e

theorem Does.get {f : Store → StoreM α} (h : Does L m hand (f ⟨m.heap, m.data⟩) G) :
    Does L m hand (MonadState.get >>= f) G := h

theorem pop_does : Does L m hand pop fun v => [v] := by
  rw [Does, M.onStore_pop]
  exact M.pop_does

theorem push_does {v : Value} (hv : v ∈ hand) : Does L m hand (push v) fun _ => [] := by
  rw [Does, M.onStore_push]
  exact M.push_does hv

theorem pushPlain_does {v : Value} (hv : v.refs = []) : Does L m hand (push v) fun _ => [] := by
  rw [Does, M.onStore_push]
  exact M.pushPlain_does hv

theorem lift_does (r : Except Error α) : Does L m hand (lift r) fun _ => [] := by
  rw [Does, M.onStore_lift]
  exact M.lift_does r

theorem popInt_does : Does L m hand popInt fun _ => [] :=
  pop_does.bind fun _ _ _ => lift_does _

theorem replace_does {o : ObjId} {x : Obj} (ho : InHand hand (.object o))
    (hx : ∀ v ∈ x.items, v ∈ hand) (hr : x.record? = (m.heap.object o).record?) :
    Does L m hand (replace o x) fun _ => [] :=
  .ok rfl (.one (.setObject ho (fun v hv => .inr (hx v hv)) hr))

theorem pushAll_does : ∀ {m : Machine} {hand vs : List Value}, (∀ v ∈ vs, v ∈ hand) →
    Does L m hand (pushAll vs) fun _ => []
  | _, _, [], _ => .done rfl
  | _, _, _ :: _, h =>
    (push_does (h _ List.mem_cons_self)).bind fun _ _ _ =>
      pushAll_does fun v hv => h v (List.mem_cons_of_mem _ hv)

theorem pushNew_does {x : Obj} (hx : ∀ v ∈ x.items, v ∈ hand) (ht : m.types.Allows x) :
    Does L m hand (pushNew x) fun _ => [] := by
  rw [Does, onStore_pushNew]
  exact M.pushNew_does hx ht

theorem text_items (s : String) : ∀ v ∈ (Obj.text s).items, v ∈ hand :=
  fun v hv => by simp [Obj.items] at hv

/-- Values that refer to nothing may be taken in hand together. -/
theorem plain_moves : ∀ vs : List Value, (∀ v ∈ vs, v.refs = []) → Moves L m hand m (vs ++ hand)
  | [], _ => .refl _ _
  | v :: vs, h =>
    (plain_moves vs fun u hu => h u (List.mem_cons_of_mem _ hu)).tail
      (.plain (h v List.mem_cons_self))

theorem invokeText_does {o : ObjId} (ho : InHand hand (.object o)) {text : String}
    (hx : m.heap.object o = .text text) (f : Function) :
    Does L m hand (invokeText o text f) fun _ => [] := by
  have hr : ∀ {m' : Machine} (s : String), m'.heap = m.heap →
      (Obj.text s).record? = (m'.heap.object o).record? := fun _ hm => by rw [hm, hx]; rfl
  have hmore : ∀ hand' : List Value, InHand (hand' ++ hand) (.object o) := fun hand' =>
    ho.mono fun v hv => List.mem_append_right _ hv
  cases f with
  | size => exact pushPlain_does rfl
  | hash => exact pushPlain_does rfl
  | get =>
    exact popInt_does.bind fun _ _ _ => (lift_does _).bind fun _ _ _ => pushPlain_does rfl
  | set =>
    refine popInt_does.bind_reads .popInt fun _ _ h₁ => pop_does.bind_reads .pop fun _ _ h₂ =>
      (lift_does _).bind_reads (.lift _) fun _ _ h₃ =>
        (lift_does _).bind_reads (.lift _) fun i _ h₄ => ?_
    split
    · exact replace_does (hmore [_]) (text_items _) (hr _ (h₄.trans (h₃.trans (h₂.trans h₁))))
    · exact .throw _
  | contains =>
    exact pop_does.bind fun _ _ _ => .get <| (lift_does _).bind fun _ _ _ => pushPlain_does rfl
  | indexOf =>
    refine pop_does.bind fun _ _ _ => .get <| (lift_does _).bind fun _ _ _ => ?_
    split
    · exact pushPlain_does rfl
    · exact pushPlain_does rfl
  | subRange =>
    refine popInt_does.bind fun _ _ _ => popInt_does.bind fun _ _ _ =>
      (lift_does _).bind fun ij _ _ => ?_
    obtain ⟨i, j⟩ := ij
    dsimp only
    split
    · exact pushNew_does (text_items _) (Types.allows_of_record? rfl)
    · exact .throw _
  | deconstruct =>
    refine ThreadedForth.Does.gains (plain_moves ((Utf8.bytes text).map .char) fun v hv => ?_)
      ((pushAll_does fun v hv => List.mem_append_left _ hv).bind fun _ _ _ => pushPlain_does rfl)
    obtain ⟨c, -, rfl⟩ := List.mem_map.1 hv
    rfl
  | append =>
    exact pop_does.bind_reads .pop fun _ _ h =>
      .get (replace_does (hmore [_]) (text_items _) (hr _ h))
  | implements => exact popInt_does.bind fun _ _ _ => pushPlain_does rfl
  | close | read | readLine | readChar | eof => exact .throw _

theorem setItems_items {x : Obj} {items : Array Value} (hi : ∀ v ∈ items, v ∈ hand) :
    ∀ v ∈ (x.setItems items).items, v ∈ hand := by
  cases x with
  | text s => exact text_items s
  | array _ _ => exact hi
  | record _ _ _ _ => exact hi

/-- A record keeps its number of values. -/
theorem setItems_record? {x : Obj} {items : Array Value} (hs : items.size = x.items.size) :
    (x.setItems items).record? = x.record? := by
  cases x with
  | text _ => rfl
  | array _ _ => rfl
  | record t d _ _ =>
    show some (t, d, items.size) = _
    rw [hs]
    rfl

theorem invokeItems_does {o : ObjId} (ho : InHand hand (.object o)) {x : Obj}
    (hx : m.heap.object o = x) (hi : ∀ v ∈ x.items, v ∈ hand) (f : Function) :
    Does L m hand (invokeItems address o x x.items f) fun _ => [] := by
  cases f with
  | size => exact pushPlain_does rfl
  | hash => exact pushPlain_does rfl
  | get =>
    refine popInt_does.bind fun _ _ _ => (lift_does _).bind fun i _ _ => ?_
    cases h : x.items[i]? with
    | none => exact pushPlain_does rfl
    | some v => exact push_does (hi v (Array.mem_of_getElem? h))
  | set =>
    refine popInt_does.bind_reads .popInt fun _ _ h₁ => pop_does.bind_reads .pop fun v _ h₂ =>
      (lift_does _).bind_reads (.lift _) fun i _ h₃ =>
        replace_does (ho.mono fun v hv => by simp [hv]) (setItems_items fun u hu => ?_) ?_
    · rcases Array.mem_or_eq_of_mem_setIfInBounds hu with hu | rfl
      · simp [hi u hu]
      · simp
    · rw [h₃.trans (h₂.trans h₁), hx]
      exact setItems_record? Array.size_setIfInBounds
  | contains => exact pop_does.bind fun _ _ _ => .get (pushPlain_does rfl)
  | indexOf =>
    refine pop_does.bind fun _ _ _ => .get ?_
    dsimp only
    split
    · exact pushPlain_does rfl
    · exact pushPlain_does rfl
  | deconstruct =>
    exact (pushAll_does fun v hv => hi v (Array.mem_toList_iff.1 hv)).bind fun _ _ _ =>
      pushPlain_does rfl
  | implements => exact popInt_does.bind fun _ _ _ => pushPlain_does rfl
  | subRange | append | close | read | readLine | readChar | eof => exact .throw _

theorem invokeArray_does {o : ObjId} (ho : InHand hand (.object o)) {items : Array Value} {v : Bool}
    (hx : m.heap.object o = .array items v) (hi : ∀ v ∈ items, v ∈ hand) (f : Function) :
    Does L m hand (invokeArray address o (.array items v) items f) fun _ => [] := by
  have h : Does L m hand (invokeItems address o (.array items v) items f) _ :=
    invokeItems_does ho hx hi f
  cases f with
  | subRange =>
    refine popInt_does.bind fun _ _ _ => popInt_does.bind fun _ _ _ =>
      (lift_does _).bind fun ij _ _ => pushNew_does (fun v hv => ?_) (Types.allows_of_record? rfl)
    have hv : v ∈ items.extract ij.1 ij.2 := hv
    have hv : v ∈ items.toList.extract ij.1 ij.2 := by
      rw [← Array.toList_extract]
      exact Array.mem_toList_iff.2 hv
    exact hi v (Array.mem_toList_iff.1 (List.mem_of_mem_drop (List.mem_of_mem_take hv)))
  | append =>
    refine pop_does.bind_reads .pop fun v _ hm => replace_does (ho.mono fun v hv => by simp [hv])
      (setItems_items fun u hu => ?_) (by rw [hm, hx]; rfl)
    rcases Array.mem_push.1 hu with hu | rfl
    · simp [hi u hu]
    · simp
  | _ => exact h

/-- The values that an object holds may be taken in hand together. -/
theorem items_moves {o : ObjId} (ho : InHand hand (.object o)) :
    ∀ vs : List Value, (∀ v ∈ vs, v ∈ (m.heap.object o).items) → Moves L m hand m (vs ++ hand)
  | [], _ => .refl _ _
  | v :: vs, h =>
    (items_moves ho vs fun u hu => h u (List.mem_cons_of_mem _ hu)).tail
      (.item (ho.mono fun _ hu => List.mem_append_right _ hu) (h v List.mem_cons_self))

theorem invoke_does {o : ObjId} (ho : InHand hand (.object o)) (f : Function) :
    Does L m hand (invoke address o f) fun _ => [] := by
  have hh : InHand ((m.heap.object o).items.toList ++ hand) (.object o) :=
    ho.mono fun v hv => List.mem_append_right _ hv
  have hi : ∀ v ∈ (m.heap.object o).items, v ∈ (m.heap.object o).items.toList ++ hand :=
    fun v hv => List.mem_append_left _ (Array.mem_toList_iff.2 hv)
  refine ThreadedForth.Does.gains (items_moves ho _ fun v hv => Array.mem_toList_iff.1 hv)
    (Does.get ?_)
  cases hx : m.heap.object o with
  | text s =>
    rw [hx] at hh
    exact invokeText_does hh hx f
  | array items v =>
    rw [hx] at hh hi
    exact invokeArray_does hh hx hi f
  | record t d items v =>
    rw [hx] at hh hi
    exact invokeItems_does hh hx hi f

end Store

namespace ObjectWord

theorem make_does (t : TypeId) (maker : Maker) : Does L m hand (make t maker) fun _ => [] := by
  have hzero : ∀ (n : Nat) (m' : Machine) (hand' : List Value),
      Does L m' hand' (M.pushNew (.ofItems (Array.replicate n (.int 0)))) fun _ => [] := by
    intro n m' hand'
    refine .gain (.plain (v := .int 0) rfl)
      (M.pushNew_does (fun v hv => ?_) (Types.allows_of_record? rfl))
    rw [Array.eq_of_mem_replicate hv]
    exact List.mem_cons_self
  cases maker with
  | string => exact M.pushNew_does (Store.text_items _) (Types.allows_of_record? rfl)
  | array =>
    refine M.popInt_does.bind fun k m₁ _ => .ite ((Does.throw (G := fun _ => []) _).bind
      fun _ m₂ _ => ?_) ?_
    all_goals
      exact .ite ((Does.throw (G := fun _ => []) _).bind fun _ _ _ => hzero _ _ _) (hzero _ _ _)
  | host refuses =>
    cases refuses with
    | false => exact .get (M.pushNew_does (Store.text_items _) (Types.allows_of_record? rfl))
    | true => exact .throw _

theorem makeObject_does : Does L m hand makeObject fun _ => [] := by
  have hrecord : ∀ (t : TypeId) (d : Declaration) (m' : Machine) (hand' : List Value),
      m'.types.Declares t d → Does L m' hand' (M.pushNew (.ofDeclaration t d)) fun _ => [] := by
    intro t d m' hand' hd
    refine .gain (.plain (v := .int 0) rfl) (M.pushNew_does (fun v hv => ?_) ?_)
    · rw [Array.eq_of_mem_replicate hv]
      exact List.mem_cons_self
    · rintro _ _ n hn
      cases hn
      exact ⟨hd, Array.size_replicate⟩
  refine M.pop_does.bind fun _ _ _ => (M.lift_does _).bind fun t m₁ _ => .get ?_
  refine .ite ((Does.throw (G := fun _ => []) _).bind fun _ _ h => nomatch h) ?_
  cases he : m₁.types.get? t with
  | none => exact .throw _
  | some e =>
    obtain ⟨name, sort⟩ := e
    cases sort with
    | value => exact .throw _
    | object maker _ => exact make_does _ _
    | user d h => exact hrecord _ _ _ _ ⟨name, h, he⟩

theorem call_does (f : Function) : Does L m hand (call f) fun _ => [] := by
  refine M.pop_does.bind fun v _ _ => (M.lift_does _).bind fun o m₂ ho => .get ?_
  refine .ite (Store.invoke_does ?_ f) (.throw _)
  obtain ⟨ho, -⟩ := M.lift_eq_ok ho
  cases v with
  | obj o' =>
    obtain rfl : o' = o := by simpa [Value.toObject] using ho
    exact .obj (by simp)
  | _ => simp [Value.toObject] at ho

theorem nextFields_does : ∀ (n : Nat) {m : Machine} {hand : List Value},
    Does L m hand (nextFields n) fun _ => []
  | 0, _, _ => .done rfl
  | n + 1, _, _ => by
    refine M.nextToken_does.bind fun t _ _ => ?_
    split
    · exact .done rfl
    · exact .done rfl
    · exact (nextFields_does n).bind fun _ _ _ => .done rfl

theorem defineFields_does (name : String) : ∀ (i : Nat) (fields : List String) {m : Machine}
    {hand : List Value}, Does L m hand (defineFields name i fields) fun _ => []
  | _, [], _, _ => .done rfl
  | i, _ :: rest, _, _ =>
    (M.definePlain_does _ rfl).bind fun _ _ _ => defineFields_does name (i + 1) rest

theorem handles_addUser {t : Types} {d : Declaration} {w : WordId} (h : (t.addUser d).2.Handles w) :
    t.Handles w := by
  unfold Types.addUser at h
  split at h
  · exact h
  · obtain ⟨e, he | he | he, hw⟩ := h
    · exact ⟨e, .inl he, hw⟩
    · exact ⟨e, .inr (.inl he), hw⟩
    · rcases Array.mem_push.1 he with he | rfl
      · exact ⟨e, .inr (.inr he), hw⟩
      · simp [TypeEntry.handler?] at hw

theorem sorted_addUser {t : Types} (d : Declaration) (h : t.Sorted) : (t.addUser d).2.Sorted := by
  unfold Types.addUser
  split
  · exact h
  · exact h

/-- A changed entry takes the place of one with the same base type. -/
theorem mem_setEntry {t : Types} {id : TypeId} {e x : TypeEntry}
    (hx : x ∈ (t.setEntry id e).values ∨ x ∈ (t.setEntry id e).objects ∨
      x ∈ (t.setEntry id e).users) :
    x = e ∨ x ∈ t.values ∨ x ∈ t.objects ∨ x ∈ t.users := by
  unfold Types.setEntry at hx
  simp only at hx
  split at hx
  · rcases hx with hx | hx | hx
    · rcases Array.mem_or_eq_of_mem_setIfInBounds hx with hx | rfl
      · exact .inr (.inl hx)
      · exact .inl rfl
    · exact .inr (.inr (.inl hx))
    · exact .inr (.inr (.inr hx))
  · split at hx
    · rcases hx with hx | hx | hx
      · exact .inr (.inl hx)
      · rcases Array.mem_or_eq_of_mem_setIfInBounds hx with hx | rfl
        · exact .inr (.inr (.inl hx))
        · exact .inl rfl
      · exact .inr (.inr (.inr hx))
    · rcases hx with hx | hx | hx
      · exact .inr (.inl hx)
      · exact .inr (.inr (.inl hx))
      · rcases Array.mem_or_eq_of_mem_setIfInBounds hx with hx | rfl
        · exact .inr (.inr (.inr hx))
        · exact .inl rfl

theorem handler?_setHandler {e e' : TypeEntry} {h : Handler} (he : e.setHandler h = .ok e') :
    e'.handler? = some h ∧ e.sort ≠ .value := by
  unfold TypeEntry.setHandler at he
  split at he
  · cases he
  · rename_i hs
    cases he
    exact ⟨rfl, by simp [hs]⟩
  · rename_i hs
    cases he
    exact ⟨rfl, by simp [hs]⟩

theorem handles_setHandler {t : Types} {id : TypeId} {w v : WordId}
    (h : (t.setHandler id (.word w)).2.Handles v) : t.Handles v ∨ v = w := by
  unfold Types.setHandler at h
  split at h
  · exact .inl h
  · split at h
    · exact .inl h
    · rename_i e' he'
      obtain ⟨x, hx, hv⟩ := h
      rcases mem_setEntry hx with rfl | hx
      · rw [(handler?_setHandler he').1] at hv
        cases hv
        exact .inr rfl
      · exact .inl ⟨x, hx, hv⟩

theorem sorted_setHandler {t : Types} {id : TypeId} {w : WordId} (h : t.Sorted) :
    (t.setHandler id (.word w)).2.Sorted := by
  unfold Types.setHandler
  split
  · exact h
  · rename_i e he
    split
    · exact h
    · rename_i e' he'
      intro x hx
      unfold Types.setEntry at hx
      simp only at hx
      split at hx
      · rename_i hb
        simp only [Types.get?, hb, if_true] at he
        exact absurd (h e (Array.mem_of_getElem? he)) (handler?_setHandler he').2
      · split at hx
        · exact h x hx
        · exact h x hx

/-- A declared type is there to stay, whatever is asked of the registry. -/
theorem declares_answer {t : Types} {id : TypeId} {d : Declaration} (h : t.Declares id d)
    (q : Types.Request) : (t.answer q).2.Declares id d := by
  obtain ⟨name, h, hid⟩ := h
  obtain ⟨⟨name', sort⟩, hid', hsame⟩ := Types.get?_answer hid q
  cases sort with
  | value => cases hsame
  | object maker h' => cases hsame
  | user d' h' =>
    cases hsame
    exact ⟨_, h', hid'⟩

theorem declare_does : Does L m hand declare fun _ => [] := by
  refine (M.nextName_does _).bind fun name _ _ => .get <| (nextFields_does _).bind
    fun fields _ _ => ?_
  cases fields with
  | none => exact .throw _
  | some fields =>
    exact (M.onTypes_does (fun _ h => .inl (handles_addUser h)) (sorted_addUser _)
      fun _ _ h => declares_answer h (.user _)).bind
        fun _ _ _ => (M.definePlain_does _ rfl).bind fun _ _ _ => defineFields_does _ _ _

theorem run_does (w : ObjectWord) : Does L m hand w.run fun _ => [] := by
  cases w with
  | new => exact makeObject_does
  | typeOf => exact M.pop_does.bind fun _ _ _ => .get (M.pushPlain_does rfl)
  | invoke f => exact call_does f
  | struct => exact declare_does
  | setHandler =>
    refine M.pop_does.bind fun _ _ _ => (M.lift_does _).bind fun t _ _ =>
      M.popWord_does.bind fun w _ _ => M.onTypes_does (fun v hv => ?_) sorted_setHandler
        fun _ _ h => declares_answer h (.handler _ _)
    rcases handles_setHandler hv with hv | rfl
    · exact .inl hv
    · exact .inr (.xt List.mem_cons_self)
  | refcount => exact (M.peek_does 0).bind fun _ _ _ => .get (M.pushPlain_does rfl)

end ObjectWord

/-! ## State and host -/

theorem StateWord.popCell_does : Does L m hand popCell fun _ => [] :=
  M.popInt_does.bind fun _ _ _ => M.lift_does _

theorem StateWord.run_does (w : StateWord) : Does L m hand w.run fun _ => [] := by
  cases w with
  | loadCell => exact popCell_does.bind fun _ _ _ => .get (M.pushPlain_does rfl)
  | storeCell =>
    exact popCell_does.bind fun _ _ _ => M.popInt_does.bind fun _ _ _ => .modify (.one (.other rfl))
  | loadFlag => exact popCell_does.bind fun _ _ _ => .get (M.pushPlain_does rfl)
  | storeFlag =>
    exact popCell_does.bind fun _ _ _ => M.popFlag_does.bind fun _ _ _ => .modify (.one (.other rfl))
  | debugLevel =>
    refine M.popInt_does.bind fun _ _ _ => ?_
    split
    · exact .modify (.one (.other rfl))
    · exact .throw _

theorem HostWord.run_does (w : HostWord) : Does L m hand w.run Flow.values := by
  cases w with
  | log =>
    exact M.pop_does.bind fun _ _ _ => (Does.modify (.one (.other rfl))).bind fun _ _ _ =>
      .done rfl
  | bump =>
    exact (Does.modify (.one (.other rfl))).bind fun _ _ _ => .get <|
      (M.pushPlain_does rfl).bind fun _ _ _ => .done rfl
  | boom => exact .throw _
  | boomAny => exact .throw _
  | boomText => exact M.popInt_does.bind fun _ _ _ => .throw _
  | nested => exact M.popWord_does.bind fun _ _ _ => .pure (by simp [Flow.values, Pending.values])
  | attempt => exact M.popWord_does.bind fun _ _ _ => .pure (by simp [Flow.values, Pending.values])
  | exit => exact .done rfl
  | call => exact M.popWord_does.bind fun _ _ _ => .pure (by simp [Flow.values])
  | interrupt => exact (Does.modify (.one (.other rfl))).bind fun _ _ _ => .done rfl

end ThreadedForth
