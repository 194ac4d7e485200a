/-
  What computations do with values and words, as moves of a few kinds.
-/
import ThreadedForth.Proofs.PointerArithmetic
import ThreadedForth.Proofs.Registry
import ThreadedForth.Proofs.SecureWords

namespace ThreadedForth

/-- A change of the body of a word. -/
inductive Edit where
  /-- The word under construction gets another element, or one is filled in. -/
  | build (w : WordId)
  /-- A value is stored where a pointer points. -/
  | store (p : Pointer)
  /-- The word created last gets more data slots. -/
  | extend (w : WordId)
  /-- The word created last gets an action: the elements of a body from an entry on. -/
  | action (w body : WordId) (entry : Nat)

/-- Some value in hand holds a reference. -/
def InHand (hand : List Value) (r : Ref) : Prop :=
  ∃ v ∈ hand, r ∈ v.refs

/-- An element made of what is in hand. -/
def Elem.From (hand : List Value) : Elem → Prop
  | lit v => v ∈ hand
  | e => ∀ r ∈ e.refs, InHand hand r

/-- A word that knows where its data is: one that pushes the address of it, and one with an action
    of its own. -/
def Word.HasData (w : Word) : Prop :=
  w.code = .ok (.native .dataAddress) ∨ ∃ body entry, w.code = .ok (.indirect body entry)

/-- The values that are kept until a nested run has ended. -/
def Pending.values : Pending → List Value
  | handler _ (.select a b) => [a, b]
  | handler _ (.store p) => [.ptr p]
  | _ => []

/-- The word handles operators for some type. -/
def Types.Handles (t : Types) (w : WordId) : Prop :=
  ∃ e, (e ∈ t.values ∨ e ∈ t.objects ∨ e ∈ t.users) ∧ e.handler? = some (.word w)

/-- No object type is registered among the value types. -/
def Types.Sorted (t : Types) : Prop :=
  ∀ e ∈ t.values, e.sort = .value

/-- What never changes about a record: its type, its declaration and how many values it holds. -/
def Obj.record? : Obj → Option (TypeId × Declaration × Nat)
  | text _ | array _ _ => none
  | record t d items _ => some (t, d, items.size)

/-- The type has been declared. -/
def Types.Declares (t : Types) (id : TypeId) (d : Declaration) : Prop :=
  ∃ name h, t.get? id = some ⟨name, .user d h⟩

/-- A record is of a type that has been declared, and has the fields of the declaration. -/
def Types.Allows (t : Types) (x : Obj) : Prop :=
  ∀ id d n, x.record? = some (id, d, n) → t.Declares id d ∧ n = d.fields.length

/-- Only records are subject to declarations. -/
theorem Types.allows_of_record? {t : Types} {x : Obj} (h : x.record? = none) : t.Allows x := by
  intro id d n hr
  rw [h] at hr
  cases hr

/-- The part of a machine that holds references. -/
structure Owned where
  data : Stack Value
  temp : Stack Value
  self : Stack Value
  heap : Heap
  dictionary : Dictionary
  types : Types
  compiler : Compiler
  frames : List Frame
  runs : List Run

namespace Machine

/-- The part of the machine that holds references. -/
def owned (m : Machine) : Owned :=
  ⟨m.data, m.temp, m.self, m.heap, m.dictionary, m.types, m.compiler, m.frames, m.runs⟩

theorem pendingRefs_eq (p : Pending) : pendingRefs p = p.values.flatMap Value.refs := by
  rcases p with _ | ⟨_, _ | _ | _⟩ | _ | _ <;> simp [pendingRefs, Pending.values, Value.refs]

end Machine

namespace Word

variable {w x : Word} {e : Elem} {i n : Nat} {v : Value}

theorem body_of_push (h : w.push e = .ok x) : x.body = w.body.push e := by
  unfold push at h
  split at h
  · cases h
    rfl
  · cases h

theorem body_of_poke (h : w.poke i e = .ok x) : x.body = w.body.setIfInBounds i e := by
  unfold poke at h
  split at h
  · split at h
    · cases h
      rfl
    · cases h
  · cases h

theorem body_of_store (h : w.store i v = .ok x) : x.body = w.body.setIfInBounds i (.lit v) := by
  unfold store at h
  split at h
  · cases h
    rfl
  · cases h

theorem body_of_expand (h : w.expand n = .ok x) :
    x.body = w.body ++ Array.replicate n (.lit (.int 0)) := by
  unfold expand at h
  split at h
  · cases h
    rfl
  · cases h

end Word

/-- A single move of a machine with some values in hand; `L` says which bodies may be changed. -/
inductive Move (L : Edit → Prop) : Machine → List Value → Machine → List Value → Prop
  /-- Values are dropped. -/
  | drop {m : Machine} {hand hand' : List Value} (h : ∀ v ∈ hand', v ∈ hand) :
    Move L m hand m hand'
  /-- A value that refers to nothing. -/
  | plain {m : Machine} {hand : List Value} {v : Value} (h : v.refs = []) :
    Move L m hand m (v :: hand)
  /-- A value from a stack. -/
  | stack {m : Machine} {hand : List Value} {v : Value}
    (h : v ∈ m.data.items ∨ v ∈ m.temp.items ∨ v ∈ m.self.items) : Move L m hand m (v :: hand)
  /-- A word that the machine or a value in hand refers to. -/
  | word {m : Machine} {hand : List Value} {w : WordId}
    (h : .word w ∈ m.roots ∨ InHand hand (.word w)) : Move L m hand m (.xt w :: hand)
  /-- A word that handles operators. -/
  | handler {m : Machine} {hand : List Value} {w : WordId} (h : m.types.Handles w) :
    Move L m hand m (.xt w :: hand)
  /-- The value in a data slot of a word. -/
  | slot {m : Machine} {hand : List Value} {w : WordId} {i : Nat} {v : Value}
    (h : InHand hand (.word w)) (hv : (m.heap.word w).body[i]? = some (.lit v)) :
    Move L m hand m (v :: hand)
  /-- A word that another one refers to. -/
  | link {m : Machine} {hand : List Value} {w x : WordId} (h : InHand hand (.word w))
    (hx : .word x ∈ (m.heap.word w).refs) : Move L m hand m (.xt x :: hand)
  /-- A value that an object holds. -/
  | item {m : Machine} {hand : List Value} {o : ObjId} {v : Value} (h : InHand hand (.object o))
    (hv : v ∈ (m.heap.object o).items) : Move L m hand m (v :: hand)
  /-- A pointer to the data of the running word. -/
  | address {m : Machine} {hand : List Value} {f : Frame} {rest : List Frame} {i : Nat} {t : TypeId}
    (hf : m.frames = f :: rest) (hc : (m.heap.word f.word).HasData) (hi : Addressable i) :
    Move L m hand m (.ptr ⟨f.word, i, t⟩ :: hand)
  /-- A pointer to another slot of the same word. -/
  | offset {m : Machine} {hand : List Value} {p : Pointer} {i : Nat} {t : TypeId}
    (h : .ptr p ∈ hand) (hi : Addressable i) :
    Move L m hand m (.ptr ⟨p.target, i, t⟩ :: hand)
  /-- A value that was kept for the end of a nested run. -/
  | operand {m : Machine} {hand : List Value} {r : Run} {v : Value} (hr : r ∈ m.runs)
    (hv : v ∈ r.pending.values) : Move L m hand m (v :: hand)
  /-- The word created last, if it is alive. -/
  | last {m : Machine} {hand : List Value} {w : WordId} (held : List Ref)
    (hw : m.compiler.last? = some w) (hh : ∀ r ∈ held, InHand hand r)
    (ha : m.heap.isAlive (held ++ m.roots) w = true) : Move L m hand m (.xt w :: hand)
  /-- Nothing that holds references changes. -/
  | other {m m' : Machine} {hand : List Value} (h : m'.owned = m.owned) : Move L m hand m' hand
  | data {m : Machine} {hand : List Value} {s : Stack Value}
    (h : ∀ v ∈ s.items, v ∈ m.data.items ∨ v ∈ hand) : Move L m hand { m with data := s } hand
  | temp {m : Machine} {hand : List Value} {s : Stack Value}
    (h : ∀ v ∈ s.items, v ∈ m.temp.items ∨ v ∈ hand) : Move L m hand { m with temp := s } hand
  | self {m : Machine} {hand : List Value} {s : Stack Value}
    (h : ∀ v ∈ s.items, v ∈ m.self.items ∨ v ∈ hand) : Move L m hand { m with self := s } hand
  /-- Words are entered and left. -/
  | calls {m : Machine} {hand : List Value} (fs : List Frame) (rs : List Run)
    (hf : ∀ f ∈ fs, (∃ g ∈ m.frames, g.word = f.word) ∨ InHand hand (.word f.word))
    (hr : ∀ r ∈ rs, ∀ v ∈ r.pending.values,
      (∃ q ∈ m.runs, v ∈ q.pending.values) ∨ v ∈ hand) :
    Move L m hand { m with frames := fs, runs := rs } hand
  | dictionary {m : Machine} {hand : List Value} {d : Dictionary}
    (h : ∀ e ∈ d.entries, e ∈ m.dictionary.entries ∨ InHand hand (.word e.2)) :
    Move L m hand { m with dictionary := d } hand
  | types {m : Machine} {hand : List Value} {t : Types}
    (h : ∀ w, t.Handles w → m.types.Handles w ∨ InHand hand (.word w))
    (hs : m.types.Sorted → t.Sorted) (hd : ∀ id d, m.types.Declares id d → t.Declares id d) :
    Move L m hand { m with types := t } hand
  /-- The compiler changes, but no word comes under construction. -/
  | compiler {m : Machine} {hand : List Value} {c : Compiler}
    (h : c.building? = none ∨ c.building? = m.compiler.building?) :
    Move L m hand { m with compiler := c } hand
  /-- A definition is opened. -/
  | start {m : Machine} {hand : List Value} (name : String) (mode : Mode) (depth : Nat) :
    Move L m hand { m with
      heap := (m.heap.addWord (.opened name)).2
      compiler := ⟨mode, some (m.heap.addWord (.opened name)).1,
        some (m.heap.addWord (.opened name)).1, depth⟩ } hand
  | newObject {m : Machine} {hand : List Value} {x : Obj} (h : ∀ v ∈ x.items, v ∈ hand)
    (ht : m.types.Allows x) :
    Move L m hand { m with heap := (m.heap.addObject x).2 } (.obj (m.heap.addObject x).1 :: hand)
  | setObject {m : Machine} {hand : List Value} {o : ObjId} {x : Obj}
    (ho : InHand hand (.object o))
    (h : ∀ v ∈ x.items, v ∈ (m.heap.object o).items ∨ v ∈ hand)
    (hr : x.record? = (m.heap.object o).record?) :
    Move L m hand { m with heap := m.heap.setObject o x } hand
  | newWord {m : Machine} {hand : List Value} {x : Word} (h : ∀ e ∈ x.body, e.From hand) :
    Move L m hand { m with heap := (m.heap.addWord x).2 } (.xt (m.heap.addWord x).1 :: hand)
  /-- The flags of a word change, and its body does not. -/
  | flags {m : Machine} {hand : List Value} {w : WordId} {x : Word}
    (h : x.body = (m.heap.word w).body) : Move L m hand { m with heap := m.heap.setWord w x } hand
  | build {m : Machine} {hand : List Value} {w : WordId} {e : Elem} {x : Word}
    (hw : m.compiler.building? = some w) (he : e.From hand)
    (hx : (m.heap.word w).push e = .ok x) (hL : L (.build w)) :
    Move L m hand { m with heap := m.heap.setWord w x } hand
  | patch {m : Machine} {hand : List Value} {w : WordId} {i : Nat} {v : Value} {x : Word}
    (hw : m.compiler.building? = some w) (hv : v ∈ hand)
    (hx : (m.heap.word w).poke i (.lit v) = .ok x) (hL : L (.build w)) :
    Move L m hand { m with heap := m.heap.setWord w x } hand
  | store {m : Machine} {hand : List Value} {p : Pointer} {v : Value} {x : Word}
    (hp : .ptr p ∈ hand) (hv : v ∈ hand) (hx : (m.heap.word p.target).store p.index v = .ok x)
    (hL : L (.store p)) : Move L m hand { m with heap := m.heap.setWord p.target x } hand
  | extend {m : Machine} {hand : List Value} {w : WordId} {v : Value} {x : Word}
    (hw : m.compiler.last? = some w) (hh : InHand hand (.word w)) (hv : v ∈ hand)
    (hx : (m.heap.word w).push (.lit v) = .ok x) (hL : L (.extend w)) :
    Move L m hand { m with heap := m.heap.setWord w x } hand
  | expand {m : Machine} {hand : List Value} {w : WordId} {n : Nat} {x : Word}
    (hw : m.compiler.last? = some w) (hh : InHand hand (.word w))
    (hx : (m.heap.word w).expand n = .ok x) (hL : L (.extend w)) :
    Move L m hand { m with heap := m.heap.setWord w x } hand
  | action {m : Machine} {hand : List Value} {w body : WordId} {entry : Nat} {x : Word}
    (hw : m.compiler.last? = some w) (hh : InHand hand (.word w)) (hb : InHand hand (.word body))
    (hx : (m.heap.word w).setCode (.indirect body entry) = .ok x) (hL : L (.action w body entry)) :
    Move L m hand { m with heap := m.heap.setWord w x } hand

/-- A sequence of moves. -/
inductive Moves (L : Edit → Prop) : Machine → List Value → Machine → List Value → Prop
  | refl (m : Machine) (hand : List Value) : Moves L m hand m hand
  | tail {m m₁ m' : Machine} {hand hand₁ hand' : List Value} (h : Moves L m hand m₁ hand₁)
    (ht : Move L m₁ hand₁ m' hand') : Moves L m hand m' hand'

namespace Moves

variable {L : Edit → Prop} {m m₁ m' : Machine} {hand hand₁ hand' : List Value}

theorem one (h : Move L m hand m' hand') : Moves L m hand m' hand' :=
  .tail (.refl m hand) h

theorem trans (h : Moves L m hand m₁ hand₁) (h' : Moves L m₁ hand₁ m' hand') :
    Moves L m hand m' hand' := by
  induction h' with
  | refl => exact h
  | tail _ ht ih => exact .tail (ih h) ht

theorem head (h : Move L m hand m₁ hand₁) (h' : Moves L m₁ hand₁ m' hand') :
    Moves L m hand m' hand' :=
  (one h).trans h'

end Moves

/-! ## Computations made of moves -/

variable {α β : Type} {L : Edit → Prop} {m : Machine} {hand : List Value}

theorem InHand.mono {hand' : List Value} {r : Ref} (h : InHand hand r) (hs : ∀ v ∈ hand, v ∈ hand') :
    InHand hand' r := by
  obtain ⟨v, hv, hr⟩ := h
  exact ⟨v, hs v hv, hr⟩

theorem InHand.xt {w : WordId} (h : .xt w ∈ hand) : InHand hand (.word w) :=
  ⟨_, h, List.mem_cons_self⟩

theorem InHand.ptr {p : Pointer} (h : .ptr p ∈ hand) : InHand hand (.word p.target) :=
  ⟨_, h, List.mem_cons_self⟩

theorem InHand.obj {o : ObjId} (h : .obj o ∈ hand) : InHand hand (.object o) :=
  ⟨_, h, List.mem_cons_self⟩

theorem Elem.From.call {w : WordId} (h : InHand hand (.word w)) : (Elem.call w).From hand := by
  intro r hr
  rw [List.mem_singleton.1 hr]
  exact h

/-- A computation that is made of moves.  If it succeeds, it leaves the values `G a` in hand besides
    those from before. -/
def Does (L : Edit → Prop) (m : Machine) (hand : List Value) (act : M α) (G : α → List Value) :
    Prop :=
  (∀ a m', act m = .ok a m' → Moves L m hand m' (G a ++ hand)) ∧
    ∀ e m', act m = .error e m' → ∃ hand', Moves L m hand m' hand'

namespace Does

variable {G : α → List Value} {G' : β → List Value}

theorem ok {act : M α} {a : α} {m' : Machine} (h : act m = .ok a m')
    (hm : Moves L m hand m' (G a ++ hand)) : Does L m hand act G := by
  refine ⟨fun b x hb => ?_, fun e x hb => ?_⟩
  · rw [h] at hb
    cases hb
    exact hm
  · rw [h] at hb
    cases hb

theorem error {act : M α} {e : Error} {m' : Machine} {hand' : List Value}
    (h : act m = .error e m') (hm : Moves L m hand m' hand') : Does L m hand act G := by
  refine ⟨fun b x hb => ?_, fun e x hb => ?_⟩
  · rw [h] at hb
    cases hb
  · rw [h] at hb
    cases hb
    exact ⟨hand', hm⟩

theorem pure {a : α} (h : ∀ v ∈ G a, v ∈ hand) : Does L m hand (Pure.pure a) G := by
  refine .ok rfl (.one (.drop fun v hv => ?_))
  rcases List.mem_append.1 hv with hv | hv
  · exact h v hv
  · exact hv

/-- A computation that ends with nothing new in hand. -/
theorem done {a : α} (h : G a = []) : Does L m hand (Pure.pure a) G :=
  .pure (by simp [h])

theorem throw (e : Error) : Does L m hand (MonadExcept.throw e) G :=
  .error rfl (.refl _ _)

theorem bind {x : M α} {f : α → M β} (hx : Does L m hand x G)
    (hf : ∀ a m₁, x m = .ok a m₁ → Does L m₁ (G a ++ hand) (f a) G') :
    Does L m hand (x >>= f) G' := by
  obtain ⟨hok, herr⟩ := hx
  cases hr : x m with
  | error e m₁ =>
    refine ⟨fun b m' hb => ?_, fun e' m' hb => ?_⟩
    · rw [M.bind_error hr] at hb
      cases hb
    · rw [M.bind_error hr] at hb
      cases hb
      exact herr _ _ hr
  | ok a m₁ =>
    obtain ⟨hok', herr'⟩ := hf a m₁ hr
    refine ⟨fun b m' hb => ?_, fun e' m' hb => ?_⟩
    · rw [M.bind_ok hr] at hb
      refine ((hok a m₁ hr).trans (hok' b m' hb)).tail (.drop fun v hv => ?_)
      simp only [List.mem_append] at hv ⊢
      rcases hv with hv | hv
      · exact .inl hv
      · exact .inr (.inr hv)
    · rw [M.bind_ok hr] at hb
      obtain ⟨hand', h'⟩ := herr' e' m' hb
      exact ⟨hand', (hok a m₁ hr).trans h'⟩

theorem get {f : Machine → M α} (h : Does L m hand (f m) G) :
    Does L m hand (MonadState.get >>= f) G := h

theorem ite {c : Prop} [Decidable c] {x y : M α} (hx : Does L m hand x G)
    (hy : Does L m hand y G) : Does L m hand (if c then x else y) G := by
  split
  · exact hx
  · exact hy

/-- Values may be taken in hand first. -/
theorem gains {vs : List Value} {act : M α} (h : Moves L m hand m (vs ++ hand))
    (ha : Does L m (vs ++ hand) act G) : Does L m hand act G := by
  obtain ⟨hok, herr⟩ := ha
  refine ⟨fun a m' hr => ?_, fun e m' hr => ?_⟩
  · refine (h.trans (hok a m' hr)).tail (.drop fun x hx => ?_)
    simp only [List.mem_append] at hx ⊢
    rcases hx with hx | hx
    · exact .inl hx
    · exact .inr (.inr hx)
  · obtain ⟨hand', h'⟩ := herr e m' hr
    exact ⟨hand', h.trans h'⟩

theorem gain {v : Value} {act : M α} (h : Move L m hand m (v :: hand))
    (ha : Does L m (v :: hand) act G) : Does L m hand act G :=
  gains (.one h : Moves L m hand m ([v] ++ hand)) ha

/-- A computation that ends with a machine to which moves lead. -/
theorem of_moves {act : M α} (h : Moves L m hand (Machine.after (act m)) hand) :
    Does L m hand act fun _ => [] := by
  refine ⟨fun a m' hr => ?_, fun e m' hr => ⟨hand, ?_⟩⟩
  · rw [hr] at h
    exact h
  · rw [hr] at h
    exact h

/-- A computation that changes nothing that holds references. -/
theorem quiet {act : M α} (h : (Machine.after (act m)).owned = m.owned) :
    Does L m hand act fun _ => [] :=
  of_moves (.one (.other h))

/-- The results of a computation that leaves the machine as it is. -/
theorem results {act : M α} (h : ∀ a m', act m = .ok a m' → m' = m ∧ Moves L m hand m (G a ++ hand))
    (he : ∀ e m', act m = .error e m' → m' = m) : Does L m hand act G := by
  refine ⟨fun a m' hr => ?_, fun e m' hr => ?_⟩
  · obtain ⟨rfl, hm⟩ := h a m' hr
    exact hm
  · rw [he e m' hr]
    exact ⟨hand, .refl _ _⟩

theorem modify {f : Machine → Machine} (h : Moves L m hand (f m) hand) :
    Does L m hand (modify f : M Unit) fun _ => [] :=
  of_moves h

theorem set {m' : Machine} (h : Moves L m hand m' hand) :
    Does L m hand (MonadStateOf.set m' : M PUnit) fun _ => [] :=
  of_moves h

end Does

namespace M

theorem lift_eq_ok {r : Except Error α} {a : α} {m' : Machine} (h : lift r m = .ok a m') :
    r = .ok a ∧ m' = m := by
  cases r with
  | ok b => cases h; exact ⟨rfl, rfl⟩
  | error e => cases h

theorem lift_does (r : Except Error α) : Does L m hand (lift r) fun _ => [] := by
  cases r with
  | ok a => exact .pure nofun
  | error e => exact .throw e

theorem pop_does : Does L m hand pop fun v => [v] := by
  cases hp : m.data.pop with
  | error e => exact .error (by simp only [pop, hp]; rfl) (.refl _ _)
  | ok vd =>
    obtain ⟨v, data⟩ := vd
    obtain ⟨hi, -⟩ := Stack.pop_eq_ok hp
    refine .ok (by simp only [pop, hp]; rfl) ?_
    refine .head (.stack (.inl (hi ▸ List.mem_cons_self))) (.one (.data fun x hx => .inl ?_))
    rw [hi]
    exact List.mem_cons_of_mem _ hx

theorem push_does {v : Value} (hv : v ∈ hand) : Does L m hand (push v) fun _ => [] := by
  refine .of_moves ?_
  unfold push
  cases hp : m.data.push v with
  | error e => exact .refl _ _
  | ok data =>
    obtain ⟨-, rfl⟩ := Stack.push_eq_ok hp
    refine .one (.data fun x hx => ?_)
    rcases List.mem_cons.1 hx with rfl | hx
    · exact .inr hv
    · exact .inl hx

theorem pushPlain_does {v : Value} (hv : v.refs = []) : Does L m hand (push v) fun _ => [] :=
  .gain (.plain hv) (push_does List.mem_cons_self)

theorem peek_does (n : Nat) : Does L m hand (peek n) fun v => [v] := by
  cases hp : m.data.items[n]? with
  | none => exact .error (by simp only [peek, Stack.peek, Stack.peek?, hp]; rfl) (.refl _ _)
  | some v =>
    refine .ok (by simp only [peek, Stack.peek, Stack.peek?, hp]; rfl) ?_
    exact .one (.stack (.inl (List.mem_of_getElem? hp)))

theorem popInt_does : Does L m hand popInt fun _ => [] :=
  pop_does.bind fun _ _ _ => lift_does _

theorem popFlag_does : Does L m hand popFlag fun _ => [] :=
  pop_does.bind fun _ _ _ => lift_does _

theorem popWord_does : Does L m hand popWord fun w => [.xt w] := by
  refine pop_does.bind fun v m₁ _ => .results (fun w m' h => ?_) fun e m' h => ?_
  · obtain ⟨hw, rfl⟩ := lift_eq_ok h
    refine ⟨rfl, .one (.drop fun x hx => ?_)⟩
    cases v with
    | xt w' =>
      obtain rfl : w' = w := by simpa [Value.toWord] using hw
      simpa using hx
    | _ => simp [Value.toWord] at hw
  · generalize v.toWord = r at h
    cases r with
    | ok w => cases h
    | error e' => cases h; rfl

theorem pushReturn_does (n : Int64) : Does L m hand (pushReturn n) fun _ => [] := by
  refine .quiet ?_
  unfold pushReturn
  cases m.return.push n <;> rfl

theorem popReturn_does : Does L m hand popReturn fun _ => [] := by
  refine .quiet ?_
  unfold popReturn
  cases m.return.pop <;> rfl

theorem peekReturn_does (n : Nat) : Does L m hand (peekReturn n) fun _ => [] := by
  refine .quiet ?_
  unfold peekReturn
  cases m.return.peek n <;> rfl

theorem setHeap_does {r : Except Error Heap}
    (hr : ∀ h, r = .ok h → Moves L m hand { m with heap := h } hand) :
    Does L m hand (setHeap r) fun _ => [] := by
  refine (lift_does r).bind fun h m₁ hl => ?_
  obtain ⟨hr', rfl⟩ := lift_eq_ok hl
  exact .modify (hr h hr')

/-- A word of the heap is changed. -/
theorem changeWord_does {w : WordId} {f : Word → Except Error Word}
    (hf : ∀ x, f (m.heap.word w) = .ok x → Moves L m hand { m with heap := m.heap.setWord w x } hand) :
    Does L m hand (setHeap (m.heap.changeWord w f)) fun _ => [] := by
  refine setHeap_does fun h hh => ?_
  unfold Heap.changeWord at hh
  split at hh
  · rename_i x hx
    cases hh
    exact hf x hx
  · cases hh

theorem onTypes_does {act : Types → Except Error α × Types}
    (ha : ∀ w, (act m.types).2.Handles w → m.types.Handles w ∨ InHand hand (.word w))
    (hs : m.types.Sorted → (act m.types).2.Sorted)
    (hd : ∀ id d, m.types.Declares id d → (act m.types).2.Declares id d) :
    Does L m hand (onTypes act) fun _ => [] := by
  refine .of_moves ?_
  unfold onTypes
  rcases h : act m.types with ⟨_ | a, types⟩
  · rw [h] at ha hs hd
    exact .one (.types ha hs hd)
  · rw [h] at ha hs hd
    exact .one (.types ha hs hd)

theorem newText_does (s : String) : Does L m hand (newText s) fun v => [v] := by
  refine .ok rfl (.one (.newObject (x := .text s) (fun v hv => ?_) (Types.allows_of_record? rfl)))
  simp [Obj.items] at hv

theorem pushNew_does {x : Obj} (hx : ∀ v ∈ x.items, v ∈ hand) (ht : m.types.Allows x) :
    Does L m hand (pushNew x) fun _ => [] := by
  have h : Does L { m with heap := (m.heap.addObject x).2 } (.obj (m.heap.addObject x).1 :: hand)
    (push (.obj (m.heap.addObject x).1)) fun _ => [] := push_does List.mem_cons_self
  refine ⟨fun a m' hr => ?_, fun e m' hr => ?_⟩
  · exact .head (.newObject hx ht) ((h.1 a m' hr).tail (.drop fun v hv => List.mem_cons_of_mem _ hv))
  · obtain ⟨hand', h'⟩ := h.2 e m' hr
    exact ⟨hand', .head (.newObject hx ht) h'⟩

theorem put_does (s : String) : Does L m hand (put s) fun _ => [] := by
  refine .quiet ?_
  unfold put
  cases m.output.push s <;> rfl

theorem write_does (ss : List String) : Does L m hand (write ss) fun _ => [] := by
  refine .quiet ?_
  rw [write_eq]
  cases (m.output.write ss).2 <;> rfl

end M

theorem Machine.find?_mem_roots {name : String} {w : WordId} (hw : m.find? name = some w) :
    .word w ∈ m.roots := by
  unfold Machine.find? Dictionary.find? Dictionary.lookup? at hw
  obtain ⟨hw, -⟩ := Option.filter_eq_some_iff.1 hw
  obtain ⟨e, he, rfl⟩ := Option.map_eq_some_iff.1 hw
  have := List.mem_of_find?_eq_some he
  simp only [Machine.roots, List.mem_append, List.mem_map]
  exact .inl (.inl (.inr ⟨e, this, rfl⟩))

theorem Machine.frame_mem_roots {f : Frame} (hf : f ∈ m.frames) : .word f.word ∈ m.roots := by
  simp only [Machine.roots, List.mem_append, List.mem_map]
  exact .inl (.inl (.inl (.inl (.inr ⟨f, hf, rfl⟩))))

theorem Machine.building_mem_roots {w : WordId} (hw : m.compiler.building? = some w) :
    .word w ∈ m.roots := by
  simp [Machine.roots, hw]

namespace M

/-- A visible word is looked up. -/
theorem find_does (name : String) : Does L m hand (match m.find? name with
    | some w => Pure.pure w
    | none => MonadExcept.throw (.unknownWord name) : M WordId) fun w => [.xt w] := by
  cases hf : m.find? name with
  | none => exact .throw _
  | some w => exact .gain (.word (.inl (m.find?_mem_roots hf))) (.pure (by simp))

theorem builtin_does (name : String) : Does L m hand (builtin name) fun w => [.xt w] :=
  .get (find_does name)

theorem current_eq_ok {f : Frame} {m' : Machine} (h : current m = .ok f m') :
    m' = m ∧ ∃ rest, m.frames = f :: rest := by
  rw [current, M.bind_ok (x := MonadState.get) rfl] at h
  cases hf : m.frames with
  | nil => rw [hf] at h; cases h
  | cons g rest => rw [hf] at h; cases h; exact ⟨rfl, rest, rfl⟩

theorem current_does : Does L m hand current fun f => [.xt f.word] := by
  refine .get ?_
  cases hf : m.frames with
  | nil => exact .throw _
  | cons f rest =>
    exact .gain (.word (.inl (m.frame_mem_roots (hf ▸ List.mem_cons_self)))) (.pure (by simp))

theorem parent_eq_ok {f : Frame} {m' : Machine} (h : parent m = .ok f m') :
    m' = m ∧ ∃ g rest, m.frames = g :: f :: rest := by
  rw [parent, M.bind_ok (x := MonadState.get) rfl] at h
  rcases hf : m.frames with _ | ⟨g, _ | ⟨p, rest⟩⟩ <;> rw [hf] at h <;> cases h
  exact ⟨rfl, g, rest, rfl⟩

theorem parent_does : Does L m hand parent fun f => [.xt f.word] := by
  refine .get ?_
  rcases hf : m.frames with _ | ⟨g, _ | ⟨f, rest⟩⟩
  · exact .throw _
  · exact .throw _
  · exact .gain (.word (.inl (m.frame_mem_roots (f := f) (by simp [hf])))) (.pure (by simp))

theorem setParentIp_does (ip : Nat) : Does L m hand (setParentIp ip) fun _ => [] := by
  refine .of_moves ?_
  rw [setParentIp_eq]
  refine .one (.calls _ m.runs (fun f hf => .inl ?_) fun r hr v hv => .inl ⟨r, hr, hv⟩)
  have : f.word ∈ (moveParent (some ip) m.frames).map Frame.word := List.mem_map.2 ⟨f, hf, rfl⟩
  rw [map_word_moveParent] at this
  exact List.mem_map.1 this

theorem lastWith_eq_ok {held : List Ref} {w : WordId} {m' : Machine}
    (h : lastWith held m = .ok w m') :
    m' = m ∧ m.compiler.last? = some w ∧ m.heap.isAlive (held ++ m.roots) w = true := by
  obtain ⟨hl, rfl⟩ := lift_eq_ok (show lift (m.compiler.last m.heap (held ++ m.roots)) m = _ from h)
  unfold Compiler.last at hl
  split at hl
  · rename_i w' hw
    split at hl
    · rename_i ha
      cases hl
      exact ⟨rfl, hw, ha⟩
    · cases hl
  · cases hl

theorem lift_error {r : Except Error α} {e : Error} {m' : Machine} (h : lift r m = .error e m') :
    m' = m := by
  cases r with
  | ok a => cases h
  | error e' => cases h; rfl

theorem lastWith_does (held : List Ref) (hh : ∀ r ∈ held, InHand hand r) :
    Does L m hand (lastWith held) fun w => [.xt w] := by
  refine .results (fun w m' h => ?_) fun e m' h => ?_
  · obtain ⟨rfl, hw, ha⟩ := lastWith_eq_ok h
    exact ⟨rfl, .one (.last held hw hh ha)⟩
  · exact lift_error (show lift (m.compiler.last m.heap (held ++ m.roots)) m = _ from h)

theorem here_does : Does L m hand here fun _ => [] := .get (lift_does _)

theorem mode_does : Does L m hand mode fun _ => [] := .get (.pure nofun)

theorem setMode_does (mode : Mode) : Does L m hand (setMode mode) fun _ => [] :=
  .modify (.one (.compiler (.inr rfl)))

theorem requireCompiling_does (word : String) : Does L m hand (requireCompiling word) fun _ => [] :=
  mode_does.bind fun _ _ _ => .ite (.pure nofun) (.throw _)

/-- The word under construction is changed. -/
theorem onBuilding_does {f : Word → Except Error Word}
    (hf : ∀ w x, m.compiler.building? = some w → f (m.heap.word w) = .ok x →
      Moves L m hand { m with heap := m.heap.setWord w x } hand) :
    Does L m hand (setHeap (m.compiler.building >>= fun w => m.heap.changeWord w f)) fun _ => [] := by
  refine setHeap_does fun h hh => ?_
  unfold Compiler.building at hh
  cases hb : m.compiler.building? with
  | none => simp [hb, Bind.bind, Except.bind] at hh
  | some w =>
    simp only [hb, Bind.bind, Except.bind, Heap.changeWord] at hh
    split at hh
    · rename_i x hx
      cases hh
      exact hf w x hb hx
    · cases hh

theorem compile_does {e : Elem} (he : e.From hand) (hL : ∀ w, L (.build w)) :
    Does L m hand (compile e) fun _ => [] :=
  .get (onBuilding_does fun w _ hw hx => .one (.build hw he hx (hL w)))

/-- The code that the first element of a word gets. -/
theorem wrapped_from {w : WordId} {c : Code} (hw : InHand hand (.word w))
    (hc : (m.heap.word w).code = .ok c) :
    ∃ v, Move L m hand m (v :: hand) ∧ (Elem.direct (Compiler.wrapped w c)).From (v :: hand) := by
  cases c with
  | docol =>
    refine ⟨.xt w, .word (.inr hw), fun r hr => ?_⟩
    rw [List.mem_singleton.1 hr]
    exact .xt List.mem_cons_self
  | native p => exact ⟨.xt w, .word (.inr hw), nofun⟩
  | indirect body entry =>
    have h₀ : Elem.direct (.indirect body entry) ∈ (m.heap.word w).body.toList := by
      unfold Word.code at hc
      split at hc
      · rename_i c' h₀
        cases hc
        exact Array.mem_toList_iff.2 (Array.mem_of_getElem? h₀)
      · cases hc
    refine ⟨.xt body, .link hw (List.mem_flatMap.2 ⟨_, h₀, List.mem_cons_self⟩), fun r hr => ?_⟩
    rw [List.mem_singleton.1 hr]
    exact .xt List.mem_cons_self

theorem compileWord_does {w : WordId} (hw : InHand hand (.word w)) (hL : ∀ w, L (.build w)) :
    Does L m hand (compileWord w) fun _ => [] := by
  refine .get (setHeap_does fun h hh => ?_)
  unfold Compiler.compileWord Compiler.building at hh
  cases hb : m.compiler.building? with
  | none => simp [hb, Bind.bind, Except.bind] at hh
  | some b =>
    simp only [hb, Bind.bind, Except.bind] at hh
    split at hh
    · cases hc : (m.heap.word w).code with
      | error e => simp [hc] at hh
      | ok c =>
        simp only [hc, Heap.changeWord] at hh
        split at hh
        · rename_i x hx
          cases hh
          obtain ⟨v, hv, he⟩ := wrapped_from (L := L) hw hc
          exact .head hv ((Moves.one (.build hb he hx (hL b))).tail
            (.drop fun u hu => List.mem_cons_of_mem _ hu))
        · cases hh
    · simp only [Heap.changeWord] at hh
      split at hh
      · rename_i x hx
        cases hh
        exact .one (.build hb (.call hw) hx (hL b))
      · cases hh

theorem compileBuiltin_does (name : String) (hL : ∀ w, L (.build w)) :
    Does L m hand (compileBuiltin name) fun _ => [] :=
  (builtin_does name).bind fun _ _ _ =>
    compile_does (.call (.xt List.mem_cons_self)) hL

theorem compileLiteral_does {v : Value} (hv : v ∈ hand) (hL : ∀ w, L (.build w)) :
    Does L m hand (compileLiteral v) fun _ => [] :=
  (compileBuiltin_does _ hL).bind fun _ _ _ => compile_does (e := .lit v) hv hL

theorem compilePlain_does {v : Value} (hv : v.refs = []) (hL : ∀ w, L (.build w)) :
    Does L m hand (compileLiteral v) fun _ => [] :=
  .gain (.plain hv) (compileLiteral_does List.mem_cons_self hL)

/-- The flags of a word are changed. -/
theorem updateWord_moves (w : WordId) {f : Word → Word} (hf : ∀ x, (f x).body = x.body) :
    Moves L m hand { m with heap := m.heap.updateWord w f } hand :=
  .one (.flags (hf _))

/-- A word is made visible under its own name. -/
theorem addWord_moves {w : WordId} (hw : InHand hand (.word w)) :
    Moves L m hand { m with
      dictionary := (m.dictionary.add m.heap w).2.1
      heap := (m.dictionary.add m.heap w).2.2 } hand := by
  refine .head (.dictionary (d := (m.dictionary.add m.heap w).2.1) fun e he => ?_)
    (updateWord_moves w (f := fun x => { x with hidden := false }) fun _ => rfl)
  rcases List.mem_cons.1 he with rfl | he
  · exact .inr hw
  · exact .inl (List.mem_filter.1 he).1

theorem install_moves {w : Word} (hw : ∀ e ∈ w.body, e.From hand) :
    Moves L m hand (m.install w).2 (.xt (m.install w).1 :: hand) :=
  .head (.newWord hw) (addWord_moves (m := { m with heap := (m.heap.addWord w).2 })
    (.xt List.mem_cons_self))

theorem install_does {w : Word} (hw : ∀ e ∈ w.body, e.From hand) :
    Does L m hand (install w) fun id => [.xt id] :=
  .ok rfl (install_moves hw)

theorem setLast_does (w : WordId) : Does L m hand (setLast w) fun _ => [] :=
  .modify (.one (.compiler (.inr rfl)))

theorem defineConstant_does (name : String) {v : Value} (hv : v ∈ hand) :
    Does L m hand (defineConstant name v) fun _ => [] := by
  refine (install_does fun e he => ?_).bind fun w _ _ => (setLast_does w).bind fun _ _ _ =>
    .pure nofun
  simp only [Word.constant, List.mem_toArray, List.mem_cons, List.not_mem_nil, or_false] at he
  rcases he with rfl | rfl
  · exact nofun
  · exact hv

theorem definePlain_does (name : String) {v : Value} (hv : v.refs = []) :
    Does L m hand (defineConstant name v) fun _ => [] :=
  .gain (.plain hv) (defineConstant_does name List.mem_cons_self)

theorem nextToken_does : Does L m hand nextToken fun _ => [] := .quiet rfl

theorem nextName_does (reader : String) : Does L m hand (nextName reader) fun _ => [] := by
  refine nextToken_does.bind fun t _ _ => ?_
  cases t with
  | none => exact .throw _
  | some name => exact .pure nofun

theorem nextWord_does (reader : String) : Does L m hand (nextWord reader) fun w => [.xt w] :=
  (nextName_does reader).bind fun name _ _ => .get (find_does name)

theorem nextText_does : Does L m hand nextText fun _ => [] := by
  refine .quiet ?_
  unfold nextText
  rcases m.line.takeUntil '\x22' with ⟨_ | _, _⟩ <;> rfl

end M
end ThreadedForth
