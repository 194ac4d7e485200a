/-
  Machines that hold the same under other numbers.
-/
import Mathlib.Data.List.Forall2
import ThreadedForth.Proofs.Answers
import ThreadedForth.Proofs.Printing

namespace ThreadedForth

variable {α β γ δ : Type}

/-! ## What belongs together -/

/-- Which words and objects of two machines belong together.  What is made later belongs together in
    the order in which it is made. -/
structure Pairing (m m' : Machine) where
  /-- The words that belong together. -/
  word : WordId → WordId → Prop
  /-- The objects that belong together. -/
  object : ObjId → ObjId → Prop
  /-- The words of the first machine that have the same code as what belongs to them. -/
  shared : WordId → Prop
  word_iff : ∀ {w v u t}, word w u → word v t → (w = v ↔ u = t)
  object_iff : ∀ {o a p b}, object o p → object a b → (o = a ↔ p = b)
  word_new : ∀ n, word ⟨m.heap.words.size + n⟩ ⟨m'.heap.words.size + n⟩
  object_new : ∀ n, object ⟨m.heap.objects.size + n⟩ ⟨m'.heap.objects.size + n⟩
  shared_new : ∀ n, shared ⟨m.heap.words.size + n⟩

/-- The word without its elements. -/
def Word.bare (w : Word) : Word :=
  { w with body := #[] }

/-- The names of a dictionary, each of which is bound once. -/
def Dictionary.Distinct (d : Dictionary) : Prop :=
  (d.entries.map (·.1)).Nodup

/-- No definition is open, not even one that is suspended. -/
structure Machine.Idle (m : Machine) : Prop where
  building : m.compiler.building? = none
  mode : m.compiler.mode = .interpreting ∨ m.compiler.mode = .runtimeCompiling

/-- What a heap holds apart from the words and objects of a set is what another heap held there. -/
structure Heap.Untouched (word : WordId → Prop) (object : ObjId → Prop) (h₀ h : Heap) : Prop where
  words : ∀ w, ¬ word w → h.word w = h₀.word w
  objects : ∀ o, ¬ object o → h.object o = h₀.object o

namespace Pairing

variable {m m' : Machine} (P : Pairing m m')

/-- Words that belong together and have the same code. -/
def SameCallee (w u : WordId) : Prop :=
  P.word w u ∧ P.shared w

/-- Pointers to slots that belong together. -/
structure SamePointer (p q : Pointer) : Prop where
  target : P.SameCallee p.target q.target
  index : p.index = q.index
  type : p.type = q.type

/-- Values that stand for the same. -/
inductive SameValue : Value → Value → Prop
  | plain {v : Value} (hv : v.refs = []) : SameValue v v
  | xt {w u : WordId} (h : P.word w u) : SameValue (.xt w) (.xt u)
  | ptr {p q : Pointer} (h : P.SamePointer p q) : SameValue (.ptr p) (.ptr q)
  | obj {o p : ObjId} (h : P.object o p) : SameValue (.obj o) (.obj p)

/-- Codes that do the same. -/
inductive SameCode : Code → Code → Prop
  | native (p : Primitive) : SameCode (.native p) (.native p)
  | docol : SameCode .docol .docol
  | indirect {w u : WordId} (h : P.word w u) (entry : Nat) :
    SameCode (.indirect w entry) (.indirect u entry)

/-- Elements that do the same. -/
inductive SameElem : Elem → Elem → Prop
  | direct {c d : Code} (h : P.SameCode c d) : SameElem (.direct c) (.direct d)
  | call {w u : WordId} (h : P.word w u) : SameElem (.call w) (.call u)
  | lit {v u : Value} (h : P.SameValue v u) : SameElem (.lit v) (.lit u)
  | recurse : SameElem .recurse .recurse

/-- Words of one name, with the same flags and the same elements. -/
structure SameWord (w u : Word) : Prop where
  bare : w.bare = u.bare
  body : List.Forall₂ P.SameElem w.body.toList u.body.toList

/-- Objects that hold the same.  No walk is inside them. -/
inductive SameObj : Obj → Obj → Prop
  | text (s : String) : SameObj (.text s) (.text s)
  | array {vs us : Array Value} (h : List.Forall₂ P.SameValue vs.toList us.toList) :
    SameObj (.array vs false) (.array us false)
  | record (t : TypeId) (d : Declaration) {vs us : Array Value}
    (h : List.Forall₂ P.SameValue vs.toList us.toList) :
    SameObj (.record t d vs false) (.record t d us false)

/-- Heaps that hold the same, as far as words and objects belong together; all else is as it was on
    the two machines. -/
structure SameHeap (h k : Heap) : Prop where
  bare : ∀ {w u}, P.word w u → (h.word w).bare = (k.word u).bare
  body : ∀ {w u}, P.SameCallee w u →
    List.Forall₂ P.SameElem (h.word w).body.toList (k.word u).body.toList
  object : ∀ {o p}, P.object o p → P.SameObj (h.object o) (k.object p)
  unmarked : h.Unmarked ∧ k.Unmarked
  words : ∃ n, h.words.size = m.heap.words.size + n ∧ k.words.size = m'.heap.words.size + n
  objects : ∃ n, h.objects.size = m.heap.objects.size + n ∧ k.objects.size = m'.heap.objects.size + n
  left : Heap.Untouched (fun w => ∃ u, P.word w u) (fun o => ∃ p, P.object o p) m.heap h
  right : Heap.Untouched (fun u => ∃ w, P.word w u) (fun p => ∃ o, P.object o p) m'.heap k

/-- Stacks of one kind and one capacity with the same values. -/
structure SameStack (s t : Stack Value) : Prop where
  kind : s.kind = t.kind
  capacity : s.capacity = t.capacity
  items : List.Forall₂ P.SameValue s.items t.items

/-- Each name leads to words that belong together, or to what it led to on the two machines. -/
def SameNames (d e : Dictionary) : Prop :=
  ∀ n, Option.Rel P.word (d.lookup? n) (e.lookup? n) ∨
    d.lookup? n = m.dictionary.lookup? n ∧ e.lookup? n = m'.dictionary.lookup? n

/-- Handlers that do the same. -/
inductive SameHandler : Handler → Handler → Prop
  | strings : SameHandler .strings .strings
  | host (h : HostHandler) : SameHandler (.host h) (.host h)
  | word {w u : WordId} (h : P.word w u) : SameHandler (.word w) (.word u)

/-- Sorts of types that differ at most in the numbers of the words that handle operators. -/
inductive SameSort : TypeSort → TypeSort → Prop
  | value : SameSort .value .value
  | object (maker : Maker) {h k : Option Handler} (hh : Option.Rel P.SameHandler h k) :
    SameSort (.object maker h) (.object maker k)
  | user (d : Declaration) {h k : Option Handler} (hh : Option.Rel P.SameHandler h k) :
    SameSort (.user d h) (.user d k)

/-- Entries of one name that differ at most so. -/
structure SameEntry (e f : TypeEntry) : Prop where
  name : e.name = f.name
  sort : P.SameSort e.sort f.sort

/-- Registries that differ at most so. -/
structure SameTypes (t s : Types) : Prop where
  values : List.Forall₂ P.SameEntry t.values.toList s.values.toList
  objects : List.Forall₂ P.SameEntry t.objects.toList s.objects.toList
  users : List.Forall₂ P.SameEntry t.users.toList s.users.toList
  index : t.index = s.index

/-- Debuggers whose hooks, if they are attached, answer the same about words of the same code. -/
structure SameDebugger (d e : Debugger) : Prop where
  level : d.level = e.level
  stepOverDepth : d.stepOverDepth = e.stepOverDepth
  attached : d.attached = e.attached
  asked : d.hook.asked = e.hook.asked
  plan : d.hook.plan = e.hook.plan
  resume : d.hook.resume = e.hook.resume
  stops : d.hook.stops = e.hook.stops
  answer : d.attached = true → ∀ n {w u} ip, P.SameCallee w u →
    d.hook.answer n w ip = e.hook.answer n u ip

/-- Frames that stand at the same element. -/
structure SameFrame (f g : Frame) : Prop where
  word : P.SameCallee f.word g.word
  ip : f.ip = g.ip

/-- The same use of a result. -/
inductive SameAfter : After → After → Prop
  | push : SameAfter .push .push
  | select {a b c d : Value} (h : P.SameValue a c) (h' : P.SameValue b d) :
    SameAfter (.select a b) (.select c d)
  | store {p q : Pointer} (h : P.SamePointer p q) : SameAfter (.store p) (.store q)

/-- The same work that is still to be done. -/
inductive SamePending : Pending → Pending → Prop
  | outside : SamePending .outside .outside
  | handler (depth : Nat) {a b : After} (h : P.SameAfter a b) :
    SamePending (.handler depth a) (.handler depth b)
  | run : SamePending .run .run
  | attempt : SamePending .attempt .attempt

/-- The same way to go on. -/
inductive SameFlow : Flow → Flow → Prop
  | next : SameFlow .next .next
  | leave : SameFlow .leave .leave
  | call {w u : WordId} (h : P.word w u) : SameFlow (.call w) (.call u)
  | nest {w u : WordId} (h : P.word w u) {a b : Pending} (hp : P.SamePending a b) :
    SameFlow (.nest w a) (.nest u b)

/-- The same way to apply an operator. -/
inductive SameDispatch : Operator.Dispatch → Operator.Dispatch → Prop
  | done {v u : Value} (h : P.SameValue v u) : SameDispatch (.done v) (.done u)
  | run {w u : WordId} (h : P.word w u) (depth : Nat) : SameDispatch (.run w depth) (.run u depth)

/-- Runs that began at one depth and have the same to do afterwards. -/
structure SameRun (r s : Run) : Prop where
  base : r.base = s.base
  pending : P.SamePending r.pending s.pending

/-- Machines that hold the same, as far as words and objects belong together.  A name may still lead
    to other words if it did so from the beginning, and so may the word created last.  The depth at
    which the last definition was opened only counts while one is open. -/
structure Alike (x y : Machine) : Prop where
  data : P.SameStack x.data y.data
  «return» : x.return = y.return
  temp : P.SameStack x.temp y.temp
  self : P.SameStack x.self y.self
  line : x.line = y.line
  output : x.output = y.output
  heap : P.SameHeap x.heap y.heap
  names : P.SameNames x.dictionary y.dictionary
  distinct : x.dictionary.Distinct ∧ y.dictionary.Distinct
  types : P.SameTypes x.types y.types
  mode : x.compiler.mode = y.compiler.mode
  building : Option.Rel P.SameCallee x.compiler.building? y.compiler.building?
  opened : ∀ b, x.compiler.building? = some b → 1 ≤ (x.heap.word b).size
  depth : x.Idle ∨ x.compiler.startDepth = y.compiler.startDepth
  last : Option.Rel P.word x.compiler.last? y.compiler.last? ∨
    x.compiler.last? = m.compiler.last? ∧ y.compiler.last? = m'.compiler.last?
  debugger : P.SameDebugger x.debugger y.debugger
  frames : List.Forall₂ P.SameFrame x.frames y.frames
  runs : List.Forall₂ P.SameRun x.runs y.runs
  cells : x.cells = y.cells
  flags : x.flags = y.flags
  comment : x.inComment = y.inComment
  interrupt : x.interrupt = y.interrupt
  host : x.host = y.host
  addresses : x.addresses = m.addresses ∧ y.addresses = m'.addresses

/-- A name leads to words that belong together, or to none. -/
def Finds (x y : Machine) (name : String) : Prop :=
  Option.Rel P.word (x.dictionary.lookup? (.ofString name)) (y.dictionary.lookup? (.ofString name))

/-- Results that stand for the same, on machines that hold the same. -/
inductive SameResult (R : α → β → Prop) :
    EStateM.Result Error Machine α → EStateM.Result Error Machine β → Prop
  | ok {x y : Machine} {a : α} {b : β} (hr : R a b) (h : P.Alike x y) :
    SameResult R (.ok a x) (.ok b y)
  | error {x y : Machine} (e : Error) (h : P.Alike x y) : SameResult R (.error e x) (.error e y)

/-- Computations with such results on machines that hold the same. -/
def Joint (R : α → β → Prop) (f : M α) (g : M β) : Prop :=
  ∀ x y, P.Alike x y → P.SameResult R (f x) (g y)

end Pairing

/-- The same error, or results that stand for the same. -/
inductive SameExcept (R : α → β → Prop) : Except Error α → Except Error β → Prop
  | ok {a : α} {b : β} (h : R a b) : SameExcept R (.ok a) (.ok b)
  | error (e : Error) : SameExcept R (.error e) (.error e)

/-! ## Lists of things that belong together -/

section Lists

variable {R : α → β → Prop} {as : List α} {bs : List β}

theorem forall₂_getElem? (h : List.Forall₂ R as bs) (i : Nat) : Option.Rel R as[i]? bs[i]? := by
  induction h generalizing i with
  | nil => exact .none
  | cons h _ ih =>
    cases i with
    | zero => exact .some h
    | succ i => exact ih i

theorem forall₂_set (h : List.Forall₂ R as bs) (i : Nat) {a : α} {b : β} (hab : R a b) :
    List.Forall₂ R (as.set i a) (bs.set i b) := by
  induction h generalizing i with
  | nil => exact .nil
  | cons h hs ih =>
    cases i with
    | zero => exact .cons hab hs
    | succ i => exact .cons h (ih i)

theorem forall₂_append {cs : List α} {ds : List β} (h : List.Forall₂ R as bs)
    (h' : List.Forall₂ R cs ds) : List.Forall₂ R (as ++ cs) (bs ++ ds) := by
  induction h with
  | nil => exact h'
  | cons h _ ih => exact .cons h ih

theorem forall₂_replicate (n : Nat) {a : α} {b : β} (h : R a b) :
    List.Forall₂ R (List.replicate n a) (List.replicate n b) := by
  induction n with
  | zero => exact .nil
  | succ n ih => exact .cons h ih

/-- Lists of parts. -/
theorem forall₂_flatMap {S : γ → δ → Prop} {f : α → List γ} {g : β → List δ}
    (h : List.Forall₂ R as bs) (hf : ∀ a b, R a b → List.Forall₂ S (f a) (g b)) :
    List.Forall₂ S (as.flatMap f) (bs.flatMap g) := by
  induction h with
  | nil => exact .nil
  | cons h _ ih => exact forall₂_append (hf _ _ h) ih

/-- Lists of things that are made from them in the same way. -/
theorem map_eq_of_forall₂ {f : α → γ} {g : β → γ} (h : List.Forall₂ R as bs)
    (hf : ∀ a b, R a b → f a = g b) : as.map f = bs.map g := by
  induction h with
  | nil => rfl
  | cons h _ ih => rw [List.map_cons, List.map_cons, hf _ _ h, ih]

theorem mem_zip_of_forall₂ (h : List.Forall₂ R as bs) {cs : List γ} {x : β × γ}
    (hx : x ∈ bs.zip cs) : ∃ a, (a, x.2) ∈ as.zip cs ∧ R a x.1 := by
  induction h generalizing cs with
  | nil => cases hx
  | cons h _ ih =>
    cases cs with
    | nil => cases hx
    | cons c cs =>
      rcases List.mem_cons.1 hx with rfl | hx
      · exact ⟨_, List.mem_cons_self, h⟩
      · obtain ⟨a, ha, hr⟩ := ih hx
        exact ⟨a, List.mem_cons_of_mem _ ha, hr⟩

end Lists

namespace SameExcept

variable {R : α → β → Prop} {S : γ → δ → Prop} {r : Except Error α} {s : Except Error β}

theorem refl (r : Except Error α) : SameExcept Eq r r := by
  cases r with
  | ok a => exact .ok rfl
  | error e => exact .error e

theorem of_eq {r s : Except Error α} (h : r = s) : SameExcept Eq r s := h ▸ refl r

theorem map {f : α → γ} {g : β → δ} (h : SameExcept R r s) (hf : ∀ a b, R a b → S (f a) (g b)) :
    SameExcept S (r.map f) (s.map g) := by
  cases h with
  | ok h => exact .ok (hf _ _ h)
  | error e => exact .error e

end SameExcept

namespace Pairing

variable {m m' : Machine} {P : Pairing m m'} {R : α → β → Prop} {S : γ → δ → Prop} {x y : Machine}

/-! ## Computations one after the other -/

theorem SameResult.alike {r : EStateM.Result Error Machine α} {s : EStateM.Result Error Machine β}
    (h : P.SameResult R r s) : P.Alike (Machine.after r) (Machine.after s) := by
  cases h with
  | ok _ h => exact h
  | error _ h => exact h

theorem SameResult.bind {f : M α} {g : M β} {f' : α → M γ} {g' : β → M δ}
    (h : P.SameResult R (f x) (g y))
    (hf : ∀ a b x' y', f x = .ok a x' → g y = .ok b y' → R a b → P.Alike x' y' →
      P.SameResult S (f' a x') (g' b y')) : P.SameResult S ((f >>= f') x) ((g >>= g') y) := by
  generalize hx : f x = r at h
  generalize hy : g y = s at h
  cases h with
  | ok hr h =>
    rw [M.bind_ok hx, M.bind_ok hy]
    exact hf _ _ _ _ hx hy hr h
  | error e h =>
    rw [M.bind_error hx, M.bind_error hy]
    exact .error e h

namespace Joint

theorem pure {a : α} {b : β} (h : R a b) : P.Joint R (Pure.pure a) (Pure.pure b) :=
  fun _ _ hxy => .ok h hxy

theorem done {a : α} : P.Joint Eq (Pure.pure a : M α) (Pure.pure a) :=
  .pure rfl

theorem throw (e : Error) : P.Joint R (MonadExcept.throw e : M α) (MonadExcept.throw e : M β) :=
  fun _ _ h => .error e h

theorem bind {f : M α} {g : M β} {f' : α → M γ} {g' : β → M δ} (h : P.Joint R f g)
    (hf : ∀ a b, R a b → P.Joint S (f' a) (g' b)) : P.Joint S (f >>= f') (g >>= g') :=
  fun x y hxy => (h x y hxy).bind fun a b x' y' _ _ hab h' => hf a b hab x' y' h'

/-- What comes after a computation with the same result. -/
theorem andThen {f g : M α} {f' : α → M γ} {g' : α → M δ} (h : P.Joint Eq f g)
    (hf : ∀ a, P.Joint S (f' a) (g' a)) : P.Joint S (f >>= f') (g >>= g') :=
  h.bind fun a _ hab => hab ▸ hf a

theorem lift {r : Except Error α} {s : Except Error β} (h : SameExcept R r s) :
    P.Joint R (M.lift r) (M.lift s) := by
  intro x y hxy
  cases h with
  | ok h => exact .ok h hxy
  | error e => exact .error e hxy

theorem get {f : Machine → M α} {g : Machine → M β}
    (h : ∀ x y, P.Alike x y → P.SameResult R (f x x) (g y y)) :
    P.Joint R (MonadState.get >>= f) (MonadState.get >>= g) :=
  h

/-- A computation that looks at the machine, and goes on in the same way. -/
theorem look {f : Machine → M α} {g : Machine → M β}
    (h : ∀ x y, P.Alike x y → P.Joint R (f x) (g y)) :
    P.Joint R (MonadState.get >>= f) (MonadState.get >>= g) :=
  fun x y hxy => h x y hxy x y hxy

theorem ite {p q : Prop} [Decidable p] [Decidable q] (hp : p ↔ q) {f f' : M α} {g g' : M β}
    (h : P.Joint R f g) (h' : P.Joint R f' g') :
    P.Joint R (if p then f else f') (if q then g else g') := by
  by_cases hq : q
  · rw [if_pos hq, if_pos (hp.2 hq)]
    exact h
  · rw [if_neg hq, if_neg (mt hp.1 hq)]
    exact h'

/-- A check that comes before a computation. -/
theorem orThrow {p q : Prop} [Decidable p] [Decidable q] (hp : p ↔ q) {e e' : Error} (he : e = e')
    {f : M α} {g : M β} (h : P.Joint R f g) :
    P.Joint R (if p then (MonadExcept.throw e : M Unit) >>= fun _ => f else f)
      (if q then (MonadExcept.throw e' : M Unit) >>= fun _ => g else g) := by
  subst he
  exact .ite hp ((Joint.throw (R := fun _ _ => True) e).bind fun _ _ _ => h) h

theorem modify {f g : Machine → Machine} (h : ∀ x y, P.Alike x y → P.Alike (f x) (g y)) :
    P.Joint Eq (modify f : M Unit) (modify g : M Unit) :=
  fun x y hxy => .ok rfl (h x y hxy)

end Joint

/-! ## Values -/

namespace SameValue

variable {v u : Value}

theorem kind (h : P.SameValue v u) : v.kind = u.kind := by
  cases h <;> rfl

theorem toInt (h : P.SameValue v u) : v.toInt = u.toInt := by
  cases h <;> rfl

theorem toFloat (h : P.SameValue v u) : v.toFloat = u.toFloat := by
  cases h <;> rfl

theorem toFlag (h : P.SameValue v u) : v.toFlag = u.toFlag := by
  cases h <;> rfl

theorem toType (h : P.SameValue v u) : v.toType = u.toType := by
  cases h <;> rfl

theorem toOperator (h : P.SameValue v u) : v.toOperator = u.toOperator := by
  cases h <;> rfl

theorem isIntLike (h : P.SameValue v u) : v.isIntLike = u.isIntLike := by
  cases h <;> rfl

theorem isNumber (h : P.SameValue v u) : v.isNumber = u.isNumber := by
  cases h <;> rfl

theorem isCode (h : P.SameValue v u) (tags : List ControlTag) :
    ControlTag.isCode tags v = ControlTag.isCode tags u := by
  cases h <;> rfl

theorem toWord (h : P.SameValue v u) : SameExcept P.word v.toWord u.toWord := by
  cases h with
  | plain hv =>
    cases v <;> first | exact .error _ | cases hv
  | xt h => exact .ok h
  | ptr h => exact .error _
  | obj h => exact .error _

theorem toObject (h : P.SameValue v u) : SameExcept P.object v.toObject u.toObject := by
  cases h with
  | plain hv =>
    cases v <;> first | exact .error _ | cases hv
  | xt h => exact .error _
  | ptr h => exact .error _
  | obj h => exact .ok h

theorem toPointer (h : P.SameValue v u) : SameExcept P.SamePointer v.toPointer u.toPointer := by
  cases h with
  | plain hv =>
    cases v <;> first | exact .error _ | cases hv
  | xt h => exact .error _
  | ptr h => exact .ok h
  | obj h => exact .error _

end SameValue

/-! ## Stacks -/

namespace SameStack

variable {s t : Stack Value}

theorem depth (h : P.SameStack s t) : s.depth = t.depth :=
  h.items.length_eq

theorem setItems (h : P.SameStack s t) {vs us : List Value} (hi : List.Forall₂ P.SameValue vs us) :
    P.SameStack { s with items := vs } { t with items := us } :=
  ⟨h.kind, h.capacity, hi⟩

theorem clear (h : P.SameStack s t) : P.SameStack s.clear t.clear :=
  h.setItems .nil

theorem pop (h : P.SameStack s t) :
    SameExcept (fun a b => P.SameValue a.1 b.1 ∧ P.SameStack a.2 b.2) s.pop t.pop := by
  have hi := h.items
  unfold Stack.pop
  generalize s.items = vs at hi
  generalize t.items = us at hi
  cases hi with
  | nil =>
    rw [h.kind]
    exact .error _
  | cons hv hvs => exact .ok ⟨hv, h.setItems hvs⟩

theorem push (h : P.SameStack s t) {v u : Value} (hv : P.SameValue v u) :
    SameExcept P.SameStack (s.push v) (t.push u) := by
  unfold Stack.push
  rw [h.depth, h.capacity, h.kind]
  split
  · exact .ok ⟨rfl, rfl, .cons hv h.items⟩
  · exact .error _

theorem peek? (h : P.SameStack s t) (n : Nat) : Option.Rel P.SameValue (s.peek? n) (t.peek? n) :=
  forall₂_getElem? h.items n

theorem peek (h : P.SameStack s t) (n : Nat) : SameExcept P.SameValue (s.peek n) (t.peek n) := by
  have hp := h.peek? n
  unfold Stack.peek
  generalize s.peek? n = a at hp
  generalize t.peek? n = b at hp
  cases hp with
  | none =>
    rw [h.kind]
    exact .error _
  | some hv => exact .ok hv

theorem ensureRoom (h : P.SameStack s t) (n : Nat) : s.ensureRoom n = t.ensureRoom n := by
  unfold Stack.ensureRoom
  rw [h.depth, h.capacity, h.kind]

end SameStack

theorem Alike.setData (h : P.Alike x y) {s t : Stack Value} (hs : P.SameStack s t) :
    P.Alike { x with data := s } { y with data := t } :=
  { h with data := hs, depth := h.depth.imp_left fun hi => ⟨hi.1, hi.2⟩ }

theorem Alike.setReturn (h : P.Alike x y) (s : Stack Int64) :
    P.Alike { x with «return» := s } { y with «return» := s } :=
  { h with «return» := rfl, depth := h.depth.imp_left fun hi => ⟨hi.1, hi.2⟩ }

theorem pop : P.Joint P.SameValue M.pop M.pop := by
  intro x y h
  have hp := h.data.pop
  unfold M.pop
  generalize x.data.pop = r at hp
  generalize y.data.pop = s at hp
  cases hp with
  | ok hv => exact .ok hv.1 (h.setData hv.2)
  | error e => exact .error e h

theorem push {v u : Value} (hv : P.SameValue v u) : P.Joint Eq (M.push v) (M.push u) := by
  intro x y h
  have hp := h.data.push hv
  unfold M.push
  generalize x.data.push v = r at hp
  generalize y.data.push u = s at hp
  cases hp with
  | ok hs => exact .ok rfl (h.setData hs)
  | error e => exact .error e h

/-- A value that refers to nothing is pushed. -/
theorem pushPlain {v : Value} (hv : v.refs = []) : P.Joint Eq (M.push v) (M.push v) :=
  push (.plain hv)

theorem peek (n : Nat) : P.Joint P.SameValue (M.peek n) (M.peek n) := by
  intro x y h
  have hp := h.data.peek n
  unfold M.peek
  generalize x.data.peek n = r at hp
  generalize y.data.peek n = s at hp
  cases hp with
  | ok hv => exact .ok hv h
  | error e => exact .error e h

theorem popInt : P.Joint Eq M.popInt M.popInt :=
  pop.bind fun _ _ hv => .lift (.of_eq hv.toInt)

theorem popFlag : P.Joint Eq M.popFlag M.popFlag :=
  pop.bind fun _ _ hv => .lift (.of_eq hv.toFlag)

theorem popWord : P.Joint P.word M.popWord M.popWord :=
  pop.bind fun _ _ hv => .lift hv.toWord

theorem pushReturn (n : Int64) : P.Joint Eq (M.pushReturn n) (M.pushReturn n) := by
  intro x y h
  unfold M.pushReturn
  rw [← h.return]
  cases x.return.push n with
  | error e => exact .error e h
  | ok s => exact .ok rfl (h.setReturn s)

theorem popReturn : P.Joint Eq M.popReturn M.popReturn := by
  intro x y h
  unfold M.popReturn
  rw [← h.return]
  cases x.return.pop with
  | error e => exact .error e h
  | ok s => exact .ok rfl (h.setReturn s.2)

theorem peekReturn (n : Nat) : P.Joint Eq (M.peekReturn n) (M.peekReturn n) := by
  intro x y h
  unfold M.peekReturn
  rw [← h.return]
  cases x.return.peek n with
  | error e => exact .error e h
  | ok v => exact .ok rfl h

/-! ## Output and frames -/

theorem Alike.setOutput (h : P.Alike x y) (o : Output) :
    P.Alike { x with output := o } { y with output := o } :=
  { h with output := rfl, depth := h.depth.imp_left fun hi => ⟨hi.1, hi.2⟩ }

theorem put (piece : String) : P.Joint Eq (M.put piece) (M.put piece) := by
  intro x y h
  unfold M.put
  rw [← h.output]
  cases x.output.push piece with
  | error e => exact .error e h
  | ok o => exact .ok rfl (h.setOutput o)

theorem write (pieces : List String) : P.Joint Eq (M.write pieces) (M.write pieces) := by
  intro x y h
  rw [M.write_eq, M.write_eq, ← h.output]
  cases (x.output.write pieces).2 with
  | false => exact .error _ (h.setOutput _)
  | true => exact .ok rfl (h.setOutput _)

theorem putByte (b : UInt8) : P.Joint Eq (putByte b) (putByte b) := by
  intro x y h
  unfold ThreadedForth.putByte
  rw [← h.output]
  cases x.output.pushBytes [b] with
  | error e => exact .error e h
  | ok o => exact .ok rfl (h.setOutput o)

theorem Alike.setFrames (h : P.Alike x y) {fs gs : List Frame} (hf : List.Forall₂ P.SameFrame fs gs) :
    P.Alike { x with frames := fs } { y with frames := gs } :=
  { h with frames := hf, depth := h.depth.imp_left fun hi => ⟨hi.1, hi.2⟩ }

theorem current : P.Joint P.SameFrame M.current M.current := by
  refine .get fun x y h => ?_
  have hf := h.frames
  generalize x.frames = fs at hf
  generalize y.frames = gs at hf
  cases hf with
  | nil => exact .error _ h
  | cons hf _ => exact .ok hf h

theorem parent : P.Joint P.SameFrame M.parent M.parent := by
  refine .get fun x y h => ?_
  have hf := h.frames
  generalize x.frames = fs at hf
  generalize y.frames = gs at hf
  cases hf with
  | nil => exact .error _ h
  | cons _ hf =>
    cases hf with
    | nil => exact .error _ h
    | cons hp _ => exact .ok hp h

theorem setParentIp (ip : Nat) : P.Joint Eq (M.setParentIp ip) (M.setParentIp ip) := by
  refine .modify fun x y h => ?_
  have hf := h.frames
  cases hx : x.frames with
  | nil =>
    rw [hx] at hf
    rw [List.forall₂_nil_left_iff.1 hf]
    exact h
  | cons f fs =>
    rw [hx] at hf
    obtain ⟨g, gs, hfg, hrest, hy⟩ := List.forall₂_cons_left_iff.1 hf
    rw [hy]
    cases hrest with
    | nil => exact h
    | cons hp htail => exact h.setFrames (.cons hfg (.cons ⟨hp.word, rfl⟩ htail))

end Pairing
end ThreadedForth
