/-
  Machines in lower case, and computations that do the same to both.
-/
import ThreadedForth.Proofs.Lawful
import ThreadedForth.Proofs.LikenessWords
import ThreadedForth.Proofs.LoweredHeaps

namespace ThreadedForth

variable {α β : Type}

/-! ## Errors -/

/-- The mismatch with its texts in lower case. -/
def Mismatch.folded : Mismatch → Mismatch
  | valueTypeHandler name => valueTypeHandler (foldCase name)
  | e => e

/-- The compile fault with its texts in lower case. -/
def CompileFault.folded : CompileFault → CompileFault
  | onlyInDefinition word => onlyInDefinition (foldCase word)
  | expectedWord token => expectedWord (foldCase token)
  | structOpen name => structOpen (foldCase name)
  | e => e

/-- The construction fault with its texts in lower case. -/
def ConstructionFault.folded : ConstructionFault → ConstructionFault
  | pointerType name => pointerType (foldCase name)
  | valueType name => valueType (foldCase name)
  | refused reason => refused (foldCase reason)
  | e => e

/-- The native fault with its texts in lower case. -/
def NativeFault.folded : NativeFault → NativeFault
  | raised text => raised (foldCase text)
  | e => e

/-- The error with its texts in lower case. -/
def Error.folded : Error → Error
  | typeMismatch cause => typeMismatch cause.folded
  | unknownWord name => unknownWord (foldCase name)
  | compileState cause => compileState cause.folded
  | construction cause => construction cause.folded
  | nativeFault cause => nativeFault cause.folded
  | badWordOffset word index => badWordOffset (foldCase word) index
  | notExecutable word ip => notExecutable (foldCase word) ip
  | missingName word => missingName (foldCase word)
  | typeRedefined name => typeRedefined (foldCase name)
  | unknownType name => unknownType (foldCase name)
  | unsupportedFunction function type => unsupportedFunction function (foldCase type)
  | cantForgetBuiltin name => cantForgetBuiltin (foldCase name)
  | e => e

theorem Word.mem_of_code {w : Word} {c : Code} (h : w.code = .ok c) : .direct c ∈ w.body := by
  unfold Word.code at h
  split at h
  · rename_i c' hcode
    cases h
    exact Array.mem_of_getElem? hcode
  · cases h

/-! ## Words that take characters from the line -/

/-- Whether a primitive takes characters from the line as they are. -/
def Primitive.quotes : Primitive → Bool
  | defining .char | defining .bracketChar | defining .string | defining .printString => true
  | _ => false

/-- A primitive that takes no characters from the line and is none of a host. -/
def Primitive.Plain (p : Primitive) : Prop :=
  p.quotes = false ∧ p.isHost = false

instance (p : Primitive) : Decidable p.Plain := inferInstanceAs (Decidable (_ ∧ _))

/-- The names of the words that take characters from the line. -/
def quotingNames : List String :=
  ["char", "[char]", "s\x22", ".\x22"]

/-- A token that is no name of a word that takes characters from the line. -/
def Spoken (t : String) : Prop :=
  foldCase t ∉ quotingNames

instance (t : String) : Decidable (Spoken t) := inferInstanceAs (Decidable (¬ _))

namespace Likeness

/-- An element that refers to known words only, and is no code that takes characters from the
    line. -/
def Admits (L : Likeness) (e : Elem) : Prop :=
  L.KnowsAll e.refs ∧ ∀ p, e = .direct (.native p) → p.Plain

/-- The words that a primitive goes on with are known, and nothing will be caught. -/
def GoesOn (L : Likeness) : Flow → Prop
  | .call w => L.known w
  | .nest w pending => L.known w ∧ pending ≠ .attempt ∧ ∀ v ∈ pending.values, L.Knows v
  | _ => True

variable {L : Likeness}

theorem Admits.lit {v : Value} (h : L.Knows v) : L.Admits (.lit v) := ⟨h, nofun⟩

theorem Admits.call {w : WordId} (h : L.known w) : L.Admits (.call w) := ⟨.call h, nofun⟩

theorem Admits.recurse : L.Admits .recurse := ⟨.nil, nofun⟩

theorem Admits.docol : L.Admits (.direct .docol) := ⟨.nil, nofun⟩

theorem Admits.indirect {w : WordId} (h : L.known w) (entry : Nat) :
    L.Admits (.direct (.indirect w entry)) :=
  ⟨fun u hu => by cases List.mem_singleton.1 hu; exact h, nofun⟩

theorem Admits.native {p : Primitive} (h : p.Plain) : L.Admits (.direct (.native p)) :=
  ⟨.nil, fun q hq => by cases hq; exact h⟩

/-- A change of a word after which all its elements are admitted, if they were before. -/
def Admitting (L : Likeness) (f : Word → Except Error Word) : Prop :=
  ∀ u v, (∀ e ∈ u.body, L.Admits e) → f u = .ok v → ∀ e ∈ v.body, L.Admits e

theorem admitting_push {e : Elem} (he : L.Admits e) : L.Admitting fun u => u.push e := by
  intro u v hu hv
  rw [Word.body_of_push hv]
  intro d hd
  rcases Array.mem_push.1 hd with hd | rfl
  · exact hu d hd
  · exact he

theorem admitting_poke {i : Nat} {e : Elem} (he : L.Admits e) :
    L.Admitting fun u => u.poke i e := by
  intro u v hu hv
  rw [Word.body_of_poke hv]
  intro d hd
  rcases Array.mem_or_eq_of_mem_setIfInBounds hd with hd | rfl
  · exact hu d hd
  · exact he

theorem admitting_store {i : Nat} {v : Value} (hv : L.Knows v) :
    L.Admitting fun u => u.store i v := by
  intro u w hu hw
  rw [Word.body_of_store hw]
  intro d hd
  rcases Array.mem_or_eq_of_mem_setIfInBounds hd with hd | rfl
  · exact hu d hd
  · exact .lit hv

theorem admitting_expand (n : Nat) : L.Admitting fun u => u.expand n := by
  intro u v hu hv
  rw [Word.body_of_expand hv]
  intro d hd
  rcases Array.mem_append.1 hd with hd | hd
  · exact hu d hd
  · rw [Array.eq_of_mem_replicate hd]
    exact .lit (.plain rfl)

end Likeness

/-! ## Machines -/

namespace Machine

/-- The machine in lower case, with another output. -/
def lowered (m : Machine) (o : Output) : Machine :=
  { m with line := m.line.lowered, heap := m.heap.lowered, types := m.types.lowered, output := o }

section Fields

variable (m : Machine) (o : Output)

@[simp] theorem data_lowered : (m.lowered o).data = m.data := rfl
@[simp] theorem return_lowered : (m.lowered o).return = m.return := rfl
@[simp] theorem frames_lowered : (m.lowered o).frames = m.frames := rfl
@[simp] theorem compiler_lowered : (m.lowered o).compiler = m.compiler := rfl
@[simp] theorem line_lowered : (m.lowered o).line = m.line.lowered := rfl
@[simp] theorem heap_lowered : (m.lowered o).heap = m.heap.lowered := rfl
@[simp] theorem types_lowered : (m.lowered o).types = m.types.lowered := rfl
@[simp] theorem output_lowered : (m.lowered o).output = o := rfl

@[simp] theorem find?_lowered (name : String) : (m.lowered o).find? name = m.find? name := rfl

@[simp] theorem roots_lowered : (m.lowered o).roots = m.roots := by
  simp only [roots, types_lowered, Types.handlerWords_lowered]
  rfl

theorem size_format_lowered (v : Value) :
    ((m.lowered o).format v).utf8ByteSize = (m.format v).utf8ByteSize := by
  cases v with
  | type t => simp only [format, types_lowered, Types.nameOf_lowered]
  | _ => exact m.heap.size_display_lowered _

theorem size_stackLine_lowered :
    (m.lowered o).stackLine.utf8ByteSize = m.stackLine.utf8ByteSize := by
  refine Heap.size_join (.cons rfl (List.forall₂_map_left_iff.2 (List.forall₂_map_right_iff.2 ?_)))
  refine List.forall₂_same.2 fun v _ => ?_
  rw [String.utf8ByteSize_append, String.utf8ByteSize_append, size_format_lowered]

end Fields

/-- Everything that the machine refers to is known, and no known word takes characters from the line
    or comes from a host. -/
structure Calls (L : Likeness) (m : Machine) : Prop where
  data : ∀ v ∈ m.data.items, L.Knows v
  temp : ∀ v ∈ m.temp.items, L.Knows v
  self : ∀ v ∈ m.self.items, L.Knows v
  frames : ∀ f ∈ m.frames, L.known f.word
  runs : ∀ r ∈ m.runs, r.pending ≠ .attempt ∧ ∀ v ∈ r.pending.values, L.Knows v
  types : ∀ w, m.types.Handles w → L.known w
  items : ∀ o, ∀ v ∈ (m.heap.object o).items, L.Knows v
  words : ∀ w, L.known w → ∀ e ∈ (m.heap.word w).body, L.Admits e
  fresh : ∀ w : WordId, m.heap.words.size ≤ w.index → L.known w
  building : ∀ w, m.compiler.building? = some w → L.known w
  last : ∀ w, m.compiler.last? = some w → L.known w
  names : ∀ s w, m.dictionary.lookup? (.ofString s) = some w → foldCase s ∉ quotingNames → L.known w

namespace Calls

variable {L : Likeness} {m : Machine}

theorem setWord (h : m.Calls L) {u : Word} (hu : ∀ e ∈ u.body, L.Admits e) (w : WordId) :
    Calls L { m with heap := m.heap.setWord w u } :=
  { h with
    words := fun v hv => by
      show ∀ e ∈ ((m.heap.setWord w u).word v).body, L.Admits e
      rw [Heap.word_setWord]
      split
      · exact hu
      · exact h.words v hv
    fresh := fun v hv => h.fresh v (by simpa [Heap.setWord] using hv) }

theorem addWord (h : m.Calls L) {u : Word} (hu : ∀ e ∈ u.body, L.Admits e) :
    Calls L { m with heap := (m.heap.addWord u).2 } :=
  { h with
    words := fun v hv => by
      show ∀ e ∈ ((m.heap.addWord u).2.word v).body, L.Admits e
      by_cases hnew : v = (m.heap.addWord u).1
      · rw [hnew, Heap.word_addWord]
        exact hu
      · rw [Heap.word_addWord_of_ne m.heap u hnew]
        exact h.words v hv
    fresh := fun v hv => h.fresh v (by
      have : m.heap.words.size + 1 ≤ v.index := by simpa [Heap.addWord] using hv
      omega) }

theorem known_new (h : m.Calls L) (u : Word) : L.known (m.heap.addWord u).1 :=
  h.fresh _ (Nat.le_refl _)

theorem addObject (h : m.Calls L) {x : Obj} (hx : ∀ v ∈ x.items, L.Knows v) :
    Calls L { m with heap := (m.heap.addObject x).2 } :=
  { h with
    items := fun o => by
      show ∀ v ∈ ((m.heap.addObject x).2.object o).items, L.Knows v
      rw [Heap.object_addObject]
      split
      · exact hx
      · exact h.items o }

theorem setObject (h : m.Calls L) {x : Obj} (hx : ∀ v ∈ x.items, L.Knows v) (i : ObjId) :
    Calls L { m with heap := m.heap.setObject i x } :=
  { h with
    items := fun o => by
      show ∀ v ∈ ((m.heap.setObject i x).object o).items, L.Knows v
      rw [Heap.object_setObject]
      split
      · exact hx
      · exact h.items o }

theorem find? (h : m.Calls L) {s : String} {w : WordId} (hw : m.find? s = some w)
    (hs : foldCase s ∉ quotingNames) : L.known w :=
  h.names s w (Option.filter_eq_some_iff.1 hw).1 hs

end Calls
end Machine

theorem M.onTypes_eq (act : Types → Except Error α × Types) (m : Machine) : M.onTypes act m =
    match (act m.types).1 with
    | .ok a => .ok a { m with types := (act m.types).2 }
    | .error e => .error e { m with types := (act m.types).2 } := by
  unfold M.onTypes
  rcases act m.types with ⟨_ | _, _⟩ <;> rfl

/-! ## Outputs -/

/-- Two outputs of the same capacity, with texts of the same length. -/
structure Output.SameSize (o q : Output) : Prop where
  capacity : q.capacity = o.capacity
  text : q.text.utf8ByteSize = o.text.utf8ByteSize

namespace Output.SameSize

variable {o q : Output}

theorem push (h : o.SameSize q) {s t : String} (ht : t.utf8ByteSize = s.utf8ByteSize) :
    (∃ o' q', o.push s = .ok o' ∧ q.push t = .ok q' ∧ o'.SameSize q') ∨
      o.push s = .error .outputFull ∧ q.push t = .error .outputFull := by
  unfold Output.push
  rw [h.capacity, h.text, ht]
  split
  · refine .inl ⟨_, _, rfl, rfl, rfl, ?_⟩
    rw [String.utf8ByteSize_append, String.utf8ByteSize_append, h.text, ht]
  · exact .inr ⟨rfl, rfl⟩

theorem write {ss ts : List String}
    (h : List.Forall₂ (fun s t : String => t.utf8ByteSize = s.utf8ByteSize) ss ts)
    {o q : Output} (ho : o.SameSize q) :
    (o.write ss).1.SameSize (q.write ts).1 ∧ (q.write ts).2 = (o.write ss).2 := by
  induction h generalizing o q with
  | nil => exact ⟨ho, rfl⟩
  | cons hst _ ih =>
    rcases ho.push hst with ⟨o', q', ho', hq', hs⟩ | ⟨ho', hq'⟩
    · simp only [Output.write, ho', hq']
      exact ih hs
    · simp only [Output.write, ho', hq']
      exact ⟨ho, trivial⟩

theorem pushBytes (h : o.SameSize q) (bs : List UInt8) :
    (∃ o' q', o.pushBytes bs = .ok o' ∧ q.pushBytes bs = .ok q' ∧ o'.SameSize q') ∨
      ∃ e, o.pushBytes bs = .error e ∧ q.pushBytes bs = .error e := by
  unfold Output.pushBytes
  cases Utf8.ofBytes? bs with
  | none => exact .inr ⟨_, rfl, rfl⟩
  | some s => exact (h.push rfl).imp_right fun ⟨ho, hq⟩ => ⟨_, ho, hq⟩

end Output.SameSize

namespace Likeness

variable {L : Likeness} {x y : Machine} {φ : α → Prop} {ψ : β → Prop}

/-! ## Computations that ignore case -/

/-- The second machine is the first one in lower case, and what that one refers to and is about to
    read is known. -/
def Lowered (L : Likeness) (x y : Machine) : Prop :=
  ∃ o, x.output.SameSize o ∧ y = x.lowered o ∧ x.Calls L ∧ x.line.Speaks Spoken

/-- Two results of a computation are the same up to the case of errors, and leave a machine and the
    machine in lower case. -/
inductive SameFolded (L : Likeness) (φ : α → Prop) :
    EStateM.Result Error Machine α → EStateM.Result Error Machine α → Prop
  | ok {x y : Machine} (a : α) (ha : φ a) (h : L.Lowered x y) : SameFolded L φ (.ok a x) (.ok a y)
  | error {x y : Machine} {e e' : Error} (he : e'.folded = e.folded) (h : L.Lowered x y) :
    SameFolded L φ (.error e x) (.error e' y)

/-- A computation that does the same to a machine and to the machine in lower case; its results have
    the property `φ`. -/
def IgnoresCase (L : Likeness) (act : M α) (φ : α → Prop) : Prop :=
  ∀ x y, L.Lowered x y → L.SameFolded φ (act x) (act y)

theorem SameFolded.bind {act act' : M α} {f g : α → M β} (h : L.SameFolded φ (act x) (act' y))
    (hf : ∀ a x' y', act x = .ok a x' → act' y = .ok a y' → φ a → L.Lowered x' y' →
      L.SameFolded ψ (f a x') (g a y')) :
    L.SameFolded ψ ((act >>= f) x) ((act' >>= g) y) := by
  generalize hx : act x = r at h
  generalize hy : act' y = s at h
  cases h with
  | ok a ha h =>
    rw [M.bind_ok hx, M.bind_ok hy]
    exact hf a _ _ hx hy ha h
  | error he h =>
    rw [M.bind_error hx, M.bind_error hy]
    exact .error he h

/-- The common parts of the two machines. -/
theorem Lowered.eq (h : L.Lowered x y) : ∃ o, y = x.lowered o := by
  obtain ⟨o, -, rfl, -⟩ := h
  exact ⟨o, rfl⟩

theorem Lowered.calls (h : L.Lowered x y) : x.Calls L := by
  obtain ⟨_, -, -, hc, -⟩ := h
  exact hc

/-- The same change of both machines, as far as words and values are concerned. -/
theorem Lowered.change (h : L.Lowered x y) {f : Machine → Machine}
    (hf : ∀ o, f (x.lowered o) = (f x).lowered o) (ho : (f x).output = x.output)
    (hl : (f x).line = x.line) (hc : x.Calls L → (f x).Calls L) : L.Lowered (f x) (f y) := by
  obtain ⟨o, hs, rfl, hx, hline⟩ := h
  exact ⟨o, by rw [ho]; exact hs, hf o, hc hx, by rw [hl]; exact hline⟩

namespace IgnoresCase

theorem pure {a : α} (ha : φ a) : L.IgnoresCase (Pure.pure a) φ :=
  fun _ _ h => .ok a ha h

theorem throw (e : Error) : L.IgnoresCase (MonadExcept.throw e : M α) φ :=
  fun _ _ h => .error rfl h

theorem bind {act : M α} {f : α → M β} (h : L.IgnoresCase act φ)
    (hf : ∀ a, φ a → L.IgnoresCase (f a) ψ) : L.IgnoresCase (act >>= f) ψ :=
  fun x y hxy => (h x y hxy).bind fun a x' y' _ _ ha h' => hf a ha x' y' h'

/-- A computation that looks at the machine, but not at what is different in lower case. -/
theorem get {f : Machine → M α} (h : ∀ m o, f (m.lowered o) = f m)
    (hf : ∀ x y, L.Lowered x y → L.IgnoresCase (f x) φ) :
    L.IgnoresCase (MonadState.get >>= f) φ := by
  intro x y hxy
  obtain ⟨o, rfl⟩ := hxy.eq
  show L.SameFolded φ (f x x) (f (x.lowered o) (x.lowered o))
  rw [h]
  exact hf x _ hxy x _ hxy

theorem ite {p : Prop} [Decidable p] {act act' : M α} (h : L.IgnoresCase act φ)
    (h' : L.IgnoresCase act' φ) : L.IgnoresCase (if p then act else act') φ := by
  split
  · exact h
  · exact h'

/-- A check that comes before a computation. -/
theorem orThrow {p : Prop} [Decidable p] {e : Error} {act : M α} (h : L.IgnoresCase act φ) :
    L.IgnoresCase (if p then (MonadExcept.throw e : M Unit) >>= fun _ => act else act) φ :=
  .ite ((throw (φ := fun _ => True) e).bind fun _ _ => h) h

theorem lift (r : Except Error α) (hr : ∀ a, r = .ok a → φ a) : L.IgnoresCase (M.lift r) φ := by
  intro x y h
  cases r with
  | ok a => exact .ok a (hr a rfl) h
  | error e => exact .error rfl h

/-- A result that no condition is put on. -/
theorem lift' (r : Except Error α) : L.IgnoresCase (M.lift r) fun _ => True :=
  lift r fun _ _ => trivial

theorem changing {f : Machine → Machine} (h : ∀ x y, L.Lowered x y → L.Lowered (f x) (f y)) :
    L.IgnoresCase (modify f : M Unit) fun _ => True :=
  fun x y hxy => .ok () trivial (h x y hxy)

/-! ### Stacks -/

theorem pop : L.IgnoresCase M.pop L.Knows := by
  intro x y h
  obtain ⟨o, rfl⟩ := h.eq
  unfold M.pop
  rw [Machine.data_lowered]
  cases hp : x.data.pop with
  | error e => exact .error rfl h
  | ok vs =>
    obtain ⟨hi, -⟩ := Stack.pop_eq_ok hp
    exact .ok _ (h.calls.data _ (hi ▸ List.mem_cons_self))
      (h.change (f := ({ · with data := vs.2 })) (fun _ => rfl) rfl rfl fun hc =>
        { hc with data := fun v hv => hc.data v (hi ▸ List.mem_cons_of_mem _ hv) })

theorem push {v : Value} (hv : L.Knows v) : L.IgnoresCase (M.push v) fun _ => True := by
  intro x y h
  obtain ⟨o, rfl⟩ := h.eq
  unfold M.push
  rw [Machine.data_lowered]
  cases hp : x.data.push v with
  | error e => exact .error rfl h
  | ok s =>
    obtain ⟨-, rfl⟩ := Stack.push_eq_ok hp
    refine .ok () trivial (h.change (f := ({ · with data := _ })) (fun _ => rfl) rfl rfl fun hc =>
      { hc with data := fun u hu => ?_ })
    rcases List.mem_cons.1 hu with rfl | hu
    · exact hv
    · exact hc.data u hu

/-- A value that refers to nothing is pushed. -/
theorem pushPlain {v : Value} (hv : v.refs = []) : L.IgnoresCase (M.push v) fun _ => True :=
  push (.plain hv)

theorem peek (n : Nat) : L.IgnoresCase (M.peek n) L.Knows := by
  intro x y h
  obtain ⟨o, rfl⟩ := h.eq
  unfold M.peek Stack.peek Stack.peek?
  rw [Machine.data_lowered]
  cases hp : x.data.items[n]? with
  | none => exact .error rfl h
  | some v => exact .ok v (h.calls.data v (List.mem_of_getElem? hp)) h

theorem popInt : L.IgnoresCase M.popInt fun _ => True :=
  pop.bind fun _ _ => lift' _

theorem popFlag : L.IgnoresCase M.popFlag fun _ => True :=
  pop.bind fun _ _ => lift' _

theorem popWord : L.IgnoresCase M.popWord L.known := by
  refine pop.bind fun v hv => lift _ fun w hw => ?_
  cases v with
  | xt u =>
    cases hw
    exact hv.of_xt
  | _ => cases hw

theorem setReturn (h : L.Lowered x y) (s : Stack Int64) :
    L.Lowered { x with «return» := s } { y with «return» := s } :=
  h.change (f := ({ · with «return» := s })) (fun _ => rfl) rfl rfl fun hc => { hc with }

theorem pushReturn (n : Int64) : L.IgnoresCase (M.pushReturn n) fun _ => True := by
  intro x y h
  obtain ⟨o, rfl⟩ := h.eq
  unfold M.pushReturn
  rw [Machine.return_lowered]
  cases x.return.push n with
  | error e => exact .error rfl h
  | ok s => exact .ok () trivial (setReturn h s)

theorem popReturn : L.IgnoresCase M.popReturn fun _ => True := by
  intro x y h
  obtain ⟨o, rfl⟩ := h.eq
  unfold M.popReturn
  rw [Machine.return_lowered]
  cases x.return.pop with
  | error e => exact .error rfl h
  | ok s => exact .ok _ trivial (setReturn h s.2)

theorem peekReturn (n : Nat) : L.IgnoresCase (M.peekReturn n) fun _ => True := by
  intro x y h
  obtain ⟨o, rfl⟩ := h.eq
  unfold M.peekReturn
  rw [Machine.return_lowered]
  cases x.return.peek n with
  | error e => exact .error rfl h
  | ok v => exact .ok _ trivial h

/-! ### Output -/

theorem setOutput (h : L.Lowered x y) {o q : Output} (ho : o.SameSize q) :
    L.Lowered { x with output := o } { y with output := q } := by
  obtain ⟨_, -, rfl, hc, hs⟩ := h
  exact ⟨q, ho, rfl, { hc with }, hs⟩

/-- Texts of the same length are written. -/
theorem putPiece (h : L.Lowered x y) {s t : String} (hst : t.utf8ByteSize = s.utf8ByteSize) :
    L.SameFolded (fun _ => True) (M.put s x) (M.put t y) := by
  obtain ⟨o, ho, rfl, -⟩ := id h
  unfold M.put
  rcases ho.push hst with ⟨o', q', hx, hy, hs⟩ | ⟨hx, hy⟩
  · simp only [Machine.output_lowered, hx, hy]
    exact .ok () trivial (setOutput h hs)
  · simp only [Machine.output_lowered, hx, hy]
    exact .error rfl h

theorem put (s : String) : L.IgnoresCase (M.put s) fun _ => True :=
  fun _ _ h => putPiece h rfl

theorem writePieces (h : L.Lowered x y) {ss ts : List String}
    (hst : List.Forall₂ (fun s t : String => t.utf8ByteSize = s.utf8ByteSize) ss ts) :
    L.SameFolded (fun _ => True) (M.write ss x) (M.write ts y) := by
  obtain ⟨o, ho, rfl, -⟩ := id h
  obtain ⟨hs, he⟩ := ho.write hst
  rw [M.write_eq, M.write_eq, Machine.output_lowered, he]
  cases (x.output.write ss).2 with
  | false => exact .error rfl (setOutput h hs)
  | true => exact .ok () trivial (setOutput h hs)

theorem write (ss : List String) : L.IgnoresCase (M.write ss) fun _ => True :=
  fun _ _ h => writePieces h (List.forall₂_same.2 fun _ _ => rfl)

theorem putByte (b : UInt8) : L.IgnoresCase (ThreadedForth.putByte b) fun _ => True := by
  intro x y h
  obtain ⟨o, ho, rfl, -⟩ := id h
  unfold ThreadedForth.putByte
  rcases ho.pushBytes [b] with ⟨o', q', hx, hy, hs⟩ | ⟨e, hx, hy⟩
  · simp only [Machine.output_lowered, hx, hy]
    exact .ok () trivial (setOutput h hs)
  · simp only [Machine.output_lowered, hx, hy]
    exact .error rfl h

/-! ### Frames -/

theorem setFrames (h : L.Lowered x y) {fs : List Frame} (hf : ∀ f ∈ fs, L.known f.word) :
    L.Lowered { x with frames := fs } { y with frames := fs } :=
  h.change (f := ({ · with frames := fs })) (fun _ => rfl) rfl rfl fun hc =>
    { hc with frames := hf }

theorem current : L.IgnoresCase M.current fun f => L.known f.word := by
  refine get (fun _ _ => rfl) fun x y h => ?_
  cases hf : x.frames with
  | nil => exact throw _
  | cons f rest => exact pure (h.calls.frames f (hf ▸ List.mem_cons_self))

theorem parent : L.IgnoresCase M.parent fun f => L.known f.word := by
  refine get (fun _ _ => rfl) fun x y h => ?_
  rcases hf : x.frames with _ | ⟨g, _ | ⟨f, rest⟩⟩
  · exact throw _
  · exact throw _
  · exact pure (h.calls.frames f (by simp [hf]))

theorem setParentIp (ip : Nat) : L.IgnoresCase (M.setParentIp ip) fun _ => True := by
  intro x y h
  obtain ⟨o, rfl⟩ := h.eq
  rw [M.setParentIp_eq, M.setParentIp_eq, Machine.frames_lowered]
  refine .ok () trivial (setFrames h fun f hf => ?_)
  have hw : f.word ∈ (moveParent (some ip) x.frames).map Frame.word := List.mem_map_of_mem hf
  rw [map_word_moveParent] at hw
  obtain ⟨g, hg, hgf⟩ := List.mem_map.1 hw
  rw [← hgf]
  exact h.calls.frames g hg

/-! ### Objects -/

theorem addObject (h : L.Lowered x y) {o : Obj} (ho : ∀ v ∈ o.items, L.Knows v) :
    (y.heap.addObject o.lowered).1 = (x.heap.addObject o).1 ∧
      L.Lowered { x with heap := (x.heap.addObject o).2 }
        { y with heap := (y.heap.addObject o.lowered).2 } := by
  obtain ⟨out, hout, rfl, hc, hs⟩ := h
  rw [Machine.heap_lowered, Heap.addObject_lowered]
  exact ⟨rfl, out, hout, rfl, hc.addObject ho, hs⟩

theorem setObject (h : L.Lowered x y) (i : ObjId) {o : Obj} (ho : ∀ v ∈ o.items, L.Knows v) :
    L.Lowered { x with heap := x.heap.setObject i o }
      { y with heap := y.heap.setObject i o.lowered } := by
  obtain ⟨out, hout, rfl, hc, hs⟩ := h
  rw [Machine.heap_lowered, Heap.setObject_lowered]
  exact ⟨out, hout, rfl, hc.setObject ho i, hs⟩

theorem newText (s : String) : L.IgnoresCase (M.newText s) L.Knows := by
  intro x y h
  obtain ⟨hid, hxy⟩ := addObject h (o := .text s) (knows_text s)
  show L.SameFolded L.Knows (.ok (.obj (x.heap.addObject (.text s)).1) _)
    (.ok (.obj (y.heap.addObject (Obj.text s).lowered).1) _)
  rw [hid]
  exact .ok _ (.obj _) hxy

theorem pushObject (h : L.Lowered x y) {o : Obj} (ho : ∀ v ∈ o.items, L.Knows v) :
    L.SameFolded (fun _ => True) (M.pushNew o x) (M.pushNew o.lowered y) := by
  obtain ⟨hid, hxy⟩ := addObject h ho
  show L.SameFolded _ (M.push (.obj (x.heap.addObject o).1) _)
    (M.push (.obj (y.heap.addObject o.lowered).1) _)
  rw [hid]
  exact push (.obj _) _ _ hxy

/-! ### Words -/

theorem setHeapWord (h : L.Lowered x y) {u : Word} (hu : ∀ e ∈ u.body, L.Admits e) (w : WordId) :
    L.Lowered { x with heap := x.heap.setWord w u } { y with heap := y.heap.setWord w u } :=
  h.change (f := fun m => { m with heap := m.heap.setWord w u }) (fun _ => rfl) rfl rfl
    fun hc => hc.setWord hu w

theorem changeWord {w : WordId} {f : Word → Except Error Word} (hw : L.known w)
    (hf : L.Admitting f) :
    L.IgnoresCase (do M.setHeap ((← MonadState.get).heap.changeWord w f)) fun _ => True := by
  intro x y h
  obtain ⟨o, rfl⟩ := h.eq
  show L.SameFolded _ (M.setHeap (x.heap.changeWord w f) x)
    (M.setHeap (x.heap.lowered.changeWord w f) (x.lowered o))
  unfold Heap.changeWord
  rw [Heap.word_lowered]
  cases hu : f (x.heap.word w) with
  | error e => exact .error rfl h
  | ok u => exact .ok () trivial (setHeapWord h (hf _ u (h.calls.words w hw) hu) w)

theorem store {p : Pointer} {v : Value} (hp : L.known p.target) (hv : L.Knows v) :
    L.IgnoresCase (do M.setHeap ((← MonadState.get).heap.store p v)) fun _ => True :=
  changeWord hp (admitting_store hv)

theorem addSlot {w : WordId} (hw : L.known w) {v : Value} (hv : L.Knows v) :
    L.IgnoresCase (ThreadedForth.addSlot w v) fun _ => True :=
  changeWord hw (admitting_push (.lit hv))

/-- A flag of a word is changed. -/
theorem setFlag (h : L.Lowered x y) {w : WordId} (hw : L.known w) {f : Word → Word}
    (hf : ∀ u, (f u).body = u.body) :
    L.Lowered { x with heap := x.heap.updateWord w f }
      { y with heap := y.heap.updateWord w f } := by
  obtain ⟨o, rfl⟩ := h.eq
  exact setHeapWord h (by rw [hf]; exact h.calls.words w hw) w

/-! ### The compiler -/

theorem setCompiler (h : L.Lowered x y) {f : Compiler → Compiler}
    (hb : (f x.compiler).building? = none ∨ (f x.compiler).building? = x.compiler.building?)
    (hl : (f x.compiler).last? = x.compiler.last?) :
    L.Lowered { x with compiler := f x.compiler } { y with compiler := f y.compiler } :=
  h.change (f := fun m => { m with compiler := f m.compiler }) (fun _ => rfl) rfl rfl fun hc =>
    { hc with
      building := fun w hw => by
        rcases hb with hb | hb
        · exact absurd (hb ▸ hw : none = some w) nofun
        · exact hc.building w (hb ▸ hw)
      last := fun w hw => hc.last w (hl ▸ hw) }

theorem getMode : L.IgnoresCase M.mode fun _ => True :=
  get (fun _ _ => rfl) fun _ _ _ => pure trivial

theorem setMode (mode : Mode) : L.IgnoresCase (M.setMode mode) fun _ => True :=
  changing fun _ _ h => setCompiler h (f := ({ · with mode })) (.inr rfl) rfl

theorem requireCompiling (word : String) : L.IgnoresCase (M.requireCompiling word) fun _ => True :=
  getMode.bind fun _ _ => ite (pure trivial) (throw _)

theorem lastWith (held : List Ref) : L.IgnoresCase (M.lastWith held) L.known :=
  get (fun m o => by
    simp only [Compiler.last, Machine.compiler_lowered, Machine.heap_lowered, Machine.roots_lowered,
      Heap.isAlive_lowered]) fun _ _ h =>
      lift _ fun w hw => h.calls.last w (Compiler.last?_of_last hw)

theorem here : L.IgnoresCase M.here fun _ => True :=
  get (fun m o => by
    simp only [Compiler.here, Compiler.last, Machine.compiler_lowered, Machine.heap_lowered,
      Machine.roots_lowered, Heap.isAlive_lowered, Heap.word_lowered]) fun _ _ _ => lift' _

/-- The word under construction is changed. -/
theorem onBuilding {f : Word → Except Error Word} (hf : L.Admitting f) :
    L.IgnoresCase (do
      let m ← MonadState.get
      M.setHeap (m.compiler.building >>= fun b => m.heap.changeWord b f)) fun _ => True := by
  intro x y h
  obtain ⟨o, rfl⟩ := id h.eq
  show L.SameFolded _ (M.setHeap (x.compiler.building >>= fun b => x.heap.changeWord b f) x)
    (M.setHeap (x.compiler.building >>= fun b => x.heap.lowered.changeWord b f) (x.lowered o))
  cases hb : x.compiler.building? with
  | none =>
    have he : x.compiler.building = .error (.compileState .noneOpen) := by
      simp [Compiler.building, hb]
    rw [he]
    exact .error rfl h
  | some b =>
    have he : x.compiler.building = .ok b := by simp [Compiler.building, hb]
    rw [he]
    exact changeWord (h.calls.building b hb) hf x _ h

theorem compile {e : Elem} (he : L.Admits e) : L.IgnoresCase (M.compile e) fun _ => True :=
  onBuilding (admitting_push he)

/-- The code that the first element of a word gets. -/
theorem admits_wrapped (h : L.Lowered x y) {w : WordId} (hw : L.known w) {c : Code}
    (hc : (x.heap.word w).code = .ok c) : L.Admits (.direct (Compiler.wrapped w c)) := by
  have hc := h.calls.words w hw _ (Word.mem_of_code hc)
  cases c with
  | docol => exact .indirect hw 1
  | native p => exact hc
  | indirect body entry => exact hc

theorem compileWord {w : WordId} (hw : L.known w) :
    L.IgnoresCase (M.compileWord w) fun _ => True := by
  intro x y h
  obtain ⟨o, rfl⟩ := id h.eq
  have hm : ∀ m : Machine, M.compileWord w m = M.setHeap (m.compiler.building >>= fun b =>
      if (m.heap.word b).body.isEmpty then (m.heap.word w).code >>= fun code =>
        m.heap.changeWord b fun u => u.push (.direct (Compiler.wrapped w code))
      else m.heap.changeWord b fun u => u.push (.call w)) m := fun _ => rfl
  rw [hm, hm, Machine.compiler_lowered, Machine.heap_lowered]
  cases hb : x.compiler.building? with
  | none =>
    have he : x.compiler.building = .error (.compileState .noneOpen) := by
      simp [Compiler.building, hb]
    rw [he]
    exact .error rfl h
  | some b =>
    have he : x.compiler.building = .ok b := by simp [Compiler.building, hb]
    have hk := h.calls.building b hb
    rw [he]
    show L.SameFolded _ (M.setHeap (if (x.heap.word b).body.isEmpty then _ else _) x)
      (M.setHeap (if (x.heap.word b).body.isEmpty then (x.heap.word w).code >>= fun code =>
        x.heap.lowered.changeWord b fun u => u.push (.direct (Compiler.wrapped w code))
        else _) (x.lowered o))
    by_cases hempty : (x.heap.word b).body.isEmpty = true
    · simp only [if_pos hempty]
      cases hc : (x.heap.word w).code with
      | error e => exact .error rfl h
      | ok code => exact changeWord hk (admitting_push (admits_wrapped h hw hc)) x _ h
    · simp only [if_neg hempty]
      exact changeWord hk (admitting_push (.call hw)) x _ h

/-- Words that machines come with are compiled by their names. -/
theorem builtin {name : String} (hn : foldCase name ∉ quotingNames) :
    L.IgnoresCase (M.builtin name) L.known := by
  refine get (fun _ _ => rfl) fun x y h => ?_
  cases hw : x.find? name with
  | none => exact throw _
  | some w => exact pure (h.calls.find? hw hn)

theorem compileBuiltin {name : String} (hn : foldCase name ∉ quotingNames) :
    L.IgnoresCase (M.compileBuiltin name) fun _ => True :=
  (builtin hn).bind fun _ hw => compile (.call hw)

theorem compileLiteral {v : Value} (hv : L.Knows v) :
    L.IgnoresCase (M.compileLiteral v) fun _ => True :=
  (compileBuiltin (by decide)).bind fun _ _ => compile (.lit hv)

/-- A definition is opened. -/
theorem starting (h : L.Lowered x y) (name : String) :
    L.Lowered (x.starting name) (y.starting name) :=
  h.change (f := (·.starting name)) (fun _ => rfl) rfl rfl fun hc =>
    have hadd := hc.addWord (u := .blank name) nofun
    { hadd with
      building := fun w hw => by
        cases hw
        exact hc.known_new (.blank name)
      last := fun w hw => by
        cases hw
        exact hc.known_new (.blank name) }

theorem openDefinition (name : String) :
    L.IgnoresCase (DefiningWord.openDefinition name) fun _ => True := by
  intro x y h
  have hm : ∀ m : Machine, DefiningWord.openDefinition name m =
      if m.compiler.mode ≠ .interpreting then .error (.compileState .nested) m
      else (do M.compile (.direct .docol); M.setMode .compiling : M Unit) (m.starting name) := by
    intro m
    show (if m.compiler.mode ≠ .interpreting then _ else _ : M Unit) m = _
    split <;> rfl
  obtain ⟨o, rfl⟩ := id h.eq
  rw [hm, hm, Machine.compiler_lowered]
  split
  · exact .error rfl h
  · exact ((compile .docol).bind fun _ _ => setMode _) _ _ (starting h name)

theorem setLastCode {c : Code} (hc : L.Admits (.direct c)) :
    L.IgnoresCase (ThreadedForth.setLastCode c) fun _ => True :=
  (lastWith []).bind fun _ hw => changeWord hw (admitting_poke hc)

/-! ### Names -/

/-- A known word is bound in the dictionary. -/
theorem calls_bind {m : Machine} (h : m.Calls L) {w : WordId} (hw : L.known w) :
    Machine.Calls L { m with
      dictionary := (m.dictionary.add m.heap w).2.1, heap := (m.dictionary.add m.heap w).2.2 } :=
  { h.setWord (u := { m.heap.word w with hidden := false }) (h.words w hw) w with
    names := fun s v hv hs => by
      replace hv : (m.dictionary.bind (m.heap.word w).name w).lookup? (.ofString s) = some v := hv
      rw [Dictionary.lookup?_bind] at hv
      split at hv
      · cases hv
        exact hw
      · exact h.names s v hv hs }

/-- A word is defined, which becomes the word created last. -/
theorem newWord {u : Word} (hu : ∀ e ∈ u.body, L.Admits e) :
    L.IgnoresCase (do let w ← M.install u; M.setLast w; Pure.pure w : M WordId) L.known := by
  intro x y h
  have hxy : L.Lowered (x.defining u) (y.defining u) := by
    refine h.change (f := (·.defining u)) (fun _ => rfl) rfl rfl fun hc => ?_
    have hnew := calls_bind (hc.addWord hu) (w := (x.heap.addWord u).1) (hc.known_new u)
    exact { hnew with
      last := fun w hw => by
        cases hw
        exact hc.known_new u }
  obtain ⟨o, rfl⟩ := id h.eq
  exact .ok (x.install u).1 (h.calls.known_new u) hxy

theorem createWord (name : String) : L.IgnoresCase (ThreadedForth.createWord name) L.known := by
  refine newWord fun e he => ?_
  simp only [Word.created, List.mem_toArray, List.mem_singleton] at he
  rw [he]
  exact .native (by decide)

theorem defineConstant (name : String) {v : Value} (hv : L.Knows v) :
    L.IgnoresCase (M.defineConstant name v) L.known := by
  refine newWord fun e he => ?_
  simp only [Word.constant, List.mem_toArray, List.mem_cons, List.not_mem_nil, or_false] at he
  rcases he with rfl | rfl
  · exact .native (by decide)
  · exact .lit hv

theorem defineFields (name : String) : ∀ i fields,
    L.IgnoresCase (ObjectWord.defineFields name i fields) fun _ => True
  | _, [] => pure trivial
  | i, _ :: rest => (defineConstant _ (.plain rfl)).bind fun _ _ => defineFields name (i + 1) rest

/-! ### The line -/

/-- The lines that are left may be cut down in the same way. -/
theorem setLine (h : L.Lowered x y) {l : Line} (hl : x.line.Speaks Spoken → l.Speaks Spoken) :
    L.Lowered { x with line := l } { y with line := l.lowered } := by
  obtain ⟨o, ho, rfl, hc, hs⟩ := h
  exact ⟨o, ho, rfl, { hc with }, hl hs⟩

/-- The next token comes in its own case and in lower case. -/
theorem advanced (h : L.Lowered x y) :
    L.Lowered { x with line := x.line.advance } { y with line := y.line.advance } ∧
      y.line.advance.token? = x.line.advance.token?.map foldCase ∧
      ∀ t, x.line.advance.token? = some t → Spoken t := by
  obtain ⟨o, rfl⟩ := id h.eq
  rw [Machine.line_lowered, Line.advance_lowered]
  refine ⟨setLine h fun hs => hs.advance.1, Line.token?_lowered _, ?_⟩
  obtain ⟨_, _, _, _, hs⟩ := h
  exact hs.advance.2

theorem nextToken {f : Option String → M β} (hnone : L.IgnoresCase (f none) ψ)
    (hsome : ∀ t, Spoken t → ∀ x y, L.Lowered x y →
      L.SameFolded ψ (f (some t) x) (f (some (foldCase t)) y)) :
    L.IgnoresCase (M.nextToken >>= f) ψ := by
  intro x y h
  obtain ⟨hline, htoken, hspoken⟩ := advanced h
  show L.SameFolded ψ (f x.line.advance.token? _) (f y.line.advance.token? _)
  rw [htoken]
  cases ht : x.line.advance.token? with
  | none => exact hnone _ _ hline
  | some t => exact hsome t (hspoken t ht) _ _ hline

theorem nextName {reader : String} {f : String → M β}
    (hf : ∀ t, Spoken t → ∀ x y, L.Lowered x y → L.SameFolded ψ (f t x) (f (foldCase t) y)) :
    L.IgnoresCase (M.nextName reader >>= f) ψ := by
  rw [M.nextName, bind_assoc]
  exact nextToken (throw _) hf

/-- A name that is only used up to its case. -/
theorem nextName' {reader : String} {f : String → M β} (he : ∀ t, f (foldCase t) = f t)
    (hf : ∀ t, L.IgnoresCase (f t) ψ) : L.IgnoresCase (M.nextName reader >>= f) ψ :=
  nextName fun t _ x y h => by
    rw [he]
    exact hf t x y h

theorem nextWord (reader : String) : L.IgnoresCase (M.nextWord reader) L.known := by
  refine nextName fun t ht x y h => ?_
  obtain ⟨o, rfl⟩ := id h.eq
  have hfind : (x.lowered o).find? (foldCase t) = x.find? t := by
    rw [Machine.find?_lowered, Machine.find?, Dictionary.find?, Name.ofString_foldCase]
    rfl
  rw [M.bind_ok (x := MonadState.get) rfl, M.bind_ok (x := MonadState.get) rfl, hfind]
  cases hw : x.find? t with
  | none => exact .error (by simp [Error.folded]) h
  | some w => exact .ok w (h.calls.find? hw ht) h

/-- Comments end at the same token. -/
theorem skipComment (h : L.Lowered x y) : L.Lowered x.skipComment y.skipComment := by
  obtain ⟨o, ho, rfl, hc, hs⟩ := h
  have hlen : (x.lowered o).line.text.length = x.line.text.length := by simp [Line.lowered]
  have hskip : (x.lowered o).skipComment = x.skipComment.lowered o := by
    unfold Machine.skipComment
    rw [hlen, Machine.line_lowered, Line.skipComment_lowered]
    rfl
  exact ⟨o, ho, hskip, { hc with }, hs.skipComment (x.line.text.length + 1)⟩

theorem skipLine (h : L.Lowered x y) :
    L.Lowered { x with line := x.line.skip } { y with line := y.line.skip } := by
  obtain ⟨o, rfl⟩ := id h.eq
  rw [Machine.line_lowered, Line.skip_lowered]
  exact setLine h fun _ => Line.speaks_skip _

/-! ### Types -/

theorem setTypes (h : L.Lowered x y) {t : Types} (ht : ∀ w, t.Handles w → L.known w) :
    L.Lowered { x with types := t } { y with types := t.lowered } := by
  obtain ⟨o, ho, rfl, hc, hs⟩ := h
  exact ⟨o, ho, rfl, { hc with types := ht }, hs⟩

/-- A type is declared under a name in its own case and in lower case. -/
theorem addUser (h : L.Lowered x y) (d : Declaration) :
    L.SameFolded (fun _ => True) (M.onTypes (·.addUser d) x)
      (M.onTypes (·.addUser d.lowered) y) := by
  obtain ⟨o, rfl⟩ := id h.eq
  obtain ⟨ht, hr⟩ := x.types.addUser_lowered d
  have hxy : L.Lowered { x with types := (x.types.addUser d).2 }
      { x.lowered o with types := (x.types.lowered.addUser d.lowered).2 } := by
    rw [ht]
    exact setTypes h fun w hw => h.calls.types w (ObjectWord.handles_addUser hw)
  rw [M.onTypes_eq, M.onTypes_eq, Machine.types_lowered]
  rcases hr with hr | ⟨hr, hr'⟩
  · simp only [hr]
    cases (x.types.addUser d).1 with
    | error e => exact .error rfl hxy
    | ok id => exact .ok id trivial hxy
  · simp only [hr, hr']
    exact .error (by simp [Error.folded]) hxy

theorem setHandler {t : TypeId} {w : WordId} (hw : L.known w) :
    L.IgnoresCase (M.onTypes (·.setHandler t (.word w))) fun _ => True := by
  intro x y h
  obtain ⟨o, rfl⟩ := id h.eq
  have hxy := setTypes h (t := (x.types.setHandler t (.word w)).2) fun v hv => by
    rcases ObjectWord.handles_setHandler hv with hv | rfl
    · exact h.calls.types v hv
    · exact hw
  rw [M.onTypes_eq, M.onTypes_eq, Machine.types_lowered]
  simp only [Types.setHandler_lowered]
  cases (x.types.setHandler t (.word w)).1 with
  | error e => exact .error rfl hxy
  | ok u => exact .ok u trivial hxy

end IgnoresCase
end Likeness
end ThreadedForth
