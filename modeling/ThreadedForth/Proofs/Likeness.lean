/-
  Machines that are alike: relations that survive whatever is done to both.
-/
import ThreadedForth.Proofs.Answers

namespace ThreadedForth

variable {α β : Type}

/-! ## The parts of a machine -/

/-- A machine apart from its line, its heap, its dictionary and its compiler; a comment that is open
    belongs to the line, and the addresses of the objects belong to the heap. -/
structure Common where
  data : Stack Value
  «return» : Stack Int64
  temp : Stack Value
  self : Stack Value
  output : Output
  types : Types
  debugger : Debugger
  frames : List Frame
  runs : List Run
  cells : Array Int64
  flags : Array Bool
  interrupt : Bool
  host : Host

/-- The word as it would be if it could be found. -/
def Word.shown (w : Word) : Word :=
  { w with hidden := false }

namespace Machine

/-- The machine apart from its line, its heap, its dictionary and its compiler. -/
def common (m : Machine) : Common :=
  ⟨m.data, m.return, m.temp, m.self, m.output, m.types, m.debugger, m.frames, m.runs, m.cells,
    m.flags, m.interrupt, m.host⟩

/-- The machine with everything replaced but its line, its heap, its dictionary and its compiler. -/
def share (m : Machine) (c : Common) : Machine :=
  { m with
    data := c.data, «return» := c.return, temp := c.temp, self := c.self, output := c.output,
    types := c.types, debugger := c.debugger, frames := c.frames, runs := c.runs, cells := c.cells,
    flags := c.flags, interrupt := c.interrupt, host := c.host }

/-- The machine with other objects on its heap. -/
def setObjects (m : Machine) (os : Array Obj) : Machine :=
  { m with heap := { m.heap with objects := os } }

/-- The machine with the body of a word replaced. -/
def setBody (m : Machine) (w : WordId) (body : Array Elem) : Machine :=
  { m with heap := m.heap.updateWord w fun x => { x with body } }

end Machine

theorem M.peek_eq_ok {n : Nat} {v : Value} {m m' : Machine} (h : M.peek n m = .ok v m') :
    m.data.peek? n = some v ∧ m' = m := by
  unfold M.peek Stack.peek at h
  cases hp : m.data.peek? n with
  | none =>
    rw [hp] at h
    cases h
  | some u =>
    rw [hp] at h
    cases h
    exact ⟨rfl, rfl⟩

/-! ## Likenesses -/

/-- A relation between machines, and the words that machines related by it may refer to. -/
structure Likeness where
  alike : Machine → Machine → Prop
  known : WordId → Prop

namespace Likeness

variable {L : Likeness} {x y : Machine} {φ : α → Prop} {ψ : β → Prop}

/-- Every word that the references lead to is known. -/
def KnowsAll (L : Likeness) (rs : List Ref) : Prop :=
  ∀ w, .word w ∈ rs → L.known w

/-- Every word that a value refers to is known. -/
def Knows (L : Likeness) (v : Value) : Prop :=
  L.KnowsAll v.refs

theorem Knows.plain {v : Value} (h : v.refs = []) : L.Knows v := by
  intro w hw
  rw [h] at hw
  cases hw

theorem Knows.xt {w : WordId} (h : L.known w) : L.Knows (.xt w) := by
  intro u hu
  cases List.mem_singleton.1 hu
  exact h

theorem Knows.ptr {p : Pointer} (h : L.known p.target) : L.Knows (.ptr p) := by
  intro u hu
  cases List.mem_singleton.1 hu
  exact h

theorem Knows.obj (o : ObjId) : L.Knows (.obj o) := by
  intro u hu
  cases List.mem_singleton.1 hu

theorem knows_text (s : String) : ∀ v ∈ (Obj.text s).items, L.Knows v := by
  intro v hv
  simp [Obj.items] at hv

theorem Knows.of_xt {w : WordId} (h : L.Knows (.xt w)) : L.known w :=
  h w List.mem_cons_self

theorem Knows.of_ptr {p : Pointer} (h : L.Knows (.ptr p)) : L.known p.target :=
  h p.target List.mem_cons_self

/-- Two results of a computation are the same, and leave machines that are alike. -/
inductive Same (L : Likeness) (φ : α → Prop) :
    EStateM.Result Error Machine α → EStateM.Result Error Machine α → Prop
  | ok {x y : Machine} (a : α) (ha : φ a) (h : L.alike x y) : Same L φ (.ok a x) (.ok a y)
  | error {x y : Machine} (e : Error) (h : L.alike x y) : Same L φ (.error e x) (.error e y)

/-- A computation that does the same to machines that are alike; its results have the property
    `φ`. -/
def Keeps (L : Likeness) (act : M α) (φ : α → Prop) : Prop :=
  ∀ x y, L.alike x y → L.Same φ (act x) (act y)

theorem Same.bind {act : M α} {f : α → M β} (h : L.Same φ (act x) (act y))
    (hf : ∀ a x' y', act x = .ok a x' → act y = .ok a y' → φ a → L.alike x' y' →
      L.Same ψ (f a x') (f a y')) : L.Same ψ ((act >>= f) x) ((act >>= f) y) := by
  generalize hx : act x = r at h
  generalize hy : act y = s at h
  cases h with
  | ok a ha h =>
    rw [M.bind_ok hx, M.bind_ok hy]
    exact hf a _ _ hx hy ha h
  | error e h =>
    rw [M.bind_error hx, M.bind_error hy]
    exact .error e h

theorem Same.alike {r s : EStateM.Result Error Machine α} (h : L.Same φ r s) :
    L.alike (Machine.after r) (Machine.after s) := by
  cases h with
  | ok _ _ h => exact h
  | error _ h => exact h

namespace Keeps

theorem pure {a : α} (ha : φ a) : L.Keeps (Pure.pure a) φ :=
  fun _ _ h => .ok a ha h

theorem throw (e : Error) : L.Keeps (MonadExcept.throw e : M α) φ :=
  fun _ _ h => .error e h

theorem bind {act : M α} {f : α → M β} (h : L.Keeps act φ) (hf : ∀ a, φ a → L.Keeps (f a) ψ) :
    L.Keeps (act >>= f) ψ :=
  fun x y hxy => (h x y hxy).bind fun a x' y' _ _ ha h' => hf a ha x' y' h'

/-- A computation that looks at the machine, but not at what tells it from one that is alike. -/
theorem get {f : Machine → M α} (h : ∀ x y, L.alike x y → f x = f y)
    (hf : ∀ x y, L.alike x y → L.Keeps (f x) φ) : L.Keeps (MonadState.get >>= f) φ := by
  intro x y hxy
  show L.Same φ (f x x) (f y y)
  rw [← h x y hxy]
  exact hf x y hxy x y hxy

theorem ite {p : Prop} [Decidable p] {act act' : M α} (h : L.Keeps act φ) (h' : L.Keeps act' φ) :
    L.Keeps (if p then act else act') φ := by
  split
  · exact h
  · exact h'

/-- A check that comes before a computation. -/
theorem orThrow {p : Prop} [Decidable p] {e : Error} {act : M α} (h : L.Keeps act φ) :
    L.Keeps (if p then (MonadExcept.throw e : M Unit) >>= fun _ => act else act) φ :=
  .ite ((Keeps.throw (φ := fun _ => True) e).bind fun _ _ => h) h

theorem lift (r : Except Error α) (hr : ∀ a, r = .ok a → φ a) : L.Keeps (M.lift r) φ := by
  intro x y h
  cases r with
  | ok a => exact .ok a (hr a rfl) h
  | error e => exact .error e h

/-- A result that no condition is put on. -/
theorem lift' (r : Except Error α) : L.Keeps (M.lift r) fun _ => True :=
  lift r fun _ _ => trivial

theorem modify {f : Machine → Machine} (h : ∀ x y, L.alike x y → L.alike (f x) (f y)) :
    L.Keeps (modify f : M Unit) fun _ => True :=
  fun x y hxy => .ok () trivial (h x y hxy)

end Keeps

/-! ## What most primitives need -/

/-- The words that the common part of a machine refers to are known. -/
structure Holds (L : Likeness) (c : Common) : Prop where
  data : ∀ v ∈ c.data.items, L.Knows v
  temp : ∀ v ∈ c.temp.items, L.Knows v
  self : ∀ v ∈ c.self.items, L.Knows v
  frames : ∀ f ∈ c.frames, L.known f.word
  runs : ∀ r ∈ c.runs, ∀ v ∈ r.pending.values, L.Knows v
  types : ∀ w, c.types.Handles w → L.known w

/-- A likeness of machines with the same objects and the same words, as far as these are known and
    apart from whether they can be found; machines stay alike when both change in the same way. -/
structure Basic (L : Likeness) : Prop where
  common : ∀ {x y}, L.alike x y → x.common = y.common
  holds : ∀ {x y}, L.alike x y → L.Holds x.common
  share : ∀ {x y}, L.alike x y → ∀ {c}, L.Holds c → L.alike (x.share c) (y.share c)
  objects : ∀ {x y}, L.alike x y → x.heap.objects = y.heap.objects
  items : ∀ {x y}, L.alike x y → ∀ o ∈ x.heap.objects, ∀ v ∈ o.items, L.Knows v
  setObjects : ∀ {x y}, L.alike x y → ∀ {os : Array Obj}, (∀ o ∈ os, ∀ v ∈ o.items, L.Knows v) →
    L.alike (x.setObjects os) (y.setObjects os)
  word : ∀ {x y}, L.alike x y → ∀ {w}, L.known w →
    (x.heap.word w).shown = (y.heap.word w).shown ∧ L.KnowsAll (x.heap.word w).refs
  setBody : ∀ {x y}, L.alike x y → ∀ {w}, L.known w → ∀ {body : Array Elem},
    L.KnowsAll (body.toList.flatMap Elem.refs) → L.alike (x.setBody w body) (y.setBody w body)

namespace Basic

variable (B : L.Basic)
include B

/-- The same change of the common part. -/
theorem change (h : L.alike x y) (f : Common → Common) (hf : L.Holds (f x.common)) :
    L.alike (x.share (f x.common)) (y.share (f y.common)) := by
  rw [← B.common h]
  exact B.share h hf

theorem data_eq (h : L.alike x y) : x.data = y.data := congrArg Common.data (B.common h)

theorem return_eq (h : L.alike x y) : x.return = y.return := congrArg Common.return (B.common h)

theorem types_eq (h : L.alike x y) : x.types = y.types := congrArg Common.types (B.common h)

theorem frames_eq (h : L.alike x y) : x.frames = y.frames := congrArg Common.frames (B.common h)

theorem runs_eq (h : L.alike x y) : x.runs = y.runs := congrArg Common.runs (B.common h)

theorem output_eq (h : L.alike x y) : x.output = y.output := congrArg Common.output (B.common h)

theorem object_eq (h : L.alike x y) (o : ObjId) : x.heap.object o = y.heap.object o := by
  unfold Heap.object
  rw [B.objects h]

theorem item (h : L.alike x y) (o : ObjId) {v : Value} (hv : v ∈ (x.heap.object o).items) :
    L.Knows v := by
  unfold Heap.object at hv
  cases ho : x.heap.objects[o.index]? with
  | none =>
    rw [ho] at hv
    simp [default, Obj.items] at hv
  | some obj =>
    rw [ho] at hv
    exact B.items h obj (Array.mem_of_getElem? ho) v hv

/-! ### Stacks -/

theorem setData (h : L.alike x y) {s : Stack Value} (hs : ∀ v ∈ s.items, L.Knows v) :
    L.alike { x with data := s } { y with data := s } :=
  B.change h (fun c => { c with data := s }) { B.holds h with data := hs }

theorem setReturn (h : L.alike x y) (s : Stack Int64) :
    L.alike { x with «return» := s } { y with «return» := s } :=
  B.change h (fun c => { c with «return» := s }) { B.holds h with }

theorem pop : L.Keeps M.pop L.Knows := by
  intro x y h
  have hd := (B.holds h).data
  unfold M.pop
  rw [← B.data_eq h]
  cases hp : x.data.pop with
  | error e => exact .error e h
  | ok vs =>
    obtain ⟨hi, -⟩ := Stack.pop_eq_ok hp
    exact .ok _ (hd _ (hi ▸ List.mem_cons_self))
      (B.setData h fun v hv => hd v (hi ▸ List.mem_cons_of_mem _ hv))

theorem push {v : Value} (hv : L.Knows v) : L.Keeps (M.push v) fun _ => True := by
  intro x y h
  unfold M.push
  rw [← B.data_eq h]
  cases hp : x.data.push v with
  | error e => exact .error e h
  | ok s =>
    obtain ⟨-, rfl⟩ := Stack.push_eq_ok hp
    refine .ok () trivial (B.setData h fun u hu => ?_)
    rcases List.mem_cons.1 hu with rfl | hu
    · exact hv
    · exact (B.holds h).data u hu

/-- A value that refers to nothing is pushed. -/
theorem pushPlain {v : Value} (hv : v.refs = []) : L.Keeps (M.push v) fun _ => True :=
  B.push (.plain hv)

theorem peek (n : Nat) : L.Keeps (M.peek n) L.Knows := by
  intro x y h
  unfold M.peek
  rw [← B.data_eq h]
  unfold Stack.peek Stack.peek?
  cases hp : x.data.items[n]? with
  | none => exact .error _ h
  | some v => exact .ok v ((B.holds h).data v (List.mem_of_getElem? hp)) h

theorem popInt : L.Keeps M.popInt fun _ => True :=
  B.pop.bind fun _ _ => .lift' _

theorem popFlag : L.Keeps M.popFlag fun _ => True :=
  B.pop.bind fun _ _ => .lift' _

theorem popWord : L.Keeps M.popWord L.known := by
  refine B.pop.bind fun v hv => .lift _ fun w hw => ?_
  cases v with
  | xt u =>
    cases hw
    exact hv.of_xt
  | _ => cases hw

theorem pushReturn (n : Int64) : L.Keeps (M.pushReturn n) fun _ => True := by
  intro x y h
  unfold M.pushReturn
  rw [← B.return_eq h]
  cases x.return.push n with
  | error e => exact .error e h
  | ok s => exact .ok () trivial (B.setReturn h s)

theorem popReturn : L.Keeps M.popReturn fun _ => True := by
  intro x y h
  unfold M.popReturn
  rw [← B.return_eq h]
  cases x.return.pop with
  | error e => exact .error e h
  | ok s => exact .ok _ trivial (B.setReturn h s.2)

theorem peekReturn (n : Nat) : L.Keeps (M.peekReturn n) fun _ => True := by
  intro x y h
  unfold M.peekReturn
  rw [← B.return_eq h]
  cases x.return.peek n with
  | error e => exact .error e h
  | ok v => exact .ok _ trivial h

/-! ### Output and types -/

theorem setOutput (h : L.alike x y) (o : Output) :
    L.alike { x with output := o } { y with output := o } :=
  B.change h (fun c => { c with output := o }) { B.holds h with }

theorem put (piece : String) : L.Keeps (M.put piece) fun _ => True := by
  intro x y h
  unfold M.put
  rw [← B.output_eq h]
  cases x.output.push piece with
  | error e => exact .error e h
  | ok o => exact .ok () trivial (B.setOutput h o)

theorem write (pieces : List String) : L.Keeps (M.write pieces) fun _ => True := by
  intro x y h
  rw [M.write_eq, M.write_eq, ← B.output_eq h]
  cases (x.output.write pieces).2 with
  | false => exact .error _ (B.setOutput h _)
  | true => exact .ok () trivial (B.setOutput h _)

theorem putByte (b : UInt8) : L.Keeps (putByte b) fun _ => True := by
  intro x y h
  unfold ThreadedForth.putByte
  rw [← B.output_eq h]
  cases x.output.pushBytes [b] with
  | error e => exact .error e h
  | ok o => exact .ok () trivial (B.setOutput h o)

theorem onTypes {act : Types → Except Error α × Types}
    (ha : ∀ t w, (∀ u, t.Handles u → L.known u) → (act t).2.Handles w → L.known w) :
    L.Keeps (M.onTypes act) fun _ => True := by
  intro x y h
  have ht : L.alike { x with types := (act x.types).2 } { y with types := (act x.types).2 } :=
    B.change h (fun c => { c with types := (act x.types).2 })
      { B.holds h with types := fun w hw => ha _ w (B.holds h).types hw }
  unfold M.onTypes
  rw [← B.types_eq h]
  rcases hr : act x.types with ⟨_ | a, t⟩
  · rw [hr] at ht
    exact .error _ ht
  · rw [hr] at ht
    exact .ok a trivial ht

/-! ### Frames -/

theorem setFrames (h : L.alike x y) {fs : List Frame} (hf : ∀ f ∈ fs, L.known f.word) :
    L.alike { x with frames := fs } { y with frames := fs } :=
  B.change h (fun c => { c with frames := fs }) { B.holds h with frames := hf }

theorem current : L.Keeps M.current fun f => L.known f.word := by
  intro x y h
  have hf : ∀ f ∈ x.frames, L.known f.word := (B.holds h).frames
  have he := B.frames_eq h
  rw [M.current, M.bind_ok (x := MonadState.get) rfl, M.bind_ok (x := MonadState.get) rfl, ← he]
  cases hfs : x.frames with
  | nil => exact .error _ h
  | cons f rest => exact .ok f (hf f (hfs ▸ List.mem_cons_self)) h

theorem parent : L.Keeps M.parent fun f => L.known f.word := by
  intro x y h
  have hf : ∀ f ∈ x.frames, L.known f.word := (B.holds h).frames
  have he := B.frames_eq h
  rw [M.parent, M.bind_ok (x := MonadState.get) rfl, M.bind_ok (x := MonadState.get) rfl, ← he]
  rcases hfs : x.frames with _ | ⟨f, _ | ⟨p, rest⟩⟩
  · exact .error _ h
  · exact .error _ h
  · exact .ok p (hf p (by simp [hfs])) h

theorem setParentIp (ip : Nat) : L.Keeps (M.setParentIp ip) fun _ => True := by
  intro x y h
  rw [M.setParentIp_eq, M.setParentIp_eq, ← B.frames_eq h]
  refine .ok () trivial (B.setFrames h fun f hf => ?_)
  have hw : f.word ∈ (moveParent (some ip) x.frames).map Frame.word := List.mem_map_of_mem hf
  rw [map_word_moveParent] at hw
  obtain ⟨g, hg, hgf⟩ := List.mem_map.1 hw
  rw [← hgf]
  exact (B.holds h).frames g hg

/-! ### Objects -/

theorem addObject (h : L.alike x y) {o : Obj} (ho : ∀ v ∈ o.items, L.Knows v) :
    (x.heap.addObject o).1 = (y.heap.addObject o).1 ∧
      L.alike { x with heap := (x.heap.addObject o).2 } { y with heap := (y.heap.addObject o).2 } := by
  have hos := B.objects h
  refine ⟨by simp [Heap.addObject, hos], ?_⟩
  have hos' : ∀ p ∈ x.heap.objects.push o, ∀ v ∈ p.items, L.Knows v := by
    intro p hp
    rcases Array.mem_push.1 hp with hp | rfl
    · exact B.items h p hp
    · exact ho
  have hset := B.setObjects h hos'
  simpa only [Machine.setObjects, Heap.addObject, hos] using hset

theorem setObject (h : L.alike x y) (i : ObjId) {o : Obj} (ho : ∀ v ∈ o.items, L.Knows v) :
    L.alike { x with heap := x.heap.setObject i o } { y with heap := y.heap.setObject i o } := by
  have hos := B.objects h
  have hos' : ∀ p ∈ x.heap.objects.setIfInBounds i.index o, ∀ v ∈ p.items, L.Knows v := by
    intro p hp
    rcases Array.mem_or_eq_of_mem_setIfInBounds hp with hp | rfl
    · exact B.items h p hp
    · exact ho
  have hset := B.setObjects h hos'
  simpa only [Machine.setObjects, Heap.setObject, hos] using hset

theorem newText (s : String) : L.Keeps (M.newText s) L.Knows := by
  intro x y h
  obtain ⟨hid, hxy⟩ := B.addObject h (knows_text s)
  show L.Same L.Knows (.ok (.obj (x.heap.addObject (.text s)).1) _)
    (.ok (.obj (y.heap.addObject (.text s)).1) _)
  rw [hid]
  exact .ok _ (.obj _) hxy

theorem pushNew {o : Obj} (ho : ∀ v ∈ o.items, L.Knows v) : L.Keeps (M.pushNew o) fun _ => True := by
  intro x y h
  obtain ⟨hid, hxy⟩ := B.addObject h ho
  show L.Same _ (M.push (.obj (x.heap.addObject o).1) _) (M.push (.obj (y.heap.addObject o).1) _)
  rw [hid]
  exact B.push (.obj _) _ _ hxy

end Basic
end Likeness
end ThreadedForth
