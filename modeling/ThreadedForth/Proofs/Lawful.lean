/-
  Laws that a machine obeys, and computations that keep to them.
-/
import ThreadedForth.Proofs.AsciiTexts
import ThreadedForth.Proofs.ContextEffects
import ThreadedForth.Proofs.SecureValues

namespace ThreadedForth

variable {α β : Type}

/-! ## Laws -/

/-- A law. -/
structure Law where
  /-- The words that may be referred to. -/
  callee : WordId → Prop
  /-- The modes of the compiler and the words that may be under construction then. -/
  draft : Mode → Option WordId → Prop
  /-- Nothing came from a host. -/
  closed : Prop
  /-- An allocation may fail. -/
  faults : Prop
  /-- The sizes of the stacks and buffers. -/
  sizes : Params
  draft_reset : draft .interpreting none
  draft_interpreting : ∀ {mode b?}, draft mode b? → draft .interpreting b?
  draft_pending : ∀ {mode b?}, draft mode b? → draft .runtimeCompiling b?
  draft_postponed : ∀ {b?}, draft .compiling b? → draft .compilingPostponed b?
  draft_compiling : ∀ {mode b?}, (mode = .compilingPostponed ∨ b? ≠ none) → draft mode b? →
    draft .compiling b?

/-- Whether a primitive is one of a host. -/
def Primitive.isHost : Primitive → Bool
  | host _ => true
  | _ => false

/-- Whether an error is the fault of a native word. -/
def Error.isFault : Error → Bool
  | nativeFault _ => true
  | _ => false

/-- The texts of a closed machine are ASCII. -/
def Law.Text (L : Law) (s : String) : Prop :=
  L.closed → AsciiText s

/-- A closed machine has no faults but those of allocations, if there may be any. -/
def Error.Obeys (L : Law) (e : Error) : Prop :=
  L.closed → ∀ f, e = .nativeFault f → f = .allocation ∧ L.faults

def Value.Obeys (L : Law) : Value → Prop
  | char c => L.closed → c < 128
  | xt w => L.callee w
  | ptr p => L.callee p.target
  | _ => True

def Code.Obeys (L : Law) : Code → Prop
  | native p => L.closed → p.isHost = false
  | docol => True
  | indirect body _ => L.callee body

def Elem.Obeys (L : Law) : Elem → Prop
  | direct c => c.Obeys L
  | call w => L.callee w
  | lit v => v.Obeys L
  | recurse => True

structure Word.Obeys (L : Law) (w : Word) : Prop where
  name : L.Text w.name.text
  body : ∀ e ∈ w.body, e.Obeys L

structure Declaration.Obeys (L : Law) (d : Declaration) : Prop where
  name : L.Text d.name
  fields : ∀ f ∈ d.fields, L.Text f

def Obj.Obeys (L : Law) : Obj → Prop
  | text s => L.Text s
  | array items _ => ∀ v ∈ items, v.Obeys L
  | record _ d items _ => d.Obeys L ∧ ∀ v ∈ items, v.Obeys L

/-- A heap that obeys a law; the words that it does not have yet may be referred to. -/
structure Heap.Obeys (L : Law) (h : Heap) : Prop where
  words : ∀ w ∈ h.words, w.Obeys L
  objects : ∀ o ∈ h.objects, o.Obeys L
  fresh : ∀ w : WordId, h.words.size ≤ w.index → L.callee w

def Handler.Obeys (L : Law) : Handler → Prop
  | strings => True
  | host _ => ¬ L.closed
  | word w => L.callee w

def Maker.Obeys (L : Law) : Maker → Prop
  | host _ => ¬ L.closed
  | _ => True

structure TypeEntry.Obeys (L : Law) (e : TypeEntry) : Prop where
  name : L.Text e.name
  maker : ∀ maker handler, e.sort = .object maker handler → maker.Obeys L
  declaration : ∀ d handler, e.sort = .user d handler → d.Obeys L
  handler : ∀ h, e.handler? = some h → h.Obeys L

def Types.Obeys (L : Law) (t : Types) : Prop :=
  ∀ e, (e ∈ t.values ∨ e ∈ t.objects ∨ e ∈ t.users) → e.Obeys L

def After.Obeys (L : Law) : After → Prop
  | push => True
  | select a b => a.Obeys L ∧ b.Obeys L
  | store p => L.callee p.target

/-- Only a host catches errors. -/
def Pending.Obeys (L : Law) : Pending → Prop
  | handler _ after => after.Obeys L
  | attempt => ¬ L.closed
  | _ => True

def Flow.Obeys (L : Law) : Flow → Prop
  | call w => L.callee w
  | nest w pending => L.callee w ∧ pending.Obeys L
  | _ => True

/-- A stack of a given capacity, which it does not exceed. -/
structure Stack.Within (n : Nat) (s : Stack α) : Prop where
  capacity : s.capacity = n
  fits : s.Fits

/-- An output of a given capacity, which it does not exceed. -/
structure Output.Within (n : Nat) (o : Output) : Prop where
  capacity : o.capacity = n
  fits : o.Fits

/-- A well-formed line of a given capacity. -/
structure Line.Within (n : Nat) (l : Line) : Prop where
  capacity : l.capacity = n
  wellFormed : l.WellFormed

/-- A machine whose stacks and buffers have given sizes, which they do not exceed. -/
structure Machine.Bounded (p : Params) (m : Machine) : Prop where
  data : m.data.Within p.dataStack
  «return» : m.return.Within p.returnStack
  temp : m.temp.Within p.tempStack
  self : m.self.Within p.selfStack
  line : m.line.Within p.inputBuffer
  output : m.output.Within p.outputBuffer

structure Machine.Obeys (L : Law) (m : Machine) : Prop where
  heap : m.heap.Obeys L
  data : ∀ v ∈ m.data.items, v.Obeys L
  temp : ∀ v ∈ m.temp.items, v.Obeys L
  self : ∀ v ∈ m.self.items, v.Obeys L
  frames : ∀ f ∈ m.frames, L.callee f.word
  runs : ∀ r ∈ m.runs, r.pending.Obeys L
  dictionary : ∀ e ∈ m.dictionary.entries, L.callee e.2
  types : m.types.Obeys L
  draft : L.draft m.compiler.mode m.compiler.building?
  output : L.Text m.output.text
  bounded : m.Bounded L.sizes

variable {L : Law}

/-! ## Texts and values -/

namespace Law.Text

theorem append {s t : String} (hs : L.Text s) (ht : L.Text t) : L.Text (s ++ t) :=
  fun hc => (hs hc).append (ht hc)

theorem join {ss : List String} (h : ∀ s ∈ ss, L.Text s) : L.Text (String.join ss) :=
  fun hc => .join fun s hs => h s hs hc

/-- The texts that a machine has by itself. -/
theorem of_ascii {s : String} (h : AsciiText s) : L.Text s :=
  fun _ => h

theorem foldCase {s : String} (h : L.Text s) : L.Text (foldCase s) :=
  fun hc => (h hc).foldCase

end Law.Text

theorem Error.Obeys.of_ne {e : Error} (h : e.isFault = false) : e.Obeys L := by
  intro _ f hf
  subst hf
  cases h

/-- Whether a value is no character and refers to no word. -/
def Value.isInert : Value → Bool
  | char _ | xt _ | ptr _ => false
  | _ => true

theorem Value.Obeys.inert {v : Value} (hv : v.isInert = true) : v.Obeys L := by
  cases v with
  | char | xt | ptr => cases hv
  | _ => trivial

/-! ## Weaker laws -/

/-- A law that whatever obeys `L` obeys as well, but for what is under construction and for
    faults. -/
structure Law.Weakens (L' L : Law) : Prop where
  callee : ∀ w, L.callee w → L'.callee w
  closed : L'.closed → L.closed
  sizes : L'.sizes = L.sizes

section Weakens

variable {L' : Law} (hL : L'.Weakens L)

include hL

theorem Value.Obeys.mono {v : Value} (hv : v.Obeys L) : v.Obeys L' := by
  cases v with
  | char => exact fun hc => hv (hL.closed hc)
  | xt | ptr => exact hL.callee _ hv
  | _ => trivial

theorem Elem.Obeys.mono {e : Elem} (he : e.Obeys L) : e.Obeys L' := by
  cases e with
  | direct c =>
    cases c with
    | native => exact fun hc => he (hL.closed hc)
    | docol => trivial
    | indirect => exact hL.callee _ he
  | call => exact hL.callee _ he
  | lit => exact Value.Obeys.mono hL he
  | recurse => trivial

theorem Word.Obeys.mono {w : Word} (hw : w.Obeys L) : w.Obeys L' :=
  ⟨fun hc => hw.name (hL.closed hc), fun e he => (hw.body e he).mono hL⟩

theorem Declaration.Obeys.mono {d : Declaration} (hd : d.Obeys L) : d.Obeys L' :=
  ⟨fun hc => hd.name (hL.closed hc), fun f hf hc => hd.fields f hf (hL.closed hc)⟩

theorem Obj.Obeys.mono {x : Obj} (hx : x.Obeys L) : x.Obeys L' := by
  cases x with
  | text => exact fun hc => hx (hL.closed hc)
  | array => exact fun v hv => (hx v hv).mono hL
  | record => exact ⟨hx.1.mono hL, fun v hv => (hx.2 v hv).mono hL⟩

theorem Heap.Obeys.mono {h : Heap} (hh : h.Obeys L) : h.Obeys L' :=
  ⟨fun w hw => (hh.words w hw).mono hL, fun x hx => (hh.objects x hx).mono hL,
    fun w hw => hL.callee w (hh.fresh w hw)⟩

theorem TypeEntry.Obeys.mono {e : TypeEntry} (he : e.Obeys L) : e.Obeys L' where
  name hc := he.name (hL.closed hc)
  maker maker handler hs := by
    have hm := he.maker maker handler hs
    cases maker with
    | host => exact fun hc => hm (hL.closed hc)
    | _ => trivial
  declaration d handler hs := (he.declaration d handler hs).mono hL
  handler h hh := by
    have hm := he.handler h hh
    cases h with
    | strings => trivial
    | word => exact hL.callee _ hm
    | host => exact fun hc => hm (hL.closed hc)

theorem Pending.Obeys.mono {q : Pending} (hq : q.Obeys L) : q.Obeys L' := by
  cases q with
  | handler _ after =>
    cases after with
    | push => trivial
    | select => exact ⟨Value.Obeys.mono hL hq.1, Value.Obeys.mono hL hq.2⟩
    | store => exact hL.callee _ hq
  | attempt => exact fun hc => hq (hL.closed hc)
  | _ => trivial

/-- A machine obeys weaker laws too. -/
theorem Machine.Obeys.mono {m : Machine} (hm : m.Obeys L)
    (hd : L'.draft m.compiler.mode m.compiler.building?) : m.Obeys L' where
  heap := hm.heap.mono hL
  data v hv := (hm.data v hv).mono hL
  temp v hv := (hm.temp v hv).mono hL
  self v hv := (hm.self v hv).mono hL
  frames f hf := hL.callee _ (hm.frames f hf)
  runs r hr := (hm.runs r hr).mono hL
  dictionary e he := hL.callee _ (hm.dictionary e he)
  types e he := (hm.types e he).mono hL
  draft := hd
  output hc := hm.output (hL.closed hc)
  bounded := hL.sizes ▸ hm.bounded

end Weakens

/-! ## Laws about references -/

section References

variable (hL : ¬ L.closed)

include hL

/-- Without a law about texts only references matter. -/
theorem Value.Obeys.of_refs {v : Value} (h : ∀ w, .word w ∈ v.refs → L.callee w) : v.Obeys L := by
  cases v with
  | char => exact fun hc => absurd hc hL
  | xt w => exact h w List.mem_cons_self
  | ptr p => exact h p.target List.mem_cons_self
  | _ => trivial

theorem Elem.Obeys.of_refs {e : Elem} (h : ∀ w, .word w ∈ e.refs → L.callee w) : e.Obeys L := by
  cases e with
  | direct c =>
    cases c with
    | native => exact fun hc => absurd hc hL
    | docol => trivial
    | indirect body => exact h body List.mem_cons_self
  | call w => exact h w List.mem_cons_self
  | lit v => exact Value.Obeys.of_refs hL h
  | recurse => trivial

theorem Word.Obeys.of_refs {w : Word} (h : ∀ u, .word u ∈ w.refs → L.callee u) : w.Obeys L :=
  ⟨fun hc => absurd hc hL, fun e he => Elem.Obeys.of_refs hL fun u hu =>
    h u (List.mem_flatMap.2 ⟨e, Array.mem_toList_iff.2 he, hu⟩)⟩

theorem Declaration.Obeys.of_open (d : Declaration) : d.Obeys L :=
  ⟨fun hc => absurd hc hL, fun _ _ hc => absurd hc hL⟩

theorem Obj.Obeys.of_refs {x : Obj} (h : ∀ u, .word u ∈ x.refs → L.callee u) : x.Obeys L := by
  have hitems : ∀ v ∈ x.items, v.Obeys L := fun v hv => Value.Obeys.of_refs hL fun u hu =>
    h u (List.mem_flatMap.2 ⟨v, Array.mem_toList_iff.2 hv, hu⟩)
  cases x with
  | text => exact fun hc => absurd hc hL
  | array => exact hitems
  | record => exact ⟨Declaration.Obeys.of_open hL _, hitems⟩

theorem Pending.Obeys.of_refs {q : Pending} (h : ∀ u, .word u ∈ Machine.pendingRefs q → L.callee u) :
    q.Obeys L := by
  cases q with
  | handler _ after =>
    cases after with
    | push => trivial
    | select a b =>
      exact ⟨Value.Obeys.of_refs hL fun u hu => h u (List.mem_append_left _ hu),
        Value.Obeys.of_refs hL fun u hu => h u (List.mem_append_right _ hu)⟩
    | store p => exact h p.target List.mem_cons_self
  | attempt => exact hL
  | _ => trivial

theorem TypeEntry.Obeys.of_handler {e : TypeEntry} (h : ∀ u, e.handler? = some (.word u) → L.callee u) :
    e.Obeys L where
  name hc := absurd hc hL
  maker maker _ _ := by
    cases maker with
    | host => exact hL
    | _ => trivial
  declaration d _ _ := Declaration.Obeys.of_open hL d
  handler k hk := by
    cases k with
    | strings => trivial
    | host => exact hL
    | word u => exact h u hk

end References

/-! ## Results -/

/-- A result that keeps to a law: a value with the property `P`, or an error. -/
def Keeping (L : Law) (P : α → Prop) : Except Error α → Prop
  | .ok a => P a
  | .error e => e.Obeys L

namespace Keeping

variable {P : α → Prop} {Q : β → Prop} {r : Except Error α}

theorem error {e : Error} (h : e.isFault = false) : Keeping L P (.error e) :=
  Error.Obeys.of_ne h

theorem bind {f : α → Except Error β} (hr : Keeping L P r) (hf : ∀ a, P a → Keeping L Q (f a)) :
    Keeping L Q (r >>= f) := by
  cases r with
  | ok a => exact hf a hr
  | error e => exact hr

theorem map {f : α → β} (hr : Keeping L P r) (hf : ∀ a, P a → Q (f a)) :
    Keeping L Q (r.map f) := by
  cases r with
  | ok a => exact hf a hr
  | error e => exact hr

theorem weaken {P' : α → Prop} (hr : Keeping L P r) (h : ∀ a, P a → P' a) : Keeping L P' r := by
  cases r with
  | ok a => exact h a hr
  | error e => exact hr

end Keeping

namespace Value

variable {v : Value}

theorem toInt_keeping : Keeping L (fun _ => True) v.toInt := by
  cases v with
  | int | char | bool => trivial
  | _ => exact .error rfl

theorem toFloat_keeping : Keeping L (fun _ => True) v.toFloat := by
  cases v with
  | float | int | char | bool => trivial
  | _ => exact .error rfl

theorem toFlag_keeping : Keeping L (fun _ => True) v.toFlag := by
  cases v with
  | bool | int | char => trivial
  | _ => exact .error rfl

theorem toWord_keeping (hv : v.Obeys L) : Keeping L L.callee v.toWord := by
  cases v with
  | xt w => exact hv
  | _ => exact .error rfl

theorem toObject_keeping : Keeping L (fun _ => True) v.toObject := by
  cases v with
  | obj => trivial
  | _ => exact .error rfl

theorem toType_keeping : Keeping L (fun _ => True) v.toType := by
  cases v with
  | type => trivial
  | _ => exact .error rfl

theorem toOperator_keeping : Keeping L (fun _ => True) v.toOperator := by
  cases v with
  | binop => trivial
  | _ => exact .error rfl

theorem toPointer_keeping (hv : v.Obeys L) : Keeping L (fun p => L.callee p.target) v.toPointer := by
  cases v with
  | ptr p => exact hv
  | _ => exact .error rfl

end Value

/-! ## Words -/

namespace Word.Obeys

variable {w : Word}

theorem blank {name : String} (h : L.Text name) : (Word.blank name).Obeys L :=
  ⟨h.foldCase, nofun⟩

theorem label (hw : w.Obeys L) : L.Text w.label := by
  unfold Word.label
  split
  · exact .of_ascii (by decide)
  · exact hw.name

theorem code (hw : w.Obeys L) : Keeping L (Code.Obeys L) w.code := by
  unfold Word.code
  split
  · exact hw.body _ (Array.mem_of_getElem? ‹_›)
  · exact .error rfl

theorem load (hw : w.Obeys L) (i : Nat) : Keeping L (Value.Obeys L) (w.load i) := by
  unfold Word.load
  split
  · split
    · exact .error rfl
    · exact hw.body _ (Array.mem_of_getElem? ‹_›)
  · exact .error rfl

theorem checkSlot (i : Nat) (e : Elem) : Keeping L (fun _ => True) (Word.checkSlot i e) := by
  unfold Word.checkSlot
  split
  · split
    · trivial
    · exact .error rfl
  · split
    · exact .error rfl
    · trivial

theorem push (hw : w.Obeys L) {e : Elem} (he : e.Obeys L) : Keeping L (Word.Obeys L) (w.push e) := by
  have hslot : Keeping L (fun _ => True) (Word.checkSlot w.size e) := checkSlot _ _
  unfold Word.push
  split
  · refine ⟨hw.name, fun x hx => ?_⟩
    rcases Array.mem_push.1 hx with hx | rfl
    · exact hw.body x hx
    · exact he
  · rename_i h
    rwa [h] at hslot

theorem set (hw : w.Obeys L) (i : Nat) {e : Elem} (he : e.Obeys L) :
    Word.Obeys L { w with body := w.body.setIfInBounds i e } := by
  refine ⟨hw.name, fun x hx => ?_⟩
  rcases Array.mem_or_eq_of_mem_setIfInBounds hx with hx | rfl
  · exact hw.body x hx
  · exact he

theorem poke (hw : w.Obeys L) (i : Nat) {e : Elem} (he : e.Obeys L) :
    Keeping L (Word.Obeys L) (w.poke i e) := by
  have hslot : Keeping L (fun _ => True) (Word.checkSlot i e) := checkSlot _ _
  unfold Word.poke
  split
  · split
    · exact hw.set i he
    · exact .error rfl
  · rename_i h
    rwa [h] at hslot

theorem store (hw : w.Obeys L) (i : Nat) {v : Value} (hv : v.Obeys L) :
    Keeping L (Word.Obeys L) (w.store i v) := by
  have hload := hw.load i
  unfold Word.store
  split
  · exact hw.set i hv
  · rename_i h
    rwa [h] at hload

/-- Slots are added, unless they are too many. -/
theorem expand (hw : w.Obeys L) {n : Nat} (hn : slotLimit < w.size + n → L.faults) :
    Keeping L (Word.Obeys L) (w.expand n) := by
  unfold Word.expand
  split
  · refine ⟨hw.name, fun x hx => ?_⟩
    rcases Array.mem_append.1 hx with hx | hx
    · exact hw.body x hx
    · rw [Array.eq_of_mem_replicate hx]
      trivial
  · rename_i hlt
    intro _ f hf
    cases hf
    exact ⟨rfl, hn (Nat.lt_of_not_le hlt)⟩

end Word.Obeys

/-! ## Heaps -/

namespace Heap.Obeys

variable {h : Heap}

theorem word (hh : h.Obeys L) (w : WordId) : (h.word w).Obeys L := by
  unfold Heap.word
  cases hw : h.words[w.index]? with
  | none => exact .blank (.of_ascii (by decide))
  | some x => exact hh.words x (Array.mem_of_getElem? hw)

theorem object (hh : h.Obeys L) (o : ObjId) : (h.object o).Obeys L := by
  unfold Heap.object
  cases ho : h.objects[o.index]? with
  | none => exact Law.Text.of_ascii (s := "") (by decide)
  | some x => exact hh.objects x (Array.mem_of_getElem? ho)

theorem addWord (hh : h.Obeys L) {w : Word} (hw : w.Obeys L) : (h.addWord w).2.Obeys L := by
  refine ⟨fun x hx => ?_, hh.objects, fun v hv => hh.fresh v ?_⟩
  · rcases Array.mem_push.1 hx with hx | rfl
    · exact hh.words x hx
    · exact hw
  · have hsize : (h.words.push w).size ≤ v.index := hv
    rw [Array.size_push] at hsize
    omega

theorem addObject (hh : h.Obeys L) {x : Obj} (hx : x.Obeys L) : (h.addObject x).2.Obeys L := by
  refine ⟨hh.words, fun o ho => ?_, hh.fresh⟩
  rcases Array.mem_push.1 ho with ho | rfl
  · exact hh.objects o ho
  · exact hx

theorem setWord (hh : h.Obeys L) (w : WordId) {x : Word} (hx : x.Obeys L) :
    (h.setWord w x).Obeys L := by
  refine ⟨fun y hy => ?_, hh.objects, fun v hv => hh.fresh v ?_⟩
  · rcases Array.mem_or_eq_of_mem_setIfInBounds hy with hy | rfl
    · exact hh.words y hy
    · exact hx
  · rwa [Heap.setWord, Array.size_setIfInBounds] at hv

theorem setObject (hh : h.Obeys L) (o : ObjId) {x : Obj} (hx : x.Obeys L) :
    (h.setObject o x).Obeys L := by
  refine ⟨hh.words, fun y hy => ?_, hh.fresh⟩
  rcases Array.mem_or_eq_of_mem_setIfInBounds hy with hy | rfl
  · exact hh.objects y hy
  · exact hx

theorem updateWord (hh : h.Obeys L) (w : WordId) {f : Word → Word}
    (hf : ∀ x, x.Obeys L → (f x).Obeys L) : (h.updateWord w f).Obeys L :=
  hh.setWord w (hf _ (hh.word w))

/-- A word is hidden or shown. -/
theorem hide (hh : h.Obeys L) (w : WordId) (b : Bool) :
    (h.updateWord w fun x => { x with hidden := b }).Obeys L :=
  hh.updateWord w fun _ hx => ⟨hx.name, hx.body⟩

theorem changeWord (hh : h.Obeys L) (w : WordId) {f : Word → Except Error Word}
    (hf : Keeping L (Word.Obeys L) (f (h.word w))) :
    Keeping L (Heap.Obeys L) (h.changeWord w f) := by
  unfold Heap.changeWord
  split
  · rename_i x hx
    rw [hx] at hf
    exact hh.setWord w hf
  · rename_i e he
    rw [he] at hf
    exact hf

theorem load (hh : h.Obeys L) (p : Pointer) : Keeping L (Value.Obeys L) (h.load p) :=
  (hh.word _).load _

theorem store (hh : h.Obeys L) (p : Pointer) {v : Value} (hv : v.Obeys L) :
    Keeping L (Heap.Obeys L) (h.store p v) :=
  hh.changeWord _ ((hh.word _).store _ hv)

theorem deref (hh : h.Obeys L) (v : Value) : Keeping L (Value.Obeys L) (h.deref v) := by
  unfold Heap.deref
  cases v with
  | ptr p => exact hh.load p
  | _ => exact .error rfl

end Heap.Obeys

/-! ## Stacks and buffers -/

namespace Stack.Within

variable {s t : Stack α} {n : Nat} {x : α}

theorem push (hs : s.Within n) (h : s.push x = .ok t) : t.Within n := by
  refine ⟨?_, .push h⟩
  rw [(push_eq_ok h).2]
  exact hs.capacity

theorem pop (hs : s.Within n) (h : s.pop = .ok (x, t)) : t.Within n := by
  obtain ⟨hi, hc, -⟩ := pop_eq_ok h
  refine ⟨hc.trans hs.capacity, ?_⟩
  have hfits := hs.fits
  simp only [Fits, depth, hi, List.length_cons, hc] at hfits ⊢
  omega

theorem clear (hs : s.Within n) : s.clear.Within n :=
  ⟨hs.capacity, Nat.zero_le _⟩

theorem overwrite {i : Nat} (hs : s.Within n) (h : s.overwrite i x = .ok t) : t.Within n := by
  unfold Stack.overwrite at h
  split at h
  · cases h
    refine ⟨hs.capacity, ?_⟩
    simpa [Fits, depth] using hs.fits
  · cases h

end Stack.Within

theorem Stack.peek_keeping {s : Stack α} {P : α → Prop} (hs : ∀ v ∈ s.items, P v) (n : Nat) :
    Keeping L P (s.peek n) := by
  unfold Stack.peek Stack.peek?
  split
  · exact hs _ (List.mem_of_getElem? ‹_›)
  · exact .error rfl

theorem Stack.ensureRoom_keeping (s : Stack α) (n : Nat) :
    Keeping L (fun _ => True) (s.ensureRoom n) := by
  unfold Stack.ensureRoom
  split
  · exact .error rfl
  · trivial

theorem Stack.push_error {s : Stack α} {x : α} {e : Error} (h : s.push x = .error e) : e.Obeys L := by
  unfold Stack.push at h
  split at h
  · cases h
  · cases h
    exact .of_ne rfl

theorem Stack.pop_error {s : Stack α} {e : Error} (h : s.pop = .error e) : e.Obeys L := by
  unfold Stack.pop at h
  split at h
  · cases h
    exact .of_ne rfl
  · cases h

namespace Output

variable {o o' : Output} {n : Nat} {s : String}

theorem Within.push (ho : o.Within n) (h : o.push s = .ok o') : o'.Within n := by
  obtain ⟨rfl, hf⟩ := push_eq_ok h
  exact ⟨ho.capacity, hf⟩

theorem push_error {e : Error} (h : o.push s = .error e) : e.Obeys L := by
  unfold Output.push at h
  split at h
  · cases h
  · cases h
    exact .of_ne rfl

theorem write_obeys {ps : List String} (ho : o.Within n) (ht : L.Text o.text)
    (hps : ∀ p ∈ ps, L.Text p) : (o.write ps).1.Within n ∧ L.Text (o.write ps).1.text := by
  induction ps generalizing o with
  | nil => exact ⟨ho, ht⟩
  | cons p ps ih =>
    unfold Output.write
    cases hp : o.push p with
    | error e => exact ⟨ho, ht⟩
    | ok o' =>
      refine ih (ho.push hp) ?_ fun q hq => hps q (List.mem_cons_of_mem _ hq)
      rw [(push_eq_ok hp).1]
      exact ht.append (hps p List.mem_cons_self)

end Output

namespace Line

variable {l : Line} {n : Nat}

theorem length_takeWhile_le (p : Char → Bool) (cs : List Char) :
    (cs.takeWhile p).length ≤ cs.length :=
  (List.takeWhile_prefix p).length_le

theorem Within.advance (hl : l.Within n) : l.advance.Within n := by
  have hcursor := hl.wellFormed.cursor_le
  have hblanks := length_takeWhile_le isBlank l.rest
  have hrest : l.rest.length = l.text.length - l.cursor := List.length_drop
  unfold Line.advance
  simp only
  generalize hb : (l.rest.takeWhile isBlank).length = blanks at hblanks
  have hbody : (l.rest.drop blanks).length = l.rest.length - blanks := List.length_drop
  cases hd : l.rest.drop blanks with
  | nil =>
    refine ⟨hl.capacity, hl.wellFormed.fits, hl.wellFormed.ascii, ?_, nofun⟩
    show l.cursor + blanks ≤ l.text.length
    omega
  | cons c cs =>
    have htoken := length_takeWhile_le (fun c => !isBlank c) (c :: cs)
    rw [hd] at hbody
    have hle : l.cursor + blanks + ((c :: cs).takeWhile fun c => !isBlank c).length ≤
        l.text.length := by omega
    refine ⟨hl.capacity, hl.wellFormed.fits, hl.wellFormed.ascii, hle, fun s hs => ?_⟩
    cases hs
    exact hle

theorem Within.skip (hl : l.Within n) : l.skip.Within n :=
  ⟨hl.capacity, hl.wellFormed.fits, hl.wellFormed.ascii, Nat.le_refl _, nofun⟩

theorem Within.takeUntil (hl : l.Within n) (c : Char) : (l.takeUntil c).2.Within n := by
  have hstart : (if (l.rest.head?.map isBlank).getD false then l.cursor + 1 else l.cursor) ≤
      l.text.length := by
    have hcursor := hl.wellFormed.cursor_le
    have hrest : l.rest.length = l.text.length - l.cursor := List.length_drop
    split
    · cases hr : l.rest with
      | nil => simp [hr] at *
      | cons d ds =>
        rw [hr, List.length_cons] at hrest
        omega
    · exact hcursor
  unfold Line.takeUntil
  simp only
  generalize (if (l.rest.head?.map isBlank).getD false then l.cursor + 1 else l.cursor) = start
    at hstart
  split
  · rename_i hc
    have hlt : ((l.text.drop start).takeWhile (· != c)).length < (l.text.drop start).length := by
      refine Nat.lt_of_le_of_ne (length_takeWhile_le _ _) fun heq => ?_
      have hall := (List.takeWhile_prefix (· != c)).eq_of_length heq
      have hmem : c ∈ (l.text.drop start).takeWhile (· != c) := by
        rw [hall]
        exact List.contains_iff_mem.1 hc
      simpa using List.all_eq_true.1 List.all_takeWhile c hmem
    rw [List.length_drop] at hlt
    refine ⟨hl.capacity, hl.wellFormed.fits, hl.wellFormed.ascii, ?_, nofun⟩
    show start + ((l.text.drop start).takeWhile (· != c)).length + 1 ≤ l.text.length
    omega
  · exact ⟨hl.capacity, hl.wellFormed.fits, hl.wellFormed.ascii, hstart, nofun⟩

theorem Within.fill {l' : Line} {s : String} (hl : l.Within n) (h : l.fill s = .ok l') :
    l'.Within n := by
  unfold Line.fill at h
  split at h
  · cases h
  · rename_i hsize
    split at h
    · cases h
    · rename_i hascii
      cases h
      have hall : AsciiText s := by
        intro c hc
        simp only [Bool.not_eq_true, Bool.not_eq_false'] at hascii
        exact List.all_eq_true.1 hascii c hc
      refine ⟨hl.capacity, ?_, hall, Nat.zero_le _, nofun⟩
      show s.toList.length ≤ l.capacity
      rw [← hall.utf8ByteSize]
      exact Nat.le_of_not_lt hsize

theorem Within.skipComment (hl : l.Within n) (fuel : Nat) : (l.skipComment fuel).1.Within n := by
  induction fuel generalizing l with
  | zero => exact hl
  | succ fuel ih =>
    unfold Line.skipComment
    simp only
    split
    · exact hl.advance
    · split
      · exact hl.advance
      · exact ih hl.advance

theorem WellFormed.textOf (hl : l.WellFormed) (s : Span) : AsciiText (l.textOf s) :=
  .ofList fun c hc => hl.ascii c (List.mem_of_mem_drop (List.mem_of_mem_take hc))

theorem WellFormed.token? (hl : l.WellFormed) {t : String} (ht : l.token? = some t) :
    AsciiText t := by
  obtain ⟨s, -, rfl⟩ := Option.map_eq_some_iff.1 ht
  exact hl.textOf s

theorem WellFormed.takeUntil (hl : l.WellFormed) {c : Char} {cs : List Char}
    (h : (l.takeUntil c).1 = .ok cs) : ∀ d ∈ cs, isAscii d = true := by
  unfold Line.takeUntil at h
  simp only at h
  generalize (if (l.rest.head?.map isBlank).getD false then l.cursor + 1 else l.cursor) = start at h
  split at h
  · cases h
    exact fun d hd => hl.ascii d (List.mem_of_mem_drop ((List.takeWhile_prefix _).subset hd))
  · cases h

end Line

/-! ## Lawful computations -/

/-- A computation that keeps to a law on a machine, whether or not it fails; its results have the
    property `P`. -/
def Lawful (L : Law) (m : Machine) (act : M α) (P : α → Prop := fun _ => True) : Prop :=
  m.Obeys L →
    match act m with
    | .ok a m' => m'.Obeys L ∧ P a
    | .error e m' => m'.Obeys L ∧ e.Obeys L

namespace Lawful

variable {m : Machine} {P : α → Prop} {Q : β → Prop}

theorem pure {a : α} (h : P a) : Lawful L m (Pure.pure a) P :=
  fun hm => ⟨hm, h⟩

/-- A computation without a result. -/
theorem done {a : α} : Lawful L m (Pure.pure a) :=
  .pure trivial

theorem throw {e : Error} (h : e.isFault = false) :
    Lawful L m (MonadExcept.throw e) P :=
  fun hm => ⟨hm, .of_ne h⟩

theorem bind_at {x : M α} {f : α → M β} (hx : Lawful L m x P)
    (hf : ∀ a m₁, x m = .ok a m₁ → P a → Lawful L m₁ (f a) Q) : Lawful L m (x >>= f) Q := by
  intro hm
  have hx := hx hm
  cases hr : x m with
  | error e m₁ =>
    rw [M.bind_error hr]
    rwa [hr] at hx
  | ok a m₁ =>
    rw [M.bind_ok hr]
    rw [hr] at hx
    exact hf a m₁ hr hx.2 hx.1

theorem bind {x : M α} {f : α → M β} (hx : Lawful L m x P)
    (hf : ∀ a m₁, P a → Lawful L m₁ (f a) Q) : Lawful L m (x >>= f) Q :=
  hx.bind_at fun a m₁ _ ha => hf a m₁ ha

theorem get {f : Machine → M α} (h : m.Obeys L → Lawful L m (f m) P) :
    Lawful L m (MonadState.get >>= f) P :=
  fun hm => h hm hm

theorem ite {c : Prop} [Decidable c] {x y : M α} (hx : Lawful L m x P) (hy : Lawful L m y P) :
    Lawful L m (if c then x else y) P := by
  split
  · exact hx
  · exact hy

/-- A check that comes before a lawful computation. -/
theorem orThrow {c : Prop} [Decidable c] {e : Error} {x : M α} (h : e.isFault = false)
    (hx : ¬ c → Lawful L m x P) :
    Lawful L m (if c then (MonadExcept.throw e : M Unit) >>= fun _ => x else x) P := by
  split
  · exact fun hm => ⟨hm, .of_ne h⟩
  · exact hx ‹_›

theorem weaken {P' : α → Prop} {x : M α} (hx : Lawful L m x P) (h : ∀ a, P a → P' a) :
    Lawful L m x P' := by
  intro hm
  have hx := hx hm
  cases hr : x m with
  | ok a m' =>
    rw [hr] at hx
    exact ⟨hx.1, h a hx.2⟩
  | error e m' =>
    rw [hr] at hx
    exact hx

theorem obeys {x : M α} (hx : Lawful L m x P) (hm : m.Obeys L) : (Machine.after (x m)).Obeys L := by
  have hx := hx hm
  cases hr : x m with
  | ok a m' =>
    rw [hr] at hx
    exact hx.1
  | error e m' =>
    rw [hr] at hx
    exact hx.1

theorem of_ok {x : M α} (hx : Lawful L m x P) (hm : m.Obeys L) {a : α} {m' : Machine}
    (h : x m = .ok a m') : m'.Obeys L ∧ P a := by
  have hx := hx hm
  rwa [h] at hx

theorem of_error {x : M α} (hx : Lawful L m x P) (hm : m.Obeys L) {e : Error} {m' : Machine}
    (h : x m = .error e m') : m'.Obeys L ∧ e.Obeys L := by
  have hx := hx hm
  rwa [h] at hx

theorem modify {f : Machine → Machine} (hf : m.Obeys L → (f m).Obeys L) :
    Lawful L m (modify f : M Unit) :=
  fun hm => ⟨hf hm, trivial⟩

theorem set {m' : Machine} (hf : m'.Obeys L) : Lawful L m (MonadStateOf.set m' : M PUnit) :=
  fun _ => ⟨hf, trivial⟩

end Lawful

namespace M

variable {m : Machine} {P : α → Prop}

theorem lift_lawful {r : Except Error α} (hr : Keeping L P r) : Lawful L m (lift r) P := by
  cases r with
  | ok a => exact fun hm => ⟨hm, hr⟩
  | error e => exact fun hm => ⟨hm, hr⟩

theorem pop_lawful : Lawful L m pop (Value.Obeys L) := by
  intro hm
  unfold pop
  cases hp : m.data.pop with
  | error e => exact ⟨hm, Stack.pop_error hp⟩
  | ok vd =>
    obtain ⟨v, data⟩ := vd
    have hi := (Stack.pop_eq_ok hp).1
    refine ⟨{ hm with
      data := fun x hx => hm.data x (hi ▸ List.mem_cons_of_mem _ hx)
      bounded := { hm.bounded with data := hm.bounded.data.pop hp } }, ?_⟩
    exact hm.data v (hi ▸ List.mem_cons_self)

theorem push_lawful {v : Value} (hv : v.Obeys L) : Lawful L m (push v) := by
  intro hm
  unfold push
  cases hp : m.data.push v with
  | error e => exact ⟨hm, Stack.push_error hp⟩
  | ok data =>
    have hbound := hm.bounded.data.push hp
    obtain ⟨-, rfl⟩ := Stack.push_eq_ok hp
    refine ⟨{ hm with
      data := fun x hx => ?_
      bounded := { hm.bounded with data := hbound } }, trivial⟩
    rcases List.mem_cons.1 hx with rfl | hx
    · exact hv
    · exact hm.data x hx

theorem peek_lawful (n : Nat) : Lawful L m (peek n) (Value.Obeys L) := by
  intro hm
  have hk : Keeping L (Value.Obeys L) (m.data.peek n) := Stack.peek_keeping hm.data n
  unfold peek
  cases hp : m.data.peek n with
  | ok v =>
    rw [hp] at hk
    exact ⟨hm, hk⟩
  | error e =>
    rw [hp] at hk
    exact ⟨hm, hk⟩

theorem popInt_lawful : Lawful L m popInt :=
  pop_lawful.bind fun _ _ _ => lift_lawful Value.toInt_keeping

theorem popFlag_lawful : Lawful L m popFlag :=
  pop_lawful.bind fun _ _ _ => lift_lawful Value.toFlag_keeping

theorem popWord_lawful : Lawful L m popWord L.callee :=
  pop_lawful.bind fun _ _ hv => lift_lawful (Value.toWord_keeping hv)

theorem pushReturn_lawful (n : Int64) : Lawful L m (pushReturn n) := by
  intro hm
  unfold pushReturn
  cases hp : m.return.push n with
  | error e => exact ⟨hm, Stack.push_error hp⟩
  | ok s =>
    exact ⟨{ hm with bounded := { hm.bounded with «return» := hm.bounded.return.push hp } }, trivial⟩

theorem popReturn_lawful : Lawful L m popReturn := by
  intro hm
  unfold popReturn
  cases hp : m.return.pop with
  | error e => exact ⟨hm, Stack.pop_error hp⟩
  | ok ns =>
    obtain ⟨n, s⟩ := ns
    exact ⟨{ hm with bounded := { hm.bounded with «return» := hm.bounded.return.pop hp } }, trivial⟩

theorem peekReturn_lawful (n : Nat) : Lawful L m (peekReturn n) := by
  intro hm
  have hk : Keeping L (fun _ => True) (m.return.peek n) :=
    Stack.peek_keeping (fun _ _ => trivial) n
  unfold peekReturn
  cases hp : m.return.peek n with
  | ok v => exact ⟨hm, trivial⟩
  | error e =>
    rw [hp] at hk
    exact ⟨hm, hk⟩

theorem setHeap_lawful {r : Except Error Heap} (hr : Keeping L (Heap.Obeys L) r) :
    Lawful L m (setHeap r) :=
  (lift_lawful hr).bind fun _ _ hh => .modify fun hm =>
    { hm with heap := hh, bounded := { hm.bounded with } }

theorem onTypes_lawful {act : Types → Except Error α × Types}
    (ha : m.types.Obeys L → Keeping L P (act m.types).1 ∧ (act m.types).2.Obeys L) :
    Lawful L m (onTypes act) P := by
  intro hm
  obtain ⟨hr, ht⟩ := ha hm.types
  unfold onTypes
  rcases h : act m.types with ⟨_ | a, types⟩
  · rw [h] at hr ht
    exact ⟨{ hm with types := ht, bounded := { hm.bounded with } }, hr⟩
  · rw [h] at hr ht
    exact ⟨{ hm with types := ht, bounded := { hm.bounded with } }, hr⟩

theorem newText_lawful {s : String} (hs : L.Text s) : Lawful L m (newText s) (Value.Obeys L) :=
  fun hm =>
    ⟨{ hm with heap := hm.heap.addObject (x := .text s) hs, bounded := { hm.bounded with } }, trivial⟩

theorem pushNew_lawful {x : Obj} (hx : x.Obeys L) : Lawful L m (pushNew x) := by
  intro hm
  exact push_lawful (m := { m with heap := (m.heap.addObject x).2 }) (v := .obj _) trivial
    { hm with heap := hm.heap.addObject hx, bounded := { hm.bounded with } }

theorem put_lawful {s : String} (hs : L.Text s) : Lawful L m (put s) := by
  intro hm
  unfold put
  cases hp : m.output.push s with
  | error e => exact ⟨hm, Output.push_error hp⟩
  | ok o =>
    have hbound := hm.bounded.output.push hp
    obtain ⟨rfl, -⟩ := Output.push_eq_ok hp
    exact ⟨{ hm with
      output := hm.output.append hs
      bounded := { hm.bounded with output := hbound } }, trivial⟩

theorem write_lawful {ss : List String} (hs : ∀ s ∈ ss, L.Text s) : Lawful L m (write ss) := by
  intro hm
  obtain ⟨hbound, htext⟩ := Output.write_obeys hm.bounded.output hm.output hs
  have hm' : Machine.Obeys L { m with output := (m.output.write ss).1 } :=
    { hm with output := htext, bounded := { hm.bounded with output := hbound } }
  rw [write_eq]
  cases (m.output.write ss).2 with
  | false => exact ⟨hm', .of_ne rfl⟩
  | true => exact ⟨hm', trivial⟩

end M

theorem Machine.Obeys.find? {m : Machine} (hm : m.Obeys L) {name : String} {w : WordId}
    (hw : m.find? name = some w) : L.callee w := by
  obtain ⟨e, he, rfl⟩ := Option.map_eq_some_iff.1 (Option.filter_eq_some_iff.1 hw).1
  exact hm.dictionary e (List.mem_of_find?_eq_some he)

namespace M

variable {m : Machine} {P : α → Prop}

theorem builtin_lawful (name : String) : Lawful L m (builtin name) L.callee := by
  refine .get fun hm => ?_
  cases hf : m.find? name with
  | none => exact .throw rfl
  | some w => exact .pure (hm.find? hf)

theorem current_lawful : Lawful L m current fun f => L.callee f.word := by
  refine .get fun hm => ?_
  cases hf : m.frames with
  | nil => exact .throw rfl
  | cons f rest => exact .pure (hm.frames f (hf ▸ List.mem_cons_self))

theorem parent_lawful : Lawful L m parent fun f => L.callee f.word := by
  refine .get fun hm => ?_
  rcases hf : m.frames with _ | ⟨g, _ | ⟨f, rest⟩⟩
  · exact .throw rfl
  · exact .throw rfl
  · exact .pure (hm.frames f (hf ▸ List.mem_cons_of_mem _ List.mem_cons_self))

theorem setParentIp_lawful (ip : Nat) : Lawful L m (setParentIp ip) := by
  refine .modify fun hm => ?_
  split
  · rename_i f p rest hf
    refine { hm with frames := fun x hx => ?_, bounded := { hm.bounded with } }
    have hfr := hm.frames
    rw [hf] at hfr
    rcases List.mem_cons.1 hx with rfl | hx
    · exact hfr _ List.mem_cons_self
    · rcases List.mem_cons.1 hx with rfl | hx
      · exact hfr p (List.mem_cons_of_mem _ List.mem_cons_self)
      · exact hfr x (List.mem_cons_of_mem _ (List.mem_cons_of_mem _ hx))
  · exact hm

end M

namespace Compiler

variable {c : Compiler} {h : Heap}

theorem building_keeping : Keeping L (fun w => c.building? = some w) c.building := by
  unfold building
  split
  · assumption
  · exact .error rfl

theorem last_keeping (roots : List Ref) : Keeping L (fun w => c.last? = some w) (c.last h roots) := by
  unfold last
  split
  · split
    · assumption
    · exact .error rfl
  · exact .error rfl

theorem here_keeping (roots : List Ref) : Keeping L (fun _ => True) (c.here h roots) := by
  unfold here
  split
  · trivial
  · exact (last_keeping roots).map fun _ _ => trivial

theorem push_keeping (hh : h.Obeys L) {e : Elem} (he : e.Obeys L) :
    Keeping L (Heap.Obeys L) (c.push h e) :=
  building_keeping.bind fun w _ => hh.changeWord w ((hh.word w).push he)

theorem alter_keeping (hh : h.Obeys L) (i : Nat) {e : Elem} (he : e.Obeys L) :
    Keeping L (Heap.Obeys L) (c.alter h i e) :=
  building_keeping.bind fun w _ => hh.changeWord w ((hh.word w).poke i he)

theorem wrapped_obeys {w : WordId} {c : Code} (hw : L.callee w) (hc : c.Obeys L) :
    (wrapped w c).Obeys L := by
  cases c with
  | docol => exact hw
  | native | indirect => exact hc

theorem compileWord_keeping (hh : h.Obeys L) {w : WordId} (hw : L.callee w) :
    Keeping L (Heap.Obeys L) (c.compileWord h w) := by
  refine building_keeping.bind fun b _ => ?_
  split
  · exact (hh.word w).code.bind fun code hcode =>
      hh.changeWord b ((hh.word b).push (e := .direct _) (wrapped_obeys hw hcode))
  · exact hh.changeWord b ((hh.word b).push (e := .call w) hw)

theorem expand_keeping (hh : h.Obeys L) (roots : List Ref) {n : Nat}
    (hn : ∀ w, c.last? = some w → slotLimit < (h.word w).size + n → L.faults) :
    Keeping L (Heap.Obeys L) (c.expand h roots n) :=
  (last_keeping roots).bind fun w hw => hh.changeWord w ((hh.word w).expand (hn w hw))

end Compiler

namespace M

variable {m : Machine} {P : α → Prop}

theorem lastWith_lawful (held : List Ref) : Lawful L m (lastWith held) :=
  .get fun _ => lift_lawful ((Compiler.last_keeping _).weaken fun _ _ => trivial)

theorem here_lawful : Lawful L m here :=
  .get fun _ => lift_lawful (Compiler.here_keeping _)

theorem mode_lawful : Lawful L m mode :=
  .get fun _ => .done

theorem setMode_lawful (mode : Mode)
    (h : L.draft m.compiler.mode m.compiler.building? → L.draft mode m.compiler.building?) :
    Lawful L m (setMode mode) :=
  .modify fun hm => { hm with draft := h hm.draft, bounded := { hm.bounded with } }

theorem requireCompiling_lawful (word : String) :
    Lawful L m (requireCompiling word) fun _ => m.compiler.mode = .compiling := by
  refine .get fun _ => ?_
  show Lawful L m (if m.compiler.mode = .compiling then Pure.pure () else throw _) _
  split
  · exact .pure ‹_›
  · exact .throw rfl

theorem compile_lawful {e : Elem} (he : e.Obeys L) : Lawful L m (compile e) :=
  .get fun hm => setHeap_lawful (Compiler.push_keeping hm.heap he)

theorem compileWord_lawful {w : WordId} (hw : L.callee w) : Lawful L m (compileWord w) :=
  .get fun hm => setHeap_lawful (Compiler.compileWord_keeping hm.heap hw)

theorem compileBuiltin_lawful (name : String) : Lawful L m (compileBuiltin name) :=
  (builtin_lawful name).bind fun w _ hw => compile_lawful (e := .call w) hw

theorem compileLiteral_lawful {v : Value} (hv : v.Obeys L) : Lawful L m (compileLiteral v) :=
  (compileBuiltin_lawful _).bind fun _ _ _ => compile_lawful (e := .lit v) hv

end M

/-- A word is bound under its name. -/
theorem Machine.Obeys.install {m : Machine} (hm : m.Obeys L) {w : Word} (hw : w.Obeys L) :
    (m.install w).2.Obeys L ∧ L.callee (m.install w).1 := by
  have hnew : L.callee ⟨m.heap.words.size⟩ := hm.heap.fresh _ (Nat.le_refl _)
  refine ⟨{ hm with
    heap := (hm.heap.addWord hw).hide _ false
    dictionary := fun e he => ?_
    bounded := { hm.bounded with } }, hnew⟩
  rcases List.mem_cons.1 he with rfl | he
  · exact hnew
  · exact hm.dictionary e (List.mem_filter.1 he).1

namespace M

variable {m : Machine} {P : α → Prop}

theorem install_lawful {w : Word} (hw : w.Obeys L) : Lawful L m (install w) L.callee :=
  fun hm => hm.install hw

theorem setLast_lawful (w : WordId) : Lawful L m (setLast w) :=
  .modify fun hm => { hm with bounded := { hm.bounded with } }

theorem constant_obeys {name : String} {v : Value} (hn : L.Text name) (hv : v.Obeys L) :
    (Word.constant name v).Obeys L := by
  refine ⟨hn.foldCase, fun e he => ?_⟩
  simp only [Word.constant, List.mem_toArray, List.mem_cons, List.not_mem_nil, or_false] at he
  rcases he with rfl | rfl
  · exact fun _ => rfl
  · exact hv

theorem defineConstant_lawful {name : String} {v : Value} (hn : L.Text name) (hv : v.Obeys L) :
    Lawful L m (defineConstant name v) :=
  (install_lawful (constant_obeys hn hv)).bind fun _ _ _ =>
    (setLast_lawful _).bind fun _ _ _ => .done

theorem nextToken_lawful : Lawful L m nextToken fun t? => ∀ t, t? = some t → L.Text t := by
  intro hm
  have hline := hm.bounded.line.advance
  exact ⟨{ hm with bounded := { hm.bounded with line := hline } },
    fun t ht => .of_ascii (hline.wellFormed.token? ht)⟩

theorem nextName_lawful (reader : String) : Lawful L m (nextName reader) L.Text := by
  refine nextToken_lawful.bind fun t? _ ht => ?_
  cases t? with
  | none => exact .throw rfl
  | some t => exact .pure (ht t rfl)

theorem nextWord_lawful (reader : String) : Lawful L m (nextWord reader) L.callee := by
  refine (nextName_lawful reader).bind fun name m₁ _ => .get fun hm => ?_
  cases hf : m₁.find? name with
  | none => exact .throw rfl
  | some w => exact .pure (hm.find? hf)

theorem nextText_lawful : Lawful L m nextText L.Text := by
  intro hm
  have hline := hm.bounded.line.takeUntil '\x22'
  have htext : ∀ cs, (m.line.takeUntil '\x22').1 = .ok cs → ∀ d ∈ cs, isAscii d = true :=
    fun _ => hm.bounded.line.wellFormed.takeUntil
  unfold nextText
  rcases h : m.line.takeUntil '\x22' with ⟨_ | cs, line⟩
  · rw [h] at hline
    exact ⟨{ hm with bounded := { hm.bounded with line := hline } }, .of_ne rfl⟩
  · rw [h] at hline htext
    exact ⟨{ hm with bounded := { hm.bounded with line := hline } },
      .of_ascii (.ofList (htext cs rfl))⟩

end M
end ThreadedForth
