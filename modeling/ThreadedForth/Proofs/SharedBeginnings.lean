/-
  Machines that have their first words and objects in common.
-/
import ThreadedForth.Proofs.PairingLiveness

namespace ThreadedForth

/-- The reference is to one of the first `n` words or of the first `k` objects. -/
def Ref.Below (n k : Nat) : Ref → Prop
  | .word w => w.index < n
  | .object o => o.index < k

instance (n k : Nat) (r : Ref) : Decidable (r.Below n k) :=
  match r with
  | .word w => inferInstanceAs (Decidable (w.index < n))
  | .object o => inferInstanceAs (Decidable (o.index < k))

/-- Numbers below `n` belong to themselves, and those from `a` on to those from `b` on, in order. -/
def Paired (n a b i j : Nat) : Prop :=
  i = j ∧ i < n ∨ a ≤ i ∧ i + b = j + a

theorem paired_iff {n a b i j k l : Nat} (ha : n ≤ a) (hb : n ≤ b) (h : Paired n a b i j)
    (h' : Paired n a b k l) : i = k ↔ j = l := by
  unfold Paired at h h'
  omega

theorem Paired.cases {n a b i j : Nat} (h : Paired n a b i j) :
    i = j ∧ i < n ∨ a ≤ i ∧ b ≤ j :=
  h.imp_right fun h => ⟨h.1, by omega⟩

theorem paired_new {n a b : Nat} (i : Nat) : Paired n a b (a + i) (b + i) :=
  .inr ⟨Nat.le_add_right a i, by omega⟩

namespace Heap

variable {h : Heap}

theorem word_of_size_le {w : WordId} (hw : h.words.size ≤ w.index) : h.word w = default := by
  rw [word, Array.getElem?_eq_none hw, Option.getD_none]

theorem object_of_size_le {o : ObjId} (ho : h.objects.size ≤ o.index) : h.object o = default := by
  rw [object, Array.getElem?_eq_none ho, Option.getD_none]

end Heap

namespace Pairing

variable {m m' : Machine}

/-- The first `n` words and the first `k` objects of two machines belong together, each to the one of
    its number, and no others but those that are still to be made. -/
def firsts (m m' : Machine) {n k : Nat} (hn : n ≤ m.heap.words.size ∧ n ≤ m'.heap.words.size)
    (hk : k ≤ m.heap.objects.size ∧ k ≤ m'.heap.objects.size) : Pairing m m' where
  word w u := Paired n m.heap.words.size m'.heap.words.size w.index u.index
  object o p := Paired k m.heap.objects.size m'.heap.objects.size o.index p.index
  shared _ := True
  word_iff := by
    rintro ⟨i⟩ ⟨k⟩ ⟨j⟩ ⟨l⟩ h h'
    simpa using paired_iff hn.1 hn.2 h h'
  object_iff := by
    rintro ⟨i⟩ ⟨j⟩ ⟨k⟩ ⟨l⟩ h h'
    simpa using paired_iff hk.1 hk.2 h h'
  word_new := paired_new
  object_new := paired_new
  shared_new _ := trivial

/-! ## What belongs to itself -/

section Refl

variable {P : Pairing m m'}

theorem SameRef.toWord {w u : WordId} (h : P.SameRef (.word w) (.word u)) : P.word w u := by
  cases h
  assumption

theorem SameRef.toObject {o p : ObjId} (h : P.SameRef (.object o) (.object p)) : P.object o p := by
  cases h
  assumption

variable (hs : ∀ w, P.shared w)
include hs

theorem SameValue.refl {v : Value} (h : ∀ r ∈ v.refs, P.SameRef r r) : P.SameValue v v := by
  cases v with
  | xt w => exact .xt (h _ List.mem_cons_self).toWord
  | ptr p => exact .ptr ⟨⟨(h _ List.mem_cons_self).toWord, hs _⟩, rfl, rfl⟩
  | obj o => exact .obj (h _ List.mem_cons_self).toObject
  | _ => exact .plain rfl

theorem SameElem.refl {e : Elem} (h : ∀ r ∈ e.refs, P.SameRef r r) : P.SameElem e e := by
  cases e with
  | direct c =>
    cases c with
    | native p => exact .direct (.native p)
    | docol => exact .direct .docol
    | indirect w entry => exact .direct (.indirect (h _ List.mem_cons_self).toWord entry)
  | call w => exact .call (h _ List.mem_cons_self).toWord
  | lit v => exact .lit (SameValue.refl hs h)
  | recurse => exact .recurse

theorem sameValues_refl {vs : List Value} (h : ∀ r ∈ vs.flatMap Value.refs, P.SameRef r r) :
    List.Forall₂ P.SameValue vs vs :=
  List.forall₂_same.2 fun v hv =>
    SameValue.refl hs fun r hr => h r (List.mem_flatMap.2 ⟨v, hv, hr⟩)

theorem SameObj.refl {a : Obj} (hm : a.visiting? ≠ some true) (h : ∀ r ∈ a.refs, P.SameRef r r) :
    P.SameObj a a := by
  cases a with
  | text s => exact .text s
  | array vs b =>
    obtain rfl : b = false := Bool.eq_false_iff.2 fun hb => hm (congrArg some hb)
    exact .array (sameValues_refl hs h)
  | record t d vs b =>
    obtain rfl : b = false := Bool.eq_false_iff.2 fun hb => hm (congrArg some hb)
    exact .record t d (sameValues_refl hs h)

end Refl

theorem sameRef_of_below {n k : Nat} {hn : n ≤ m.heap.words.size ∧ n ≤ m'.heap.words.size}
    {hk : k ≤ m.heap.objects.size ∧ k ≤ m'.heap.objects.size} {r : Ref} (hr : r.Below n k) :
    (firsts m m' hn hk).SameRef r r := by
  cases r with
  | word w => exact .word (.inl ⟨rfl, hr⟩)
  | object o => exact .object (.inl ⟨rfl, hr⟩)

/-- Heaps with the same first words and objects, which refer to nothing that is different. -/
theorem sameHeap_firsts {n k : Nat} {hn : n ≤ m.heap.words.size ∧ n ≤ m'.heap.words.size}
    {hk : k ≤ m.heap.objects.size ∧ k ≤ m'.heap.objects.size}
    (hw : ∀ i < n, m.heap.word ⟨i⟩ = m'.heap.word ⟨i⟩)
    (ho : ∀ i < k, m.heap.object ⟨i⟩ = m'.heap.object ⟨i⟩)
    (hr : ∀ r, r.Below n k → ∀ s ∈ m.heap.refsOf r, (firsts m m' hn hk).SameRef s s)
    (hm : m.heap.Unmarked ∧ m'.heap.Unmarked) :
    (firsts m m' hn hk).SameHeap m.heap m'.heap where
  bare := by
    rintro ⟨i⟩ ⟨j⟩ h
    obtain ⟨rfl, hi⟩ | ⟨hi, hj⟩ := Paired.cases h
    · rw [hw i hi]
    · rw [Heap.word_of_size_le hi, Heap.word_of_size_le hj]
  body := by
    rintro ⟨i⟩ ⟨j⟩ ⟨h, -⟩
    obtain ⟨rfl, hi⟩ | ⟨hi, hj⟩ := Paired.cases h
    · rw [← hw i hi]
      exact List.forall₂_same.2 fun e he => SameElem.refl (fun _ => trivial) fun r hmem =>
        hr (.word ⟨i⟩) hi r (List.mem_flatMap.2 ⟨e, he, hmem⟩)
    · rw [Heap.word_of_size_le hi, Heap.word_of_size_le hj]
      exact .nil
  object := by
    rintro ⟨i⟩ ⟨j⟩ h
    obtain ⟨rfl, hi⟩ | ⟨hi, hj⟩ := Paired.cases h
    · rw [← ho i hi]
      exact SameObj.refl (fun _ => trivial) (hm.1 ⟨i⟩) (hr (.object ⟨i⟩) hi)
    · rw [Heap.object_of_size_le hi, Heap.object_of_size_le hj]
      exact .text _
  unmarked := hm
  words := ⟨0, rfl, rfl⟩
  objects := ⟨0, rfl, rfl⟩
  left := ⟨fun _ _ => rfl, fun _ _ => rfl⟩
  right := ⟨fun _ _ => rfl, fun _ _ => rfl⟩

/-- Types whose operators are handled by words that belong to themselves. -/
theorem SameTypes.refl {P : Pairing m m'} {t : Types}
    (h : ∀ e ∈ t.values.toList ++ (t.objects.toList ++ t.users.toList), ∀ w,
      e.handler? = some (.word w) → P.word w w) : P.SameTypes t t := by
  have hentry : ∀ e ∈ t.values.toList ++ (t.objects.toList ++ t.users.toList), P.SameEntry e e := by
    rintro ⟨name, sort⟩ he
    have hw := h _ he
    have hhandler : ∀ {c : Option Handler}, (∀ w, c = some (.word w) → P.word w w) →
        Option.Rel P.SameHandler c c := by
      intro c hc
      cases c with
      | none => exact .none
      | some c =>
        cases c with
        | strings => exact .some .strings
        | host c => exact .some (.host c)
        | word w => exact .some (.word (hc w rfl))
    refine ⟨rfl, ?_⟩
    cases sort with
    | value => exact .value
    | object maker c => exact .object maker (hhandler hw)
    | user d c => exact .user d (hhandler hw)
  exact ⟨List.forall₂_same.2 fun e he => hentry e (List.mem_append_left _ he),
    List.forall₂_same.2 fun e he => hentry e (List.mem_append_right _ (List.mem_append_left _ he)),
    List.forall₂_same.2 fun e he => hentry e (List.mem_append_right _ (List.mem_append_right _ he)),
    rfl⟩

end Pairing

/-! ## Machines at rest -/

/-- Nothing is on the stacks, nothing is running, and no definition and no comment is open. -/
@[mk_iff]
structure Machine.Clear (m : Machine) : Prop where
  data : m.data.items = []
  «return» : m.return.items = []
  temp : m.temp.items = []
  self : m.self.items = []
  frames : m.frames = []
  runs : m.runs = []
  mode : m.compiler.mode = .interpreting
  building : m.compiler.building? = none
  comment : m.inComment = false

instance (m : Machine) : Decidable m.Clear :=
  decidable_of_iff' _ (Machine.clear_iff m)

theorem Machine.Clear.reset (m : Machine) : m.reset.Clear :=
  ⟨rfl, rfl, rfl, rfl, rfl, rfl, rfl, rfl, rfl⟩

namespace Pairing

variable {m m' : Machine} {P : Pairing m m'}

/-- All that does not change when two machines are reset is the same on them, up to the numbers of
    words and objects, but for the names, the word created last and the addresses. -/
structure SameKept (P : Pairing m m') : Prop where
  heap : P.SameHeap m.heap m'.heap
  distinct : m.dictionary.Distinct ∧ m'.dictionary.Distinct
  types : P.SameTypes m.types m'.types
  debugger : P.SameDebugger m.debugger m'.debugger
  cells : m.cells = m'.cells
  flags : m.flags = m'.flags
  interrupt : m.interrupt = m'.interrupt
  output : m.output = m'.output
  host : m.host = m'.host
  data : m.data.clear = m'.data.clear
  «return» : m.return.clear = m'.return.clear
  temp : m.temp.clear = m'.temp.clear
  self : m.self.clear = m'.self.clear
  line : m.line.capacity = m'.line.capacity

theorem eq_of_clear {α : Type} {s t : Stack α} (h : s.clear = t.clear) (hs : s.items = [])
    (ht : t.items = []) : s = t := by
  cases s
  cases t
  cases hs
  cases ht
  exact h

theorem sameStack_of_clear {s t : Stack Value} (h : s.clear = t.clear) (hs : s.items = [])
    (ht : t.items = []) : P.SameStack s t :=
  ⟨congrArg (·.kind) h, congrArg (·.capacity) h, by rw [hs, ht]; exact .nil⟩

/-- Such machines hold the same once they have the same line, if nothing else is on them. -/
theorem SameKept.alike (h : P.SameKept) (hm : m.Clear) (hm' : m'.Clear) (l : Line) :
    P.Alike { m with line := l } { m' with line := l } where
  data := sameStack_of_clear h.data hm.data hm'.data
  «return» := eq_of_clear h.return hm.return hm'.return
  temp := sameStack_of_clear h.temp hm.temp hm'.temp
  self := sameStack_of_clear h.self hm.self hm'.self
  line := rfl
  output := h.output
  heap := h.heap
  names := fun n => .inr ⟨rfl, rfl⟩
  distinct := h.distinct
  types := h.types
  mode := hm.mode.trans hm'.mode.symm
  building := by
    show Option.Rel _ m.compiler.building? m'.compiler.building?
    rw [hm.building, hm'.building]
    exact .none
  opened := fun b hb => by cases hm.building.symm.trans hb
  depth := .inl ⟨hm.building, .inl hm.mode⟩
  last := .inr ⟨rfl, rfl⟩
  debugger := h.debugger
  frames := by
    show List.Forall₂ _ m.frames m'.frames
    rw [hm.frames, hm'.frames]
    exact .nil
  runs := by
    show List.Forall₂ _ m.runs m'.runs
    rw [hm.runs, hm'.runs]
    exact .nil
  cells := h.cells
  flags := h.flags
  comment := hm.comment.trans hm'.comment.symm
  interrupt := h.interrupt
  host := h.host
  addresses := ⟨rfl, rfl⟩

end Pairing

namespace Machine

variable {m m' : Machine} {n k : Nat}

/-- The first `n` words and the first `k` objects are the same on two machines and refer to nothing
    else, and all that a reset keeps is the same but for the names.  No hook is attached, and no
    operators are handled by words. -/
@[mk_iff]
structure Coincide (n k : Nat) (m m' : Machine) : Prop where
  words : n ≤ m.heap.words.size ∧ n ≤ m'.heap.words.size
  objects : k ≤ m.heap.objects.size ∧ k ≤ m'.heap.objects.size
  word : ∀ i < n, m.heap.word ⟨i⟩ = m'.heap.word ⟨i⟩
  object : ∀ i < k, m.heap.object ⟨i⟩ = m'.heap.object ⟨i⟩
  refs : ∀ r ∈ m.heap.everything, r.Below n k → ∀ s ∈ m.heap.refsOf r, s.Below n k
  unmarked : (∀ a ∈ m.heap.objects, a.visiting? ≠ some true) ∧
    ∀ a ∈ m'.heap.objects, a.visiting? ≠ some true
  distinct : (m.dictionary.entries.map (·.1.key.toNat)).Nodup ∧
    (m'.dictionary.entries.map (·.1.key.toNat)).Nodup
  types : m.types = m'.types
  handlers : ∀ e ∈ m.types.values.toList ++ (m.types.objects.toList ++ m.types.users.toList),
    e.handler? = none ∨ e.handler? = some .strings
  hook : m.debugger.attached = false ∧ m'.debugger.attached = false
  level : m.debugger.level = m'.debugger.level
  stepOverDepth : m.debugger.stepOverDepth = m'.debugger.stepOverDepth
  asked : m.debugger.hook.asked = m'.debugger.hook.asked
  plan : m.debugger.hook.plan = m'.debugger.hook.plan
  resume : m.debugger.hook.resume = m'.debugger.hook.resume
  stops : m.debugger.hook.stops = m'.debugger.hook.stops
  cells : m.cells = m'.cells
  flags : m.flags = m'.flags
  interrupt : m.interrupt = m'.interrupt
  output : m.output = m'.output
  host : m.host = m'.host
  data : m.data.clear = m'.data.clear
  «return» : m.return.clear = m'.return.clear
  temp : m.temp.clear = m'.temp.clear
  self : m.self.clear = m'.self.clear
  line : m.line.capacity = m'.line.capacity

instance : Decidable (Coincide n k m m') :=
  decidable_of_iff' _ (coincide_iff n k m m')

theorem distinct_of_keys {d : Dictionary} (h : (d.entries.map (·.1.key.toNat)).Nodup) : d.Distinct := by
  unfold Dictionary.Distinct
  have hmap : d.entries.map (·.1.key.toNat) = (d.entries.map (·.1)).map (·.key.toNat) := by
    rw [List.map_map]
    rfl
  exact List.Nodup.of_map (·.key.toNat) (hmap ▸ h)

/-- The first words and objects of such machines belong together. -/
def Coincide.pairing (h : Coincide n k m m') : Pairing m m' :=
  .firsts m m' h.words h.objects

theorem Coincide.sameKept (h : Coincide n k m m') : h.pairing.SameKept where
  heap := by
    refine Pairing.sameHeap_firsts h.word h.object (fun r hr s hs => ?_)
      ⟨Heap.unmarked_of_objects h.unmarked.1, Heap.unmarked_of_objects h.unmarked.2⟩
    exact Pairing.sameRef_of_below
      (h.refs r (Heap.mem_everything.2 (Heap.has_of_mem_refsOf hs)) hr s hs)
  distinct := ⟨distinct_of_keys h.distinct.1, distinct_of_keys h.distinct.2⟩
  types := h.types ▸ .refl fun e he w hw => by
    rcases h.handlers e he with hn | hn <;> rw [hn] at hw <;> cases hw
  debugger := ⟨h.level, h.stepOverDepth, h.hook.1.trans h.hook.2.symm, h.asked, h.plan, h.resume,
    h.stops, fun ha => by cases h.hook.1.symm.trans ha⟩
  cells := h.cells
  flags := h.flags
  interrupt := h.interrupt
  output := h.output
  host := h.host
  data := h.data
  «return» := h.return
  temp := h.temp
  self := h.self
  line := h.line

/-- The names of two machines lead to their first words, and of words and objects only the first are
    alive; the word created last is not one of them. -/
@[mk_iff]
structure OnlyAlive (n k : Nat) (m m' : Machine) : Prop where
  names : m.dictionary = m'.dictionary
  bound : ∀ e ∈ m.dictionary.entries, e.2.index < n
  left : ∀ r ∈ m.heap.everything, (m.heap.alive m.roots).has r = true → r.Below n k
  right : ∀ r ∈ m'.heap.everything, (m'.heap.alive m'.roots).has r = true → r.Below n k
  last : ∀ w ∈ m.compiler.last?.toList, n ≤ w.index ∧ w.index < m.heap.words.size
  last' : ∀ w ∈ m'.compiler.last?.toList, n ≤ w.index ∧ w.index < m'.heap.words.size

instance : Decidable (OnlyAlive n k m m') :=
  decidable_of_iff' _ (onlyAlive_iff n k m m')

theorem Coincide.complete (h : Coincide n k m m') (ho : OnlyAlive n k m m')
    (ha : ∀ {o p}, h.pairing.object o p → m.addresses o = m'.addresses p) : h.pairing.Complete where
  shared := fun _ => trivial
  names := fun name => by
    rw [← ho.names]
    cases hl : m.dictionary.lookup? name with
    | none => exact .none
    | some w =>
      have hw := ho.bound _ ((distinct_of_keys h.distinct.1).lookup?_eq_some_iff.1 hl)
      exact .some (.inl ⟨rfl, hw⟩)
  left := fun r hr => ⟨r, Pairing.sameRef_of_below
    (ho.left r (Heap.mem_everything.2 hr.has) (Heap.has_alive_iff.2 hr))⟩
  right := fun r hr => ⟨r, Pairing.sameRef_of_below
    (ho.right r (Heap.mem_everything.2 hr.has) (Heap.has_alive_iff.2 hr))⟩
  last := by
    refine .inr ⟨fun w hw u hwu => ?_, fun u hu w hwu => ?_⟩
    · have hn := ho.last w (Option.mem_toList.2 hw)
      have hp : Paired n m.heap.words.size m'.heap.words.size w.index u.index := hwu
      unfold Paired at hp
      omega
    · have hn := ho.last' u (Option.mem_toList.2 hu)
      have hp : Paired n m.heap.words.size m'.heap.words.size w.index u.index := hwu
      unfold Paired at hp
      omega
  addresses := ha

end Machine
end ThreadedForth
