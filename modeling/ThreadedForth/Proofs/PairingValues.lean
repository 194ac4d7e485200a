/-
  Words for values, on machines that hold the same under other numbers.
-/
import ThreadedForth.Proofs.LikenessValues
import ThreadedForth.Proofs.PairingHeaps

namespace ThreadedForth

variable {α β : Type}

namespace Word

variable {w x : Word} {e : Elem} {i n : Nat} {v : Value}

theorem size_le_of_push (h : w.push e = .ok x) : w.size ≤ x.size := by
  rw [size, size, body_of_push h, Array.size_push]
  exact Nat.le_succ _

theorem size_le_of_poke (h : w.poke i e = .ok x) : w.size ≤ x.size :=
  Nat.le_of_eq (by rw [size, size, body_of_poke h, Array.size_setIfInBounds])

theorem size_le_of_store (h : w.store i v = .ok x) : w.size ≤ x.size :=
  Nat.le_of_eq (by rw [size, size, body_of_store h, Array.size_setIfInBounds])

theorem size_le_of_expand (h : w.expand n = .ok x) : w.size ≤ x.size := by
  rw [size, size, body_of_expand h, Array.size_append]
  exact Nat.le_add_right _ _

end Word

namespace Pairing

variable {m m' : Machine} {P : Pairing m m'} {x y : Machine} {R : α → β → Prop} {w u : WordId}

/-! ## The heap of a machine -/

theorem Alike.setHeap (h : P.Alike x y) {g k : Heap} (hs : P.SameHeap g k) (hg : x.heap.Grows g) :
    P.Alike { x with heap := g } { y with heap := k } :=
  { h with
    heap := hs
    opened := fun b hb => Nat.le_trans (h.opened b hb) (hg.bodies b)
    depth := h.depth.imp_left fun hi => ⟨hi.1, hi.2⟩ }

/-- A change of the heap that may fail. -/
theorem Alike.setHeapTo (h : P.Alike x y) {r s : Except Error Heap} (hr : SameExcept P.SameHeap r s)
    (hg : ∀ g, r = .ok g → x.heap.Grows g) : P.SameResult Eq (M.setHeap r x) (M.setHeap s y) := by
  cases hr with
  | ok hs => exact .ok rfl (h.setHeap hs (hg _ rfl))
  | error e => exact .error e h

theorem Alike.changeWord (h : P.Alike x y) (hw : P.SameCallee w u) {f g : Word → Except Error Word}
    (hf : ∀ {a b}, P.SameWord a b → SameExcept P.SameWord (f a) (g b))
    (hl : ∀ {a b}, f a = .ok b → a.size ≤ b.size) :
    P.SameResult Eq (M.setHeap (x.heap.changeWord w f) x) (M.setHeap (y.heap.changeWord u g) y) := by
  refine h.setHeapTo (h.heap.changeWord hw hf) fun k hk => ?_
  unfold Heap.changeWord at hk
  split at hk
  · cases hk
    exact .setWord (hl ‹_›)
  · cases hk

/-- A flag of a word is changed. -/
theorem Alike.updateWord (h : P.Alike x y) (hw : P.word w u) {f : Word → Word}
    (hf : ∀ a, (f a).bare = f a.bare) (hb : ∀ a, (f a).body = a.body) :
    P.Alike { x with heap := x.heap.updateWord w f } { y with heap := y.heap.updateWord u f } :=
  h.setHeap (h.heap.updateWord hw hf hb) (.setWord (Nat.le_of_eq (by rw [Word.size, Word.size, hb])))

theorem Alike.addObject (h : P.Alike x y) {a b : Obj} (hab : P.SameObj a b) :
    P.Alike { x with heap := (x.heap.addObject a).2 } { y with heap := (y.heap.addObject b).2 } :=
  h.setHeap (h.heap.addObject hab) (.addObject _ _)

theorem Alike.setObject (h : P.Alike x y) {o p : ObjId} (ho : P.object o p) {a b : Obj}
    (hab : P.SameObj a b) :
    P.Alike { x with heap := x.heap.setObject o a } { y with heap := y.heap.setObject p b } :=
  h.setHeap (h.heap.setObject ho hab) (.setObject _ _ _)

theorem newText (s : String) : P.Joint P.SameValue (M.newText s) (M.newText s) :=
  fun _ _ h => .ok (.obj h.heap.newObject) (h.addObject (.text s))

theorem pushNew {a b : Obj} (hab : P.SameObj a b) : P.Joint Eq (M.pushNew a) (M.pushNew b) :=
  fun _ _ h => push (.obj h.heap.newObject) _ _ (h.addObject hab)

theorem storeAt {p q : Pointer} (hp : P.SamePointer p q) {v t : Value} (hv : P.SameValue v t) :
    P.Joint Eq (do M.setHeap ((← get).heap.store p v)) (do M.setHeap ((← get).heap.store q t)) := by
  refine .get fun x y h => ?_
  unfold Heap.store
  rw [hp.index]
  exact h.changeWord hp.target (fun hab => hab.store _ hv) Word.size_le_of_store

/-! ## Types -/

namespace SameEntry

variable {e f : TypeEntry}

theorem handler? (h : P.SameEntry e f) : Option.Rel P.SameHandler e.handler? f.handler? := by
  have hs := h.sort
  unfold TypeEntry.handler?
  generalize e.sort = a at hs
  generalize f.sort = b at hs
  cases hs with
  | value => exact .none
  | object _ hh => exact hh
  | user _ hh => exact hh

theorem setHandler (h : P.SameEntry e f) {a b : Handler} (hab : P.SameHandler a b) :
    SameExcept P.SameEntry (e.setHandler a) (f.setHandler b) := by
  have hs := h.sort
  unfold TypeEntry.setHandler
  rw [h.name]
  generalize e.sort = c at hs
  generalize f.sort = d at hs
  cases hs with
  | value => exact .error _
  | object maker _ => exact .ok ⟨rfl, .object maker (.some hab)⟩
  | user d _ => exact .ok ⟨rfl, .user d (.some hab)⟩

end SameEntry

namespace SameTypes

variable {t s : Types} (h : P.SameTypes t s)
include h

theorem get? (id : TypeId) : Option.Rel P.SameEntry (t.get? id) (s.get? id) := by
  unfold Types.get?
  simp only [← Array.getElem?_toList]
  split
  · exact forall₂_getElem? h.values _
  · split
    · exact forall₂_getElem? h.objects _
    · exact forall₂_getElem? h.users _

theorem nameOf (id : TypeId) : t.nameOf id = s.nameOf id := by
  have he := h.get? id
  unfold Types.nameOf
  generalize t.get? id = a at he
  generalize s.get? id = b at he
  cases he with
  | none => rfl
  | some he => simp only [he.name]

theorem handler? (id : TypeId) : Option.Rel P.SameHandler (t.handler? id) (s.handler? id) := by
  have he := h.get? id
  unfold Types.handler?
  generalize t.get? id = a at he
  generalize s.get? id = b at he
  cases he with
  | none => exact .none
  | some he => exact he.handler?

theorem checkFree (name : String) (used room : Nat) :
    t.checkFree name used room = s.checkFree name used room := by
  unfold Types.checkFree Types.find?
  rw [h.index]

theorem addUser (d : Declaration) : (t.addUser d).1 = (s.addUser d).1 ∧
    P.SameTypes (t.addUser d).2 (s.addUser d).2 := by
  have hsize : t.users.size = s.users.size := by
    rw [← Array.length_toList, h.users.length_eq, Array.length_toList]
  unfold Types.addUser
  rw [hsize, h.checkFree]
  cases s.checkFree d.name s.users.size TypeId.userRoom with
  | error e => exact ⟨rfl, h⟩
  | ok _ =>
    refine ⟨rfl, h.values, h.objects, ?_, by rw [h.index]⟩
    rw [Array.toList_push, Array.toList_push]
    exact forall₂_append h.users (.cons ⟨rfl, .user d .none⟩ .nil)

theorem setEntry (id : TypeId) {e f : TypeEntry} (he : P.SameEntry e f) :
    P.SameTypes (t.setEntry id e) (s.setEntry id f) := by
  unfold Types.setEntry
  dsimp only
  split
  · refine ⟨?_, h.objects, h.users, h.index⟩
    rw [Array.toList_setIfInBounds, Array.toList_setIfInBounds]
    exact forall₂_set h.values _ he
  · split
    · refine ⟨h.values, ?_, h.users, h.index⟩
      rw [Array.toList_setIfInBounds, Array.toList_setIfInBounds]
      exact forall₂_set h.objects _ he
    · refine ⟨h.values, h.objects, ?_, h.index⟩
      rw [Array.toList_setIfInBounds, Array.toList_setIfInBounds]
      exact forall₂_set h.users _ he

theorem setHandler (id : TypeId) {a b : Handler} (hab : P.SameHandler a b) :
    (t.setHandler id a).1 = (s.setHandler id b).1 ∧
      P.SameTypes (t.setHandler id a).2 (s.setHandler id b).2 := by
  have he := h.get? id
  unfold Types.setHandler
  generalize t.get? id = c at he
  generalize s.get? id = d at he
  cases he with
  | none => exact ⟨rfl, h⟩
  | @some e f he =>
    have hset := he.setHandler hab
    dsimp only
    generalize e.setHandler a = c at hset
    generalize f.setHandler b = d at hset
    cases hset with
    | error e => exact ⟨rfl, h⟩
    | ok he => exact ⟨rfl, h.setEntry id he⟩

end SameTypes

theorem onTypes {act act' : Types → Except Error α × Types}
    (ha : ∀ {t s}, P.SameTypes t s → (act t).1 = (act' s).1 ∧ P.SameTypes (act t).2 (act' s).2) :
    P.Joint Eq (M.onTypes act) (M.onTypes act') := by
  intro x y h
  obtain ⟨hr, ht⟩ := ha h.types
  have hxy : P.Alike { x with types := (act x.types).2 } { y with types := (act' y.types).2 } :=
    { h with types := ht, depth := h.depth.imp_left fun hi => ⟨hi.1, hi.2⟩ }
  unfold M.onTypes
  rcases hx : act x.types with ⟨_ | a, t⟩ <;> rcases hy : act' y.types with ⟨_ | b, s⟩ <;>
    rw [hx, hy] at hr hxy <;> cases hr
  · exact .error _ hxy
  · exact .ok rfl hxy

/-! ## Texts -/

theorem Alike.format (h : P.Alike x y) {v t : Value} (hv : P.SameValue v t) :
    x.format v = y.format t := by
  have hd := h.heap.display hv
  cases hv with
  | plain hv =>
    cases v with
    | type id => exact h.types.nameOf id
    | obj _ => cases hv
    | _ => exact hd
  | xt _ => exact hd
  | ptr _ => exact hd
  | obj _ => exact hd

theorem Alike.stackLine (h : P.Alike x y) : x.stackLine = y.stackLine := by
  have hl : x.data.toList.map (fun v => " " ++ x.format v) =
      y.data.toList.map fun v => " " ++ y.format v :=
    map_eq_of_forall₂ (List.rel_reverse h.data.items) fun v t hv => by rw [h.format hv]
  unfold Machine.stackLine
  rw [h.data.depth, hl]

/-! ## Stacks -/

theorem Alike.side (h : P.Alike x y) (k : SideStack) :
    P.SameStack (StackWord.side x k) (StackWord.side y k) := by
  cases k with
  | temp => exact h.temp
  | self => exact h.self

theorem Alike.setSide (h : P.Alike x y) {s t : Stack Value} (hs : P.SameStack s t) (k : SideStack) :
    P.Alike (StackWord.setSide x s k) (StackWord.setSide y t k) := by
  cases k with
  | temp => exact { h with temp := hs, depth := h.depth.imp_left fun hi => ⟨hi.1, hi.2⟩ }
  | self => exact { h with self := hs, depth := h.depth.imp_left fun hi => ⟨hi.1, hi.2⟩ }

theorem pushSide (k : SideStack) {v t : Value} (hv : P.SameValue v t) :
    P.Joint Eq (StackWord.pushSide k v) (StackWord.pushSide k t) := by
  intro x y h
  have hp := (h.side k).push hv
  unfold StackWord.pushSide
  generalize (StackWord.side x k).push v = r at hp
  generalize (StackWord.side y k).push t = s at hp
  cases hp with
  | ok hs => exact .ok rfl (h.setSide hs k)
  | error e => exact .error e h

theorem popSide (k : SideStack) :
    P.Joint P.SameValue (StackWord.popSide k) (StackWord.popSide k) := by
  intro x y h
  have hp := (h.side k).pop
  unfold StackWord.popSide
  generalize (StackWord.side x k).pop = r at hp
  generalize (StackWord.side y k).pop = s at hp
  cases hp with
  | ok hv => exact .ok hv.1 (h.setSide hv.2 k)
  | error e => exact .error e h

theorem ensureRoom (n : Nat) : P.Joint Eq (StackWord.ensureRoom n) (StackWord.ensureRoom n) :=
  .look fun _ _ h => .lift (.of_eq (h.data.ensureRoom n))

theorem stackWord (w : StackWord) : P.Joint Eq w.run w.run := by
  cases w with
  | dup => exact (peek 0).bind fun _ _ hv => push hv
  | drop => exact pop.bind fun _ _ _ => .done
  | swap =>
    exact pop.bind fun _ _ ha => pop.bind fun _ _ hb => (push ha).andThen fun _ => push hb
  | «over» => exact (peek 1).bind fun _ _ hv => push hv
  | rot =>
    exact pop.bind fun _ _ hc => pop.bind fun _ _ hb => pop.bind fun _ _ ha =>
      (push hb).andThen fun _ => (push hc).andThen fun _ => push ha
  | nip => exact pop.bind fun _ _ hb => pop.bind fun _ _ _ => push hb
  | tuck =>
    exact (ensureRoom 1).andThen fun _ => pop.bind fun _ _ hb => pop.bind fun _ _ ha =>
      (push hb).andThen fun _ => (push ha).andThen fun _ => push hb
  | twoDup =>
    exact (peek 1).bind fun _ _ ha => (peek 0).bind fun _ _ hb => (ensureRoom 2).andThen fun _ =>
      (push ha).andThen fun _ => push hb
  | twoDrop => exact pop.bind fun _ _ _ => pop.bind fun _ _ _ => .done
  | pick =>
    refine popInt.andThen fun n => .look fun x y h => ?_
    rw [h.data.depth]
    exact (Joint.lift (.refl _)).andThen fun i => (peek i).bind fun _ _ hv => push hv
  | depth =>
    refine .look fun x y h => ?_
    rw [h.data.depth]
    exact pushPlain rfl
  | clear => exact .modify fun x y h => h.setData h.data.clear
  | toReturn => exact popInt.andThen fun n => pushReturn n
  | fromReturn => exact popReturn.andThen fun _ => pushPlain rfl
  | copyReturn => exact (peekReturn 0).andThen fun _ => pushPlain rfl
  | toSide k => exact pop.bind fun _ _ hv => pushSide k hv
  | fromSide k => exact (popSide k).bind fun _ _ hv => push hv
  | copySide k =>
    exact .look fun x y h => (Joint.lift ((h.side k).peek 0)).bind fun _ _ hv => push hv

/-! ## Operators -/

namespace SameValue

variable {a b c d : Value}

theorem same (ha : P.SameValue a c) (hb : P.SameValue b d) : a.same b = c.same d := by
  cases ha with
  | plain ha =>
    cases hb with
    | plain _ => rfl
    | xt _ | ptr _ | obj _ => cases a <;> first | rfl | cases ha
  | xt hw =>
    cases hb with
    | plain hb => cases b <;> first | rfl | cases hb
    | xt hw' => exact Bool.eq_iff_iff.2 (by simp [Value.same, P.word_iff hw hw'])
    | ptr _ | obj _ => rfl
  | ptr hp =>
    cases hb with
    | plain hb => cases b <;> first | rfl | cases hb
    | ptr hq =>
      refine Bool.eq_iff_iff.2 ?_
      simp [Value.same, P.word_iff hp.target.1 hq.target.1, hp.index, hq.index]
    | xt _ | obj _ => rfl
  | obj ho =>
    cases hb with
    | plain hb => cases b <;> first | rfl | cases hb
    | obj ho' => exact Bool.eq_iff_iff.2 (by simp [Value.same, P.object_iff ho ho'])
    | xt _ | ptr _ => rfl

theorem noRule (ha : P.SameValue a c) (hb : P.SameValue b d) (op : Operator) :
    ThreadedForth.noRule a b op = ThreadedForth.noRule c d op := by
  unfold ThreadedForth.noRule
  rw [ha.kind, hb.kind]

/-- Results that refer to nothing are the same. -/
theorem of_plain {r s : Except Error Value} (h : r = s) (hr : ∀ v, r = .ok v → v.refs = []) :
    SameExcept P.SameValue r s := by
  subst h
  cases r with
  | error e => exact .error e
  | ok v => exact .ok (.plain (hr v rfl))

theorem equalityResult (ha : P.SameValue a c) (hb : P.SameValue b d) (op : Operator) :
    SameExcept P.SameValue (ThreadedForth.equalityResult a b op)
      (ThreadedForth.equalityResult c d op) := by
  refine of_plain ?_ fun v hv => Value.refs_eq_nil (equalityResult_plain hv)
  unfold ThreadedForth.equalityResult
  simp only [ha.same hb, ha.noRule hb]

theorem intLikeResult (ha : P.SameValue a c) (hb : P.SameValue b d) (op : Operator) :
    SameExcept P.SameValue (ThreadedForth.intLikeResult a b op)
      (ThreadedForth.intLikeResult c d op) := by
  refine of_plain ?_ fun v hv => Value.refs_eq_nil (intLikeResult_plain hv)
  unfold ThreadedForth.intLikeResult
  rw [ha.toInt, hb.toInt]

theorem numberResult (ha : P.SameValue a c) (hb : P.SameValue b d) (op : Operator) :
    SameExcept P.SameValue (ThreadedForth.numberResult a b op)
      (ThreadedForth.numberResult c d op) := by
  refine of_plain ?_ fun v hv => Value.refs_eq_nil (numberResult_plain hv)
  unfold ThreadedForth.numberResult
  rw [ha.toFloat, hb.toFloat]

end SameValue

namespace SameHeap

variable {h k : Heap} {a b c d : Value} (hs : P.SameHeap h k)
include hs

theorem applyValues (ha : P.SameValue a c) (hb : P.SameValue b d) (op : Operator) :
    SameExcept P.SameValue (h.applyValues a b op) (k.applyValues c d op) := by
  have heq := ha.equalityResult hb op
  have hint := ha.intLikeResult hb op
  have hno := ha.noRule hb op
  unfold Heap.applyValues
  rw [ha.kind, hb.kind, ha.isNumber, hb.isNumber, ha.isIntLike, hb.isIntLike]
  split
  · exact ha.numberResult hb op
  · cases ha with
    | plain ha =>
      cases hb with
      | plain hb =>
        split
        · exact SameValue.of_plain rfl fun v hv => Value.refs_eq_nil (flagResult_plain hv)
        · cases ha
        · cases hb
        · cases ha
        · exact heq
        · exact heq
        · exact heq
        · exact heq
        · split
          · exact hint
          · exact .error _
      | xt _ => cases a <;> first | exact .error _ | cases ha
      | obj _ => cases a <;> first | exact .error _ | cases ha
      | ptr hp =>
        cases a with
        | int n =>
          cases op with
          | add => exact hs.moved hp n
          | _ => exact .error _
        | xt _ | ptr _ | obj _ => cases ha
        | _ => exact .error _
    | xt hw =>
      cases hb with
      | plain hb => cases b <;> first | exact .error _ | cases hb
      | xt _ => exact heq
      | ptr _ | obj _ => exact .error _
    | obj ho =>
      cases hb with
      | plain hb => cases b <;> first | exact .error _ | cases hb
      | obj _ => exact heq
      | ptr _ | xt _ => exact .error _
    | ptr hp =>
      cases hb with
      | plain hb =>
        cases b with
        | int n =>
          cases op with
          | add => exact hs.moved hp n
          | sub => exact hs.moved hp (-n)
          | _ => exact .error _
        | xt _ | ptr _ | obj _ => cases hb
        | _ => exact .error _
      | ptr hq =>
        cases op with
        | sub =>
          have ht := P.word_iff hp.target.1 hq.target.1
          dsimp only
          split
          · rename_i hc
            rw [if_pos (ht.1 hc), hp.index, hq.index]
            exact .ok (.plain rfl)
          · rename_i hc
            rw [if_neg (mt ht.2 hc)]
            exact .error _
        | _ => exact heq
      | xt _ | obj _ => exact .error _

theorem applyStrings (ha : P.SameValue a c) (hb : P.SameValue b d) (op : Operator) :
    SameExcept (fun r s => P.SameValue r.1 s.1 ∧ P.SameHeap r.2 s.2 ∧ h.Grows r.2)
      (h.applyStrings a b op) (k.applyStrings c d op) := by
  unfold Heap.applyStrings
  rw [hs.display ha, hs.display hb, hs.text? ha, hs.text? hb, ha.kind, hb.kind]
  have hplain : ∀ v : Value, v.refs = [] → P.SameValue v v ∧ P.SameHeap h k ∧ h.Grows h :=
    fun v hv => ⟨.plain hv, hs, .refl h⟩
  split
  · exact .ok ⟨.obj hs.newObject, hs.addObject (.text _), .addObject _ _⟩
  · split
    · split
      · exact .ok (hplain _ rfl)
      · split
        · exact .ok (hplain _ rfl)
        · exact .ok (hplain _ rfl)
        · exact .error _
    · exact .error _

end SameHeap

theorem Alike.handler? (h : P.Alike x y) {a b c d : Value} (ha : P.SameValue a c)
    (hb : P.SameValue b d) :
    Option.Rel P.SameHandler (Operator.handler? x a b) (Operator.handler? y c d) := by
  have hof : ∀ {v t}, P.SameValue v t →
      Option.Rel P.SameHandler (Operator.handlerOf? x v) (Operator.handlerOf? y t) := by
    intro v t hv
    cases hv with
    | plain hv => cases v <;> first | exact .none | cases hv
    | xt _ | ptr _ => exact .none
    | obj ho =>
      unfold Operator.handlerOf?
      dsimp only
      rw [(h.heap.object ho).type]
      exact h.types.handler? _
  have hl := hof ha
  have hr := hof hb
  unfold Operator.handler?
  generalize Operator.handlerOf? x a = r at hl
  generalize Operator.handlerOf? y c = s at hl
  cases hl with
  | none => exact hr
  | some hl => exact .some hl

/-- A visible name leads to words that belong together, or to none. -/
theorem Alike.find? (h : P.Alike x y) {name : String} (hn : P.Finds x y name) :
    Option.Rel P.word (x.find? name) (y.find? name) := by
  unfold Machine.find? Dictionary.find?
  cases hn' : x.dictionary.lookup? (.ofString name) <;>
    cases hm' : y.dictionary.lookup? (.ofString name) <;>
    (unfold Finds at hn; rw [hn', hm'] at hn)
  · exact .none
  · cases hn
  · cases hn
  · cases hn with
    | some hw =>
      rw [Option.filter_some, Option.filter_some, h.heap.hidden hw]
      split
      · exact .some hw
      · exact .none

theorem Alike.builtin (h : P.Alike x y) {name : String} (hn : P.Finds x y name) :
    P.SameResult P.word (M.builtin name x) (M.builtin name y) := by
  have hf := h.find? hn
  cases hx : x.find? name <;> cases hy : y.find? name <;> rw [hx, hy] at hf <;> cases hf
  · rw [M.builtin_error hx, M.builtin_error hy]
    exact .error _ h
  · rename_i hw
    rw [M.builtin_ok hx, M.builtin_ok hy]
    exact .ok hw h

theorem takeResult (depth : Nat) :
    P.Joint P.SameValue (Operator.takeResult depth) (Operator.takeResult depth) :=
  .look fun x y h => .ite (by rw [h.data.depth]) pop (.throw _)

theorem handleStrings : P.Joint Eq Operator.handleStrings Operator.handleStrings := by
  refine pop.bind fun v t hv => ?_
  rw [hv.toOperator]
  refine (Joint.lift (.refl _)).andThen fun op => pop.bind fun b d hb => pop.bind fun a c ha =>
    .get fun x y h => ?_
  have hr := h.heap.applyStrings ha hb op
  generalize x.heap.applyStrings a b op = r at hr
  generalize y.heap.applyStrings c d op = s at hr
  cases hr with
  | error e => exact .error e h
  | ok hr => exact push hr.1 _ _ (h.setHeap hr.2.1 hr.2.2)

theorem Alike.handleHost (h : P.Alike x y) (k : HostHandler)
    (hn : k = .call → P.Finds x y "handler") :
    P.SameResult (Option.Rel P.word) (Operator.handleHost k x) (Operator.handleHost k y) := by
  cases k with
  | const | exit =>
    exact (pop.bind fun _ _ _ => pop.bind fun _ _ _ => pop.bind fun _ _ _ =>
      (pushPlain rfl).andThen fun _ => .pure .none) x y h
  | call => exact (h.builtin (hn rfl)).bind fun _ _ _ _ _ _ hw h' => .ok (.some hw) h'
  | broken => exact (pop.bind fun _ _ _ => .pure .none) x y h

theorem Alike.handle (h : P.Alike x y) {a b : Handler} (hab : P.SameHandler a b)
    (hn : a = .host .call → P.Finds x y "handler") :
    P.SameResult (Option.Rel P.word) (Operator.handle a x) (Operator.handle b y) := by
  cases hab with
  | strings => exact (handleStrings.andThen fun _ => .pure .none) x y h
  | host k => exact h.handleHost k fun hk => hn (by rw [hk])
  | word hw => exact .ok (.some hw) h

/-- Values that are put on the data stack leave the names alone. -/
theorem Finds.of_push {v t : Value} {x' y' : Machine} {name : String} (hn : P.Finds x y name)
    (hx : M.push v x = .ok () x') (hy : M.push t y = .ok () y') : P.Finds x' y' name := by
  unfold M.push at hx hy
  split at hx <;> split at hy <;> cases hx <;> cases hy
  exact hn

theorem Alike.dispatch (h : P.Alike x y) {a b c d : Value} (ha : P.SameValue a c)
    (hb : P.SameValue b d) (op : Operator)
    (hn : Operator.handler? x a b = some (.host .call) → P.Finds x y "handler") :
    P.SameResult P.SameDispatch (Operator.dispatch a b op x) (Operator.dispatch c d op y) := by
  have hk := h.handler? ha hb
  rw [Operator.dispatch, Operator.dispatch, M.bind_ok (x := MonadState.get) rfl,
    M.bind_ok (x := MonadState.get) rfl]
  generalize Operator.handler? x a b = r at hk hn
  generalize Operator.handler? y c d = s at hk
  cases hk with
  | none =>
    exact ((Joint.lift (h.heap.applyValues ha hb op)).bind fun _ _ hv => .pure (.done hv)) x y h
  | some hk =>
    dsimp only
    refine (push ha x y h).bind fun _ _ x₁ y₁ hx₁ hy₁ _ h₁ => (push hb x₁ y₁ h₁).bind
      fun _ _ x₂ y₂ hx₂ hy₂ _ h₂ => (pushPlain rfl x₂ y₂ h₂).bind fun _ _ x₃ y₃ hx₃ hy₃ _ h₃ => ?_
    refine (h₃.handle hk fun hc => (((hn (congrArg some hc)).of_push hx₁ hy₁).of_push hx₂ hy₂).of_push
      hx₃ hy₃).bind fun w? u? x₄ y₄ _ _ hw h₄ => ?_
    cases hw with
    | none =>
      rw [h.data.depth]
      exact ((takeResult _).bind fun _ _ hv => .pure (.done hv)) x₄ y₄ h₄
    | some hw =>
      rw [h.data.depth]
      exact .ok (.run hw _) h₄

theorem useResult {v t : Value} (hv : P.SameValue v t) {a b : After} (hab : P.SameAfter a b) :
    P.Joint Eq (Operator.useResult v a) (Operator.useResult t b) := by
  cases hab with
  | push => exact push hv
  | select ha hb =>
    refine (Joint.lift (.of_eq hv.toFlag)).andThen fun c => ?_
    cases c with
    | true => exact push ha
    | false => exact push hb
  | store hp => exact storeAt hp hv

theorem conclude (depth : Nat) {a b : After} (hab : P.SameAfter a b) :
    P.Joint Eq (Operator.conclude depth a) (Operator.conclude depth b) :=
  (takeResult depth).bind fun _ _ hv => useResult hv hab

theorem Alike.applyThen (h : P.Alike x y) {a b c d : Value} (ha : P.SameValue a c)
    (hb : P.SameValue b d) (op : Operator) {r s : After} (hrs : P.SameAfter r s)
    (hn : Operator.handler? x a b = some (.host .call) → P.Finds x y "handler") :
    P.SameResult P.SameFlow (Operator.applyThen a b op r x) (Operator.applyThen c d op s y) := by
  refine (h.dispatch ha hb op hn).bind fun _ _ x' y' _ _ hd h' => ?_
  cases hd with
  | done hv => exact ((useResult hv hrs).andThen fun _ => .pure .next) x' y' h'
  | run hw depth => exact .ok (.nest hw (.handler depth hrs)) h'

/-! ## Numbers -/

/-- The operands of a word that applies an operator have been taken off the data stack. -/
theorem handler?_of_pops {a b : Value} {x₁ x₂ : Machine} (h₁ : M.pop x = .ok b x₁)
    (h₂ : M.pop x₁ = .ok a x₂) : x.data.peek? 0 = some b ∧ x.data.peek? 1 = some a ∧
      ∀ u v, Operator.handler? x₂ u v = Operator.handler? x u v := by
  obtain ⟨hb, s, rfl, hs⟩ := M.peek?_of_pop h₁
  obtain ⟨ha, t, rfl, -⟩ := M.peek?_of_pop h₂
  exact ⟨hb, (hs 0).symm.trans ha, fun u v => by cases u <;> cases v <;> rfl⟩

theorem Finds.of_pop {v t : Value} {x' y' : Machine} {name : String} (hn : P.Finds x y name)
    (hx : M.pop x = .ok v x') (hy : M.pop y = .ok t y') : P.Finds x' y' name := by
  obtain ⟨s, -, rfl⟩ := M.pop_eq_ok hx
  obtain ⟨s', -, rfl⟩ := M.pop_eq_ok hy
  exact hn

theorem Alike.arithmeticWord (h : P.Alike x y) (w : ArithmeticWord)
    (hn : (Primitive.arithmetic w).callsByName x = true → P.Finds x y "handler") :
    P.SameResult P.SameFlow (w.run x) (w.run y) := by
  have one : P.SameValue (.int 1) (.int 1) := .plain rfl
  cases w with
  | apply op =>
    refine (pop x y h).bind fun b d x₁ y₁ hx₁ hy₁ hb h₁ => (pop x₁ y₁ h₁).bind
      fun a c x₂ y₂ hx₂ hy₂ ha h₂ => h₂.applyThen ha hb op .push fun hc => ?_
    obtain ⟨h0, h1, hh⟩ := handler?_of_pops hx₁ hx₂
    refine ((hn ?_).of_pop hx₁ hy₁).of_pop hx₂ hy₂
    simp [Primitive.callsByName, Primitive.operands?, h0, h1, ← hh, hc]
  | select op =>
    refine (pop x y h).bind fun b d x₁ y₁ hx₁ hy₁ hb h₁ => (pop x₁ y₁ h₁).bind
      fun a c x₂ y₂ hx₂ hy₂ ha h₂ => h₂.applyThen ha hb op (.select ha hb) fun hc => ?_
    obtain ⟨h0, h1, hh⟩ := handler?_of_pops hx₁ hx₂
    refine ((hn ?_).of_pop hx₁ hy₁).of_pop hx₂ hy₂
    simp [Primitive.callsByName, Primitive.operands?, h0, h1, ← hh, hc]
  | increment =>
    refine (pop x y h).bind fun a c x₁ y₁ hx₁ hy₁ ha h₁ => h₁.applyThen ha one .add .push
      fun hc => (hn ?_).of_pop hx₁ hy₁
    obtain ⟨h0, s, rfl, -⟩ := M.peek?_of_pop hx₁
    have hh : Operator.handler? x a (.int 1) = some (.host .call) := by cases a <;> exact hc
    simp [Primitive.callsByName, Primitive.operands?, h0, hh]
  | decrement =>
    refine (pop x y h).bind fun a c x₁ y₁ hx₁ hy₁ ha h₁ => h₁.applyThen ha one .sub .push
      fun hc => (hn ?_).of_pop hx₁ hy₁
    obtain ⟨h0, s, rfl, -⟩ := M.peek?_of_pop hx₁
    have hh : Operator.handler? x a (.int 1) = some (.host .call) := by cases a <;> exact hc
    simp [Primitive.callsByName, Primitive.operands?, h0, hh]
  | negate | abs =>
    refine (pop.bind fun v t hv => ?_) x y h
    have hi := hv.toInt
    cases hv with
    | plain _ =>
      cases v with
      | float z => exact (pushPlain rfl).andThen fun _ => .pure .next
      | _ => exact (Joint.lift (.refl _)).andThen fun _ => (pushPlain rfl).andThen fun _ => .pure .next
    | xt _ | ptr _ | obj _ =>
      exact (Joint.lift (.of_eq hi)).andThen fun _ => (pushPlain rfl).andThen fun _ => .pure .next
  | not => exact (popFlag.andThen fun _ => (pushPlain rfl).andThen fun _ => .pure .next) x y h
  | invert => exact (popInt.andThen fun _ => (pushPlain rfl).andThen fun _ => .pure .next) x y h
  | flag b => exact ((pushPlain rfl).andThen fun _ => .pure .next) x y h

theorem onFloat (f : Float → Float) : P.Joint Eq (onFloat f) (onFloat f) :=
  pop.bind fun _ _ hv => (Joint.lift (.of_eq hv.toFloat)).andThen fun _ => pushPlain rfl

theorem floatWord (w : FloatWord) : P.Joint Eq w.run w.run := by
  cases w with
  | toInt =>
    refine pop.bind fun v t hv => ?_
    have hi := hv.toInt
    cases hv with
    | plain _ =>
      cases v with
      | float z => exact pushPlain rfl
      | _ => exact (Joint.lift (.refl _)).andThen fun _ => pushPlain rfl
    | xt _ | ptr _ | obj _ => exact (Joint.lift (.of_eq hi)).andThen fun _ => pushPlain rfl
  | toFloat | sqrt | floor | ceil | round => exact onFloat _

/-! ## Output -/

theorem putSpaces : ∀ n, P.Joint Eq (putSpaces n) (putSpaces n)
  | 0 => .done
  | n + 1 => (put _).andThen fun _ => putSpaces n

theorem byteOf {v t : Value} (hv : P.SameValue v t) : byteOf v = byteOf t := by
  cases hv <;> rfl

theorem outputWord {w : OutputWord} (hw : w ≠ .words) (hs : w ≠ .see) :
    P.Joint Eq w.run w.run := by
  cases w with
  | print =>
    refine pop.bind fun v t hv => .look fun x y h => ?_
    rw [h.format hv]
    exact write _
  | printFloat =>
    exact pop.bind fun v t hv => (Joint.lift (.of_eq hv.toFloat)).andThen fun _ => write _
  | printStack =>
    refine .look fun x y h => ?_
    rw [h.stackLine]
    exact write _
  | emit => exact pop.bind fun v t hv => (Joint.lift (.of_eq (byteOf hv))).andThen fun _ => putByte _
  | newline => exact put _
  | space => exact put _
  | spaces => exact popInt.andThen fun _ => putSpaces _
  | type =>
    refine pop.bind fun v t hv => .look fun x y h => ?_
    rw [h.format hv]
    exact put _
  | words => exact absurd rfl hw
  | see => exact absurd rfl hs

/-! ## Data slots -/

theorem loadWord : P.Joint P.SameFlow (MemoryWord.run .load) (MemoryWord.run .load) :=
  pop.bind fun _ _ hv => .look fun _ _ h => (Joint.lift (h.heap.deref hv)).bind fun _ _ hu =>
    (push hu).andThen fun _ => .pure .next

theorem storeWord : P.Joint P.SameFlow (MemoryWord.run .store) (MemoryWord.run .store) :=
  pop.bind fun _ _ ht => pop.bind fun _ _ hv => (Joint.lift ht.toPointer).bind fun _ _ hp =>
    (storeAt hp hv).andThen fun _ => .pure .next

theorem Alike.addStoreWord (h : P.Alike x y)
    (hn : (Primitive.memory .addStore).callsByName x = true → P.Finds x y "handler") :
    P.SameResult P.SameFlow (MemoryWord.run .addStore x) (MemoryWord.run .addStore y) := by
  refine (pop x y h).bind fun target t x₁ y₁ hx₁ hy₁ ht h₁ => (pop x₁ y₁ h₁).bind
    fun n n' x₂ y₂ hx₂ hy₂ hk h₂ => ?_
  have hn := fun hc => ((hn hc).of_pop hx₁ hy₁).of_pop hx₂ hy₂
  obtain ⟨h0, h1, hh⟩ := handler?_of_pops hx₁ hx₂
  have hheap : x₂.heap = x.heap := by
    obtain ⟨s, -, rfl⟩ := M.pop_eq_ok hx₁
    obtain ⟨s', -, rfl⟩ := M.pop_eq_ok hx₂
    rfl
  refine (Joint.lift ht.toPointer x₂ y₂ h₂).bind fun p q x₃ y₃ hx₃ hy₃ hp h₃ => ?_
  obtain ⟨hp', rfl⟩ := M.lift_eq_ok hx₃
  obtain ⟨-, rfl⟩ := M.lift_eq_ok hy₃
  show P.SameResult _ ((M.lift (x₃.heap.load p) >>= fun v => Operator.applyThen v n .add (.store p)) x₃)
    ((M.lift (y₃.heap.load q) >>= fun v => Operator.applyThen v n' .add (.store q)) y₃)
  refine (Joint.lift (h₃.heap.load hp) _ _ h₃).bind fun v v' x₄ y₄ hx₄ hy₄ hv h₄ => ?_
  obtain ⟨hload, rfl⟩ := M.lift_eq_ok hx₄
  obtain ⟨-, rfl⟩ := M.lift_eq_ok hy₄
  refine h₄.applyThen hv hk .add (.store hp) fun hc => hn ?_
  have hderef : x.heap.deref target = .ok v := by
    unfold Heap.deref
    rw [hp', ← hheap]
    exact hload
  simp [Primitive.callsByName, Primitive.operands?, h0, h1, hderef, ← hh, hc]

end Pairing
end ThreadedForth
