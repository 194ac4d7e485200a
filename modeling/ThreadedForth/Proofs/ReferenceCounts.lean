/-
  Reference counts: `refcount` is exact at every moment of a session.
-/
import ThreadedForth.Proofs.NewMachines
import ThreadedForth.Proofs.Occurrences
import ThreadedForth.Proofs.Operands

namespace ThreadedForth

/-! ## How counts change -/

theorem sum_map_of_agree {α : Type} {l : List α} (hn : l.Nodup) {a : α} (ha : a ∈ l)
    {f g : α → Nat} (h : ∀ x ∈ l, x ≠ a → f x = g x) :
    (l.map f).sum + g a = (l.map g).sum + f a := by
  induction l with
  | nil => cases ha
  | cons x l ih =>
    obtain ⟨hx, hn⟩ := List.nodup_cons.1 hn
    simp only [List.map_cons, List.sum_cons]
    rcases List.mem_cons.1 ha with rfl | ha
    · have : l.map f = l.map g := List.map_congr_left fun y hy =>
        h y (List.mem_cons_of_mem _ hy) fun e => hx (e ▸ hy)
      rw [this]
      omega
    · have := ih hn ha fun y hy => h y (List.mem_cons_of_mem _ hy)
      have := h x List.mem_cons_self fun e => hx (e ▸ ha)
      omega

namespace Heap

variable {h h' : Heap} {S : Ref → Prop} [DecidablePred S] {o : ObjId}

theorem occurrencesAmong_congr (he : h'.everything = h.everything)
    (ho : ∀ s, h'.occurrencesIn o s = h.occurrencesIn o s) :
    h'.occurrencesAmong S o = h.occurrencesAmong S o := by
  have ho : h'.occurrencesIn o = h.occurrencesIn o := funext ho
  rw [occurrencesAmong, occurrencesAmong, he, ho]

/-- One word or object of a set is changed. -/
theorem occurrencesAmong_change {a : Ref} (he : h'.everything = h.everything) (ha : h.Has a)
    (hS : S a) (ho : ∀ s, s ≠ a → h'.occurrencesIn o s = h.occurrencesIn o s) :
    h'.occurrencesAmong S o + h.occurrencesIn o a = h.occurrencesAmong S o + h'.occurrencesIn o a := by
  rw [occurrencesAmong, occurrencesAmong, he]
  refine sum_map_of_agree (h.nodup_everything.filter _) ?_ fun x _ hx => ho x hx
  exact List.mem_filter.2 ⟨mem_everything.2 ha, decide_eq_true hS⟩

theorem everything_setWord (w : WordId) (x : Word) : (h.setWord w x).everything = h.everything := by
  simp [everything, setWord]

theorem everything_setObject (a : ObjId) (x : Obj) :
    (h.setObject a x).everything = h.everything := by
  simp [everything, setObject]

theorem occurrencesIn_setWord_of_ne {w : WordId} {x : Word} {s : Ref} (hs : s ≠ .word w) :
    (h.setWord w x).occurrencesIn o s = h.occurrencesIn o s := by
  rw [← count_refsOf, ← count_refsOf, refsOf_setWord_of_ne hs]

theorem occurrencesAmong_setWord_of_body {w : WordId} {x : Word} (hx : x.body = (h.word w).body) :
    (h.setWord w x).occurrencesAmong S o = h.occurrencesAmong S o := by
  refine occurrencesAmong_congr (everything_setWord w x) fun s => ?_
  rw [← count_refsOf, ← count_refsOf, refsOf_setWord_of_body hx]

theorem occurrencesAmong_addWord {x : Word} (hS : S (.word ⟨h.words.size⟩)) :
    (h.addWord x).2.occurrencesAmong S o =
      h.occurrencesAmong S o + x.body.toList.count (.lit (.obj o)) := by
  have hword : (h.addWord x).2.occurrencesIn o (.word ⟨h.words.size⟩) =
      x.body.toList.count (.lit (.obj o)) := by
    simp [occurrencesIn, word, addWord]
  have hold : ∀ s ∈ h.everything, (h.addWord x).2.occurrencesIn o s = h.occurrencesIn o s := by
    intro s hs
    rw [← count_refsOf, ← count_refsOf, refsOf_addWord_of_has (mem_everything.1 hs)]
  have hperm : (h.addWord x).2.everything.Perm (.word ⟨h.words.size⟩ :: h.everything) := by
    rw [everything, everything]
    simp only [addWord, Array.size_push, List.range_succ, List.map_append, List.map_cons,
      List.map_nil, List.append_assoc, List.singleton_append]
    exact List.perm_middle
  rw [occurrencesAmong, occurrencesAmong,
    List.Perm.sum_nat ((hperm.filter _).map ((h.addWord x).2.occurrencesIn o)),
    List.filter_cons_of_pos (p := fun r => decide (S r)) (decide_eq_true hS), List.map_cons, List.sum_cons, hword,
    List.map_congr_left fun s hs => hold s (List.mem_filter.1 hs).1, Nat.add_comm]

/-- What a larger set holds besides a smaller one. -/
theorem occurrencesAmong_split (F F' : Ref → Prop) [DecidablePred F] [DecidablePred F']
    (hF : ∀ r, F r → F' r) :
    h.occurrencesAmong (fun r => ¬ F r) o =
      h.occurrencesAmong (fun r => ¬ F' r) o + h.occurrencesAmong (fun r => F' r ∧ ¬ F r) o := by
  unfold occurrencesAmong
  induction h.everything with
  | nil => rfl
  | cons r rs ih =>
    have := hF r
    by_cases h₁ : F r <;> by_cases h₂ : F' r
    all_goals simp_all
    all_goals omega

end Heap

/-! ## What a few words let go of -/

namespace Machine

variable {m m₁ : Machine} {p : Primitive} {vs : List Value} {o : ObjId}

/-- The values that a primitive lets go of when it succeeds: `drop` the top of the stack, `!` the
    pointer and what the slot held, and `set` the object, the position and what the element held.
    `forget`, and the words that bind a name, let go of no value themselves. -/
inductive Discards (m : Machine) : Primitive → List Value → Prop
  | drop {v : Value} {rest : List Value} (hd : m.data.items = v :: rest) :
    Discards m (.stack .drop) [v]
  | store {p : Pointer} {v old : Value} {rest : List Value}
    (hd : m.data.items = .ptr p :: v :: rest) (hl : m.heap.load p = .ok old) :
    Discards m (.memory .store) [.ptr p, old]
  | set {a : ObjId} {i v old : Value} {n : Int64} {rest : List Value}
    (hd : m.data.items = .obj a :: i :: v :: rest) (hi : i.toInt = .ok n)
    (ho : (m.heap.object a).items[n.toInt.toNat]? = some old) :
    Discards m (.object (.invoke .set)) [.obj a, i, old]
  | forget : Discards m (.defining .forget) []
  | define {p : Primitive} (hp : p ∈ [.defining .semicolon, .memory .create, .memory .variable,
      .memory .constant, .object .struct]) : Discards m p []

theorem step_of_primitive (hp : m.primitive? = some p) : m.step = settle (p.run m) := by
  unfold primitive? at hp
  split at hp
  · rename_i r rs f fs hr hf
    split at hp
    · cases hp
    · rename_i hn
      simp only [Bool.or_eq_true, not_or, Bool.not_eq_true] at hn
      split at hp
      · rename_i q hc
        cases hp
        have hb : r.base < m.frames.length :=
          Nat.lt_of_not_le fun h => by simp [isBackAt_iff.2 h] at hn
        rw [step_of_frame hr hf hb hn.2, stepFrame, hc]
      · cases hp
  · cases hp

theorem thenNext_eq_ok {act : M Unit} {flow : Flow} (h : thenNext act m = .ok flow m₁) :
    act m = .ok () m₁ := by
  obtain ⟨u, x, hu, hx⟩ := M.of_bind_ok h
  cases hx
  exact hu

theorem run_drop {v : Value} {rest : List Value} (hd : m.data.items = v :: rest)
    (hr : (Primitive.stack .drop).run m = .ok .next m₁) :
    m₁ = { m with data := { m.data with items := rest } } := by
  have h : StackWord.run .drop m = .ok () { m with data := { m.data with items := rest } } :=
    M.bind_ok (pop_of_items hd)
  have := (thenNext_eq_ok hr).symm.trans h
  cases this
  rfl

theorem run_store {p : Pointer} {v : Value} {rest : List Value}
    (hd : m.data.items = .ptr p :: v :: rest)
    (hr : (Primitive.memory .store).run m = .ok .next m₁) :
    ∃ x, (m.heap.word p.target).store p.index v = .ok x ∧
      m₁ = { m with data := { m.data with items := rest }, heap := m.heap.setWord p.target x } := by
  simp only [Primitive.run, MemoryWord.run] at hr
  rw [M.bind_ok (pop_of_items hd), M.bind_ok (pop_of_items rfl),
    M.bind_ok (lift_ok (show (Value.ptr p).toPointer = .ok p from rfl))] at hr
  obtain ⟨u, y, hu, hy⟩ := M.of_bind_ok (x := M.setHeap (m.heap.store p v)) hr
  cases hy
  obtain ⟨h', y, hh, hy⟩ := M.of_bind_ok hu
  obtain ⟨hh, rfl⟩ := M.lift_eq_ok hh
  cases hy
  unfold Heap.store Heap.changeWord at hh
  split at hh
  · rename_i x hx
    cases hh
    exact ⟨x, hx, rfl⟩
  · cases hh

theorem run_set {a : ObjId} {i v old : Value} {n : Int64} {rest : List Value}
    (hd : m.data.items = .obj a :: i :: v :: rest) (hi : i.toInt = .ok n)
    (ho : (m.heap.object a).items[n.toInt.toNat]? = some old)
    (hr : (Primitive.object (.invoke .set)).run m = .ok .next m₁) :
    m₁ = { m with
      data := { m.data with items := rest }
      heap := m.heap.setObject a ((m.heap.object a).setItems
        ((m.heap.object a).items.setIfInBounds n.toInt.toNat v)) } := by
  have hr : ObjectWord.call .set m = .ok () m₁ := thenNext_eq_ok hr
  rw [ObjectWord.call, M.bind_ok (pop_of_items hd),
    M.bind_ok (lift_ok (show (Value.obj a).toObject = .ok a from rfl))] at hr
  obtain ⟨u, y, hu, hr⟩ := M.of_bind_ok hr
  cases hu
  dsimp only at hr
  split at hr
  · -- an object with the element holds values, so that the function is the one of sequences
    unfold M.onStore at hr
    have hinvoke : Store.invoke (m.addresses a) a .set ⟨m.heap, { m.data with items := i :: v :: rest }⟩ =
        Store.invokeItems (m.addresses a) a (m.heap.object a) (m.heap.object a).items .set
          ⟨m.heap, { m.data with items := i :: v :: rest }⟩ := by
      have hget : ∀ (f : Store → StoreM Unit) (s : Store), (MonadState.get >>= f) s = f s s :=
        fun _ _ => rfl
      rw [Store.invoke, hget]
      dsimp only
      cases hx : m.heap.object a with
      | text t => simp [hx, Obj.items] at ho
      | array items b => rfl
      | record t d items b => rfl
    simp only [hinvoke] at hr
    by_cases hc : 0 ≤ n.toInt ∧ n.toInt < (m.heap.object a).items.size
    · have hset : Store.invokeItems (m.addresses a) a (m.heap.object a) (m.heap.object a).items .set
          ⟨m.heap, { m.data with items := i :: v :: rest }⟩ = .ok () ⟨m.heap.setObject a
            ((m.heap.object a).setItems ((m.heap.object a).items.setIfInBounds n.toInt.toNat v)),
            { m.data with items := rest }⟩ := by
        simp [Store.invokeItems, Store.popInt, Store.pop, Stack.pop, Store.lift, hi, checkIndex, hc,
          bind, EStateM.bind]
        rfl
      rw [hset] at hr
      cases hr
      rfl
    · have hset : ∃ s, Store.invokeItems (m.addresses a) a (m.heap.object a) (m.heap.object a).items .set
          ⟨m.heap, { m.data with items := i :: v :: rest }⟩ = .error
            (.indexOutOfRange n.toInt (m.heap.object a).items.size) s := by
        simp [Store.invokeItems, Store.popInt, Store.pop, Stack.pop, Store.lift, hi, checkIndex, hc,
          bind, EStateM.bind]
      obtain ⟨s, hset⟩ := hset
      rw [hset] at hr
      cases hr
  · cases hr

theorem run_forget (hr : (Primitive.defining .forget).run m = .ok .next m₁) :
    ∃ l d w, m₁ = { m with
      line := l
      dictionary := d
      heap := m.heap.updateWord w fun x => { x with hidden := true } } := by
  obtain ⟨u, y, hu, hy⟩ := M.of_bind_ok (x := DefiningWord.act .forget) hr
  cases hy
  obtain ⟨name, m₂, hn, hu⟩ := M.of_bind_ok (x := M.nextName "forget") hu
  obtain ⟨l, rfl⟩ := M.nextName_eq_ok hn
  obtain ⟨y, m₃, hg, hu⟩ := M.of_bind_ok hu
  cases hg
  obtain ⟨⟨w, d, h⟩, m₃, hf, hu⟩ := M.of_bind_ok hu
  obtain ⟨hf, rfl⟩ := M.lift_eq_ok hf
  cases hu
  unfold Dictionary.forget at hf
  split at hf
  · cases hf
  · split at hf
    · cases hf
    · cases hf
      exact ⟨l, _, _, rfl⟩

section Binding

variable {F : Ref → Prop} [DecidablePred F]

theorem occurrences_install {w : Word} (hF : ¬ F (.word ⟨m.heap.words.size⟩)) :
    (m.install w).2.occurrences F o = m.occurrences F o + w.body.toList.count (.lit (.obj o)) := by
  have hadd := Heap.occurrencesAmong_addWord (h := m.heap) (S := fun r => ¬ F r) (o := o) (x := w) hF
  have hset : (m.install w).2.heap.occurrencesAmong (fun r => ¬ F r) o =
      (m.heap.addWord w).2.occurrencesAmong (fun r => ¬ F r) o :=
    Heap.occurrencesAmong_setWord_of_body rfl
  unfold occurrences
  rw [hset, hadd]
  exact (Nat.add_assoc _ _ _).symm

theorem requireCompiling_eq_ok {name : String} {u : Unit}
    (h : M.requireCompiling name m = .ok u m₁) : m₁ = m := by
  obtain ⟨mode, m₂, hm, h⟩ := M.of_bind_ok h
  cases hm
  split at h
  · cases h
    rfl
  · cases h

theorem checkBalance_eq_ok {u : Unit} (h : DefiningWord.checkBalance m = .ok u m₁) : m₁ = m := by
  obtain ⟨x, m₂, hm, h⟩ := M.of_bind_ok h
  cases hm
  dsimp only at h
  split at h
  · cases h
  · split at h
    · split at h
      · cases h
      · cases h
    · cases h
      rfl

theorem occurrences_reveal {u : Unit} (hr : DefiningWord.reveal m = .ok u m₁) :
    m₁.occurrences F o = m.occurrences F o := by
  obtain ⟨_, m₂, hb, h⟩ := M.of_bind_ok (x := DefiningWord.checkBalance) hr
  obtain rfl := checkBalance_eq_ok hb
  obtain ⟨x, m₃, hm, h⟩ := M.of_bind_ok h
  cases hm
  obtain ⟨w, m₃, hw, h⟩ := M.of_bind_ok h
  obtain ⟨hw, rfl⟩ := M.lift_eq_ok hw
  obtain ⟨_, m₄, hm, h⟩ := M.of_bind_ok h
  cases hm
  have hbody : ∀ y : Word, y.body = (m₃.heap.word w).body →
      (m₃.heap.setWord w y).occurrencesAmong (fun r => ¬ F r) o =
        m₃.heap.occurrencesAmong (fun r => ¬ F r) o :=
    fun y hy => Heap.occurrencesAmong_setWord_of_body hy
  split at h
  · obtain ⟨_, m₄, hm, h⟩ := M.of_bind_ok h
    cases hm
    unfold M.push at h
    split at h
    · rename_i s hs
      cases h
      obtain ⟨-, rfl⟩ := Stack.push_eq_ok hs
      have := hbody { m₃.heap.word w with hidden := false } rfl
      simp only [occurrences, List.count_cons]
      rw [Heap.updateWord, this]
      rfl
    · cases h
  · cases h
    have := hbody { m₃.heap.word w with hidden := false } rfl
    simp only [occurrences, Dictionary.add, Heap.updateWord]
    rw [this]

theorem occurrences_addSlot {w : WordId} {v : Value} {u : Unit} (hw : m.heap.Has (.word w))
    (hF : ¬ F (.word w)) (hr : addSlot w v m = .ok u m₁) :
    m₁.occurrences F o = m.occurrences F o + [v].count (.obj o) := by
  obtain ⟨h', m₂, hh, hs⟩ := M.of_bind_ok
    (x := M.lift (m.heap.changeWord w fun x => x.push (.lit v))) hr
  obtain ⟨hh, rfl⟩ := M.lift_eq_ok hh
  cases hs
  unfold Heap.changeWord at hh
  split at hh
  · rename_i x hx
    cases hh
    have hchange := Heap.occurrencesAmong_change (S := fun r => ¬ F r) (o := o)
      (Heap.everything_setWord w x) hw hF fun s hs => Heap.occurrencesIn_setWord_of_ne hs
    have hnew : (m₂.heap.setWord w x).occurrencesIn o (.word w) =
        m₂.heap.occurrencesIn o (.word w) + [v].count (.obj o) := by
      have hword : (m₂.heap.setWord w x).word w = x := by
        rw [Heap.word_setWord, if_pos ⟨rfl, hw⟩]
      simp only [Heap.occurrencesIn, hword, Word.body_of_push hx]
      simp [List.count_append, List.count_singleton]
    simp only [occurrences]
    omega
  · cases hh

theorem occurrences_defineConstant {name : String} {v : Value} {w : WordId}
    (hr : M.defineConstant name v m = .ok w m₁) (hF : ¬ F (.word ⟨m.heap.words.size⟩)) :
    m₁.occurrences F o = m.occurrences F o + [v].count (.obj o) ∧
      m₁.heap.words.size = m.heap.words.size + 1 := by
  cases hr
  refine ⟨(occurrences_install hF).trans ?_, ?_⟩
  · simp [Word.constant, List.count_cons]
  · simp [Heap.updateWord, Heap.setWord]

theorem occurrences_defineFields {name : String} {i : Nat} {fields : List String} {u : Unit}
    (hF : ∀ k, m.heap.words.size ≤ k → ¬ F (.word ⟨k⟩))
    (hr : ObjectWord.defineFields name i fields m = .ok u m₁) :
    m₁.occurrences F o = m.occurrences F o := by
  induction fields generalizing m i with
  | nil =>
    cases hr
    rfl
  | cons field fields ih =>
    obtain ⟨w, m₂, hw, hrest⟩ := M.of_bind_ok
      (x := M.defineConstant (name ++ "." ++ field) (.nat i)) hr
    obtain ⟨hocc, hsize⟩ := occurrences_defineConstant (o := o) hw (hF _ (Nat.le_refl _))
    rw [ih (fun k hk => hF k (by omega)) hrest, hocc]
    rfl

theorem nextFields_eq_ok {fuel : Nat} {fields : Option (List String)}
    (hr : ObjectWord.nextFields fuel m = .ok fields m₁) : ∃ l, m₁ = { m with line := l } := by
  induction fuel generalizing m m₁ fields with
  | zero =>
    cases hr
    exact ⟨_, rfl⟩
  | succ fuel ih =>
    rw [ObjectWord.nextFields,
      M.bind_ok (show M.nextToken m = .ok _ { m with line := m.line.advance } from rfl)] at hr
    generalize m.line.advance.token? = t at hr
    split at hr
    · cases hr
      exact ⟨_, rfl⟩
    · cases hr
      exact ⟨_, rfl⟩
    · obtain ⟨rest, m₂, hrest, hy⟩ := M.of_bind_ok hr
      cases hy
      obtain ⟨l, rfl⟩ := ih hrest
      exact ⟨l, rfl⟩

theorem occurrences_declare {u : Unit} (hF : ∀ k, m.heap.words.size ≤ k → ¬ F (.word ⟨k⟩))
    (hr : ObjectWord.declare m = .ok u m₁) : m₁.occurrences F o = m.occurrences F o := by
  obtain ⟨name, m₂, hn, h₂⟩ := M.of_bind_ok (x := M.nextName "struct:") hr
  obtain ⟨l, rfl⟩ := M.nextName_eq_ok hn
  obtain ⟨y, m₃, hy, h₃⟩ := M.of_bind_ok h₂
  cases hy
  obtain ⟨fields, m₄, hf, h₄⟩ := M.of_bind_ok h₃
  obtain ⟨l', rfl⟩ := nextFields_eq_ok hf
  cases fields with
  | none => cases h₄
  | some fields =>
    obtain ⟨t, m₅, ht, h₅⟩ := M.of_bind_ok h₄
    have hm₅ : ∃ types, m₅ = { m with line := l', types := types } := by
      unfold M.onTypes at ht
      split at ht
      · cases ht
        exact ⟨_, rfl⟩
      · cases ht
    obtain ⟨types, rfl⟩ := hm₅
    obtain ⟨w, m₆, hw, h₆⟩ := M.of_bind_ok h₅
    obtain ⟨hocc, hsize⟩ := occurrences_defineConstant (o := o) hw (hF _ (Nat.le_refl _))
    have hsize : m₆.heap.words.size = m.heap.words.size + 1 := hsize
    rw [occurrences_defineFields (fun k hk => hF k (by omega)) h₆, hocc]
    rfl

/-- Binding a name moves values at most into the new word. -/
theorem occurrences_define (hp : p ∈ [.defining .semicolon, .memory .create, .memory .variable,
      .memory .constant, .object .struct]) (hF : ∀ k, m.heap.words.size ≤ k → ¬ F (.word ⟨k⟩))
    (hr : p.run m = .ok .next m₁) : m₁.occurrences F o = m.occurrences F o := by
  have hnew := hF _ (Nat.le_refl _)
  simp only [List.mem_cons, List.not_mem_nil, or_false] at hp
  rcases hp with rfl | rfl | rfl | rfl | rfl
  · obtain ⟨_, y, hact, hy⟩ := M.of_bind_ok (x := DefiningWord.act .semicolon) hr
    cases hy
    obtain ⟨_, m₂, hc, hrest⟩ := M.of_bind_ok (x := M.requireCompiling ";") hact
    obtain rfl := requireCompiling_eq_ok hc
    obtain ⟨_, m₃, hv, hs⟩ := M.of_bind_ok (x := DefiningWord.reveal) hrest
    cases hs
    show m₃.occurrences F o = _
    exact occurrences_reveal hv
  · obtain ⟨name, m₂, hn, hu⟩ := M.of_bind_ok (x := M.nextName "create") hr
    obtain ⟨l, rfl⟩ := M.nextName_eq_ok hn
    rw [M.bind_ok (createWord_eq name _)] at hu
    cases hu
    exact occurrences_install (m := { m with line := l }) hnew
  · obtain ⟨name, m₂, hn, hu⟩ := M.of_bind_ok (x := M.nextName "variable") hr
    obtain ⟨l, rfl⟩ := M.nextName_eq_ok hn
    rw [M.bind_ok (createWord_eq name _)] at hu
    obtain ⟨_, m₃, hs, hy⟩ := M.of_bind_ok hu
    cases hy
    have hadd := occurrences_addSlot (F := F) (o := o) ?_ hnew hs
    · have hzero : [Value.int 0].count (.obj o) = 0 := rfl
      rw [hadd, hzero, Nat.add_zero]
      exact occurrences_install (m := { m with line := l }) hnew
    · simp [install, Heap.Has, Dictionary.add, Heap.updateWord, Heap.setWord, Heap.addWord]
  · obtain ⟨name, m₂, hn, hu⟩ := M.of_bind_ok (x := M.nextName "constant") hr
    obtain ⟨l, rfl⟩ := M.nextName_eq_ok hn
    obtain ⟨v, m₂, hv, hw⟩ := M.of_bind_ok (x := M.pop) hu
    unfold M.pop at hv
    split at hv
    · rename_i v' s hs
      cases hv
      obtain ⟨w, m₃, hw, hy⟩ := M.of_bind_ok (x := M.defineConstant name v) hw
      cases hy
      have hd : m.data.items = v :: s.items := (Stack.pop_eq_ok hs).1
      rw [(occurrences_defineConstant hw hnew).1]
      simp only [occurrences, hd, List.count_cons, List.count_nil]
      omega
    · cases hv
  · exact occurrences_declare hF (thenNext_eq_ok hr)

end Binding

theorem count_set_add {α : Type} [DecidableEq α] {l : List α} {i : Nat} {a : α}
    (h : l[i]? = some a) (b c : α) : (l.set i b).count c + [a].count c = l.count c + [b].count c := by
  induction l generalizing i with
  | nil => cases h
  | cons x l ih =>
    cases i with
    | zero =>
      obtain rfl : x = a := by simpa using h
      simp only [List.set_cons_zero, List.count_cons, List.count_nil]
      omega
    | succ i =>
      have := ih (i := i) (by simpa using h)
      simp only [List.set_cons_succ, List.count_cons] at this ⊢
      omega

theorem occurrencesIn_setObject_of_ne {h : Heap} {a : ObjId} {x : Obj} {s : Ref}
    (hs : s ≠ .object a) : (h.setObject a x).occurrencesIn o s = h.occurrencesIn o s := by
  rw [← count_refsOf, ← count_refsOf, Heap.refsOf_setObject_of_ne hs]

/-- A word that lets go of some values takes away as many occurrences, before anything is freed. -/
theorem Discards.occurrences_eq [DecidablePred m.Freed] (hs : m.Sound) (h : m.Discards p vs)
    (hr : p.run m = .ok .next m₁) :
    m.occurrences m.Freed o = m₁.occurrences m.Freed o + vs.count (.obj o) := by
  have hroot : ∀ v ∈ m.data.items, ∀ r ∈ v.refs, ¬ m.Freed r := by
    intro v hv r hr hf
    have hm : r ∈ m.roots := by
      simp only [roots, List.mem_append, List.mem_flatMap, or_assoc]
      exact .inl ⟨v, hv, hr⟩
    exact hf.2 (.root hm (hs.roots hm))
  cases h with
  | drop hd =>
    obtain rfl := run_drop hd hr
    simp only [occurrences, hd, List.count_cons, List.count_nil]
    omega
  | @store q v old rest hd hl =>
    obtain ⟨x, hx, rfl⟩ := run_store hd hr
    obtain ⟨hb, -⟩ := Word.load_eq_ok hl
    have hmem : .ptr q ∈ m.data.items := by rw [hd]; exact List.mem_cons_self
    have hn : ¬ m.Freed (.word q.target) := hroot _ hmem _ List.mem_cons_self
    have hhas : m.heap.Has (.word q.target) := hs.data _ hmem _ List.mem_cons_self
    have hchange := Heap.occurrencesAmong_change (S := fun r => ¬ m.Freed r) (o := o)
      (Heap.everything_setWord q.target x) hhas hn fun s hs => Heap.occurrencesIn_setWord_of_ne hs
    have hword : (m.heap.setWord q.target x).word q.target = x := by
      rw [Heap.word_setWord, if_pos ⟨rfl, hhas⟩]
    have hcount := count_set_add (l := (m.heap.word q.target).body.toList) (i := q.index)
      (a := Elem.lit old) (by simpa using hb) (.lit v) (.lit (.obj o))
    simp only [Heap.occurrencesIn, hword, Word.body_of_store hx, Array.toList_setIfInBounds]
      at hchange
    simp only [List.count_cons, List.count_nil, Elem.lit.injEq, beq_iff_eq] at hcount
    simp only [occurrences, hd, List.count_cons, List.count_nil, beq_iff_eq, reduceCtorEq, if_false]
    omega
  | @set a i v old n rest hd hi ho =>
    obtain rfl := run_set hd hi ho hr
    have hmem : .obj a ∈ m.data.items := by rw [hd]; exact List.mem_cons_self
    have hn : ¬ m.Freed (.object a) := hroot _ hmem _ List.mem_cons_self
    have hhas : m.heap.Has (.object a) := hs.data _ hmem _ List.mem_cons_self
    generalize hx : (m.heap.object a).setItems
      ((m.heap.object a).items.setIfInBounds n.toInt.toNat v) = x
    have hitems : x.items = (m.heap.object a).items.setIfInBounds n.toInt.toNat v := by
      cases hobj : m.heap.object a with
      | text t => simp [hobj, Obj.items] at ho
      | _ => rw [← hx, hobj]; rfl
    have hchange := Heap.occurrencesAmong_change (S := fun r => ¬ m.Freed r) (o := o)
      (Heap.everything_setObject a x) hhas hn fun s hs => occurrencesIn_setObject_of_ne hs
    have hobject : (m.heap.setObject a x).object a = x := by
      have ha : a.index < m.heap.objects.size := hhas
      simp [Heap.object, Heap.setObject, ha]
    have hcount := count_set_add (l := (m.heap.object a).items.toList) (i := n.toInt.toNat)
      (a := old) (by simpa using ho) v (.obj o)
    have hi : [i].count (.obj o) = 0 := by
      cases i with
      | obj b => cases hi
      | _ => simp
    simp only [Heap.occurrencesIn, hobject, hitems, Array.toList_setIfInBounds] at hchange
    simp only [List.count_cons, List.count_nil] at hcount hi
    simp only [occurrences, hd, List.count_cons, List.count_nil]
    omega
  | forget =>
    obtain ⟨l, d, w, rfl⟩ := run_forget hr
    have hbody : (m.heap.updateWord w fun x => { x with hidden := true }).occurrencesAmong
        (fun r => ¬ m.Freed r) o = m.heap.occurrencesAmong (fun r => ¬ m.Freed r) o :=
      Heap.occurrencesAmong_setWord_of_body rfl
    simp only [occurrences, hbody, List.count_nil, Nat.add_zero]
  | define hp =>
    have hn : ∀ k, m.heap.words.size ≤ k → ¬ m.Freed (.word ⟨k⟩) :=
      fun k hk h => Nat.lt_irrefl _ (Nat.lt_of_lt_of_le h.1 hk)
    rw [occurrences_define hp hn hr]
    rfl

/-! ## The counts of a session -/

open Classical in
/-- From `m`, in which `F` has been freed, to `m'`: the occurrences of every object go down by those
    among the values `vs` and by those in what is freed because of it, and by no others. -/
def LetsGo (m m' : Machine) (F : Ref → Prop) (vs : List Value) : Prop :=
  ∀ o, m.occurrences F o = m'.occurrences (m'.Released F) o + vs.count (.obj o) +
    m'.heap.occurrencesAmong (fun r => m'.Released F r ∧ ¬ F r) o

open Classical in
theorem LetsGo.of_occurrences {F : Ref → Prop}
    (h : ∀ o, m.occurrences F o = m₁.occurrences F o + vs.count (.obj o)) : LetsGo m m₁ F vs := by
  intro o
  have hsplit := Heap.occurrencesAmong_split (h := m₁.heap) (o := o) F (m₁.Released F)
    fun r hr => .before hr
  have ho := h o
  simp only [occurrences] at ho ⊢
  omega

/-- The values that a line leaves behind when it fails. -/
def leftovers (m : Machine) : List Value :=
  m.data.items ++ m.temp.items ++ m.self.items ++ m.runs.flatMap fun r => r.pending.operands

theorem letsGo_giveUpLine (m : Machine) (F : Ref → Prop) :
    LetsGo m m.giveUpLine F m.leftovers := by
  refine .of_occurrences fun o => ?_
  simp only [occurrences, giveUpLine, reset, Stack.clear, leftovers, List.count_append,
    List.flatMap_nil, List.count_nil]
  omega

open Classical in
/-- The reference counts of a machine are exact; `F` is what has been freed. -/
structure CountsExactly (m : Machine) (F : Ref → Prop) : Prop where
  /-- `refcount` pushes how often the object occurs that the top value is or leads to, and zero if
      there is none. -/
  refcount : m.primitive? = some (.object .refcount) → ∀ v, m.data.peek 0 = .ok v → ∃ n,
    m.step = (match m.data.push (.nat n) with
      | .ok s => .running { m with data := s }.popFrame
      | .error e => m.fail e) ∧
    (∀ k o, m.heap.follow v k = .ok (.obj o) → n = m.occurrences F o) ∧
    ((∀ k o, m.heap.follow v k ≠ .ok (.obj o)) → n = 0)
  /-- Freed is what nothing refers to any more but what is freed itself. -/
  freed_iff : ∀ r, F r ↔ m.heap.Has r ∧ r ∉ m.roots ∧ ∀ s, r ∈ m.heap.refsOf s → F s
  /-- Structures whose parts refer to each other keep themselves alive. -/
  kept : ∀ S, m.heap.Kept m.roots S → ∀ r, S r → ¬ F r
  /-- Words that drop, overwrite, forget or shadow something lower the counts of what goes with
      it. -/
  discards : ∀ p vs m', m.primitive? = some p → m.Discards p vs → p.run m = .ok .next m' →
    m.step = .running m'.popFrame ∧ LetsGo m m'.popFrame F vs
  /-- So does the reset after a failure, which frees on top of what the failure itself did. -/
  reset : ∀ m', LetsGo m' m'.giveUpLine (m'.Released F) m'.leftovers ∧
    m'.giveUpLine.Released (m'.Released F) = m'.giveUpLine.Released F

theorem refcount_step [DecidablePred m.Freed] (hp : m.primitive? = some (.object .refcount))
    {v : Value} (hv : m.data.peek 0 = .ok v) : ∃ n,
    m.step = (match m.data.push (.nat n) with
      | .ok s => .running { m with data := s }.popFrame
      | .error e => m.fail e) ∧
    (∀ k o, m.heap.follow v k = .ok (.obj o) → n = m.occurrences m.Freed o) ∧
    ((∀ k o, m.heap.follow v k ≠ .ok (.obj o)) → n = 0) := by
  refine ⟨(m.heap.liveCount? m.roots v).getD 0, ?_, fun k o ho => ?_, fun hn => ?_⟩
  · have hpeek : M.peek 0 m = .ok v m := by simp only [M.peek, hv]
    have hrun : (Primitive.object .refcount).run m =
        thenNext (M.push (.nat ((m.heap.liveCount? m.roots v).getD 0))) m := by
      have hpush : ObjectWord.run .refcount m =
          M.push (.nat ((m.heap.liveCount? m.roots v).getD 0)) m := M.bind_ok hpeek
      simp only [Primitive.run, thenNext, bind, EStateM.bind, hpush]
    rw [step_of_primitive hp, hrun]
    cases hpush : m.data.push (.nat ((m.heap.liveCount? m.roots v).getD 0)) with
    | ok s =>
      have : M.push (.nat ((m.heap.liveCount? m.roots v).getD 0)) m = .ok () { m with data := s } := by
        simp only [M.push, hpush]
      rw [thenNext, M.bind_ok this]
      rfl
    | error e =>
      have : M.push (.nat ((m.heap.liveCount? m.roots v).getD 0)) m = .error e m := by
        simp only [M.push, hpush]
      rw [thenNext, M.bind_error this]
      rfl
  · rw [Heap.liveCount?_of_follow ho, Option.getD_some, references_eq]
  · rw [Heap.liveCount?_of_not_follow hn, Option.getD_none]

open Classical in
/-- **Reference counts are exact.**  At every moment of a session there is one ledger of what has
    been freed, and the counts of the machine are exact with respect to it. -/
theorem reference_counts_exact {ph : Phase} (h : Reached ph m) :
    ∃ F, (∀ G, Ledger ph m G ↔ G = F) ∧ m.CountsExactly F := by
  refine ⟨m.Freed, fun G => ⟨fun hG => hG.unique h.ledger, fun hG => hG ▸ h.ledger⟩, ?_⟩
  constructor
  · exact fun hp v hv => refcount_step hp hv
  · exact fun r => freed_iff_of_refs
  · exact fun S hS r hr hf => hf.2 ⟨S, hS, hr⟩
  · intro p vs m' hp hd hr
    refine ⟨by rw [step_of_primitive hp, hr]; rfl, .of_occurrences fun o => ?_⟩
    show _ = m'.occurrences m.Freed o + _
    exact hd.occurrences_eq h.sound hr
  · exact fun m' => ⟨letsGo_giveUpLine m' _, released_giveUpLine m' m.Freed⟩

/-- A machine after the line `s" a" dup`. -/
def pair : Machine :=
  after ((processLine 8 (after (fill "s\" a\" dup" (ofNames {} ["s\"", "dup", "refcount"])))).getD
    (.ok () default))

theorem ofNames_pair : ofNames {} ["s\"", "dup", "refcount"] = stocked {} (supply
    [⟨"dup", .stack .dup, false⟩, ⟨"s\"", .defining .string, true⟩,
      ⟨"refcount", .object .refcount, false⟩]) :=
  ofNames_eq _ _ (by decide) (by decide)

theorem pair_reached : Reached .rest pair := by
  have hs : (processLine 8 (after (fill "s\" a\" dup"
      (ofNames {} ["s\"", "dup", "refcount"])))).isSome = true := by
    rw [ofNames_pair]
    decide +kernel
  obtain ⟨r, hr⟩ := Option.isSome_iff_exists.1 hs
  have h : Reached .rest (ofNames {} ["s\"", "dup", "refcount"]) := .create _ _
  rw [pair, hr]
  exact (h.fill _).processLine hr

/-- Two references to the same string on the stack. -/
theorem reference_counts_exact_of_pair :
    ∃ m, Reached (.word none) m ∧ m.primitive? = some (.object .refcount) ∧
      m.data.items = [.obj ⟨0⟩, .obj ⟨0⟩] ∧
      ∃ F, (∀ G, Ledger (.word none) m G ↔ G = F) ∧ m.CountsExactly F := by
  have hspec : pair.find? "refcount" = some ⟨2⟩ ∧
      (pair.startRun ⟨2⟩ .outside).primitive? = some (.object .refcount) ∧
      (pair.startRun ⟨2⟩ .outside).data.items = [.obj ⟨0⟩, .obj ⟨0⟩] := by
    rw [pair, ofNames_pair]
    decide +kernel
  obtain ⟨hw, hp, hd⟩ := hspec
  have hm := pair_reached.run hw
  exact ⟨_, hm, hp, hd, reference_counts_exact hm⟩

end Machine
end ThreadedForth
