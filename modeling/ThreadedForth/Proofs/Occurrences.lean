/-
  The occurrences of objects, which are what `refcount` counts.
-/
import Mathlib.Algebra.GroupWithZero.Nat
import ThreadedForth.Proofs.Ledger
import ThreadedForth.Proofs.PointerChains

namespace ThreadedForth

/-! ## Occurrences -/

/-- The copies of the operands of `min` or `max` that are kept while a handler runs. -/
def Pending.operands : Pending → List Value
  | handler _ (.select a b) => [a, b]
  | _ => []

namespace Heap

/-- The words and objects of a heap. -/
def everything (h : Heap) : List Ref :=
  (List.range h.words.size).map (fun i => .word ⟨i⟩) ++
    (List.range h.objects.size).map fun i => .object ⟨i⟩

theorem mem_everything {h : Heap} {r : Ref} : r ∈ h.everything ↔ h.Has r := by
  rcases r with ⟨⟨i⟩⟩ | ⟨⟨i⟩⟩ <;> simp [everything, Has]

theorem nodup_everything (h : Heap) : h.everything.Nodup := by
  refine List.nodup_append.2 ⟨?_, ?_, ?_⟩
  · exact List.pairwise_map.2 (List.nodup_range.imp fun hne e => hne (by simpa using e))
  · exact List.pairwise_map.2 (List.nodup_range.imp fun hne e => hne (by simpa using e))
  · rintro a ha _ hb rfl
    obtain ⟨i, -, rfl⟩ := List.mem_map.1 ha
    obtain ⟨j, -, hj⟩ := List.mem_map.1 hb
    cases hj

/-- How often an object occurs in the data slots of a word, or among the values of an object. -/
def occurrencesIn (h : Heap) (o : ObjId) : Ref → Nat
  | .word w => (h.word w).body.toList.count (.lit (.obj o))
  | .object x => (h.object x).items.toList.count (.obj o)

/-- How often an object occurs in the words and objects of a set. -/
def occurrencesAmong (h : Heap) (S : Ref → Prop) [DecidablePred S] (o : ObjId) : Nat :=
  ((h.everything.filter S).map (h.occurrencesIn o)).sum

end Heap

/-- How often an object occurs on the stacks, among the operands that are kept, and in words and
    objects that have not been freed. -/
def Machine.occurrences (m : Machine) (freed : Ref → Prop) [DecidablePred freed] (o : ObjId) : Nat :=
  m.data.items.count (.obj o) + m.temp.items.count (.obj o) + m.self.items.count (.obj o) +
    (m.runs.flatMap fun r => r.pending.operands).count (.obj o) +
    m.heap.occurrencesAmong (fun r => ¬ freed r) o

section Counting

variable {h : Heap} {o : ObjId}

theorem count_refs_value (v : Value) : v.refs.count (.object o) = [v].count (.obj o) := by
  cases v with
  | obj o' => simp [Value.refs, List.count_singleton]
  | _ => simp [Value.refs]

theorem count_refs_values (vs : List Value) :
    (vs.flatMap Value.refs).count (.object o) = vs.count (.obj o) := by
  induction vs with
  | nil => rfl
  | cons v vs ih =>
    rw [List.flatMap_cons, List.count_append, ih, count_refs_value, ← List.count_append,
      List.singleton_append]

theorem count_refs_elem (e : Elem) : e.refs.count (.object o) = [e].count (.lit (.obj o)) := by
  rcases e with (_ | _ | _) | _ | v | _
  case lit => rw [Elem.refs, count_refs_value]; simp [List.count_singleton]
  all_goals simp [Elem.refs]

theorem count_refs_word (w : Word) :
    w.refs.count (.object o) = w.body.toList.count (.lit (.obj o)) := by
  rw [Word.refs]
  generalize w.body.toList = es
  induction es with
  | nil => rfl
  | cons e es ih =>
    rw [List.flatMap_cons, List.count_append, ih, count_refs_elem, ← List.count_append,
      List.singleton_append]

theorem count_refsOf (s : Ref) : (h.refsOf s).count (.object o) = h.occurrencesIn o s := by
  cases s with
  | word w => exact count_refs_word _
  | object x => exact count_refs_values _

theorem count_flatMap_zip {α : Type} (f : α → List Ref) (r : Ref) (xs : List α) (bs : List Bool)
    (hl : bs.length = xs.length) :
    ((xs.zip bs).flatMap fun (x, kept) => if kept then f x else []).count r =
      (((List.range xs.length).filter fun i => bs[i]?.getD false).map
        fun i => ((xs[i]?.map f).getD []).count r).sum := by
  induction xs generalizing bs with
  | nil => simp
  | cons x xs ih =>
    obtain ⟨b, bs, rfl⟩ : ∃ b bs', bs = b :: bs' := List.exists_cons_of_length_pos (by simp [hl])
    have hrest : ((List.map Nat.succ (List.range xs.length)).filter
          fun i => (b :: bs)[i]?.getD false).map (fun i => (((x :: xs)[i]?.map f).getD []).count r) =
        ((List.range xs.length).filter fun i => bs[i]?.getD false).map
          fun i => ((xs[i]?.map f).getD []).count r := by
      rw [List.filter_map, List.map_map]
      rfl
    rw [List.zip_cons_cons, List.flatMap_cons, List.count_append, ih bs (by simpa using hl),
      List.length_cons, List.range_succ_eq_map, List.filter_cons]
    cases b with
    | true => simp [hrest]
    | false => simp [hrest]

theorem Heap.count_heldBy {marks : Marks} (hm : marks.Fits h) (S : Ref → Prop) [DecidablePred S]
    (hS : ∀ r, marks.has r = true ↔ h.Has r ∧ S r) :
    (h.heldBy marks).count (.object o) = h.occurrencesAmong S o := by
  have hword : ∀ i ∈ List.range h.words.size, marks.words.toList[i]?.getD false = decide (S (.word ⟨i⟩)) := by
    intro i hi
    have := hS (.word ⟨i⟩)
    have hi : i < h.words.size := List.mem_range.1 hi
    simp only [Marks.has, Heap.Has, hi, true_and] at this
    rw [Bool.eq_iff_iff, decide_eq_true_iff, ← this]
    simp
  have hobject : ∀ i ∈ List.range h.objects.size,
      marks.objects.toList[i]?.getD false = decide (S (.object ⟨i⟩)) := by
    intro i hi
    have := hS (.object ⟨i⟩)
    have hi : i < h.objects.size := List.mem_range.1 hi
    simp only [Marks.has, Heap.Has, hi, true_and] at this
    rw [Bool.eq_iff_iff, decide_eq_true_iff, ← this]
    simp
  rw [heldBy, List.count_append, count_flatMap_zip Word.refs _ _ _ (by simp [hm.words]),
    count_flatMap_zip Obj.refs _ _ _ (by simp [hm.objects]), occurrencesAmong, everything,
    List.filter_append, List.map_append, List.sum_append, List.filter_map, List.filter_map,
    List.map_map, List.map_map, Array.length_toList, Array.length_toList,
    List.filter_congr hword, List.filter_congr hobject]
  congr 2
  · refine List.map_congr_left fun i hi => ?_
    have hi : i < h.words.size := List.mem_range.1 (List.mem_filter.1 hi).1
    rw [Function.comp_apply, ← count_refsOf]
    simp [refsOf, word, hi]
  · refine List.map_congr_left fun i hi => ?_
    have hi : i < h.objects.size := List.mem_range.1 (List.mem_filter.1 hi).1
    rw [Function.comp_apply, ← count_refsOf]
    simp [refsOf, object, hi]

/-- The references to an object that are held by the roots and by what is alive. -/
theorem Heap.references_eq (h : Heap) (roots : List Ref) [DecidablePred (h.Alive roots)] (o : ObjId) :
    h.references roots o = roots.count (.object o) + h.occurrencesAmong (h.Alive roots) o := by
  have hheld := count_heldBy (o := o) (alive_spec h roots).1 (h.Alive roots) fun r => by
    rw [has_alive_iff]
    exact ⟨fun ha => ⟨ha.has, ha⟩, fun ha => ha.2⟩
  rw [references, List.count_append, hheld]

theorem count_map_word {α : Type} (f : α → WordId) (xs : List α) :
    (xs.map fun x => Ref.word (f x)).count (.object o) = 0 := by
  rw [List.count_eq_zero]
  intro h
  obtain ⟨x, -, hx⟩ := List.mem_map.1 h
  cases hx

theorem count_pendingRefs (p : Pending) :
    (Machine.pendingRefs p).count (.object o) = p.operands.count (.obj o) := by
  rcases p with _ | ⟨_, _ | ⟨a, b⟩ | _⟩ | _ | _
  · rfl
  · rfl
  · rw [Machine.pendingRefs, List.count_append, count_refs_value, count_refs_value,
      ← List.count_append]
    rfl
  · simp [Machine.pendingRefs, Pending.operands]
  · rfl
  · rfl

theorem Machine.count_roots (m : Machine) (o : ObjId) :
    m.roots.count (.object o) =
      m.data.items.count (.obj o) + m.temp.items.count (.obj o) + m.self.items.count (.obj o) +
        (m.runs.flatMap fun r => r.pending.operands).count (.obj o) := by
  have hruns : (m.runs.flatMap fun r => pendingRefs r.pending).count (.object o) =
      (m.runs.flatMap fun r => r.pending.operands).count (.obj o) := by
    induction m.runs with
    | nil => rfl
    | cons r rs ih =>
      rw [List.flatMap_cons, List.flatMap_cons, List.count_append, List.count_append, ih,
        count_pendingRefs]
  have hframes := count_map_word (o := o) Frame.word m.frames
  have hentries := count_map_word (o := o) (fun e : Name × WordId => e.2) m.dictionary.entries
  have hhandlers := count_map_word (o := o) id m.types.handlerWords
  have hbuilding := count_map_word (o := o) id m.compiler.building?.toList
  simp only [id] at hhandlers hbuilding
  simp only [roots, List.count_append, count_refs_values, hruns, hframes, hentries, hhandlers,
    hbuilding, Nat.add_zero]

/-- **The references to an object that are counted are its occurrences.** -/
theorem Machine.references_eq (m : Machine) [DecidablePred m.Freed] (o : ObjId) :
    m.heap.references m.roots o = m.occurrences m.Freed o := by
  have hheld := Heap.count_heldBy (h := m.heap) (o := o) (Heap.alive_spec m.heap m.roots).1
    (fun r => ¬ m.Freed r) fun r => by
      rw [Heap.has_alive_iff]
      constructor
      · exact fun ha => ⟨ha.has, fun hf => hf.2 ha⟩
      · exact fun ⟨hh, hn⟩ => Classical.byContradiction fun ha => hn ⟨hh, ha⟩
  rw [Heap.references, List.count_append, hheld, count_roots, occurrences]

end Counting

end ThreadedForth
