/-
  Words that change no reference count: what they call is held anyway, and they hold no
  objects.
-/
import ThreadedForth.Proofs.Occurrences
import ThreadedForth.Proofs.Overlays

namespace ThreadedForth

/-! ## Reference counts -/

/-- A heap that has other words besides those of `h`, and roots that may hold these words.  They
    hold no objects, and only words that are held by the roots of `h`. -/
structure Heap.Bystanders (h h' : Heap) (roots roots' : List Ref) : Prop where
  size : h.words.size ≤ h'.words.size
  objects : h.objects = h'.objects
  refs : ∀ w : WordId, w.index < h.words.size → (h.word w).refs = (h'.word w).refs
  beyond : ∀ w : WordId, h.words.size ≤ w.index →
    ∀ r ∈ (h'.word w).refs, r ∈ roots ∧ ∃ v, r = .word v
  kept : ∀ r ∈ roots, r ∈ roots'
  added : ∀ r ∈ roots', r ∈ roots ∨ ∃ w : WordId, r = .word w ∧ h.words.size ≤ w.index
  count : ∀ o, roots.count (.object o) = roots'.count (.object o)

namespace Heap.Bystanders

variable {h h' : Heap} {roots roots' : List Ref} {r : Ref}

theorem has (hb : Bystanders h h' roots roots') (hr : h.Has r) : h'.Has r := by
  cases r with
  | word w => exact Nat.lt_of_lt_of_le hr hb.size
  | object o =>
    show o.index < h'.objects.size
    rw [← hb.objects]
    exact hr

theorem refsOf_eq (hb : Bystanders h h' roots roots') (hr : h.Has r) : h.refsOf r = h'.refsOf r := by
  cases r with
  | word w => exact hb.refs w hr
  | object o => simp only [refsOf, object, hb.objects]

/-- The same is alive, as far as the first heap goes. -/
theorem alive_iff (hb : Bystanders h h' roots roots') (hr : h.Has r) :
    h.Alive roots r ↔ h'.Alive roots' r := by
  constructor
  · rintro ⟨S, hS, hSr⟩
    refine ⟨S, fun x hx => ?_, hSr⟩
    obtain ⟨hh, hroot | ⟨s, hs, hxs⟩⟩ := hS x hx
    · exact ⟨hb.has hh, .inl (hb.kept x hroot)⟩
    · exact ⟨hb.has hh, .inr ⟨s, hs, hb.refsOf_eq (hS s hs).1 ▸ hxs⟩⟩
  · -- A set that keeps itself alive also does so without the other words: what they refer to is
    -- held by the roots.
    rintro ⟨S, hS, hSr⟩
    refine ⟨fun x => S x ∧ h.Has x, ?_, hSr, hr⟩
    rintro x ⟨hx, hh⟩
    refine ⟨hh, ?_⟩
    obtain ⟨-, hroot | ⟨s, hs, hxs⟩⟩ := hS x hx
    · refine (hb.added x hroot).imp_right ?_
      rintro ⟨w, rfl, hw⟩
      exact absurd hh (Nat.not_lt.2 hw)
    · by_cases hhs : h.Has s
      · exact .inr ⟨s, ⟨hs, hhs⟩, hb.refsOf_eq hhs ▸ hxs⟩
      · cases s with
        | word w => exact .inl (hb.beyond w (Nat.not_lt.1 hhs) x hxs).1
        | object o =>
          refine absurd ?_ hhs
          show o.index < h.objects.size
          rw [hb.objects]
          exact has_of_mem_refsOf hxs

theorem occurrencesIn_eq (hb : Bystanders h h' roots roots') (hr : h.Has r) (o : ObjId) :
    h.occurrencesIn o r = h'.occurrencesIn o r := by
  rw [← count_refsOf, ← count_refsOf, hb.refsOf_eq hr]

theorem occurrencesIn_beyond (hb : Bystanders h h' roots roots') {w : WordId}
    (hw : h.words.size ≤ w.index) (o : ObjId) : h'.occurrencesIn o (.word w) = 0 := by
  rw [← count_refsOf, List.count_eq_zero]
  intro ho
  obtain ⟨-, v, hv⟩ := hb.beyond w hw _ ho
  cases hv

open Classical in
/-- As many occurrences are in what is alive. -/
theorem occurrencesAmong_eq (hb : Bystanders h h' roots roots') (o : ObjId) :
    h.occurrencesAmong (h.Alive roots) o = h'.occurrencesAmong (h'.Alive roots') o := by
  obtain ⟨k, hk⟩ := Nat.exists_eq_add_of_le hb.size
  have hbeyond : ((((List.range k).map fun i => Ref.word ⟨h.words.size + i⟩).filter
      fun r => decide (h'.Alive roots' r)).map (h'.occurrencesIn o)).sum = 0 := by
    refine List.sum_eq_zero_iff_forall_eq_nat.2 fun n hn => ?_
    obtain ⟨r, hr, rfl⟩ := List.mem_map.1 hn
    obtain ⟨i, -, rfl⟩ := List.mem_map.1 (List.mem_filter.1 hr).1
    exact hb.occurrencesIn_beyond (Nat.le_add_right _ _) o
  have hsame : ∀ rs : List Ref, (∀ r ∈ rs, h.Has r) →
      (rs.filter fun r => decide (h.Alive roots r)).map (h.occurrencesIn o) =
        (rs.filter fun r => decide (h'.Alive roots' r)).map (h'.occurrencesIn o) := by
    intro rs hrs
    have hf : rs.filter (fun r => decide (h.Alive roots r)) =
        rs.filter fun r => decide (h'.Alive roots' r) :=
      List.filter_congr fun r hr => decide_eq_decide.2 (hb.alive_iff (hrs r hr))
    rw [hf]
    exact List.map_congr_left fun r hr => hb.occurrencesIn_eq (hrs r (List.mem_filter.1 hr).1) o
  have hwords := hsame ((List.range h.words.size).map fun i => .word ⟨i⟩) fun r hr => by
    obtain ⟨i, hi, rfl⟩ := List.mem_map.1 hr
    exact List.mem_range.1 hi
  have hobjects := hsame ((List.range h'.objects.size).map fun i => .object ⟨i⟩) fun r hr => by
    obtain ⟨i, hi, rfl⟩ := List.mem_map.1 hr
    show i < h.objects.size
    rw [hb.objects]
    exact List.mem_range.1 hi
  have hrange : (List.range h'.words.size).map (fun i => Ref.word ⟨i⟩) =
      (List.range h.words.size).map (fun i => Ref.word ⟨i⟩) ++
        (List.range k).map fun i => Ref.word ⟨h.words.size + i⟩ := by
    rw [hk, List.range_add, List.map_append, List.map_map]
    rfl
  simp only [occurrencesAmong, everything, hrange, List.filter_append, List.map_append,
    List.sum_append, hwords, hobjects, hbeyond, hb.objects, Nat.add_zero]

/-- **The other words change no reference count.** -/
theorem references_eq (hb : Bystanders h h' roots roots') (o : ObjId) :
    h.references roots o = h'.references roots' o := by
  classical
  rw [Heap.references_eq, Heap.references_eq, hb.count, hb.occurrencesAmong_eq]

end Heap.Bystanders

/-! ## What `refcount` reads -/

namespace Likeness.Basic

variable {L : Likeness} {x y : Machine}

/-- Chains of pointers lead to the same values. -/
theorem follow_eq (B : L.Basic) (h : L.alike x y) {v : Value} (hv : L.Knows v) (n : Nat) :
    x.heap.follow v n = y.heap.follow v n := by
  induction n generalizing v with
  | zero => rfl
  | succ n ih =>
    cases v with
    | ptr p =>
      have hp : L.known p.target := hv.of_ptr
      have hload : x.heap.load p = y.heap.load p := B.load_eq h hp p.index
      simp only [Heap.follow, Heap.deref, Value.toPointer, ← hload]
      cases hl : x.heap.load p with
      | error e => rfl
      | ok u => exact ih (B.knows_load h hp hl)
    | _ => rfl

/-- A value has the same count with other roots, if every object has. -/
theorem liveCount?_eq (B : L.Basic) (h : L.alike x y) {v : Value} (hv : L.Knows v)
    {roots roots' : List Ref}
    (hr : ∀ o, x.heap.references roots o = y.heap.references roots' o) :
    x.heap.liveCount? roots v = y.heap.liveCount? roots' v := by
  by_cases hn : ∃ n o, x.heap.follow v n = .ok (.obj o)
  · obtain ⟨n, o, hn⟩ := hn
    rw [Heap.liveCount?_of_follow hn, Heap.liveCount?_of_follow (B.follow_eq h hv n ▸ hn), hr]
  · have hx : ∀ n o, x.heap.follow v n ≠ .ok (.obj o) := fun n o ho => hn ⟨n, o, ho⟩
    rw [Heap.liveCount?_of_not_follow hx,
      Heap.liveCount?_of_not_follow fun n o => B.follow_eq h hv n ▸ hx n o]

end Likeness.Basic

namespace Machine

variable {x₀ y₀ x y : Machine}

/-- The machine `y₀` has other words besides those of `x₀`, which hold no objects and only words
    that have names, and it has other names for these words.  No word is under construction. -/
structure Attended (x₀ y₀ : Machine) : Prop where
  size : x₀.heap.words.size ≤ y₀.heap.words.size
  beyond : ∀ w : WordId, x₀.heap.words.size ≤ w.index → ∀ r ∈ (y₀.heap.word w).refs,
    ∃ e ∈ x₀.dictionary.entries, r = .word e.2
  kept : ∀ e ∈ x₀.dictionary.entries, e ∈ y₀.dictionary.entries
  added : ∀ e ∈ y₀.dictionary.entries,
    e ∈ x₀.dictionary.entries ∨ x₀.heap.words.size ≤ e.2.index
  left : x₀.compiler.building? = none
  right : y₀.compiler.building? = none

/-- The machine with other frames below its own. -/
def onTop (m : Machine) (fs : List Frame) : Machine :=
  { m with frames := m.frames ++ fs }

/-- Two runs hold the same objects, also if one of them is called from the additional words. -/
theorem Overlay.bystanders (h : Overlay x₀ y₀ x y) (ha : x₀.Attended y₀) {fs : List Frame}
    (hfs : ∀ f ∈ fs, x₀.heap.words.size ≤ f.word.index) :
    x.heap.Bystanders y.heap x.roots (y.onTop fs).roots := by
  have hdata : x.data = y.data := congrArg Common.data h.common
  have htemp : x.temp = y.temp := congrArg Common.temp h.common
  have hself : x.self = y.self := congrArg Common.self h.common
  have hframes : x.frames = y.frames := congrArg Common.frames h.common
  have hruns : x.runs = y.runs := congrArg Common.runs h.common
  have htypes : x.types = y.types := congrArg Common.types h.common
  have hsize := h.left.size
  have hbx : x.compiler.building? = none := by rw [h.left.compiler, ha.left]
  have hby : y.compiler.building? = none := by rw [h.right.compiler, ha.right]
  -- The roots, as far as they may differ.
  have hx : ∀ r, r ∈ x.roots ↔ (r ∈ y.data.items.flatMap Value.refs ∨
      r ∈ y.temp.items.flatMap Value.refs ∨ r ∈ y.self.items.flatMap Value.refs ∨
      (∃ f ∈ y.frames, r = .word f.word) ∨ (r ∈ y.runs.flatMap fun q => pendingRefs q.pending) ∨
      (∃ e ∈ x₀.dictionary.entries, r = .word e.2) ∨ r ∈ y.types.handlerWords.map .word) := by
    intro r
    simp only [roots, hdata, htemp, hself, hframes, hruns, htypes, hbx, h.left.dictionary,
      List.mem_append, List.mem_map, Option.toList_none, List.not_mem_nil, eq_comm (b := r),
      false_and, exists_false, or_false, or_assoc]
  have hy : ∀ r, r ∈ (y.onTop fs).roots ↔ (r ∈ y.data.items.flatMap Value.refs ∨
      r ∈ y.temp.items.flatMap Value.refs ∨ r ∈ y.self.items.flatMap Value.refs ∨
      (∃ f ∈ y.frames ++ fs, r = .word f.word) ∨
      (r ∈ y.runs.flatMap fun q => pendingRefs q.pending) ∨
      (∃ e ∈ y₀.dictionary.entries, r = .word e.2) ∨ r ∈ y.types.handlerWords.map .word) := by
    intro r
    simp only [roots, onTop, hby, h.right.dictionary,
      List.mem_append, List.mem_map, Option.toList_none, List.not_mem_nil, eq_comm (b := r),
      false_and, exists_false, or_false, or_assoc]
  constructor
  · rw [hsize, h.right.size]
    exact ha.size
  · exact h.objects
  · intro w hw
    have hbody : (x.heap.word w).shown.body = (y.heap.word w).shown.body :=
      congrArg Word.body (h.word w (hsize ▸ hw)).1
    exact congrArg (fun es : Array Elem => es.toList.flatMap Elem.refs) hbody
  · intro w hw r hr
    rw [hsize] at hw
    rw [h.right.beyond w hw] at hr
    obtain ⟨e, he, rfl⟩ := ha.beyond w hw r hr
    exact ⟨(hx _).2 (.inr (.inr (.inr (.inr (.inr (.inl ⟨e, he, rfl⟩)))))), e.2, rfl⟩
  · intro r hr
    rw [hy]
    rcases (hx r).1 hr with hr | hr | hr | ⟨f, hf, rfl⟩ | hr | ⟨e, he, rfl⟩ | hr
    · exact .inl hr
    · exact .inr (.inl hr)
    · exact .inr (.inr (.inl hr))
    · exact .inr (.inr (.inr (.inl ⟨f, List.mem_append_left _ hf, rfl⟩)))
    · exact .inr (.inr (.inr (.inr (.inl hr))))
    · exact .inr (.inr (.inr (.inr (.inr (.inl ⟨e, ha.kept e he, rfl⟩)))))
    · exact .inr (.inr (.inr (.inr (.inr (.inr hr)))))
  · intro r hr
    rw [hx, hsize]
    rcases (hy r).1 hr with hr | hr | hr | ⟨f, hf, rfl⟩ | hr | ⟨e, he, rfl⟩ | hr
    · exact .inl (.inl hr)
    · exact .inl (.inr (.inl hr))
    · exact .inl (.inr (.inr (.inl hr)))
    · rcases List.mem_append.1 hf with hf | hf
      · exact .inl (.inr (.inr (.inr (.inl ⟨f, hf, rfl⟩))))
      · exact .inr ⟨f.word, rfl, hfs f hf⟩
    · exact .inl (.inr (.inr (.inr (.inr (.inl hr)))))
    · rcases ha.added e he with he | he
      · exact .inl (.inr (.inr (.inr (.inr (.inr (.inl ⟨e, he, rfl⟩))))))
      · exact .inr ⟨e.2, rfl, he⟩
    · exact .inl (.inr (.inr (.inr (.inr (.inr (.inr hr))))))
  · intro o
    rw [count_roots, count_roots, hdata, htemp, hself, hruns]
    rfl

/-- **`refcount` reads the same**, also in a run that is called from the additional words. -/
theorem Overlay.topCount_eq (h : Overlay x₀ y₀ x y) (ha : x₀.Attended y₀) {fs : List Frame}
    (hfs : ∀ f ∈ fs, x₀.heap.words.size ≤ f.word.index) : x.topCount = (y.onTop fs).topCount := by
  have B := Likeness.Basic.overlay x₀ y₀ ha.size
  have hdata : x.data = y.data := B.data_eq h
  show (x.data.peek? 0).bind _ = (y.data.peek? 0).bind _
  rw [← hdata]
  cases hv : x.data.peek? 0 with
  | none => rfl
  | some v =>
    have hk : (Likeness.overlay x₀ y₀).Knows v :=
      (B.holds h).data v (List.mem_of_getElem? (show x.data.items[0]? = some v from hv))
    exact B.liveCount?_eq h hk fun o => (h.bystanders ha hfs).references_eq o

end Machine
end ThreadedForth
