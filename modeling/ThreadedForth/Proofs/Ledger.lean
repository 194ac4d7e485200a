/-
  What a machine would free at the moment the last reference goes, and what is not alive.
-/
import ThreadedForth.Proofs.Histories
import ThreadedForth.Proofs.Liveness
import ThreadedForth.Proofs.WellFormed

namespace ThreadedForth

/-! ## References of changed words -/

theorem Elem.From.holds {hand : List Value} {e : Elem} (h : e.From hand) {r : Ref}
    (hr : r ∈ e.refs) : InHand hand r := by
  cases e with
  | lit v => exact ⟨v, h, hr⟩
  | _ => exact h r hr

namespace Word

variable {w x : Word} {e : Elem} {i n : Nat} {v : Value} {r : Ref}

theorem mem_refs : r ∈ w.refs ↔ ∃ e ∈ w.body, r ∈ e.refs := by
  simp [refs]

theorem refs_of_set (h : x.body = w.body.setIfInBounds i e) (hr : r ∈ x.refs) :
    r ∈ w.refs ∨ r ∈ e.refs := by
  obtain ⟨e', he, hr⟩ := mem_refs.1 hr
  rw [h] at he
  rcases Array.mem_or_eq_of_mem_setIfInBounds he with he | rfl
  · exact .inl (mem_refs.2 ⟨e', he, hr⟩)
  · exact .inr hr

theorem refs_of_push (h : w.push e = .ok x) (hr : r ∈ x.refs) : r ∈ w.refs ∨ r ∈ e.refs := by
  obtain ⟨e', he, hr⟩ := mem_refs.1 hr
  rw [body_of_push h] at he
  rcases Array.mem_push.1 he with he | rfl
  · exact .inl (mem_refs.2 ⟨e', he, hr⟩)
  · exact .inr hr

theorem refs_of_expand (h : w.expand n = .ok x) (hr : r ∈ x.refs) : r ∈ w.refs := by
  obtain ⟨e', he, hr⟩ := mem_refs.1 hr
  rw [body_of_expand h] at he
  rcases Array.mem_append.1 he with he | he
  · exact mem_refs.2 ⟨e', he, hr⟩
  · rw [(Array.mem_replicate.1 he).2] at hr
    cases hr

end Word

namespace Heap

variable {h : Heap} {r s : Ref}

theorem refsOf_setWord {w : WordId} {x : Word} (hr : r ∈ (h.setWord w x).refsOf s) :
    r ∈ h.refsOf s ∨ (s = .word w ∧ r ∈ x.refs) := by
  cases s with
  | object o => exact .inl hr
  | word v =>
    simp only [refsOf, word_setWord] at hr ⊢
    split at hr
    · rename_i hv
      exact .inr ⟨by rw [hv.1], hr⟩
    · exact .inl hr

theorem refsOf_setWord_of_ne {w : WordId} {x : Word} (hs : s ≠ .word w) :
    (h.setWord w x).refsOf s = h.refsOf s := by
  cases s with
  | object o => rfl
  | word v =>
    have hv : v ≠ w := fun e => hs (by rw [e])
    simp [refsOf, word_setWord, hv]

theorem refsOf_setWord_of_body {w : WordId} {x : Word} (hx : x.body = (h.word w).body) :
    (h.setWord w x).refsOf s = h.refsOf s := by
  cases s with
  | object o => rfl
  | word v =>
    simp only [refsOf, word_setWord]
    split
    · rename_i hv
      rw [Word.refs, Word.refs, hx, hv.1]
    · rfl

theorem refsOf_addWord {x : Word} (hr : r ∈ (h.addWord x).2.refsOf s) :
    r ∈ h.refsOf s ∨ (s = .word (h.addWord x).1 ∧ r ∈ x.refs) := by
  cases s with
  | object o => exact .inl hr
  | word v =>
    by_cases hv : v.index = h.words.size
    · refine .inr ⟨by cases v; simp_all [addWord], ?_⟩
      simpa [refsOf, word, addWord, Array.getElem?_push, hv] using hr
    · exact .inl (by simpa [refsOf, word, addWord, Array.getElem?_push, hv] using hr)

theorem refsOf_addWord_of_has {x : Word} (hs : h.Has s) :
    (h.addWord x).2.refsOf s = h.refsOf s := by
  cases s with
  | object o => rfl
  | word v =>
    have hv : v.index ≠ h.words.size := Nat.ne_of_lt hs
    simp [refsOf, word, addWord, Array.getElem?_push, hv]

theorem refsOf_addObject {x : Obj} (hr : r ∈ (h.addObject x).2.refsOf s) :
    r ∈ h.refsOf s ∨ (s = .object (h.addObject x).1 ∧ r ∈ x.refs) := by
  cases s with
  | word w => exact .inl hr
  | object o =>
    by_cases ho : o.index = h.objects.size
    · refine .inr ⟨by cases o; simp_all [addObject], ?_⟩
      simpa [refsOf, object, addObject, Array.getElem?_push, ho] using hr
    · exact .inl (by simpa [refsOf, object, addObject, Array.getElem?_push, ho] using hr)

theorem refsOf_addObject_of_has {x : Obj} (hs : h.Has s) :
    (h.addObject x).2.refsOf s = h.refsOf s := by
  cases s with
  | word w => rfl
  | object o =>
    have ho : o.index ≠ h.objects.size := Nat.ne_of_lt hs
    simp [refsOf, object, addObject, Array.getElem?_push, ho]

theorem refsOf_setObject {o : ObjId} {x : Obj} (hr : r ∈ (h.setObject o x).refsOf s) :
    r ∈ h.refsOf s ∨ (s = .object o ∧ r ∈ x.refs) := by
  cases s with
  | word w => exact .inl hr
  | object v =>
    simp only [refsOf, object, setObject, Array.getElem?_setIfInBounds] at hr ⊢
    split at hr
    · rename_i hv
      split at hr
      · exact .inr ⟨by cases v; cases o; simp_all, hr⟩
      · simp [default, Obj.refs, Obj.items] at hr
    · exact .inl hr

theorem refsOf_setObject_of_ne {o : ObjId} {x : Obj} (hs : s ≠ .object o) :
    (h.setObject o x).refsOf s = h.refsOf s := by
  cases s with
  | word w => rfl
  | object v =>
    have hv : o.index ≠ v.index := fun e => hs (by cases v; cases o; simp_all)
    simp [refsOf, object, setObject, hv]

end Heap

/-! ## What is not alive is out of reach -/

namespace Machine

/-- Something on the heap that is not alive any more. -/
def Freed (m : Machine) (r : Ref) : Prop :=
  m.heap.Has r ∧ ¬ m.heap.Alive m.roots r

/-- Everything that the machine itself refers to belongs to a set. -/
structure Rooted (A : Ref → Prop) (m : Machine) : Prop where
  data : ∀ v ∈ m.data.items, ∀ r ∈ v.refs, A r
  temp : ∀ v ∈ m.temp.items, ∀ r ∈ v.refs, A r
  self : ∀ v ∈ m.self.items, ∀ r ∈ v.refs, A r
  frames : ∀ f ∈ m.frames, A (.word f.word)
  runs : ∀ q ∈ m.runs, ∀ v ∈ q.pending.values, ∀ r ∈ v.refs, A r
  dictionary : ∀ e ∈ m.dictionary.entries, A (.word e.2)
  handlers : ∀ w, m.types.Handles w → A (.word w)
  building : ∀ w, m.compiler.building? = some w → A (.word w)

theorem handlerWords_of_handles {t : Types} (ht : t.Sorted) {w : WordId} (h : t.Handles w) :
    w ∈ t.handlerWords := by
  obtain ⟨e, he, hw⟩ := h
  refine List.mem_filterMap.2 ⟨e, ?_, by rw [hw]⟩
  rcases he with he | he | he
  · rw [TypeEntry.handler?, ht e he] at hw
    cases hw
  · exact List.mem_append_left _ (Array.mem_toList_iff.2 he)
  · exact List.mem_append_right _ (Array.mem_toList_iff.2 he)

theorem handles_of_handlerWords {t : Types} {w : WordId} (h : w ∈ t.handlerWords) :
    t.Handles w := by
  obtain ⟨e, he, hw⟩ := List.mem_filterMap.1 h
  refine ⟨e, ?_, ?_⟩
  · rcases List.mem_append.1 he with he | he
    · exact .inr (.inl (Array.mem_toList_iff.1 he))
    · exact .inr (.inr (Array.mem_toList_iff.1 he))
  · split at hw
    · rename_i v hv
      cases hw
      exact hv
    · cases hw

variable {A : Ref → Prop} {L : Edit → Prop} {m m' m₀ : Machine} {hand hand' : List Value} {r : Ref}

theorem Rooted.of_roots (ht : m.types.Sorted) (h : ∀ r ∈ m.roots, A r) : Rooted A m := by
  simp only [roots, pendingRefs_eq, List.mem_append, List.mem_flatMap, List.mem_map] at h
  constructor
  · exact fun v hv r hr => h r (by simp only [or_assoc]; exact .inl ⟨v, hv, hr⟩)
  · exact fun v hv r hr => h r (by simp only [or_assoc]; exact .inr (.inl ⟨v, hv, hr⟩))
  · exact fun v hv r hr => h r (by simp only [or_assoc]; exact .inr (.inr (.inl ⟨v, hv, hr⟩)))
  · exact fun f hf => h _ (.inl (.inl (.inl (.inl (.inr ⟨f, hf, rfl⟩)))))
  · exact fun q hq v hv r hr => h r (.inl (.inl (.inl (.inr ⟨q, hq, v, hv, hr⟩))))
  · exact fun e he => h _ (.inl (.inl (.inr ⟨e, he, rfl⟩)))
  · exact fun w hw => h _ (.inl (.inr ⟨w, handlerWords_of_handles ht hw, rfl⟩))
  · exact fun w hw => h _ (.inr ⟨w, Option.mem_toList.2 hw, rfl⟩)

theorem Rooted.roots (h : Rooted A m) (hr : r ∈ m.roots) : A r := by
  simp only [Machine.roots, pendingRefs_eq, List.mem_append, List.mem_flatMap, List.mem_map] at hr
  rcases hr with ((((((hr | hr) | hr) | hr) | hr) | hr) | hr) | hr
  · obtain ⟨v, hv, hr⟩ := hr
    exact h.data v hv r hr
  · obtain ⟨v, hv, hr⟩ := hr
    exact h.temp v hv r hr
  · obtain ⟨v, hv, hr⟩ := hr
    exact h.self v hv r hr
  · obtain ⟨f, hf, rfl⟩ := hr
    exact h.frames f hf
  · obtain ⟨q, hq, v, hv, hr⟩ := hr
    exact h.runs q hq v hv r hr
  · obtain ⟨e, he, rfl⟩ := hr
    exact h.dictionary e he
  · obtain ⟨w, hw, rfl⟩ := hr
    exact h.handlers w (handles_of_handlerWords hw)
  · obtain ⟨w, hw, rfl⟩ := hr
    exact h.building w (Option.mem_toList.1 hw)

/-- What a machine `m₀` has come to, with some values in hand: it has got hold of nothing that was
    freed in `m₀`, and what was freed has been left alone. -/
structure Confined (m₀ m : Machine) (hand : List Value) : Prop where
  words : m₀.heap.words.size ≤ m.heap.words.size
  objects : m₀.heap.objects.size ≤ m.heap.objects.size
  hand : ∀ r, InHand hand r → ¬ m₀.Freed r
  rooted : m.Rooted fun r => ¬ m₀.Freed r
  inside : ∀ s, ¬ m₀.Freed s → ∀ r ∈ m.heap.refsOf s, ¬ m₀.Freed r
  outside : ∀ s, m₀.Freed s → m.heap.refsOf s = m₀.heap.refsOf s

namespace Confined

theorem has (hc : Confined m₀ m hand) (hr : m₀.Freed r) : m.heap.Has r := by
  cases r with
  | word w => exact Nat.lt_of_lt_of_le hr.1 hc.words
  | object o => exact Nat.lt_of_lt_of_le hr.1 hc.objects

/-- What other roots keep alive has not been freed, if they have not. -/
theorem not_freed (hc : Confined m₀ m hand) {roots : List Ref} (hr : ∀ r ∈ roots, ¬ m₀.Freed r)
    (ha : m.heap.Alive roots r) : ¬ m₀.Freed r := by
  intro hf
  obtain ⟨S, hS, hSr⟩ := ha
  -- the freed members of the set would have kept each other alive from the start
  refine hf.2 ⟨fun x => S x ∧ m₀.Freed x, ?_, hSr, hf⟩
  rintro x ⟨hx, hfx⟩
  refine ⟨hfx.1, .inr ?_⟩
  obtain ⟨-, hroot | ⟨s, hs, hxs⟩⟩ := hS x hx
  · exact absurd hfx (hr x hroot)
  · have hfs : m₀.Freed s := Classical.byContradiction fun hns => hc.inside s hns x hxs hfx
    exact ⟨s, ⟨hs, hfs⟩, hc.outside s hfs ▸ hxs⟩

theorem freed (hc : Confined m₀ m hand) (hr : m₀.Freed r) : m.Freed r :=
  ⟨hc.has hr, fun ha => hc.not_freed (fun _ hx => hc.rooted.roots hx) ha hr⟩

theorem drop (hc : Confined m₀ m hand) (h : ∀ v ∈ hand', v ∈ hand) : Confined m₀ m hand' :=
  { hc with hand := fun r hr => hc.hand r (hr.mono h) }

theorem gain (hc : Confined m₀ m hand) {v : Value} (hv : ∀ r ∈ v.refs, ¬ m₀.Freed r) :
    Confined m₀ m (v :: hand) := by
  refine { hc with hand := ?_ }
  rintro r ⟨u, hu, hr⟩
  rcases List.mem_cons.1 hu with rfl | hu
  · exact hv r hr
  · exact hc.hand r ⟨u, hu, hr⟩

theorem gainWord (hc : Confined m₀ m hand) {w : WordId} (hw : ¬ m₀.Freed (.word w)) :
    Confined m₀ m (.xt w :: hand) := by
  refine hc.gain fun r hr => ?_
  rw [List.mem_singleton.1 hr]
  exact hw

/-- The body of a word that is not freed is changed. -/
theorem setWord (hc : Confined m₀ m hand) {w : WordId} {x : Word} (hw : ¬ m₀.Freed (.word w))
    (hx : ∀ r ∈ x.refs, r ∈ (m.heap.word w).refs ∨ InHand hand r) :
    Confined m₀ { m with heap := m.heap.setWord w x } hand where
  words := by simpa [Heap.setWord] using hc.words
  objects := hc.objects
  hand := hc.hand
  rooted := ⟨hc.rooted.data, hc.rooted.temp, hc.rooted.self, hc.rooted.frames, hc.rooted.runs,
    hc.rooted.dictionary, hc.rooted.handlers, hc.rooted.building⟩
  inside s hs r hr := by
    rcases Heap.refsOf_setWord hr with hr | ⟨-, hr⟩
    · exact hc.inside s hs r hr
    · rcases hx r hr with hr | hr
      · exact hc.inside (.word w) hw r hr
      · exact hc.hand r hr
  outside s hs := by
    have hne : s ≠ .word w := fun e => hw (e ▸ hs)
    exact (Heap.refsOf_setWord_of_ne hne).trans (hc.outside s hs)

theorem newWord (hc : Confined m₀ m hand) {x : Word} (hx : ∀ r ∈ x.refs, InHand hand r) :
    Confined m₀ { m with heap := (m.heap.addWord x).2 } hand where
  words := Nat.le_trans hc.words (by simp [Heap.addWord])
  objects := hc.objects
  hand := hc.hand
  rooted := ⟨hc.rooted.data, hc.rooted.temp, hc.rooted.self, hc.rooted.frames, hc.rooted.runs,
    hc.rooted.dictionary, hc.rooted.handlers, hc.rooted.building⟩
  inside s hs r hr := by
    rcases Heap.refsOf_addWord hr with hr | ⟨-, hr⟩
    · exact hc.inside s hs r hr
    · exact hc.hand r (hx r hr)
  outside s hs := (Heap.refsOf_addWord_of_has (hc.has hs)).trans (hc.outside s hs)

theorem not_freed_new (hc : Confined m₀ m hand) (x : Word) :
    ¬ m₀.Freed (.word (m.heap.addWord x).1) :=
  fun h => Nat.lt_irrefl _ (Nat.lt_of_lt_of_le h.1 hc.words)

/-- A move does not get hold of anything that was freed. -/
theorem move (hc : Confined m₀ m hand) (h : Move L m hand m' hand') : Confined m₀ m' hand' := by
  cases h with
  | drop h => exact hc.drop h
  | plain h => exact hc.gain (by simp [h])
  | stack h =>
    rcases h with h | h | h
    · exact hc.gain (hc.rooted.data _ h)
    · exact hc.gain (hc.rooted.temp _ h)
    · exact hc.gain (hc.rooted.self _ h)
  | word h =>
    rcases h with h | h
    · exact hc.gainWord (hc.rooted.roots h)
    · exact hc.gainWord (hc.hand _ h)
  | handler h => exact hc.gainWord (hc.rooted.handlers _ h)
  | slot h hv =>
    exact hc.gain fun r hr => hc.inside _ (hc.hand _ h) r
      (Word.mem_refs.2 ⟨.lit _, Array.mem_of_getElem? hv, hr⟩)
  | link h hx => exact hc.gainWord (hc.inside _ (hc.hand _ h) _ hx)
  | item h hv =>
    refine hc.gain fun r hr => hc.inside _ (hc.hand _ h) r ?_
    exact List.mem_flatMap.2 ⟨_, Array.mem_toList_iff.2 hv, hr⟩
  | address hf _ =>
    refine hc.gain fun r hr => ?_
    rw [List.mem_singleton.1 hr]
    exact hc.rooted.frames _ (hf ▸ List.mem_cons_self)
  | @offset _ p _ _ h =>
    refine hc.gain fun r hr => ?_
    rw [List.mem_singleton.1 hr]
    exact hc.hand (.word p.target) (.ptr h)
  | operand hr hv => exact hc.gain (hc.rooted.runs _ hr _ hv)
  | last held hw hh ha =>
    have hroots : ∀ r ∈ held ++ m.roots, ¬ m₀.Freed r := by
      intro r hr
      rcases List.mem_append.1 hr with hr | hr
      · exact hc.hand r (hh r hr)
      · exact hc.rooted.roots hr
    rcases Heap.isAlive_iff.1 ha with ha | ha
    · exact hc.gainWord (hroots _ ha)
    · exact hc.gainWord (hc.not_freed hroots ha)
  | other h =>
    have hh : m'.heap = m.heap := congrArg Owned.heap h
    have hr := hc.rooted
    constructor
    · exact hh ▸ hc.words
    · exact hh ▸ hc.objects
    · exact hc.hand
    · constructor
      · rw [show m'.data = m.data from congrArg Owned.data h]; exact hr.data
      · rw [show m'.temp = m.temp from congrArg Owned.temp h]; exact hr.temp
      · rw [show m'.self = m.self from congrArg Owned.self h]; exact hr.self
      · rw [show m'.frames = m.frames from congrArg Owned.frames h]; exact hr.frames
      · rw [show m'.runs = m.runs from congrArg Owned.runs h]; exact hr.runs
      · rw [show m'.dictionary = m.dictionary from congrArg Owned.dictionary h]
        exact hr.dictionary
      · rw [show m'.types = m.types from congrArg Owned.types h]; exact hr.handlers
      · rw [show m'.compiler = m.compiler from congrArg Owned.compiler h]; exact hr.building
    · exact hh ▸ hc.inside
    · exact hh ▸ hc.outside
  | data h =>
    refine { hc with rooted := { hc.rooted with data := fun v hv r hr => ?_ } }
    rcases h v hv with hv | hv
    · exact hc.rooted.data v hv r hr
    · exact hc.hand r ⟨v, hv, hr⟩
  | temp h =>
    refine { hc with rooted := { hc.rooted with temp := fun v hv r hr => ?_ } }
    rcases h v hv with hv | hv
    · exact hc.rooted.temp v hv r hr
    · exact hc.hand r ⟨v, hv, hr⟩
  | self h =>
    refine { hc with rooted := { hc.rooted with self := fun v hv r hr => ?_ } }
    rcases h v hv with hv | hv
    · exact hc.rooted.self v hv r hr
    · exact hc.hand r ⟨v, hv, hr⟩
  | calls fs rs hf hr =>
    refine { hc with rooted := { hc.rooted with frames := fun f hm => ?_, runs := ?_ } }
    · rcases hf f hm with ⟨g, hg, hw⟩ | hw
      · exact hw ▸ hc.rooted.frames g hg
      · exact hc.hand _ hw
    · intro q hq v hv r hrv
      rcases hr q hq v hv with ⟨p, hp, hv⟩ | hv
      · exact hc.rooted.runs p hp v hv r hrv
      · exact hc.hand r ⟨v, hv, hrv⟩
  | dictionary h =>
    refine { hc with rooted := { hc.rooted with dictionary := fun e he => ?_ } }
    rcases h e he with he | he
    · exact hc.rooted.dictionary e he
    · exact hc.hand _ he
  | types h _ =>
    refine { hc with rooted := { hc.rooted with handlers := fun w hw => ?_ } }
    rcases h w hw with hw | hw
    · exact hc.rooted.handlers w hw
    · exact hc.hand _ hw
  | compiler h =>
    refine { hc with rooted := { hc.rooted with building := fun w hw => ?_ } }
    rcases h with h | h
    · cases h.symm.trans hw
    · exact hc.rooted.building w (h ▸ hw)
  | start name mode depth =>
    have hn := hc.newWord (x := .opened name) (by simp [Word.refs, Word.opened, Elem.refs])
    refine { hn with rooted := { hn.rooted with building := fun w hw => ?_ } }
    cases hw
    exact hc.not_freed_new _
  | @newObject _ x h =>
    have hx : ∀ r ∈ x.refs, InHand hand r := by
      intro r hr
      obtain ⟨v, hv, hr⟩ := List.mem_flatMap.1 hr
      exact ⟨v, h v (Array.mem_toList_iff.1 hv), hr⟩
    have hn : Confined m₀ { m with heap := (m.heap.addObject x).2 } hand := by
      refine ⟨hc.words, Nat.le_trans hc.objects (by simp [Heap.addObject]), hc.hand,
        ⟨hc.rooted.data, hc.rooted.temp, hc.rooted.self, hc.rooted.frames, hc.rooted.runs,
          hc.rooted.dictionary, hc.rooted.handlers, hc.rooted.building⟩, ?_, ?_⟩
      · intro s hs r hr
        rcases Heap.refsOf_addObject hr with hr | ⟨-, hr⟩
        · exact hc.inside s hs r hr
        · exact hc.hand r (hx r hr)
      · exact fun s hs => (Heap.refsOf_addObject_of_has (hc.has hs)).trans (hc.outside s hs)
    refine hn.gain fun r hr hf => ?_
    rw [List.mem_singleton.1 hr] at hf
    exact Nat.lt_irrefl _ (Nat.lt_of_lt_of_le hf.1 hc.objects)
  | @setObject _ o x ho h =>
    have ho := hc.hand _ ho
    refine ⟨hc.words, by simpa [Heap.setObject] using hc.objects, hc.hand,
      ⟨hc.rooted.data, hc.rooted.temp, hc.rooted.self, hc.rooted.frames, hc.rooted.runs,
        hc.rooted.dictionary, hc.rooted.handlers, hc.rooted.building⟩, ?_, ?_⟩
    · intro s hs r hr
      rcases Heap.refsOf_setObject hr with hr | ⟨-, hr⟩
      · exact hc.inside s hs r hr
      · obtain ⟨v, hv, hr⟩ := List.mem_flatMap.1 hr
        rcases h v (Array.mem_toList_iff.1 hv) with hv | hv
        · exact hc.inside (.object o) ho r (List.mem_flatMap.2 ⟨v, Array.mem_toList_iff.2 hv, hr⟩)
        · exact hc.hand r ⟨v, hv, hr⟩
    · intro s hs
      have hne : s ≠ .object o := fun e => ho (e ▸ hs)
      exact (Heap.refsOf_setObject_of_ne hne).trans (hc.outside s hs)
  | @newWord _ x h =>
    refine (hc.newWord fun r hr => ?_).gainWord (hc.not_freed_new x)
    obtain ⟨e, he, hr⟩ := Word.mem_refs.1 hr
    exact (h e he).holds hr
  | @flags _ w x h =>
    refine ⟨by simpa [Heap.setWord] using hc.words, hc.objects, hc.hand,
      ⟨hc.rooted.data, hc.rooted.temp, hc.rooted.self, hc.rooted.frames, hc.rooted.runs,
        hc.rooted.dictionary, hc.rooted.handlers, hc.rooted.building⟩, ?_, ?_⟩
    · exact fun s hs r hr => hc.inside s hs r (Heap.refsOf_setWord_of_body h ▸ hr)
    · exact fun s hs => (Heap.refsOf_setWord_of_body h).trans (hc.outside s hs)
  | build hw he hx _ =>
    refine hc.setWord (hc.rooted.building _ hw) fun r hr => ?_
    exact (Word.refs_of_push hx hr).imp_right he.holds
  | patch hw hv hx _ =>
    refine hc.setWord (hc.rooted.building _ hw) fun r hr => ?_
    exact (Word.refs_of_set (Word.body_of_poke hx) hr).imp_right fun hr => ⟨_, hv, hr⟩
  | store hp hv hx _ =>
    refine hc.setWord (hc.hand _ (.ptr hp)) fun r hr => ?_
    exact (Word.refs_of_set (Word.body_of_store hx) hr).imp_right fun hr => ⟨_, hv, hr⟩
  | extend _ hh hv hx _ =>
    refine hc.setWord (hc.hand _ hh) fun r hr => ?_
    exact (Word.refs_of_push hx hr).imp_right fun hr => ⟨_, hv, hr⟩
  | expand _ hh hx _ =>
    exact hc.setWord (hc.hand _ hh) fun r hr => .inl (Word.refs_of_expand hx hr)
  | action _ hh hb hx _ =>
    refine hc.setWord (hc.hand _ hh) fun r hr => ?_
    refine (Word.refs_of_set (Word.body_of_poke hx) hr).imp_right fun hr => ?_
    rw [List.mem_singleton.1 hr]
    exact hb

theorem moves (hc : Confined m₀ m hand) (h : Moves L m hand m' hand') : Confined m₀ m' hand' := by
  induction h with
  | refl => exact hc
  | tail _ ht ih => exact (ih hc).move ht

end Confined

/-- A machine has got hold of nothing that is not alive. -/
theorem Confined.start (hs : m.Sound) (ht : m.types.Sorted) : Confined m m [] where
  words := Nat.le_refl _
  objects := Nat.le_refl _
  hand r hr := by
    obtain ⟨v, hv, -⟩ := hr
    cases hv
  rooted := .of_roots ht fun r hr hf => hf.2 (.root hr (hs.roots hr))
  inside s hs' r hr hf := by
    have hh := Heap.has_of_mem_refsOf hr
    exact hf.2 ((Classical.not_not.1 fun hn => hs' ⟨hh, hn⟩).ref hr hf.1)
  outside _ _ := rfl

/-! ## The types of a session -/

theorem sorted_of_moves (h : Moves L m hand m' hand') (ht : m.types.Sorted) : m'.types.Sorted := by
  induction h with
  | refl => exact ht
  | @tail m₁ m' _ _ _ _ hm ih =>
    cases hm with
    | types _ hs => exact hs ih
    | other h =>
      have htypes : m'.types = m₁.types := congrArg Owned.types h
      exact htypes ▸ ih
    | _ => exact ih

theorem sorted_initialTypes : initialTypes.Sorted := by
  have hbasic : Types.basic.Sorted := by
    unfold Types.basic Types.ofValueNames
    generalize Types.basicNames = names
    have h₀ : ({} : Types).Sorted := fun e he => by simp at he
    generalize ({} : Types) = t at h₀ ⊢
    induction names generalizing t with
    | nil => exact h₀
    | cons name names ih =>
      refine ih _ ?_
      simp only [Types.addValue]
      split
      · exact h₀
      · intro e he
        rcases Array.mem_push.1 he with he | rfl
        · exact h₀ e he
        · rfl
  unfold initialTypes
  generalize objectTypes = kinds
  generalize Types.basic = t at hbasic ⊢
  induction kinds generalizing t with
  | nil => exact hbasic
  | cons k kinds ih =>
    refine ih _ ?_
    simp only [Types.addObject]
    split
    · exact hbasic
    · exact hbasic

theorem Reached.sorted {ph : Phase} (h : Reached ph m) : m.types.Sorted := by
  refine h.invariant (P := fun _ m => m.types.Sorted) (fun p bs => ?_) fun _ ht hn => ?_
  · have hm : Moves (fun _ => False) (empty p) [] (Machine.create p bs) [] := create_moves p bs
    exact sorted_of_moves hm sorted_initialTypes
  · obtain ⟨hand, hm⟩ := hn.moves
    exact sorted_of_moves hm ht

/-- **What is not alive any more stays so, whatever happens in a session.** -/
theorem Next.freed_of_freed {ph ph' : Phase} (hn : Next ph m ph' m') (h : Reached ph m)
    (hr : m.Freed r) : m'.Freed r := by
  obtain ⟨hand, hm⟩ := hn.moves
  exact ((Confined.start h.sound h.sorted).moves hm).freed hr

/-! ## The ledger -/

/-- What a machine has freed, if `F` was freed before: besides that, whatever no root refers to and
    only freed words and objects do. -/
inductive Released (m : Machine) (F : Ref → Prop) : Ref → Prop
  | before {r : Ref} (hr : F r) : Released m F r
  | last {r : Ref} (hh : m.heap.Has r) (hr : r ∉ m.roots)
    (hs : ∀ s, r ∈ m.heap.refsOf s → Released m F s) : Released m F r

/-- What has been freed in the course of a session. -/
inductive Ledger : Phase → Machine → (Ref → Prop) → Prop
  | create (p : Params) (bs : List Builtin) :
    Ledger .rest (create p bs) ((create p bs).Released fun _ => False)
  | next {ph ph' : Phase} {m m' : Machine} {F : Ref → Prop} (h : Ledger ph m F)
    (hn : Next ph m ph' m') : Ledger ph' m' (m'.Released F)

/-- Freeing one thing after the other ends with everything that is not alive. -/
theorem released_iff {F : Ref → Prop} (hF : ∀ r, F r → m.Freed r) :
    m.Released F r ↔ m.Freed r := by
  constructor
  · intro h
    induction h with
    | before hr => exact hF _ hr
    | last hh hr _ ih =>
      refine ⟨hh, fun ha => ?_⟩
      obtain ⟨-, hroot | ⟨s, hs, hrs⟩⟩ := Heap.Alive.kept _ _ _ ha
      · exact hr hroot
      · exact (ih s hrs).2 hs
  · -- what is not freed in the end keeps itself alive
    intro h
    refine Classical.byContradiction fun hn => h.2 ?_
    refine ⟨fun x => m.heap.Has x ∧ ¬ m.Released F x, ?_, h.1, hn⟩
    rintro x ⟨hx, hxn⟩
    refine ⟨hx, Classical.byContradiction fun hno => hxn (.last hx (fun hr => hno (.inl hr)) ?_)⟩
    intro s hs
    refine Classical.byContradiction fun hsn => hno (.inr ⟨s, ⟨?_, hsn⟩, hs⟩)
    exact Heap.has_of_mem_refsOf hs

namespace Ledger

variable {ph : Phase} {F G : Ref → Prop}

theorem reached (h : Ledger ph m F) : Reached ph m := by
  induction h with
  | create p bs => exact .create p bs
  | next _ hn ih => exact ih.next hn

/-- **The ledger of a session lists what is not alive any more.** -/
theorem freed_iff (h : Ledger ph m F) : F r ↔ m.Freed r := by
  induction h generalizing r with
  | create p bs => exact released_iff nofun
  | next h hn ih => exact released_iff fun r hr => hn.freed_of_freed h.reached (ih.1 hr)

theorem unique (h : Ledger ph m F) (h' : Ledger ph m G) : F = G := by
  funext r
  exact propext (h.freed_iff.trans h'.freed_iff.symm)

end Ledger

/-- What is freed has no reference left, and what has no reference left is freed. -/
theorem freed_iff_of_refs :
    m.Freed r ↔ m.heap.Has r ∧ r ∉ m.roots ∧ ∀ s, r ∈ m.heap.refsOf s → m.Freed s := by
  constructor
  · rintro ⟨hh, ha⟩
    refine ⟨hh, fun hr => ha (.root hr hh), fun s hs => ⟨Heap.has_of_mem_refsOf hs, fun has => ?_⟩⟩
    exact ha (has.ref hs hh)
  · rintro ⟨hh, hr, hs⟩
    refine ⟨hh, fun ha => ?_⟩
    obtain ⟨-, hroot | ⟨s, has, hrs⟩⟩ := Heap.Alive.kept _ _ _ ha
    · exact hr hroot
    · exact (hs s hrs).2 has

/-- The references that a failed line gives up come on top of what the failure itself has freed. -/
theorem released_giveUpLine (m : Machine) (F : Ref → Prop) :
    m.giveUpLine.Released (m.Released F) = m.giveUpLine.Released F := by
  have hroots : ∀ r ∈ m.giveUpLine.roots, r ∈ m.roots := by
    intro r hr
    simp only [roots, giveUpLine, reset, Stack.clear, Compiler.reset, List.flatMap_nil, List.map_nil,
      Option.toList_none, List.append_nil, List.nil_append, List.mem_append] at hr ⊢
    rcases hr with hr | hr
    · exact .inl (.inl (.inr hr))
    · exact .inl (.inr hr)
  have hfirst : ∀ r, m.Released F r → m.giveUpLine.Released F r := by
    intro r h
    induction h with
    | before hr => exact .before hr
    | last hh hr _ ih => exact .last hh (fun h => hr (hroots _ h)) ih
  funext r
  refine propext ⟨fun h => ?_, fun h => ?_⟩
  · induction h with
    | before hr => exact hfirst _ hr
    | last hh hr _ ih => exact .last hh hr ih
  · induction h with
    | before hr => exact .before (.before hr)
    | last hh hr _ ih => exact .last hh hr ih

/-- Every session has a ledger. -/
theorem Reached.ledger {ph : Phase} (h : Reached ph m) : Ledger ph m m.Freed := by
  obtain ⟨F, hF⟩ : ∃ F, Ledger ph m F := by
    refine h.invariant (P := fun ph m => ∃ F, Ledger ph m F) (fun p bs => ⟨_, .create p bs⟩) ?_
    rintro _ _ _ _ _ ⟨F, hF⟩ hn
    exact ⟨_, hF.next hn⟩
  have : F = m.Freed := funext fun r => propext hF.freed_iff
  exact this ▸ hF

end Machine
end ThreadedForth
