/-
  Printing: the text of a value is that of the graph unfolded from it.
-/
import ThreadedForth.Heap.Display
import ThreadedForth.Proofs.HeapShape

namespace ThreadedForth

namespace Obj

variable {x : Obj}

theorem setVisiting_setVisiting (x : Obj) (b c : Bool) :
    (x.setVisiting b).setVisiting c = x.setVisiting c := by
  cases x <;> rfl

theorem setVisiting_of_visiting? {b : Bool} (hx : x.visiting? = some b) : x.setVisiting b = x := by
  cases x <;> cases hx <;> rfl

theorem visiting?_setVisiting {b : Bool} (hx : x.visiting? = some b) (c : Bool) :
    (x.setVisiting c).visiting? = some c := by
  cases x with
  | text _ => cases hx
  | array _ _ => rfl
  | record _ _ _ _ => rfl

theorem abbreviation_setVisiting (x : Obj) (b : Bool) :
    (x.setVisiting b).abbreviation = x.abbreviation := by
  cases x <;> rfl

end Obj

namespace Heap

variable {h k : Heap} {v : Value} {o : ObjId} {path : List ObjId} {ts us : List String}

/-! ## The unfolded graph -/

/-- The pieces of the text of what an object holds, from the pieces of the text of each value. -/
def joinEntries (es : List (String × Value)) (tss : List (List String)) : List String :=
  (es.zip tss).flatMap fun x => x.1.1 :: x.2

/-- The pieces of the text of a value inside the objects of a path: what the value is inside of is
    abbreviated, and everything else is written in full. -/
inductive Unfolds (h : Heap) : List ObjId → Value → List String → Prop
  | leaf {path : List ObjId} {v : Value} (hv : ∀ o, v ≠ .obj o) : Unfolds h path v (h.leaf v)
  | text {path : List ObjId} {o : ObjId} {s : String} (ho : h.object o = .text s) :
    Unfolds h path (.obj o) [s]
  | inside {path : List ObjId} {o : ObjId} (ho : ∀ s, h.object o ≠ .text s) (hp : o ∈ path) :
    Unfolds h path (.obj o) [(h.object o).abbreviation]
  | full {path : List ObjId} {o : ObjId} {tss : List (List String)} (ho : ∀ s, h.object o ≠ .text s)
    (hp : o ∉ path) (hl : tss.length = (h.object o).entries.length)
    (he : ∀ x ∈ (h.object o).entries.zip tss, Unfolds h (o :: path) x.1.2 x.2) :
    Unfolds h path (.obj o) ((h.object o).opening ::
      (joinEntries (h.object o).entries tss ++ [(h.object o).closing]))

/-- A value has one text. -/
theorem Unfolds.unique (ht : h.Unfolds path v ts) (hu : h.Unfolds path v us) : ts = us := by
  induction ht generalizing us with
  | leaf hv =>
    cases hu with
    | leaf => rfl
    | text => exact absurd rfl (hv _)
    | inside => exact absurd rfl (hv _)
    | full => exact absurd rfl (hv _)
  | text ho =>
    cases hu with
    | leaf hv => exact absurd rfl (hv _)
    | text ho' =>
      rw [ho] at ho'
      cases ho'
      rfl
    | inside ho' => exact absurd ho (ho' _)
    | full ho' => exact absurd ho (ho' _)
  | inside ho hp =>
    cases hu with
    | leaf hv => exact absurd rfl (hv _)
    | text ho' => exact absurd ho' (ho _)
    | inside => rfl
    | full _ hp' => exact absurd hp hp'
  | @full path o tss ho hp hl _ ih =>
    cases hu with
    | leaf hv => exact absurd rfl (hv _)
    | text ho' => exact absurd ho' (ho _)
    | inside _ hp' => exact absurd hp' hp
    | @full _ _ uss _ _ hl' he' =>
      have heq : tss = uss := by
        refine List.ext_getElem (hl.trans hl'.symm) fun i hi hi' => ?_
        have hie : i < (h.object o).entries.length := hl ▸ hi
        refine ih ((h.object o).entries[i], tss[i]) ?_ (he' ((h.object o).entries[i], uss[i]) ?_)
        · exact List.mem_iff_getElem.2 ⟨i, by simp only [List.length_zip]; omega, by simp⟩
        · exact List.mem_iff_getElem.2 ⟨i, by simp only [List.length_zip]; omega, by simp⟩
      rw [heq]

/-- An object is the value or inside of it. -/
inductive Within (h : Heap) : Value → ObjId → Prop
  | self (o : ObjId) : Within h (.obj o) o
  | entry {o o' : ObjId} {e : String × Value} (he : e ∈ (h.object o).entries)
    (ho : Within h e.2 o') : Within h (.obj o) o'

/-- The text depends on the part of the path that is inside the value. -/
theorem Unfolds.of_path {path' : List ObjId} (ht : h.Unfolds path v ts)
    (hp : ∀ o, h.Within v o → (o ∈ path ↔ o ∈ path')) : h.Unfolds path' v ts := by
  induction ht generalizing path' with
  | leaf hv => exact .leaf hv
  | text ho => exact .text ho
  | inside ho hm => exact .inside ho ((hp _ (.self _)).1 hm)
  | @full path o tss ho hm hl _ ih =>
    refine .full ho (fun hc => hm ((hp _ (.self _)).2 hc)) hl fun x hx => ih x hx fun o' ho' => ?_
    rw [List.mem_cons, List.mem_cons, hp o' (.entry (List.of_mem_zip hx).1 ho')]

/-- Wherever a part of the graph is met that holds no object of the path, it is written as it is
    written on its own. -/
theorem Unfolds.of_outside (hp : ∀ o ∈ path, ¬ h.Within v o) :
    h.Unfolds path v ts ↔ h.Unfolds [] v ts := by
  have hiff : ∀ o, h.Within v o → (o ∈ path ↔ o ∈ []) := fun o ho =>
    ⟨fun hm => absurd ho (hp o hm), fun hm => absurd hm List.not_mem_nil⟩
  exact ⟨fun ht => ht.of_path hiff, fun ht => ht.of_path fun o ho => (hiff o ho).symm⟩

/-! ## Sinks -/

section Sinks

variable {σ : Type} (put : σ → String → σ × Bool)

theorem putAll_singleton (p : String) (s : σ) : putAll put [p] s = put s p := by
  rw [putAll]
  rcases put s p with ⟨s', _ | _⟩ <;> rfl

theorem putAll_append (ps qs : List String) (s : σ) :
    putAll put (ps ++ qs) s = match putAll put ps s with
      | (s, true) => putAll put qs s
      | (s, false) => (s, false) := by
  induction ps generalizing s with
  | nil => rfl
  | cons p ps ih =>
    rw [List.cons_append, putAll, putAll]
    rcases put s p with ⟨s', _ | _⟩
    · rfl
    · exact ih s'

/-- A sink that takes everything. -/
theorem putAll_string (ps : List String) (s : String) :
    putAll (fun s p => (s ++ p, true)) ps s = (s ++ String.join ps, true) := by
  induction ps generalizing s with
  | nil => simp [putAll]
  | cons p ps ih =>
    rw [putAll]
    simp only [ih, String.join_cons, String.append_assoc]

/-- What is held by an object is written piece by piece, if each value is. -/
theorem walkEntries_eq {visit : Value → Heap → σ → Heap × σ × Bool} :
    ∀ {es : List (String × Value)} {tss : List (List String)}, tss.length = es.length →
      (∀ x ∈ es.zip tss, ∀ s, visit x.1.2 h s = (h, putAll put x.2 s)) → ∀ s : σ,
        walkEntries put visit es h s = (h, putAll put (joinEntries es tss) s)
  | [], [], _, _, _ => rfl
  | (t, v) :: es, ts :: tss, hl, hv, s => by
    have hrest := walkEntries_eq (Nat.succ.inj hl) fun x hx => hv x (List.mem_cons_of_mem _ hx)
    have hhead : ∀ s, visit v h s = (h, putAll put ts s) := hv ((t, v), ts) List.mem_cons_self
    rw [walkEntries, joinEntries, List.zip_cons_cons, List.flatMap_cons, List.cons_append, putAll]
    rcases put s t with ⟨s₁, _ | _⟩
    · rfl
    · simp only [hhead, putAll_append]
      rcases putAll put ts s₁ with ⟨s₂, _ | _⟩
      · rfl
      · exact hrest s₂

theorem walkObject_eq {visit : Value → Heap → σ → Heap × σ × Bool} {x : Obj}
    {tss : List (List String)} (hl : tss.length = x.entries.length)
    (hv : ∀ y ∈ x.entries.zip tss, ∀ s, visit y.1.2 h s = (h, putAll put y.2 s)) (s : σ) :
    walkObject put visit x h s =
      (h, putAll put (x.opening :: (joinEntries x.entries tss ++ [x.closing])) s) := by
  rw [walkObject, putAll]
  rcases put s x.opening with ⟨s₁, _ | _⟩
  · rfl
  · simp only [walkEntries_eq put hl hv, putAll_append, putAll_singleton]
    rcases putAll put (joinEntries x.entries tss) s₁ with ⟨s₂, _ | _⟩ <;> rfl

end Sinks

/-! ## Marks -/

/-- No mark is set. -/
def Unmarked (h : Heap) : Prop :=
  ∀ o, (h.object o).visiting? ≠ some true

theorem unmarked_of_objects (hx : ∀ x ∈ h.objects, x.visiting? ≠ some true) : h.Unmarked := by
  intro o
  unfold object
  cases ho : h.objects[o.index]? with
  | none => nofun
  | some x => exact hx x (Array.mem_of_getElem? ho)

/-- The heap with marks on the objects of a path. -/
structure Marked (h : Heap) (path : List ObjId) (k : Heap) : Prop where
  leaf : ∀ v, k.leaf v = h.leaf v
  object : ∀ o, k.object o = if o ∈ path then (h.object o).setVisiting true else h.object o

theorem Marked.refl (h : Heap) : h.Marked [] h :=
  ⟨fun _ => rfl, fun _ => (if_neg List.not_mem_nil).symm⟩

theorem index_lt_of_visiting? {b : Bool} (ho : (h.object o).visiting? = some b) :
    o.index < h.objects.size := by
  refine Nat.lt_of_not_le fun hle => ?_
  simp [object, hle, default, Obj.visiting?] at ho

theorem setObject_object (h : Heap) (o : ObjId) : h.setObject o (h.object o) = h := by
  have hset : h.objects.setIfInBounds o.index (h.object o) = h.objects := by
    refine Array.ext (by simp) fun i hi hi' => ?_
    rw [Array.getElem_setIfInBounds]
    split
    · rename_i he
      subst he
      simp [object, hi']
    · rfl
  rw [setObject, hset]

theorem setObject_setObject (h : Heap) (o : ObjId) (x y : Obj) :
    (h.setObject o x).setObject o y = h.setObject o y := by
  simp [setObject]

/-- A mark that is set and cleared again leaves nothing behind. -/
theorem mark_mark (ho : (h.object o).visiting? = some false) :
    (h.mark o true).mark o false = h := by
  have hlt := index_lt_of_visiting? ho
  rw [mark, mark, object_setObject, if_pos ⟨rfl, hlt⟩, setObject_setObject,
    Obj.setVisiting_setVisiting, Obj.setVisiting_of_visiting? ho, setObject_object]

/-- The walk goes into an object. -/
theorem Marked.mark (hk : h.Marked path k) (ho : (h.object o).visiting? = some false)
    (hp : o ∉ path) : h.Marked (o :: path) (k.mark o true) := by
  have hko : k.object o = h.object o := by rw [hk.object, if_neg hp]
  have hlt : o.index < k.objects.size := index_lt_of_visiting? (hko ▸ ho)
  refine ⟨hk.leaf, fun a => ?_⟩
  rw [Heap.mark, object_setObject, hko, hk.object]
  by_cases ha : a = o
  · subst ha
    rw [if_pos ⟨rfl, hlt⟩, if_pos List.mem_cons_self]
  · rw [if_neg fun hc => ha hc.1]
    simp only [List.mem_cons, ha, false_or]

/-- A walk is not inside more objects than there are. -/
theorem length_lt_size (hd : (o :: path).Nodup)
    (hp : ∀ a ∈ o :: path, (h.object a).visiting? = some false) : path.length < h.objects.size := by
  have hmap : ((o :: path).map ObjId.index).Nodup :=
    List.pairwise_map.2 (hd.imp fun hne he => hne (congrArg ObjId.mk he))
  have hsub : (o :: path).map ObjId.index ⊆ List.range h.objects.size := by
    intro i hi
    obtain ⟨a, ha, rfl⟩ := List.mem_map.1 hi
    exact List.mem_range.2 (index_lt_of_visiting? (hp a ha))
  have hle := hmap.length_le_of_subset hsub
  rw [List.length_map, List.length_cons, List.length_range] at hle
  exact hle

/-! ## The walk -/

/-- Each value of a list has its text. -/
theorem exists_texts {P : String × Value → List String → Prop} :
    ∀ {es : List (String × Value)}, (∀ e ∈ es, ∃ ts, P e ts) →
      ∃ tss : List (List String), tss.length = es.length ∧ ∀ x ∈ es.zip tss, P x.1 x.2
  | [], _ => ⟨[], rfl, nofun⟩
  | e :: es, he => by
    obtain ⟨ts, ht⟩ := he e List.mem_cons_self
    obtain ⟨tss, hl, hx⟩ := exists_texts fun e' h' => he e' (List.mem_cons_of_mem _ h')
    refine ⟨ts :: tss, congrArg (· + 1) hl, fun x hm => ?_⟩
    rcases List.mem_cons.1 hm with rfl | hm
    · exact ht
    · exact hx x hm

/-- What a walk does in a value, inside a path: it writes the unfolded graph, and it leaves the heap
    as it is. -/
def WalksAs (h k : Heap) (path : List ObjId) (fuel : Nat) (v : Value) : Prop :=
  ∃ ts, h.Unfolds path v ts ∧ ∀ (σ : Type) (put : σ → String → σ × Bool) (s : σ),
    walk put fuel v k s = (k, putAll put ts s)

theorem eq_text_of_visiting? {x : Obj} (hx : x.visiting? = none) : ∃ s, x = .text s := by
  cases x with
  | text s => exact ⟨s, rfl⟩
  | array _ _ => cases hx
  | record _ _ _ _ => cases hx

theorem ne_text_of_visiting? {x : Obj} {b : Bool} (hx : x.visiting? = some b) (s : String) :
    x ≠ .text s := by
  rintro rfl
  cases hx

/-- Values that a walk does not go into: plain values, strings, and what it is inside of. -/
theorem walksAs_of_stays (hm : h.Unmarked) (hk : h.Marked path k)
    (hv : ∀ o, v = .obj o → (h.object o).visiting? = some false → o ∈ path) (fuel : Nat) :
    h.WalksAs k path fuel v := by
  by_cases hobj : ∃ o, v = .obj o
  · obtain ⟨o, rfl⟩ := hobj
    rcases ho : (h.object o).visiting? with _ | _ | _
    · obtain ⟨t, ht⟩ := eq_text_of_visiting? ho
      have hko : k.object o = .text t := by rw [hk.object, ht]; split <;> rfl
      refine ⟨[t], .text ht, fun σ put s => ?_⟩
      unfold walk
      rw [hko, putAll_singleton]
      rfl
    · have hp := hv o rfl ho
      have hko : k.object o = (h.object o).setVisiting true := by rw [hk.object, if_pos hp]
      refine ⟨[(h.object o).abbreviation], .inside (ne_text_of_visiting? ho) hp, fun σ put s => ?_⟩
      unfold walk
      rw [hko, Obj.visiting?_setVisiting ho, Obj.abbreviation_setVisiting, putAll_singleton]
    · exact absurd ho (hm o)
  · have hv : ∀ o, v ≠ .obj o := fun o he => hobj ⟨o, he⟩
    refine ⟨h.leaf v, .leaf hv, fun σ put s => ?_⟩
    rw [walk, hk.leaf]
    exact fun o he => hv o he

/-- A walk that goes into an object. -/
theorem walksAs_of_enters (hk : h.Marked path k) (ho : (h.object o).visiting? = some false)
    (hp : o ∉ path) {fuel : Nat}
    (hv : ∀ e ∈ (h.object o).entries, h.WalksAs (k.mark o true) (o :: path) fuel e.2) :
    h.WalksAs k path (fuel + 1) (.obj o) := by
  have hko : k.object o = h.object o := by rw [hk.object, if_neg hp]
  obtain ⟨tss, hl, hx⟩ := exists_texts hv
  refine ⟨_, .full (ne_text_of_visiting? ho) hp hl fun x hm => (hx x hm).1, fun σ put s => ?_⟩
  rw [walk, hko, ho]
  dsimp only
  rw [walkObject_eq put hl fun x hm => (hx x hm).2 σ put]
  dsimp only
  rw [mark_mark (hko ▸ ho)]

/-- **A walk writes the unfolded graph.**  What bounds it is the number of objects that it is not
    inside of. -/
theorem walksAs (hm : h.Unmarked) (hk : h.Marked path k) (hd : path.Nodup)
    (hp : ∀ o ∈ path, (h.object o).visiting? = some false) {fuel : Nat}
    (hf : h.objects.size ≤ fuel + path.length) (v : Value) : h.WalksAs k path fuel v := by
  induction fuel generalizing path k v with
  | zero =>
    refine walksAs_of_stays hm hk (fun o _ ho => Classical.byContradiction fun hn => ?_) 0
    have := length_lt_size (List.nodup_cons.2 ⟨hn, hd⟩) (List.forall_mem_cons.2 ⟨ho, hp⟩)
    omega
  | succ fuel ih =>
    by_cases hin : ∃ o, v = .obj o ∧ (h.object o).visiting? = some false ∧ o ∉ path
    · obtain ⟨o, rfl, ho, hn⟩ := hin
      refine walksAs_of_enters hk ho hn fun e _ => ?_
      refine ih (hk.mark ho hn) (List.nodup_cons.2 ⟨hn, hd⟩) (List.forall_mem_cons.2 ⟨ho, hp⟩) ?_ e.2
      rw [List.length_cons]
      omega
    · refine walksAs_of_stays hm hk (fun o hv ho => ?_) _
      exact Classical.byContradiction fun hn => hin ⟨o, hv, ho, hn⟩

/-- What printing a value comes to, with the pieces of its text. -/
structure Prints (h : Heap) (v : Value) (ts : List String) : Prop where
  /-- The text is that of the unfolded graph. -/
  unfolds_iff : ∀ us, h.Unfolds [] v us ↔ us = ts
  /-- The heap is left as it is, marks and contents, by a sink that may refuse pieces, and the bound
      never shows. -/
  walk_eq : ∀ (σ : Type) (put : σ → String → σ × Bool) (s : σ) fuel, h.objects.size ≤ fuel →
    walk put fuel v h s = (h, putAll put ts s)
  display_eq : h.display v = String.join ts

/-- **Printing ends and cleans up.**  In a heap without marks, however its objects are shared and
    hold each other, printing a value writes the text of the unfolded graph, which abbreviates an
    array or a record exactly inside itself; a part of the graph has the same text wherever it is
    met outside the objects that it holds. -/
theorem printing_unfolds (h : Heap) (hm : h.Unmarked) (v : Value) :
    (∃ ts, h.Prints v ts) ∧ ∀ path us, (∀ o ∈ path, ¬ h.Within v o) →
      (h.Unfolds path v us ↔ h.Unfolds [] v us) := by
  have hwalk : ∀ {fuel}, h.objects.size ≤ fuel → h.WalksAs h [] fuel v := fun hf =>
    walksAs hm (.refl h) .nil nofun hf v
  obtain ⟨ts, ht, hs⟩ := hwalk (Nat.le_refl _)
  refine ⟨⟨ts, fun us => ⟨fun hu => hu.unique ht, fun he => he ▸ ht⟩, fun σ put s fuel hf => ?_, ?_⟩,
    fun _ _ hp => Unfolds.of_outside hp⟩
  · obtain ⟨us, hu, hw⟩ := hwalk hf
    rw [hu.unique ht] at hw
    exact hw σ put s
  · rw [display, hs, putAll_string, String.empty_append]

/-- An array that holds itself, and another array twice. -/
def sharing : Heap :=
  { objects := #[.ofItems #[.obj ⟨0⟩, .obj ⟨1⟩, .obj ⟨1⟩], .ofItems #[.int 7]] }

/-- Only the array that is inside itself is abbreviated. -/
theorem printing_unfolds_of_sharing :
    sharing.Unmarked ∧ ∃ ts, sharing.Prints (.obj ⟨0⟩) ts ∧
      String.join ts = "[[...] [7] [7]]" := by
  have hm : sharing.Unmarked := unmarked_of_objects (by decide)
  obtain ⟨⟨ts, ht⟩, -⟩ := printing_unfolds sharing hm (.obj ⟨0⟩)
  have hd : sharing.display (.obj ⟨0⟩) = "[[...] [7] [7]]" := by decide +kernel
  exact ⟨hm, ts, ht, ht.display_eq.symm.trans hd⟩

end Heap
end ThreadedForth
