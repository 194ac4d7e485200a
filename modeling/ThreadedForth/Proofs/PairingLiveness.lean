/-
  What is alive on machines that hold the same under other numbers.
-/
import Mathlib.Data.List.Nodup
import ThreadedForth.Proofs.LastBinding
import ThreadedForth.Proofs.Occurrences
import ThreadedForth.Proofs.PairingRuns

namespace ThreadedForth

variable {α β γ : Type}

/-! ## Lists in which everything belongs to something -/

/-- Every element of one list belongs to an element of the other. -/
structure Matched (R : α → β → Prop) (as : List α) (bs : List β) : Prop where
  left : ∀ a ∈ as, ∃ b ∈ bs, R a b
  right : ∀ b ∈ bs, ∃ a ∈ as, R a b

section Lists

variable {R : α → β → Prop} {as cs : List α} {bs ds : List β}

theorem Matched.append (h : Matched R as bs) (h' : Matched R cs ds) :
    Matched R (as ++ cs) (bs ++ ds) where
  left := fun a ha => (List.mem_append.1 ha).elim
    (fun ha => (h.left a ha).imp fun _ hb => ⟨List.mem_append_left _ hb.1, hb.2⟩)
    fun ha => (h'.left a ha).imp fun _ hb => ⟨List.mem_append_right _ hb.1, hb.2⟩
  right := fun b hb => (List.mem_append.1 hb).elim
    (fun hb => (h.right b hb).imp fun _ ha => ⟨List.mem_append_left _ ha.1, ha.2⟩)
    fun hb => (h'.right b hb).imp fun _ ha => ⟨List.mem_append_right _ ha.1, ha.2⟩

theorem matched_of_forall₂ (h : List.Forall₂ R as bs) : Matched R as bs := by
  induction h with
  | nil => exact ⟨fun a ha => absurd ha List.not_mem_nil, fun b hb => absurd hb List.not_mem_nil⟩
  | @cons a b as bs hab _ ih =>
    have hone : Matched R [a] [b] :=
      ⟨fun c hc => ⟨b, List.mem_cons_self, by rwa [List.mem_singleton.1 hc]⟩,
        fun d hd => ⟨a, List.mem_cons_self, by rwa [List.mem_singleton.1 hd]⟩⟩
    exact hone.append ih

theorem forall₂_filterMap {S : γ → γ → Prop} {f : α → Option γ} {g : β → Option γ}
    (h : List.Forall₂ R as bs) (hf : ∀ a b, R a b → Option.Rel S (f a) (g b)) :
    List.Forall₂ S (as.filterMap f) (bs.filterMap g) := by
  induction h with
  | nil => exact .nil
  | @cons a b as bs hab _ ih =>
    have hfg := hf a b hab
    cases ha : f a <;> cases hb : g b <;> rw [ha, hb] at hfg
    · rwa [List.filterMap_cons_none ha, List.filterMap_cons_none hb]
    · cases hfg
    · cases hfg
    · cases hfg with
      | some hs =>
        rw [List.filterMap_cons_some ha, List.filterMap_cons_some hb]
        exact .cons hs ih

variable (hR : ∀ {a b c d}, R a b → R c d → (a = c ↔ b = d))
include hR

theorem count_eq_of_forall₂ [DecidableEq α] [DecidableEq β] (h : List.Forall₂ R as bs) {a : α}
    {b : β} (hab : R a b) : as.count a = bs.count b := by
  induction h with
  | nil => rfl
  | @cons c d _ _ hcd _ ih =>
    rw [List.count_cons, List.count_cons, ih]
    congr 1
    by_cases hc : c = a
    · rw [beq_iff_eq.2 hc, beq_iff_eq.2 ((hR hcd hab).1 hc)]
    · rw [beq_eq_false_iff_ne.2 hc, beq_eq_false_iff_ne.2 (mt (hR hcd hab).2 hc)]

/-- What is the same of things that belong together makes up the same lists, in some order. -/
theorem Matched.map_perm (h : Matched R as bs) (ha : as.Nodup) (hb : bs.Nodup) {f : α → γ}
    {g : β → γ} (hf : ∀ a b, R a b → f a = g b) : (as.map f).Perm (bs.map g) := by
  induction as generalizing bs with
  | nil =>
    cases bs with
    | nil => exact .refl _
    | cons b bs =>
      obtain ⟨a, ha, -⟩ := h.right b List.mem_cons_self
      cases ha
  | cons a as ih =>
    obtain ⟨b, hmem, hab⟩ := h.left a List.mem_cons_self
    obtain ⟨ss, ts, rfl⟩ := List.append_of_mem hmem
    have hperm : (ss ++ b :: ts).Perm (b :: (ss ++ ts)) := List.perm_middle
    have hnodup := hperm.nodup_iff.1 hb
    obtain ⟨hnew, ha⟩ := List.nodup_cons.1 ha
    have hrest : Matched R as (ss ++ ts) := by
      constructor
      · intro c hc
        obtain ⟨d, hd, hcd⟩ := h.left c (List.mem_cons_of_mem _ hc)
        refine ⟨d, ?_, hcd⟩
        rcases List.mem_cons.1 (hperm.mem_iff.1 hd) with rfl | hd
        · exact absurd ((hR hcd hab).2 rfl ▸ hc) hnew
        · exact hd
      · intro d hd
        obtain ⟨c, hc, hcd⟩ := h.right d (hperm.mem_iff.2 (List.mem_cons_of_mem _ hd))
        refine ⟨c, ?_, hcd⟩
        rcases List.mem_cons.1 hc with rfl | hc
        · exact absurd ((hR hcd hab).1 rfl ▸ hd) (List.nodup_cons.1 hnodup).1
        · exact hc
    refine .trans ?_ (hperm.map g).symm
    rw [List.map_cons, List.map_cons, hf a b hab]
    exact (ih hrest ha (List.nodup_cons.1 hnodup).2).cons _

end Lists

theorem Dictionary.Distinct.lookup?_eq_some_iff {d : Dictionary} (hd : d.Distinct) {n : Name}
    {w : WordId} : d.lookup? n = some w ↔ (n, w) ∈ d.entries := by
  unfold Distinct at hd
  unfold Dictionary.lookup?
  generalize d.entries = es at hd
  induction es with
  | nil => simp
  | cons e es ih =>
    obtain ⟨hnew, hes⟩ := List.nodup_cons.1 hd
    rw [List.find?_cons, List.mem_cons]
    by_cases hn : n.same e.1 = true
    · have hne : n = e.1 := Name.same_iff.1 hn
      simp only [hn, Option.map_some, Option.some.injEq]
      constructor
      · rintro rfl
        exact .inl (by rw [hne])
      · rintro (h | h)
        · rw [← h]
        · exact absurd (List.mem_map.2 ⟨_, h, hne⟩) hnew
    · simp only [hn]
      refine (ih hes).trans ⟨.inr, fun h => h.resolve_left fun h => hn ?_⟩
      exact Name.same_iff.2 (congrArg Prod.fst h)

/-! ## What is alive in two heaps -/

namespace Heap

variable {h k : Heap} {roots roots' : List Ref} {r s : Ref}

/-- What is alive belongs to a set that holds the roots and what its members refer to, if that was so
    from the beginning and everything else is still as it was. -/
theorem Alive.of_outside {S : Ref → Prop} (hroots : ∀ r ∈ roots', S r)
    (hrefs : ∀ s, S s → ∀ r ∈ k.refsOf s, S r)
    (hold : ∀ s, ¬ S s → k.refsOf s = h.refsOf s ∧ (k.Has s → h.Has s))
    (halive : ∀ r, h.Alive roots r → S r) (hr : k.Alive roots' r) : S r := by
  refine Classical.byContradiction fun hn => hn (halive r ?_)
  refine ⟨fun r => k.Alive roots' r ∧ ¬ S r, ?_, hr, hn⟩
  rintro r ⟨hr, hn⟩
  obtain ⟨hh, hroot | ⟨s, hs, hrs⟩⟩ := Alive.kept k roots' r hr
  · exact absurd (hroots r hroot) hn
  · have hns : ¬ S s := fun hs => hn (hrefs s hs r hrs)
    exact ⟨(hold r hn).2 hh, .inr ⟨s, ⟨hs, hns⟩, (hold s hns).1 ▸ hrs⟩⟩

/-- What belongs to something that is alive is alive as well. -/
theorem Alive.of_matched {R : Ref → Ref → Prop}
    (hR : ∀ {a b c d}, R a b → R c d → (a = c ↔ b = d))
    (hhas : ∀ {r s}, R r s → h.Has r → k.Has s) (hroots : ∀ r ∈ roots, ∃ s ∈ roots', R r s)
    (hrefs : ∀ {r s}, R r s → ∀ a ∈ h.refsOf r, ∃ b ∈ k.refsOf s, R a b)
    (hall : ∀ r, h.Alive roots r → ∃ s, R r s) (hrs : R r s) (hr : h.Alive roots r) :
    k.Alive roots' s := by
  refine ⟨fun s => ∃ r, R r s ∧ h.Alive roots r, ?_, r, hrs, hr⟩
  rintro s ⟨r, hrs, hr⟩
  obtain ⟨hh, hroot | ⟨t, ht, hrt⟩⟩ := Alive.kept h roots r hr
  · obtain ⟨s', hs', hrs'⟩ := hroots r hroot
    exact ⟨hhas hrs hh, .inl ((hR hrs hrs').1 rfl ▸ hs')⟩
  · obtain ⟨t', htt'⟩ := hall t ht
    obtain ⟨s', hs', hrs'⟩ := hrefs htt' r hrt
    exact ⟨hhas hrs hh, .inr ⟨t', ⟨t, htt', ht⟩, (hR hrs hrs').1 rfl ▸ hs'⟩⟩

end Heap

theorem Machine.latest_of_dead {m : Machine}
    (h : ∀ w ∈ m.compiler.last?, ¬ m.heap.isAlive m.roots w = true) :
    m.latest = .error (.compileState .noneCreated) := by
  unfold latest Compiler.last
  cases hl : m.compiler.last? with
  | none => rfl
  | some w => exact if_neg (h w hl)

namespace Pairing

variable {m m' : Machine} {P : Pairing m m'} {x y : Machine} {h k : Heap} {r s a b : Ref}

/-! ## References -/

/-- References to what belongs together. -/
inductive SameRef (P : Pairing m m') : Ref → Ref → Prop
  | word {w u : WordId} (h : P.word w u) : SameRef P (.word w) (.word u)
  | object {o p : ObjId} (h : P.object o p) : SameRef P (.object o) (.object p)

theorem SameRef.iff (hr : P.SameRef r s) (ha : P.SameRef a b) : r = a ↔ s = b := by
  cases hr with
  | word hw =>
    cases ha with
    | word hv => simpa using P.word_iff hw hv
    | object _ => simp
  | object ho =>
    cases ha with
    | word _ => simp
    | object hp => simpa using P.object_iff ho hp

theorem SameValue.refs {v t : Value} (hv : P.SameValue v t) :
    List.Forall₂ P.SameRef v.refs t.refs := by
  cases hv with
  | plain hv =>
    rw [hv]
    exact .nil
  | xt hw => exact .cons (.word hw) .nil
  | ptr hp => exact .cons (.word hp.target.1) .nil
  | obj ho => exact .cons (.object ho) .nil

theorem SameElem.refs {e f : Elem} (he : P.SameElem e f) :
    List.Forall₂ P.SameRef e.refs f.refs := by
  cases he with
  | direct hc =>
    cases hc with
    | native _ => exact .nil
    | docol => exact .nil
    | indirect hw _ => exact .cons (.word hw) .nil
  | call hw => exact .cons (.word hw) .nil
  | lit hv => exact hv.refs
  | recurse => exact .nil

theorem SamePending.refs {p q : Pending} (hp : P.SamePending p q) :
    List.Forall₂ P.SameRef (Machine.pendingRefs p) (Machine.pendingRefs q) := by
  cases hp with
  | outside => exact .nil
  | run => exact .nil
  | attempt => exact .nil
  | handler _ ha =>
    cases ha with
    | push => exact .nil
    | select ha hb => exact forall₂_append ha.refs hb.refs
    | store hp => exact .cons (.word hp.target.1) .nil

theorem SameHeap.has_iff (hs : P.SameHeap h k) (hr : P.SameRef r s) : h.Has r ↔ k.Has s := by
  cases hr with
  | word hw => exact hs.word_lt hw
  | object ho => exact hs.object_lt ho

/-- What is on a heap and belongs to nothing was there from the beginning, as it is. -/
theorem SameHeap.untouched_left (hs : P.SameHeap h k) (hr : ¬ ∃ s, P.SameRef r s) :
    h.refsOf r = m.heap.refsOf r ∧ (h.Has r → m.heap.Has r) := by
  cases r with
  | word w =>
    have hn : ¬ ∃ u, P.word w u := fun hw => hr (hw.elim fun u hu => ⟨.word u, .word hu⟩)
    refine ⟨by rw [Heap.refsOf, Heap.refsOf, hs.left.words w hn], fun _ => ?_⟩
    refine Nat.lt_of_not_le fun hle => hn ⟨⟨m'.heap.words.size + (w.index - m.heap.words.size)⟩, ?_⟩
    have hnew := P.word_new (w.index - m.heap.words.size)
    rwa [Nat.add_sub_cancel' hle] at hnew
  | object o =>
    have hn : ¬ ∃ p, P.object o p := fun ho => hr (ho.elim fun p hp => ⟨.object p, .object hp⟩)
    refine ⟨by rw [Heap.refsOf, Heap.refsOf, hs.left.objects o hn], fun _ => ?_⟩
    refine Nat.lt_of_not_le fun hle => hn
      ⟨⟨m'.heap.objects.size + (o.index - m.heap.objects.size)⟩, ?_⟩
    have hnew := P.object_new (o.index - m.heap.objects.size)
    rwa [Nat.add_sub_cancel' hle] at hnew

theorem SameHeap.untouched_right (hs : P.SameHeap h k) (hr : ¬ ∃ s, P.SameRef s r) :
    k.refsOf r = m'.heap.refsOf r ∧ (k.Has r → m'.heap.Has r) := by
  cases r with
  | word u =>
    have hn : ¬ ∃ w, P.word w u := fun hu => hr (hu.elim fun w hw => ⟨.word w, .word hw⟩)
    refine ⟨by rw [Heap.refsOf, Heap.refsOf, hs.right.words u hn], fun _ => ?_⟩
    refine Nat.lt_of_not_le fun hle => hn ⟨⟨m.heap.words.size + (u.index - m'.heap.words.size)⟩, ?_⟩
    have hnew := P.word_new (u.index - m'.heap.words.size)
    rwa [Nat.add_sub_cancel' hle] at hnew
  | object p =>
    have hn : ¬ ∃ o, P.object o p := fun hp => hr (hp.elim fun o ho => ⟨.object o, .object ho⟩)
    refine ⟨by rw [Heap.refsOf, Heap.refsOf, hs.right.objects p hn], fun _ => ?_⟩
    refine Nat.lt_of_not_le fun hle => hn
      ⟨⟨m.heap.objects.size + (p.index - m'.heap.objects.size)⟩, ?_⟩
    have hnew := P.object_new (p.index - m'.heap.objects.size)
    rwa [Nat.add_sub_cancel' hle] at hnew

/-- The words that handle operators belong together. -/
theorem SameTypes.handlerWords {t t' : Types} (ht : P.SameTypes t t') :
    List.Forall₂ P.word t.handlerWords t'.handlerWords := by
  refine forall₂_filterMap (forall₂_append ht.objects ht.users) fun e f hef => ?_
  have hh := hef.handler?
  generalize e.handler? = c at hh
  generalize f.handler? = d at hh
  cases hh with
  | none => exact .none
  | some hh =>
    cases hh with
    | strings => exact .none
    | host _ => exact .none
    | word hw => exact .some hw

/-- The references that two machines hold belong together, but for those of the dictionaries. -/
theorem Alike.roots_eq (h : P.Alike x y) : ∃ as bs cs ds,
    x.roots = as ++ (x.dictionary.entries.map fun e => .word e.2) ++ cs ∧
    y.roots = bs ++ (y.dictionary.entries.map fun e => .word e.2) ++ ds ∧
    List.Forall₂ P.SameRef as bs ∧ List.Forall₂ P.SameRef cs ds := by
  have hvalues : ∀ {vs us : List Value}, List.Forall₂ P.SameValue vs us →
      List.Forall₂ P.SameRef (vs.flatMap Value.refs) (us.flatMap Value.refs) :=
    fun hv => forall₂_flatMap hv fun _ _ hab => hab.refs
  have hframes : List.Forall₂ P.SameRef (x.frames.map fun f => .word f.word)
      (y.frames.map fun f => .word f.word) :=
    List.forall₂_map_left_iff.2 (List.forall₂_map_right_iff.2
      (h.frames.imp fun _ _ hf => .word hf.word.1))
  have hruns : List.Forall₂ P.SameRef (x.runs.flatMap fun r => Machine.pendingRefs r.pending)
      (y.runs.flatMap fun r => Machine.pendingRefs r.pending) :=
    forall₂_flatMap h.runs fun _ _ hr => hr.pending.refs
  have hhandlers : List.Forall₂ P.SameRef (x.types.handlerWords.map .word)
      (y.types.handlerWords.map .word) :=
    List.forall₂_map_left_iff.2 (List.forall₂_map_right_iff.2
      (h.types.handlerWords.imp fun _ _ hw => .word hw))
  have hbuilding : List.Forall₂ P.SameRef (x.compiler.building?.toList.map .word)
      (y.compiler.building?.toList.map .word) := by
    have hb := h.building
    generalize x.compiler.building? = c at hb
    generalize y.compiler.building? = d at hb
    cases hb with
    | none => exact .nil
    | some hw => exact .cons (.word hw.1) .nil
  exact ⟨_, _, _, _, by rw [Machine.roots, List.append_assoc (_ ++ _)],
    by rw [Machine.roots, List.append_assoc (_ ++ _)],
    forall₂_append (forall₂_append (forall₂_append (forall₂_append (hvalues h.data.items)
      (hvalues h.temp.items)) (hvalues h.self.items)) hframes) hruns,
    forall₂_append hhandlers hbuilding⟩

/-! ## Machines of which everything that is alive belongs together -/

/-- All that is alive on the two machines belongs together and has the same code, and the names lead
    there.  The words created last belong together, or to nothing, and objects that belong together
    are at the same address. -/
structure Complete (P : Pairing m m') : Prop where
  shared : ∀ {w u}, P.word w u → P.shared w
  names : ∀ n, Option.Rel P.word (m.dictionary.lookup? n) (m'.dictionary.lookup? n)
  left : ∀ r, m.heap.Alive m.roots r → ∃ s, P.SameRef r s
  right : ∀ s, m'.heap.Alive m'.roots s → ∃ r, P.SameRef r s
  last : Option.Rel P.word m.compiler.last? m'.compiler.last? ∨
    (∀ w ∈ m.compiler.last?, ∀ u, ¬ P.word w u) ∧ ∀ u ∈ m'.compiler.last?, ∀ w, ¬ P.word w u
  addresses : ∀ {o p}, P.object o p → m.addresses o = m'.addresses p

namespace Complete

variable (hP : P.Complete)
include hP

theorem lookup? (hxy : P.Alike x y) (n : Name) :
    Option.Rel P.word (x.dictionary.lookup? n) (y.dictionary.lookup? n) := by
  rcases hxy.names n with hr | ⟨hx, hy⟩
  · exact hr
  · rw [hx, hy]
    exact hP.names n

theorem emits : P.Emits :=
  fun n _ => hP.names (.ofString n)

theorem refsOf (hs : P.SameHeap h k) (hr : P.SameRef r s) :
    List.Forall₂ P.SameRef (h.refsOf r) (k.refsOf s) := by
  cases hr with
  | word hw => exact forall₂_flatMap (hs.body ⟨hw, hP.shared hw⟩) fun _ _ he => he.refs
  | object ho => exact forall₂_flatMap (hs.object ho).items fun _ _ hv => hv.refs

/-- Each name of one dictionary is bound in the other one, to a word that belongs to it. -/
theorem entries (hxy : P.Alike x y) :
    Matched (fun e f : Name × WordId => e.1 = f.1 ∧ P.word e.2 f.2) x.dictionary.entries
      y.dictionary.entries where
  left := by
    rintro ⟨n, w⟩ he
    have hl := hP.lookup? hxy n
    rw [hxy.distinct.1.lookup?_eq_some_iff.2 he] at hl
    generalize hy : y.dictionary.lookup? n = s at hl
    cases hl with
    | @some _ u hw => exact ⟨(n, u), hxy.distinct.2.lookup?_eq_some_iff.1 hy, rfl, hw⟩
  right := by
    rintro ⟨n, u⟩ he
    have hl := hP.lookup? hxy n
    rw [hxy.distinct.2.lookup?_eq_some_iff.2 he] at hl
    generalize hx : x.dictionary.lookup? n = s at hl
    cases hl with
    | @some w _ hw => exact ⟨(n, w), hxy.distinct.1.lookup?_eq_some_iff.1 hx, rfl, hw⟩

theorem roots (hxy : P.Alike x y) : Matched P.SameRef x.roots y.roots := by
  obtain ⟨as, bs, cs, ds, hx, hy, hab, hcd⟩ := hxy.roots_eq
  have hentries : Matched P.SameRef (x.dictionary.entries.map fun e => .word e.2)
      (y.dictionary.entries.map fun e => .word e.2) := by
    have he := hP.entries hxy
    constructor
    · intro r hr
      obtain ⟨e, hmem, rfl⟩ := List.mem_map.1 hr
      obtain ⟨f, hf, hef⟩ := he.left e hmem
      exact ⟨_, List.mem_map_of_mem hf, .word hef.2⟩
    · intro r hr
      obtain ⟨f, hmem, rfl⟩ := List.mem_map.1 hr
      obtain ⟨e, hm, hef⟩ := he.right f hmem
      exact ⟨_, List.mem_map_of_mem hm, .word hef.2⟩
  rw [hx, hy]
  exact ((matched_of_forall₂ hab).append hentries).append (matched_of_forall₂ hcd)

theorem related_left (hxy : P.Alike x y) (hr : x.heap.Alive x.roots r) : ∃ s, P.SameRef r s := by
  refine Heap.Alive.of_outside (S := fun r => ∃ s, P.SameRef r s) ?_ ?_
    (fun s hs => hxy.heap.untouched_left hs) hP.left hr
  · intro r hr
    obtain ⟨s, -, hrs⟩ := (hP.roots hxy).left r hr
    exact ⟨s, hrs⟩
  · rintro s ⟨t, hst⟩ r hr
    obtain ⟨u, -, hru⟩ := (matched_of_forall₂ (hP.refsOf hxy.heap hst)).left r hr
    exact ⟨u, hru⟩

theorem related_right (hxy : P.Alike x y) (hr : y.heap.Alive y.roots r) : ∃ s, P.SameRef s r := by
  refine Heap.Alive.of_outside (S := fun r => ∃ s, P.SameRef s r) ?_ ?_
    (fun s hs => hxy.heap.untouched_right hs) hP.right hr
  · intro r hr
    obtain ⟨s, -, hrs⟩ := (hP.roots hxy).right r hr
    exact ⟨s, hrs⟩
  · rintro s ⟨t, hst⟩ r hr
    obtain ⟨u, -, hru⟩ := (matched_of_forall₂ (hP.refsOf hxy.heap hst)).right r hr
    exact ⟨u, hru⟩

/-- **What belongs together is alive on both machines or on neither.** -/
theorem alive_iff (hxy : P.Alike x y) (hrs : P.SameRef r s) :
    x.heap.Alive x.roots r ↔ y.heap.Alive y.roots s := by
  constructor
  · exact Heap.Alive.of_matched (fun h h' => h.iff h') (fun h => (hxy.heap.has_iff h).1)
      (hP.roots hxy).left (fun h => (matched_of_forall₂ (hP.refsOf hxy.heap h)).left)
      (fun _ => hP.related_left hxy) hrs
  · exact Heap.Alive.of_matched (R := fun s r => P.SameRef r s) (fun h h' => (h.iff h').symm)
      (fun h => (hxy.heap.has_iff h).2) (hP.roots hxy).right
      (fun h => (matched_of_forall₂ (hP.refsOf hxy.heap h)).right)
      (fun _ => hP.related_right hxy) hrs

/-! ## The answers -/

theorem isAlive_iff (hxy : P.Alike x y) {w u : WordId} (hw : P.word w u) :
    x.heap.isAlive x.roots w ↔ y.heap.isAlive y.roots u := by
  rw [Heap.isAlive_iff, Heap.isAlive_iff, hP.alive_iff hxy (.word hw)]
  refine or_congr_left ⟨fun hr => ?_, fun hr => ?_⟩
  · obtain ⟨s, hs, hrs⟩ := (hP.roots hxy).left _ hr
    exact (hrs.iff (.word hw)).1 rfl ▸ hs
  · obtain ⟨s, hs, hrs⟩ := (hP.roots hxy).right _ hr
    exact (hrs.iff (.word hw)).2 rfl ▸ hs

/-- A word that belongs to nothing is not alive. -/
theorem dead_left (hxy : P.Alike x y) {w : WordId} (hw : ∀ u, ¬ P.word w u) :
    ¬ x.heap.isAlive x.roots w = true := by
  rw [Heap.isAlive_iff]
  rintro (hr | hr)
  · obtain ⟨s, -, hs⟩ := (hP.roots hxy).left _ hr
    cases hs with
    | word h => exact hw _ h
  · obtain ⟨s, hs⟩ := hP.related_left hxy hr
    cases hs with
    | word h => exact hw _ h

theorem dead_right (hxy : P.Alike x y) {u : WordId} (hu : ∀ w, ¬ P.word w u) :
    ¬ y.heap.isAlive y.roots u = true := by
  rw [Heap.isAlive_iff]
  rintro (hr | hr)
  · obtain ⟨s, -, hs⟩ := (hP.roots hxy).right _ hr
    cases hs with
    | word h => exact hu _ h
  · obtain ⟨s, hs⟩ := hP.related_right hxy hr
    cases hs with
    | word h => exact hu _ h

theorem latest (hxy : P.Alike x y) : SameExcept P.SameCallee x.latest y.latest := by
  have hsame : Option.Rel P.word x.compiler.last? y.compiler.last? →
      SameExcept P.SameCallee x.latest y.latest := by
    intro hl
    unfold Machine.latest Compiler.last
    generalize x.compiler.last? = c at hl
    generalize y.compiler.last? = d at hl
    cases hl with
    | none => exact .error _
    | some hw =>
      dsimp only
      rw [Bool.eq_iff_iff.2 (hP.isAlive_iff hxy hw)]
      split
      · exact .ok ⟨hw, hP.shared hw⟩
      · exact .error _
  rcases hxy.last with hl | ⟨hx, hy⟩
  · exact hsame hl
  · rcases hP.last with hl | ⟨hleft, hright⟩
    · exact hsame (by rw [hx, hy]; exact hl)
    · rw [Machine.latest_of_dead fun w hw => hP.dead_left hxy (hleft w (hx ▸ hw)),
        Machine.latest_of_dead fun u hu => hP.dead_right hxy (hright u (hy ▸ hu))]
      exact .error _

open Classical in
theorem occurrencesAmong_eq (hxy : P.Alike x y) {o p : ObjId} (ho : P.object o p) :
    x.heap.occurrencesAmong (x.heap.Alive x.roots) o =
      y.heap.occurrencesAmong (y.heap.Alive y.roots) p := by
  have hmatched : Matched P.SameRef
      (x.heap.everything.filter fun r => decide (x.heap.Alive x.roots r))
      (y.heap.everything.filter fun r => decide (y.heap.Alive y.roots r)) := by
    constructor
    · intro r hr
      have ha : x.heap.Alive x.roots r := of_decide_eq_true (List.mem_filter.1 hr).2
      obtain ⟨s, hs⟩ := hP.related_left hxy ha
      have ha' := (hP.alive_iff hxy hs).1 ha
      exact ⟨s, List.mem_filter.2 ⟨Heap.mem_everything.2 ha'.has, decide_eq_true ha'⟩, hs⟩
    · intro s hs
      have ha : y.heap.Alive y.roots s := of_decide_eq_true (List.mem_filter.1 hs).2
      obtain ⟨r, hr⟩ := hP.related_right hxy ha
      have ha' := (hP.alive_iff hxy hr).2 ha
      exact ⟨r, List.mem_filter.2 ⟨Heap.mem_everything.2 ha'.has, decide_eq_true ha'⟩, hr⟩
  refine List.Perm.sum_nat (hmatched.map_perm (fun h h' => h.iff h')
    (x.heap.nodup_everything.filter _) (y.heap.nodup_everything.filter _) fun r s hrs => ?_)
  rw [← count_refsOf, ← count_refsOf]
  exact count_eq_of_forall₂ (fun h h' => h.iff h') (hP.refsOf hxy.heap hrs) (.object ho)

/-- **Objects that belong together are referred to equally often.** -/
theorem references_eq (hxy : P.Alike x y) {o p : ObjId} (ho : P.object o p) :
    x.heap.references x.roots o = y.heap.references y.roots p := by
  classical
  have hroots : x.roots.count (.object o) = y.roots.count (.object p) := by
    obtain ⟨as, bs, cs, ds, hx, hy, hab, hcd⟩ := hxy.roots_eq
    have hcount : ∀ {rs ss : List Ref}, List.Forall₂ P.SameRef rs ss →
        rs.count (.object o) = ss.count (.object p) :=
      fun hrs => count_eq_of_forall₂ (fun h h' => h.iff h') hrs (.object ho)
    rw [hx, hy, List.count_append, List.count_append, List.count_append, List.count_append,
      hcount hab, hcount hcd, count_map_word Prod.snd, count_map_word Prod.snd]
  rw [Heap.references_eq, Heap.references_eq, hroots,
    hP.occurrencesAmong_eq hxy ho]

theorem topCount_eq (hxy : P.Alike x y) : x.topCount = y.topCount := by
  have htop := hxy.data.peek? 0
  unfold Machine.topCount
  generalize x.data.peek? 0 = c at htop
  generalize y.data.peek? 0 = d at htop
  cases htop with
  | none => rfl
  | @some v t hv =>
    show x.heap.liveCount? x.roots v = y.heap.liveCount? y.roots t
    by_cases hn : ∃ n o, x.heap.follow v n = .ok (.obj o)
    · obtain ⟨n, o, hn⟩ := hn
      have hf := hxy.heap.follow hv n
      rw [hn] at hf
      generalize hk : y.heap.follow t n = r at hf
      cases hf with
      | ok hr =>
        cases hr with
        | plain hr => cases hr
        | obj ho =>
          rw [Heap.liveCount?_of_follow hn, Heap.liveCount?_of_follow hk, hP.references_eq hxy ho]
    · have hnone : ∀ n p, y.heap.follow t n ≠ .ok (.obj p) := by
        intro n p hk
        have hf := hxy.heap.follow hv n
        rw [hk] at hf
        generalize hh : x.heap.follow v n = r at hf
        cases hf with
        | ok hr =>
          cases hr with
          | plain hr => cases hr
          | obj _ => exact hn ⟨n, _, hh⟩
      rw [Heap.liveCount?_of_not_follow fun n o ho => hn ⟨n, o, ho⟩,
        Heap.liveCount?_of_not_follow hnone]

theorem topAddress_eq (hxy : P.Alike x y) : x.topAddress = y.topAddress := by
  have htop := hxy.data.peek? 0
  unfold Machine.topAddress
  generalize x.data.peek? 0 = c at htop
  generalize y.data.peek? 0 = d at htop
  cases htop with
  | none => rfl
  | some hv =>
    cases hv with
    | plain hv => cases ‹Value› <;> first | rfl | cases hv
    | xt _ => rfl
    | ptr _ => rfl
    | obj ho =>
      dsimp only
      rw [(hxy.heap.object ho).hashesAddress, hxy.addresses.1, hxy.addresses.2, hP.addresses ho]

theorem names_eq (hxy : P.Alike x y) : x.dictionary.names x.heap = y.dictionary.names y.heap := by
  have hperm : (x.dictionary.entries.map fun e =>
      if (x.heap.word e.2).hidden then none else some (x.heap.word e.2).name.text).Perm
      (y.dictionary.entries.map fun e =>
        if (y.heap.word e.2).hidden then none else some (y.heap.word e.2).name.text) := by
    refine (hP.entries hxy).map_perm ?_ (List.Nodup.of_map Prod.fst hxy.distinct.1)
      (List.Nodup.of_map Prod.fst hxy.distinct.2) ?_
    · rintro ⟨n, w⟩ ⟨n', u⟩ ⟨k, v⟩ ⟨k', t⟩ ⟨hn, hw⟩ ⟨hk, hv⟩
      rw [Prod.mk.injEq, Prod.mk.injEq, P.word_iff hw hv, show n = n' from hn, show k = k' from hk]
    · rintro e f ⟨-, hw⟩
      rw [hxy.heap.hidden hw, hxy.heap.name hw]
  have hshown := hperm.filterMap id
  rw [List.filterMap_map, List.filterMap_map] at hshown
  refine List.Perm.eq_of_pairwise (fun a b _ _ => String.le_antisymm)
    (Dictionary.pairwise_mergeSort_texts _) (Dictionary.pairwise_mergeSort_texts _) ?_
  exact ((List.mergeSort_perm _ _).trans hshown).trans (List.mergeSort_perm _ _).symm

/-- **Nothing that a primitive asks tells the machines apart.** -/
theorem allows (hxy : P.Alike x y) (p : Primitive) : P.Allows p x y where
  last := fun _ => hP.latest hxy
  count := fun _ => hP.topCount_eq hxy
  address := fun _ => hP.topAddress_eq hxy
  handler := fun _ => hP.lookup? hxy _
  token := fun _ _ _ => hP.lookup? hxy _
  listed := fun _ t w _ hw => by
    have hf := hxy.find? (hP.lookup? hxy (.ofString t))
    rw [hw] at hf
    generalize y.find? t = s at hf
    cases hf with
    | some hw => exact hP.shared hw
  names := fun _ => hP.names_eq hxy

theorem allowsRun (x y : Machine) : P.AllowsRun x y where
  answers := fun _ _ _ p _ _ h _ => hP.allows h p
  entered := fun _ _ _ _ _ ⟨_, hw⟩ => hP.shared hw

theorem allowsToken (hxy : P.Alike x y) (token : String) : P.AllowsToken token x y :=
  ⟨hP.lookup? hxy _, fun _ _ _ _ => hP.allowsRun _ _, fun _ => hP.latest hxy⟩

theorem allowsLine (hxy : P.Alike x y) (fuel n : Nat) : P.AllowsLine fuel n x y := by
  induction n generalizing x y with
  | zero => exact trivial
  | succ n ih =>
    intro token x₁ y₁ hx hy
    have ht := nextSourceToken x y hxy
    rw [hx, hy] at ht
    cases ht with
    | ok _ h₁ =>
      refine ⟨hP.allowsToken h₁ token, fun x₂ y₂ hx₂ hy₂ => ?_⟩
      have hend := h₁.interpretToken hP.emits (hP.allowsToken h₁ token) fuel
      rw [hx₂, hy₂] at hend
      cases hend with
      | some hr =>
        cases hr with
        | ok _ h₂ => exact ih h₂

/-- **Lines do the same to machines of which everything that is alive belongs together.** -/
theorem processLine (hxy : P.Alike x y) (fuel : Nat) :
    P.SameEnd (Machine.processLine fuel x) (Machine.processLine fuel y) :=
  hxy.processLine hP.emits (hP.allowsLine hxy fuel _)

end Complete
end Pairing
end ThreadedForth
