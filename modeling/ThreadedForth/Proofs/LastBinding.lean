/-
  The dictionary over a history of requests.
-/
import Mathlib.Data.List.Basic
import Mathlib.Data.List.Induction
import ThreadedForth.Dictionary
import ThreadedForth.Proofs.HeapShape

namespace ThreadedForth

theorem Name.eq_ofString_iff {n : Name} {s : String} : n = .ofString s ↔ n.text = foldCase s := by
  constructor
  · rintro rfl
    rfl
  · intro h
    obtain ⟨t, k, rfl⟩ := n
    cases h
    rfl

theorem Name.eq_iff {a b : Name} : a = b ↔ a.text = b.text := by
  obtain ⟨s, k, rfl⟩ := a
  obtain ⟨t, l, rfl⟩ := b
  constructor
  · exact congrArg Name.text
  · rintro rfl
    rfl

/-- A name with its case folded is what its text denotes. -/
theorem Name.ofString_text {n : Name} (hn : foldCase n.text = n.text) : .ofString n.text = n :=
  Name.eq_iff.2 hn

namespace Dictionary

/-! ## Requests -/

/-- What is asked of a dictionary. -/
inductive Request where
  /-- Bind a word under its own name. -/
  | add (w : WordId)
  /-- Forget the word of a name. -/
  | forget (name : String)
  /-- Hide a word, which stays bound if it is. -/
  | hide (w : WordId)
deriving DecidableEq

/-- A dictionary and the words, after a request.  A refused one changes nothing. -/
def serve (s : Dictionary × Heap) : Request → Dictionary × Heap
  | .add w => (s.1.add s.2 w).2
  | .forget name =>
    match s.1.forget s.2 name with
    | .ok r => r.2
    | .error _ => s
  | .hide w => (s.1, s.2.updateWord w fun x => { x with hidden := true })

/-- A new dictionary and the words of a heap, after some requests. -/
def served (h : Heap) (qs : List Request) : Dictionary × Heap :=
  qs.foldl serve ({}, h)

theorem served_concat (h : Heap) (qs : List Request) (q : Request) :
    served h (qs ++ [q]) = serve (served h qs) q := by
  rw [served, List.foldl_append, List.foldl_cons, List.foldl_nil, served]

/-- The word that a name leads to after some requests. -/
def found (h : Heap) (qs : List Request) (name : String) : Option WordId :=
  (served h qs).1.find? (served h qs).2 name

/-- Whether a request ends that a word can be found under its name: another word gets the name, or
    the same one anew; the name is forgotten; or the word is hidden. -/
def Request.Ends (s : Dictionary × Heap) (w : WordId) : Request → Prop
  | .add v => (s.2.word v).name.text = (s.2.word w).name.text
  | .forget name => foldCase name = (s.2.word w).name.text ∧ ∃ r, s.1.forget s.2 name = .ok r
  | .hide v => v = w

/-- A word was added, and no later request has ended that. -/
def Lasts (h : Heap) (qs : List Request) (w : WordId) : Prop :=
  ∃ before later, qs = before ++ .add w :: later ∧
    ∀ a q b, later = a ++ q :: b → ¬q.Ends (served h (before ++ .add w :: a)) w

theorem lasts_nil (h : Heap) (w : WordId) : ¬Lasts h [] w := by
  rintro ⟨before, later, he, -⟩
  simp at he

/-- The last request has added the word, or has not ended that it was added before. -/
theorem lasts_concat (h : Heap) (qs : List Request) (q : Request) (w : WordId) :
    Lasts h (qs ++ [q]) w ↔ q = .add w ∨ Lasts h qs w ∧ ¬q.Ends (served h qs) w := by
  constructor
  · rintro ⟨before, later, he, hno⟩
    rcases List.eq_nil_or_concat later with rfl | ⟨later, q', rfl⟩
    · obtain ⟨-, hq⟩ := List.append_inj' he rfl
      exact .inl (List.singleton_inj.1 hq)
    · have he : qs ++ [q] = (before ++ .add w :: later) ++ [q'] := by simpa using he
      obtain ⟨rfl, hq⟩ := List.append_inj' he rfl
      obtain rfl := List.singleton_inj.1 hq
      refine .inr ⟨⟨before, later, rfl, fun a p b hp => ?_⟩, hno later q [] (by simp)⟩
      exact hno a p (b ++ [q]) (by simp [hp])
  · rintro (rfl | ⟨⟨before, later, rfl, hno⟩, hq⟩)
    · exact ⟨qs, [], rfl, fun a q b hab => by simp at hab⟩
    · refine ⟨before, later ++ [q], by simp, fun a p b hp => ?_⟩
      rcases List.eq_nil_or_concat b with rfl | ⟨b, p', rfl⟩
      · obtain ⟨rfl, hqp⟩ := List.append_inj' hp rfl
        obtain rfl := List.singleton_inj.1 hqp
        exact hq
      · have hp : later ++ [q] = (a ++ p :: b) ++ [p'] := by simpa using hp
        exact hno a p b (List.append_inj' hp rfl).1

/-! ## The invariant -/

/-- A dictionary and its words, when the words came from a heap: only their flags have changed.
    Each name is bound once, to a word that has the name, and its case is folded. -/
structure Proper (h : Heap) (s : Dictionary × Heap) : Prop where
  size_eq : s.2.words.size = h.words.size
  name_eq : ∀ w, (s.2.word w).name = (h.word w).name
  builtin_eq : ∀ w, (s.2.word w).builtin = (h.word w).builtin
  once : s.1.entries.Pairwise fun e e' => e.1 ≠ e'.1
  has : ∀ e ∈ s.1.entries, h.Has (.word e.2)
  name : ∀ e ∈ s.1.entries, (h.word e.2).name = e.1
  folded : ∀ e ∈ s.1.entries, foldCase e.1.text = e.1.text

/-- A word that may be added: it exists, and the case of its name is folded. -/
def Addable (h : Heap) (w : WordId) : Prop :=
  h.Has (.word w) ∧ foldCase (h.word w).name.text = (h.word w).name.text

variable {h : Heap} {s : Dictionary × Heap} {d : Dictionary} {w v : WordId} {name : String} {n : Name}

/-- What a successful `forget` does. -/
theorem forget_eq_ok {r : WordId × Dictionary × Heap} (hr : d.forget h name = .ok r) :
    ∃ w, d.lookup? (.ofString name) = some w ∧ (h.word w).builtin = false ∧
      r = (w, d.unbind (.ofString name), h.updateWord w fun x => { x with hidden := true }) := by
  unfold forget at hr
  cases hl : d.lookup? (.ofString name) with
  | none =>
    rw [hl] at hr
    cases hr
  | some w =>
    rw [hl] at hr
    dsimp only at hr
    split at hr
    · cases hr
    · rename_i hb
      exact ⟨w, rfl, Bool.eq_false_iff.2 hb, (Except.ok.inj hr).symm⟩

theorem Proper.empty (h : Heap) : Proper h ({}, h) where
  size_eq := rfl
  name_eq _ := rfl
  builtin_eq _ := rfl
  once := .nil
  has _ he := absurd he List.not_mem_nil
  name _ he := absurd he List.not_mem_nil
  folded _ he := absurd he List.not_mem_nil

theorem word_setHidden (h : Heap) (w v : WordId) (b : Bool) :
    (h.updateWord w fun x => { x with hidden := b }).word v =
      if v = w ∧ w.index < h.words.size then { h.word w with hidden := b } else h.word v :=
  h.word_setWord w v _

theorem hidden_setHidden (hw : h.Has (.word w)) (v : WordId) (b : Bool) :
    ((h.updateWord w fun x => { x with hidden := b }).word v).hidden =
      if v = w then b else (h.word v).hidden := by
  rw [word_setHidden]
  by_cases hv : v = w
  · rw [if_pos ⟨hv, hw⟩, if_pos hv]
  · rw [if_neg (fun hc => hv hc.1), if_neg hv]

namespace Proper

variable (hs : Proper h s)
include hs

theorem has_iff (w : WordId) : s.2.Has (.word w) ↔ h.Has (.word w) := by
  show w.index < _ ↔ w.index < _
  rw [hs.size_eq]

/-- The flag of a word may change. -/
theorem setHidden (w : WordId) (b : Bool) :
    Proper h (s.1, s.2.updateWord w fun x => { x with hidden := b }) where
  size_eq := (Array.size_setIfInBounds ..).trans hs.size_eq
  name_eq v := by
    rw [word_setHidden]
    split
    · rename_i hv
      rw [hv.1]
      exact hs.name_eq w
    · exact hs.name_eq v
  builtin_eq v := by
    rw [word_setHidden]
    split
    · rename_i hv
      rw [hv.1]
      exact hs.builtin_eq w
    · exact hs.builtin_eq v
  once := hs.once
  has := hs.has
  name := hs.name
  folded := hs.folded

theorem unbind (n : Name) : Proper h (s.1.unbind n, s.2) :=
  { hs with
    once := hs.once.sublist List.filter_sublist
    has := fun e he => hs.has e (List.mem_filter.1 he).1
    name := fun e he => hs.name e (List.mem_filter.1 he).1
    folded := fun e he => hs.folded e (List.mem_filter.1 he).1 }

theorem bind (hw : Addable h w) : Proper h (s.1.bind (h.word w).name w, s.2) :=
  have hu := hs.unbind (h.word w).name
  { hs with
    once := by
      refine List.pairwise_cons.2 ⟨fun e he hn => ?_, hu.once⟩
      have hne := (List.mem_filter.1 he).2
      rw [← hn, Name.same_self] at hne
      cases hne
    has := List.forall_mem_cons.2 ⟨hw.1, hu.has⟩
    name := List.forall_mem_cons.2 ⟨rfl, hu.name⟩
    folded := List.forall_mem_cons.2 ⟨hw.2, hu.folded⟩ }

/-- **A request keeps the invariant.** -/
theorem serve {q : Request} (hq : ∀ w, q = .add w → Addable h w) : Proper h (serve s q) := by
  cases q with
  | add w =>
    have hb := (hs.bind (hq w rfl)).setHidden w false
    rwa [← hs.name_eq] at hb
  | forget name =>
    rw [Dictionary.serve]
    cases hf : s.1.forget s.2 name with
    | error e => exact hs
    | ok r =>
      obtain ⟨w, -, -, rfl⟩ := forget_eq_ok hf
      exact (hs.unbind _).setHidden w true
  | hide w => exact hs.setHidden w true

/-- A name is bound to a word if it stands with it in the dictionary. -/
theorem lookup?_eq_some_iff : s.1.lookup? n = some w ↔ (n, w) ∈ s.1.entries := by
  have honce := hs.once
  rw [lookup?]
  generalize s.1.entries = es at honce
  induction es with
  | nil => simp
  | cons e es ih =>
    obtain ⟨hne, honce⟩ := List.pairwise_cons.1 honce
    rw [List.find?_cons, List.mem_cons]
    cases hn : n.same e.1 with
    | true =>
      obtain rfl := Name.same_iff.1 hn
      constructor
      · intro hw
        obtain rfl := Option.some.inj hw
        exact .inl rfl
      · rintro (he | hmem)
        · rw [← he]
          rfl
        · exact absurd rfl (hne (e.1, w) hmem)
    | false =>
      have hne' : n ≠ e.1 := fun he => by simp [he] at hn
      exact (ih honce).trans (or_iff_right fun he => hne' (congrArg Prod.fst he)).symm

theorem of_lookup? (hw : s.1.lookup? n = some w) : h.Has (.word w) ∧ (h.word w).name = n :=
  have he := hs.lookup?_eq_some_iff.1 hw
  ⟨hs.has _ he, hs.name _ he⟩

end Proper

theorem find?_eq_some_iff : d.find? h name = some w ↔
    d.lookup? (.ofString name) = some w ∧ (h.word w).hidden = false := by
  rw [find?, Option.filter_eq_some_iff, Bool.not_eq_true']

/-! ## What a request changes -/

/-- **After a request, a name leads to the word that it has added, or to the same word as before
    if it has not ended that.** -/
theorem find?_serve (hs : Proper h s) {q : Request} (hq : ∀ w, q = .add w → Addable h w) :
    (serve s q).1.find? (serve s q).2 name = some w ↔
      q = .add w ∧ (h.word w).name.text = foldCase name ∨
        s.1.find? s.2 name = some w ∧ ¬q.Ends s w := by
  have hname : s.1.lookup? (.ofString name) = some w → (s.2.word w).name = .ofString name :=
    fun hw => (hs.name_eq w).trans (hs.of_lookup? hw).2
  rw [find?_eq_some_iff, find?_eq_some_iff]
  cases q with
  | add v =>
    obtain ⟨hv, -⟩ := hq v rfl
    show (s.1.bind (s.2.word v).name v).lookup? _ = some w ∧
      ((s.2.updateWord v fun x => { x with hidden := false }).word w).hidden = false ↔ _
    rw [lookup?_bind, hidden_setHidden ((hs.has_iff v).2 hv), Request.add.injEq, Request.Ends,
      ← Name.eq_iff, ← Name.eq_ofString_iff, ← hs.name_eq]
    by_cases hn : .ofString name = (s.2.word v).name
    · rw [if_pos hn, Option.some.injEq]
      constructor
      · rintro ⟨rfl, -⟩
        exact .inl ⟨rfl, hn.symm⟩
      · rintro (⟨rfl, -⟩ | ⟨⟨hw, -⟩, hne⟩)
        · exact ⟨rfl, if_pos rfl⟩
        · exact absurd (hn.symm.trans (hname hw).symm) hne
    · rw [if_neg hn]
      constructor
      · rintro ⟨hw, hh⟩
        have hne : w ≠ v := fun he => hn (he ▸ (hname hw).symm)
        rw [if_neg hne] at hh
        exact .inr ⟨⟨hw, hh⟩, fun he => hn ((hname hw).symm.trans he.symm)⟩
      · rintro (⟨rfl, he⟩ | ⟨⟨hw, hh⟩, hne⟩)
        · exact absurd he.symm hn
        · have hv : w ≠ v := by
            rintro rfl
            exact hne rfl
          exact ⟨hw, by rw [if_neg hv, hh]⟩
  | forget k =>
    rw [serve, Request.Ends]
    cases hf : s.1.forget s.2 k with
    | error e => simp
    | ok r =>
      obtain ⟨v, hv, -, rfl⟩ := forget_eq_ok hf
      obtain ⟨hhas, hvk⟩ := hs.of_lookup? hv
      simp only [reduceCtorEq, false_and, false_or, Except.ok.injEq, exists_eq', and_true]
      rw [lookup?_unbind, hidden_setHidden ((hs.has_iff v).2 hhas)]
      by_cases hn : Name.ofString name = .ofString k
      · rw [if_pos hn]
        refine iff_of_false (by simp) ?_
        rintro ⟨⟨hw, -⟩, hne⟩
        exact hne (by rw [hname hw, Name.text_ofString, Name.ofString_eq_iff.1 hn])
      · rw [if_neg hn]
        have hne : s.1.lookup? (.ofString name) = some w → w ≠ v := by
          rintro hw rfl
          exact hn ((hs.of_lookup? hw).2.symm.trans hvk)
        constructor
        · rintro ⟨hw, hh⟩
          rw [if_neg (hne hw)] at hh
          exact ⟨⟨hw, hh⟩, fun he => hn (Name.ofString_eq_iff.2 (by rw [he, hname hw]; rfl))⟩
        · rintro ⟨⟨hw, hh⟩, -⟩
          exact ⟨hw, by rw [if_neg (hne hw), hh]⟩
  | hide v =>
    show s.1.lookup? _ = some w ∧ ((s.2.updateWord v fun x => { x with hidden := true }).word w).hidden =
      false ↔ _
    simp only [reduceCtorEq, false_and, false_or, Request.Ends]
    by_cases hv : v = w
    · subst hv
      refine iff_of_false ?_ fun hc => hc.2 rfl
      rintro ⟨hw, hh⟩
      rw [hidden_setHidden ((hs.has_iff v).2 (hs.of_lookup? hw).1), if_pos rfl] at hh
      cases hh
    · have hne : ¬(w = v ∧ v.index < s.2.words.size) := fun hc => hv hc.1.symm
      rw [word_setHidden, if_neg hne]
      exact (and_iff_left hv).symm

/-! ## Visible words -/

/-- All words that are bound are visible. -/
def Visible (s : Dictionary × Heap) : Prop :=
  ∀ e ∈ s.1.entries, (s.2.word e.2).hidden = false

/-- Only the hiding of a word leaves a hidden word in the dictionary. -/
theorem Visible.serve (hs : Proper h s) (hv : Visible s) {q : Request}
    (hq : ∀ w, q = .add w → Addable h w) (hnot : ∀ w, q ≠ .hide w) : Visible (serve s q) := by
  cases q with
  | add w =>
    obtain ⟨hw, -⟩ := hq w rfl
    intro e he
    show ((s.2.updateWord w fun x => { x with hidden := false }).word e.2).hidden = false
    rw [hidden_setHidden ((hs.has_iff w).2 hw)]
    rcases List.mem_cons.1 he with rfl | he
    · rw [if_pos rfl]
    · rw [hv e (List.mem_filter.1 he).1, ite_self]
  | forget k =>
    rw [Dictionary.serve]
    cases hf : s.1.forget s.2 k with
    | error e => exact hv
    | ok r =>
      obtain ⟨w, hw, -, rfl⟩ := forget_eq_ok hf
      obtain ⟨hhas, hwk⟩ := hs.of_lookup? hw
      intro e he
      obtain ⟨he, hk⟩ := List.mem_filter.1 he
      -- the word that is hidden had the name that is no longer bound
      have hne : e.2 ≠ w := by
        intro heq
        rw [← hs.name e he, heq, hwk, Name.same_self] at hk
        cases hk
      show ((s.2.updateWord w fun x => { x with hidden := true }).word e.2).hidden = false
      rw [hidden_setHidden ((hs.has_iff w).2 hhas), if_neg hne]
      exact hv e he
  | hide w => exact absurd rfl (hnot w)

theorem Visible.find?_eq (hs : Proper h s) (hv : Visible s) (name : String) :
    s.1.find? s.2 name = s.1.lookup? (.ofString name) := by
  rw [find?]
  cases hw : s.1.lookup? (.ofString name) with
  | none => rfl
  | some w => simp [hv _ (hs.lookup?_eq_some_iff.1 hw)]

/-- `forget` fails if nothing is bound to the name, or a word that came with the machine. -/
theorem Visible.forget_eq (hs : Proper h s) (hv : Visible s) (name : String) :
    s.1.forget s.2 name =
      match s.1.find? s.2 name with
      | none => .error (.unknownWord name)
      | some w =>
        if (h.word w).builtin then .error (.cantForgetBuiltin name)
        else .ok (w, s.1.unbind (.ofString name), s.2.updateWord w fun x => { x with hidden := true }) := by
  rw [hv.find?_eq hs, forget]
  cases s.1.lookup? (.ofString name) with
  | none => rfl
  | some w =>
    dsimp only
    rw [hs.builtin_eq]

theorem Visible.add_fst (hs : Proper h s) (hv : Visible s) (hw : Addable h w) :
    (s.1.add s.2 w).1 = s.1.find? s.2 (h.word w).name.text := by
  rw [hv.find?_eq hs, Name.ofString_text hw.2, ← hs.name_eq]
  rfl

/-! ## The list of names -/

/-- The texts of the names that lead to a word, in the order of the dictionary. -/
theorem Proper.texts_eq (hs : Proper h s) :
    (s.1.entries.filterMap fun e =>
      if (s.2.word e.2).hidden then none else some (s.2.word e.2).name.text) =
    s.1.entries.filterMap fun e => if (s.2.word e.2).hidden then none else some e.1.text :=
  List.filterMap_congr fun e he => by rw [hs.name_eq, hs.name e he]

/-- The comparison by which the names are sorted. -/
theorem not_decide_lt_iff {a b : String} : (!decide (b < a)) = true ↔ a ≤ b := by
  rw [Bool.not_eq_true', decide_eq_false_iff_not, String.not_lt]

/-- The texts are sorted in this way. -/
theorem pairwise_mergeSort_texts (ts : List String) :
    (ts.mergeSort fun a b => !decide (b < a)).Pairwise (· ≤ ·) := by
  have htrans (a b c : String) : (!decide (b < a)) = true → (!decide (c < b)) = true →
      (!decide (c < a)) = true := by
    simp only [not_decide_lt_iff]
    exact String.le_trans
  have htotal (a b : String) : ((!decide (b < a)) || (!decide (a < b))) = true := by
    simp only [Bool.or_eq_true, not_decide_lt_iff]
    exact String.le_total a b
  exact (List.pairwise_mergeSort htrans htotal ts).imp not_decide_lt_iff.1

theorem names_sorted (hs : Proper h s) : (s.1.names s.2).Pairwise (· < ·) := by
  have hle : (s.1.names s.2).Pairwise (· ≤ ·) := pairwise_mergeSort_texts _
  have hne : (s.1.names s.2).Pairwise (· ≠ ·) := by
    refine (List.mergeSort_perm _ _).symm.pairwise ?_ fun hab => hab.symm
    rw [hs.texts_eq]
    refine hs.once.filterMap _ fun e e' hne t ht t' ht' => ?_
    split at ht <;> cases ht
    split at ht' <;> cases ht'
    exact fun heq => hne (Name.eq_iff.2 heq)
  refine (hle.and hne).imp fun {a b} hab => String.not_le.1 fun hba => hab.2 ?_
  exact String.le_antisymm hab.1 hba

theorem mem_names (hs : Proper h s) {t : String} :
    t ∈ s.1.names s.2 ↔ foldCase t = t ∧ ∃ w, s.1.find? s.2 t = some w := by
  rw [names, List.mem_mergeSort, hs.texts_eq, List.mem_filterMap]
  simp only [find?_eq_some_iff, hs.lookup?_eq_some_iff]
  constructor
  · rintro ⟨⟨n, w⟩, he, ht⟩
    split at ht
    · cases ht
    · rename_i hh
      obtain rfl := Option.some.inj ht
      have hf := hs.folded _ he
      exact ⟨hf, w, by rwa [Name.ofString_text hf], Bool.eq_false_iff.2 hh⟩
  · rintro ⟨hf, w, he, hh⟩
    refine ⟨_, he, ?_⟩
    rw [hh, Name.text_ofString, hf]
    rfl

theorem length_names (hs : Proper h s) (hv : Visible s) : (s.1.names s.2).length = s.1.size := by
  rw [names, List.length_mergeSort, hs.texts_eq, size]
  have hall : (s.1.entries.filterMap fun e => if (s.2.word e.2).hidden then none else some e.1.text) =
      s.1.entries.map fun e => e.1.text := by
    rw [← List.filterMap_eq_map]
    exact List.filterMap_congr fun e he => by simp [hv e he]
  rw [hall, List.length_map]

/-! ## What holds after any requests -/

section Served

variable {qs : List Request} (hqs : ∀ w, .add w ∈ qs → Addable h w)
include hqs

theorem proper_served : Proper h (served h qs) := by
  induction qs using List.reverseRecOn with
  | nil => exact .empty h
  | append_singleton qs q ih =>
    rw [served_concat]
    refine (ih fun w hw => hqs w (List.mem_append_left _ hw)).serve fun w hw => ?_
    exact hqs w (by simp [hw])

theorem found_eq_some_iff :
    found h qs name = some w ↔ (h.word w).name.text = foldCase name ∧ Lasts h qs w := by
  induction qs using List.reverseRecOn with
  | nil => exact iff_of_false (by simp [found, served, find?, lookup?]) fun hw => lasts_nil h w hw.2
  | append_singleton qs q ih =>
    have hqs' : ∀ w, .add w ∈ qs → Addable h w := fun w hw => hqs w (List.mem_append_left _ hw)
    have hq : ∀ w, q = .add w → Addable h w := fun w hw =>
      hqs w (List.mem_append_right _ (hw ▸ List.mem_cons_self))
    rw [found, served_concat]
    refine (find?_serve (proper_served hqs') hq).trans ?_
    rw [lasts_concat, and_or_left, and_comm, ← and_assoc]
    exact or_congr_right (and_congr_left fun _ => ih hqs')

theorem visible_served (hnot : ∀ w, .hide w ∉ qs) : Visible (served h qs) := by
  induction qs using List.reverseRecOn with
  | nil => exact fun e he => absurd he List.not_mem_nil
  | append_singleton qs q ih =>
    have hqs' : ∀ w, .add w ∈ qs → Addable h w := fun w hw => hqs w (List.mem_append_left _ hw)
    rw [served_concat]
    exact (ih hqs' fun w hw => hnot w (List.mem_append_left _ hw)).serve (proper_served hqs')
      (fun w hw => hqs w (by simp [hw])) fun w hw => hnot w (by simp [hw])

end Served

/-- Only a request to add the word brings it back. -/
theorem Lasts.of_append {more : List Request} (hw : Lasts h (qs ++ more) w)
    (hmore : .add w ∉ more) : Lasts h qs w := by
  induction more using List.reverseRecOn with
  | nil => rwa [List.append_nil] at hw
  | append_singleton more q ih =>
    rw [← List.append_assoc, lasts_concat] at hw
    rcases hw with rfl | ⟨hw, -⟩
    · exact absurd (by simp) hmore
    · exact ih hw fun hmem => hmore (List.mem_append_left _ hmem)

/-- **A dictionary leads from names to the words last added, whatever was asked of it.**  A name
    leads to a word exactly if the word has the name, up to case, and was added without a later
    request that has ended that.  A word that its name no longer leads to only comes back by being
    added.  The list of names is strictly sorted, and holds just those that lead to a word.  As
    long as nobody else has hidden a word, adding one returns the word that the name led to
    before, a name is forgotten unless it leads to nothing or to a word that came with the machine,
    and the list of names is as long as the dictionary.  What is refused changes nothing. -/
theorem last_binding {qs : List Request} (hqs : ∀ w, .add w ∈ qs → Addable h w) :
    (∀ name w, found h qs name = some w ↔
      (h.word w).name.text = foldCase name ∧ Lasts h qs w) ∧
    (∀ before later name w, qs = before ++ later → .add w ∉ later →
      found h before name ≠ some w → found h qs name ≠ some w) ∧
    ((served h qs).1.names (served h qs).2).Pairwise (· < ·) ∧
    (∀ name, name ∈ (served h qs).1.names (served h qs).2 ↔
      foldCase name = name ∧ ∃ w, found h qs name = some w) ∧
    (∀ name e, (served h qs).1.forget (served h qs).2 name = .error e →
      served h (qs ++ [.forget name]) = served h qs) ∧
    ((∀ w, .hide w ∉ qs) →
      (∀ w, Addable h w → ((served h qs).1.add (served h qs).2 w).1 =
        found h qs (h.word w).name.text) ∧
      (∀ name, (served h qs).1.forget (served h qs).2 name = .error (.unknownWord name) ↔
        found h qs name = none) ∧
      (∀ name, (served h qs).1.forget (served h qs).2 name = .error (.cantForgetBuiltin name) ↔
        ∃ w, found h qs name = some w ∧ (h.word w).builtin = true) ∧
      (∀ name, (∃ e, (served h qs).1.forget (served h qs).2 name = .error e) ↔
        found h qs name = none ∨ ∃ w, found h qs name = some w ∧ (h.word w).builtin = true) ∧
      ((served h qs).1.names (served h qs).2).length = (served h qs).1.size) := by
  have hs := proper_served hqs
  refine ⟨fun name w => found_eq_some_iff hqs, fun before later name w he hadd hbefore hw => ?_,
    names_sorted hs, fun name => mem_names hs, fun name e he => ?_, fun hnot => ?_⟩
  · subst he
    obtain ⟨hn, hlasts⟩ := (found_eq_some_iff hqs).1 hw
    refine hbefore ((found_eq_some_iff fun v hv => hqs v (List.mem_append_left _ hv)).2 ⟨hn, ?_⟩)
    exact hlasts.of_append hadd
  · rw [served_concat, serve, he]
  · have hv := visible_served hqs hnot
    refine ⟨fun w hw => hv.add_fst hs hw, fun name => ?_, fun name => ?_, fun name => ?_,
      length_names hs hv⟩
    all_goals
      rw [hv.forget_eq hs, ← found]
      cases found h qs name with
      | none => simp
      | some w => cases hb : (h.word w).builtin <;> simp [hb]

/-- Two words of one name, up to case. -/
def twins : Heap :=
  { words := #[.blank "Dup", .blank "dup"] }

/-- Both are added, and another name is forgotten in vain. -/
def twinRequests : List Request :=
  [.add ⟨0⟩, .add ⟨1⟩, .forget "drop"]

/-- The word that was added later is found. -/
theorem last_binding_of_twins :
    (∀ w, .add w ∈ twinRequests → Addable twins w) ∧ found twins twinRequests "DUP" = some ⟨1⟩ := by
  have haddable : ∀ w, .add w ∈ twinRequests → Addable twins w := by
    intro w hw
    simp only [twinRequests, List.mem_cons, Request.add.injEq, reduceCtorEq, List.not_mem_nil,
      or_false] at hw
    rcases hw with rfl | rfl
    · exact ⟨Nat.zero_lt_two, by decide +kernel⟩
    · exact ⟨Nat.one_lt_two, by decide +kernel⟩
  refine ⟨haddable, ((last_binding haddable).1 "DUP" ⟨1⟩).2
    ⟨by decide +kernel, [.add ⟨0⟩], [.forget "drop"], rfl, fun a q b hlater => ?_⟩⟩
  cases a with
  | nil =>
    obtain rfl := (List.cons.inj hlater).1
    exact fun hends => absurd hends.1 (by decide +kernel)
  | cons p a => simp at hlater

end Dictionary
end ThreadedForth
