/-
  New machines: where their words stand, and what their names lead to.
-/
import ThreadedForth.Proofs.SecureWords

namespace ThreadedForth

/-! ## Names from stored bytes -/

/-- The bytes that a text is stored as. -/
def storedBytes (s : String) : List UInt8 :=
  s.toByteArray.data.toList

theorem bytes_eq_storedBytes (s : String) : Utf8.bytes s = storedBytes s := by
  obtain ⟨cs, rfl⟩ : ∃ cs, s = String.ofList cs := ⟨s.toList, String.ofList_toList.symm⟩
  rw [Utf8.bytes, String.toList_ofList]
  show _ = (List.flatMap String.utf8EncodeChar cs).toByteArray.data.toList
  simp

/-- Whether no byte is a capital letter. -/
def areSmall (bs : List UInt8) : Bool :=
  bs.all fun b => b < 65 || 90 < b

/-- A text without capital letters is folded already. -/
theorem foldCase_of_areSmall {s : String} (h : areSmall (storedBytes s) = true) :
    foldCase s = s := by
  have hlower : ∀ c ∈ s.toList, c.toLower = c := by
    intro c hc
    refine dif_neg fun (hu : 65 ≤ c.val ∧ c.val ≤ 90) => ?_
    -- A capital letter is stored as a single byte, which is in the range.
    have hstored : c.val.toUInt8 ∈ storedBytes s := by
      rw [← bytes_eq_storedBytes, Utf8.bytes, List.mem_flatMap]
      refine ⟨c, hc, ?_⟩
      rw [String.utf8EncodeChar_eq_singleton (Char.utf8Size_eq_one_iff.2 (by grind))]
      exact List.mem_singleton_self _
    have hsmall := List.all_eq_true.1 h _ hstored
    simp only [Bool.or_eq_true, decide_eq_true_eq, UInt8.lt_iff_toNat_lt, UInt32.toNat_toUInt8,
      UInt32.le_iff_toNat_le] at hsmall hu
    grind
  rw [foldCase, List.map_congr_left hlower, List.map_id', String.ofList_toList]

/-- The key of a text with the given bytes. -/
def bytesKey (bs : List UInt8) : UInt32 :=
  (UInt32.ofNat (min bs.length 255) <<< 24) ||| (hashBytes bs &&& 0x00ffffff)

theorem nameKey_eq_bytesKey (s : String) : nameKey s = bytesKey (storedBytes s) := by
  rw [nameKey, bytes_eq_storedBytes]
  rfl

/-- The name that a text denotes.  It is computed from the stored bytes, which takes no decoding,
    unless there are letters to be folded. -/
def Name.stored (s : String) : Name :=
  if areSmall (storedBytes s) then ⟨s, bytesKey (storedBytes s), (nameKey_eq_bytesKey s).symm⟩
  else .ofString s

theorem Name.stored_eq (s : String) : Name.stored s = .ofString s := by
  unfold stored
  split
  next h => simp only [ofString, foldCase_of_areSmall h, nameKey_eq_bytesKey]
  next => rfl

/-! ## Machines that have words from the start -/

namespace Machine

variable {p : Params}

/-- The bindings of words under their names, the last word first. -/
def bindings (ws : List Word) : List (Name × WordId) :=
  (ws.zipIdx.map fun e => (e.1.name, ⟨e.2⟩)).reverse

/-- A machine that has the given words from the start. -/
def stocked (p : Params) (ws : List Word) : Machine :=
  { empty p with heap := { words := ws.toArray }, dictionary := ⟨bindings ws⟩ }

/-- The words as they are when they have been installed. -/
def shownAll (ws : List Word) : List Word :=
  ws.map fun w => { w with hidden := false }

theorem mem_bindings {ws : List Word} {n : Name} {w : WordId} :
    (n, w) ∈ bindings ws ↔ ∃ u, ws[w.index]? = some u ∧ u.name = n := by
  simp only [bindings, List.mem_reverse, List.mem_map, Prod.mk.injEq, Prod.exists,
    List.mem_zipIdx_iff_getElem?]
  constructor
  · rintro ⟨u, i, hu, hn, rfl⟩
    exact ⟨u, hu, hn⟩
  · rintro ⟨u, hu, hn⟩
    exact ⟨u, w.index, hu, hn, rfl⟩

theorem word_stocked (ws : List Word) (w : WordId) :
    (stocked p ws).heap.word w = ws[w.index]?.getD default := by
  simp [stocked, Heap.word]

theorem index_eq_of_name_eq {ws : List Word} (hd : (ws.map Word.name).Nodup) {i j : Nat} {u v : Word}
    (hu : ws[i]? = some u) (hv : ws[j]? = some v) (hn : u.name = v.name) : i = j := by
  have hat : ∀ {k : Nat} {x : Word}, ws[k]? = some x → (ws.map Word.name)[k]? = some x.name :=
    fun h => by rw [List.getElem?_map, h, Option.map_some]
  exact (List.getElem?_inj (List.getElem?_eq_some_iff.1 (hat hu)).1 hd).1
    ((hat hu).trans (hn ▸ (hat hv).symm))

/-- A name leads to the word that has it, if the names differ. -/
theorem lookup?_stocked {ws : List Word} (hd : (ws.map Word.name).Nodup) {n : Name} {w : WordId} :
    (stocked p ws).dictionary.lookup? n = some w ↔ ∃ u, ws[w.index]? = some u ∧ u.name = n := by
  have hfound : ∀ e : Name × WordId, (bindings ws).find? (fun e => n.same e.1) = some e →
      (n, e.2) ∈ bindings ws := by
    intro e he
    have hn : n.same e.1 = true := by
      simpa using List.find?_some he
    rw [Name.same_iff.1 hn]
    exact List.mem_of_find?_eq_some he
  rw [← mem_bindings]
  constructor
  · intro h
    obtain ⟨e, he, rfl⟩ := Option.map_eq_some_iff.1 h
    exact hfound e he
  · intro h
    obtain ⟨e, he⟩ : ∃ e, (bindings ws).find? (fun e => n.same e.1) = some e :=
      Option.isSome_iff_exists.1 (List.find?_isSome.2 ⟨(n, w), h, Name.same_self n⟩)
    obtain ⟨u, hu, hn⟩ := mem_bindings.1 (hfound e he)
    obtain ⟨v, hv, hn'⟩ := mem_bindings.1 h
    have hi : e.2 = w := congrArg WordId.mk (index_eq_of_name_eq hd hu hv (hn.trans hn'.symm))
    exact Option.map_eq_some_iff.2 ⟨e, he, hi⟩

theorem install_stocked {ws : List Word} {w : Word} (hw : w.name ∉ ws.map Word.name) :
    ((stocked p ws).install w).2 = stocked p (ws ++ shownAll [w]) := by
  have hnew := Heap.word_addWord (stocked p ws).heap w
  have hkept : (bindings ws).filter (fun e => !w.name.same e.1) = bindings ws := by
    refine List.filter_eq_self.2 fun e he => ?_
    obtain ⟨u, i, hu, rfl⟩ : ∃ u i, (u, i) ∈ ws.zipIdx ∧ (u.name, ⟨i⟩) = e := by
      simpa [bindings] using he
    have hne : w.name ≠ u.name := fun h =>
      hw (h ▸ List.mem_map_of_mem (List.fst_mem_of_mem_zipIdx hu))
    simpa using mt Name.same_iff.1 hne
  have hadd : (stocked p ws).install w =
      (⟨ws.length⟩, { stocked p ws with
        heap := ((stocked p ws).heap.addWord { w with hidden := false }).2
        dictionary := ⟨(w.name, ⟨ws.length⟩) :: bindings ws⟩ }) := by
    simp only [install, Dictionary.add, Heap.updateWord, hnew, Heap.setWord_addWord,
      Dictionary.bind]
    rw [show (stocked p ws).dictionary.entries = bindings ws from rfl, hkept]
    rfl
  rw [hadd]
  simp [stocked, bindings, shownAll, List.zipIdx_append, Heap.addWord]

/-- Words of new names are installed one after the other. -/
theorem foldl_install_stocked (us ws : List Word) (hd : ((us ++ ws).map Word.name).Nodup) :
    ws.foldl (fun m w => (m.install w).2) (stocked p us) = stocked p (us ++ shownAll ws) := by
  induction ws generalizing us with
  | nil => simp [shownAll]
  | cons w ws ih =>
    have hw : w.name ∉ us.map Word.name := by
      rw [List.map_append, List.map_cons] at hd
      exact fun h => (List.nodup_append.1 hd).2.2 _ h _ List.mem_cons_self rfl
    rw [List.foldl_cons, install_stocked hw, ih]
    · simp [shownAll]
    · simpa [shownAll] using hd

/-! ## The words of new machines -/

end Machine

/-- The word of a primitive on a new machine. -/
def Builtin.supplied (b : Builtin) : Word :=
  ⟨.stored b.name, false, b.immediate, true, #[.direct (.native b.word)]⟩

theorem Builtin.shown_ofPrimitive (b : Builtin) :
    { Word.ofPrimitive b.name b.word b.immediate with hidden := false } = b.supplied := by
  rw [Builtin.supplied, Name.stored_eq]
  rfl

namespace Machine

/-- A constant of a new machine. -/
def suppliedConstant (name : String) (v : Value) : Word :=
  ⟨.stored name, false, false, false, #[.direct (.native .pushConstant), .lit v]⟩

theorem shown_constant (name : String) (v : Value) :
    { Word.constant name v with hidden := false } = suppliedConstant name v := by
  rw [suppliedConstant, Name.stored_eq]
  rfl

/-- The words of a new machine with the given primitive words. -/
def supply (bs : List Builtin) : List Word :=
  bs.map Builtin.supplied ++
    (objectTypes.map (fun x => suppliedConstant x.1 (.type x.2.1)) ++
      Operator.all.map fun op => suppliedConstant op.constantName (.binop op))

/-- The words of a new machine as they are before they are installed. -/
def delivery (bs : List Builtin) : List Word :=
  bs.map (fun b => .ofPrimitive b.name b.word b.immediate) ++ initialConstants

theorem shownAll_delivery (bs : List Builtin) : shownAll (delivery bs) = supply bs := by
  simp only [shownAll, delivery, supply, initialConstants, List.map_append, List.map_map,
    Function.comp_def, Builtin.shown_ofPrimitive, shown_constant]

theorem map_name_supply (bs : List Builtin) :
    (supply bs).map Word.name = (delivery bs).map Word.name := by
  rw [← shownAll_delivery]
  simp [shownAll]

/-- The words of a new machine differ in the keys of their names. -/
theorem nodup_keys_supply :
    (((supply Builtin.all).map Word.name).map fun n => n.key.toNat).Nodup := by
  decide +kernel

theorem nodup_names_supply : ((supply Builtin.all).map Word.name).Nodup :=
  List.Pairwise.of_map (fun n => n.key.toNat)
    (fun _ _ h e => h (congrArg (fun n => n.key.toNat) e)) nodup_keys_supply

theorem nodup_names_builtins : (Builtin.all.map Builtin.name).Nodup := by
  have hn := nodup_names_supply
  rw [supply, List.map_append, List.map_map,
    show Word.name ∘ Builtin.supplied = Name.stored ∘ Builtin.name from rfl, ← List.map_map] at hn
  exact List.Pairwise.of_map Name.stored (fun _ _ h e => h (congrArg Name.stored e))
    (List.nodup_append.1 hn).1

/-- A new machine has its words from the start. -/
theorem create_eq {bs : List Builtin} (hs : bs.Sublist Builtin.all) :
    create p bs = stocked p (supply bs) := by
  have hsub : (supply bs).Sublist (supply Builtin.all) :=
    (hs.map _).append (.refl _)
  have hd : ((delivery bs).map Word.name).Nodup := by
    rw [← map_name_supply]
    exact (hsub.map _).nodup nodup_names_supply
  have hnew := foldl_install_stocked (p := p) [] (delivery bs) (by rwa [List.nil_append])
  rw [List.nil_append, shownAll_delivery, delivery, List.foldl_append, List.foldl_map,
    show stocked p [] = empty p from rfl] at hnew
  rw [create, installAll, hnew]

theorem ofParams_eq_stocked (p : Params) : ofParams p = stocked p (supply Builtin.all) :=
  create_eq (.refl _)

/-- The words of the table that have one of the given names. -/
theorem filter_names {bs : List Builtin} {names : List String} (hs : bs.Sublist Builtin.all)
    (hn : (bs.map Builtin.name).Perm names) :
    Builtin.all.filter (fun b => names.contains b.name) = bs := by
  have hmem : ∀ b : Builtin, names.contains b.name = true ↔ b.name ∈ bs.map Builtin.name := by
    intro b
    rw [List.contains_iff_mem, hn.mem_iff]
  have hkept : bs.filter (fun b => names.contains b.name) = bs :=
    List.filter_eq_self.2 fun b hb => (hmem b).2 (List.mem_map_of_mem hb)
  have hsub : bs.Sublist (Builtin.all.filter fun b => names.contains b.name) := by
    have := hs.filter fun b => names.contains b.name
    rwa [hkept] at this
  -- The names of the table differ, so it has no other word of one of the names.
  have hperm : (bs.map Builtin.name).Perm
      ((Builtin.all.filter fun b => names.contains b.name).map Builtin.name) := by
    refine (List.perm_ext_iff_of_nodup ((hs.map _).nodup nodup_names_builtins)
      ((List.filter_sublist.map _).nodup nodup_names_builtins)).2 fun name =>
        ⟨fun h => (hsub.map _).subset h, fun h => ?_⟩
    obtain ⟨b, hb, rfl⟩ := List.mem_map.1 h
    exact (hmem b).1 (List.mem_filter.1 hb).2
  have hlength := hperm.length_eq
  rw [List.length_map, List.length_map] at hlength
  exact (hsub.eq_of_length hlength).symm

/-- A new machine with some of the primitive words, which are given by their names. -/
theorem ofNames_eq (p : Params) (bs : List Builtin) {names : List String}
    (hs : bs.Sublist Builtin.all) (hn : (bs.map Builtin.name).Perm names) :
    ofNames p names = stocked p (supply bs) := by
  rw [ofNames, filter_names hs hn, create_eq hs]

theorem ofNames_nil (p : Params) : ofNames p [] = stocked p (supply []) :=
  ofNames_eq p [] (List.nil_sublist _) (.refl [])

end Machine
end ThreadedForth
