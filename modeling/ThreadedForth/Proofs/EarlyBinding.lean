/-
  Compiled words and names: what a word calls is settled when it is compiled.
-/
import ThreadedForth.Proofs.Overlays
import ThreadedForth.Proofs.Locality

namespace ThreadedForth

/-! ## Machines up to names -/

/-- The heap as it would be if every word could be found. -/
def Heap.shown (h : Heap) : Heap :=
  { h with words := h.words.map Word.shown }

namespace Heap

variable {h k : Heap}

theorem size_of_shown (hs : h.shown = k.shown) : h.words.size = k.words.size := by
  have := congrArg (fun h : Heap => h.words.size) hs
  simpa [shown] using this

theorem word_of_shown (hs : h.shown = k.shown) (w : WordId) :
    (h.word w).shown = (k.word w).shown := by
  have hw : (h.words.map Word.shown)[w.index]? = (k.words.map Word.shown)[w.index]? :=
    congrArg (fun h : Heap => h.words[w.index]?) hs
  rw [Array.getElem?_map, Array.getElem?_map] at hw
  unfold word
  rcases hx : h.words[w.index]? with _ | u <;> rcases hy : k.words[w.index]? with _ | v <;>
    simp only [hx, hy, Option.map_none, Option.map_some, reduceCtorEq, Option.some.injEq] at hw
  · rfl
  · exact hw

theorem objects_of_shown (hs : h.shown = k.shown) : h.objects = k.objects := by
  have ho : h.shown.objects = k.shown.objects := congrArg Heap.objects hs
  exact ho

theorem shown_addWord (hs : h.shown = k.shown) (w : Word) :
    (h.addWord w).2.shown = (k.addWord w).2.shown := by
  have hw := congrArg Heap.words hs
  have ho := congrArg Heap.objects hs
  simp only [shown] at hw ho
  simp [shown, addWord, hw, ho]

/-- The same change of a word in both heaps. -/
theorem shown_updateWord (hs : h.shown = k.shown) (w : WordId) {f g : Word → Word}
    (hf : (f (h.word w)).shown = (g (k.word w)).shown) :
    (h.updateWord w f).shown = (k.updateWord w g).shown := by
  have hw := congrArg Heap.words hs
  have ho := congrArg Heap.objects hs
  simp only [shown] at hw ho
  simp [shown, updateWord, setWord, Array.map_setIfInBounds, hw, ho, hf]

end Heap

namespace Machine

/-- Machines that are the same apart from their dictionaries, and from which words are hidden. -/
structure SameButNames (x y : Machine) : Prop where
  common : x.common = y.common
  line : x.line = y.line
  comment : x.inComment = y.inComment
  compiler : x.compiler = y.compiler
  heap : x.heap.shown = y.heap.shown

theorem SameButNames.setDictionary (x : Machine) (d : Dictionary) :
    x.SameButNames { x with dictionary := d } := ⟨rfl, rfl, rfl, rfl, rfl⟩

end Machine

namespace Likeness

/-- Machines that are the same up to names. -/
def upToNames : Likeness := ⟨Machine.SameButNames, fun _ => True⟩

theorem knows_upToNames (v : Value) : upToNames.Knows v := fun _ _ => trivial

theorem holds_upToNames (c : Common) : upToNames.Holds c :=
  ⟨fun v _ => knows_upToNames v, fun v _ => knows_upToNames v, fun v _ => knows_upToNames v,
    fun _ _ => trivial, fun _ _ v _ => knows_upToNames v, fun _ _ => trivial⟩

theorem basic_upToNames : upToNames.Basic where
  common := fun h => h.common
  holds := fun _ => holds_upToNames _
  share := fun h _ _ => { h with common := rfl }
  objects := fun h => Heap.objects_of_shown h.heap
  items := fun _ _ _ v _ => knows_upToNames v
  setObjects := fun h os _ =>
    { h with
      heap := by
        have hw := congrArg (fun k : Heap => { k with objects := os }) h.heap
        exact hw }
  word := fun h w _ => ⟨Heap.word_of_shown h.heap w, fun _ _ => trivial⟩
  setBody := fun h w _ body _ =>
    { h with
      heap := Heap.shown_updateWord h.heap w
        (congrArg (fun u : Word => { u with body }) (Heap.word_of_shown h.heap w)) }

theorem building_upToNames : upToNames.Building where
  line := fun h => h.line
  setLine := fun h _ => { h with line := rfl }
  comment := fun h => h.comment
  setComment := fun h _ => { h with comment := rfl }
  mode := fun h => congrArg Compiler.mode h.compiler
  building := fun h => congrArg Compiler.building? h.compiler
  known_building := fun _ _ _ => trivial
  known_last := fun _ _ _ => trivial
  depth := fun h _ => congrArg Compiler.startDepth h.compiler
  setMode := fun h mode _ =>
    { h with compiler := congrArg (fun c : Compiler => { c with mode }) h.compiler }
  start := by
    intro x y h name
    have hd : x.data = y.data := congrArg Common.data h.common
    have hid : (x.heap.addWord (.blank name)).1 = (y.heap.addWord (.blank name)).1 :=
      congrArg WordId.mk (Heap.size_of_shown h.heap)
    refine { h with compiler := ?_, heap := Heap.shown_addWord h.heap _ }
    simp only [Machine.starting, Compiler.start, hid, hd, h.compiler]
  finish := fun h _ =>
    { h with compiler := congrArg (fun c : Compiler => { c with building? := none }) h.compiler }
  unhide := fun h w _ =>
    { h with heap := Heap.shown_updateWord h.heap w (Heap.word_of_shown h.heap w) }
  setImmediate := fun h w _ =>
    { h with
      heap := Heap.shown_updateWord h.heap w
        (congrArg (fun u : Word => { u with immediate := true }) (Heap.word_of_shown h.heap w)) }

end Likeness

/-! ## Definitions and words that are forgotten -/

namespace Machine

variable {x y : Machine}

/-- What becomes of a machine by definitions and by words that are forgotten.  A new word may take
    the name of another one; the compiler may remember it, the line may have been read, and objects
    to come may be at other addresses. -/
inductive Renamed (x : Machine) : Machine → Prop
  | refl : Renamed x x
  | define {y : Machine} (h : Renamed x y) (u : Word) (c : Compiler) (l : Line) :
    Renamed x { (y.install u).2 with compiler := c, line := l }
  | forget {y : Machine} {name : String} {w : WordId} {d : Dictionary} {k : Heap}
    (h : Renamed x y) (hf : y.dictionary.forget y.heap name = .ok (w, d, k)) :
    Renamed x { y with dictionary := d, heap := k }
  /-- What has been allocated takes the place of objects to come. -/
  | move {y : Machine} (h : Renamed x y) (f : ObjId → UInt64) : Renamed x (y.located f)

theorem Enriched.install (x : Machine) (u : Word) (c : Compiler) (l : Line) :
    x.Enriched { (x.install u).2 with compiler := c, line := l } := by
  refine ⟨rfl, rfl, ?_, fun w hw => ?_⟩
  · show _ ≤ ((x.heap.addWord u).2.updateWord _ _).words.size
    simp [Heap.addWord, Heap.updateWord, Heap.setWord]
  · show _ = (((x.heap.addWord u).2.updateWord (x.heap.addWord u).1 _).word w).shown
    rw [Heap.word_updateWord, if_neg, Heap.word_addWord_of_has hw]
    rintro ⟨rfl, -⟩
    exact Nat.lt_irrefl _ hw

theorem Enriched.forget {name : String} {w : WordId} {d : Dictionary} {k : Heap}
    (hf : x.dictionary.forget x.heap name = .ok (w, d, k)) :
    x.Enriched { x with dictionary := d, heap := k } := by
  have hk : k = x.heap.updateWord w fun u => { u with hidden := true } := by
    unfold Dictionary.forget at hf
    split at hf
    · cases hf
    · split at hf
      · cases hf
      · cases hf
        rfl
  subst hk
  refine ⟨rfl, rfl, ?_, fun v _ => ?_⟩
  · show _ ≤ (x.heap.updateWord w _).words.size
    simp [Heap.updateWord, Heap.setWord]
  · show _ = ((x.heap.updateWord w _).word v).shown
    rw [Heap.word_updateWord]
    split
    · rename_i hv
      rw [hv.1]
      rfl
    · rfl

theorem Renamed.enriched (h : Renamed x y) : x.Enriched y := by
  induction h with
  | refl => exact .refl x
  | define _ u c l ih => exact ih.trans (.install _ u c l)
  | forget _ hf ih => exact ih.trans (.forget hf)
  | move _ f ih => exact ih.trans ⟨rfl, rfl, Nat.le_refl _, fun _ _ => rfl⟩

/-- **Early binding.**  A word does the same in two machines that only differ in their dictionaries,
    if its primitives do not look at the dictionary, and the dictionaries make no difference to
    what they learn about words and objects being alive.  A word that uses neither the line nor the
    compiler nor the dictionary does the same after definitions and after words have been
    forgotten, if these make no difference to the reference counts that it reads.  In both cases
    the objects may be at other addresses, except those that the word takes the hash of. -/
theorem early_binding (x y : Machine) (w : WordId) :
    (x.SameButNames y →
      (∀ n x' y' p, Goes n (x.startRun w .outside) x' → Goes n (y.startRun w .outside) y' →
        x'.primitive? = some p → p.consults x' = false ∧ p.SameAnswers x' y') →
      ∀ fuel, Likeness.upToNames.SameEnd (x.execute fuel w) (y.execute fuel w)) ∧
    (x.Sound → x.heap.Has (.word w) → Renamed x y →
      (∀ n x' y' p, Goes n (x.startRun w .outside) x' → Goes n (y.startRun w .outside) y' →
        x'.primitive? = some p →
        p.usesSource x' = false ∧ (p = .object .refcount → x'.topCount = y'.topCount) ∧
          (p = .object (.invoke .hash) → x'.topAddress = y'.topAddress)) →
      ∀ fuel, (Likeness.overlay x y).SameEnd (x.execute fuel w) (y.execute fuel w)) := by
  constructor
  · intro h hp fuel
    refine Likeness.basic_upToNames.execute h trivial (fun n x' y' p hx hy _ hp' => ?_) fuel
    obtain ⟨hc, ha⟩ := hp n x' y' p hx hy hp'
    exact ⟨fun _ => Likeness.building_upToNames, fun hc' => by simp [hc] at hc', ha⟩
  · intro hs hw hr hp fuel
    have he := hr.enriched
    refine (Likeness.Basic.overlay x y he.size).execute (he.overlay hs) hw
      (fun n x' y' p hx hy _ hp' => ?_) fuel
    obtain ⟨hu, hcount, haddress⟩ := hp n x' y' p hx hy hp'
    exact .of_detached hu hcount haddress

/-- Whether the primitives of two runs meet a condition until one of them ends, which has to be
    within the fuel. -/
def meets (c : Machine → Machine → Primitive → Bool) : Nat → Machine → Machine → Bool
  | 0, _, _ => false
  | fuel + 1, x, y =>
    x.primitive?.all (c x y) &&
      match x.step, y.step with
      | .running x', .running y' => meets c fuel x' y'
      | _, _ => true

theorem of_meets {c : Machine → Machine → Primitive → Bool} {fuel n : Nat} {x y x' y' : Machine}
    {p : Primitive} (h : meets c fuel x y = true) (hx : Goes n x x') (hy : Goes n y y')
    (hp : x'.primitive? = some p) : c x' y' p = true := by
  induction fuel generalizing n x y with
  | zero => cases h
  | succ fuel ih =>
    simp only [meets, Bool.and_eq_true] at h
    obtain ⟨h₁, h₂⟩ := h
    cases hx with
    | refl =>
      cases hy
      rw [hp] at h₁
      exact h₁
    | step hsx hx =>
      cases hy with
      | step hsy hy =>
        rw [hsx, hsy] at h₂
        exact ih h₂ hx hy

/-- A machine with the word `w`, which calls `v`. -/
def chained : Machine :=
  afterLine ": w v dup ;" (afterLine ": v 1 ;" (ofNames {} [":", ";", "dup", "(literal)"]))

theorem ofNames_chained : ofNames {} [":", ";", "dup", "(literal)"] = stocked {} (supply
    [⟨"dup", .stack .dup, false⟩, ⟨":", .defining .colon, false⟩, ⟨";", .defining .semicolon, true⟩,
      ⟨"(literal)", .branch .inlineLiteral, false⟩]) :=
  ofNames_eq _ _ (by decide) (by decide)

/-- The same machine after `v` has been forgotten, with its objects elsewhere. -/
def bereft : Machine :=
  match chained.dictionary.forget chained.heap "v" with
  | .ok (_, d, k) => { chained with dictionary := d, heap := k, addresses := fun _ => 64 }
  | .error _ => chained

theorem renamed_bereft : Renamed chained bereft := by
  unfold bereft
  generalize chained = x
  split
  · exact .move (.forget .refl ‹_›) fun _ => 64
  · exact .refl

theorem sound_chained : chained.Sound := by
  have hnew : Reached .rest (ofNames {} [":", ";", "dup", "(literal)"]) := .create _ _
  have hruns : (processLine 64 (after (fill ": v 1 ;"
        (ofNames {} [":", ";", "dup", "(literal)"])))).isSome = true ∧
      (processLine 64 (after (fill ": w v dup ;" (afterLine ": v 1 ;"
        (ofNames {} [":", ";", "dup", "(literal)"]))))).isSome = true := by
    rw [ofNames_chained]
    decide +kernel
  have hw : Reached .rest chained := (hnew.afterLine hruns.1).afterLine hruns.2
  exact hw.sound

/-- A word whose callee has lost its name, and one in a machine without any names; in both cases all
    objects are at one address afterwards. -/
theorem early_binding_of_chained :
    ∃ (x y z : Machine) (w : WordId), (x.heap.word w).code = .ok .docol ∧ x.find? "v" ≠ none ∧
      y.find? "v" = none ∧ z.find? "v" = none ∧
      Likeness.upToNames.SameEnd (x.execute 16 w) (y.execute 16 w) ∧
      (Likeness.overlay x z).SameEnd (x.execute 16 w) (z.execute 16 w) := by
  obtain ⟨hw, hfound, hgone, hhas, hnames, hwords⟩ :
      (chained.heap.word ⟨21⟩).code = .ok .docol ∧ chained.find? "v" ≠ none ∧
        bereft.find? "v" = none ∧ 21 < chained.heap.words.size ∧
        meets (fun x y p => !p.consults x && p.SameAnswers x y) 16
          (chained.startRun ⟨21⟩ .outside)
          (({ chained with dictionary := {}, addresses := fun _ => 64 } : Machine).startRun ⟨21⟩
            .outside) = true ∧
        meets (fun x y p => !p.usesSource x &&
          (p != .object .refcount || x.topCount == y.topCount) &&
          (p != .object (.invoke .hash) || x.topAddress == y.topAddress)) 16
          (chained.startRun ⟨21⟩ .outside) (bereft.startRun ⟨21⟩ .outside) = true := by
    unfold bereft chained
    rw [ofNames_chained]
    decide +kernel
  have hr := renamed_bereft
  have hs := sound_chained
  generalize chained = x at *
  generalize bereft = z at *
  refine ⟨x, { x with dictionary := {}, addresses := fun _ => 64 }, z, ⟨21⟩, hw, hfound, rfl, hgone,
    ?_, ?_⟩
  · refine (early_binding x { x with dictionary := {}, addresses := fun _ => 64 } ⟨21⟩).1
      ⟨rfl, rfl, rfl, rfl, rfl⟩ (fun n x' y' p hx hy hp => ?_) 16
    simpa using of_meets hnames hx hy hp
  · refine (early_binding x z ⟨21⟩).2 hs hhas hr (fun n x' y' p hx hy hp => ?_) 16
    have hm := of_meets hwords hx hy hp
    simp only [Bool.and_eq_true, Bool.not_eq_true', Bool.or_eq_true, bne_iff_ne, beq_iff_eq] at hm
    exact ⟨hm.1.1, fun hc => hm.1.2.resolve_left (not_not_intro hc),
      fun ha => hm.2.resolve_left (not_not_intro ha)⟩

/-- A machine with a string on its stack, which is also held by the constant `c`, and the word `w`,
    which counts the references to it. -/
def counting : Machine :=
  afterLine ": w refcount ;" (afterLine "s\" abc\" dup constant c"
    (ofNames {} [":", ";", "s\"", "dup", "constant", "refcount"]))

theorem counting_eq : counting = afterLine ": w refcount ;" (afterLine "s\" abc\" dup constant c"
    (stocked {} (supply [⟨"dup", .stack .dup, false⟩, ⟨"constant", .memory .constant, false⟩,
      ⟨":", .defining .colon, false⟩, ⟨";", .defining .semicolon, true⟩, ⟨"s\"", .defining .string, true⟩,
      ⟨"refcount", .object .refcount, false⟩]))) :=
  congrArg (afterLine _ <| afterLine _ ·) (ofNames_eq _ _ (by decide) (by decide))

/-- The same machine after `c` has lost its name. -/
def nameless : Machine :=
  { counting with dictionary := counting.dictionary.unbind (.ofString "c") }

/-- The number on top of the data stack after a run. -/
def topInt? (r? : Option (EStateM.Result Error Machine Unit)) : Option Int64 := do
  match (after (← r?)).data.peek? 0 with
  | some (.int n) => some n
  | _ => none

theorem topInt?_eq {L : Likeness} (B : L.Basic) {r s : Option (EStateM.Result Error Machine Unit)}
    (h : L.SameEnd r s) : topInt? r = topInt? s := by
  cases h with
  | none => rfl
  | some h =>
    show (match (after _).data.peek? 0 with | some (.int n) => some n | _ => none) =
      (match (after _).data.peek? 0 with | some (.int n) => some n | _ => none)
    rw [B.data_eq h.alike]

/-- A name keeps a constant alive, and so one more reference to its value: the word `w` counts two
    references as long as `c` has its name, and one afterwards. -/
theorem names_keep_objects_referenced :
    ¬ ∀ (x y : Machine) (w : WordId), (x.heap.word w).code = .ok .docol → x.SameButNames y →
      (∀ n x' p, Goes n (x.startRun w .outside) x' → x'.primitive? = some p →
        p.consults x' = false) →
      ∀ fuel, Likeness.upToNames.SameEnd (x.execute fuel w) (y.execute fuel w) := by
  intro h
  obtain ⟨hw, hrun, htwo, hone⟩ : (counting.heap.word ⟨23⟩).code = .ok .docol ∧
      meets (fun x _ p => !p.consults x) 16 (counting.startRun ⟨23⟩ .outside)
        (counting.startRun ⟨23⟩ .outside) = true ∧
      topInt? (counting.execute 16 ⟨23⟩) = some 2 ∧
      topInt? (nameless.execute 16 ⟨23⟩) = some 1 := by
    rw [nameless, counting_eq]
    decide +kernel
  have hsame : counting.SameButNames nameless := .setDictionary _ _
  have hend := h counting nameless ⟨23⟩ hw hsame
    (fun n x' p hx hp => by simpa using of_meets hrun hx hx hp) 16
  have := topInt?_eq Likeness.basic_upToNames hend
  rw [htwo, hone] at this
  cases this

end Machine
end ThreadedForth
