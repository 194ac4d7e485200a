/-
  Compile-time words add calls of the words that came with the machine.
-/
import ThreadedForth.Proofs.Bindings
import ThreadedForth.Proofs.Emission
import ThreadedForth.Proofs.LineBreaks
import ThreadedForth.Proofs.Locality
import ThreadedForth.Proofs.SharedBeginnings

namespace ThreadedForth

/-! ## The words that came with the machine -/

namespace Builtin

/-- The word that a name of the table leads to on a new machine. -/
def wordOf (name : String) : WordId :=
  ⟨all.findIdx fun b => b.name == name⟩

end Builtin

theorem Primitive.mem_emitted {p : Primitive} {names : List String} (hp : p.emits? = some names) :
    ∀ name ∈ names, name ∈ Builtin.emitted := by
  have hcontrol : ∀ c : ControlWord, ∀ name ∈ c.emits, name ∈ Builtin.emitted := by
    intro c
    cases c with
    | openCount maySkip => cases maySkip <;> decide
    | closeCount stepped => cases stepped <;> decide
    | _ => decide
  cases p with
  | control c =>
    cases hp
    exact hcontrol c
  | defining d => cases d <;> cases hp <;> decide
  | memory w => cases w <;> cases hp; decide
  | _ => cases hp

namespace Machine

variable {m m' : Machine} {ph ph' : Phase} {p : Params} {name : String}

/-- The words of a new machine that compile-time words add calls of. -/
theorem founded_ofParams (p : Params) (hn : name ∈ Builtin.emitted) :
    (ofParams p).Founded name (Builtin.wordOf name) ∧
      ∃ q, ⟨name, q, false⟩ ∈ Builtin.all ∧
        ((ofParams p).heap.word (Builtin.wordOf name)).code = .ok (.native q) := by
  have htable : ∀ name ∈ Builtin.emitted, ∃ b ∈ Builtin.all[(Builtin.wordOf name).index]?,
      b.name = name ∧ b.immediate = false := by
    decide +kernel
  obtain ⟨b, hb, rfl, himm⟩ := htable name hn
  generalize Builtin.wordOf b.name = w at hb
  have hat : (supply Builtin.all)[w.index]? = some b.supplied := by
    have hlt := (List.getElem?_eq_some_iff.1 hb).1
    rw [supply, List.getElem?_append_left (by rwa [List.length_map]), List.getElem?_map, hb,
      Option.map_some]
  have hword : (stocked p (supply Builtin.all)).heap.word w = b.supplied := by
    rw [word_stocked, hat, Option.getD_some]
  have hbound : (stocked p (supply Builtin.all)).dictionary.lookup? (.ofString b.name) = some w :=
    (lookup?_stocked nodup_names_supply).2 ⟨_, hat, Name.stored_eq b.name⟩
  have hsize : w.index < (stocked p (supply Builtin.all)).heap.words.size :=
    (List.getElem?_eq_some_iff.1 hat).1
  rw [ofParams_eq_stocked]
  refine ⟨⟨hsize, ?_, ?_, .inl hbound, ?_, ?_⟩, b.word, ?_, ?_⟩
  · rw [hword]
    rfl
  · rw [hword]
    rfl
  · intro u hu
    cases hu
  · intro u hu
    cases hu
  · rw [← himm]
    exact List.mem_of_getElem? hb
  · rw [hword]
    rfl

/-- The word that came with the machine is the only one of the name. -/
def Unshadowed (m : Machine) (name : String) : Prop :=
  ∀ w, m.heap.Has (.word w) → (m.heap.word w).name = .ofString name → w = Builtin.wordOf name

/-- The words that compile-time words add calls of stay what they are, and their names lead to them
    unless other words of these names are made. -/
theorem find?_emitted (hs : Leads .rest (ofParams p) ph m) (hn : name ∈ Builtin.emitted) :
    (∃ q, ⟨name, q, false⟩ ∈ Builtin.all ∧
      (m.heap.word (Builtin.wordOf name)).code = .ok (.native q)) ∧
    (m.Unshadowed name → m.find? name = some (Builtin.wordOf name)) := by
  obtain ⟨hf, q, hq, hc⟩ := founded_ofParams p hn
  obtain ⟨hf', hc'⟩ := hf.leads (.create p _) hc hs
  exact ⟨⟨q, hq, hc'⟩, hf'.find?⟩

/-! ## The calls that are added -/

section Emission

variable (hs : Leads .rest (ofParams p) ph m)
include hs

/-- The names that lead to the words that came with the machine. -/
theorem offers_wordOf (names : List String) (hn : ∀ name ∈ names, name ∈ Builtin.emitted)
    (hu : ∀ name ∈ names, m.Unshadowed name) :
    ∀ name ∈ names, m.Offers (names.map Builtin.wordOf) name :=
  fun name h => ⟨_, List.mem_map_of_mem h, (find?_emitted hs (hn name h)).2 (hu name h)⟩

/-- The calls that a compile-time word adds. -/
theorem addsCalls_primitive {q : Primitive} {names : List String} (hq : q.emits? = some names)
    (hu : ∀ name ∈ names, m.Unshadowed name) :
    m.AddsCalls (after (q.run m)) (names.map Builtin.wordOf) :=
  (Adding.primitive hq (offers_wordOf hs names (Primitive.mem_emitted hq) hu) m (.refl m _)).calls

/-- The calls that a number adds. -/
theorem addsCalls_number {t : String} (ht : m.find? t = none) (hu : m.Unshadowed "(literal)") :
    m.AddsCalls (after (compileToken t m)) [Builtin.wordOf "(literal)"] := by
  have hn := offers_wordOf hs ["(literal)"] (by decide) (by simpa using hu)
  have heq : compileToken t m = interpretNumber t m := by
    unfold compileToken
    rw [ht]
  rw [heq]
  exact (Adding.number (hn _ List.mem_cons_self) t m (.refl m _)).calls

/-- The calls that a postponed word adds. -/
theorem addsCalls_postponed {t : String} {w : WordId} (ht : m.find? t = some w)
    (hm : m.compiler.mode = .compilingPostponed)
    (hu : (m.heap.word w).immediate = false → m.Unshadowed "(literal)" ∧ m.Unshadowed "compile,") :
    m.AddsCalls (after (compileToken t m)) (if (m.heap.word w).immediate then [w]
      else ["(literal)", "compile,"].map Builtin.wordOf) := by
  have heq : compileToken t m = compilePostponed w (after (M.setMode .compiling m)) := by
    unfold compileToken
    rw [ht]
    simp only [hm]
    rfl
  have hmode : ∀ ws, m.Adds ws (after (M.setMode .compiling m)) :=
    fun ws => Adding.setMode .compiling m (.refl m ws)
  rw [heq]
  cases hi : (m.heap.word w).immediate with
  | true =>
    exact (Adding.postponed (hmode [w]) (fun hf => absurd (hi.symm.trans hf) (by decide))
      fun _ => List.mem_cons_self).calls
  | false =>
    have hn := offers_wordOf hs ["(literal)", "compile,"] (by decide) (by simpa using hu hi)
    exact (Adding.postponed (hmode _) (fun _ => ⟨hn _ (by simp), hn _ (by simp)⟩)
      fun ht => absurd (hi.symm.trans ht) (by decide)).calls

end Emission

/-! ## Lines that ask for nothing -/

/-- Whether a primitive asks for nothing that may differ on two machines that hold the same. -/
def asksNothing (m : Machine) (q : Primitive) : Bool :=
  !q.asksLast m.compiler && !q.callsByName m && !q.readsName && q != .object .refcount &&
    q != .object (.invoke .hash) && q != .output .words

/-- Whether the machine is about to interpret one of the tokens, or to run a primitive that asks for
    nothing. -/
def goesPlainly (tokens : List String) : Phase → Machine → Bool
  | .rest, _ => true
  | .line _, m =>
    match nextSourceToken m with
    | .ok (some t) x => tokens.contains t && x.compiler.mode != .runtimeCompiling
    | _ => true
  | .word _, m => m.primitive?.all m.asksNothing

end Machine

namespace Pairing

variable {m m' : Machine} {P : Pairing m m'} {x y : Machine}

theorem allows_of_asksNothing {q : Primitive} (h : x.asksNothing q = true) : P.Allows q x y := by
  simp only [Machine.asksNothing, Bool.and_eq_true, Bool.not_eq_true', bne_iff_ne] at h
  obtain ⟨⟨⟨⟨⟨hlast, hcalls⟩, hreads⟩, hcount⟩, hhash⟩, hwords⟩ := h
  exact
    { last := fun ha => by cases hlast.symm.trans ha
      count := fun he => absurd he hcount
      address := fun he => absurd he hhash
      handler := fun ha => by cases hcalls.symm.trans ha
      token := fun ha => by cases hreads.symm.trans ha
      listed := fun he => by
        subst he
        cases hreads
      names := fun he => absurd he hwords }

/-- A name that leads to the same from the beginning always does. -/
theorem Alike.finds_of_finds (h : P.Alike x y) {name : String} (hn : P.Finds m m' name) :
    P.Finds x y name := by
  rcases h.names (.ofString name) with hr | ⟨hx, hy⟩
  · exact hr
  · unfold Finds
    rw [hx, hy]
    exact hn

/-- A line may be interpreted on two machines if one of them goes through it plainly, and all words
    that belong together have the same code. -/
theorem allowsLine_of_plain (hE : P.Emits) (hs : ∀ w, P.shared w) {tokens : List String}
    (ht : ∀ t ∈ tokens, P.Finds m m' t) {z : Machine}
    (hz : ∀ ph x, z.Visits ph x → x.goesPlainly tokens ph = true) (fuel : Nat) {n : Nat}
    (hx : z.Visits (.line n) x) (h : P.Alike x y) : P.AllowsLine fuel n x y := by
  induction n generalizing x y with
  | zero => exact trivial
  | succ n ih =>
    intro token x₁ y₁ hx₁ hy₁
    have h₁ : P.Alike x₁ y₁ := by
      have hread := (nextSourceToken x y h).alike
      rwa [hx₁, hy₁] at hread
    have hplain := hz _ _ hx
    rw [Machine.goesPlainly, hx₁] at hplain
    simp only [Bool.and_eq_true, List.contains_iff_mem, bne_iff_ne] at hplain
    have htoken : P.AllowsToken token x₁ y₁ :=
      { finds := Alike.finds_of_finds h₁ (ht token hplain.1)
        run := fun w u hw _ =>
          { answers := fun k x' y' q hg _ _ hq => by
              have hq' := hz _ _ ((hx.token hx₁ hw).goes hg)
              rw [Machine.goesPlainly, hq] at hq'
              exact allows_of_asksNothing hq'
            entered := fun _ _ _ _ _ _ => hs _ }
        last := fun hm => absurd hm hplain.2 }
    refine ⟨htoken, fun x₂ y₂ hx₂ hy₂ => ih (hx.token_ok hx₁ hx₂) ?_⟩
    have hend := Alike.interpretToken hE h₁ htoken fuel
    rw [hx₂, hy₂] at hend
    cases hend with
    | some hr => exact hr.alike

end Pairing

namespace Machine

variable {m m' : Machine} {ph : Phase} {p : Params} {name : String}

/-! ## Hygiene -/

/-- The names of the words that compile-time words add calls of lead to words that belong together. -/
theorem emits_of_unshadowed {p' : Params} {ph' : Phase} {P : Pairing m m'}
    (hs : Leads .rest (ofParams p) ph m) (hs' : Leads .rest (ofParams p') ph' m')
    (hu : ∀ n ∈ Builtin.emitted, m.Unshadowed n ∧ m'.Unshadowed n ∧
      P.word (Builtin.wordOf n) (Builtin.wordOf n)) : P.Emits := by
  intro n hn
  obtain ⟨hl, hr, hw⟩ := hu n hn
  have hx := (Option.filter_eq_some_iff.1 ((find?_emitted hs hn).2 hl)).1
  have hy := (Option.filter_eq_some_iff.1 ((find?_emitted hs' hn).2 hr)).1
  unfold Pairing.Finds
  rw [hx, hy]
  exact .some hw

/-- **Compile-time words are hygienic.**  In every session of a machine with all of its words, the words
    that compile-time words add calls of stay the primitives of the table.  As long as no other word
    has been given one of the names, the calls that are added lead to them, whatever else has been
    defined, shadowed or forgotten: the calls that a compile-time word adds, those that a number
    adds, and those that a postponed word adds, which if it is immediate is called itself.

    The same source then compiles to the same code in any two sessions, and the code does the same,
    up to the numbers of words and objects.  Each machine may have words that belong to nothing on
    the other one; all that the source does not ask for may differ with them. -/
theorem compile_time_words_hygienic (hs : Leads .rest (ofParams p) ph m) :
    (∀ n ∈ Builtin.emitted, ∃ q, ⟨n, q, false⟩ ∈ Builtin.all ∧
      (m.heap.word (Builtin.wordOf n)).code = .ok (.native q)) ∧
    (m.compiler.mode = .compiling → ∀ q names, Primitive.emits? q = some names →
      (∀ n ∈ names, m.Unshadowed n) →
      m.AddsCalls (after (q.run m)) (names.map Builtin.wordOf)) ∧
    (m.compiler.mode = .compiling → m.Unshadowed "(literal)" → ∀ t, m.find? t = none →
      m.AddsCalls (after (compileToken t m)) [Builtin.wordOf "(literal)"]) ∧
    (m.compiler.mode = .compilingPostponed → ∀ t w, m.find? t = some w →
      ((m.heap.word w).immediate = false →
        m.Unshadowed "(literal)" ∧ m.Unshadowed "compile,") →
      m.AddsCalls (after (compileToken t m)) (if (m.heap.word w).immediate then [w]
        else ["(literal)", "compile,"].map Builtin.wordOf)) ∧
    ∀ (p' : Params) (ph' : Phase) (m' : Machine) (P : Pairing m m'),
      Leads .rest (ofParams p') ph' m' →
      (∀ n ∈ Builtin.emitted, m.Unshadowed n ∧ m'.Unshadowed n ∧
        P.word (Builtin.wordOf n) (Builtin.wordOf n)) →
      ∀ x y, P.Alike x y →
        (∀ fuel n, P.AllowsLine fuel n x y →
          P.SameEnd (interpret fuel n x) (interpret fuel n y)) ∧
        ∀ fuel w u, P.word w u → P.AllowsRun (x.startRun w .outside) (y.startRun u .outside) →
          P.SameEnd (x.execute fuel w) (y.execute fuel u) := by
  refine ⟨fun n hn => (find?_emitted hs hn).1, fun _ q names hq hu => addsCalls_primitive hs hq hu,
    fun _ hu t ht => addsCalls_number hs ht hu,
    fun hm t w ht hu => addsCalls_postponed hs ht hm hu, ?_⟩
  intro p' ph' m' P hs' hu x y hxy
  have hE := emits_of_unshadowed hs hs' hu
  exact ⟨fun fuel n hl => hxy.interpret hE hl, fun fuel w u hw hr => hxy.execute hE hw hr fuel⟩

theorem unshadowed_iff (m : Machine) (name : String) : m.Unshadowed name ↔
    ∀ e ∈ m.heap.words.toList.zipIdx, e.1.name.text = foldCase name →
      e.2 = (Builtin.wordOf name).index := by
  have hname : ∀ n : Name, n = .ofString name ↔ n.text = foldCase name := by
    rintro ⟨t, k, rfl⟩
    simp only [Name.ofString, Name.mk.injEq, and_iff_left_iff_imp]
    rintro rfl
    rfl
  have hword : ∀ (i : Nat) (w : Word), m.heap.words.toList[i]? = some w →
      m.heap.Has (.word ⟨i⟩) ∧ m.heap.word ⟨i⟩ = w := by
    intro i w hi
    rw [Array.getElem?_toList] at hi
    exact ⟨(Array.getElem?_eq_some_iff.1 hi).1, by simp [Heap.word, hi]⟩
  constructor
  · rintro h ⟨w, i⟩ he hn
    obtain ⟨hhas, rfl⟩ := hword i w (List.mem_zipIdx_iff_getElem?.1 he)
    exact congrArg WordId.index (h ⟨i⟩ hhas ((hname _).2 hn))
  · rintro h ⟨i⟩ hhas hn
    have hi : i < m.heap.words.size := hhas
    have he : (m.heap.words[i], i) ∈ m.heap.words.toList.zipIdx := by
      rw [List.mem_zipIdx_iff_getElem?, Array.getElem?_toList, Array.getElem?_eq_getElem hi]
    have hw : m.heap.word ⟨i⟩ = m.heap.words[i] := by simp [Heap.word, hi]
    exact congrArg WordId.mk (h _ he ((hname _).1 (hw ▸ hn)))

instance (m : Machine) (name : String) : Decidable (m.Unshadowed name) :=
  decidable_of_iff' _ (unshadowed_iff m name)

/-- A machine with a word of its own. -/
def furnished : Machine :=
  afterLine ": foo 1 ;" (ofParams {})

/-- A machine with two words of its own, of which one has the same name. -/
def refurnished : Machine :=
  afterLine ": bar 2 ; : foo 3 ;" (ofParams {})

/-- A machine on which `(literal)` is another word, in the middle of a definition. -/
def shadowing : Machine :=
  afterLine ": w" (afterLine ": (literal) 7 ;" (ofParams {}))

/-- A line with a definition. -/
def definition : Line :=
  { capacity := 256, text := ": w ( c ) 5 [ 2 ] literal ;".toList }

/-- The tokens of this line that are interpreted. -/
def definitionTokens : List String :=
  [":", "(", "5", "[", "2", "]", "literal", ";"]

/-- What these machines come to. -/
theorem furnished_and_shadowing :
    ((processLine 64 (after (fill ": foo 1 ;" (ofParams {})))).isSome = true ∧
      (processLine 64 (after (fill ": bar 2 ; : foo 3 ;" (ofParams {})))).isSome = true ∧
      (furnished.find? "bar" = none ∧ refurnished.find? "bar" ≠ none ∧
        furnished.find? "foo" ≠ none ∧ refurnished.find? "foo" ≠ none) ∧
      (∀ n ∈ Builtin.emitted, furnished.Unshadowed n ∧ refurnished.Unshadowed n ∧
        (Builtin.wordOf n).index < 155) ∧
      Coincide 155 0 furnished refurnished ∧ furnished.Clear ∧ refurnished.Clear ∧
      (∀ t ∈ definitionTokens, furnished.dictionary.lookup? (.ofString t) =
        refurnished.dictionary.lookup? (.ofString t) ∧
        ∀ w ∈ (furnished.dictionary.lookup? (.ofString t)).toList, w.index < 155) ∧
      allVisits (fun ph m => m.goesPlainly definitionTokens ph) 64 (.line (definition.text.length + 2))
        { furnished with line := definition } = true) ∧
    (processLine 64 (after (fill ": (literal) 7 ;" (ofParams {})))).isSome = true ∧
      (processLine 64 (after (fill ": w" (afterLine ": (literal) 7 ;" (ofParams {}))))).isSome = true ∧
      shadowing.compiler.mode = .compiling ∧ shadowing.Unshadowed "(leave)" ∧
      shadowing.find? "5" = none ∧
      ∃ b ∈ shadowing.compiler.building?, ∃ u ∈ shadowing.find? "(literal)",
        u ≠ Builtin.wordOf "(literal)" ∧ (shadowing.heap.word b).body[1]? = none ∧
        ((after (compileToken "5" shadowing)).heap.word b).body[1]? = some (.call u) := by
  rw [furnished, refurnished, shadowing, ofParams_eq_stocked]
  decide +kernel

/-- A compile-time word whose own name to look up is not shadowed, and a definition with a comment, a
    number and compile-time words in two sessions with different words. -/
theorem compile_time_words_hygienic_of_definition :
    shadowing.AddsCalls (after ((Primitive.control .leave).run shadowing))
      [Builtin.wordOf "(leave)"] ∧
    (furnished.find? "bar" = none ∧ refurnished.find? "bar" ≠ none ∧
      furnished.find? "foo" ≠ none ∧ refurnished.find? "foo" ≠ none) ∧
    ∃ P : Pairing furnished refurnished,
      (∀ n ∈ Builtin.emitted, P.word (Builtin.wordOf n) (Builtin.wordOf n)) ∧
      P.SameEnd (interpret 64 (definition.text.length + 2) { furnished with line := definition })
        (interpret 64 (definition.text.length + 2) { refurnished with line := definition }) := by
  obtain ⟨⟨h₁, h₂, hfind, hu, hc, hx, hy, ht, hz⟩, h₃, h₄, hm, hleave, -⟩ := furnished_and_shadowing
  have hnew : Leads .rest (ofParams {}) .rest (ofParams {}) := .refl _ _
  have hs : Leads .rest (ofParams {}) .rest shadowing := (hnew.afterLine h₃).afterLine h₄
  have hl : Leads .rest (ofParams {}) .rest furnished := hnew.afterLine h₁
  have hr : Leads .rest (ofParams {}) .rest refurnished := hnew.afterLine h₂
  refine ⟨(compile_time_words_hygienic hs).2.1 hm _ ["(leave)"] rfl ?_, hfind, hc.pairing, ?_⟩
  · intro n hn
    rw [List.mem_singleton.1 hn]
    exact hleave
  clear hs h₁ h₂ h₃ h₄ hm hleave
  generalize furnished = m at *
  generalize refurnished = m' at *
  have hword : ∀ n ∈ Builtin.emitted, hc.pairing.word (Builtin.wordOf n) (Builtin.wordOf n) :=
    fun n hn => .inl ⟨rfl, (hu n hn).2.2⟩
  have hemitted : ∀ n ∈ Builtin.emitted, m.Unshadowed n ∧ m'.Unshadowed n ∧
      hc.pairing.word (Builtin.wordOf n) (Builtin.wordOf n) :=
    fun n hn => ⟨(hu n hn).1, (hu n hn).2.1, hword n hn⟩
  have hfinds : ∀ t ∈ definitionTokens, hc.pairing.Finds m m' t := by
    intro t hmem
    obtain ⟨heq, hbound⟩ := ht t hmem
    unfold Pairing.Finds
    rw [← heq]
    cases hw : m.dictionary.lookup? (.ofString t) with
    | none => exact .none
    | some w =>
      rw [hw] at hbound
      exact .some (.inl ⟨rfl, hbound w List.mem_cons_self⟩)
  have hxy := hc.sameKept.alike hx hy definition
  have hstart : Visits { m with line := definition } (.line (definition.text.length + 2))
      { m with line := definition } := .start
  refine ⟨hword, ((compile_time_words_hygienic hl).2.2.2.2 {} .rest m' hc.pairing hr hemitted _ _
    hxy).1 64 _ ?_⟩
  exact Pairing.allowsLine_of_plain (emits_of_unshadowed hl hr hemitted) (fun _ => trivial) hfinds
    (fun _ _ hv => hv.of_all hz) 64 hstart hxy

/-- The words that compile-time words look up can be shadowed: a number then adds a call of another
    word than the primitive. -/
theorem literals_can_be_shadowed :
    ¬ ∀ (p : Params) (ph : Phase) (m : Machine) (t : String), Leads .rest (ofParams p) ph m →
      m.compiler.mode = .compiling → m.find? t = none →
      m.AddsCalls (after (compileToken t m)) [Builtin.wordOf "(literal)"] := by
  intro h
  obtain ⟨-, h₁, h₂, hm, -, ht, b, hb, u, -, hne, hnew, hcall⟩ := furnished_and_shadowing
  have hs : Leads .rest (ofParams {}) .rest shadowing :=
    ((Leads.refl _ _).afterLine h₁).afterLine h₂
  rcases h {} .rest shadowing "5" hs hm ht b hb 1 u hcall with hold | hnative
  · rw [hnew] at hold
    cases hold
  · exact hne (List.mem_singleton.1 hnative)

end Machine
end ThreadedForth
