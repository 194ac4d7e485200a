/-
  Definitions of words from structured programs.
-/
import Mathlib.Data.List.Forall2
import ThreadedForth.Proofs.Drafting
import ThreadedForth.Proofs.NewMachines
import ThreadedForth.Proofs.Session

namespace ThreadedForth

/-! ## Lines -/

namespace Line

/-- The tokens that are still to be taken from a line. -/
def Yields : Line → List String → Prop
  | l, [] => l.advance.token? = none
  | l, t :: ts => l.advance.token? = some t ∧ l.advance.Yields ts

instance : (l : Line) → (ts : List String) → Decidable (l.Yields ts)
  | l, [] => inferInstanceAs (Decidable (l.advance.token? = none))
  | l, t :: ts =>
    have := instDecidableYields l.advance ts
    inferInstanceAs (Decidable (l.advance.token? = some t ∧ l.advance.Yields ts))

/-- Blanks, and what is left after them. -/
theorem drop_blanks (cs : List Char) (p : Char → Bool) :
    cs.drop (cs.takeWhile p).length = cs.dropWhile p := by
  induction cs with
  | nil => rfl
  | cons c cs ih => cases h : p c <;> simp [h, ih]

/-- A token takes at least one character. -/
theorem advance_token {l : Line} {t : String} (h : l.advance.token? = some t) :
    l.cursor < l.advance.cursor ∧ l.advance.cursor ≤ l.text.length ∧ l.advance.text = l.text ∧
      t.toList ≠ [] := by
  unfold advance at h ⊢
  dsimp only at h ⊢
  cases hd : l.rest.drop (l.rest.takeWhile isBlank).length with
  | nil =>
    rw [hd] at h
    cases h
  | cons c cs =>
    rw [hd] at h
    have hc : isBlank c = false := by
      have := List.head?_dropWhile_not isBlank l.rest
      rw [← drop_blanks, hd] at this
      simpa using this
    have hlen : l.text.length = l.cursor + (l.rest.takeWhile isBlank).length + (cs.length + 1) := by
      have := congrArg List.length hd
      simp only [rest, List.length_drop, List.length_cons] at this ⊢
      omega
    have hone : ((c :: cs).takeWhile fun c => !isBlank c) =
        c :: cs.takeWhile fun c => !isBlank c := by
      simp [hc]
    have hle : (cs.takeWhile fun c => !isBlank c).length ≤ cs.length :=
      (List.takeWhile_sublist _).length_le
    refine ⟨?_, ?_, rfl, ?_⟩
    · simp only [hone, List.length_cons]
      omega
    · simp only [hone, List.length_cons]
      omega
    · cases h
      have htext : l.text.drop (l.cursor + (l.rest.takeWhile isBlank).length) = c :: cs := by
        rw [← hd, rest, List.drop_drop]
      simp [textOf, htext, hone]

/-- A line has at least as many characters as tokens. -/
theorem Yields.length_le {l : Line} {ts : List String} (h : l.Yields ts) :
    ts.length ≤ l.text.length - l.cursor := by
  induction ts generalizing l with
  | nil => exact Nat.zero_le _
  | cons t ts ih =>
    obtain ⟨h₁, h₂, h₃, -⟩ := advance_token h.1
    have := ih h.2
    rw [h₃] at this
    rw [List.length_cons]
    omega

end Line

namespace Machine

variable {m : Machine} {k : BranchWord → WordId} {name : String}

/-! ## Tokens -/

/-- What a token of a definition stands for.  A word that runs while a definition is open has to
    be one of those that compile a part of a control structure. -/
inductive Denotes (m : Machine) (t : String) : Token → Prop
  | number {n : Literal.Number} (hf : m.find? t = none) (hn : Literal.number? t = some n) :
    Denotes m t (.number n.toValue)
  | word {w : WordId} (hf : m.find? t = some w) (hi : (m.heap.word w).immediate = false) :
    Denotes m t (.word w)
  | control {w : WordId} {c : ControlWord} (hf : m.find? t = some w)
    (hi : (m.heap.word w).immediate = true)
    (hc : (m.heap.word w).code = .ok (.native (.control c))) : Denotes m t (.control c)

/-- A primitive that fails, run as a token. -/
theorem execute_fails {p : Primitive} {w : WordId} (hw : (m.heap.word w).code = .ok (.native p))
    (hq : m.interrupt = false) (hp : p.actsOnCaller = false)
    (h : Fails (p.run (m.startRun w .outside))) (fuel : Nat) :
    ∃ r, m.execute (fuel + 1) w = some r ∧ Fails r := by
  obtain ⟨e, x, h⟩ := h
  have hk := (p.run_respects (fun _ => rfl) (Nat.le_refl 1) (by simp [hp])).keeps (by decide)
    (m.startRun w .outside)
  rw [h] at hk
  exact ⟨_, execute_native_error hw hq h hk.2 fuel, _, _, rfl⟩

/-- A run on a machine that holds a draft does what the draft does. -/
def Tracks (m : Machine) (k : BranchWord → WordId) (name : String)
    (r? : Option (EStateM.Result Error Machine Unit)) : Option Draft → Prop
  | some d => r? = some (.ok () (m.holding k name d))
  | none => m.data.items = [] → ∃ r, r? = some r ∧ Fails r

/-- A word of a control structure, run as a token. -/
theorem execute_holding {c : ControlWord} {w : WordId} (ho : m.Opens k) (hq : m.interrupt = false)
    (hf : w ≠ ⟨m.heap.words.size⟩) (hc : (m.heap.word w).code = .ok (.native (.control c)))
    (d : Draft) (hs : d.size < 2 ^ 62) (hd : Draft.depthOf d.opens ≤ m.spare) (fuel : Nat) :
    m.Tracks k name ((m.holding k name d).execute (fuel + 2) w) (d.shift m.spare (.control c)) := by
  have hw : ((m.holding k name d).heap.word w).code = .ok (.native (.control c)) := by
    rw [holding, word_drafting_of_ne hf]
    exact hc
  -- Inside its own run, the word finds the same picture.
  have ho' : (m.startRun w .outside).Opens k :=
    ⟨ho.mode, ho.building, ho.provides.found, ho.provides.code⟩
  have h : (m.startRun w .outside).Follows k name (c.run _)
      (d.shift m.spare (.control c)) := run_holding ho' d c hs hd
  cases hsh : d.shift m.spare (.control c) with
  | some d' =>
    rw [hsh] at h
    have hp : (Primitive.control c).run ((m.holding k name d).startRun w .outside) =
        .ok .next ((m.startRun w .outside).holding k name d') := by
      show thenNext c.run _ = _
      rw [thenNext]
      exact M.bind_ok h
    exact execute_native hw hq hp rfl rfl fuel
  | none =>
    rw [hsh] at h
    intro he
    exact execute_fails hw hq rfl (h he).bind (fuel + 1)

variable (name) in
/-- A token does to the picture what it does to the draft. -/
theorem interpretToken_holding {t : String} {tok : Token} (ho : m.Opens k)
    (hq : m.interrupt = false) (ht : m.Denotes t tok) (d : Draft) (hs : d.size < 2 ^ 62)
    (hd : Draft.depthOf d.opens ≤ m.spare) (fuel : Nat) :
    m.Tracks k name (interpretToken (fuel + 2) t (m.holding k name d)) (d.shift m.spare tok) := by
  have hm : (m.holding k name d).compiler.mode = .compiling := ho.mode
  have hfind : (m.holding k name d).find? t = m.find? t := find?_drafting t
  cases ht with
  | @number n hf hn =>
    have hc : interpretNumber t (m.holding k name d) =
        .ok () (m.holding k name (d.add (.simple (.number n.toValue)))) := by
      have hcm : interpretNumber t (m.holding k name d) =
          M.compileLiteral n.toValue (m.holding k name d) := by
        have hmode : M.mode (m.holding k name d) = .ok .compiling (m.holding k name d) := by
          show EStateM.Result.ok (m.holding k name d).compiler.mode _ = _
          rw [hm]
        simp only [interpretNumber, hn]
        rw [M.bind_ok hmode]
      rw [hcm, holding, compileLiteral_drafting ho]
      exact drafting_simple d (.number n.toValue)
    show interpretToken _ t _ = _
    rw [interpretToken, hfind, hf]
    exact congrArg some hc
  | @word w hf hi =>
    have hw : ((m.holding k name d).heap.word w).immediate = false := by
      rw [holding, word_drafting_of_ne (ne_of_find? hf)]
      exact hi
    have hc : M.compileWord w (m.holding k name d) =
        .ok () (m.holding k name (d.add (.simple (.word w)))) := by
      rw [holding, compileWord_drafting ho.building]
      exact drafting_simple d (.word w)
    show interpretToken _ t _ = _
    rw [interpretToken, hfind, hf]
    simp only [interpretWord, hm, hw]
    exact congrArg some hc
  | @control w c hf hi hc =>
    have hw : ((m.holding k name d).heap.word w).immediate = true := by
      rw [holding, word_drafting_of_ne (ne_of_find? hf)]
      exact hi
    rw [interpretToken, hfind, hf]
    simp only [interpretWord, hm, hw, if_true]
    exact execute_holding ho hq (ne_of_find? hf) hc d hs hd fuel

theorem Denotes.of_eq {m' : Machine} {t : String} {tok : Token} (h : m.Denotes t tok)
    (hd : m'.dictionary = m.dictionary) (hh : m'.heap = m.heap) : m'.Denotes t tok := by
  have hf : m'.find? t = m.find? t := by rw [find?, find?, hd, hh]
  cases h with
  | number h₁ h₂ => exact .number (hf.trans h₁) h₂
  | word h₁ h₂ => exact .word (hf.trans h₁) (hh ▸ h₂)
  | control h₁ h₂ h₃ => exact .control (hf.trans h₁) (hh ▸ h₂) (hh ▸ h₃)

/-! ## Whole definitions -/

/-- The machine with its line read to another place. -/
def atLine (m : Machine) (l : Line) : Machine :=
  { m with line := l }

theorem nextSourceToken_quiet (hq : m.interrupt = false) (hc : m.inComment = false) :
    nextSourceToken m = .ok m.line.advance.token? (m.atLine m.line.advance) := by
  have hi : checkInterrupt m = .ok () m := by
    rw [checkInterrupt, hq]
    rfl
  rw [nextSourceToken, M.bind_ok hi]
  show (if m.inComment = true then _ else _ : M (Option String)) m = _
  rw [hc]
  rfl

/-- The next token of a line, when nothing keeps it from being interpreted. -/
theorem interpret_token {t : String} {r : EStateM.Result Error Machine Unit} {fuel : Nat}
    (hq : m.interrupt = false) (hc : m.inComment = false) (ht : m.line.advance.token? = some t)
    (hr : interpretToken fuel t (m.atLine m.line.advance) = some r) (n : Nat) :
    interpret fuel (n + 1) m =
      match r with
      | .ok _ m' => interpret fuel n m'
      | .error e m' => some (.error e m') := by
  rw [interpret_succ, nextSourceToken_quiet hq hc, ht]
  simp only [hr]
  cases r <;> rfl

theorem interpret_end {fuel : Nat} (hq : m.interrupt = false) (hc : m.inComment = false)
    (ht : m.line.advance.token? = none) (n : Nat) :
    interpret fuel (n + 1) m = some (.ok () (m.atLine m.line.advance)) := by
  rw [interpret_succ, nextSourceToken_quiet hq hc, ht]

variable (name) in
/-- The tokens of a definition: the machine keeps the picture of the draft up to date, or the line
    fails where the draft does. -/
theorem interpret_tokens {ts us : List String} {ks : List Token} (ho : m.Opens k)
    (hq : m.interrupt = false) (hc : m.inComment = false) (hts : List.Forall₂ m.Denotes ts ks)
    {l : Line} (hl : l.Yields (ts ++ us)) (d : Draft) (hs : d.size + 3 * ts.length < 2 ^ 62)
    (hd : Draft.depthOf d.opens ≤ m.spare) (fuel n : Nat) :
    match d.shiftAll m.spare ks with
    | some d' => ∃ l', l'.Yields us ∧
        interpret (fuel + 2) (ts.length + n) ((m.atLine l).holding k name d) =
          interpret (fuel + 2) n ((m.atLine l').holding k name d')
    | none => m.data.items = [] →
        ∃ r, interpret (fuel + 2) (ts.length + n) ((m.atLine l).holding k name d) = some r ∧
          Fails r := by
  induction hts generalizing l d with
  | nil => exact ⟨l, hl, by rw [List.length_nil, Nat.zero_add]⟩
  | @cons t tok ts ks ht _ ih =>
    have ho' : (m.atLine l.advance).Opens k :=
      ⟨ho.mode, ho.building, ho.provides.found, ho.provides.code⟩
    rw [List.length_cons] at hs
    have hf : (m.atLine l.advance).Tracks k name _ (d.shift m.spare tok) :=
      interpretToken_holding name ho' hq (ht.of_eq rfl rfl) d (by omega) hd fuel
    have hn : ts.length + 1 + n = ts.length + n + 1 := by omega
    rw [List.length_cons, hn, Draft.shiftAll]
    cases hsh : d.shift m.spare tok with
    | none =>
      rw [hsh] at hf
      intro he
      obtain ⟨r, hr, e, x, rfl⟩ := hf he
      rw [interpret_token (m := (m.atLine l).holding k name d) hq hc hl.1 hr]
      exact ⟨_, rfl, e, x, rfl⟩
    | some d₁ =>
      rw [hsh] at hf
      rw [interpret_token (m := (m.atLine l).holding k name d) hq hc hl.1 hf]
      have := Draft.size_shift hsh
      exact ih hl.2 d₁ (by omega) (Draft.depthOf_shift hsh hd)

/-- A machine at rest that has the words which definitions are made with. -/
structure CanDefine (m : Machine) (k : BranchWord → WordId) : Prop where
  mode : m.compiler.mode = .interpreting
  quiet : m.interrupt = false
  comment : m.inComment = false
  colon : ∃ w, m.find? ":" = some w ∧ (m.heap.word w).code = .ok (.native (.defining .colon))
  semicolon : ∃ w, m.find? ";" = some w ∧ (m.heap.word w).immediate = true ∧
    (m.heap.word w).code = .ok (.native (.defining .semicolon))
  provides : m.Provides k

/-- A machine on which a definition can be opened and closed. -/
structure CanOpen (m : Machine) : Prop where
  mode : m.compiler.mode = .interpreting
  quiet : m.interrupt = false
  comment : m.inComment = false
  colon : ∃ w, m.find? ":" = some w ∧ (m.heap.word w).code = .ok (.native (.defining .colon))
  semicolon : ∃ w, m.find? ";" = some w ∧ (m.heap.word w).immediate = true ∧
    (m.heap.word w).code = .ok (.native (.defining .semicolon))

/-- The machine that has begun to compile a definition. -/
def opening (m : Machine) (l : Line) : Machine :=
  { m with
    line := l
    compiler :=
      { mode := .compiling
        building? := some ⟨m.heap.words.size⟩
        last? := some ⟨m.heap.words.size⟩
        startDepth := m.data.depth } }

theorem opening_atLine (l l' : Line) : (m.opening l).atLine l' = m.opening l' := rfl

/-- The machine that has finished a definition: the word is on the heap and in the dictionary. -/
def defined (m : Machine) (name : String) (es : List Elem) : Machine :=
  { m with
    heap := (m.heap.addWord { Word.drafted name es with hidden := false }).2
    dictionary := m.dictionary.bind (.ofString name) ⟨m.heap.words.size⟩
    compiler := { m.compiler with mode := .interpreting, building? := none } }

theorem word_defined (es : List Elem) : (m.defined name es).heap.word ⟨m.heap.words.size⟩ =
    { Word.drafted name es with hidden := false } :=
  Heap.word_addWord m.heap _

theorem word_defined_of_ne {v : WordId} (hv : v ≠ ⟨m.heap.words.size⟩) (es : List Elem) :
    (m.defined name es).heap.word v = m.heap.word v :=
  Heap.word_addWord_of_ne m.heap _ hv

theorem find?_defined (es : List Elem) :
    (m.defined name es).find? name = some ⟨m.heap.words.size⟩ := by
  have hl : (m.defined name es).dictionary.lookup? (.ofString name) =
      some ⟨m.heap.words.size⟩ := by
    show (m.dictionary.bind (.ofString name) ⟨m.heap.words.size⟩).lookup? _ = _
    rw [Dictionary.lookup?_bind, if_pos rfl]
  rw [find?, Dictionary.find?, hl]
  simp [Option.filter, word_defined]

theorem CanDefine.opens (h : m.CanDefine k) (l : Line) : (m.opening l).Opens k :=
  ⟨rfl, rfl, h.provides.found, h.provides.code⟩

/-- The machine that has opened a definition. -/
def opened (m : Machine) (name : String) (l : Line) : Machine :=
  { m.opening l with heap := (m.heap.addWord (.opened name)).2 }

/-- `:` takes a name and opens a definition. -/
theorem interpretToken_opens {w : WordId} (hw : m.find? ":" = some w)
    (hcode : (m.heap.word w).code = .ok (.native (.defining .colon)))
    (hm : m.compiler.mode = .interpreting) (hq : m.interrupt = false) {l : Line}
    (ht : l.advance.token? = some name) (fuel : Nat) :
    interpretToken (fuel + 2) ":" (m.atLine l) = some (.ok () (m.opened name l.advance)) := by
  have hfind : (m.atLine l).find? ":" = some w := hw
  have hmode : (m.atLine l).compiler.mode = .interpreting := hm
  have hname : M.nextName ":" ((m.atLine l).startRun w .outside) =
      .ok name ((m.atLine l.advance).startRun w .outside) := by
    have hn : M.nextToken ((m.atLine l).startRun w .outside) =
        .ok (some name) ((m.atLine l.advance).startRun w .outside) :=
      congrArg (EStateM.Result.ok · _) ht
    rw [M.nextName, M.bind_ok hn]
    rfl
  have hact : DefiningWord.act .colon ((m.atLine l).startRun w .outside) = .ok ()
      ((m.opened name l.advance).startRun w .outside) := by
    have hopen := DefiningWord.openDefinition_eq (m := (m.atLine l.advance).startRun w .outside)
      name hm
    rw [DefiningWord.act, M.bind_ok hname, hopen]
    rfl
  have hrun : (Primitive.defining .colon).run ((m.atLine l).startRun w .outside) = .ok .next
      ((m.opened name l.advance).startRun w .outside) := M.bind_ok hact
  rw [interpretToken, hfind]
  simp only [interpretWord, hmode]
  exact execute_native (m := m.atLine l) hcode hq hrun rfl rfl fuel

/-- A definition that has been opened is the picture of an empty draft. -/
theorem interpretToken_colon (h : m.CanDefine k) {l : Line} (ht : l.advance.token? = some name)
    (fuel : Nat) :
    interpretToken (fuel + 2) ":" (m.atLine l) =
      some (.ok () ((m.opening l.advance).holding k name ⟨[], .skip⟩)) := by
  obtain ⟨w, hw, hcode⟩ := h.colon
  exact interpretToken_opens hw hcode h.mode h.quiet ht fuel

theorem checkBalance_ok {x : Machine} (h : x.data.depth = x.compiler.startDepth) :
    DefiningWord.checkBalance x = .ok () x := by
  have hn : ¬ x.compiler.startDepth < x.compiler.startDepth := Nat.lt_irrefl _
  rw [DefiningWord.checkBalance, M.bind_ok (x := MonadState.get) rfl]
  simp only [h, hn, if_false]
  rfl

theorem checkBalance_fails {x : Machine} (h : x.compiler.startDepth < x.data.depth) :
    Fails (DefiningWord.checkBalance x) := by
  have hn : ¬ x.data.depth < x.compiler.startDepth := by omega
  rw [DefiningWord.checkBalance, M.bind_ok (x := MonadState.get) rfl]
  simp only [h, hn, if_false, if_true]
  by_cases hc : (x.data.peek? 0).any (ControlTag.isCode ControlTag.all) = true
  · rw [if_pos hc]
    exact ⟨_, _, rfl⟩
  · rw [if_neg hc]
    exact ⟨_, _, rfl⟩

/-- A word with a name is not anonymous. -/
theorem isAnonymous_drafted (hname : name.toList ≠ []) (es : List Elem) :
    (Word.drafted name es).isAnonymous = false := by
  show (foldCase name).isEmpty = false
  rw [foldCase, Bool.eq_false_iff]
  intro h
  have := congrArg String.toList (String.isEmpty_iff.1 h)
  simp only [String.toList_ofList, String.toList_empty, List.map_eq_nil_iff] at this
  exact hname this

/-- The machine that has finished the definition of a word. -/
def closing (m : Machine) (w : WordId) : Machine :=
  { m with
    compiler := { m.compiler with mode := .interpreting, building? := none }
    dictionary := m.dictionary.bind (m.heap.word w).name w
    heap := m.heap.updateWord w fun x => { x with hidden := false } }

/-- The definition that is finished is the one under construction. -/
theorem closing_drafting (es : List Elem) :
    (m.drafting name es m.data.items).closing ⟨m.heap.words.size⟩ = m.defined name es := by
  have hheap : (m.drafting name es m.data.items).heap.updateWord ⟨m.heap.words.size⟩
      (fun x => { x with hidden := false }) = (m.defined name es).heap := by
    rw [Heap.updateWord, word_drafting]
    exact Heap.setWord_addWord m.heap _ _
  unfold closing
  rw [hheap, word_drafting]
  rfl

/-- `;` finishes a definition that leaves the data stack as deep as it was. -/
theorem semicolon_closes {w : WordId} (hm : m.compiler.mode = .compiling)
    (hw : m.compiler.building? = some w) (hname : (m.heap.word w).isAnonymous = false)
    (hbal : DefiningWord.checkBalance m = .ok () m) :
    DefiningWord.act .semicolon m = .ok () (m.closing w) := by
  have hreq : M.requireCompiling ";" m = .ok () m := by
    show (if m.compiler.mode = .compiling then _ else _ : M Unit) m = _
    rw [if_pos hm]
    rfl
  have hb : M.lift m.compiler.building m = .ok w m := by
    rw [Compiler.building, hw]
    rfl
  have hrev : DefiningWord.reveal m = .ok ()
      { m.closing w with compiler := { m.compiler with building? := none } } := by
    rw [DefiningWord.reveal, M.bind_ok hbal]
    show (M.lift m.compiler.building >>= _) m = _
    rw [M.bind_ok hb]
    simp only [hname]
    rfl
  rw [DefiningWord.act, M.bind_ok hreq, M.bind_ok hrev]
  rfl

/-- What `;` does as a token. -/
theorem interpretToken_close {w : WordId} (hw : m.find? ";" = some w)
    (hi : (m.heap.word w).immediate = true) (hm : m.compiler.mode = .compiling) (fuel : Nat) :
    interpretToken fuel ";" m = m.execute fuel w := by
  rw [interpretToken, hw]
  simp only [interpretWord, hm, hi, if_true]

/-- `;` as a token that finishes a definition. -/
theorem interpretToken_closes {w b : WordId} (hw : m.find? ";" = some w)
    (hi : (m.heap.word w).immediate = true)
    (hcode : (m.heap.word w).code = .ok (.native (.defining .semicolon)))
    (hm : m.compiler.mode = .compiling) (hq : m.interrupt = false)
    (hb : m.compiler.building? = some b) (hname : (m.heap.word b).isAnonymous = false)
    (hbal : ∀ z : Machine, z.data = m.data → z.compiler = m.compiler →
      DefiningWord.checkBalance z = .ok () z) (fuel : Nat) :
    interpretToken (fuel + 2) ";" m = some (.ok () (m.closing b)) := by
  have hact : DefiningWord.act .semicolon (m.startRun w .outside) =
      .ok () ((m.startRun w .outside).closing b) :=
    semicolon_closes hm hb hname (hbal _ rfl rfl)
  have hrun : (Primitive.defining .semicolon).run (m.startRun w .outside) =
      .ok .next ((m.startRun w .outside).closing b) := M.bind_ok hact
  rw [interpretToken_close hw hi hm]
  exact execute_native hcode hq hrun rfl rfl fuel

/-- `;` finishes a definition in which no control structure is open. -/
theorem semicolon_holding (ho : m.Opens k) (hstart : m.compiler.startDepth = m.data.depth)
    (hname : name.toList ≠ []) {d : Draft} (hd : d.opens = []) :
    DefiningWord.act .semicolon (m.holding k name d) = .ok () (m.defined name (d.elems k)) := by
  have hbal : DefiningWord.checkBalance (m.holding k name d) = .ok () (m.holding k name d) := by
    apply checkBalance_ok
    show (Draft.items d.opens ++ m.data.items).length = m.compiler.startDepth
    rw [hstart, hd]
    rfl
  have hclosing : (m.holding k name d).closing ⟨m.heap.words.size⟩ = m.defined name (d.elems k) := by
    rw [holding, hd]
    exact closing_drafting _
  have hw : (m.holding k name d).heap.word ⟨m.heap.words.size⟩ = .drafted name (d.elems k) :=
    word_drafting
  rw [← hclosing]
  exact semicolon_closes ho.mode ho.building (by rw [hw]; exact isAnonymous_drafted hname _) hbal

theorem semicolon_holding_fails (ho : m.Opens k) (hstart : m.compiler.startDepth = m.data.depth) {d : Draft}
    (hd : d.opens ≠ []) : Fails (DefiningWord.act .semicolon (m.holding k name d)) := by
  have hlt : (m.holding k name d).compiler.startDepth < (m.holding k name d).data.depth := by
    show m.compiler.startDepth < (Draft.items d.opens ++ m.data.items).length
    obtain ⟨o, os, ho⟩ := List.exists_cons_of_ne_nil hd
    obtain ⟨a, rest, hi⟩ := Draft.items_cons o os
    rw [hstart, ho, hi, Stack.depth, List.length_append, List.length_cons, List.length_cons]
    omega
  rw [DefiningWord.act, M.bind_ok (requireCompiling_holding ho d ";")]
  exact (checkBalance_fails hlt).bind.bind

/-- `;` as a token. -/
theorem interpretToken_semicolon (ho : m.Opens k) (hq : m.interrupt = false)
    (hstart : m.compiler.startDepth = m.data.depth) (hname : name.toList ≠ []) {w : WordId}
    (hw : m.find? ";" = some w) (hi : (m.heap.word w).immediate = true)
    (hcode : (m.heap.word w).code = .ok (.native (.defining .semicolon))) (d : Draft) (fuel : Nat) :
    ∃ r, interpretToken (fuel + 2) ";" (m.holding k name d) = some r ∧
      if d.opens = [] then r = .ok () (m.defined name (d.elems k)) else Fails r := by
  have hfind : (m.holding k name d).find? ";" = some w := (find?_drafting _).trans hw
  have hmode : (m.holding k name d).compiler.mode = .compiling := ho.mode
  have hword : (m.holding k name d).heap.word w = m.heap.word w :=
    word_drafting_of_ne (ne_of_find? hw)
  have hcode' : ((m.holding k name d).heap.word w).code =
      .ok (.native (.defining .semicolon)) := hword ▸ hcode
  have ho' : (m.startRun w .outside).Opens k :=
    ⟨ho.mode, ho.building, ho.provides.found, ho.provides.code⟩
  have hexec : interpretToken (fuel + 2) ";" (m.holding k name d) =
      (m.holding k name d).execute (fuel + 2) w := by
    rw [interpretToken, hfind]
    simp only [interpretWord, hmode, hword, hi, if_true]
  rw [hexec]
  split
  · rename_i hd
    have hact := semicolon_holding (m := m.startRun w .outside) ho' hstart hname hd
    have hrun : (Primitive.defining .semicolon).run ((m.holding k name d).startRun w .outside) =
        .ok .next ((m.startRun w .outside).defined name (d.elems k)) := M.bind_ok hact
    exact ⟨_, execute_native hcode' hq hrun rfl rfl fuel, rfl⟩
  · rename_i hd
    have hact : Fails (DefiningWord.act .semicolon ((m.startRun w .outside).holding k name d)) :=
      semicolon_holding_fails ho' hstart hd
    exact execute_fails hcode' hq rfl hact.bind (fuel + 1)

/-- The end of a line with a definition: `;`, and nothing after it. -/
theorem interpret_close {w : WordId} (ho : m.Opens k) (hq : m.interrupt = false)
    (hc : m.inComment = false) (hstart : m.compiler.startDepth = m.data.depth) (hname : name.toList ≠ [])
    (hw : m.find? ";" = some w) (hi : (m.heap.word w).immediate = true)
    (hcode : (m.heap.word w).code = .ok (.native (.defining .semicolon)))
    (hl : m.line.Yields [";"]) (d : Draft) (fuel n : Nat) :
    ∃ r, interpret (fuel + 2) (n + 2) (m.holding k name d) = some r ∧
      if d.opens = [] then r = .ok () ((m.atLine m.line.advance.advance).defined name (d.elems k))
      else Fails r := by
  have ho' : (m.atLine m.line.advance).Opens k :=
    ⟨ho.mode, ho.building, ho.provides.found, ho.provides.code⟩
  obtain ⟨r, hr, h⟩ := interpretToken_semicolon ho' hq hstart hname hw hi hcode d fuel
  rw [interpret_token (m := m.holding k name d) hq hc hl.1 hr]
  split at h
  · rename_i hd
    subst h
    refine ⟨_, interpret_end (m := (m.atLine m.line.advance).defined name (d.elems k)) hq hc hl.2 n, ?_⟩
    rw [if_pos hd]
    rfl
  · rename_i hd
    obtain ⟨e, x, rfl⟩ := h
    exact ⟨_, rfl, by rw [if_neg hd]; exact ⟨e, x, rfl⟩⟩

/-- A line with a definition: it succeeds if the draft is read to its end and nothing is open
    then. -/
theorem interpret_definition (h : m.CanDefine k) {ts : List String} {ks : List Token}
    (hts : List.Forall₂ m.Denotes ts ks)
    (hl : m.line.Yields (":" :: name :: (ts ++ [";"]))) (hfit : 3 * ts.length ≤ slotLimit)
    (fuel n : Nat) :
    match Draft.shiftAll m.spare ⟨[], .skip⟩ ks with
    | some ⟨[], p⟩ => ∃ l, interpret (fuel + 2) (ts.length + n + 3) m =
        some (.ok () ((m.opening l).defined name (p.layout k 1)))
    | _ => m.data.items = [] →
        ∃ r, interpret (fuel + 2) (ts.length + n + 3) m = some r ∧ Fails r := by
  obtain ⟨hcolon, hname, hrest⟩ := hl
  obtain ⟨w, hw, hi, hcode⟩ := h.semicolon
  have hne : name.toList ≠ [] := (Line.advance_token hname).2.2.2
  have hs : Draft.size ⟨[], .skip⟩ + 3 * ts.length < 2 ^ 62 := by
    simp only [Draft.size, Draft.sizeBefore, Prog.size, slotLimit] at *
    omega
  have hts' : List.Forall₂ (m.opening m.line.advance.advance).Denotes ts ks :=
    hts.imp fun _ _ ht => ht.of_eq rfl rfl
  have hread := interpret_tokens name (m := m.opening m.line.advance.advance)
    (h.opens _) h.quiet h.comment hts' hrest ⟨[], .skip⟩ hs (Nat.zero_le _) fuel (n + 2)
  have hspare : (m.opening m.line.advance.advance).spare = m.spare := rfl
  simp only [opening_atLine] at hread
  have hn : ts.length + n + 3 = ts.length + (n + 2) + 1 := by omega
  rw [hn, interpret_token h.quiet h.comment hcolon (interpretToken_colon h hname fuel)]
  rw [hspare] at hread
  cases hsh : Draft.shiftAll m.spare ⟨[], .skip⟩ ks with
  | none =>
    rw [hsh] at hread
    exact hread
  | some d =>
    rw [hsh] at hread
    obtain ⟨l, hl, heq⟩ := hread
    obtain ⟨r, hr, hclose⟩ := interpret_close (m := m.opening l) (k := k) (h.opens l) h.quiet
      h.comment rfl hne hw hi hcode hl d fuel n
    rw [opening_atLine] at hclose
    obtain ⟨_ | ⟨o, os⟩, p⟩ := d
    · rw [if_pos rfl] at hclose
      subst hclose
      exact ⟨_, heq.trans hr⟩
    · rw [if_neg (List.cons_ne_nil _ _)] at hclose
      exact fun _ => ⟨r, heq.trans hr, hclose⟩

/-- A line with a definition defines a word from a program for which there is room; with nothing
    else on the data stack, it fails if its tokens are not those of one. -/
theorem interpret_program (h : m.CanDefine k) {ts : List String} {ks : List Token}
    (hts : List.Forall₂ m.Denotes ts ks)
    (hl : m.line.Yields (":" :: name :: (ts ++ [";"]))) (hfit : 3 * ts.length ≤ slotLimit)
    {fuel : Nat} (hfuel : 2 ≤ fuel) :
    ((∃ p : Prog, p.tokens = ks ∧ p.room ≤ m.spare) →
      ∃ l, ∀ p : Prog, p.tokens = ks → interpret fuel (m.line.text.length + 2) m =
        some (.ok () ((m.opening l).defined name (p.layout k 1)))) ∧
    ((¬ ∃ p : Prog, p.tokens = ks ∧ p.room ≤ m.spare) → m.data.items = [] →
      ∃ r, interpret fuel (m.line.text.length + 2) m = some r ∧ Fails r) := by
  have hlen := hl.length_le
  simp only [List.length_cons, List.length_append, List.length_nil] at hlen
  obtain ⟨n, hn⟩ : ∃ n, m.line.text.length + 2 = ts.length + n + 3 :=
    ⟨m.line.text.length - ts.length - 1, by omega⟩
  obtain ⟨f, rfl⟩ : ∃ f, fuel = f + 2 := ⟨fuel - 2, by omega⟩
  have hcase := interpret_definition h hts hl hfit f n
  rw [← hn] at hcase
  constructor
  · intro hp
    obtain ⟨p, hsh⟩ := (Draft.shiftAll_eq_some_iff ks).2 hp
    rw [hsh] at hcase
    obtain ⟨l, hl⟩ := hcase
    have hpt := Draft.tokens_shiftAll hsh
    simp only [Draft.tokens, Draft.tokensBefore, Prog.tokens, List.nil_append] at hpt
    exact ⟨l, fun q hq => by rw [hl, Prog.layout_eq_of_tokens k (hpt.trans hq.symm)]⟩
  · intro hp
    rcases hsh : Draft.shiftAll m.spare ⟨[], .skip⟩ ks with _ | ⟨_ | ⟨o, os⟩, p⟩
    · rw [hsh] at hcase
      exact hcase
    · exact absurd ((Draft.shiftAll_eq_some_iff ks).1 ⟨p, hsh⟩) hp
    · rw [hsh] at hcase
      exact hcase

theorem body_defined (es : List Elem) :
    ((m.defined name es).heap.word ⟨m.heap.words.size⟩).body.toList = .direct .docol :: es := by
  rw [word_defined]
  rfl

/-- A definition is accepted exactly if its tokens are those of a structured program for which
    there is room.  The body of the word is then the code of that program, in which each jump goes
    to the start of an instruction or to the end. -/
theorem definition_iff_well_nested (h : m.CanDefine k) (hempty : m.data.items = [])
    {ts : List String} {ks : List Token} (hts : List.Forall₂ m.Denotes ts ks)
    (hl : m.line.Yields (":" :: name :: (ts ++ [";"]))) (hfit : 3 * ts.length ≤ slotLimit)
    {fuel : Nat} (hfuel : 2 ≤ fuel) :
    ∃ r, interpret fuel (m.line.text.length + 2) m = some r ∧
      processLine fuel m = some (closeLine r) ∧
      ((∃ m', r = .ok () m') ↔ ∃ p : Prog, p.tokens = ks ∧ p.room ≤ m.data.capacity) ∧
      ∀ m', r = .ok () m' →
        m'.data.items = [] ∧ m'.compiler.mode = .interpreting ∧
        ∃ w, m'.find? name = some w ∧ ∀ p : Prog, p.tokens = ks →
          (m'.heap.word w).body.toList = .direct .docol :: p.layout k 1 ∧
          ∀ t, .address t ∈ p.code k 1 →
            1 ≤ t ∧ t ≤ (m'.heap.word w).size ∧ Instr.Lands 1 (p.code k 1) t := by
  have hspare : m.spare = m.data.capacity := by
    rw [spare, Stack.depth, hempty, List.length_nil, Nat.sub_zero]
  obtain ⟨hok, hfails⟩ := interpret_program h hts hl hfit hfuel
  rw [hspare] at hok hfails
  by_cases hp : ∃ p : Prog, p.tokens = ks ∧ p.room ≤ m.data.capacity
  · obtain ⟨l, hdef⟩ := hok hp
    obtain ⟨p, hpt, -⟩ := id hp
    have hr := hdef p hpt
    refine ⟨_, hr, by rw [processLine_eq, hr]; rfl, ⟨fun _ => hp, fun _ => ⟨_, rfl⟩⟩, ?_⟩
    rintro _ ⟨⟩
    refine ⟨hempty, rfl, _, find?_defined _, fun q hq => ?_⟩
    have hbody : (((m.opening l).defined name (p.layout k 1)).heap.word
        ⟨(m.opening l).heap.words.size⟩).body.toList = .direct .docol :: q.layout k 1 := by
      rw [Prog.layout_eq_of_tokens k (hq.trans hpt.symm)]
      exact body_defined _
    refine ⟨hbody, fun t ht => ?_⟩
    have hlands := Prog.address_lands k 1 q ht
    have hsize := congrArg List.length hbody
    rw [List.length_cons, Prog.length_layout, Array.length_toList] at hsize
    have hle := hlands.le
    rw [Prog.total_code] at hle
    exact ⟨hle.1, by rw [Word.size]; omega, hlands⟩
  · obtain ⟨r, hr, e, x, rfl⟩ := hfails hp hempty
    refine ⟨_, hr, by rw [processLine_eq, hr]; rfl, ⟨?_, fun hp' => absurd hp' hp⟩, ?_⟩
    · rintro ⟨m', hx⟩
      cases hx
    · intro m' hx
      cases hx

/-- A machine with a definition on its line, and with the words for it. -/
def sample : Machine :=
  after (fill ": w if dup then ;" (ofNames {}
    ([":", ";", "if", "then", "dup"] ++ BranchWord.compiled.map BranchWord.label)))

theorem sample_eq : sample = after (fill ": w if dup then ;" (stocked {} (supply
    ([⟨"dup", .stack .dup, false⟩, ⟨":", .defining .colon, false⟩, ⟨";", .defining .semicolon, true⟩,
      ⟨"if", .control .openIf, true⟩, ⟨"then", .control .closeIf, true⟩] ++
      BranchWord.compiled.map fun b => ⟨b.label, .branch b, false⟩)))) :=
  congrArg (after <| fill _ ·) (ofNames_eq _ _ (by decide) (by decide))

/-- The words that control structures compile on it. -/
def sampleWord (b : BranchWord) : WordId :=
  (sample.find? b.label).getD ⟨0⟩

theorem sample_spec :
    ((sample.compiler.mode = .interpreting ∧ sample.interrupt = false ∧
        sample.inComment = false) ∧
      (sample.find? ":" = some ⟨1⟩ ∧
        (sample.heap.word ⟨1⟩).code = .ok (.native (.defining .colon))) ∧
      (sample.find? ";" = some ⟨2⟩ ∧ (sample.heap.word ⟨2⟩).immediate = true ∧
        (sample.heap.word ⟨2⟩).code = .ok (.native (.defining .semicolon))) ∧
      (∀ b ∈ BranchWord.compiled, sample.find? b.label = some (sampleWord b)) ∧
      ∀ b ∈ BranchWord.compiled,
        (sample.heap.word (sampleWord b)).code = .ok (.native (.branch b))) ∧
    sample.line.Yields (":" :: "w" :: (["if", "dup", "then"] ++ [";"])) ∧
    ((sample.find? "if" = some ⟨3⟩ ∧ (sample.heap.word ⟨3⟩).immediate = true ∧
        (sample.heap.word ⟨3⟩).code = .ok (.native (.control .openIf))) ∧
      (sample.find? "dup" = some ⟨0⟩ ∧ (sample.heap.word ⟨0⟩).immediate = false) ∧
      sample.find? "then" = some ⟨4⟩ ∧ (sample.heap.word ⟨4⟩).immediate = true ∧
        (sample.heap.word ⟨4⟩).code = .ok (.native (.control .closeIf))) ∧
    sample.data.items = [] ∧ 2 ≤ sample.data.capacity := by
  unfold sampleWord
  rw [sample_eq]
  decide +kernel

theorem sample_canDefine : sample.CanDefine sampleWord := by
  obtain ⟨⟨⟨h₁, h₂, h₃⟩, h₄, h₅, h₆, h₇⟩, -⟩ := sample_spec
  exact ⟨h₁, h₂, h₃, ⟨_, h₄⟩, ⟨_, h₅⟩, h₆, h₇⟩

theorem sample_line : sample.line.Yields (":" :: "w" :: (["if", "dup", "then"] ++ [";"])) :=
  sample_spec.2.1

theorem sample_denotes : List.Forall₂ sample.Denotes ["if", "dup", "then"]
    [.control .openIf, .word ⟨0⟩, .control .closeIf] := by
  obtain ⟨⟨h₁, h₂, h₃⟩, ⟨h₄, h₅⟩, h₆, h₇, h₈⟩ := sample_spec.2.2.1
  exact .cons (.control h₁ h₂ h₃) (.cons (.word h₄ h₅) (.cons (.control h₆ h₇ h₈) .nil))

/-- A conditional is accepted, and its jump goes to the end of the body. -/
theorem definition_iff_well_nested_of_sample :
    sample.CanDefine sampleWord ∧ sample.data.items = [] ∧
    sample.line.Yields (":" :: "w" :: (["if", "dup", "then"] ++ [";"])) ∧
    ∃ m' w, interpret 2 (sample.line.text.length + 2) sample = some (.ok () m') ∧
      m'.find? "w" = some w ∧
      (m'.heap.word w).body.toList = [.direct .docol, .call (sampleWord .inlineLiteral),
        .lit (.nat 5), .call (sampleWord .jumpIfFalse), .call ⟨0⟩] := by
  obtain ⟨hempty, hcap⟩ := sample_spec.2.2.2
  refine ⟨sample_canDefine, hempty, sample_line, ?_⟩
  obtain ⟨r, hr, -, hiff, hall⟩ := definition_iff_well_nested sample_canDefine hempty
    sample_denotes sample_line (by decide) (Nat.le_refl 2)
  have hp : Prog.tokens (.ifThen (.simple (.word ⟨0⟩))) =
      [.control .openIf, .word ⟨0⟩, .control .closeIf] := rfl
  have hlayout : ∀ k : BranchWord → WordId, Prog.layout k 1 (.ifThen (.simple (.word ⟨0⟩))) =
      [.call (k .inlineLiteral), .lit (.nat 5), .call (k .jumpIfFalse), .call ⟨0⟩] := fun _ => rfl
  obtain ⟨m', rfl⟩ := hiff.2 ⟨_, hp, hcap⟩
  obtain ⟨-, -, w, hw, hbody⟩ := hall m' rfl
  refine ⟨m', w, hr, hw, ?_⟩
  rw [(hbody _ hp).1, hlayout]

end Machine
end ThreadedForth
