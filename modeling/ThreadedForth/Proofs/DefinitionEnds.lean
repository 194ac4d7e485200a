/-
  The ways in which `;` ends a definition or fails to.
-/
import ThreadedForth.Proofs.Overlays
import ThreadedForth.Proofs.Ownership

namespace ThreadedForth

variable {m m' : Machine}

namespace Machine

/-- A definition of the word `w` that nothing but a full data stack can keep from ending. -/
structure Closable (m : Machine) (w : WordId) : Prop where
  mode : m.compiler.mode = .compiling
  balanced : DefiningWord.imbalance? m.data m.compiler.startDepth = none
  building : m.compiler.building? = some w

/-- The machine with its word under construction visible, and with no owner. -/
def disowning (m : Machine) (w : WordId) : Machine :=
  { m with
    compiler := { m.compiler with building? := none }
    heap := m.heap.updateWord w fun u => { u with hidden := false } }

/-- The machine with its definition ended and the word `w` handed over: bound if it has a name,
    and on the data stack if it has none. -/
structure HandsOver (m : Machine) (w : WordId) (m' : Machine) : Prop where
  compiler : m'.compiler = { m.compiler with mode := .interpreting, building? := none }
  visible : m'.heap.word w = { m.heap.word w with hidden := false }
  others : ∀ v, v ≠ w → m'.heap.word v = m.heap.word v
  named : (m.heap.word w).isAnonymous = false →
    m'.dictionary = m.dictionary.bind (m.heap.word w).name w ∧ m'.data = m.data ∧
      ∀ name, Name.ofString name = (m.heap.word w).name → m'.find? name = some w
  anonymous : (m.heap.word w).isAnonymous = true →
    m'.dictionary = m.dictionary ∧ m'.data = { m.data with items := .xt w :: m.data.items }

/-- A word that is bound and visible is found by its name, however its letters are written. -/
theorem find?_of_bind {d : Dictionary} {n : Name} {w : WordId} (hd : m'.dictionary = d.bind n w)
    (hw : (m'.heap.word w).hidden = false) {name : String} (hname : Name.ofString name = n) :
    m'.find? name = some w := by
  rw [find?, Dictionary.find?, hd, Dictionary.lookup?_bind, if_pos hname]
  simp [hw]

end Machine

namespace DefiningWord

open Machine

/-- How `;` ends. -/
inductive Ending (m : Machine) : EStateM.Result Error Machine Unit → Prop
  /-- It refuses to end the definition, and nothing has changed. -/
  | refused {e : Error} (h : ∀ w, ¬ m.Closable w) : Ending m (.error e m)
  /-- A word without a name does not fit on the data stack, and nobody owns it any more. -/
  | disowned {w : WordId} (h : m.Closable w) (ha : (m.heap.word w).isAnonymous = true)
      (hfull : m.data.capacity ≤ m.data.depth) :
    Ending m (.error (.stackFull m.data.kind) (m.disowning w))
  | ended {w : WordId} {m' : Machine} (h : m.Closable w) (hd : m.HandsOver w m') :
    Ending m (.ok () m')

theorem semicolon_eq (m : Machine) : act .semicolon m =
    if m.compiler.mode = .compiling then
      match reveal m with
      | .ok _ m' => .ok () { m' with compiler := { m'.compiler with mode := .interpreting } }
      | .error e m' => .error e m'
    else .error (.compileState (.onlyInDefinition ";")) m := by
  have hmode : M.mode m = .ok m.compiler.mode m := rfl
  by_cases hm : m.compiler.mode = .compiling
  · have hreq : M.requireCompiling ";" m = .ok () m := by
      rw [M.requireCompiling, M.bind_ok hmode, if_pos hm]
      rfl
    rw [act, M.bind_ok hreq, if_pos hm]
    cases hr : reveal m with
    | ok u m' => rw [M.bind_ok hr]; rfl
    | error e m' => rw [M.bind_error hr]
  · have hreq : M.requireCompiling ";" m = .error (.compileState (.onlyInDefinition ";")) m := by
      rw [M.requireCompiling, M.bind_ok hmode, if_neg hm]
      rfl
    rw [act, M.bind_error hreq, if_neg hm]

theorem reveal_closable {w : WordId} (hc : m.Closable w) : reveal m =
    if (m.heap.word w).isAnonymous then M.push (.xt w) (m.disowning w)
    else .ok () (m.revealing w) := by
  rw [reveal_eq, hc.balanced, hc.building]
  rfl

theorem reveal_not_closable (hm : m.compiler.mode = .compiling) (h : ∀ w, ¬ m.Closable w) :
    ∃ e, reveal m = .error e m := by
  rw [reveal_eq]
  cases hi : imbalance? m.data m.compiler.startDepth with
  | some e => exact ⟨e, rfl⟩
  | none =>
    cases hb : m.compiler.building? with
    | none => exact ⟨_, rfl⟩
    | some w => exact absurd ⟨hm, hi, hb⟩ (h w)

theorem word_revealed {w : WordId} (hw : m.heap.Has (.word w)) (v : WordId) :
    (m.heap.updateWord w fun u => { u with hidden := false }).word v =
      if v = w then { m.heap.word w with hidden := false } else m.heap.word v := by
  rw [Heap.word_updateWord]
  simp only [show w.index < m.heap.words.size from hw, and_true]

/-- A word with a name is bound in the dictionary. -/
theorem ending_of_named {w : WordId} (hc : m.Closable w) (hw : m.heap.Has (.word w))
    (hn : (m.heap.word w).isAnonymous = false) :
    Ending m (.ok () { m.revealing w with
      compiler := { (m.revealing w).compiler with mode := .interpreting } }) :=
  .ended hc
    { compiler := rfl
      visible := (word_revealed hw w).trans (if_pos rfl)
      others := fun v hv => (word_revealed hw v).trans (if_neg hv)
      named := fun _ => ⟨rfl, rfl, fun name hname => find?_of_bind rfl
        (congrArg Word.hidden ((word_revealed hw w).trans (if_pos rfl))) hname⟩
      anonymous := fun ha => by simp [hn] at ha }

/-- A word without a name is left on the data stack. -/
theorem ending_of_anonymous {w : WordId} (hc : m.Closable w) (hw : m.heap.Has (.word w))
    (ha : (m.heap.word w).isAnonymous = true) :
    Ending m (.ok () { m.disowning w with
      compiler := { (m.disowning w).compiler with mode := .interpreting }
      data := { m.data with items := .xt w :: m.data.items } }) :=
  .ended hc
    { compiler := rfl
      visible := (word_revealed hw w).trans (if_pos rfl)
      others := fun v hv => (word_revealed hw v).trans (if_neg hv)
      named := fun hn => by simp [ha] at hn
      anonymous := fun _ => ⟨rfl, rfl⟩ }

/-- `;` ends in one of the three ways. -/
theorem semicolon_ending (hb : ∀ w, m.compiler.building? = some w → m.heap.Has (.word w)) :
    Ending m (act .semicolon m) := by
  rw [semicolon_eq]
  by_cases hm : m.compiler.mode = .compiling
  swap
  · rw [if_neg hm]
    exact .refused fun w h => hm h.mode
  rw [if_pos hm]
  by_cases hclose : ∃ w, m.Closable w
  swap
  · obtain ⟨e, he⟩ := reveal_not_closable hm (not_exists.1 hclose)
    rw [he]
    exact .refused (not_exists.1 hclose)
  obtain ⟨w, hc⟩ := hclose
  rw [reveal_closable hc]
  cases ha : (m.heap.word w).isAnonymous with
  | false => exact ending_of_named hc (hb w hc.building) ha
  | true =>
    -- the push is the last thing that can fail, and by now the word is in nobody's hands
    by_cases hroom : m.data.depth < m.data.capacity
    · have hp : M.push (.xt w) (m.disowning w) = .ok ()
          { m.disowning w with data := { m.data with items := .xt w :: m.data.items } } := by
        simp [M.push, Stack.push, disowning, hroom]
      rw [if_pos rfl, hp]
      exact ending_of_anonymous hc (hb w hc.building) ha
    · have hp : M.push (.xt w) (m.disowning w) =
          .error (.stackFull m.data.kind) (m.disowning w) := by
        simp [M.push, Stack.push, disowning, hroom]
      rw [if_pos rfl, hp]
      exact .disowned hc ha (Nat.le_of_not_lt hroom)

theorem act_blind : Blind (act .semicolon) :=
  (act_uses .semicolon (.beyondContext rfl rfl)).blind

/-- **The end of a definition.**  Whatever the mode, the depths and the capacities, `;` ends in one
    of three ways: it refuses, and everything is as before; or the definition is over, and its word
    is bound under its name or, if it has none, left on the data stack; or the word has no name and
    does not fit on the data stack, and then it is neither hidden nor under construction any more,
    while everything else is as before.  Run from outside, `;` does the same, unless an interrupt
    comes first. -/
theorem definition_ends_or_stays
    (hb : ∀ w, m.compiler.building? = some w → m.heap.Has (.word w)) :
    Ending m (act .semicolon m) ∧
    ∀ x fuel, (m.heap.word x).code = .ok (.native (.defining .semicolon)) →
      m.execute (fuel + 2) x = some (if m.interrupt then
        .error .interrupted { m with interrupt := false } else act .semicolon m) :=
  ⟨semicolon_ending hb, fun _ fuel hx => Machine.execute_thenNext rfl act_blind hx fuel⟩

/-- A machine that is about to define a word with a name. -/
def naming : Machine :=
  after (openDefinition "Twice" (Machine.empty {}))

/-- The name is bound, whatever the case of its letters. -/
theorem definition_ends_or_stays_of_naming :
    (∀ w, naming.compiler.building? = some w → naming.heap.Has (.word w)) ∧
      ∃ m', act .semicolon naming = .ok () m' ∧ naming.HandsOver ⟨0⟩ m' ∧
        m'.find? "tWICE" = some ⟨0⟩ := by
  have hbuild : naming.compiler.building? = some ⟨0⟩ := rfl
  have hb : ∀ w, naming.compiler.building? = some w → naming.heap.Has (.word w) := by
    intro w hw
    cases hbuild.symm.trans hw
    exact Nat.zero_lt_one
  have hc : naming.Closable ⟨0⟩ := ⟨rfl, rfl, rfl⟩
  refine ⟨hb, ?_⟩
  have he := (definition_ends_or_stays hb).1
  generalize act .semicolon naming = r at he
  cases he with
  | refused h => exact absurd hc (h _)
  | disowned h ha _ =>
    cases h.building.symm.trans hc.building
    exact absurd ha (by decide +kernel)
  | ended h hd =>
    cases h.building.symm.trans hc.building
    exact ⟨_, rfl, hd, (hd.named (by decide +kernel)).2.2 _ (by decide +kernel)⟩

/-- A machine that is about to define a word without a name, and can hold nothing on its data
    stack. -/
def narrow : Machine :=
  after (openDefinition "" (Machine.empty { dataStack := 0 }))

/-- A definition can be lost because the stack that takes its word is full. -/
theorem full_stack_takes_definition :
    ¬ ∀ (m m' : Machine) (e : Error), act .semicolon m = .error e m' →
      m'.compiler.building? = m.compiler.building? := by
  intro h
  have hlost : act .semicolon narrow =
      .error (.stackFull .data) (narrow.disowning ⟨0⟩) := rfl
  cases h _ _ _ hlost

end DefiningWord
end ThreadedForth
