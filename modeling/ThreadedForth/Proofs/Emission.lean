/-
  The code that compile-time words add.
-/
import ThreadedForth.Proofs.HeapShape
import ThreadedForth.Proofs.Runs

namespace ThreadedForth

variable {α β : Type}

/-! ## The names that compile-time words look up -/

/-- The names of the words that a word of a control structure adds calls of. -/
def ControlWord.emits : ControlWord → List String
  | openIf | whileFlag | untilFlag => ["(literal)", "jumponfalse"]
  | elseBranch | again | repeatLoop => ["(literal)", "jump"]
  | openCount maySkip => ["(literal)", enterWord maySkip]
  | closeCount stepped => ["(literal)", advanceWord stepped]
  | leave => ["(leave)"]
  | unloop => ["(unloop)"]
  | closeIf | beginLoop | recurse => []

/-- The names of the words that a primitive adds calls of while a definition is compiled, if it is
    one that does nothing else then. -/
def Primitive.emits? : Primitive → Option (List String)
  | .control c => some c.emits
  | .defining .literal | .defining .bracketTick | .defining .bracketChar | .defining .string =>
    some ["(literal)"]
  | .defining .printString => some ["(literal)", "type"]
  | .defining .postpone => some []
  | .memory .does => some ["(does>)"]
  | _ => none

namespace Machine

variable {m x y : Machine} {ws : List WordId}

/-! ## The calls that are added -/

/-- The name leads to one of the words. -/
def Offers (m : Machine) (ws : List WordId) (name : String) : Prop :=
  ∃ w ∈ ws, m.find? name = some w

/-- Every call in the word under construction was there before, or is a call of one of the words. -/
def AddsCalls (m m' : Machine) (ws : List WordId) : Prop :=
  ∀ b, m.compiler.building? = some b → ∀ (i : Nat) (u : WordId),
    (m'.heap.word b).body[i]? = some (.call u) → (m.heap.word b).body[i]? = some (.call u) ∨ u ∈ ws

/-- What compile-time words leave as it was, apart from the calls of the given words that they add:
    the same word is under construction, and names lead to the same words. -/
structure Adds (m : Machine) (ws : List WordId) (x : Machine) : Prop where
  dictionary : x.dictionary = m.dictionary
  hidden : ∀ w, (x.heap.word w).hidden = (m.heap.word w).hidden
  building : x.compiler.building? = m.compiler.building?
  calls : m.AddsCalls x ws

namespace Adds

theorem refl (m : Machine) (ws : List WordId) : m.Adds ws m :=
  ⟨rfl, fun _ => rfl, rfl, fun _ _ _ _ hc => .inl hc⟩

theorem find? (h : m.Adds ws x) (name : String) : x.find? name = m.find? name := by
  unfold Machine.find? Dictionary.find?
  rw [h.dictionary]
  congr 1
  funext w
  rw [h.hidden]

/-- A change that the words and the dictionary have no part in. -/
theorem same (h : m.Adds ws x) (hd : y.dictionary = x.dictionary)
    (hw : y.heap.words = x.heap.words) (hb : y.compiler.building? = x.compiler.building?) :
    m.Adds ws y := by
  have hword : ∀ w, y.heap.word w = x.heap.word w := by
    intro w
    unfold Heap.word
    rw [hw]
  refine ⟨hd.trans h.dictionary, fun w => ?_, hb.trans h.building, fun b hm i u hu => ?_⟩
  · rw [hword]
    exact h.hidden w
  · rw [hword] at hu
    exact h.calls b hm i u hu

/-- A change of the body of a word. -/
theorem setWord (h : m.Adds ws x) (b : WordId) {body : Array Elem}
    (hc : ∀ (i : Nat) (u : WordId), body[i]? = some (.call u) →
      (x.heap.word b).body[i]? = some (.call u) ∨ u ∈ ws) :
    m.Adds ws { x with heap := x.heap.setWord b { x.heap.word b with body } } := by
  refine ⟨h.dictionary, fun w => ?_, h.building, fun v hv i u hu => ?_⟩
  · show ((x.heap.setWord b _).word w).hidden = _
    rw [Heap.word_setWord]
    split
    · rename_i hw
      rw [hw.1]
      exact h.hidden b
    · exact h.hidden w
  · have hold := h.calls v hv i u
    change ((x.heap.setWord b _).word v).body[i]? = _ at hu
    rw [Heap.word_setWord] at hu
    split at hu
    · rename_i hw
      rw [hw.1] at hold ⊢
      exact (hc i u hu).elim hold .inr
    · exact hold hu

end Adds

/-- A computation that adds calls of the words at most. -/
def Adding (m : Machine) (ws : List WordId) (act : M α) : Prop :=
  ∀ x, m.Adds ws x → m.Adds ws (after (act x))

namespace Adding

theorem pure (a : α) : m.Adding ws (Pure.pure a : M α) :=
  fun _ h => h

theorem throw (e : Error) : m.Adding ws (MonadExcept.throw e : M α) :=
  fun _ h => h

theorem lift (r : Except Error α) : m.Adding ws (M.lift r) := by
  intro x h
  cases r <;> exact h

theorem bind {act : M α} {f : α → M β} (ha : m.Adding ws act) (hf : ∀ a, m.Adding ws (f a)) :
    m.Adding ws (act >>= f) := by
  intro x h
  have h' := ha x h
  cases hr : act x with
  | ok a y =>
    rw [hr] at h'
    rw [M.bind_ok hr]
    exact hf a y h'
  | error e y =>
    rw [hr] at h'
    rw [M.bind_error hr]
    exact h'

theorem ite {p : Prop} [Decidable p] {f g : M α} (hf : m.Adding ws f) (hg : m.Adding ws g) :
    m.Adding ws (if p then f else g) := by
  split
  · exact hf
  · exact hg

/-! ### The stacks, the line and the output -/

theorem pop : m.Adding ws M.pop := by
  intro x h
  unfold M.pop
  cases x.data.pop with
  | ok r => exact h.same rfl rfl rfl
  | error e => exact h

theorem push (v : Value) : m.Adding ws (M.push v) := by
  intro x h
  unfold M.push
  cases x.data.push v with
  | ok data => exact h.same rfl rfl rfl
  | error e => exact h

theorem peek (n : Nat) : m.Adding ws (M.peek n) := by
  intro x h
  unfold M.peek
  cases x.data.peek n <;> exact h

theorem popInt : m.Adding ws M.popInt :=
  pop.bind fun v => lift v.toInt

theorem put (piece : String) : m.Adding ws (M.put piece) := by
  intro x h
  unfold M.put
  cases x.output.push piece with
  | ok output => exact h.same rfl rfl rfl
  | error e => exact h

theorem nextName (reader : String) : m.Adding ws (M.nextName reader) := by
  have hnext : m.Adding ws M.nextToken := fun _ h => h.same rfl rfl rfl
  refine hnext.bind fun t => ?_
  cases t with
  | some name => exact .pure name
  | none => exact .throw _

theorem nextWord (reader : String) : m.Adding ws (M.nextWord reader) := by
  refine (nextName reader).bind fun name x h => ?_
  rw [M.bind_ok (x := MonadState.get) rfl]
  cases x.find? name <;> exact h

theorem nextChar (reader : String) : m.Adding ws (DefiningWord.nextChar reader) := by
  refine (nextName reader).bind fun name => ?_
  cases name.toList with
  | nil => exact .throw _
  | cons c _ => exact .pure _

theorem nextText : m.Adding ws M.nextText := by
  intro x h
  unfold M.nextText
  rcases x.line.takeUntil '\x22' with ⟨_ | _, _⟩ <;> exact h.same rfl rfl rfl

theorem newText (s : String) : m.Adding ws (M.newText s) :=
  fun _ h => h.same rfl rfl rfl

/-! ### The word under construction -/

theorem mode : m.Adding ws M.mode :=
  fun _ h => h

theorem setMode (mode : Mode) : m.Adding ws (M.setMode mode) :=
  fun _ h => h.same rfl rfl rfl

theorem requireCompiling (word : String) : m.Adding ws (M.requireCompiling word) :=
  mode.bind fun _ => .ite (.pure ()) (.throw _)

theorem here : m.Adding ws M.here :=
  fun x => lift (x.compiler.here x.heap x.roots) x

theorem last : m.Adding ws M.last :=
  fun x => lift (x.compiler.last x.heap _) x

/-- An element that is added to the word under construction. -/
theorem compile {e : Elem} (he : ∀ u, e = .call u → u ∈ ws) : m.Adding ws (M.compile e) := by
  intro x h
  show m.Adds ws (after (M.setHeap (x.compiler.push x.heap e) x))
  simp only [Compiler.push, Compiler.building]
  cases x.compiler.building? with
  | none => exact h
  | some b =>
    simp only [Bind.bind, Except.bind, Heap.changeWord, Word.push]
    cases Word.checkSlot (x.heap.word b).size e with
    | error => exact h
    | ok =>
      refine h.setWord b fun i u hu => ?_
      rw [Array.getElem?_push] at hu
      split at hu
      · exact .inr (he u (Option.some.inj hu))
      · exact .inl hu

/-- The target of a jump is filled in. -/
theorem fillHole (hole target : Nat) : m.Adding ws (ControlWord.fillHole hole target) := by
  intro x h
  show m.Adds ws (after (M.setHeap (x.compiler.alter x.heap hole (.lit (.nat target))) x))
  simp only [Compiler.alter, Compiler.building]
  cases x.compiler.building? with
  | none => exact h
  | some b =>
    simp only [Bind.bind, Except.bind, Heap.changeWord, Word.poke]
    cases Word.checkSlot hole (.lit (.nat target)) with
    | error => exact h
    | ok =>
      by_cases hlt : hole < (x.heap.word b).size
      · simp only [hlt, if_true]
        refine h.setWord b fun i u hu => ?_
        rw [Array.getElem?_setIfInBounds] at hu
        split at hu
        · split at hu <;> cases hu
        · exact .inl hu
      · simp only [hlt, if_false]
        exact h

theorem compileBuiltin {name : String} (hn : m.Offers ws name) :
    m.Adding ws (M.compileBuiltin name) := by
  intro x h
  obtain ⟨w, hw, hf⟩ := hn
  rw [M.compileBuiltin, M.bind_ok (M.builtin_ok ((h.find? name).trans hf))]
  refine compile (fun u hu => ?_) x h
  cases hu
  exact hw

theorem compileLiteral (hn : m.Offers ws "(literal)") (v : Value) :
    m.Adding ws (M.compileLiteral v) :=
  (compileBuiltin hn).bind fun _ => compile fun _ hu => by cases hu

/-! ### Words of control structures -/

theorem openAt (address : Nat) (tag : ControlTag) : m.Adding ws (ControlWord.openAt address tag) :=
  (push _).bind fun _ => push _

theorem popAddress (fault : ControlFault) : m.Adding ws (ControlWord.popAddress fault) :=
  popInt.bind fun _ => .ite ((throw _).bind fun _ => .pure _) (.pure _)

theorem closeTag (tags : List ControlTag) (fault : ControlFault) :
    m.Adding ws (ControlWord.closeTag tags fault) :=
  pop.bind fun _ => .ite (popAddress fault) (.throw _)

theorem compileHole (hn : m.Offers ws "(literal)") : m.Adding ws ControlWord.compileHole :=
  (compileBuiltin hn).bind fun _ => here.bind fun _ =>
    (compile fun _ hu => by cases hu).bind fun _ => .pure _

theorem compileJump (hn : m.Offers ws "(literal)") (target : Nat) {word : String}
    (hw : m.Offers ws word) : m.Adding ws (ControlWord.compileJump target word) :=
  (compileLiteral hn _).bind fun _ => compileBuiltin hw

theorem control {c : ControlWord} (hc : ∀ name ∈ c.emits, m.Offers ws name) : m.Adding ws c.run := by
  refine (requireCompiling _).bind fun _ => ?_
  have hfill : ∀ hole, m.Adding ws (M.here >>= ControlWord.fillHole hole) :=
    fun hole => here.bind fun target => fillHole hole target
  cases c with
  | openIf =>
    exact (compileHole (hc _ (by simp [ControlWord.emits]))).bind fun _ =>
      (compileBuiltin (hc _ (by simp [ControlWord.emits]))).bind fun _ => openAt _ _
  | elseBranch =>
    exact (closeTag _ _).bind fun _ =>
      (compileHole (hc _ (by simp [ControlWord.emits]))).bind fun _ =>
        (compileBuiltin (hc _ (by simp [ControlWord.emits]))).bind fun _ =>
          here.bind fun _ => (fillHole _ _).bind fun _ => openAt _ _
  | closeIf => exact (closeTag _ _).bind hfill
  | beginLoop => exact here.bind fun _ => openAt _ _
  | untilFlag =>
    exact (closeTag _ _).bind fun _ =>
      compileJump (hc _ (by simp [ControlWord.emits])) _ (hc _ (by simp [ControlWord.emits]))
  | again =>
    exact (closeTag _ _).bind fun _ =>
      compileJump (hc _ (by simp [ControlWord.emits])) _ (hc _ (by simp [ControlWord.emits]))
  | whileFlag =>
    have hrest : m.Adding ws (do
        let hole ← ControlWord.compileHole
        M.compileBuiltin "jumponfalse"
        ControlWord.openAt hole .whileOpen) :=
      (compileHole (hc _ (by simp [ControlWord.emits]))).bind fun _ =>
        (compileBuiltin (hc _ (by simp [ControlWord.emits]))).bind fun _ => openAt _ _
    exact (peek 0).bind fun _ => .ite ((throw _).bind fun _ => hrest) hrest
  | repeatLoop =>
    exact (closeTag _ _).bind fun hole => (closeTag _ _).bind fun _ =>
      (compileJump (hc _ (by simp [ControlWord.emits])) _
        (hc _ (by simp [ControlWord.emits]))).bind fun _ => hfill hole
  | openCount maySkip =>
    exact (compileHole (hc _ (by simp [ControlWord.emits]))).bind fun _ =>
      (compileBuiltin (hc _ (by simp [ControlWord.emits]))).bind fun _ =>
        here.bind fun _ => (push _).bind fun _ => openAt _ _
  | closeCount stepped =>
    exact (closeTag _ _).bind fun hole => (popAddress _).bind fun _ =>
      (compileJump (hc _ (by simp [ControlWord.emits])) _
        (hc _ (by simp [ControlWord.emits]))).bind fun _ => hfill hole
  | leave => exact compileBuiltin (hc _ (by simp [ControlWord.emits]))
  | unloop => exact compileBuiltin (hc _ (by simp [ControlWord.emits]))
  | recurse => exact compile fun _ hu => by cases hu

/-! ### Compile-time words -/

theorem next {act : M Unit} (h : m.Adding ws act) :
    m.Adding ws (act >>= fun _ => Pure.pure Flow.next) :=
  h.bind fun _ => .pure _

theorem defining {d : DefiningWord} {names : List String}
    (hd : (Primitive.defining d).emits? = some names) (hn : ∀ name ∈ names, m.Offers ws name) :
    m.Adding ws d.run := by
  cases d with
  | literal =>
    cases hd
    exact next ((requireCompiling _).bind fun _ => pop.bind (compileLiteral (hn _ (by simp))))
  | bracketTick =>
    cases hd
    exact next ((requireCompiling _).bind fun _ =>
      (nextWord _).bind fun _ => compileLiteral (hn _ (by simp)) _)
  | bracketChar =>
    cases hd
    exact next ((requireCompiling _).bind fun _ =>
      (nextChar _).bind (compileLiteral (hn _ (by simp))))
  | string =>
    cases hd
    exact next (nextText.bind fun text => (newText text).bind fun v => mode.bind fun _ =>
      .ite (compileLiteral (hn _ (by simp)) v) (push v))
  | printString =>
    cases hd
    exact next (nextText.bind fun text => mode.bind fun _ =>
      .ite ((newText text).bind fun v => (compileLiteral (hn _ (by simp)) v).bind fun _ =>
        compileBuiltin (hn _ (by simp))) (put text))
  | postpone =>
    cases hd
    exact next ((requireCompiling _).bind fun _ => setMode _)
  | _ => cases hd

/-- **Compile-time words add calls of the words that they look up.**  A primitive that only adds
    code calls nothing else in it than the words that its names lead to. -/
theorem primitive {p : Primitive} {names : List String} (hp : p.emits? = some names)
    (hn : ∀ name ∈ names, m.Offers ws name) : m.Adding ws p.run := by
  cases p with
  | control c =>
    cases hp
    exact next (control hn)
  | defining d => exact defining hp hn
  | memory w =>
    cases w with
    | does =>
      cases hp
      refine mode.bind fun mode => ?_
      cases mode with
      | compiling => exact next (compileBuiltin (hn _ (by simp)))
      | interpreting => exact last.bind fun _ => next (setMode _)
      | compilingPostponed | runtimeCompiling => exact next (throw _)
    | _ => cases hp
  | _ => cases hp

/-! ### Tokens -/

theorem number (hn : m.Offers ws "(literal)") (token : String) :
    m.Adding ws (interpretNumber token) := by
  unfold interpretNumber
  cases Literal.number? token with
  | none => exact .throw _
  | some n =>
    refine mode.bind fun mode => ?_
    cases mode with
    | interpreting => exact push _
    | compiling => exact compileLiteral hn _
    | compilingPostponed | runtimeCompiling => exact .throw _

/-- A word whose compilation is put off. -/
theorem postponed {w : WordId} (h : m.Adds ws x)
    (hn : (x.heap.word w).immediate = false →
      m.Offers ws "(literal)" ∧ m.Offers ws "compile,")
    (hi : (x.heap.word w).immediate = true → w ∈ ws) :
    m.Adds ws (after (compilePostponed w x)) := by
  show m.Adds ws (after ((if (x.heap.word w).immediate then _ else _ : M Unit) x))
  cases hw : (x.heap.word w).immediate with
  | true =>
    refine compile (fun u hu => ?_) x h
    cases hu
    exact hi hw
  | false =>
    exact ((compileLiteral (hn hw).1 _).bind fun _ => compileBuiltin (hn hw).2) x h

end Adding
end Machine
end ThreadedForth
