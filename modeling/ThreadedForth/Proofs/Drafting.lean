/-
  The compiler reads structured programs: the word under construction as a picture of a
  draft.
-/
import ThreadedForth.Proofs.ContextEffects
import ThreadedForth.Proofs.Parsing
import ThreadedForth.Proofs.SecureWords

namespace ThreadedForth

/-- The name of the word that does what compiled code needs. -/
def BranchWord.label : BranchWord → String
  | inlineLiteral => "(literal)"
  | jump => "jump"
  | jumpIfFalse => "jumponfalse"
  | jumpIfTrue => "jumptrue"
  | enterCount maySkip => ControlWord.enterWord maySkip
  | advanceCount stepped => ControlWord.advanceWord stepped
  | leave => "(leave)"
  | unloop => "(unloop)"
  | index => "i"
  | outerIndex => "j"
  | exit => "exit"

/-- The words that control structures compile. -/
def BranchWord.compiled : List BranchWord :=
  [inlineLiteral, jump, jumpIfFalse, enterCount false, enterCount true, advanceCount false,
    advanceCount true, leave, unloop]

/-- The words that control structures compile are visible, and are the words `k`. -/
structure Machine.Provides (m : Machine) (k : BranchWord → WordId) : Prop where
  found : ∀ b ∈ BranchWord.compiled, m.find? b.label = some (k b)
  code : ∀ b ∈ BranchWord.compiled, (m.heap.word (k b)).code = .ok (.native (.branch b))

/-! ## The picture of a draft -/

namespace Draft

/-- The number of elements before what is inside the innermost open structure. -/
def sizeBefore : List Open → Nat
  | [] => 0
  | .inIf before :: os => sizeBefore os + before.size + 3
  | .inElse before p :: os => sizeBefore os + before.size + 3 + p.size + 3
  | .inBegin before :: os => sizeBefore os + before.size
  | .inWhile before p :: os => sizeBefore os + before.size + p.size + 3
  | .inCount before _ :: os => sizeBefore os + before.size + 3

section Picture

variable (k : BranchWord → WordId)

/-- The elements before what is inside the innermost open structure. -/
def elemsBefore : List Open → List Elem
  | [] => []
  | .inIf before :: os =>
    elemsBefore os ++ before.layout k (1 + sizeBefore os) ++ Prog.jumpElems k 0 .jumpIfFalse
  | .inElse before p :: os =>
    elemsBefore os ++ before.layout k (1 + sizeBefore os) ++
      (Prog.jumpElems k (1 + sizeBefore os + before.size + 3 + p.size + 3) .jumpIfFalse ++
        p.layout k (1 + sizeBefore os + before.size + 3) ++ Prog.jumpElems k 0 .jump)
  | .inBegin before :: os => elemsBefore os ++ before.layout k (1 + sizeBefore os)
  | .inWhile before p :: os =>
    elemsBefore os ++ before.layout k (1 + sizeBefore os) ++
      (p.layout k (1 + sizeBefore os + before.size) ++ Prog.jumpElems k 0 .jumpIfFalse)
  | .inCount before maySkip :: os =>
    elemsBefore os ++ before.layout k (1 + sizeBefore os) ++
      Prog.jumpElems k 0 (.enterCount maySkip)

/-- The elements of a draft. -/
def elems (d : Draft) : List Elem :=
  elemsBefore k d.opens ++ d.cur.layout k (1 + sizeBefore d.opens)

/-- The number of elements of a draft. -/
def size (d : Draft) : Nat :=
  sizeBefore d.opens + d.cur.size

@[simp] theorem length_jumpElems (t : Nat) (b : BranchWord) :
    (Prog.jumpElems k t b).length = 3 := rfl

@[simp] theorem length_elemsBefore (os : List Open) :
    (elemsBefore k os).length = sizeBefore os := by
  induction os with
  | nil => rfl
  | cons o os ih => cases o <;> simp [elemsBefore, sizeBefore, ih] <;> omega

@[simp] theorem length_elems (d : Draft) : (d.elems k).length = d.size := by
  simp [elems, size]

end Picture

/-- What the open control structures have on the data stack. -/
def items : List Open → List Value
  | [] => []
  | .inIf before :: os =>
    .int ControlTag.ifOpen.code :: .nat (1 + sizeBefore os + before.size + 1) :: items os
  | .inElse before p :: os =>
    .int ControlTag.elseOpen.code ::
      .nat (1 + sizeBefore os + before.size + 3 + p.size + 1) :: items os
  | .inBegin before :: os =>
    .int ControlTag.beginOpen.code :: .nat (1 + sizeBefore os + before.size) :: items os
  | .inWhile before p :: os =>
    .int ControlTag.whileOpen.code :: .nat (1 + sizeBefore os + before.size + p.size + 1) ::
      .int ControlTag.beginOpen.code :: .nat (1 + sizeBefore os + before.size) :: items os
  | .inCount before _ :: os =>
    .int ControlTag.countOpen.code :: .nat (1 + sizeBefore os + before.size + 1) ::
      .nat (1 + sizeBefore os + before.size + 3) :: items os

@[simp] theorem length_items (os : List Open) : (items os).length = depthOf os := by
  induction os with
  | nil => rfl
  | cons o os ih => cases o <;> simp [items, Open.depth, ih] <;> omega

theorem depthOf_shift {capacity : Nat} {d d' : Draft} {t : Token}
    (h : d.shift capacity t = some d') (hd : depthOf d.opens ≤ capacity) :
    depthOf d'.opens ≤ capacity := by
  revert h
  fun_cases shift capacity d t <;> grind [openIn, add, Open.depth, depthOf_cons]

/-- A token adds at most a jump to a draft. -/
theorem size_shift {capacity : Nat} {d d' : Draft} {t : Token} (h : d.shift capacity t = some d') :
    d'.size ≤ d.size + 3 := by
  revert h
  fun_cases shift capacity d t <;> grind [openIn, add, size, sizeBefore, Prog.size]

end Draft

/-- The tag of an open control structure. -/
def Open.tag : Open → ControlTag
  | inIf _ => .ifOpen
  | inElse _ _ => .elseOpen
  | inBegin _ => .beginOpen
  | inWhile _ _ => .whileOpen
  | inCount _ _ => .countOpen

theorem Draft.items_cons (o : Open) (os : List Open) :
    ∃ a rest, items (o :: os) = .int o.tag.code :: .nat a :: rest := by
  cases o <;> exact ⟨_, _, rfl⟩

/-! ## A machine with a picture -/

/-- The word under construction with some elements after its code. -/
def Word.drafted (name : String) (es : List Elem) : Word :=
  { Word.opened name with body := (.direct .docol :: es).toArray }

theorem Word.push_drafted {name : String} {es : List Elem} {e : Elem} (he : e.isDirect = false) :
    (drafted name es).push e = .ok (drafted name (es ++ [e])) := by
  rw [push_ok (by simp [size, drafted]) he]
  simp [drafted]

/-- The machine with a word under construction, new on its heap, and with other values on the data
    stack. -/
def Machine.drafting (m : Machine) (name : String) (es : List Elem) (vs : List Value) : Machine :=
  { m with heap := (m.heap.addWord (.drafted name es)).2, data := { m.data with items := vs } }

/-- A machine that is about to compile: the next word on its heap will be the one under
    construction. -/
structure Machine.Opens (m : Machine) (k : BranchWord → WordId) : Prop where
  mode : m.compiler.mode = .compiling
  building : m.compiler.building? = some ⟨m.heap.words.size⟩
  provides : m.Provides k

namespace Machine

variable {m : Machine} {k : BranchWord → WordId} {name : String} {es : List Elem} {vs : List Value}

theorem word_drafting_of_ne {w : WordId} (hw : w ≠ ⟨m.heap.words.size⟩) :
    (m.drafting name es vs).heap.word w = m.heap.word w :=
  Heap.word_addWord_of_ne m.heap _ hw

theorem word_drafting : (m.drafting name es vs).heap.word ⟨m.heap.words.size⟩ = .drafted name es :=
  Heap.word_addWord m.heap _

/-- The word under construction is hidden, so the same words are found as before. -/
theorem find?_drafting (t : String) : (m.drafting name es vs).find? t = m.find? t := by
  simp only [find?, Dictionary.find?]
  show (m.dictionary.lookup? _).filter _ = _
  cases hl : m.dictionary.lookup? (.ofString t) with
  | none => rfl
  | some w =>
    by_cases hw : w = ⟨m.heap.words.size⟩
    · have h₁ : (m.heap.word w).hidden = true := by
        rw [hw]
        simp [Heap.word, Word.blank, default]
      have h₂ : ((m.drafting name es vs).heap.word w).hidden = true := by
        rw [hw, word_drafting]
        rfl
      simp [Option.filter, h₁, h₂]
    · simp [Option.filter, word_drafting_of_ne hw]

/-- A word that can be found is not the one under construction. -/
theorem ne_of_find? {t : String} {w : WordId} (hw : m.find? t = some w) : w ≠ ⟨m.heap.words.size⟩ := by
  rintro rfl
  have := (Option.filter_eq_some_iff.1 hw).2
  simp [Heap.word, Word.blank, default] at this

/-- A change of the word under construction. -/
theorem changeWord_drafting (f : Word → Except Error Word) {es' : List Elem}
    (hf : f (.drafted name es) = .ok (.drafted name es')) :
    (m.drafting name es vs).heap.changeWord ⟨m.heap.words.size⟩ f =
      .ok (m.drafting name es' vs).heap := by
  unfold Heap.changeWord
  rw [word_drafting, hf]
  exact congrArg Except.ok (Heap.setWord_addWord m.heap _ _)

section Building

variable (hb : m.compiler.building? = some ⟨m.heap.words.size⟩)
include hb

theorem building_drafting : (m.drafting name es vs).compiler.building = .ok ⟨m.heap.words.size⟩ := by
  show m.compiler.building = _
  rw [Compiler.building, hb]

theorem compile_drafting {e : Elem} (he : e.isDirect = false) :
    M.compile e (m.drafting name es vs) = .ok () (m.drafting name (es ++ [e]) vs) := by
  have hpush : (m.drafting name es vs).compiler.push (m.drafting name es vs).heap e =
      .ok (m.drafting name (es ++ [e]) vs).heap := by
    rw [Compiler.push, building_drafting hb]
    exact changeWord_drafting (fun w => w.push e) (Word.push_drafted he)
  show M.setHeap ((m.drafting name es vs).compiler.push (m.drafting name es vs).heap e) _ = _
  rw [hpush]
  rfl

theorem here_drafting :
    M.here (m.drafting name es vs) = .ok (1 + es.length) (m.drafting name es vs) := by
  have hh : (m.drafting name es vs).compiler.here (m.drafting name es vs).heap
      (m.drafting name es vs).roots = .ok (1 + es.length) := by
    have hb : (m.drafting name es vs).compiler.building? = some ⟨m.heap.words.size⟩ := hb
    rw [Compiler.here, hb]
    simp only [word_drafting]
    simp [Word.size, Word.drafted, Nat.add_comm]
  show M.lift _ _ = _
  rw [hh]
  rfl

/-- A call of a word that is found by its name. -/
theorem compileNamed_drafting {label : String} {w : WordId} (hw : m.find? label = some w) :
    M.compileBuiltin label (m.drafting name es vs) =
      .ok () (m.drafting name (es ++ [.call w]) vs) := by
  have hw' : (m.drafting name es vs).find? label = some w := (find?_drafting _).trans hw
  rw [M.compileBuiltin, M.bind_ok (M.builtin_ok hw')]
  exact compile_drafting hb rfl

theorem compileValue_drafting {w : WordId} (hw : m.find? "(literal)" = some w) (v : Value) :
    M.compileLiteral v (m.drafting name es vs) =
      .ok () (m.drafting name (es ++ [.call w, .lit v]) vs) := by
  rw [M.compileLiteral, M.bind_ok (compileNamed_drafting hb hw), compile_drafting hb rfl]
  simp

theorem compileWord_drafting (w : WordId) :
    M.compileWord w (m.drafting name es vs) = .ok () (m.drafting name (es ++ [.call w]) vs) := by
  have he : ((m.drafting name es vs).heap.word ⟨m.heap.words.size⟩).body.isEmpty = false := by
    rw [word_drafting]
    simp [Word.drafted]
  have hcall : (m.drafting name es vs).compiler.compileWord (m.drafting name es vs).heap w =
      .ok (m.drafting name (es ++ [.call w]) vs).heap := by
    rw [Compiler.compileWord, building_drafting hb]
    simp only [Bind.bind, Except.bind, he]
    exact changeWord_drafting (fun x => x.push (.call w)) (Word.push_drafted rfl)
  show M.setHeap ((m.drafting name es vs).compiler.compileWord (m.drafting name es vs).heap w) _ = _
  rw [hcall]
  rfl

end Building

section Opens

variable (ho : m.Opens k)
include ho

theorem compileBuiltin_drafting {b : BranchWord} (hb : b ∈ BranchWord.compiled) (label : String)
    (hl : b.label = label) :
    M.compileBuiltin label (m.drafting name es vs) =
      .ok () (m.drafting name (es ++ [.call (k b)]) vs) :=
  compileNamed_drafting ho.building (hl ▸ ho.provides.found b hb)

theorem compileLiteral_drafting (v : Value) :
    M.compileLiteral v (m.drafting name es vs) =
      .ok () (m.drafting name (es ++ [.call (k .inlineLiteral), .lit v]) vs) :=
  compileValue_drafting ho.building (ho.provides.found .inlineLiteral (by decide)) v

/-- The target of a jump is filled in. -/
theorem fillHole_drafting {pre post : List Elem} {u t hole : Nat} {b : BranchWord}
    (hh : hole = 1 + pre.length + 1) :
    ControlWord.fillHole hole t (m.drafting name (pre ++ (Prog.jumpElems k u b ++ post)) vs) =
      .ok () (m.drafting name (pre ++ (Prog.jumpElems k t b ++ post)) vs) := by
  have hp : (Word.drafted name (pre ++ (Prog.jumpElems k u b ++ post))).poke hole (.lit (.nat t)) =
      .ok (.drafted name (pre ++ (Prog.jumpElems k t b ++ post))) := by
    subst hh
    have hl : 1 + pre.length + 1 <
        (Word.drafted name (pre ++ (Prog.jumpElems k u b ++ post))).size := by
      simp [Word.size, Word.drafted, Prog.jumpElems]
      omega
    have hs : Word.checkSlot (1 + pre.length + 1) (.lit (.nat t)) = .ok () := by
      simp [Word.checkSlot]
    rw [Word.poke, hs]
    simp only [hl, if_true]
    have hset : (pre ++ (Prog.jumpElems k u b ++ post)).set (pre.length + 1) (.lit (.nat t)) =
        pre ++ (Prog.jumpElems k t b ++ post) := by
      rw [List.set_append_right _ _ (by omega)]
      simp [Prog.jumpElems]
    rw [← hset]
    simp [Word.drafted, Nat.add_comm 1]
  have hb : (m.drafting name (pre ++ (Prog.jumpElems k u b ++ post)) vs).compiler.alter
      (m.drafting name (pre ++ (Prog.jumpElems k u b ++ post)) vs).heap hole (.lit (.nat t)) =
        .ok (m.drafting name (pre ++ (Prog.jumpElems k t b ++ post)) vs).heap := by
    rw [Compiler.alter, building_drafting ho.building]
    exact changeWord_drafting (fun w => w.poke hole (.lit (.nat t))) hp
  show M.setHeap (Compiler.alter _ _ _ _) _ = _
  rw [hb]
  rfl

/-- A literal whose value is still to come, and the word that jumps there. -/
theorem compileHole_drafting :
    ControlWord.compileHole (m.drafting name es vs) =
      .ok (1 + es.length + 1) (m.drafting name (es ++ [.call (k .inlineLiteral), .lit (.nat 0)]) vs) := by
  have hb : BranchWord.inlineLiteral ∈ BranchWord.compiled := by decide
  rw [ControlWord.compileHole, M.bind_ok (compileBuiltin_drafting ho hb "(literal)" rfl),
    M.bind_ok (here_drafting ho.building), M.bind_ok (compile_drafting ho.building (e := .lit (.int 0)) rfl)]
  simp only [List.length_append, List.append_assoc]
  rfl

theorem compileJump_drafting {b : BranchWord} (hb : b ∈ BranchWord.compiled) (label : String)
    (hl : b.label = label) (t : Nat) :
    ControlWord.compileJump t label (m.drafting name es vs) =
      .ok () (m.drafting name (es ++ Prog.jumpElems k t b) vs) := by
  rw [ControlWord.compileJump, M.bind_ok (compileLiteral_drafting ho _),
    compileBuiltin_drafting ho hb label hl]
  simp [Prog.jumpElems]

end Opens

/-! ## The data stack -/

theorem push_drafting (v : Value) (h : vs.length < m.data.capacity) :
    M.push v (m.drafting name es vs) = .ok () (m.drafting name es (v :: vs)) := by
  simp only [M.push, drafting, Stack.push, Stack.depth, h, if_true]

theorem push_drafting_error (v : Value) (h : ¬ vs.length < m.data.capacity) :
    M.push v (m.drafting name es vs) = .error (.stackFull m.data.kind) (m.drafting name es vs) := by
  simp only [M.push, drafting, Stack.push, Stack.depth, h, if_false]

/-- A computation that fails. -/
def Fails {α : Type} (r : EStateM.Result Error Machine α) : Prop :=
  ∃ e x, r = .error e x

theorem Fails.bind {α β : Type} {act : M α} {f : α → M β} {x : Machine} (h : Fails (act x)) :
    Fails ((act >>= f) x) := by
  obtain ⟨e, y, h⟩ := h
  exact ⟨e, y, M.bind_error h⟩

theorem openAt_drafting (a : Nat) (tag : ControlTag) (h : vs.length + 2 ≤ m.data.capacity) :
    ControlWord.openAt a tag (m.drafting name es vs) =
      .ok () (m.drafting name es (.int tag.code :: .nat a :: vs)) := by
  rw [ControlWord.openAt, M.bind_ok (push_drafting _ (by omega))]
  exact push_drafting _ (by simp; omega)

theorem openAt_drafting_fails (a : Nat) (tag : ControlTag) (h : ¬ vs.length + 2 ≤ m.data.capacity) :
    Fails (ControlWord.openAt a tag (m.drafting name es vs)) := by
  by_cases h₁ : vs.length < m.data.capacity
  · rw [ControlWord.openAt, M.bind_ok (push_drafting _ h₁)]
    exact ⟨_, _, push_drafting_error _ (by simp; omega)⟩
  · exact Fails.bind ⟨_, _, push_drafting_error _ h₁⟩

theorem isCode_code (tags : List ControlTag) (t : ControlTag) :
    ControlTag.isCode tags (.int t.code) = tags.contains t := by
  have h : ∀ u : ControlTag, (t.code == u.code) = (t == u) := by
    intro u
    cases t <;> cases u <;> rfl
  simp only [ControlTag.isCode, h]
  induction tags with
  | nil => rfl
  | cons u us ih => rw [List.any_cons, List.contains_cons, ih]

theorem popAddress_drafting (fault : ControlFault) {a : Nat} (ha : a < 2 ^ 63) :
    ControlWord.popAddress fault (m.drafting name es (.nat a :: vs)) =
      .ok a (m.drafting name es vs) := by
  have hi : (Int64.ofNat a).toInt = a := Int64.toInt_ofNat_of_lt ha
  have hp : M.popInt (m.drafting name es (.nat a :: vs)) =
      .ok (Int64.ofNat a) (m.drafting name es vs) := rfl
  rw [ControlWord.popAddress, M.bind_ok hp]
  have hn : ¬ Int64.ofNat a < 0 := by
    rw [Int64.lt_iff_toInt_lt, hi]
    simp
  simp only [hn, if_false, hi]
  rfl

theorem closeTag_drafting (tags : List ControlTag) (fault : ControlFault) {t : ControlTag}
    (ht : tags.contains t = true) {a : Nat} (ha : a < 2 ^ 63) :
    ControlWord.closeTag tags fault (m.drafting name es (.int t.code :: .nat a :: vs)) =
      .ok a (m.drafting name es vs) := by
  have hp : M.pop (m.drafting name es (.int t.code :: .nat a :: vs)) =
      .ok (.int t.code) (m.drafting name es (.nat a :: vs)) := rfl
  rw [ControlWord.closeTag, M.bind_ok hp]
  simp only [isCode_code, ht, if_true]
  exact popAddress_drafting fault ha

/-- A closing word refuses what was opened by a word that does not go with it. -/
theorem closeTag_drafting_fails (tags : List ControlTag) (fault : ControlFault) (os : List Open)
    (h : (os.head?.any fun o => tags.contains o.tag) = false) (hvs : vs = []) :
    Fails (ControlWord.closeTag tags fault (m.drafting name es (Draft.items os ++ vs))) := by
  subst hvs
  rw [List.append_nil]
  cases os with
  | nil => exact Fails.bind ⟨_, _, rfl⟩
  | cons o os =>
    obtain ⟨a, rest, hi⟩ := Draft.items_cons o os
    have hp : M.pop (m.drafting name es (.int o.tag.code :: .nat a :: rest)) =
      .ok (.int o.tag.code) (m.drafting name es (.nat a :: rest)) := rfl
    rw [hi, ControlWord.closeTag, M.bind_ok hp]
    have hc : tags.contains o.tag = false := h
    simp only [isCode_code, hc]
    exact ⟨_, _, rfl⟩

/-! ## Control structures -/

/-- The machine that holds the picture of a draft, above what was on the data stack before. -/
def holding (m : Machine) (k : BranchWord → WordId) (name : String) (d : Draft) : Machine :=
  m.drafting name (d.elems k) (Draft.items d.opens ++ m.data.items)

/-- How many more values fit on the data stack. -/
def spare (m : Machine) : Nat :=
  m.data.capacity - m.data.depth

/-- A computation on a machine that holds a draft does what the draft does.  What was on the data
    stack before could be taken for an open control structure, so there it does not have to
    fail. -/
def Follows (m : Machine) (k : BranchWord → WordId) (name : String)
    (r : EStateM.Result Error Machine Unit) : Option Draft → Prop
  | some d => r = .ok () (m.holding k name d)
  | none => m.data.items = [] → Fails r

theorem Follows.openIn {d : Draft} {room : Nat} {o : Open} {os : List Open}
    {r : EStateM.Result Error Machine Unit}
    (hroom : 0 < room)
    (h₁ : Draft.depthOf d.opens + m.data.items.length + room ≤ m.data.capacity →
      r = .ok () (m.holding k name ⟨o :: os, .skip⟩))
    (h₂ : ¬ Draft.depthOf d.opens + m.data.items.length + room ≤ m.data.capacity → Fails r) :
    m.Follows k name r (d.openIn room o os m.spare) := by
  unfold Draft.openIn spare Stack.depth
  split
  · exact h₁ (by omega)
  · exact fun _ => h₂ (by omega)

/-- A program without parts comes after what has been read. -/
theorem drafting_simple (d : Draft) (s : Simple) :
    (EStateM.Result.ok () (m.drafting name (d.elems k ++ (Prog.simpleCode k s).elems k)
      (Draft.items d.opens ++ m.data.items)) : EStateM.Result Error Machine Unit) =
        .ok () (m.holding k name (d.add (.simple s))) := by
  simp [holding, Draft.add, Draft.elems, Prog.layout_seq, Prog.layout_simple]

section Control

variable (ho : m.Opens k) (d : Draft)
include ho

theorem openIf_holding : m.Follows k name (ControlWord.openIf.build (m.holding k name d))
    (d.shift m.spare (.control .openIf)) := by
  have hb : BranchWord.jumpIfFalse ∈ BranchWord.compiled := by decide
  rw [ControlWord.build, holding, M.bind_ok (compileHole_drafting ho),
    M.bind_ok (compileBuiltin_drafting ho hb "jumponfalse" rfl)]
  refine .openIn (by decide) (fun h => ?_) fun h => openAt_drafting_fails _ _ (by simpa using h)
  rw [openAt_drafting _ _ (by simpa using h)]
  simp [holding, Draft.elems, Draft.elemsBefore, Draft.items, Prog.layout_skip, Prog.jumpElems,
    Nat.add_assoc]

theorem beginLoop_holding : m.Follows k name (ControlWord.beginLoop.build (m.holding k name d))
    (d.shift m.spare (.control .beginLoop)) := by
  rw [ControlWord.build, holding, M.bind_ok (here_drafting ho.building)]
  refine .openIn (by decide) (fun h => ?_) fun h => openAt_drafting_fails _ _ (by simpa using h)
  rw [openAt_drafting _ _ (by simpa using h)]
  simp [holding, Draft.elems, Draft.elemsBefore, Draft.items, Prog.layout_skip, Nat.add_assoc]

theorem openCount_holding (maySkip : Bool) :
    m.Follows k name ((ControlWord.openCount maySkip).build (m.holding k name d))
      (d.shift m.spare (.control (.openCount maySkip))) := by
  have hb : BranchWord.enterCount maySkip ∈ BranchWord.compiled := by cases maySkip <;> decide
  rw [ControlWord.build, holding, M.bind_ok (compileHole_drafting ho),
    M.bind_ok (compileBuiltin_drafting ho hb (ControlWord.enterWord maySkip) rfl),
    M.bind_ok (here_drafting ho.building)]
  refine .openIn (by decide) (fun h => ?_) fun h => ?_
  · rw [M.bind_ok (push_drafting _ (by simp; omega)), openAt_drafting _ _ (by simp; omega)]
    simp [holding, Draft.elems, Draft.elemsBefore, Draft.items, Prog.layout_skip, Prog.jumpElems,
      Nat.add_assoc]
  · by_cases h₁ : (Draft.items d.opens ++ m.data.items).length < m.data.capacity
    · rw [M.bind_ok (push_drafting _ h₁)]
      exact openAt_drafting_fails _ _ (by simp; omega)
    · exact Fails.bind ⟨_, _, push_drafting_error _ h₁⟩

theorem closeIf_holding (hs : d.size < 2 ^ 62) :
    m.Follows k name (ControlWord.closeIf.build (m.holding k name d))
      (d.shift m.spare (.control .closeIf)) := by
  have hfail : (d.opens.head?.any fun o => [ControlTag.ifOpen, .elseOpen].contains o.tag) = false →
      m.data.items = [] → Fails (ControlWord.closeIf.build (m.holding k name d)) :=
    fun h hvs => (closeTag_drafting_fails _ _ d.opens h hvs).bind
  obtain ⟨os, c⟩ := d
  rcases os with _ | ⟨o, os⟩
  · exact hfail rfl
  · cases o with
    | inIf before =>
      simp only [Draft.size, Draft.sizeBefore] at hs
      have he : Draft.elems k ⟨.inIf before :: os, c⟩ =
          (Draft.elemsBefore k os ++ before.layout k (1 + Draft.sizeBefore os)) ++
            (Prog.jumpElems k 0 .jumpIfFalse ++
              c.layout k (1 + Draft.sizeBefore (.inIf before :: os))) := by
        simp [Draft.elems, Draft.elemsBefore]
      show _ = _
      rw [ControlWord.build, holding, Draft.items, List.cons_append, List.cons_append,
        M.bind_ok (closeTag_drafting _ _ rfl (by omega)), M.bind_ok (here_drafting ho.building), he,
        fillHole_drafting ho (by simp; omega)]
      simp [holding, Draft.add, Draft.elems, Draft.sizeBefore, Prog.layout_seq, Prog.layout_ifThen,
        Nat.add_assoc]
    | inElse before p =>
      simp only [Draft.size, Draft.sizeBefore] at hs
      have he : Draft.elems k ⟨.inElse before p :: os, c⟩ =
          (Draft.elemsBefore k os ++ before.layout k (1 + Draft.sizeBefore os) ++
            (Prog.jumpElems k (1 + Draft.sizeBefore os + before.size + 3 + p.size + 3) .jumpIfFalse ++
              p.layout k (1 + Draft.sizeBefore os + before.size + 3))) ++
            (Prog.jumpElems k 0 .jump ++
              c.layout k (1 + Draft.sizeBefore (.inElse before p :: os))) := by
        simp [Draft.elems, Draft.elemsBefore]
      show _ = _
      rw [ControlWord.build, holding, Draft.items, List.cons_append, List.cons_append,
        M.bind_ok (closeTag_drafting _ _ rfl (by omega)), M.bind_ok (here_drafting ho.building), he,
        fillHole_drafting ho (by simp; omega)]
      simp [holding, Draft.add, Draft.elems, Draft.sizeBefore, Prog.layout_seq, Prog.layout_ifElse,
        Nat.add_assoc]
    | inBegin before => exact hfail rfl
    | inWhile before p => exact hfail rfl
    | inCount before maySkip => exact hfail rfl

theorem elseBranch_holding (hs : d.size < 2 ^ 62) (hd : Draft.depthOf d.opens ≤ m.spare) :
    m.Follows k name (ControlWord.elseBranch.build (m.holding k name d))
      (d.shift m.spare (.control .elseBranch)) := by
  have hb : BranchWord.jump ∈ BranchWord.compiled := by decide
  have hfail : (d.opens.head?.any fun o => [ControlTag.ifOpen].contains o.tag) = false →
      m.data.items = [] → Fails (ControlWord.elseBranch.build (m.holding k name d)) :=
    fun h hvs => (closeTag_drafting_fails _ _ d.opens h hvs).bind
  obtain ⟨os, c⟩ := d
  rcases os with _ | ⟨o, os⟩
  · exact hfail rfl
  · cases o with
    | inIf before =>
      simp only [Draft.size, Draft.sizeBefore] at hs
      simp only [Draft.depthOf_cons, Open.depth, spare, Stack.depth] at hd
      have he : Draft.elems k ⟨.inIf before :: os, c⟩ ++
            [.call (k .inlineLiteral), .lit (.nat 0)] ++ [.call (k .jump)] =
          (Draft.elemsBefore k os ++ before.layout k (1 + Draft.sizeBefore os)) ++
            (Prog.jumpElems k 0 .jumpIfFalse ++
              (c.layout k (1 + Draft.sizeBefore (.inIf before :: os)) ++
                Prog.jumpElems k 0 .jump)) := by
        simp [Draft.elems, Draft.elemsBefore, Prog.jumpElems]
      show _ = _
      rw [ControlWord.build, holding, Draft.items, List.cons_append, List.cons_append,
        M.bind_ok (closeTag_drafting _ _ rfl (by omega)), M.bind_ok (compileHole_drafting ho),
        M.bind_ok (compileBuiltin_drafting ho hb "jump" rfl), M.bind_ok (here_drafting ho.building), he,
        M.bind_ok (fillHole_drafting ho (by simp; omega)),
        openAt_drafting _ _ (by simp; omega)]
      simp [holding, Draft.elems, Draft.elemsBefore, Draft.items, Draft.sizeBefore,
        Prog.layout_skip, Prog.jumpElems, Nat.add_assoc, Nat.add_comm 3]
    | inElse before p => exact hfail rfl
    | inBegin before => exact hfail rfl
    | inWhile before p => exact hfail rfl
    | inCount before maySkip => exact hfail rfl

theorem untilFlag_holding (hs : d.size < 2 ^ 62) :
    m.Follows k name (ControlWord.untilFlag.build (m.holding k name d))
      (d.shift m.spare (.control .untilFlag)) := by
  have hb : BranchWord.jumpIfFalse ∈ BranchWord.compiled := by decide
  have hfail : (d.opens.head?.any fun o => [ControlTag.beginOpen].contains o.tag) = false →
      m.data.items = [] → Fails (ControlWord.untilFlag.build (m.holding k name d)) :=
    fun h hvs => (closeTag_drafting_fails _ _ d.opens h hvs).bind
  obtain ⟨os, c⟩ := d
  rcases os with _ | ⟨o, os⟩
  · exact hfail rfl
  · cases o with
    | inBegin before =>
      simp only [Draft.size, Draft.sizeBefore] at hs
      show _ = _
      rw [ControlWord.build, holding, Draft.items, List.cons_append, List.cons_append,
        M.bind_ok (closeTag_drafting _ _ rfl (by omega)),
        compileJump_drafting ho hb "jumponfalse" rfl]
      simp [holding, Draft.add, Draft.elems, Draft.elemsBefore, Draft.sizeBefore, Prog.layout_seq,
        Prog.layout_beginUntil, Nat.add_assoc]
    | inIf before => exact hfail rfl
    | inElse before p => exact hfail rfl
    | inWhile before p => exact hfail rfl
    | inCount before maySkip => exact hfail rfl

theorem again_holding (hs : d.size < 2 ^ 62) :
    m.Follows k name (ControlWord.again.build (m.holding k name d))
      (d.shift m.spare (.control .again)) := by
  have hb : BranchWord.jump ∈ BranchWord.compiled := by decide
  have hfail : (d.opens.head?.any fun o => [ControlTag.beginOpen].contains o.tag) = false →
      m.data.items = [] → Fails (ControlWord.again.build (m.holding k name d)) :=
    fun h hvs => (closeTag_drafting_fails _ _ d.opens h hvs).bind
  obtain ⟨os, c⟩ := d
  rcases os with _ | ⟨o, os⟩
  · exact hfail rfl
  · cases o with
    | inBegin before =>
      simp only [Draft.size, Draft.sizeBefore] at hs
      show _ = _
      rw [ControlWord.build, holding, Draft.items, List.cons_append, List.cons_append,
        M.bind_ok (closeTag_drafting _ _ rfl (by omega)), compileJump_drafting ho hb "jump" rfl]
      simp [holding, Draft.add, Draft.elems, Draft.elemsBefore, Draft.sizeBefore, Prog.layout_seq,
        Prog.layout_beginAgain, Nat.add_assoc]
    | inIf before => exact hfail rfl
    | inElse before p => exact hfail rfl
    | inWhile before p => exact hfail rfl
    | inCount before maySkip => exact hfail rfl

/-- `while` looks at the tag of the loop, and leaves the loop open under its own jump. -/
theorem whileFlag_holding :
    m.Follows k name (ControlWord.whileFlag.build (m.holding k name d))
      (d.shift m.spare (.control .whileFlag)) := by
  have hb : BranchWord.jumpIfFalse ∈ BranchWord.compiled := by decide
  have hfail : (d.opens.head?.any fun o => [ControlTag.beginOpen].contains o.tag) = false →
      m.data.items = [] → Fails (ControlWord.whileFlag.build (m.holding k name d)) := by
    intro h hvs
    obtain ⟨os, c⟩ := d
    rw [holding, hvs, List.append_nil]
    rcases os with _ | ⟨o, os⟩
    · exact Fails.bind ⟨_, _, rfl⟩
    · obtain ⟨a, rest, hi⟩ := Draft.items_cons o os
      have hp : M.peek 0 (m.drafting name (Draft.elems k ⟨o :: os, c⟩)
          (.int o.tag.code :: .nat a :: rest)) = .ok (.int o.tag.code) _ := rfl
      rw [hi, ControlWord.build, M.bind_ok hp]
      have hc : [ControlTag.beginOpen].contains o.tag = false := h
      simp only [isCode_code, hc]
      exact ⟨_, _, rfl⟩
  obtain ⟨os, c⟩ := d
  rcases os with _ | ⟨o, os⟩
  · exact hfail rfl
  · cases o with
    | inBegin before =>
      have hp : M.peek 0 (m.holding k name ⟨.inBegin before :: os, c⟩) =
          .ok (.int ControlTag.beginOpen.code) (m.holding k name ⟨.inBegin before :: os, c⟩) := rfl
      have hc : ControlTag.isCode [.beginOpen] (.int ControlTag.beginOpen.code) = true := rfl
      rw [ControlWord.build, M.bind_ok hp, hc, holding]
      show m.Follows k name ((ControlWord.compileHole >>= fun hole =>
        M.compileBuiltin "jumponfalse" >>= fun _ => ControlWord.openAt hole .whileOpen) _) _
      rw [M.bind_ok (compileHole_drafting ho),
        M.bind_ok (compileBuiltin_drafting ho hb "jumponfalse" rfl)]
      refine .openIn (by decide) (fun h => ?_) fun h => openAt_drafting_fails _ _ (by simpa using h)
      rw [openAt_drafting _ _ (by simpa using h)]
      simp [holding, Draft.elems, Draft.elemsBefore, Draft.items, Draft.sizeBefore,
        Prog.layout_skip, Prog.jumpElems, Nat.add_assoc]
    | inIf before => exact hfail rfl
    | inElse before p => exact hfail rfl
    | inWhile before p => exact hfail rfl
    | inCount before maySkip => exact hfail rfl

theorem repeatLoop_holding (hs : d.size < 2 ^ 62) :
    m.Follows k name (ControlWord.repeatLoop.build (m.holding k name d))
      (d.shift m.spare (.control .repeatLoop)) := by
  have hb : BranchWord.jump ∈ BranchWord.compiled := by decide
  have hfail : (d.opens.head?.any fun o => [ControlTag.whileOpen].contains o.tag) = false →
      m.data.items = [] → Fails (ControlWord.repeatLoop.build (m.holding k name d)) :=
    fun h hvs => (closeTag_drafting_fails _ _ d.opens h hvs).bind
  obtain ⟨os, c⟩ := d
  rcases os with _ | ⟨o, os⟩
  · exact hfail rfl
  · cases o with
    | inWhile before p =>
      simp only [Draft.size, Draft.sizeBefore] at hs
      have he : Draft.elems k ⟨.inWhile before p :: os, c⟩ ++
            Prog.jumpElems k (1 + Draft.sizeBefore os + before.size) .jump =
          (Draft.elemsBefore k os ++ before.layout k (1 + Draft.sizeBefore os) ++
            p.layout k (1 + Draft.sizeBefore os + before.size)) ++
            (Prog.jumpElems k 0 .jumpIfFalse ++
              (c.layout k (1 + Draft.sizeBefore (.inWhile before p :: os)) ++
                Prog.jumpElems k (1 + Draft.sizeBefore os + before.size) .jump)) := by
        simp [Draft.elems, Draft.elemsBefore]
      show _ = _
      rw [ControlWord.build, holding, Draft.items]
      simp only [List.cons_append]
      rw [M.bind_ok (closeTag_drafting _ _ rfl (by omega)),
        M.bind_ok (closeTag_drafting _ _ rfl (by omega)),
        M.bind_ok (compileJump_drafting ho hb "jump" rfl _), M.bind_ok (here_drafting ho.building), he,
        fillHole_drafting ho (by simp; omega)]
      simp [holding, Draft.add, Draft.elems, Draft.sizeBefore, Prog.layout_seq,
        Prog.layout_beginWhile, Nat.add_assoc]
    | inIf before => exact hfail rfl
    | inElse before p => exact hfail rfl
    | inBegin before => exact hfail rfl
    | inCount before maySkip => exact hfail rfl

theorem closeCount_holding (stepped : Bool) (hs : d.size < 2 ^ 62) :
    m.Follows k name ((ControlWord.closeCount stepped).build (m.holding k name d))
      (d.shift m.spare (.control (.closeCount stepped))) := by
  have hb : BranchWord.advanceCount stepped ∈ BranchWord.compiled := by cases stepped <;> decide
  have hfail : (d.opens.head?.any fun o => [ControlTag.countOpen].contains o.tag) = false →
      m.data.items = [] → Fails ((ControlWord.closeCount stepped).build (m.holding k name d)) :=
    fun h hvs => (closeTag_drafting_fails _ _ d.opens h hvs).bind
  obtain ⟨os, c⟩ := d
  rcases os with _ | ⟨o, os⟩
  · exact hfail rfl
  · cases o with
    | inCount before maySkip =>
      simp only [Draft.size, Draft.sizeBefore] at hs
      have he : Draft.elems k ⟨.inCount before maySkip :: os, c⟩ ++
            Prog.jumpElems k (1 + Draft.sizeBefore os + before.size + 3) (.advanceCount stepped) =
          (Draft.elemsBefore k os ++ before.layout k (1 + Draft.sizeBefore os)) ++
            (Prog.jumpElems k 0 (.enterCount maySkip) ++
              (c.layout k (1 + Draft.sizeBefore (.inCount before maySkip :: os)) ++
                Prog.jumpElems k (1 + Draft.sizeBefore os + before.size + 3)
                  (.advanceCount stepped))) := by
        simp [Draft.elems, Draft.elemsBefore]
      show _ = _
      rw [ControlWord.build, holding, Draft.items]
      simp only [List.cons_append]
      rw [M.bind_ok (closeTag_drafting _ _ rfl (by omega)),
        M.bind_ok (popAddress_drafting _ (by omega)),
        M.bind_ok (compileJump_drafting ho hb (ControlWord.advanceWord stepped) rfl _),
        M.bind_ok (here_drafting ho.building), he, fillHole_drafting ho (by simp; omega)]
      simp [holding, Draft.add, Draft.elems, Draft.sizeBefore, Prog.layout_seq, Prog.layout_count,
        Nat.add_assoc]
    | inIf before => exact hfail rfl
    | inElse before p => exact hfail rfl
    | inBegin before => exact hfail rfl
    | inWhile before p => exact hfail rfl

theorem compileLeave_holding : m.Follows k name (ControlWord.leave.build (m.holding k name d))
    (d.shift m.spare (.control .leave)) := by
  have hb : BranchWord.leave ∈ BranchWord.compiled := by decide
  show _ = _
  rw [ControlWord.build, holding, compileBuiltin_drafting ho hb "(leave)" rfl]
  exact drafting_simple d .leave

theorem compileUnloop_holding : m.Follows k name (ControlWord.unloop.build (m.holding k name d))
    (d.shift m.spare (.control .unloop)) := by
  have hb : BranchWord.unloop ∈ BranchWord.compiled := by decide
  show _ = _
  rw [ControlWord.build, holding, compileBuiltin_drafting ho hb "(unloop)" rfl]
  exact drafting_simple d .unloop

theorem recurse_holding : m.Follows k name (ControlWord.recurse.build (m.holding k name d))
    (d.shift m.spare (.control .recurse)) := by
  show _ = _
  rw [ControlWord.build, holding, compile_drafting ho.building rfl]
  exact drafting_simple d .recurse

/-- Each word of a control structure does to the picture what it does to the draft. -/
theorem build_holding (c : ControlWord) (hs : d.size < 2 ^ 62)
    (hd : Draft.depthOf d.opens ≤ m.spare) :
    m.Follows k name (c.build (m.holding k name d)) (d.shift m.spare (.control c)) := by
  cases c with
  | openIf => exact openIf_holding ho d
  | elseBranch => exact elseBranch_holding ho d hs hd
  | closeIf => exact closeIf_holding ho d hs
  | beginLoop => exact beginLoop_holding ho d
  | untilFlag => exact untilFlag_holding ho d hs
  | again => exact again_holding ho d hs
  | whileFlag => exact whileFlag_holding ho d
  | repeatLoop => exact repeatLoop_holding ho d hs
  | openCount maySkip => exact openCount_holding ho d maySkip
  | closeCount stepped => exact closeCount_holding ho d stepped hs
  | leave => exact compileLeave_holding ho d
  | unloop => exact compileUnloop_holding ho d
  | recurse => exact recurse_holding ho d

theorem requireCompiling_holding (word : String) :
    M.requireCompiling word (m.holding k name d) = .ok () (m.holding k name d) := by
  show (if m.compiler.mode = .compiling then _ else _ : M Unit) _ = _
  rw [if_pos ho.mode]
  rfl

theorem run_holding (c : ControlWord) (hs : d.size < 2 ^ 62)
    (hd : Draft.depthOf d.opens ≤ m.spare) :
    m.Follows k name (c.run (m.holding k name d)) (d.shift m.spare (.control c)) := by
  rw [ControlWord.run, M.bind_ok (requireCompiling_holding ho d c.label)]
  exact build_holding ho d c hs hd

end Control
end Machine
end ThreadedForth
