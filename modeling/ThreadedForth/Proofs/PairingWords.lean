/-
  Words that read the line, compile or look names up, on machines that hold the same under other
  numbers.
-/
import ThreadedForth.Proofs.LikenessWords
import ThreadedForth.Proofs.PairingObjects

namespace ThreadedForth

variable {α β γ δ : Type}

/-- The names of the words that compile-time words add calls of. -/
def Builtin.emitted : List String :=
  ["(literal)", "type", "(does>)", "compile,", "jump", "jumponfalse", "(do)", "(?do)", "(loop)",
    "(+loop)", "(leave)", "(unloop)"]

/-- Whether a primitive looks up the name that comes next on the line. -/
def Primitive.readsName : Primitive → Bool
  | defining .tick | defining .bracketTick | defining .forget | output .see => true
  | _ => false

namespace Dictionary

theorem Distinct.bind {d : Dictionary} (h : d.Distinct) (n : Name) (w : WordId) :
    (d.bind n w).Distinct := by
  unfold Distinct Dictionary.bind
  rw [List.map_cons, List.nodup_cons]
  refine ⟨fun hn => ?_, h.sublist (List.filter_sublist.map _)⟩
  obtain ⟨e, he, hne⟩ := List.mem_map.1 hn
  have hs : n.same e.1 = true := Name.same_iff.2 hne.symm
  simpa [hs] using (List.mem_filter.1 he).2

theorem Distinct.unbind {d : Dictionary} (h : d.Distinct) (n : Name) : (d.unbind n).Distinct :=
  h.sublist (List.filter_sublist.map _)

end Dictionary

namespace Pairing

variable {m m' : Machine} {P : Pairing m m'} {x y : Machine} {R : α → β → Prop} {S : γ → δ → Prop}
  {w u : WordId}

/-! ## Names -/

theorem Alike.reveal (h : P.Alike x y) (hw : P.word w u) :
    P.Alike
      { x with
        dictionary := (x.dictionary.add x.heap w).2.1
        heap := (x.dictionary.add x.heap w).2.2 }
      { y with
        dictionary := (y.dictionary.add y.heap u).2.1
        heap := (y.dictionary.add y.heap u).2.2 } :=
  { h.updateWord hw (f := fun a => { a with hidden := false }) (fun _ => rfl) fun _ => rfl with
    names := fun k => by
      show Option.Rel P.word ((x.dictionary.bind (x.heap.word w).name w).lookup? k)
          ((y.dictionary.bind (y.heap.word u).name u).lookup? k) ∨
        (x.dictionary.bind (x.heap.word w).name w).lookup? k = _ ∧
          (y.dictionary.bind (y.heap.word u).name u).lookup? k = _
      rw [Dictionary.lookup?_bind, Dictionary.lookup?_bind, h.heap.name hw]
      split
      · exact .inl (.some hw)
      · exact h.names k
    distinct := ⟨h.distinct.1.bind _ _, h.distinct.2.bind _ _⟩
    depth := h.depth.imp_left fun hi => ⟨hi.1, hi.2⟩ }

theorem Alike.addWord (h : P.Alike x y) {a b : Word} (hab : P.SameWord a b) :
    P.Alike { x with heap := (x.heap.addWord a).2 } { y with heap := (y.heap.addWord b).2 } :=
  h.setHeap (h.heap.addWord hab) (.addWord _ _)

theorem Alike.install (h : P.Alike x y) {a b : Word} (hab : P.SameWord a b) :
    P.Alike (x.install a).2 (y.install b).2 :=
  (h.addWord hab).reveal h.heap.newWord.1

theorem Alike.setLast (h : P.Alike x y) (hw : P.word w u) :
    P.Alike { x with compiler := { x.compiler with last? := some w } }
      { y with compiler := { y.compiler with last? := some u } } :=
  { h with last := .inl (.some hw), depth := h.depth.imp_left fun hi => ⟨hi.1, hi.2⟩ }

theorem newWord {a b : Word} (hab : P.SameWord a b) :
    P.Joint P.SameCallee (do let id ← M.install a; M.setLast id; pure id : M WordId)
      (do let id ← M.install b; M.setLast id; pure id : M WordId) :=
  fun _ _ h => .ok h.heap.newWord ((h.install hab).setLast h.heap.newWord.1)

theorem createWord (name : String) :
    P.Joint P.SameCallee (createWord name) (createWord name) :=
  newWord ⟨rfl, .cons (.direct (.native _)) .nil⟩

theorem defineConstant (name : String) {v t : Value} (hv : P.SameValue v t) :
    P.Joint P.SameCallee (M.defineConstant name v) (M.defineConstant name t) :=
  newWord ⟨rfl, .cons (.direct (.native _)) (.cons (.lit hv) .nil)⟩

theorem defineFields (name : String) : ∀ i fields,
    P.Joint Eq (ObjectWord.defineFields name i fields) (ObjectWord.defineFields name i fields)
  | _, [] => .done
  | i, _ :: rest =>
    (defineConstant _ (.plain rfl)).bind fun _ _ _ => defineFields name (i + 1) rest

/-! ## The line -/

theorem Alike.setLine (h : P.Alike x y) (l : Line) :
    P.Alike { x with line := l } { y with line := l } :=
  { h with line := rfl, depth := h.depth.imp_left fun hi => ⟨hi.1, hi.2⟩ }

theorem nextToken : P.Joint Eq M.nextToken M.nextToken := by
  intro x y h
  show P.SameResult Eq (.ok x.line.advance.token? { x with line := x.line.advance })
    (.ok y.line.advance.token? { y with line := y.line.advance })
  rw [← h.line]
  exact .ok rfl (h.setLine _)

theorem nextName (reader : String) : P.Joint Eq (M.nextName reader) (M.nextName reader) := by
  refine nextToken.andThen fun t => ?_
  cases t with
  | none => exact .throw _
  | some name => exact .done

theorem nextText : P.Joint Eq M.nextText M.nextText := by
  intro x y h
  unfold M.nextText
  rw [← h.line]
  rcases x.line.takeUntil '\x22' with ⟨_ | cs, l⟩
  · exact .error _ (h.setLine l)
  · exact .ok rfl (h.setLine l)

theorem nextChar (reader : String) :
    P.Joint (fun v t => v = t ∧ v.refs = []) (DefiningWord.nextChar reader)
      (DefiningWord.nextChar reader) := by
  refine (nextName reader).andThen fun name => ?_
  cases name.toList with
  | nil => exact .throw _
  | cons c _ => exact .pure ⟨rfl, rfl⟩

theorem nextFields : ∀ n, P.Joint Eq (ObjectWord.nextFields n) (ObjectWord.nextFields n)
  | 0 => .done
  | n + 1 => by
    refine nextToken.andThen fun t => ?_
    split
    · exact .done
    · exact .done
    · exact (nextFields n).andThen fun _ => .done

theorem Alike.skipComment (h : P.Alike x y) : P.Alike x.skipComment y.skipComment := by
  have hs : ∀ z : Machine, z.skipComment = { z with
      line := (z.line.skipComment (z.line.text.length + 1)).1
      inComment := !(z.line.skipComment (z.line.text.length + 1)).2 } := fun _ => rfl
  rw [hs, hs, ← h.line]
  exact { h with line := rfl, comment := rfl, depth := h.depth.imp_left fun hi => ⟨hi.1, hi.2⟩ }

/-- A name that is read is the next token. -/
theorem nextName_token {reader name : String} {z z' : Machine}
    (h : M.nextName reader z = .ok name z') :
    z.line.advance.token? = some name ∧ z' = { z with line := z.line.advance } := by
  have ht : M.nextToken z = .ok z.line.advance.token? { z with line := z.line.advance } := rfl
  rw [M.nextName, M.bind_ok ht] at h
  cases ht' : z.line.advance.token? with
  | none =>
    rw [ht'] at h
    cases h
  | some t =>
    rw [ht'] at h
    cases h
    exact ⟨rfl, rfl⟩

/-- The next token is the name of words that belong together. -/
theorem Alike.nextWord (h : P.Alike x y) (reader : String)
    (hn : ∀ t, x.line.advance.token? = some t → P.Finds x y t) :
    P.SameResult P.word (M.nextWord reader x) (M.nextWord reader y) := by
  refine (nextName reader x y h).bind fun name _ x' y' hx hy hname h' => ?_
  subst hname
  obtain ⟨ht, rfl⟩ := nextName_token hx
  obtain ⟨-, rfl⟩ := nextName_token hy
  exact h'.builtin (hn name ht)

theorem declare : P.Joint Eq ObjectWord.declare ObjectWord.declare := by
  refine (nextName _).andThen fun name => .look fun x y h => ?_
  rw [h.line]
  refine (nextFields _).andThen fun fields => ?_
  cases fields with
  | none => exact .throw _
  | some fields =>
    exact (onTypes fun ht => ht.addUser _).andThen fun t =>
      (defineConstant _ (.plain rfl)).bind fun _ _ _ => defineFields _ _ _

/-! ## The mode -/

theorem getMode : P.Joint Eq M.mode M.mode :=
  .look fun _ _ h => .pure h.mode

/-- A computation that only goes on inside a definition. -/
theorem Alike.requireCompiling (h : P.Alike x y) {word : String} {f : Unit → M α} {g : Unit → M β}
    (hf : x.compiler.mode = .compiling → P.SameResult R (f () x) (g () y)) :
    P.SameResult R ((M.requireCompiling word >>= f) x) ((M.requireCompiling word >>= g) y) := by
  have hx : ∀ z : Machine, M.requireCompiling word z =
      if z.compiler.mode = .compiling then .ok () z
      else .error (.compileState (.onlyInDefinition word)) z := by
    intro z
    show (if z.compiler.mode = .compiling then Pure.pure () else _ : M Unit) z = _
    split <;> rfl
  by_cases hm : x.compiler.mode = .compiling
  · have hm' : y.compiler.mode = .compiling := h.mode ▸ hm
    rw [M.bind_ok ((hx x).trans (if_pos hm)), M.bind_ok ((hx y).trans (if_pos hm'))]
    exact hf hm
  · have hm' : ¬ y.compiler.mode = .compiling := h.mode ▸ hm
    rw [M.bind_error ((hx x).trans (if_neg hm)), M.bind_error ((hx y).trans (if_neg hm'))]
    exact .error _ h

theorem not_idle_of_mode {z : Machine}
    (h : z.compiler.mode = .compiling ∨ z.compiler.mode = .compilingPostponed) : ¬ z.Idle := by
  intro hi
  rcases hi.mode with hm | hm <;> rw [hm] at h <;> rcases h with h | h <;> cases h

/-- A new mode, which does not go on with a definition that is not open. -/
theorem Alike.setMode (h : P.Alike x y) (mode : Mode)
    (hm : mode = .interpreting ∨ mode = .runtimeCompiling ∨ ¬ x.Idle) :
    P.Alike { x with compiler := { x.compiler with mode } }
      { y with compiler := { y.compiler with mode } } :=
  { h with
    mode := rfl
    depth := by
      refine h.depth.elim (fun hi => ?_) .inr
      rcases hm with hm | hm | hm
      · exact .inl ⟨hi.building, .inl hm⟩
      · exact .inl ⟨hi.building, .inr hm⟩
      · exact absurd hi hm }

/-! ## The word created last -/

theorem Alike.lastWith (h : P.Alike x y) {held held' : List Ref}
    (hl : SameExcept P.SameCallee (x.compiler.last x.heap (held ++ x.roots))
      (y.compiler.last y.heap (held' ++ y.roots))) :
    P.SameResult P.SameCallee (M.lastWith held x) (M.lastWith held' y) :=
  Joint.lift hl x y h

theorem Alike.lastWord (h : P.Alike x y) (hl : SameExcept P.SameCallee x.latest y.latest) :
    P.SameResult P.SameCallee (M.last x) (M.last y) :=
  h.lastWith hl

theorem addSlot (hw : P.SameCallee w u) {v t : Value} (hv : P.SameValue v t) :
    P.Joint Eq (addSlot w v) (addSlot u t) :=
  .get fun _ _ h => h.changeWord hw (fun hab => hab.push (.lit hv)) Word.size_le_of_push

theorem Alike.setLastCode (h : P.Alike x y) (hl : SameExcept P.SameCallee x.latest y.latest)
    {c d : Code} (hc : P.SameCode c d) :
    P.SameResult Eq (setLastCode c x) (setLastCode d y) :=
  (h.lastWord hl).bind fun _ _ _ _ _ _ hw h' =>
    h'.changeWord hw (fun hab => hab.setCode hc) Word.size_le_of_poke

/-! ## The word under construction -/

/-- The word under construction is changed. -/
theorem onBuilding {f g : Word → Except Error Word}
    (hf : ∀ {a b}, P.SameWord a b → SameExcept P.SameWord (f a) (g b))
    (hl : ∀ {a b}, f a = .ok b → a.size ≤ b.size) :
    P.Joint Eq (do
      let m ← get
      M.setHeap (m.compiler.building >>= fun b => m.heap.changeWord b f)) (do
      let m ← get
      M.setHeap (m.compiler.building >>= fun b => m.heap.changeWord b g)) := by
  refine .get fun x y h => ?_
  have hb := h.building
  unfold Compiler.building
  generalize x.compiler.building? = r at hb
  generalize y.compiler.building? = s at hb
  cases hb with
  | none => exact .error _ h
  | some hw => exact h.changeWord hw hf hl

theorem compile {e f : Elem} (he : P.SameElem e f) : P.Joint Eq (M.compile e) (M.compile f) :=
  onBuilding (fun hab => hab.push he) Word.size_le_of_push

theorem fillHole (hole target : Nat) :
    P.Joint Eq (ControlWord.fillHole hole target) (ControlWord.fillHole hole target) :=
  onBuilding (fun hab => hab.poke hole (.lit (.plain rfl))) Word.size_le_of_poke

theorem compileWord (hw : P.word w u) : P.Joint Eq (M.compileWord w) (M.compileWord u) := by
  intro x y h
  have hm : ∀ (w : WordId) (z : Machine), M.compileWord w z =
      M.setHeap (z.compiler.building >>= fun b =>
        if (z.heap.word b).body.isEmpty then (z.heap.word w).code >>= fun code =>
          z.heap.changeWord b fun a => a.push (.direct (Compiler.wrapped w code))
        else z.heap.changeWord b fun a => a.push (.call w)) z := fun _ _ => rfl
  have hopen : ∀ {z : Machine} {b : WordId}, 1 ≤ (z.heap.word b).size →
      ¬ (z.heap.word b).body.isEmpty = true := by
    intro z b hb he
    rw [Array.isEmpty_iff_size_eq_zero] at he
    rw [Word.size, he] at hb
    exact absurd hb (by decide)
  have hb := h.building
  have ho := h.opened
  rw [hm, hm]
  unfold Compiler.building
  generalize x.compiler.building? = r at hb ho
  generalize y.compiler.building? = s at hb
  cases hb with
  | none => exact .error _ h
  | some hbu =>
    have hx := ho _ rfl
    have hy := (h.heap.word hbu).size ▸ hx
    simp only [Bind.bind, Except.bind, if_neg (hopen hx), if_neg (hopen hy)]
    exact h.changeWord hbu (fun hab => hab.push (.call hw)) Word.size_le_of_push

theorem openDefinition (name : String) :
    P.Joint Eq (DefiningWord.openDefinition name) (DefiningWord.openDefinition name) := by
  intro x y h
  by_cases hm : x.compiler.mode = .interpreting
  · rw [DefiningWord.openDefinition_eq name hm, DefiningWord.openDefinition_eq name (h.mode ▸ hm)]
    have hnew : P.SameWord (.opened name) (.opened name) := ⟨rfl, .cons (.direct .docol) .nil⟩
    refine .ok rfl { h.addWord hnew with
      mode := rfl
      building := .some h.heap.newWord
      opened := ?_
      depth := .inr h.data.depth
      last := .inl (.some h.heap.newWord.1) }
    rintro b hb
    cases hb
    rw [show (x.heap.addWord (.opened name)).2.word (x.heap.addWord (.opened name)).1 =
      .opened name from Heap.word_addWord _ _]
    exact Nat.le_refl 1
  · have hn : ∀ {z : Machine}, z.compiler.mode ≠ .interpreting →
        DefiningWord.openDefinition name z = .error (.compileState .nested) z := by
      intro z hz
      show (if z.compiler.mode ≠ .interpreting then _ else _ : M Unit) z = _
      rw [if_pos hz]
      rfl
    rw [hn hm, hn (h.mode ▸ hm)]
    exact .error _ h

theorem Alike.here (h : P.Alike x y)
    (hl : x.compiler.building? = none → SameExcept P.SameCallee x.latest y.latest) :
    P.SameResult Eq (M.here x) (M.here y) := by
  have hb := h.building
  show P.SameResult Eq (M.lift (x.compiler.here x.heap x.roots) x)
    (M.lift (y.compiler.here y.heap y.roots) y)
  refine Joint.lift ?_ x y h
  unfold Compiler.here
  cases hx : x.compiler.building? with
  | some b =>
    rw [hx] at hb
    generalize y.compiler.building? = s at hb
    cases hb with
    | some hw => exact .of_eq (congrArg Except.ok (h.heap.word hw).size)
  | none =>
    rw [hx] at hb
    generalize y.compiler.building? = s at hb
    cases hb with
    | none => exact (hl hx).map fun _ _ hw => (h.heap.word hw).size

/-- Right after something was compiled, the next free position is that of the word under
    construction. -/
theorem hereAfter {act act' : M Unit} {f : Nat → M γ} {g : Nat → M δ} (ha : P.Joint Eq act act')
    (hb : ∀ m m', act m = .ok () m' → m'.compiler.building? ≠ none)
    (hf : ∀ n, P.Joint S (f n) (g n)) :
    P.Joint S (act >>= fun _ => M.here >>= f) (act' >>= fun _ => M.here >>= g) := by
  intro x y h
  refine (ha x y h).bind fun _ _ x' y' hx _ _ h' => ?_
  refine (h'.here fun hn => absurd hn (hb _ _ hx)).bind fun n _ _ _ _ _ hn h'' => ?_
  exact hn ▸ hf n _ _ h''

/-! ## Calls that are compiled by name -/

/-- The names of the words that compile-time words add calls of lead to words that belong
    together. -/
def Emits (P : Pairing m m') : Prop :=
  ∀ n ∈ Builtin.emitted, P.Finds m m' n

theorem Alike.finds (h : P.Alike x y) {name : String} (hn : P.Finds m m' name) :
    P.Finds x y name := by
  rcases h.names (.ofString name) with hr | ⟨hx, hy⟩
  · exact hr
  · unfold Finds
    rw [hx, hy]
    exact hn

theorem openAt (address : Nat) (tag : ControlTag) :
    P.Joint Eq (ControlWord.openAt address tag) (ControlWord.openAt address tag) :=
  (pushPlain rfl).andThen fun _ => pushPlain rfl

theorem popAddress (fault : ControlFault) :
    P.Joint Eq (ControlWord.popAddress fault) (ControlWord.popAddress fault) :=
  popInt.andThen fun _ => .orThrow .rfl rfl .done

theorem closeTag (tags : List ControlTag) (fault : ControlFault) :
    P.Joint Eq (ControlWord.closeTag tags fault) (ControlWord.closeTag tags fault) :=
  pop.bind fun _ _ hv => .ite (by rw [hv.isCode]) (popAddress fault) (.throw _)

section Emitting

variable (hE : P.Emits)
include hE

theorem compileBuiltin {name : String} (hn : name ∈ Builtin.emitted) :
    P.Joint Eq (M.compileBuiltin name) (M.compileBuiltin name) := by
  intro x y h
  exact (h.builtin (h.finds (hE name hn))).bind fun _ _ x' y' _ _ hw h' => compile (.call hw) x' y' h'

theorem compileLiteral {v t : Value} (hv : P.SameValue v t) :
    P.Joint Eq (M.compileLiteral v) (M.compileLiteral t) :=
  (compileBuiltin hE (by decide)).andThen fun _ => compile (.lit hv)

theorem compileHole : P.Joint Eq ControlWord.compileHole ControlWord.compileHole :=
  hereAfter (compileBuiltin hE (by decide)) (fun _ _ => ControlWord.building_of_compileBuiltin)
    fun _ => (compile (.lit (.plain rfl))).andThen fun _ => .done

theorem compileJump (target : Nat) {word : String} (hw : word ∈ Builtin.emitted) :
    P.Joint Eq (ControlWord.compileJump target word) (ControlWord.compileJump target word) :=
  (compileLiteral hE (.plain rfl)).andThen fun _ => compileBuiltin hE hw

theorem jumpBack (target hole : Nat) {word : String} (hw : word ∈ Builtin.emitted) :
    P.Joint Eq (do
      ControlWord.compileJump target word
      ControlWord.fillHole hole (← M.here)) (do
      ControlWord.compileJump target word
      ControlWord.fillHole hole (← M.here)) :=
  hereAfter (compileJump hE target hw) (fun _ _ => ControlWord.building_of_compileJump)
    fun _ => fillHole hole _

theorem Alike.controlBuild (h : P.Alike x y) (w : ControlWord)
    (hl : (Primitive.control w).asksLast x.compiler = true →
      SameExcept P.SameCallee x.latest y.latest) :
    P.SameResult Eq (w.build x) (w.build y) := by
  cases w with
  | openIf =>
    exact ((compileHole hE).andThen fun _ => (compileBuiltin hE (by decide)).andThen
      fun _ => openAt _ _) x y h
  | elseBranch =>
    exact ((closeTag _ _).andThen fun _ => (compileHole hE).andThen fun _ =>
      hereAfter (compileBuiltin hE (by decide))
        (fun _ _ => ControlWord.building_of_compileBuiltin) fun _ =>
          (fillHole _ _).andThen fun _ => openAt _ _) x y h
  | closeIf =>
    refine (closeTag _ _ x y h).bind fun k k' x' y' hx hy hk h' => ?_
    subst hk
    refine (h'.here fun hb => ?_).bind fun n _ x'' y'' _ _ hn h'' => hn ▸ fillHole k n x'' y'' h''
    obtain ⟨s, hs, rfl⟩ := ControlWord.closeTag_refs hx
    obtain ⟨t, ht, rfl⟩ := ControlWord.closeTag_refs hy
    show SameExcept P.SameCallee (x.compiler.last x.heap _) (y.compiler.last y.heap _)
    rw [Machine.roots_of_refs hs, Machine.roots_of_refs ht]
    exact hl (by simp [Primitive.asksLast, show x.compiler.building? = none from hb])
  | beginLoop =>
    exact (h.here fun hb => hl (by simp [Primitive.asksLast, hb])).bind
      fun n _ x' y' _ _ hn h' => hn ▸ openAt n _ x' y' h'
  | untilFlag =>
    exact ((closeTag _ _).andThen fun _ => compileJump hE _ (by decide)) x y h
  | again =>
    exact ((closeTag _ _).andThen fun _ => compileJump hE _ (by decide)) x y h
  | whileFlag =>
    refine ((peek 0).bind fun v t hv => ?_) x y h
    rw [hv.isCode]
    exact .orThrow .rfl rfl ((compileHole hE).andThen fun _ =>
      (compileBuiltin hE (by decide)).andThen fun _ => openAt _ _)
  | repeatLoop =>
    exact ((closeTag _ _).andThen fun _ => (closeTag _ _).andThen fun _ =>
      jumpBack hE _ _ (by decide)) x y h
  | openCount maySkip =>
    have hn : ControlWord.enterWord maySkip ∈ Builtin.emitted := by cases maySkip <;> decide
    exact ((compileHole hE).andThen fun _ =>
      hereAfter (compileBuiltin hE hn) (fun _ _ => ControlWord.building_of_compileBuiltin) fun _ =>
        (pushPlain rfl).andThen fun _ => openAt _ _) x y h
  | closeCount stepped =>
    have hn : ControlWord.advanceWord stepped ∈ Builtin.emitted := by cases stepped <;> decide
    exact ((closeTag _ _).andThen fun _ => (popAddress _).andThen fun _ =>
      jumpBack hE _ _ hn) x y h
  | leave => exact compileBuiltin hE (by decide) x y h
  | unloop => exact compileBuiltin hE (by decide) x y h
  | recurse => exact compile .recurse x y h

end Emitting

/-! ## Definitions that end, and names that are forgotten -/

theorem Alike.forgetWord (h : P.Alike x y)
    (hn : ∀ t, x.line.advance.token? = some t → P.Finds x y t) :
    P.SameResult Eq (DefiningWord.act .forget x) (DefiningWord.act .forget y) := by
  refine (nextName _ x y h).bind fun name _ x' y' hx hy hname h' => ?_
  subst hname
  obtain ⟨ht, rfl⟩ := nextName_token hx
  obtain ⟨-, rfl⟩ := nextName_token hy
  have hf := hn name ht
  show P.SameResult Eq ((M.lift (x.dictionary.forget x.heap name) >>= _) _)
    ((M.lift (y.dictionary.forget y.heap name) >>= _) _)
  unfold Dictionary.forget
  unfold Finds at hf
  generalize hx' : x.dictionary.lookup? (.ofString name) = r at hf
  generalize hy' : y.dictionary.lookup? (.ofString name) = s at hf
  cases hf with
  | none => exact .error _ h'
  | @some w u hw =>
    dsimp only
    rw [h.heap.builtin hw]
    split
    · exact .error _ h'
    · refine .ok rfl { h'.updateWord hw (f := fun a => { a with hidden := true }) (fun _ => rfl)
        fun _ => rfl with
        names := fun k => ?_
        distinct := ⟨h.distinct.1.unbind _, h.distinct.2.unbind _⟩
        depth := h.depth.imp_left fun hi => ⟨hi.1, hi.2⟩ }
      show Option.Rel P.word ((x.dictionary.unbind (.ofString name)).lookup? k)
          ((y.dictionary.unbind (.ofString name)).lookup? k) ∨
        (x.dictionary.unbind (.ofString name)).lookup? k = _ ∧
          (y.dictionary.unbind (.ofString name)).lookup? k = _
      rw [Dictionary.lookup?_unbind, Dictionary.lookup?_unbind]
      split
      · exact .inl .none
      · exact h.names k

/-- The definition is over, and the next one counts from its own beginning. -/
theorem Alike.finish (h : P.Alike x y) (hm : x.compiler.mode = .compiling) :
    P.Alike { x with compiler := { x.compiler with building? := none } }
      { y with compiler := { y.compiler with building? := none } } :=
  { h with
    building := .none
    opened := nofun
    depth := .inr (h.depth.resolve_left (not_idle_of_mode (.inl hm))) }

/-- A computation that only goes on if a definition leaves the data stack as deep as it was. -/
theorem Alike.checkBalance (h : P.Alike x y) (hm : x.compiler.mode = .compiling)
    {f : Unit → M α} {g : Unit → M β} (hf : P.SameResult R (f () x) (g () y)) :
    P.SameResult R ((DefiningWord.checkBalance >>= f) x) ((DefiningWord.checkBalance >>= g) y) := by
  have hx := DefiningWord.checkBalance_eq x
  have hy := DefiningWord.checkBalance_eq y
  have hi : DefiningWord.imbalance? y.data y.compiler.startDepth =
      DefiningWord.imbalance? x.data x.compiler.startDepth := by
    have htop : (x.data.peek? 0).any (ControlTag.isCode ControlTag.all) =
        (y.data.peek? 0).any (ControlTag.isCode ControlTag.all) := by
      have hp := h.data.peek? 0
      generalize x.data.peek? 0 = r at hp
      generalize y.data.peek? 0 = s at hp
      cases hp with
      | none => rfl
      | some hv => exact hv.isCode _
    unfold DefiningWord.imbalance?
    rw [h.data.depth, h.depth.resolve_left (not_idle_of_mode (.inl hm)), htop]
  rw [hi] at hy
  generalize DefiningWord.imbalance? x.data x.compiler.startDepth = r at hx hy
  cases r with
  | none =>
    rw [M.bind_ok hx, M.bind_ok hy]
    exact hf
  | some e =>
    rw [M.bind_error hx, M.bind_error hy]
    exact .error e h

/-- The end of a definition: its word is bound in the dictionary, or left on the data stack. -/
theorem Alike.endDefinition (h : P.Alike x y) (hm : x.compiler.mode = .compiling) :
    P.SameResult Eq (DefiningWord.reveal x) (DefiningWord.reveal y) := by
  refine h.checkBalance hm ?_
  rw [DefiningWord.closeBalanced_eq, DefiningWord.closeBalanced_eq]
  have hb := h.building
  generalize x.compiler.building? = r at hb
  generalize y.compiler.building? = s at hb
  cases hb with
  | none => exact .error _ h
  | @some w u hw =>
    have hname : (x.heap.word w).isAnonymous = (y.heap.word u).isAnonymous := by
      unfold Word.isAnonymous
      rw [h.heap.name hw.1]
    dsimp only
    rw [hname]
    split
    · exact push (.xt hw.1) _ _ ((h.finish hm).updateWord hw.1
        (f := fun a => { a with hidden := false }) (fun _ => rfl) fun _ => rfl)
    · exact .ok rfl ((h.finish hm).reveal hw.1)

/-! ## The families of primitives -/

/-- Two machines give a primitive the same answers when it asks for what may differ: what is alive,
    where an object is, and which words names lead to. -/
structure Allows (P : Pairing m m') (p : Primitive) (x y : Machine) : Prop where
  last : p.asksLast x.compiler = true → SameExcept P.SameCallee x.latest y.latest
  count : p = .object .refcount → x.topCount = y.topCount
  address : p = .object (.invoke .hash) → x.topAddress = y.topAddress
  handler : p.callsByName x = true → P.Finds x y "handler"
  token : p.readsName = true → ∀ t, x.line.advance.token? = some t → P.Finds x y t
  listed : p = .output .see → ∀ t w, x.line.advance.token? = some t → x.find? t = some w → P.shared w
  names : p = .output .words → x.dictionary.names x.heap = y.dictionary.names y.heap

theorem Alike.see (h : P.Alike x y) (ha : P.Allows (.output .see) x y) :
    P.SameResult Eq (OutputWord.run .see x) (OutputWord.run .see y) := by
  refine (h.nextWord _ (ha.token rfl)).bind fun w u x' y' hx _ hw h' => ?_
  have hs : P.shared w := by
    obtain ⟨name, z, hz, hx⟩ := M.of_bind_ok hx
    obtain ⟨ht, rfl⟩ := nextName_token hz
    have hf : ({ x with line := x.line.advance } : Machine).find? name = some w :=
      M.builtin_eq_ok hx
    exact ha.listed rfl name _ ht hf
  show P.SameResult Eq (M.put (x'.heap.listing w) x') (M.put (y'.heap.listing u) y')
  rw [h'.heap.listing ⟨hw, hs⟩]
  exact put _ x' y' h'

theorem Alike.outputAny (h : P.Alike x y) {w : OutputWord} (ha : P.Allows (.output w) x y) :
    P.SameResult Eq (w.run x) (w.run y) := by
  by_cases hw : w = .words
  · subst hw
    show P.SameResult Eq
      (M.write [String.intercalate " " (x.dictionary.names x.heap), "\n"] x)
      (M.write [String.intercalate " " (y.dictionary.names y.heap), "\n"] y)
    rw [ha.names rfl]
    exact write _ x y h
  · by_cases hs : w = .see
    · subst hs
      exact h.see ha
    · exact outputWord hw hs x y h

theorem Alike.memoryWord (hE : P.Emits) (h : P.Alike x y) {w : MemoryWord}
    (ha : P.Allows (.memory w) x y) : P.SameResult P.SameFlow (w.run x) (w.run y) := by
  have hl := ha.last
  cases w with
  | load => exact loadWord x y h
  | store => exact storeWord x y h
  | addStore => exact h.addStoreWord ha.handler
  | here =>
    exact (h.here fun hx => hl (by simp [Primitive.asksLast, hx])).bind
      fun n _ x' y' _ _ hn h' => hn ▸ ((pushPlain rfl).andThen fun _ => .pure .next) x' y' h'
  | comma =>
    refine (pop x y h).bind fun v t x' y' hx hy hv h' => ?_
    obtain ⟨s, hs, rfl⟩ := M.pop_eq_ok hx
    obtain ⟨s', hs', rfl⟩ := M.pop_eq_ok hy
    refine (h'.lastWith ?_).bind fun w u x'' y'' _ _ hw h'' =>
      ((addSlot hw hv).andThen fun _ => .pure .next) x'' y'' h''
    rw [Machine.roots_of_cons hs, Machine.roots_of_cons hs']
    exact hl rfl
  | allot =>
    refine (popInt x y h).bind fun n n' x' y' hx hy hn h' => ?_
    subst hn
    obtain ⟨s, hs, rfl⟩ := M.popInt_eq_ok hx
    obtain ⟨t, ht, rfl⟩ := M.popInt_eq_ok hy
    split
    · exact .error _ h'
    · have hm : (do
          let m ← get
          M.setHeap (m.compiler.expand m.heap m.roots n.toInt.toNat)
          pure Flow.next : M Flow) = (do
          let w ← M.last
          M.setHeap ((← get).heap.changeWord w fun u => u.expand n.toInt.toNat)
          pure Flow.next : M Flow) := by
        funext m
        show (M.setHeap (m.compiler.last m.heap m.roots >>= _) >>= _) m =
          (M.lift (m.compiler.last m.heap m.roots) >>= _) m
        cases m.compiler.last m.heap m.roots <;> rfl
      rw [hm]
      refine (h'.lastWord ?_).bind fun w u x'' y'' _ _ hw h'' =>
        (h''.changeWord hw (fun hab => hab.expand _) Word.size_le_of_expand).bind
          fun _ _ _ _ _ _ _ h₃ => .ok .next h₃
      show SameExcept P.SameCallee (x.compiler.last x.heap _) (y.compiler.last y.heap _)
      rw [Machine.roots_of_refs hs, Machine.roots_of_refs ht]
      exact hl rfl
  | create =>
    exact ((nextName _).andThen fun _ => (createWord _).bind fun _ _ _ => .pure .next) x y h
  | «variable» =>
    exact ((nextName _).andThen fun _ => (createWord _).bind fun _ _ hw =>
      (addSlot hw (.plain rfl)).andThen fun _ => .pure .next) x y h
  | constant =>
    refine ((nextName _).andThen fun name => pop.bind fun v t hv => ?_) x y h
    exact (defineConstant name hv).bind fun _ _ _ => .pure .next
  | does =>
    have hmode : P.SameResult (fun a b => a = b ∧ a = x.compiler.mode) (M.mode x) (M.mode y) := by
      show P.SameResult _ (.ok x.compiler.mode x) (.ok y.compiler.mode y)
      exact .ok ⟨h.mode, rfl⟩ h
    refine hmode.bind fun mode mode' x' y' hx hy hm h' => ?_
    obtain ⟨rfl, hm⟩ := hm
    obtain ⟨-, rfl⟩ := EStateM.Result.ok.inj hx
    obtain ⟨-, rfl⟩ := EStateM.Result.ok.inj hy
    cases mode with
    | compiling =>
      have hn : "(does>)" ∈ Builtin.emitted := by decide
      exact (compileBuiltin hE hn x y h).bind fun _ _ _ _ _ _ _ h' => .ok .next h'
    | interpreting =>
      refine (h.lastWord (hl (by simp [Primitive.asksLast, ← hm]))).bind fun _ _ _ _ _ _ _ h' => ?_
      exact .ok .next (h'.setMode _ (.inr (.inl rfl)))
    | compilingPostponed => exact .error _ h
    | runtimeCompiling => exact .error _ h
  | doesRuntime =>
    refine (parent x y h).bind fun f g x' y' hx hy hf h' => ?_
    obtain ⟨rfl, -⟩ := M.parent_eq_ok hx
    obtain ⟨rfl, -⟩ := M.parent_eq_ok hy
    rw [hf.ip]
    exact (h'.setLastCode (hl rfl) (.indirect hf.word.1 _)).bind
      fun _ _ _ _ _ _ _ h'' => .ok .leave h''

theorem Alike.definingAct (hE : P.Emits) (h : P.Alike x y) {w : DefiningWord} (hw : w ≠ .execute)
    (ha : P.Allows (.defining w) x y) : P.SameResult Eq (w.act x) (w.act y) := by
  have hl := ha.last
  have hn := ha.token
  cases w with
  | colon => exact ((nextName _).andThen fun _ => openDefinition _) x y h
  | noname => exact openDefinition _ x y h
  | semicolon =>
    refine h.requireCompiling fun hm => ?_
    exact (h.endDefinition hm).bind fun _ _ _ _ _ _ _ h' => .ok rfl (h'.setMode _ (.inl rfl))
  | immediate =>
    refine (h.lastWord (hl rfl)).bind fun _ _ _ _ _ _ hw h' => .ok rfl ?_
    exact h'.updateWord hw.1 (fun _ => rfl) fun _ => rfl
  | postpone =>
    exact h.requireCompiling fun hm => .ok rfl (h.setMode _ (.inr (.inr (not_idle_of_mode (.inl hm)))))
  | leftBracket => exact h.requireCompiling fun _ => .ok rfl (h.setMode _ (.inl rfl))
  | rightBracket =>
    have hb := h.building
    have hr : ∀ z : Machine, DefiningWord.act .rightBracket z =
        (M.lift z.compiler.building >>= fun _ => M.setMode .compiling) z := fun _ => rfl
    rw [hr, hr]
    unfold Compiler.building
    cases hx : x.compiler.building? with
    | none =>
      rw [hx] at hb
      generalize y.compiler.building? = s at hb
      cases hb
      exact .error _ h
    | some w =>
      rw [hx] at hb
      generalize y.compiler.building? = s at hb
      cases hb
      exact .ok rfl (h.setMode _ (.inr (.inr fun hi => by simp [hi.building] at hx)))
  | literal =>
    exact h.requireCompiling fun _ => (pop.bind fun _ _ hv => compileLiteral hE hv) x y h
  | tick => exact (h.nextWord _ (hn rfl)).bind fun _ _ x' y' _ _ hw h' => push (.xt hw) x' y' h'
  | bracketTick =>
    exact h.requireCompiling fun _ => (h.nextWord _ (hn rfl)).bind
      fun _ _ x' y' _ _ hw h' => compileLiteral hE (.xt hw) x' y' h'
  | execute => exact absurd rfl hw
  | compileComma => exact (popWord.bind fun _ _ hw => compileWord hw) x y h
  | forget => exact h.forgetWord (hn rfl)
  | char =>
    exact ((nextChar _).bind fun _ _ hv => hv.1 ▸ pushPlain hv.2) x y h
  | bracketChar =>
    exact h.requireCompiling fun _ =>
      ((nextChar _).bind fun _ _ hv => hv.1 ▸ compileLiteral hE (.plain hv.2)) x y h
  | string =>
    refine (nextText.andThen fun text => (newText text).bind fun v t hv => getMode.andThen
      fun mode => ?_) x y h
    exact .ite .rfl (compileLiteral hE hv) (push hv)
  | printString =>
    have hn : "type" ∈ Builtin.emitted := by decide
    refine (nextText.andThen fun text => getMode.andThen fun mode => ?_) x y h
    exact .ite .rfl ((newText text).bind fun _ _ hv => (compileLiteral hE hv).andThen fun _ =>
      compileBuiltin hE hn) (put text)
  | comment => exact .ok rfl h.skipComment
  | lineComment =>
    refine .ok rfl ?_
    show P.Alike { x with line := x.line.skip } { y with line := y.line.skip }
    rw [← h.line]
    exact h.setLine _

/-- A computation after which the calling word goes on. -/
theorem SameResult.thenNext {act act' : M Unit} (h : P.SameResult Eq (act x) (act' y)) :
    P.SameResult P.SameFlow (thenNext act x) (thenNext act' y) :=
  h.bind fun _ _ _ _ _ _ _ h' => .ok .next h'

/-- **Primitives do the same to machines that hold the same**, if they get the same answers. -/
theorem Alike.primitive (hE : P.Emits) (h : P.Alike x y) {p : Primitive} (ha : P.Allows p x y) :
    P.SameResult P.SameFlow (p.run x) (p.run y) := by
  cases p with
  | stack w => exact (stackWord w x y h).thenNext
  | arithmetic w => exact h.arithmeticWord w ha.handler
  | float w => exact (floatWord w x y h).thenNext
  | output w => exact (h.outputAny ha).thenNext
  | memory w => exact h.memoryWord hE ha
  | defining w =>
    by_cases hw : w = .execute
    · subst hw
      exact (popWord.bind fun _ _ hw => .pure (.call hw)) x y h
    · have hrun : w.run = (do w.act; pure Flow.next : M Flow) := by
        cases w <;> first | rfl | exact absurd rfl hw
      show P.SameResult _ (w.run x) (w.run y)
      rw [hrun]
      exact (h.definingAct hE hw ha).thenNext
  | control w =>
    exact (h.requireCompiling fun _ => h.controlBuild hE w ha.last).thenNext
  | branch w => exact branchWord w x y h
  | object w =>
    refine SameResult.thenNext ?_
    by_cases hw : w = .struct
    · subst hw
      exact declare x y h
    · exact h.objectWord hw (fun hc => ha.count (by rw [hc])) fun hc => ha.address (by rw [hc])
  | state w => exact (stateWord w x y h).thenNext
  | host w => exact hostWord w x y h
  | dataAddress => exact (pushDataAddress x y h).thenNext
  | pushConstant => exact (pushFirstSlot x y h).thenNext
  | nop => exact .ok .next h

end Pairing
end ThreadedForth
