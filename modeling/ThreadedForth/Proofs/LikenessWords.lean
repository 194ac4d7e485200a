/-
  Words that read the line, compile or look names up, on machines that are alike.
-/
import ThreadedForth.Proofs.LikenessObjects

namespace ThreadedForth

variable {α β : Type}

/-! ## What primitives are about to use -/

/-- Whether a word of a control structure compiles a word by its name. -/
def ControlWord.looksUp : ControlWord → Bool
  | closeIf | beginLoop | recurse => false
  | _ => true

namespace Primitive

/-- Whether a primitive is about to look at the dictionary or to change it. -/
def consults (m : Machine) : Primitive → Bool
  | output w => w = .words ∨ w = .see
  | memory .create | memory .variable | memory .constant => true
  | memory .does => m.compiler.mode = .compiling
  | defining .tick | defining .forget => true
  | defining .literal | defining .bracketTick | defining .bracketChar | defining .string
  | defining .printString => m.compiler.mode = .compiling
  | defining .semicolon =>
    m.compiler.mode = .compiling ∧
      (m.compiler.building?.any fun w => !(m.heap.word w).isAnonymous) = true
  | control w => m.compiler.mode = .compiling ∧ w.looksUp = true
  | object w => w = .struct
  | p => p.callsByName m

/-- Whether a primitive is about to use the line, the compiler or the dictionary. -/
def usesSource (m : Machine) : Primitive → Bool
  | memory .load | memory .store => false
  | memory .addStore => (memory .addStore).callsByName m
  | memory _ | control _ => true
  | defining w => w ≠ .execute
  | p => p.consults m

end Primitive

theorem M.compiler_of_nextText {text : String} {m m' : Machine} (h : M.nextText m = .ok text m') :
    m'.compiler = m.compiler := by
  unfold M.nextText at h
  split at h
  · cases h
    rfl
  · cases h

theorem Compiler.last?_of_last {c : Compiler} {h : Heap} {roots : List Ref} {w : WordId}
    (hl : c.last h roots = .ok w) : c.last? = some w := by
  unfold Compiler.last at hl
  split at hl
  · rename_i w' hw
    split at hl
    · cases hl
      exact hw
    · cases hl
  · cases hl

/-- The error of a definition that does not leave the data stack as deep as it was. -/
def DefiningWord.imbalance? (data : Stack Value) (start : Nat) : Option Error :=
  if data.depth < start then some (.compileState (.consumed (start - data.depth)))
  else if start < data.depth then
    if (data.peek? 0).any (ControlTag.isCode ControlTag.all) then
      some (.controlMismatch .unterminated)
    else some (.compileState (.left (data.depth - start)))
  else none

theorem DefiningWord.checkBalance_eq (m : Machine) : DefiningWord.checkBalance m =
    match DefiningWord.imbalance? m.data m.compiler.startDepth with
    | none => .ok () m
    | some e => .error e m := by
  rw [DefiningWord.checkBalance, M.bind_ok (x := MonadState.get) rfl]
  unfold DefiningWord.imbalance?
  by_cases h₁ : m.data.depth < m.compiler.startDepth
  · simp only [h₁, if_true]
    rfl
  · by_cases h₂ : m.compiler.startDepth < m.data.depth
    · by_cases h₃ : (m.data.peek? 0).any (ControlTag.isCode ControlTag.all) = true
      · simp only [h₁, h₂, h₃, if_true, if_false]
        rfl
      · simp only [h₁, h₂, h₃, if_true, if_false, Bool.false_eq_true]
        rfl
    · simp only [h₁, h₂, if_false]
      rfl

/-- The machine with a definition opened. -/
def Machine.starting (m : Machine) (name : String) : Machine :=
  { m with
    compiler := (m.compiler.start m.heap name m.data.depth).2.1
    heap := (m.compiler.start m.heap name m.data.depth).2.2 }

/-- The machine with a word bound in the dictionary that becomes the one created last. -/
def Machine.defining (m : Machine) (w : Word) : Machine :=
  { (m.install w).2 with
    compiler := { (m.install w).2.compiler with last? := some (m.install w).1 } }

/-- The machine with its definition closed and the word `w` bound in the dictionary. -/
def Machine.revealing (m : Machine) (w : WordId) : Machine :=
  { m with
    compiler := { m.compiler with building? := none }
    dictionary := (m.dictionary.add m.heap w).2.1
    heap := (m.dictionary.add m.heap w).2.2 }

/-- How a definition ends that has left the data stack as deep as it was. -/
theorem DefiningWord.closeBalanced_eq (m : Machine) : (do
      let m ← get
      let w ← M.lift m.compiler.building
      set { m with compiler := { m.compiler with building? := none } }
      if (m.heap.word w).isAnonymous then
        modify fun m => { m with heap := m.heap.updateWord w fun u => { u with hidden := false } }
        M.push (.xt w)
      else
        modify fun m =>
          let (_, dictionary, heap) := m.dictionary.add m.heap w
          { m with dictionary, heap } : M Unit) m = match m.compiler.building? with
        | none => .error (.compileState .noneOpen) m
        | some w =>
          if (m.heap.word w).isAnonymous then
            M.push (.xt w) { m with
              compiler := { m.compiler with building? := none }
              heap := m.heap.updateWord w fun u => { u with hidden := false } }
          else .ok () (m.revealing w) := by
  show (M.lift m.compiler.building >>= _) m = _
  unfold Compiler.building
  cases m.compiler.building? with
  | none => rfl
  | some w =>
    show (if (m.heap.word w).isAnonymous = true then _ else _ : M Unit) _ = _
    by_cases ha : (m.heap.word w).isAnonymous = true
    · simp only [if_pos ha]
      rfl
    · simp only [if_neg ha]
      rfl

namespace Likeness

variable {L : Likeness} {x y : Machine} {φ : α → Prop} {ψ : β → Prop}

/-- A likeness of machines with the same line and the same word under construction.  Where a
    definition is closed, it was opened at the same depth. -/
structure Building (L : Likeness) : Prop where
  line : ∀ {x y}, L.alike x y → x.line = y.line
  setLine : ∀ {x y}, L.alike x y → ∀ l, L.alike { x with line := l } { y with line := l }
  comment : ∀ {x y}, L.alike x y → x.inComment = y.inComment
  setComment : ∀ {x y}, L.alike x y →
    ∀ b, L.alike { x with inComment := b } { y with inComment := b }
  mode : ∀ {x y}, L.alike x y → x.compiler.mode = y.compiler.mode
  building : ∀ {x y}, L.alike x y → x.compiler.building? = y.compiler.building?
  known_building : ∀ {x y}, L.alike x y → ∀ {w}, x.compiler.building? = some w → L.known w
  known_last : ∀ {x y}, L.alike x y → ∀ {w}, x.compiler.last? = some w → L.known w
  depth : ∀ {x y}, L.alike x y → x.compiler.mode = .compiling →
    x.compiler.startDepth = y.compiler.startDepth
  setMode : ∀ {x y}, L.alike x y → ∀ mode, mode = .interpreting ∨ mode = .runtimeCompiling ∨
      x.compiler.mode = .compiling ∨ x.compiler.mode = .compilingPostponed ∨
      x.compiler.building? ≠ none →
    L.alike { x with compiler := { x.compiler with mode } }
      { y with compiler := { y.compiler with mode } }
  start : ∀ {x y}, L.alike x y → ∀ name, L.alike (x.starting name) (y.starting name)
  finish : ∀ {x y}, L.alike x y → x.compiler.mode = .compiling →
    L.alike { x with compiler := { x.compiler with building? := none } }
      { y with compiler := { y.compiler with building? := none } }
  unhide : ∀ {x y}, L.alike x y → ∀ {w}, L.known w →
    L.alike { x with heap := x.heap.updateWord w fun u => { u with hidden := false } }
      { y with heap := y.heap.updateWord w fun u => { u with hidden := false } }
  setImmediate : ∀ {x y}, L.alike x y → ∀ {w}, L.known w →
    L.alike { x with heap := x.heap.updateWord w fun u => { u with immediate := true } }
      { y with heap := y.heap.updateWord w fun u => { u with immediate := true } }

/-- A likeness of machines that find the same words by their names. -/
structure Naming (L : Likeness) : Prop where
  find : ∀ {x y}, L.alike x y → ∀ name, x.find? name = y.find? name
  known_find : ∀ {x y}, L.alike x y → ∀ {name w}, x.find? name = some w → L.known w
  names : ∀ {x y}, L.alike x y → x.dictionary.names x.heap = y.dictionary.names y.heap
  define : ∀ {x y}, L.alike x y → ∀ {w : Word}, w.builtin = false → L.KnowsAll w.refs →
    (x.install w).1 = (y.install w).1 ∧ L.known (x.install w).1 ∧ L.alike (x.defining w) (y.defining w)
  reveal : ∀ {x y}, L.alike x y → ∀ {w}, x.compiler.building? = some w →
    x.compiler.mode = .compiling → L.alike (x.revealing w) (y.revealing w)
  forget : ∀ {x y}, L.alike x y → ∀ name,
    match x.dictionary.forget x.heap name, y.dictionary.forget y.heap name with
    | .ok r, .ok s => L.alike { x with dictionary := r.2.1, heap := r.2.2 }
        { y with dictionary := s.2.1, heap := s.2.2 }
    | .error e, .error e' => e = e'
    | _, _ => False

theorem KnowsAll.nil : L.KnowsAll [] := nofun

theorem KnowsAll.call {w : WordId} (h : L.known w) : L.KnowsAll (Elem.call w).refs := Knows.xt h

theorem KnowsAll.of_code {u : Word} (h : L.KnowsAll u.refs) {body : WordId} {entry : Nat}
    (hc : u.code = .ok (.indirect body entry)) : L.known body := by
  have h₀ : Elem.direct (.indirect body entry) ∈ u.body.toList := by
    unfold Word.code at hc
    split at hc
    · rename_i c h₀
      cases hc
      exact Array.mem_toList_iff.2 (Array.mem_of_getElem? h₀)
    · cases hc
  exact h body (List.mem_flatMap.2 ⟨_, h₀, List.mem_cons_self⟩)

theorem knows_push {e : Elem} (he : L.KnowsAll e.refs) (u v : Word) (hu : L.KnowsAll u.refs)
    (hv : u.push e = .ok v) : L.KnowsAll v.refs := by
  rw [Word.refs, Word.body_of_push hv]
  refine hu.of_body fun e' he' => ?_
  rcases Array.mem_push.1 he' with he' | rfl
  · exact .inl he'
  · exact .inr he

theorem knows_poke {i : Nat} {e : Elem} (he : L.KnowsAll e.refs) (u v : Word)
    (hu : L.KnowsAll u.refs) (hv : u.poke i e = .ok v) : L.KnowsAll v.refs := by
  rw [Word.refs, Word.body_of_poke hv]
  refine hu.of_body fun e' he' => ?_
  rcases Array.mem_or_eq_of_mem_setIfInBounds he' with he' | rfl
  · exact .inl he'
  · exact .inr he

theorem knows_expand {n : Nat} (u v : Word) (hu : L.KnowsAll u.refs) (hv : u.expand n = .ok v) :
    L.KnowsAll v.refs := by
  rw [Word.refs, Word.body_of_expand hv]
  refine hu.of_body fun e he => ?_
  rcases Array.mem_append.1 he with he | he
  · exact .inl he
  · rw [Array.eq_of_mem_replicate he]
    exact .inr .nil

theorem Basic.addSlot (B : L.Basic) {w : WordId} (hw : L.known w) {v : Value} (hv : L.Knows v) :
    L.Keeps (addSlot w v) fun _ => True :=
  B.changeWord hw (Word.push_revises _) (knows_push hv)

namespace Building

variable (C : L.Building)
include C

/-! ## The line -/

theorem nextToken : L.Keeps M.nextToken fun _ => True := by
  intro x y h
  show L.Same _ (.ok x.line.advance.token? { x with line := x.line.advance })
    (.ok y.line.advance.token? { y with line := y.line.advance })
  rw [← C.line h]
  exact .ok _ trivial (C.setLine h _)

theorem nextName (reader : String) : L.Keeps (M.nextName reader) fun _ => True := by
  refine C.nextToken.bind fun t _ => ?_
  cases t with
  | none => exact .throw _
  | some name => exact .pure trivial

theorem nextText : L.Keeps M.nextText fun _ => True := by
  intro x y h
  unfold M.nextText
  rw [← C.line h]
  rcases x.line.takeUntil '\x22' with ⟨_ | cs, l⟩
  · exact .error _ (C.setLine h l)
  · exact .ok _ trivial (C.setLine h l)

theorem nextChar (reader : String) : L.Keeps (DefiningWord.nextChar reader) fun v => v.refs = [] := by
  refine (C.nextName reader).bind fun name _ => ?_
  cases name.toList with
  | nil => exact .throw _
  | cons c _ => exact .pure rfl

theorem nextFields : ∀ n, L.Keeps (ObjectWord.nextFields n) fun _ => True
  | 0 => .pure trivial
  | n + 1 => by
    refine C.nextToken.bind fun t _ => ?_
    split
    · exact .pure trivial
    · exact .pure trivial
    · exact (nextFields n).bind fun _ _ => .pure trivial

/-! ## The mode -/

theorem getMode : L.Keeps M.mode fun _ => True :=
  .get (fun x y h => by simp only [C.mode h]) fun _ _ _ => .pure trivial

/-- A computation that only goes on inside a definition. -/
theorem requireCompiling (h : L.alike x y) {word : String} {f : Unit → M α}
    (hf : x.compiler.mode = .compiling → L.Same φ (f () x) (f () y)) :
    L.Same φ ((M.requireCompiling word >>= f) x) ((M.requireCompiling word >>= f) y) := by
  have hx : ∀ m : Machine, M.requireCompiling word m =
      if m.compiler.mode = .compiling then .ok () m
      else .error (.compileState (.onlyInDefinition word)) m := by
    intro m
    show (if m.compiler.mode = .compiling then Pure.pure () else _ : M Unit) m = _
    split <;> rfl
  by_cases hm : x.compiler.mode = .compiling
  · have hm' : y.compiler.mode = .compiling := C.mode h ▸ hm
    rw [M.bind_ok ((hx x).trans (if_pos hm)), M.bind_ok ((hx y).trans (if_pos hm'))]
    exact hf hm
  · have hm' : ¬ y.compiler.mode = .compiling := C.mode h ▸ hm
    rw [M.bind_error ((hx x).trans (if_neg hm)), M.bind_error ((hx y).trans (if_neg hm'))]
    exact .error _ h

/-! ## The word created last -/

theorem lastWith (h : L.alike x y) {held : List Ref}
    (hl : x.compiler.last x.heap (held ++ x.roots) = y.compiler.last y.heap (held ++ y.roots)) :
    L.Same L.known (M.lastWith held x) (M.lastWith held y) := by
  show L.Same _ (M.lift (x.compiler.last x.heap (held ++ x.roots)) x)
    (M.lift (y.compiler.last y.heap (held ++ y.roots)) y)
  rw [← hl]
  refine Keeps.lift _ (fun w hw => ?_) x y h
  exact C.known_last h (Compiler.last?_of_last hw)

theorem last (h : L.alike x y) (hl : x.latest = y.latest) :
    L.Same L.known (M.last x) (M.last y) :=
  C.lastWith h hl

/-! ## The word under construction -/

variable (B : L.Basic)
include B

/-- The word under construction is changed. -/
theorem onBuilding {f : Word → Except Error Word} (hf : Word.Revises f)
    (hk : ∀ u v, L.KnowsAll u.refs → f u = .ok v → L.KnowsAll v.refs) :
    L.Keeps (do
      let m ← get
      M.setHeap (m.compiler.building >>= fun b => m.heap.changeWord b f)) fun _ => True := by
  intro x y h
  show L.Same _ (M.setHeap (x.compiler.building >>= fun b => x.heap.changeWord b f) x)
    (M.setHeap (y.compiler.building >>= fun b => y.heap.changeWord b f) y)
  have hb : x.compiler.building = y.compiler.building := by
    unfold Compiler.building
    rw [C.building h]
  rw [← hb]
  cases hw : x.compiler.building? with
  | none =>
    have he : x.compiler.building = .error (.compileState .noneOpen) := by simp [Compiler.building, hw]
    rw [he]
    exact .error _ h
  | some b =>
    have he : x.compiler.building = .ok b := by simp [Compiler.building, hw]
    rw [he]
    exact B.changeWord (C.known_building h hw) hf hk x y h

theorem compile {e : Elem} (he : L.KnowsAll e.refs) : L.Keeps (M.compile e) fun _ => True :=
  C.onBuilding B (Word.push_revises e) (knows_push he)

theorem fillHole (hole target : Nat) : L.Keeps (ControlWord.fillHole hole target) fun _ => True :=
  C.onBuilding B (Word.poke_revises hole _) (knows_poke .nil)

omit B in
theorem skipComment (h : L.alike x y) : L.alike x.skipComment y.skipComment := by
  have hs : ∀ m : Machine, m.skipComment = { m with
      line := (m.line.skipComment (m.line.text.length + 1)).1
      inComment := !(m.line.skipComment (m.line.text.length + 1)).2 } := fun _ => rfl
  rw [hs, hs, ← C.line h]
  generalize x.line.skipComment (x.line.text.length + 1) = r
  exact C.setLine (C.setComment h !r.2) r.1

theorem compileWord {w : WordId} (hw : L.known w) : L.Keeps (M.compileWord w) fun _ => True := by
  intro x y h
  have hm : ∀ m : Machine, M.compileWord w m = M.setHeap (m.compiler.building >>= fun b =>
      if (m.heap.word b).body.isEmpty then (m.heap.word w).code >>= fun code =>
        m.heap.changeWord b fun u => u.push (.direct (Compiler.wrapped w code))
      else m.heap.changeWord b fun u => u.push (.call w)) m := fun _ => rfl
  have hb : x.compiler.building = y.compiler.building := by
    unfold Compiler.building
    rw [C.building h]
  rw [hm, hm, ← hb]
  cases hbx : x.compiler.building? with
  | none =>
    have he : x.compiler.building = .error (.compileState .noneOpen) := by
      simp [Compiler.building, hbx]
    rw [he]
    exact .error _ h
  | some b =>
    have he : x.compiler.building = .ok b := by simp [Compiler.building, hbx]
    have hkb := C.known_building h hbx
    rw [he]
    simp only [Bind.bind, Except.bind, ← B.body_eq h hkb, ← B.code_eq h hw]
    split
    · cases hc : (x.heap.word w).code with
      | error e => exact .error e h
      | ok code =>
        refine B.changeWord hkb (Word.push_revises _) (knows_push ?_) x y h
        cases code with
        | native p => exact .nil
        | docol => exact .call hw
        | indirect body entry => exact .call ((B.word h hw).2.of_code hc)
    · exact B.changeWord hkb (Word.push_revises _) (knows_push (.call hw)) x y h

theorem openDefinition (name : String) : L.Keeps (DefiningWord.openDefinition name) fun _ => True := by
  intro x y h
  have hm : ∀ m : Machine, DefiningWord.openDefinition name m =
      if m.compiler.mode ≠ .interpreting then .error (.compileState .nested) m
      else (do M.compile (.direct .docol); M.setMode .compiling : M Unit) (m.starting name) := by
    intro m
    show (if m.compiler.mode ≠ .interpreting then _ else _ : M Unit) m = _
    split <;> rfl
  rw [hm, hm, ← C.mode h]
  split
  · exact .error _ h
  · refine (C.compile B .nil _ _ (C.start h name)).bind fun _ x' y' hx _ _ hxy => ?_
    refine .ok () trivial (C.setMode hxy .compiling (.inr (.inr (.inr (.inr ?_)))))
    exact ControlWord.building_of_compile hx

theorem setLastCode (h : L.alike x y) (hl : x.latest = y.latest) {c : Code}
    (hc : L.KnowsAll (Elem.direct c).refs) :
    L.Same (fun _ => True) (setLastCode c x) (setLastCode c y) :=
  (C.last h hl).bind fun _ _ _ _ _ hw hxy =>
    B.changeWord hw (Word.setCode_revises c) (knows_poke hc) _ _ hxy

theorem here (h : L.alike x y) (hl : x.compiler.building? = none → x.latest = y.latest) :
    L.Same (fun _ => True) (M.here x) (M.here y) := by
  show L.Same _ (M.lift (x.compiler.here x.heap x.roots) x) (M.lift (y.compiler.here y.heap y.roots) y)
  have he : x.compiler.here x.heap x.roots = y.compiler.here y.heap y.roots := by
    unfold Compiler.here
    rw [← C.building h]
    cases hb : x.compiler.building? with
    | some w => simp only [Word.size, B.body_eq h (C.known_building h hb)]
    | none =>
      have hlast : x.compiler.last x.heap x.roots = y.compiler.last y.heap y.roots := hl hb
      simp only [← hlast]
      cases hw : x.compiler.last x.heap x.roots with
      | error e => rfl
      | ok w =>
        have hk := C.known_last h (Compiler.last?_of_last hw)
        simp only [Except.map, Word.size, B.body_eq h hk]
  rw [← he]
  exact Keeps.lift' _ x y h

/-- Right after something was compiled, the next free position is that of the word under
    construction. -/
theorem hereAfter {act : M Unit} {f : Nat → M α} (ha : L.Keeps act fun _ => True)
    (hb : ∀ m m', act m = .ok () m' → m'.compiler.building? ≠ none) (hf : ∀ n, L.Keeps (f n) φ) :
    L.Keeps (act >>= fun _ => M.here >>= f) φ := by
  intro x y h
  refine (ha x y h).bind fun _ x' y' hx _ _ hxy => ?_
  exact (C.here B hxy fun hn => absurd hn (hb _ _ hx)).bind fun n _ _ _ _ _ hxy' => hf n _ _ hxy'

end Building

namespace Naming

variable (N : L.Naming)
include N

/-! ## Names -/

theorem builtin (name : String) : L.Keeps (M.builtin name) L.known := by
  refine .get (fun x y h => by simp only [N.find h]) fun x y h => ?_
  cases hw : x.find? name with
  | none => exact .throw _
  | some w => exact .pure (N.known_find h hw)

theorem newWord {w : Word} (hw : w.builtin = false) (hk : L.KnowsAll w.refs) :
    L.Keeps (do let id ← M.install w; M.setLast id; pure id : M WordId) L.known := by
  intro x y h
  obtain ⟨hid, hkn, hxy⟩ := N.define h hw hk
  show L.Same _ (.ok (x.install w).1 (x.defining w)) (.ok (y.install w).1 (y.defining w))
  rw [← hid]
  exact .ok _ hkn hxy

theorem createWord (name : String) : L.Keeps (createWord name) L.known :=
  N.newWord rfl (by simp [KnowsAll, Word.created, Word.refs, Elem.refs])

theorem defineConstant (name : String) {v : Value} (hv : L.Knows v) :
    L.Keeps (M.defineConstant name v) L.known := by
  refine N.newWord rfl fun w hw => hv w ?_
  simpa [Word.constant, Word.refs, Elem.refs] using hw

theorem defineFields (name : String) : ∀ i fields,
    L.Keeps (ObjectWord.defineFields name i fields) fun _ => True
  | _, [] => .pure trivial
  | i, _ :: rest =>
    (N.defineConstant _ (.plain rfl)).bind fun _ _ => defineFields name (i + 1) rest

variable (C : L.Building)
include C

theorem nextWord (reader : String) : L.Keeps (M.nextWord reader) L.known := by
  refine (C.nextName reader).bind fun name _ => .get (fun x y h => by simp only [N.find h])
    fun x y h => ?_
  cases hw : x.find? name with
  | none => exact .throw _
  | some w => exact .pure (N.known_find h hw)

theorem forgetWord : L.Keeps (DefiningWord.act .forget) fun _ => True := by
  refine (C.nextName _).bind fun name _ x y h => ?_
  show L.Same _ ((M.lift (x.dictionary.forget x.heap name) >>= _) x)
    ((M.lift (y.dictionary.forget y.heap name) >>= _) y)
  have hf := N.forget h name
  cases hx : x.dictionary.forget x.heap name with
  | error e =>
    cases hy : y.dictionary.forget y.heap name with
    | error e' =>
      rw [hx, hy] at hf
      cases hf
      exact .error e h
    | ok s =>
      rw [hx, hy] at hf
      exact hf.elim
  | ok r =>
    cases hy : y.dictionary.forget y.heap name with
    | error e =>
      rw [hx, hy] at hf
      exact hf.elim
    | ok s =>
      rw [hx, hy] at hf
      exact .ok () trivial hf

variable (B : L.Basic)
include B

theorem declare : L.Keeps ObjectWord.declare fun _ => True := by
  refine (C.nextName _).bind fun name _ => .get (fun x y h => by simp only [C.line h]) fun x y h =>
    (C.nextFields _).bind fun fields _ => ?_
  cases fields with
  | none => exact .throw _
  | some fields =>
    exact (B.onTypes fun t w ht hw => ht w (ObjectWord.handles_addUser hw)).bind fun _ _ =>
      (N.defineConstant _ (.plain rfl)).bind fun _ _ => N.defineFields _ _ _

theorem compileBuiltin (name : String) : L.Keeps (M.compileBuiltin name) fun _ => True :=
  (N.builtin name).bind fun _ hw => C.compile B (.call hw)

theorem compileLiteral {v : Value} (hv : L.Knows v) : L.Keeps (M.compileLiteral v) fun _ => True :=
  (N.compileBuiltin C B _).bind fun _ _ => C.compile B (e := .lit v) hv

/-! ## Control structures -/

theorem compileHole : L.Keeps ControlWord.compileHole fun _ => True :=
  C.hereAfter B (N.compileBuiltin C B _) (fun _ _ => ControlWord.building_of_compileBuiltin)
    fun _ => (C.compile B .nil).bind fun _ _ => .pure trivial

theorem compileJump (target : Nat) (word : String) :
    L.Keeps (ControlWord.compileJump target word) fun _ => True :=
  (N.compileLiteral C B (.plain rfl)).bind fun _ _ => N.compileBuiltin C B word

theorem jumpBack (target hole : Nat) (word : String) : L.Keeps (do
    ControlWord.compileJump target word
    ControlWord.fillHole hole (← M.here)) fun _ => True :=
  C.hereAfter B (N.compileJump C B target word) (fun _ _ => ControlWord.building_of_compileJump)
    (C.fillHole B hole)

end Naming

namespace Basic

variable (B : L.Basic)
include B

theorem openAt (address : Nat) (tag : ControlTag) :
    L.Keeps (ControlWord.openAt address tag) fun _ => True :=
  (B.pushPlain rfl).bind fun _ _ => B.pushPlain rfl

theorem popAddress (fault : ControlFault) : L.Keeps (ControlWord.popAddress fault) fun _ => True :=
  B.popInt.bind fun _ _ => .orThrow (.pure trivial)

theorem closeTag (tags : List ControlTag) (fault : ControlFault) :
    L.Keeps (ControlWord.closeTag tags fault) fun _ => True :=
  B.pop.bind fun _ _ => .ite (B.popAddress fault) (.throw _)

end Basic

theorem Building.controlBuild (C : L.Building) (B : L.Basic) (h : L.alike x y) {w : ControlWord}
    (hn : w.looksUp = true → L.Naming)
    (hl : (Primitive.control w).asksLast x.compiler = true → x.latest = y.latest) :
    L.Same (fun _ => True) (w.build x) (w.build y) := by
  cases w with
  | openIf =>
    exact (((hn rfl).compileHole C B).bind fun _ _ => ((hn rfl).compileBuiltin C B _).bind
      fun _ _ => B.openAt _ _) x y h
  | elseBranch =>
    exact ((B.closeTag _ _).bind fun _ _ => ((hn rfl).compileHole C B).bind fun _ _ =>
      C.hereAfter B ((hn rfl).compileBuiltin C B _)
        (fun _ _ => ControlWord.building_of_compileBuiltin) fun _ =>
          (C.fillHole B _ _).bind fun _ _ => B.openAt _ _) x y h
  | closeIf =>
    refine (B.closeTag _ _ x y h).bind fun k x' y' hx hy _ hxy => ?_
    refine (C.here B hxy fun hb => ?_).bind fun n _ _ _ _ _ hxy' => C.fillHole B k n _ _ hxy'
    obtain ⟨s, hs, rfl⟩ := ControlWord.closeTag_refs hx
    obtain ⟨t, ht, rfl⟩ := ControlWord.closeTag_refs hy
    show x.compiler.last x.heap _ = y.compiler.last y.heap _
    rw [Machine.roots_of_refs hs, Machine.roots_of_refs ht]
    exact hl (by simp [Primitive.asksLast, show x.compiler.building? = none from hb])
  | beginLoop =>
    exact (C.here B h fun hb => hl (by simp [Primitive.asksLast, hb])).bind
      fun n _ _ _ _ _ hxy => B.openAt n _ _ _ hxy
  | untilFlag => exact ((B.closeTag _ _).bind fun _ _ => (hn rfl).compileJump C B _ _) x y h
  | again => exact ((B.closeTag _ _).bind fun _ _ => (hn rfl).compileJump C B _ _) x y h
  | whileFlag =>
    exact ((B.peek 0).bind fun _ _ => .orThrow <| ((hn rfl).compileHole C B).bind fun _ _ =>
      ((hn rfl).compileBuiltin C B _).bind fun _ _ => B.openAt _ _) x y h
  | repeatLoop =>
    exact ((B.closeTag _ _).bind fun _ _ => (B.closeTag _ _).bind fun _ _ =>
      (hn rfl).jumpBack C B _ _ _) x y h
  | openCount maySkip =>
    exact (((hn rfl).compileHole C B).bind fun _ _ =>
      C.hereAfter B ((hn rfl).compileBuiltin C B _)
        (fun _ _ => ControlWord.building_of_compileBuiltin) fun _ =>
          (B.pushPlain rfl).bind fun _ _ => B.openAt _ _) x y h
  | closeCount stepped =>
    exact ((B.closeTag _ _).bind fun _ _ => (B.popAddress _).bind fun _ _ =>
      (hn rfl).jumpBack C B _ _ _) x y h
  | leave => exact (hn rfl).compileBuiltin C B _ x y h
  | unloop => exact (hn rfl).compileBuiltin C B _ x y h
  | recurse => exact C.compile B .nil x y h

/-! ## The families of primitives -/

theorem Basic.listing_eq (B : L.Basic) (h : L.alike x y) {w : WordId} (hw : L.known w) :
    x.heap.listing w = y.heap.listing w := by
  have hr := (B.word h hw).2
  have he : ∀ e ∈ (x.heap.word w).body.toList, x.heap.elemText e = y.heap.elemText e := by
    intro e he
    have hk : L.KnowsAll e.refs := fun u hu => hr u (List.mem_flatMap.2 ⟨e, he, hu⟩)
    cases e with
    | direct c =>
      cases c with
      | indirect body entry =>
        simp only [Heap.elemText, Heap.codeText, B.label_eq h (hk body List.mem_cons_self)]
      | _ => rfl
    | call u => simp only [Heap.elemText, B.label_eq h (hk u List.mem_cons_self)]
    | lit v =>
      have hd := B.display_eq h (v := v) hk
      cases v <;> simp only [Heap.elemText, hd]
    | recurse => rfl
  unfold Heap.listing
  rw [← B.body_eq h hw]
  refine congrArg String.join (List.ext_getElem (by simp) fun i hi _ => ?_)
  simp only [List.getElem_mapIdx]
  rw [he _ (List.getElem_mem _)]

theorem Basic.outputAny (B : L.Basic) (h : L.alike x y) {w : OutputWord}
    (hb : (Primitive.output w).usesSource x = true → L.Building)
    (hn : (Primitive.output w).consults x = true → L.Naming) :
    L.Same (fun _ => True) (w.run x) (w.run y) := by
  by_cases hw : w = .words
  · subst hw
    exact (Keeps.get (fun x y h => by simp only [(hn (by simp [Primitive.consults])).names h])
      fun _ _ _ => B.write _) x y h
  · by_cases hs : w = .see
    · subst hs
      have C := hb (by simp [Primitive.usesSource, Primitive.consults])
      have N := hn (by simp [Primitive.consults])
      exact ((N.nextWord C _).bind fun w hw => .get (fun x y h => by simp only [B.listing_eq h hw])
        fun _ _ _ => B.put _) x y h
    · exact B.outputWord hw hs x y h

theorem Basic.memoryWord (B : L.Basic) (h : L.alike x y) {w : MemoryWord}
    (hb : (Primitive.memory w).usesSource x = true → L.Building)
    (hn : (Primitive.memory w).consults x = true → L.Naming)
    (hl : (Primitive.memory w).asksLast x.compiler = true → x.latest = y.latest) :
    L.Same L.Leads (w.run x) (w.run y) := by
  cases w with
  | load => exact B.loadWord x y h
  | store => exact B.storeWord x y h
  | addStore => exact B.addStoreWord h fun hc => (hn hc).builtin _
  | here =>
    exact ((hb rfl).here B h fun hx => hl (by simp [Primitive.asksLast, hx])).bind
      fun n _ _ _ _ _ hxy => ((B.pushPlain rfl).bind fun _ _ => .pure trivial) _ _ hxy
  | comma =>
    refine (B.pop x y h).bind fun v x' y' hx hy hv hxy => ?_
    obtain ⟨s, hs, rfl⟩ := M.pop_eq_ok hx
    obtain ⟨t, ht, rfl⟩ := M.pop_eq_ok hy
    refine ((hb rfl).lastWith hxy ?_).bind fun _ _ _ _ _ hw hxy' =>
      ((B.addSlot hw hv).bind fun _ _ => .pure trivial) _ _ hxy'
    rw [Machine.roots_of_cons hs, Machine.roots_of_cons ht]
    exact hl rfl
  | allot =>
    refine (B.popInt x y h).bind fun n x' y' hx hy _ hxy => ?_
    obtain ⟨s, hs, rfl⟩ := M.popInt_eq_ok hx
    obtain ⟨t, ht, rfl⟩ := M.popInt_eq_ok hy
    split
    · exact .error _ hxy
    · have hm : (do
          let m ← get
          M.setHeap (m.compiler.expand m.heap m.roots n.toInt.toNat)
          pure Flow.next : M Flow) = (do
          let w ← M.last
          M.setHeap ((← get).heap.changeWord w fun u => u.expand n.toInt.toNat)
          pure Flow.next : M Flow) := by
        funext m
        show (M.setHeap (m.compiler.last m.heap m.roots >>= _) >>= _) m =
          (M.lift (m.compiler.last m.heap m.roots) >>= _) m
        cases m.compiler.last m.heap m.roots <;> rfl
      rw [hm]
      refine ((hb rfl).last hxy ?_).bind fun _ _ _ _ _ hw hxy' =>
        ((B.changeWord hw (Word.expand_revises _) knows_expand).bind fun _ _ => .pure trivial) _ _ hxy'
      show x.compiler.last x.heap _ = y.compiler.last y.heap _
      rw [Machine.roots_of_refs hs, Machine.roots_of_refs ht]
      exact hl rfl
  | create =>
    exact (((hb rfl).nextName _).bind fun _ _ => ((hn rfl).createWord _).bind fun _ _ =>
      .pure trivial) x y h
  | «variable» =>
    exact (((hb rfl).nextName _).bind fun _ _ => ((hn rfl).createWord _).bind fun _ hw =>
      (B.addSlot hw (.plain rfl)).bind fun _ _ => .pure trivial) x y h
  | constant =>
    exact (((hb rfl).nextName _).bind fun _ _ => B.pop.bind fun _ hv =>
      ((hn rfl).defineConstant _ hv).bind fun _ _ => .pure trivial) x y h
  | does =>
    have C := hb rfl
    have hmode : L.Same (fun _ => True) (M.mode x) (M.mode y) := by
      show L.Same _ (.ok x.compiler.mode x) (.ok y.compiler.mode y)
      rw [← C.mode h]
      exact .ok _ trivial h
    refine hmode.bind fun mode x' y' hx hy _ _ => ?_
    obtain ⟨hm, rfl⟩ := EStateM.Result.ok.inj hx
    obtain ⟨-, rfl⟩ := EStateM.Result.ok.inj hy
    cases mode with
    | compiling =>
      have N := hn (by simp [Primitive.consults, hm])
      exact ((N.compileBuiltin C B _).bind fun _ _ => .pure trivial) x y h
    | interpreting =>
      refine (C.last h (hl (by simp [Primitive.asksLast, hm]))).bind fun _ _ _ _ _ _ hxy => ?_
      exact .ok _ trivial (C.setMode hxy _ (.inr (.inl rfl)))
    | compilingPostponed => exact .error _ h
    | runtimeCompiling => exact .error _ h
  | doesRuntime =>
    refine (B.parent x y h).bind fun f x' y' hx hy hf hxy => ?_
    obtain ⟨rfl, -⟩ := M.parent_eq_ok hx
    obtain ⟨rfl, -⟩ := M.parent_eq_ok hy
    have hc : L.KnowsAll (Elem.direct (.indirect f.word f.ip)).refs := Knows.xt hf
    exact ((hb rfl).setLastCode B hxy (hl rfl) hc).bind fun _ _ _ _ _ _ hxy' => .ok _ trivial hxy'

/-- A computation that only goes on if a definition leaves the data stack as deep as it was. -/
theorem Building.checkBalance (C : L.Building) (B : L.Basic) (h : L.alike x y)
    (hm : x.compiler.mode = .compiling) {f : Unit → M α} (hf : L.Same φ (f () x) (f () y)) :
    L.Same φ ((DefiningWord.checkBalance >>= f) x) ((DefiningWord.checkBalance >>= f) y) := by
  have hx := DefiningWord.checkBalance_eq x
  have hy := DefiningWord.checkBalance_eq y
  rw [← B.data_eq h, ← C.depth h hm] at hy
  cases hi : DefiningWord.imbalance? x.data x.compiler.startDepth with
  | none =>
    rw [hi] at hx hy
    rw [M.bind_ok hx, M.bind_ok hy]
    exact hf
  | some e =>
    rw [hi] at hx hy
    rw [M.bind_error hx, M.bind_error hy]
    exact .error e h

/-- The end of a definition: its word is bound in the dictionary, or left on the data stack. -/
theorem Building.reveal (C : L.Building) (B : L.Basic) (h : L.alike x y)
    (hm : x.compiler.mode = .compiling)
    (hn : (x.compiler.building?.any fun w => !(x.heap.word w).isAnonymous) = true → L.Naming) :
    L.Same (fun _ => True) (DefiningWord.reveal x) (DefiningWord.reveal y) := by
  refine C.checkBalance B h hm ?_
  rw [DefiningWord.closeBalanced_eq, DefiningWord.closeBalanced_eq, ← C.building h]
  cases hw : x.compiler.building? with
  | none => exact .error _ h
  | some w =>
    have hk := C.known_building h hw
    have hname : (x.heap.word w).isAnonymous = (y.heap.word w).isAnonymous := by
      unfold Word.isAnonymous
      rw [B.name_eq h hk]
    simp only [← hname]
    by_cases ha : (x.heap.word w).isAnonymous = true
    · rw [if_pos ha, if_pos ha]
      exact B.push (.xt hk) _ _ (C.unhide (C.finish h hm) hk)
    · rw [if_neg ha, if_neg ha]
      have N := hn (by simp [hw, ha])
      exact .ok () trivial (N.reveal h hw hm)

theorem Basic.definingAct (B : L.Basic) (h : L.alike x y) {w : DefiningWord} (hw : w ≠ .execute)
    (hb : L.Building) (hn : (Primitive.defining w).consults x = true → L.Naming)
    (hl : (Primitive.defining w).asksLast x.compiler = true → x.latest = y.latest) :
    L.Same (fun _ => True) (w.act x) (w.act y) := by
  cases w with
  | colon => exact ((hb.nextName _).bind fun _ _ => hb.openDefinition B _) x y h
  | noname => exact hb.openDefinition B _ x y h
  | semicolon =>
    refine hb.requireCompiling h fun hm => ?_
    refine (hb.reveal B h hm fun hw => hn ?_).bind fun _ _ _ _ _ _ hxy => ?_
    · simpa [Primitive.consults, hm] using hw
    · exact .ok _ trivial (hb.setMode hxy _ (.inl rfl))
  | immediate =>
    exact (hb.last h (hl rfl)).bind fun _ _ _ _ _ hw hxy => .ok _ trivial (hb.setImmediate hxy hw)
  | postpone =>
    exact hb.requireCompiling h fun hm =>
      .ok _ trivial (hb.setMode h _ (.inr (.inr (.inl hm))))
  | leftBracket =>
    exact hb.requireCompiling h fun _ => .ok _ trivial (hb.setMode h _ (.inl rfl))
  | rightBracket =>
    show L.Same _ ((M.lift x.compiler.building >>= fun _ => M.setMode .compiling) x)
      ((M.lift y.compiler.building >>= fun _ => M.setMode .compiling) y)
    have he : x.compiler.building = y.compiler.building := by
      unfold Compiler.building
      rw [hb.building h]
    rw [← he]
    refine (Keeps.lift' x.compiler.building x y h).bind fun w x' y' hx _ _ hxy => ?_
    obtain ⟨hw, rfl⟩ := M.lift_eq_ok hx
    refine .ok _ trivial (hb.setMode hxy _ (.inr (.inr (.inr (.inr ?_)))))
    intro hnone
    simp [Compiler.building, hnone] at hw
  | literal =>
    refine hb.requireCompiling h fun hm => ?_
    have N := hn (by simp [Primitive.consults, hm])
    exact (B.pop.bind fun _ hv => N.compileLiteral hb B hv) x y h
  | tick => exact (((hn rfl).nextWord hb _).bind fun _ hw => B.push (.xt hw)) x y h
  | bracketTick =>
    refine hb.requireCompiling h fun hm => ?_
    have N := hn (by simp [Primitive.consults, hm])
    exact ((N.nextWord hb _).bind fun _ hw => N.compileLiteral hb B (.xt hw)) x y h
  | execute => exact absurd rfl hw
  | compileComma => exact (B.popWord.bind fun _ hw => hb.compileWord B hw) x y h
  | forget => exact (hn rfl).forgetWord hb x y h
  | char => exact ((hb.nextChar _).bind fun _ hv => B.pushPlain hv) x y h
  | bracketChar =>
    refine hb.requireCompiling h fun hm => ?_
    have N := hn (by simp [Primitive.consults, hm])
    exact ((hb.nextChar _).bind fun _ hv => N.compileLiteral hb B (.plain hv)) x y h
  | string =>
    refine (hb.nextText x y h).bind fun text x₁ y₁ hx _ _ h₁ => (B.newText text x₁ y₁ h₁).bind
      fun v x₂ y₂ hx₂ _ hv h₂ => ?_
    have hmode : x₂.compiler.mode = x.compiler.mode := by
      cases hx₂
      show x₁.compiler.mode = x.compiler.mode
      exact congrArg Compiler.mode (M.compiler_of_nextText hx)
    show L.Same _ ((if x₂.compiler.mode = .compiling then M.compileLiteral v else M.push v : M Unit) x₂)
      ((if y₂.compiler.mode = .compiling then M.compileLiteral v else M.push v : M Unit) y₂)
    rw [← hb.mode h₂, hmode]
    split
    · rename_i hm
      have N := hn (by simp [Primitive.consults, hm])
      exact N.compileLiteral hb B hv x₂ y₂ h₂
    · exact B.push hv x₂ y₂ h₂
  | printString =>
    refine (hb.nextText x y h).bind fun text x₁ y₁ hx _ _ h₁ => ?_
    have hmode : x₁.compiler.mode = x.compiler.mode :=
      congrArg Compiler.mode (M.compiler_of_nextText hx)
    show L.Same _
      ((if x₁.compiler.mode = .compiling then do
          M.compileLiteral (← M.newText text)
          M.compileBuiltin "type" else M.put text : M Unit) x₁)
      ((if y₁.compiler.mode = .compiling then do
          M.compileLiteral (← M.newText text)
          M.compileBuiltin "type" else M.put text : M Unit) y₁)
    rw [← hb.mode h₁, hmode]
    split
    · rename_i hm
      have N := hn (by simp [Primitive.consults, hm])
      exact ((B.newText text).bind fun _ hv => (N.compileLiteral hb B hv).bind fun _ _ =>
        N.compileBuiltin hb B _) x₁ y₁ h₁
    · exact B.put text x₁ y₁ h₁
  | comment => exact .ok _ trivial (hb.skipComment h)
  | lineComment =>
    refine .ok _ trivial ?_
    show L.alike { x with line := x.line.skip } { y with line := y.line.skip }
    rw [← hb.line h]
    exact hb.setLine h _

/-- A computation after which the calling word goes on. -/
theorem Same.thenNext {act : M Unit} (h : L.Same (fun _ => True) (act x) (act y)) :
    L.Same L.Leads (thenNext act x) (thenNext act y) :=
  h.bind fun _ _ _ _ _ _ hxy => .ok _ trivial hxy

/-- **Primitives do the same to machines that are alike**, if the likeness allows what they are about
    to use, and they get the same answers when they ask what is alive. -/
theorem Basic.primitive (B : L.Basic) (h : L.alike x y) {p : Primitive}
    (hb : p.usesSource x = true → L.Building) (hn : p.consults x = true → L.Naming)
    (ha : p.SameAnswers x y) : L.Same L.Leads (p.run x) (p.run y) := by
  cases p with
  | stack w => exact (B.stackWord w x y h).thenNext
  | arithmetic w => exact B.arithmeticWord h w fun hc => (hn hc).builtin _
  | float w => exact (B.floatWord w x y h).thenNext
  | output w => exact (B.outputAny h hb hn).thenNext
  | memory w => exact B.memoryWord h hb hn ha.last
  | defining w =>
    by_cases hw : w = .execute
    · subst hw
      exact (B.popWord.bind (ψ := L.Leads) fun w hw => .pure (a := Flow.call w) hw) x y h
    · have hrun : w.run = (do w.act; pure Flow.next : M Flow) := by
        cases w <;> first | rfl | exact absurd rfl hw
      show L.Same _ (w.run x) (w.run y)
      rw [hrun]
      exact (B.definingAct h hw (hb (by simpa [Primitive.usesSource] using hw)) hn ha.last).bind
        fun _ _ _ _ _ _ hxy => .ok _ trivial hxy
  | control w =>
    have C := hb rfl
    refine Same.thenNext (C.requireCompiling h fun hm => ?_)
    exact C.controlBuild B h (fun hw => hn (by simp [Primitive.consults, hm, hw])) ha.last
  | branch w => exact B.branchWord w x y h
  | object w =>
    refine Same.thenNext ?_
    by_cases hw : w = .struct
    · subst hw
      exact (hn (by simp [Primitive.consults])).declare (hb (by
        simp [Primitive.usesSource, Primitive.consults])) B x y h
    · exact B.objectWord h hw (fun hc => ha.count (by rw [hc])) fun hc => ha.address (by rw [hc])
  | state w => exact (B.stateWord w x y h).thenNext
  | host w => exact B.hostWord w x y h
  | dataAddress => exact (B.pushDataAddress x y h).thenNext
  | pushConstant => exact (B.pushFirstSlot x y h).thenNext
  | nop => exact .ok _ trivial h

end Likeness
end ThreadedForth
