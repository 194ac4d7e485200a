/-
  Properties of words that everything in a session keeps.
-/
import ThreadedForth.Proofs.Bindings

namespace ThreadedForth
namespace Machine

/-- A property that is kept by the changes of words, of the word under construction and of the one
    created last. -/
structure Kept (P : Machine → Prop) : Prop where
  /-- Nothing changes about the words. -/
  same : ∀ {m m' : Machine}, P m → m'.heap.words = m.heap.words → m'.compiler = m.compiler → P m'
  /-- The mode changes: a word may be compiled only if one is under construction, or if one was to be
      compiled before. -/
  mode : ∀ {m : Machine}, P m → ∀ mode, mode = .interpreting ∨ mode = .runtimeCompiling ∨
    m.compiler.mode = .compiling ∨ m.compiler.mode = .compilingPostponed ∨
    m.compiler.building? ≠ none → P { m with compiler := { m.compiler with mode } }
  /-- There is no word under construction any more. -/
  finish : ∀ {m : Machine}, P m → P { m with compiler := { m.compiler with building? := none } }
  /-- A word changes, but not its name and not where it came from, and it stays immediate. -/
  update : ∀ {m : Machine}, P m → ∀ (w : WordId) (f : Word → Word),
    (∀ u, (f u).name = u.name ∧ (f u).builtin = u.builtin ∧
      (u.immediate = true → (f u).immediate = true)) →
    P { m with heap := m.heap.updateWord w f }
  /-- A definition is opened. -/
  start : ∀ {m : Machine}, P m → ∀ name, P (m.starting name)
  /-- A word is made that becomes the one created last. -/
  define : ∀ {m : Machine}, P m → ∀ w : Word, w.builtin = false →
    P { m with
      heap := (m.heap.addWord w).2
      compiler := { m.compiler with last? := some (m.heap.addWord w).1 } }

/-- A property that is kept when the host adds a word, too. -/
structure KeptAlways (P : Machine → Prop) : Prop extends Kept P where
  /-- A word is added that comes with the machine. -/
  add : ∀ {m : Machine}, P m → ∀ w : Word, P { m with heap := (m.heap.addWord w).2 }

namespace Kept

variable {P : Machine → Prop} (K : Kept P)
include K

/-- The dictionary does not matter. -/
theorem dictionary {m : Machine} (h : P m) (d : Dictionary) : P { m with dictionary := d } :=
  K.same h rfl rfl

/-- A word is bound under its own name. -/
theorem bind {m : Machine} (h : P m) (w : WordId) :
    P { m with
      dictionary := (m.dictionary.add m.heap w).2.1
      heap := (m.dictionary.add m.heap w).2.2 } :=
  K.dictionary (K.update h w (fun u => { u with hidden := false }) fun _ => ⟨rfl, rfl, id⟩) _

theorem defining {m : Machine} (h : P m) (w : Word) (hw : w.builtin = false) : P (m.defining w) :=
  K.bind (K.define h w hw) (m.heap.addWord w).1

theorem forget {m : Machine} (h : P m) {name : String} {r : WordId × Dictionary × Heap}
    (hf : m.dictionary.forget m.heap name = .ok r) :
    P { m with dictionary := r.2.1, heap := r.2.2 } := by
  unfold Dictionary.forget at hf
  split at hf
  · cases hf
  · rename_i u _
    split at hf
    · cases hf
    · cases hf
      exact K.dictionary (K.update h u (fun x => { x with hidden := true }) fun _ => ⟨rfl, rfl, id⟩) _

omit K in
/-- A machine is alike to itself as long as it has the property. -/
def likeness (P : Machine → Prop) : Likeness :=
  ⟨fun x y => x = y ∧ P x, fun _ => True⟩

omit K in
theorem alike {x y : Machine} {f : Machine → Machine} (h : (likeness P).alike x y)
    (hf : P x → P (f x)) : (likeness P).alike (f x) (f y) := by
  obtain ⟨rfl, h⟩ := h
  exact ⟨rfl, hf h⟩

omit K in
theorem holds (c : Common) : (likeness P).Holds c :=
  ⟨fun _ _ _ _ => trivial, fun _ _ _ _ => trivial, fun _ _ _ _ => trivial, fun _ _ => trivial,
    fun _ _ _ _ _ _ => trivial, fun _ _ => trivial⟩

theorem full : (likeness P).Full where
  basic :=
    { common := fun h => congrArg Machine.common h.1
      holds := fun _ => holds _
      share := fun h c _ => alike (f := (·.share c)) h fun h => K.same h rfl rfl
      objects := fun h => congrArg (fun m : Machine => m.heap.objects) h.1
      items := fun _ _ _ _ _ _ _ => trivial
      setObjects := fun h os _ => alike (f := (·.setObjects os)) h fun h => K.same h rfl rfl
      word := fun h _ _ => ⟨by rw [h.1], fun _ _ => trivial⟩
      setBody := fun h u _ body _ =>
        alike (f := (·.setBody u body)) h fun h => K.update h u _ fun _ => ⟨rfl, rfl, id⟩ }
  building :=
    { line := fun h => congrArg Machine.line h.1
      setLine := fun h l => alike (f := ({ · with line := l })) h fun h => K.same h rfl rfl
      comment := fun h => by rw [h.1]
      setComment := fun h b =>
        alike (f := ({ · with inComment := b })) h fun h => K.same h rfl rfl
      mode := fun h => by rw [h.1]
      building := fun h => by rw [h.1]
      known_building := fun _ _ _ => trivial
      known_last := fun _ _ _ => trivial
      depth := fun h _ => by rw [h.1]
      setMode := fun h mode hm =>
        alike (f := fun m => { m with compiler := { m.compiler with mode } }) h
          fun h => K.mode h mode hm
      start := fun h name => alike (f := (·.starting name)) h fun h => K.start h name
      finish := fun h _ =>
        alike (f := fun m => { m with compiler := { m.compiler with building? := none } }) h K.finish
      unhide := fun h u _ =>
        alike (f := fun m =>
          { m with heap := m.heap.updateWord u fun v => { v with hidden := false } }) h
          fun h => K.update h u _ fun _ => ⟨rfl, rfl, id⟩
      setImmediate := fun h u _ =>
        alike (f := fun m =>
          { m with heap := m.heap.updateWord u fun v => { v with immediate := true } }) h
          fun h => K.update h u _ fun _ => ⟨rfl, rfl, fun _ => rfl⟩ }
  naming :=
    { find := fun h _ => by rw [h.1]
      known_find := fun _ _ _ _ => trivial
      names := fun h => by rw [h.1]
      define := fun {x y} h u hu _ =>
        ⟨by rw [h.1], trivial, alike (f := (·.defining u)) h fun h => K.defining h u hu⟩
      reveal := fun {x y} h u _ _ =>
        alike (f := (·.revealing u)) h fun h => K.finish (K.bind h u)
      forget := by
        rintro x _ ⟨rfl, h⟩ name
        cases hf : x.dictionary.forget x.heap name with
        | error e => rfl
        | ok r => exact ⟨rfl, K.forget h hf⟩ }
  latest := fun h => by rw [h.1]
  topCount := fun h => by rw [h.1]
  topAddress := fun h => by rw [h.1]
  reset := fun h => alike (f := Machine.reset) h fun h =>
    K.same (K.mode (K.finish h) .interpreting (.inl rfl)) rfl rfl

/-- **What the changes of words keep, a step of the engine keeps.** -/
theorem step {m : Machine} (h : P m) : P m.step.machine := by
  have hs : (likeness P).SameStep m.step m.step :=
    K.full.basic.step ⟨rfl, h⟩ fun p _ => K.full.allows ⟨rfl, h⟩ p
  generalize m.step = p at hs
  cases hs with
  | running h => exact h.2
  | ended h => exact h.2
  | failed e h => exact h.2

theorem goes {m m' : Machine} {n : Nat} (h : P m) (hg : Goes n m m') : P m' := by
  induction hg with
  | refl => exact h
  | step hs _ ih =>
    have hm := K.step h
    rw [hs] at hm
    exact ih hm

end Kept

namespace KeptAlways

variable {P : Machine → Prop} (K : KeptAlways P)
include K

theorem install {m : Machine} (h : P m) (w : Word) : P (m.install w).2 :=
  K.bind (K.add h w) (m.heap.addWord w).1

/-- **What all changes of words keep, a session keeps.** -/
theorem next {ph ph' : Phase} {m m' : Machine} (h : P m) (hn : Next ph m ph' m') : P m' :=
  (K.full.next (fun _ _ hm => ⟨rfl, K.install hm.2 _⟩) ⟨rfl, h⟩ hn).2

theorem leads {ph ph' : Phase} {m m' : Machine} (h : P m) (hl : Leads ph m ph' m') : P m' := by
  induction hl with
  | refl => exact h
  | tail _ hn ih => exact K.next (ih h) hn

end KeptAlways

/-! ## Words that came with the machine -/

/-- Words that came with the machine.  The compiler knows only words that did not. -/
structure Came (ws : List WordId) (m : Machine) : Prop where
  came : ∀ w ∈ ws, m.heap.Has (.word w) ∧ (m.heap.word w).builtin = true
  last : ∀ u, m.compiler.last? = some u → OwnWord m.heap u
  building : ∀ u, m.compiler.building? = some u → OwnWord m.heap u

variable {ws : List WordId} {w : WordId} {m m' : Machine} {ph ph' : Phase}

theorem Came.ne (h : m.Came ws) (hw : w ∈ ws) {u : WordId} (hu : OwnWord m.heap u) : u ≠ w := by
  rintro rfl
  cases (h.came u hw).2.symm.trans hu.2

theorem Came.addWord (h : m.Came ws) (u : Word) :
    Came ws { m with heap := (m.heap.addWord u).2 } := by
  have hword : ∀ v, m.heap.Has (.word v) → (m.heap.addWord u).2.Has (.word v) ∧
      (m.heap.addWord u).2.word v = m.heap.word v :=
    fun v hv => ⟨hv.mono (.addWord _ _), Heap.word_addWord_of_has hv u⟩
  have hown : ∀ v, OwnWord m.heap v → OwnWord (m.heap.addWord u).2 v :=
    fun v hv => ⟨(hword v hv.1).1, by rw [(hword v hv.1).2]; exact hv.2⟩
  refine ⟨fun v hv => ⟨(hword v (h.came v hv).1).1, ?_⟩, fun v hv => hown v (h.last v hv),
    fun v hv => hown v (h.building v hv)⟩
  show ((m.heap.addWord u).2.word v).builtin = true
  rw [(hword v (h.came v hv).1).2]
  exact (h.came v hv).2

theorem Came.kept : KeptAlways (Came ws) where
  same := by
    intro m m' h hwords hcompiler
    have hhas : ∀ u, m'.heap.Has (.word u) ↔ m.heap.Has (.word u) := fun u => by
      simp only [Heap.Has, hwords]
    have hword : ∀ u, m'.heap.word u = m.heap.word u := fun u => by
      simp only [Heap.word, hwords]
    have hown : ∀ u, OwnWord m.heap u → OwnWord m'.heap u := fun u hu =>
      ⟨(hhas u).2 hu.1, (congrArg Word.builtin (hword u)).trans hu.2⟩
    exact ⟨fun u hu => ⟨(hhas u).2 (h.came u hu).1,
        (congrArg Word.builtin (hword u)).trans (h.came u hu).2⟩,
      fun u hu => hown u (h.last u (hcompiler ▸ hu)),
      fun u hu => hown u (h.building u (hcompiler ▸ hu))⟩
  mode h _ _ := ⟨h.came, h.last, h.building⟩
  finish h := ⟨h.came, h.last, nofun⟩
  update := by
    intro m h v f hf
    have hbuiltin : ∀ u, ((m.heap.updateWord v f).word u).builtin = (m.heap.word u).builtin := by
      intro u
      rw [Heap.word_updateWord]
      split
      · rename_i hu
        rw [hu.1]
        exact (hf _).2.1
      · rfl
    have hown : ∀ u, OwnWord m.heap u → OwnWord (m.heap.updateWord v f) u :=
      fun u hu => ⟨Heap.has_setWord.2 hu.1, (hbuiltin u).trans hu.2⟩
    exact ⟨fun u hu => ⟨Heap.has_setWord.2 (h.came u hu).1, (hbuiltin u).trans (h.came u hu).2⟩,
      fun u hu => hown u (h.last u hu), fun u hu => hown u (h.building u hu)⟩
  start := by
    intro m h name
    have hadd := h.addWord (.blank name)
    have hnew : OwnWord (m.heap.addWord (.blank name)).2 (m.heap.addWord (.blank name)).1 :=
      ownWord_addWord rfl
    refine ⟨hadd.came, fun u hu => ?_, fun u hu => ?_⟩
    · cases hu
      exact hnew
    · cases hu
      exact hnew
  define := by
    intro m h u hu
    have hadd := h.addWord u
    refine ⟨hadd.came, fun v hv => ?_, hadd.building⟩
    cases hv
    exact ownWord_addWord hu
  add h u := h.addWord u

theorem Reached.came (h : Reached ph m) : m.Came [] := by
  refine h.invariant (P := fun _ m => m.Came []) (fun p bs => ?_) fun _ hm hn => Came.kept.next hm hn
  have hempty : (empty p).Came [] := ⟨nofun, nofun, nofun⟩
  have hfold : ∀ (ws : List Word) (x : Machine), x.Came [] →
      (ws.foldl (fun m w => (m.install w).2) x).Came [] := by
    intro ws
    induction ws with
    | nil => exact fun x hx => hx
    | cons w ws ih => exact fun x hx => ih _ (Came.kept.install hx w)
  have hinstall : ∀ (bs : List Builtin) (x : Machine), x.Came [] → (x.installAll bs).Came [] := by
    intro bs
    induction bs with
    | nil => exact fun x hx => hx
    | cons b bs ih => exact fun x hx => ih _ (Came.kept.install hx _)
  exact hfold _ _ (hinstall bs _ hempty)

/-- A word that came with the machine and is a primitive. -/
structure Gives (m : Machine) (w : WordId) (p : Primitive) : Prop where
  has : m.heap.Has (.word w)
  builtin : (m.heap.word w).builtin = true
  code : (m.heap.word w).code = .ok (.native p)

/-- **A word that came with the machine stays the primitive that it is.** -/
theorem Gives.leads {p : Primitive} (h : Reached ph m) (hg : m.Gives w p) (hl : Leads ph m ph' m') :
    m'.Gives w p := by
  have hm : m.Came [w] := by
    refine ⟨fun u hu => ?_, h.came.last, h.came.building⟩
    cases List.mem_singleton.1 hu
    exact ⟨hg.has, hg.builtin⟩
  induction hl with
  | refl => exact hg
  | @tail ph₁ ph₂ _ m₁ m₂ hl hn ih =>
    have h₁ : m₁.Came [w] := Came.kept.leads hm hl
    obtain ⟨hw₁, -⟩ := h₁.came w List.mem_cons_self
    obtain ⟨hw₂, hb₂⟩ := (Came.kept.next h₁ hn).came w List.mem_cons_self
    have hc := (ih h hg hm).code
    refine ⟨hw₂, hb₂, ?_⟩
    rw [Word.code_eq_ok_iff] at hc ⊢
    rcases (hn.follows (h.leads hl) hw₁).1.code with hsame | ⟨_, _, hx, -⟩
    · exact hsame.trans hc
    · -- Only the word created last gets another action.
      exact absurd rfl (h₁.ne List.mem_cons_self (h₁.last w (Edits.actsOn hx).last?_eq))

end Machine
end ThreadedForth
