/-
  Names that keep their words: a word that came with the machine cannot be forgotten.
-/
import ThreadedForth.Proofs.FrozenCode
import ThreadedForth.Proofs.Overlays

namespace ThreadedForth

/-! ## Sessions and likenesses -/

namespace Likeness

variable {L : Likeness}

theorem SameStep.alike {p q : Progress} (h : L.SameStep p q) : L.alike p.machine q.machine := by
  cases h with
  | running h => exact h
  | ended h => exact h
  | failed e h => exact h

open Machine in
/-- **What happens next in a session keeps machines alike to themselves**, if this is so when words
    that came with the machine are added. -/
theorem Full.next (F : L.Full) (hadd : ∀ m b, L.alike m m → L.alike (m.installAll [b]) (m.installAll [b]))
    {ph ph' : Phase} {m m' : Machine} (h : L.alike m m) (hn : Next ph m ph' m') : L.alike m' m' := by
  have B := F.basic
  have hstart : ∀ {x : Machine} {name : String} {w : WordId}, L.alike x x → x.find? name = some w →
      L.alike (x.startRun w .outside) (x.startRun w .outside) := fun hx hw =>
    B.startRun hx (F.naming.known_find hx hw) (by simp [Pending.values])
  have hgive : ∀ {x : Machine}, L.alike x x → L.alike x.giveUpLine x.giveUpLine := fun hx =>
    F.reset (F.building.setLine hx _)
  have htoken : ∀ {t? : Option String} {x : Machine},
      Machine.nextSourceToken m = .ok t? x → L.alike x x := by
    intro t? x ht
    have hx := (F.nextSourceToken m m h).alike
    rwa [ht] at hx
  have hput : ∀ {x : Machine} (s : String), L.alike x x →
      L.alike (after (M.put s x)) (after (M.put s x)) := fun s hx => (B.put s _ _ hx).alike
  have hstep : L.alike m.step.machine m.step.machine := (B.step h fun p _ => F.allows h p).alike
  cases hn with
  | add b => exact hadd m b h
  | interrupt => exact B.change h (fun c => { c with interrupt := true }) { B.holds h with }
  | fill text =>
    unfold fill
    cases m.line.fill text with
    | ok l => exact F.building.setLine h l
    | error e => exact h
  | start => exact h
  | run hw => exact hstart h hw
  | token ht hw => exact hstart (htoken ht) (Option.filter_eq_some_iff.1 hw).1
  | @compile _ _ m₁ m₂ t ht _ hc =>
    have hx := (F.compileToken t m₁ m₁ (htoken ht)).alike
    rwa [hc] at hx
  | @badToken _ _ m₁ m₂ t e ht _ hc =>
    have hx := (F.compileToken t m₁ m₁ (htoken ht)).alike
    rw [hc] at hx
    exact hgive hx
  | @noToken _ _ m₁ e ht =>
    have hx := (F.nextSourceToken m m h).alike
    rw [ht] at hx
    exact hgive hx
  | finish ht => exact hput _ (htoken ht)
  | exhaust => exact hput _ h
  | step hs =>
    rw [hs] at hstep
    exact hstep
  | ended hs =>
    rw [hs] at hstep
    exact hstep
  | failed hs =>
    rw [hs] at hstep
    exact hstep
  | failedLine hs =>
    rw [hs] at hstep
    exact hgive hstep

end Likeness

/-! ## Words that came with the machine -/

namespace Machine

variable {name : String} {w : WordId} {m x : Machine}

/-- The heap has the word, and it did not come with the machine. -/
def OwnWord (h : Heap) (u : WordId) : Prop :=
  h.Has (.word u) ∧ (h.word u).builtin = false

/-- A word that came with the machine, and its name, which leads to the word unless another word of
    that name has been made.  The compiler has nothing to do with the word. -/
structure Founded (name : String) (w : WordId) (m : Machine) : Prop where
  has : m.heap.Has (.word w)
  builtin : (m.heap.word w).builtin = true
  visible : (m.heap.word w).hidden = false
  bound : m.dictionary.lookup? (.ofString name) = some w ∨
    ∃ u, u ≠ w ∧ m.heap.Has (.word u) ∧ (m.heap.word u).name = .ofString name
  last : ∀ u, m.compiler.last? = some u → OwnWord m.heap u
  building : ∀ u, m.compiler.building? = some u → OwnWord m.heap u

theorem Founded.ne (h : m.Founded name w) {u : WordId} (hu : OwnWord m.heap u) : u ≠ w := by
  rintro rfl
  have := h.builtin.symm.trans hu.2
  cases this

/-- Changes of words that keep their names and where they came from, and hide no word that came
    with the machine. -/
theorem Founded.update (h : m.Founded name w) {v : WordId} {f : Word → Word}
    (hname : (f (m.heap.word v)).name = (m.heap.word v).name)
    (hbuiltin : (f (m.heap.word v)).builtin = (m.heap.word v).builtin)
    (hhidden : (m.heap.word v).builtin = true → (m.heap.word v).hidden = false →
      (f (m.heap.word v)).hidden = false) :
    Founded name w { m with heap := m.heap.updateWord v f } := by
  have hhas : ∀ r, (m.heap.updateWord v f).Has r ↔ m.heap.Has r := fun r => Heap.has_setWord
  have hkeep : ∀ u, ((m.heap.updateWord v f).word u).name = (m.heap.word u).name ∧
      ((m.heap.updateWord v f).word u).builtin = (m.heap.word u).builtin := by
    intro u
    rw [Heap.word_updateWord]
    split
    · rename_i hu
      rw [hu.1]
      exact ⟨hname, hbuiltin⟩
    · exact ⟨rfl, rfl⟩
  have hown : ∀ u, OwnWord m.heap u → OwnWord (m.heap.updateWord v f) u :=
    fun u hu => ⟨(hhas _).2 hu.1, (hkeep u).2.trans hu.2⟩
  refine ⟨(hhas _).2 h.has, (hkeep w).2.trans h.builtin, ?_, ?_, fun u hu => hown u (h.last u hu),
    fun u hu => hown u (h.building u hu)⟩
  · show ((m.heap.updateWord v f).word w).hidden = false
    rw [Heap.word_updateWord]
    split
    · rename_i hu
      rw [hu.1] at h
      exact hhidden h.builtin h.visible
    · exact h.visible
  · refine h.bound.imp_right fun ⟨u, hne, hu, hn⟩ => ⟨u, hne, (hhas _).2 hu, (hkeep u).1.trans hn⟩

/-- A new word on the heap. -/
theorem Founded.addWord (h : m.Founded name w) (u : Word) :
    Founded name w { m with heap := (m.heap.addWord u).2 } := by
  have hhas : ∀ r, m.heap.Has r → (m.heap.addWord u).2.Has r := fun r hr => hr.mono (.addWord _ _)
  have hword : ∀ v, m.heap.Has (.word v) → (m.heap.addWord u).2.word v = m.heap.word v :=
    fun v hv => Heap.word_addWord_of_has hv u
  have hown : ∀ v, OwnWord m.heap v → OwnWord (m.heap.addWord u).2 v :=
    fun v hv => ⟨hhas _ hv.1, by rw [hword v hv.1]; exact hv.2⟩
  refine ⟨hhas _ h.has, ?_, ?_, ?_, fun v hv => hown v (h.last v hv),
    fun v hv => hown v (h.building v hv)⟩
  · rw [show ({ m with heap := (m.heap.addWord u).2 } : Machine).heap.word w = m.heap.word w from
      hword w h.has]
    exact h.builtin
  · rw [show ({ m with heap := (m.heap.addWord u).2 } : Machine).heap.word w = m.heap.word w from
      hword w h.has]
    exact h.visible
  · exact h.bound.imp_right fun ⟨v, hne, hv, hn⟩ => ⟨v, hne, hhas _ hv, by rw [hword v hv]; exact hn⟩

theorem ownWord_addWord {h : Heap} {u : Word} (hu : u.builtin = false) :
    OwnWord (h.addWord u).2 (h.addWord u).1 :=
  ⟨by simp [Heap.Has, Heap.addWord], by rw [Heap.word_addWord]; exact hu⟩

/-- A definition is opened. -/
theorem Founded.starting (h : m.Founded name w) (s : String) : Founded name w (m.starting s) := by
  have hadd := h.addWord (.blank s)
  have hnew : OwnWord (m.heap.addWord (.blank s)).2 (m.heap.addWord (.blank s)).1 :=
    ownWord_addWord rfl
  refine ⟨hadd.has, hadd.builtin, hadd.visible, hadd.bound, fun u hu => ?_, fun u hu => ?_⟩
  · cases hu
    exact hnew
  · cases hu
    exact hnew

/-- A word is bound under its own name. -/
theorem Founded.bind (h : m.Founded name w) {u : WordId} (hne : u ≠ w)
    (hu : m.heap.Has (.word u)) :
    Founded name w { m with
      dictionary := (m.dictionary.add m.heap u).2.1
      heap := (m.dictionary.add m.heap u).2.2 } := by
  have hup : Founded name w { m with
      heap := m.heap.updateWord u fun x => { x with hidden := false } } :=
    h.update rfl rfl fun _ _ => rfl
  have hname : ((m.heap.updateWord u fun x => { x with hidden := false }).word u).name =
      (m.heap.word u).name := by
    rw [Heap.word_updateWord]
    split <;> rfl
  refine ⟨hup.has, hup.builtin, hup.visible, ?_, hup.last, hup.building⟩
  show (m.dictionary.bind (m.heap.word u).name u).lookup? _ = _ ∨ _
  rw [Dictionary.lookup?_bind]
  split
  · rename_i hn
    exact .inr ⟨u, hne, Heap.has_setWord.2 hu, hname.trans hn.symm⟩
  · exact hup.bound

/-- A word is made and bound under its own name. -/
theorem Founded.install (h : m.Founded name w) (u : Word) : Founded name w (m.install u).2 := by
  refine (h.addWord u).bind (fun he => ?_) (by simp [Heap.Has, Heap.addWord])
  have hlt : w.index < m.heap.words.size := h.has
  rw [← he] at hlt
  exact Nat.lt_irrefl _ hlt

theorem ownWord_install {u : Word} (hu : u.builtin = false) :
    OwnWord (m.install u).2.heap (m.install u).1 := by
  have hnew := ownWord_addWord (h := m.heap) hu
  refine ⟨Heap.has_setWord.2 hnew.1, ?_⟩
  show (((m.heap.addWord u).2.updateWord (m.heap.addWord u).1 fun x =>
    { x with hidden := false }).word (m.heap.addWord u).1).builtin = false
  rw [Heap.word_updateWord]
  split <;> exact hnew.2

/-- A word is taken out of the dictionary. -/
theorem Founded.forget (h : m.Founded name w) {s : String} {r : WordId × Dictionary × Heap}
    (hf : m.dictionary.forget m.heap s = .ok r) :
    Founded name w { m with dictionary := r.2.1, heap := r.2.2 } := by
  unfold Dictionary.forget at hf
  split at hf
  · cases hf
  · rename_i u hu
    split at hf
    · cases hf
    · rename_i hb
      cases hf
      have hup : Founded name w { m with
          heap := m.heap.updateWord u fun x => { x with hidden := true } } :=
        h.update rfl rfl fun hb' => absurd hb' hb
      refine ⟨hup.has, hup.builtin, hup.visible, ?_, hup.last, hup.building⟩
      show (m.dictionary.unbind (.ofString s)).lookup? _ = _ ∨ _
      rw [Dictionary.lookup?_unbind]
      split
      · rename_i hn
        -- The name does not lead to the word any more, so there is another one of that name.
        refine hup.bound.resolve_left (fun hl => hb ?_) |> .inr
        have hw : u = w := Option.some.inj ((hn ▸ hu).symm.trans hl)
        rw [hw]
        exact h.builtin
      · exact hup.bound

end Machine

namespace Likeness

variable {name : String} {w : WordId} {x y : Machine}

/-- A machine is alike to itself as long as the invariant of a word holds. -/
def founded (name : String) (w : WordId) : Likeness :=
  ⟨fun x y => x = y ∧ x.Founded name w, fun _ => True⟩

theorem knows_founded (v : Value) : (founded name w).Knows v := fun _ _ => trivial

theorem holds_founded (c : Common) : (founded name w).Holds c :=
  ⟨fun v _ => knows_founded v, fun v _ => knows_founded v, fun v _ => knows_founded v,
    fun _ _ => trivial, fun _ _ v _ => knows_founded v, fun _ _ => trivial⟩

/-- A change of a machine that keeps the invariant. -/
theorem alike_founded {f : Machine → Machine} (h : (founded name w).alike x y)
    (hf : x.Founded name w → (f x).Founded name w) : (founded name w).alike (f x) (f y) := by
  obtain ⟨rfl, h⟩ := h
  exact ⟨rfl, hf h⟩

theorem basic_founded : (founded name w).Basic where
  common := fun h => congrArg Machine.common h.1
  holds := fun _ => holds_founded _
  share := fun h c _ => alike_founded (f := (·.share c)) h fun h => { h with }
  objects := fun h => congrArg (fun m : Machine => m.heap.objects) h.1
  items := fun _ _ _ v _ => knows_founded v
  setObjects := fun h os _ => alike_founded (f := (·.setObjects os)) h fun h => { h with }
  word := fun h u _ => ⟨by rw [h.1], fun _ _ => trivial⟩
  setBody := fun h u _ body _ =>
    alike_founded (f := (·.setBody u body)) h fun h => h.update rfl rfl fun _ hh => hh

theorem building_founded : (founded name w).Building where
  line := fun h => congrArg Machine.line h.1
  setLine := fun h l => alike_founded (f := ({ · with line := l })) h fun h => { h with }
  comment := fun h => by rw [h.1]
  setComment := fun h b => alike_founded (f := ({ · with inComment := b })) h fun h => { h with }
  mode := fun h => by rw [h.1]
  building := fun h => by rw [h.1]
  known_building := fun _ _ _ => trivial
  known_last := fun _ _ _ => trivial
  depth := fun h _ => by rw [h.1]
  setMode := fun h mode _ =>
    alike_founded (f := fun m => { m with compiler := { m.compiler with mode } }) h fun h => { h with }
  start := fun h s => alike_founded (f := (·.starting s)) h fun h => h.starting s
  finish := fun h _ =>
    alike_founded (f := fun m => { m with compiler := { m.compiler with building? := none } }) h
      fun h => { h with building := nofun }
  unhide := fun h u _ =>
    alike_founded (f := fun m =>
      { m with heap := m.heap.updateWord u fun v => { v with hidden := false } }) h
      fun h => h.update rfl rfl fun _ _ => rfl
  setImmediate := fun h u _ =>
    alike_founded (f := fun m =>
      { m with heap := m.heap.updateWord u fun v => { v with immediate := true } }) h
      fun h => h.update rfl rfl fun _ hh => hh

theorem naming_founded : (founded name w).Naming where
  find := fun h _ => by rw [h.1]
  known_find := fun _ _ _ _ => trivial
  names := fun h => by rw [h.1]
  define := fun {x y} h u hu _ => by
    refine ⟨by rw [h.1], trivial, alike_founded (f := (·.defining u)) h fun h => ?_⟩
    have hin := h.install u
    refine ⟨hin.has, hin.builtin, hin.visible, hin.bound, fun v hv => ?_, hin.building⟩
    cases hv
    exact Machine.ownWord_install hu
  reveal := fun {x y} h u hu _ => alike_founded (f := (·.revealing u)) h fun h => by
    have hown := h.building u hu
    have hbind := h.bind (h.ne hown) hown.1
    exact ⟨hbind.has, hbind.builtin, hbind.visible, hbind.bound, hbind.last, nofun⟩
  forget := by
    rintro x _ ⟨rfl, h⟩ s
    cases hf : x.dictionary.forget x.heap s with
    | error e => rfl
    | ok r => exact ⟨rfl, h.forget hf⟩

theorem full_founded : (founded name w).Full where
  basic := basic_founded
  building := building_founded
  naming := naming_founded
  latest := fun h => by rw [h.1]
  topCount := fun h => by rw [h.1]
  topAddress := fun h => by rw [h.1]
  reset := fun h => alike_founded (f := Machine.reset) h fun h => { h with building := nofun }

end Likeness

namespace Machine

variable {name : String} {w : WordId} {ph ph' : Phase} {m m' : Machine}

theorem ActsOn.last?_eq (h : ActsOn ph m w) : m.compiler.last? = some w := by
  cases ph with
  | word left? => exact h.2
  | line n => exact h.2
  | rest => cases h

theorem Founded.next (h : m.Founded name w) (hn : Next ph m ph' m') : m'.Founded name w :=
  (Likeness.full_founded.next (fun _ _ hm => ⟨rfl, hm.2.install _⟩) ⟨rfl, h⟩ hn).2

/-- **Names that keep their words.**  Whatever happens in a session, a word that came with the machine
    stays the primitive that it was, and its name leads to it unless another word of that name has
    been made. -/
theorem Founded.leads {p : Primitive} (hr : Reached ph m) (h : m.Founded name w)
    (hc : (m.heap.word w).code = .ok (.native p)) (hl : Leads ph m ph' m') :
    m'.Founded name w ∧ (m'.heap.word w).code = .ok (.native p) := by
  induction hl with
  | refl => exact ⟨h, hc⟩
  | tail hl hn ih =>
    obtain ⟨h₁, hc₁⟩ := ih hr h hc
    refine ⟨h₁.next hn, ?_⟩
    rw [Word.code_eq_ok_iff] at hc₁ ⊢
    rcases (hn.follows (hr.leads hl) h₁.has).1.code with hsame | ⟨body, entry, hx, -⟩
    · exact hsame.trans hc₁
    · -- Only the word created last gets another action.
      exact absurd rfl (h₁.ne (h₁.last w (Edits.actsOn hx).last?_eq))

/-- A name whose word is the only one of that name leads to it. -/
theorem Founded.find? (h : m.Founded name w)
    (hfree : ∀ u, m.heap.Has (.word u) → (m.heap.word u).name = .ofString name → u = w) :
    m.find? name = some w := by
  have hl := h.bound.resolve_right fun ⟨u, hne, hu, hn⟩ => hne (hfree u hu hn)
  rw [Machine.find?, Dictionary.find?, hl]
  simp [Option.filter, h.visible]

end Machine
end ThreadedForth
