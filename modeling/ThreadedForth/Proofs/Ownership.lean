/-
  The word under construction belongs to the compiler alone.
-/
import ThreadedForth.Proofs.AsciiSessions
import ThreadedForth.Proofs.Capacities
import ThreadedForth.Proofs.LikenessWords
import ThreadedForth.Proofs.ReferenceCounts

namespace ThreadedForth

variable {L : Law} {p : Params} {b? : Option WordId} {m m' : Machine}

/-- The law that nothing refers to a word, which is the only one that may be under construction. -/
def Law.sparing (p : Params) (b? : Option WordId) : Law where
  callee w := b? ≠ some w
  draft _ c? := c? = none ∨ c? = b?
  closed := False
  faults := True
  sizes := p
  draft_reset := .inl rfl
  draft_interpreting := id
  draft_pending := id
  draft_postponed := id
  draft_compiling _ := id

/-- The law that a definition is compiled only when there is a word under construction. -/
def Law.drafting (p : Params) : Law where
  callee _ := True
  draft mode b? := mode = .compiling ∨ mode = .compilingPostponed → b? ≠ none
  closed := True
  faults := True
  sizes := p
  draft_reset := nofun
  draft_interpreting _ := nofun
  draft_pending _ := nofun
  draft_postponed h _ := h (.inl rfl)
  draft_compiling h hd _ := h.elim (fun hm => hd (.inr hm)) id

namespace Machine

/-! ## Opening and closing a definition -/

/-- The machine keeps to its sizes and nothing refers to its word under construction. -/
def Owning (p : Params) (m : Machine) : Prop :=
  m.Obeys (.sparing p m.compiler.building?)

theorem Bounded.owning (hm : m.Bounded p) (hb : m.compiler.building? = none) : m.Owning p := by
  have hlax : (Law.sparing p none).Lax := ⟨nofun, id⟩
  rw [Owning, hb]
  exact hlax.obeys hm (.inl hb)

/-- A word that was under construction is still spared, or there is none any more. -/
theorem Obeys.owning (hm : m.Obeys (.sparing p b?)) : m.Owning p := by
  rcases hm.draft with hb | hb
  · exact Bounded.owning hm.bounded hb
  · rw [Owning, hb]
    exact hm

/-- A new word is referred to by nothing that was there before. -/
theorem Sound.opened (hs : m.Sound) (hm : m.Bounded p) (name : String) :
    Owning p { m with
      heap := (m.heap.addWord (.opened name)).2
      compiler :=
        { mode := .compiling
          building? := some (m.heap.addWord (.opened name)).1
          last? := some (m.heap.addWord (.opened name)).1
          startDepth := m.data.depth } } := by
  have hopen : ¬ (Law.sparing p (some (m.heap.addWord (.opened name)).1)).closed := id
  have hold : ∀ w, m.heap.Has (.word w) → some (m.heap.addWord (.opened name)).1 ≠ some w := by
    rintro w hw ⟨⟩
    exact absurd hw (Nat.lt_irrefl _)
  exact
    { heap :=
        { words := fun w hw => .of_refs hopen fun u hu => by
            rcases Array.mem_push.1 hw with hw | rfl
            · exact hold u (word_refs (hs.heap.words w hw) hu)
            · simp [Word.opened, Word.refs, Elem.refs] at hu
          objects := fun x hx => .of_refs hopen fun u hu => by
            obtain ⟨v, hv, hu⟩ := List.mem_flatMap.1 hu
            exact hold u (hs.heap.objects x hx v (Array.mem_toList_iff.1 hv) _ hu)
          fresh := fun w hw => by
            rintro ⟨⟩
            have hsize : (m.heap.words.push (.opened name)).size ≤ m.heap.words.size := hw
            rw [Array.size_push] at hsize
            omega }
      data := fun v hv => .of_refs hopen fun u hu => hold u (hs.data v hv _ hu)
      temp := fun v hv => .of_refs hopen fun u hu => hold u (hs.temp v hv _ hu)
      self := fun v hv => .of_refs hopen fun u hu => hold u (hs.self v hv _ hu)
      frames := fun f hf => hold f.word (hs.frames f hf).has
      runs := fun r hr => .of_refs hopen fun u hu => hold u (hs.runs r hr _ hu)
      dictionary := fun e he => hold e.2 (hs.dictionary e he)
      types := fun e he => .of_handler hopen fun u hu => hold u (hs.types e u he hu)
      draft := .inr rfl
      output := False.elim
      bounded := { hm with } }

end Machine

namespace DefiningWord

open Machine

theorem openDefinition_owning (hs : m.Sound) (hm : m.Owning p) (name : String) :
    (after (openDefinition name m)).Owning p := by
  by_cases hmode : m.compiler.mode = .interpreting
  · rw [openDefinition_eq name hmode]
    exact hs.opened hm.bounded name
  · rw [openDefinition_error name hmode]
    exact hm

theorem reveal_eq (m : Machine) : reveal m =
    match imbalance? m.data m.compiler.startDepth with
    | some e => .error e m
    | none =>
      match m.compiler.building? with
      | none => .error (.compileState .noneOpen) m
      | some w =>
        if (m.heap.word w).isAnonymous then
          M.push (.xt w) { m with
            compiler := { m.compiler with building? := none }
            heap := m.heap.updateWord w fun u => { u with hidden := false } }
        else .ok () (m.revealing w) := by
  have hbal := checkBalance_eq m
  cases hi : imbalance? m.data m.compiler.startDepth with
  | some e =>
    rw [hi] at hbal
    rw [reveal, M.bind_error hbal]
  | none =>
    rw [hi] at hbal
    exact (M.bind_ok hbal).trans (closeBalanced_eq _)

/-- The end of a definition leaves none under construction, unless it fails at once. -/
theorem reveal_closing (m : Machine) : (∃ e, reveal m = .error e m) ∨
    (after (reveal m)).compiler.building? = none := by
  rw [reveal_eq]
  cases imbalance? m.data m.compiler.startDepth with
  | some e => exact .inl ⟨e, rfl⟩
  | none =>
    cases m.compiler.building? with
    | none => exact .inl ⟨_, rfl⟩
    | some w =>
      refine .inr ?_
      dsimp only
      split
      · unfold M.push
        dsimp only
        split <;> rfl
      · rfl

theorem semicolon_closing (m : Machine) :
    after (act .semicolon m) = m ∨ (after (act .semicolon m)).compiler.building? = none := by
  rw [act]
  cases hreq : M.requireCompiling ";" m with
  | error e m₁ =>
    rw [M.bind_error hreq]
    exact .inl (requireCompiling_error hreq)
  | ok u m₁ =>
    obtain rfl := requireCompiling_same hreq
    rw [M.bind_ok hreq]
    rcases reveal_closing m₁ with ⟨e, hr⟩ | hb
    · rw [M.bind_error hr]
      exact .inl rfl
    · cases hr : reveal m₁ with
      | error e m₂ =>
        rw [hr] at hb
        rw [M.bind_error hr]
        exact .inr hb
      | ok u m₂ =>
        rw [hr] at hb
        rw [M.bind_ok hr]
        exact .inr hb

/-- A definition that has ended lets the next token be run. -/
theorem interpreting_of_semicolon (h : act .semicolon m = .ok () m') :
    m'.compiler.mode = .interpreting := by
  obtain ⟨_, _, -, h⟩ := M.of_bind_ok h
  obtain ⟨_, _, -, h⟩ := M.of_bind_ok h
  cases h
  rfl

theorem colon_owning (hs : m.Sound) (hm : m.Owning p) : (after (act .colon m)).Owning p := by
  have hname := M.nextName_lawful (m := m) (L := .sparing p m.compiler.building?) ":"
  rw [act]
  cases hr : M.nextName ":" m with
  | error e m₁ =>
    rw [M.bind_error hr]
    exact (hname.of_error hm hr).1.owning
  | ok name m₁ =>
    rw [M.bind_ok hr]
    exact openDefinition_owning ((M.nextName_secure ":").sound_ok hs hr)
      (hname.of_ok hm hr).1.owning name

theorem semicolon_owning (hm : m.Owning p) : (after (act .semicolon m)).Owning p := by
  rcases semicolon_closing m with h | h
  · rw [h]
    exact hm
  · have hlax : Law.Lax (.ofSizes p) := Law.lax_ofSizes p
    have hact := act_lawful (L := .ofSizes p) (m := m) .semicolon (fun _ _ => trivial)
      fun _ => ⟨fun _ _ => trivial, fun _ => trivial⟩
    exact Bounded.owning (hact.obeys (Bounded.obeys hm.bounded)).bounded h

end DefiningWord

namespace Machine

/-! ## What happens next -/

/-- The words that open or close a definition. -/
def delimiters : List DefiningWord := [.colon, .noname, .semicolon]

/-- Any other word is lawful under a law that says nothing but what may be referred to and what may
    be under construction. -/
theorem allowed_of_not_delimiter {q : Primitive} (hf : L.faults)
    (hq : ∀ w ∈ delimiters, q ≠ .defining w) : q.Allowed L m where
  opening h := by
    rcases h with rfl | rfl
    · exact absurd rfl (hq .colon (by decide))
    · exact absurd rfl (hq .noname (by decide))
  closing h := by
    subst h
    exact absurd rfl (hq .semicolon (by decide))
  asking _ := hf

theorem settle_owning {act : M Unit} (h : (after (act m)).Owning p) :
    (settle ((do act; pure .next : M Flow) m)).machine.Owning p := by
  cases hr : act m with
  | ok u m₁ =>
    rw [hr] at h
    rw [M.bind_ok hr]
    exact (Obeys.popFrame h).owning
  | error e m₁ =>
    rw [hr] at h
    rw [M.bind_error hr]
    have hf : (m₁.fail e).Obeys (.sparing p m₁.compiler.building?) := Obeys.fail h False.elim
    exact hf.machine.owning

/-- **One step leaves the word under construction to the compiler.** -/
theorem Owning.step (hs : m.Sound) (hm : m.Owning p) : m.step.machine.Owning p := by
  by_cases hd : ∃ w ∈ delimiters, m.primitive? = some (.defining w)
  · obtain ⟨w, hw, hp⟩ := hd
    rw [step_of_primitive hp]
    rcases List.mem_cons.1 hw with rfl | hw
    · exact settle_owning (DefiningWord.colon_owning hs hm)
    rcases List.mem_cons.1 hw with rfl | hw
    · exact settle_owning (DefiningWord.openDefinition_owning hs hm "")
    · cases List.mem_singleton.1 hw
      exact settle_owning (DefiningWord.semicolon_owning hm)
  · have hstep : m.step.Obeys (.sparing p m.compiler.building?) := Obeys.step hm fun q hq =>
      allowed_of_not_delimiter trivial fun w hw h => hd ⟨w, hw, h ▸ hq⟩
    exact hstep.machine.owning

theorem Owning.interrupted (hm : m.Owning p) : Owning p { m with interrupt := true } := by
  have h : Obeys (.sparing p m.compiler.building?) { m with interrupt := true } :=
    { hm with bounded := { hm.bounded with } }
  exact h.owning

/-- The word under construction is the compiler's, whatever happens next. -/
theorem Owning.next {ph ph' : Phase} (hs : m.Sound) (hm : m.Owning p) (hn : Next ph m ph' m') :
    m'.Owning p := by
  cases ph with
  | rest =>
    cases hn with
    | add b =>
      have h : (m.installAll [b]).Obeys _ := installAll_obeys hm fun _ _ => ⟨False.elim, False.elim⟩
      exact h.owning
    | interrupt => exact interrupted hm
    | fill text => exact (Obeys.fill hm text).owning
    | start => exact hm
    | run hw =>
      have h : (m.startRun _ .outside).Obeys _ := Obeys.startRun hm (Obeys.find? hm hw) trivial
      exact h.owning
  | line n => exact (Obeys.goesOn hm (by nofun) hn nofun).owning
  | word left? =>
    have hstep := hm.step hs
    cases hn with
    | interrupt => exact interrupted hm
    | step h => exact (h ▸ hstep : (Progress.running _).machine.Owning p)
    | ended h => exact (h ▸ hstep : (Progress.ended _).machine.Owning p)
    | failed h => exact (h ▸ hstep : (Progress.failed _ _).machine.Owning p)
    | failedLine h =>
      have h' : (Progress.failed _ _).machine.Owning p := h ▸ hstep
      exact (Obeys.giveUpLine h').owning

theorem Sound.next {ph ph' : Phase} (hs : m.Sound) (hn : Next ph m ph' m') : m'.Sound := by
  cases hn with
  | add b => exact hs.installAll
  | interrupt => exact { hs with }
  | fill text => exact hs.fill text
  | start => exact hs
  | run hw => exact hs.startRun (hs.find? hw) nofun
  | token ht hw =>
    have h₁ := nextSourceToken_secure.sound_ok hs ht
    exact h₁.startRun (h₁.find? (Option.filter_eq_some_iff.1 hw).1) nofun
  | compile ht _ hc => exact (compileToken_secure _).sound_ok (nextSourceToken_secure.sound_ok hs ht) hc
  | badToken ht _ hc =>
    exact ((compileToken_secure _).sound_error (nextSourceToken_secure.sound_ok hs ht) hc).giveUpLine
  | noToken ht => exact (nextSourceToken_secure.sound_error hs ht).giveUpLine
  | finish ht => exact (M.put_secure _ (nextSourceToken_secure.sound_ok hs ht)).1
  | exhaust => exact (M.put_secure _ hs).1
  | step h => exact (h ▸ hs.step : (Progress.running _).machine.Sound)
  | ended h => exact (h ▸ hs.step : (Progress.ended _).machine.Sound)
  | failed h => exact (h ▸ hs.step : (Progress.failed _ _).machine.Sound)
  | failedLine h =>
    have h' : (Progress.failed _ _).machine.Sound := h ▸ hs.step
    exact Sound.giveUpLine h'

theorem create_owning (p : Params) (bs : List Builtin) : (create p bs).Owning p := by
  have h : (create p bs).Obeys (.sparing p none) :=
    create_obeys (fun w (h : none = some w) => nomatch h) fun _ _ => ⟨False.elim, False.elim⟩
  exact h.owning

theorem Reached.owning {ph : Phase} (h : Reached ph m) : ∃ p, m.Owning p :=
  h.invariant (P := fun _ m => ∃ p, m.Owning p) (fun p bs => ⟨p, create_owning p bs⟩)
    fun hr ⟨p, hm⟩ hn => ⟨p, hm.next hr.sound hn⟩

theorem Typed.owning {ph : Phase} (h : Typed p ph m) : m.Sound ∧ m.Owning p := by
  induction h with
  | create => exact ⟨create_sound _ _, create_owning _ _⟩
  | enter _ text ih => exact ⟨ih.1.next (.fill text), ih.2.next ih.1 (.fill text)⟩
  | start _ ih => exact ih
  | next _ _ hn ih => exact ⟨ih.1.next hn, ih.2.next ih.1 hn⟩
  | take _ ih => exact ⟨{ ih.1 with }, (Obeys.takeOutput ih.2).owning⟩
  | interrupt _ ih => exact ⟨{ ih.1 with }, ih.2.interrupted⟩

/-! ## Modes -/

/-- An error that no host catches ends the outermost run. -/
theorem unwind_uncaught {e : Error} {rs : List Run} (hr : ∀ r ∈ rs, r.pending ≠ .attempt) :
    ∃ x, unwind e m rs = .failed e x := by
  induction rs generalizing m with
  | nil => exact ⟨m, rfl⟩
  | cons r rs ih =>
    have hr' : ∀ q ∈ rs, q.pending ≠ .attempt := fun q hq => hr q (List.mem_cons_of_mem _ hq)
    rw [unwind]
    cases hp : r.pending with
    | outside => exact ⟨_, rfl⟩
    | attempt => exact absurd hp (hr r List.mem_cons_self)
    | handler | run => exact ih hr'

/-- In a session of lines a definition that cannot be ended fails the line. -/
theorem step_of_closing (hm : m.Obeys (.drafting p))
    (hq : m.primitive? = some (.defining .semicolon)) :
    (∃ x, m.step = .running x ∧ x.compiler.mode = .interpreting) ∨ ∃ e x, m.step = .failed e x := by
  have hact := DefiningWord.act_lawful (L := .ofLines p True) (m := m) .semicolon
    (fun _ _ => trivial) fun _ => ⟨fun _ _ => trivial, fun _ => trivial⟩
  rw [step_of_primitive hq]
  show (∃ x, settle ((DefiningWord.act .semicolon >>= fun _ => pure .next) m) = _ ∧ _) ∨
    ∃ e x, settle ((DefiningWord.act .semicolon >>= fun _ => pure .next) m) = _
  cases hr : DefiningWord.act .semicolon m with
  | ok u m₁ =>
    have hmode := DefiningWord.interpreting_of_semicolon hr
    rw [M.bind_ok hr]
    exact .inl ⟨_, rfl, hmode⟩
  | error e m₁ =>
    have hL : (Law.ofLines p True).Weakens (.drafting p) := ⟨fun _ h => h, fun _ => trivial, rfl⟩
    have h₁ := (hact.of_error (hm.mono hL trivial) hr).1
    rw [M.bind_error hr]
    refine .inr ⟨e, unwind_uncaught fun r hr hp => ?_⟩
    have h := h₁.runs r hr
    rw [hp] at h
    exact h trivial

/-- **A definition is compiled only when there is a word under construction**, in a session of
    lines, in which no word is run from outside. -/
theorem Typed.drafting {ph : Phase} (h : Typed p ph m) :
    ph ≠ .word none ∧ m.Obeys (.drafting p) := by
  induction h with
  | create hbs =>
    exact ⟨nofun, create_obeys (L := .drafting p) (fun _ => trivial) (builtins_closed hbs)⟩
  | enter _ text ih => exact ⟨nofun, ih.2.fill text⟩
  | start _ ih => exact ⟨nofun, ih.2⟩
  | take _ ih => exact ⟨nofun, ih.2.takeOutput⟩
  | interrupt _ ih => exact ⟨nofun, { ih.2 with bounded := { ih.2.bounded with } }⟩
  | @next ph ph' m m' h hph hn ih =>
    obtain ⟨hword, hm⟩ := ih
    have hword' : ph' ≠ .word none := by
      cases hn with
      | step | interrupt => exact hword
      | @ended left? => cases left? <;> nofun
      | run => exact absurd rfl hph
      | _ => nofun
    refine ⟨hword', ?_⟩
    have hL : (Law.drafting p).Weakens (.ofLines p True) := ⟨fun _ h => h, fun _ => trivial, rfl⟩
    have hm' := (h.next hph hn).obeys (F := True)
    by_cases hq : ∃ left?, ph = .word left? ∧ m.primitive? = some (.defining .semicolon)
    · obtain ⟨left?, rfl, hq⟩ := hq
      have hstep := step_of_closing hm hq
      cases hn with
      | interrupt => exact hm'.mono hL hm.draft
      | step hs =>
        rw [hs] at hstep
        obtain ⟨x, hx, hmode⟩ | ⟨e, x, hx⟩ := hstep
        · cases hx
          refine hm'.mono hL fun h => ?_
          rw [hmode] at h
          exact h.elim nofun nofun
        · cases hx
      | ended hs =>
        rw [hs] at hstep
        obtain ⟨x, hx, -⟩ | ⟨e, x, hx⟩ := hstep <;> cases hx
      | failed => exact absurd rfl hword
      | failedLine => exact hm'.mono hL (Law.drafting p).draft_reset
    · refine hm.goesOn hph hn fun left? hleft q hp => ⟨fun _ w _ => nofun, fun h => ?_, fun _ => trivial⟩
      subst h
      exact absurd ⟨left?, hleft, hp⟩ hq

/-! ## Ownership -/

/-- Nothing refers to a word: no binding, no value, no code, no handler and no frame. -/
structure Unreferenced (m : Machine) (b : WordId) : Prop where
  bindings : ∀ e ∈ m.dictionary.entries, e.2 ≠ b
  values : ∀ v, m.Occurs v → v ≠ .xt b ∧ ∀ q, v = .ptr q → q.target ≠ b
  calls : ∀ w, .call b ∉ (m.heap.word w).body
  codes : ∀ w entry, .direct (.indirect b entry) ∉ (m.heap.word w).body
  handlers : ∀ e, (e ∈ m.types.values ∨ e ∈ m.types.objects ∨ e ∈ m.types.users) →
    e.handler? ≠ some (.word b)
  frames : ∀ f ∈ m.frames, f.word ≠ b

theorem Owning.unreferenced (hm : m.Owning p) {b : WordId} (hb : m.compiler.building? = some b) :
    m.Unreferenced b := by
  have hself : ¬ (Law.sparing p m.compiler.building?).callee b := fun h => h hb
  refine ⟨fun e he h => ?_, fun v hv => ⟨?_, ?_⟩, fun w h => ?_, fun w entry h => ?_, fun e he h => ?_,
    fun f hf h => ?_⟩
  · exact hself (h ▸ Obeys.dictionary hm e he)
  · rintro rfl
    exact hself (Obeys.occurs hm hv)
  · rintro q rfl rfl
    exact hself (Obeys.occurs hm hv)
  · exact hself ((Obeys.heap hm).word w |>.body _ h)
  · exact hself ((Obeys.heap hm).word w |>.body _ h)
  · exact hself ((Obeys.types hm e he).handler _ h)
  · exact hself (h ▸ Obeys.frames hm f hf)

theorem Unreferenced.find?_ne {b : WordId} (h : m.Unreferenced b) (name : String) :
    m.find? name ≠ some b := by
  intro hf
  obtain ⟨e, he, rfl⟩ := Option.map_eq_some_iff.1 (Option.filter_eq_some_iff.1 hf).1
  exact h.bindings e (List.mem_of_find?_eq_some he) rfl

theorem Unreferenced.forget_ne {b : WordId} (h : m.Unreferenced b) {name : String}
    {r : WordId × Dictionary × Heap} (hr : m.dictionary.forget m.heap name = .ok r) : r.1 ≠ b := by
  unfold Dictionary.forget at hr
  split at hr
  · cases hr
  · rename_i w hw
    split at hr
    · cases hr
    · cases hr
      obtain ⟨e, he, rfl⟩ := Option.map_eq_some_iff.1 hw
      exact h.bindings e (List.mem_of_find?_eq_some he)

/-- Two machines have the same words, as far as `m` has any, under the same names. -/
structure KeepsWords (m m' : Machine) : Prop where
  dictionary : m'.dictionary = m.dictionary
  words : ∀ w, m.heap.Has (.word w) → m'.heap.word w = m.heap.word w
  names : ∀ name, m'.find? name = m.find? name

theorem Sound.keepsWords (hs : m.Sound) (hd : m'.dictionary = m.dictionary)
    (hw : ∀ w, m.heap.Has (.word w) → m'.heap.word w = m.heap.word w) : m.KeepsWords m' := by
  refine ⟨hd, hw, fun name => ?_⟩
  show Dictionary.find? m'.dictionary m'.heap name = Dictionary.find? m.dictionary m.heap name
  unfold Dictionary.find?
  rw [hd]
  cases hl : m.dictionary.lookup? (.ofString name) with
  | none => rfl
  | some w =>
    obtain ⟨e, he, rfl⟩ := Option.map_eq_some_iff.1 hl
    have hword := hw e.2 (hs.dictionary e (List.mem_of_find?_eq_some he))
    simp only [Option.filter, hword]

theorem Sound.keepsWords_of_opening (hs : m.Sound) (name : String) :
    m.KeepsWords (after (DefiningWord.openDefinition name m)) := by
  by_cases hmode : m.compiler.mode = .interpreting
  · rw [DefiningWord.openDefinition_eq name hmode]
    refine hs.keepsWords rfl fun w hw => Heap.word_addWord_of_ne _ _ ?_
    rintro rfl
    exact absurd hw (Nat.lt_irrefl _)
  · rw [DefiningWord.openDefinition_error name hmode]
    exact hs.keepsWords rfl fun _ _ => rfl

theorem Sound.keepsWords_of_colon (hs : m.Sound) :
    m.KeepsWords (after (DefiningWord.act .colon m)) := by
  have hnext : M.nextToken m = .ok m.line.advance.token? { m with line := m.line.advance } := rfl
  have hline : Sound { m with line := m.line.advance } := { hs with }
  rw [DefiningWord.act, M.nextName, bind_assoc, M.bind_ok hnext]
  cases m.line.advance.token? with
  | none => exact hs.keepsWords rfl fun _ _ => rfl
  | some name =>
    have h := hline.keepsWords_of_opening name
    exact ⟨h.dictionary, h.words, h.names⟩

/-- **The word under construction belongs to the compiler alone**, at every moment of a session.
    Nothing else refers to it; so no name, not even its own, leads to it, and it cannot be
    forgotten.  Giving it up, because a line has failed or because another definition is opened,
    leaves all other words and all names as they are.  In a session of lines there is a word under
    construction whenever a definition is compiled. -/
theorem draft_owned_by_compiler {ph : Phase} (h : Reached ph m ∨ ∃ p, Typed p ph m) :
    (∀ b, m.compiler.building? = some b →
      m.Unreferenced b ∧ (∀ name, m.find? name ≠ some b) ∧
        ∀ name r, m.dictionary.forget m.heap name = .ok r → r.1 ≠ b) ∧
    m.KeepsWords m.giveUpLine ∧
    (∀ w, w = .colon ∨ w = .noname → m.KeepsWords (after (DefiningWord.act w m))) ∧
    (∀ p, Typed p ph m → m.compiler.mode = .compiling ∨ m.compiler.mode = .compilingPostponed →
      m.compiler.building? ≠ none) := by
  obtain ⟨hs, p, hm⟩ : m.Sound ∧ ∃ p, m.Owning p := by
    rcases h with h | ⟨p, h⟩
    · exact ⟨h.sound, h.owning⟩
    · exact ⟨h.owning.1, p, h.owning.2⟩
  refine ⟨fun b hb => ?_, hs.keepsWords rfl fun _ _ => rfl, fun w hw => ?_, fun p h => h.drafting.2.draft⟩
  · have hu := hm.unreferenced hb
    exact ⟨hu, hu.find?_ne, fun _ _ => hu.forget_ne⟩
  · rcases hw with rfl | rfl
    · exact hs.keepsWords_of_colon
    · exact hs.keepsWords_of_opening ""

/-- A machine in the middle of a definition that redefines a word by itself. -/
def redefining : Machine :=
  afterLine ": sq sq" (afterLine ": sq dup ;" (ofNames {} [":", ";", "dup"]))

theorem ofNames_redefining : ofNames {} [":", ";", "dup"] = stocked {} (supply
    [⟨"dup", .stack .dup, false⟩, ⟨":", .defining .colon, false⟩, ⟨";", .defining .semicolon, true⟩]) :=
  ofNames_eq _ _ (by decide) (by decide)

/-- The name leads to the older word, which the new one calls. -/
theorem draft_owned_by_compiler_of_redefining : ∃ b old, Typed {} .rest redefining ∧
    redefining.compiler.mode = .compiling ∧ redefining.compiler.building? = some b ∧
    redefining.find? "sq" = some old ∧ .call old ∈ (redefining.heap.word b).body ∧ old ≠ b ∧
    redefining.Unreferenced b := by
  have hm : Typed {} .rest redefining := by
    have hruns : (Machine.processLine 64 (after (fill ": sq dup ;"
          (ofNames {} [":", ";", "dup"])))).isSome = true ∧
        (Machine.processLine 64 (after (fill ": sq sq" (afterLine ": sq dup ;"
          (ofNames {} [":", ";", "dup"]))))).isSome = true := by
      rw [ofNames_redefining]
      decide +kernel
    obtain ⟨h₁, h₂⟩ := hruns
    obtain ⟨r₁, hr₁⟩ := Option.isSome_iff_exists.1 h₁
    obtain ⟨r₂, hr₂⟩ := Option.isSome_iff_exists.1 h₂
    have hfirst : Typed {} .rest (afterLine ": sq dup ;" (ofNames {} [":", ";", "dup"])) := by
      rw [afterLine, hr₁]
      exact ((Typed.ofNames _ _).enter _).processLine hr₁
    rw [redefining, afterLine, hr₂]
    exact (hfirst.enter _).processLine hr₂
  have hspec : redefining.compiler.mode = .compiling ∧
      ∃ old, redefining.find? "sq" = some old ∧ ∃ b, redefining.compiler.building? = some b ∧
        .call old ∈ (redefining.heap.word b).body := by
    rw [redefining, ofNames_redefining]
    decide +kernel
  obtain ⟨hmode, old, hold, b, hb, hcall⟩ := hspec
  have h := draft_owned_by_compiler (.inr ⟨_, hm⟩)
  obtain ⟨hu, hfind, -⟩ := h.1 b hb
  exact ⟨b, old, hm, hmode, hb, hold, hcall, fun he => hfind "sq" (he ▸ hold), hu⟩

end Machine
end ThreadedForth
