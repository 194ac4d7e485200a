/-
  Code and frames stay well formed all through a session.
-/
import ThreadedForth.Proofs.SecureWords
import ThreadedForth.Proofs.Session

namespace ThreadedForth
namespace Machine

variable {m : Machine}

/-- What a machine holds: its roots, and what is held by a word or an object that it holds. -/
inductive Held (m : Machine) : Ref → Prop
  | root {r : Ref} (h : r ∈ m.roots) : Held m r
  | word {w : WordId} {r : Ref} (h : Held m (.word w)) (hr : r ∈ (m.heap.word w).refs) : Held m r
  | object {o : ObjId} {r : Ref} (h : Held m (.object o)) (hr : r ∈ (m.heap.object o).refs) : Held m r

namespace Sound

/-! ## References -/

theorem roots (hs : m.Sound) {r : Ref} (hr : r ∈ m.roots) : m.heap.Has r := by
  simp only [Machine.roots, List.mem_append, List.mem_flatMap, List.mem_map] at hr
  rcases hr with ((((((hr | hr) | hr) | hr) | hr) | hr) | hr) | hr
  · obtain ⟨v, hv, hr⟩ := hr
    exact hs.data v hv r hr
  · obtain ⟨v, hv, hr⟩ := hr
    exact hs.temp v hv r hr
  · obtain ⟨v, hv, hr⟩ := hr
    exact hs.self v hv r hr
  · obtain ⟨f, hf, rfl⟩ := hr
    exact (hs.frames f hf).has
  · obtain ⟨q, hq, hr⟩ := hr
    exact hs.runs q hq r hr
  · obtain ⟨e, he, rfl⟩ := hr
    exact hs.dictionary e he
  · obtain ⟨w, hw, rfl⟩ := hr
    obtain ⟨e, he, hw⟩ := List.mem_filterMap.1 hw
    have hh : e.handler? = some (.word w) := by
      split at hw
      · rename_i w' hh
        cases hw
        exact hh
      · cases hw
    refine hs.types e w ?_ hh
    rcases List.mem_append.1 he with he | he
    · exact .inr (.inl (Array.mem_toList_iff.1 he))
    · exact .inr (.inr (Array.mem_toList_iff.1 he))
  · obtain ⟨w, hw, rfl⟩ := hr
    exact hs.building w (Option.mem_toList.1 hw)

theorem word_refs {h : Heap} {w : Word} (hw : w.Sound h) {r : Ref} (hr : r ∈ w.refs) : h.Has r := by
  obtain ⟨c, es, hb, hc, he⟩ := hw
  rw [Word.refs, hb, List.flatMap_cons, List.mem_append] at hr
  rcases hr with hr | hr
  · cases c with
    | indirect body entry =>
      rw [List.mem_singleton.1 hr]
      exact hc.1
    | _ => simp [Elem.refs] at hr
  · obtain ⟨e, hm, hr⟩ := List.mem_flatMap.1 hr
    exact (he e hm).refs r hr

/-- Whatever the machine holds is on the heap. -/
theorem held (hs : m.Sound) {r : Ref} (hr : m.Held r) : m.heap.Has r := by
  induction hr with
  | root h => exact hs.roots h
  | word _ hr ih => exact word_refs (hs.heap.word ih) hr
  | object _ hr ih =>
    obtain ⟨v, hv, hr⟩ := List.mem_flatMap.1 hr
    exact hs.heap.object ih v (Array.mem_toList_iff.1 hv) _ hr

/-! ## The engine -/

theorem enter (hs : m.Sound) {w : WordId} (hw : m.heap.Has (.word w)) : (m.enter w).Sound := by
  refine { hs with frames := fun f hf => ?_ }
  rcases List.mem_cons.1 hf with rfl | hf
  · exact ⟨hw, Nat.le_refl _, (hs.heap.word hw).one_le_size⟩
  · exact hs.frames f hf

theorem popFrame (hs : m.Sound) : m.popFrame.Sound :=
  { hs with frames := fun f hf => hs.frames f (List.mem_of_mem_tail hf) }

theorem startRun (hs : m.Sound) {w : WordId} {pending : Pending} (hw : m.heap.Has (.word w))
    (hp : pending.In m.heap) : (m.startRun w pending).Sound := by
  refine enter (m := { m with runs := ⟨m.frames.length, pending⟩ :: m.runs })
    { hs with runs := fun r hr => ?_ } hw
  rcases List.mem_cons.1 hr with rfl | hr
  · exact hp
  · exact hs.runs r hr

theorem proceed (hs : m.Sound) {flow : Flow} (hf : flow.In m.heap) : (m.proceed flow).Sound := by
  cases flow with
  | next => exact hs.popFrame
  | leave =>
    simp only [Machine.proceed]
    split
    · exact hs.popFrame
    · exact hs.popFrame.popFrame
  | call w => exact hs.popFrame.enter hf
  | nest w pending => exact hs.startRun hf.1 hf.2

theorem unwind (hs : m.Sound) (e : Error) {rs : List Run}
    (hr : ∀ r ∈ rs, r.pending.In m.heap) : (Machine.unwind e m rs).machine.Sound := by
  induction rs generalizing e m with
  | nil => exact hs
  | cons r rs ih =>
    unfold Machine.unwind
    have hr' : ∀ r ∈ rs, r.pending.In m.heap := fun r h => hr r (List.mem_cons_of_mem _ h)
    have hm : Sound { m.truncateFrames r.base with runs := rs } :=
      { hs with
        frames := fun f hf => hs.frames f (List.mem_of_mem_drop hf)
        runs := hr' }
    cases r.pending with
    | outside => exact hm
    | handler depth after => exact ih hm e hr'
    | run => exact ih hm e hr'
    | attempt =>
      obtain ⟨h₁, h₂, _⟩ := M.pushNew_secure (Store.text_in _ e.message) hm
      simp only
      cases hp : M.pushNew (.text e.message) { m.truncateFrames r.base with runs := rs } with
      | ok _ m₁ =>
        rw [hp] at h₁
        exact h₁.popFrame
      | error e' m₁ =>
        rw [hp] at h₁ h₂
        exact ih h₁ e' fun r h => (hr' r h).mono h₂

theorem fail (hs : m.Sound) (e : Error) : (m.fail e).machine.Sound :=
  hs.unwind e hs.runs

theorem settle {act : M Flow} (ha : Secure m act fun f m' => f.In m'.heap) (hs : m.Sound) :
    (settle (act m)).machine.Sound := by
  obtain ⟨h₁, _, h₃⟩ := ha hs
  cases hr : act m with
  | ok flow m' =>
    rw [hr] at h₁
    exact h₁.proceed (h₃ flow m' hr)
  | error e m' =>
    rw [hr] at h₁
    exact h₁.fail e

theorem resume_secure {pending : Pending} (hp : pending.In m.heap) :
    Secure m (resume pending) fun f m' => f.In m'.heap := by
  cases pending with
  | outside => exact .pure fun _ => trivial
  | run => exact .pure fun _ => trivial
  | handler depth after =>
    exact (Operator.conclude_secure hp).bind fun _ _ _ _ _ => .pure fun _ => trivial
  | attempt =>
    exact (M.pushNew_secure (Store.text_in _ _)).bind fun _ _ _ _ _ => .pure fun _ => trivial

theorem stepElement (hs : m.Sound) {f : Frame} {rest : List Frame} (hf : m.frames = f :: rest) :
    (m.stepElement f rest).machine.Sound := by
  have hF := hs.frames f (by rw [hf]; simp)
  rw [stepElement_eq]
  cases hb : (m.heap.word f.word).body[f.ip]? with
  | none => exact hs.popFrame
  | some e =>
    have hm : (m.pass f rest).Sound := by
      refine { hs with frames := fun g hg => ?_ }
      rcases List.mem_cons.1 hg with rfl | hg
      · exact ⟨hF.has, Nat.le_succ_of_le hF.one_le, (Array.getElem?_eq_some_iff.1 hb).1⟩
      · exact hs.frames g (by rw [hf]; exact List.mem_cons_of_mem _ hg)
    cases e with
    | direct c => exact hm.fail _
    | call w =>
      refine hm.enter (word_refs (hs.heap.word hF.has) ?_)
      refine List.mem_flatMap.2 ⟨.call w, ?_, List.mem_cons_self⟩
      exact Array.mem_toList_iff.2 (Array.mem_of_getElem? hb)
    | lit v => exact hm.fail _
    | recurse => exact hm.enter hF.has

theorem stepFrame (hs : m.Sound) {f : Frame} {rest : List Frame} (hf : m.frames = f :: rest) :
    (m.stepFrame f rest).machine.Sound := by
  have hF := hs.frames f (by rw [hf]; simp)
  unfold Machine.stepFrame
  cases hc : (m.heap.word f.word).code with
  | error e => exact hs.fail e
  | ok c =>
    cases c with
    | docol => exact hs.stepElement hf
    | native p => exact settle p.run_secure hs
    | indirect body entry =>
      have hv : (Value.ptr (m.heap.pointer f.word 1)).In m.heap :=
        fun r hr => by rw [List.mem_singleton.1 hr]; exact hF.has
      obtain ⟨h₁, h₂, _⟩ := M.push_secure hv hs
      have hfit : Code.Fits m.heap (.indirect body entry) := by
        obtain ⟨c, es, hb, hc', _⟩ := hs.heap.word hF.has
        unfold Word.code at hc
        rw [← Array.getElem?_toList, hb] at hc
        cases hc
        exact hc'
      have hfr := (M.push_blind (.ptr (m.heap.pointer f.word 1))).context_eq m
      dsimp only
      cases hp : M.push (.ptr (m.heap.pointer f.word 1)) m with
      | ok _ m₁ =>
        rw [hp] at h₁ h₂ hfr
        have hfr : m₁.frames = f :: rest := (congrArg Context.frames hfr).trans hf
        refine { h₁ with frames := fun g hg => ?_ }
        rcases List.mem_cons.1 hg with rfl | hg
        · have := hfit.mono h₂
          exact ⟨this.1, this.2.1, this.2.2⟩
        · exact h₁.frames g (hfr ▸ List.mem_cons_of_mem _ hg)
      | error e m₁ =>
        rw [hp] at h₁
        exact h₁.fail e

/-- **One step keeps a machine well formed.** -/
theorem step (hs : m.Sound) : m.step.machine.Sound := by
  cases hr : m.runs with
  | nil =>
    rw [Machine.step, hr]
    exact hs
  | cons r rs =>
    have hrs : ∀ q ∈ r :: rs, q.pending.In m.heap := hr ▸ hs.runs
    by_cases hb : m.frames.length ≤ r.base
    · rw [step_of_back hr hb]
      have hm : Sound { m with runs := rs } :=
        { hs with runs := fun q hq => hrs q (List.mem_cons_of_mem _ hq) }
      have hset := settle (resume_secure (m := { m with runs := rs }) (hrs r List.mem_cons_self)) hm
      cases hp : r.pending with
      | outside => exact hm
      | _ =>
        rw [hp] at hset
        exact hset
    · have hb : r.base < m.frames.length := Nat.lt_of_not_le hb
      cases hi : m.interrupt with
      | true =>
        rw [step_of_interrupt hr hb hi]
        exact fail (m := { m with interrupt := false }) { hs with } _
      | false =>
        cases hf : m.frames with
        | nil =>
          rw [hf] at hb
          exact absurd hb (Nat.not_lt_zero _)
        | cons f rest =>
          rw [step_of_frame hr hf hb hi]
          exact hs.stepFrame hf

end Sound

/-! ## Sessions -/

theorem primitive_sound (h : Heap) (name : String) (p : Primitive) (immediate : Bool) :
    (Word.ofPrimitive name p immediate).Sound h :=
  ⟨.native p, [], rfl, trivial, nofun⟩

theorem Sound.installAll {bs : List Builtin} (hs : m.Sound) : (m.installAll bs).Sound := by
  unfold Machine.installAll
  induction bs generalizing m with
  | nil => exact hs
  | cons b bs ih => exact ih (M.install_sound hs (primitive_sound _ _ _ _)).1

theorem initialConstants_sound (h : Heap) : ∀ w ∈ initialConstants, w.Sound h := by
  intro w hw
  rcases List.mem_append.1 hw with hw | hw
  · obtain ⟨t, _, rfl⟩ := List.mem_map.1 hw
    exact M.constant_sound (.plain rfl) _
  · obtain ⟨op, _, rfl⟩ := List.mem_map.1 hw
    exact M.constant_sound (.plain rfl) _

/-- The only handler of a new machine is the one of strings. -/
theorem handler?_initialTypes : ∀ e ∈ initialTypes.values.toList ++ initialTypes.objects.toList ++
    initialTypes.users.toList, e.handler? = none ∨ e.handler? = some .strings := by
  decide +kernel

theorem empty_sound (p : Params) : (empty p).Sound where
  heap := ⟨fun _ h => absurd h (Array.not_mem_empty _), fun _ h => absurd h (Array.not_mem_empty _)⟩
  data := fun _ h => absurd h List.not_mem_nil
  temp := fun _ h => absurd h List.not_mem_nil
  self := fun _ h => absurd h List.not_mem_nil
  frames := fun _ h => absurd h List.not_mem_nil
  runs := fun _ h => absurd h List.not_mem_nil
  dictionary := fun _ h => absurd h List.not_mem_nil
  types := by
    intro e w he hw
    have he : e ∈ initialTypes.values ∨ e ∈ initialTypes.objects ∨ e ∈ initialTypes.users := he
    rcases handler?_initialTypes e (by simpa [or_assoc] using he) with h | h <;>
      rw [h] at hw <;> cases hw
  building := fun _ h => by cases h
  last := fun _ h => by cases h

theorem create_sound (p : Params) (bs : List Builtin) : (create p bs).Sound := by
  have h : ∀ (ws : List Word) (m : Machine), (∀ w ∈ ws, ∀ h, w.Sound h) → m.Sound →
      (ws.foldl (fun m w => (m.install w).2) m).Sound := by
    intro ws
    induction ws with
    | nil => exact fun _ _ hs => hs
    | cons w ws ih =>
      intro m hw hs
      exact ih _ (fun x hx => hw x (List.mem_cons_of_mem _ hx))
        (M.install_sound hs (hw w List.mem_cons_self _)).1
  exact h _ _ (fun w hw h => initialConstants_sound h w hw) (empty_sound p).installAll

theorem Sound.giveUpLine (hs : m.Sound) : m.giveUpLine.Sound :=
  { hs with
    data := fun _ h => absurd h List.not_mem_nil
    temp := fun _ h => absurd h List.not_mem_nil
    self := fun _ h => absurd h List.not_mem_nil
    frames := fun _ h => absurd h List.not_mem_nil
    runs := fun _ h => absurd h List.not_mem_nil
    building := fun _ h => by cases h }

theorem Sound.fill (hs : m.Sound) (text : String) : (after (fill text m)).Sound := by
  unfold Machine.fill
  cases m.line.fill text with
  | ok line => exact { hs with }
  | error e => exact hs

theorem nextSourceToken_secure : Secure m nextSourceToken fun _ _ => True := by
  have hc : Secure m checkInterrupt fun _ _ => True := by
    intro hs
    unfold checkInterrupt
    split
    · exact ⟨{ hs with }, .refl _, fun _ _ _ => trivial⟩
    · exact ⟨hs, .refl _, fun _ _ _ => trivial⟩
  refine hc.bind fun _ m₁ _ _ _ => .get (.ite (fun _ => ?_) fun _ => M.nextToken_secure)
  refine (Secure.modify fun hs => ⟨{ hs with }, .refl _⟩).bind fun _ m₂ _ _ _ => .get ?_
  exact .ite (fun _ => .pure fun _ => trivial) fun _ => M.nextToken_secure

theorem interpretNumber_secure (token : String) : Secure m (interpretNumber token) fun _ _ => True := by
  unfold interpretNumber
  cases Literal.number? token with
  | none => exact .throw _
  | some n =>
    have hn : ∀ h, n.toValue.In h := fun h => .plain (by cases n <;> rfl)
    refine M.mode_secure.bind fun mode _ _ _ _ => ?_
    cases mode with
    | interpreting => exact M.push_secure (hn _)
    | compiling => exact M.compileLiteral_secure (hn _)
    | compilingPostponed => exact .throw _
    | runtimeCompiling => exact .throw _

theorem compilePostponed_secure {w : WordId} (hw : m.heap.Has (.word w)) :
    Secure m (compilePostponed w) fun _ _ => True :=
  .get <| .ite (fun _ => M.compile_secure (.call hw)) fun _ =>
    (M.compileLiteral_secure (DefiningWord.xt_in hw)).bind fun _ _ _ _ _ => M.compileBuiltin_secure _

theorem compileToken_secure (token : String) : Secure m (compileToken token) fun _ _ => True := by
  intro hs
  unfold compileToken
  cases hf : m.find? token with
  | none => exact interpretNumber_secure token hs
  | some w =>
    have hw := hs.find? hf
    cases m.compiler.mode with
    | interpreting => exact M.compileWord_secure hw hs
    | compiling => exact M.compileWord_secure hw hs
    | compilingPostponed =>
      exact Secure.bind (M.setMode_secure _) (fun _ _ _ g _ => compilePostponed_secure (hw.mono g)) hs
    | runtimeCompiling =>
      refine Secure.bind (M.setMode_secure _) (fun _ m₁ hs₁ g _ => setLastCode_secure ?_) hs
      exact ⟨hw.mono g, Nat.le_refl _, (hs₁.heap.word (hw.mono g)).one_le_size⟩

/-- The invariant holds all through a session. -/
theorem Reached.sound {ph : Phase} (h : Reached ph m) : m.Sound := by
  induction h with
  | create p bs => exact create_sound p bs
  | add _ b ih => exact ih.installAll
  | interrupt _ ih => exact { ih with }
  | fill _ text ih => exact ih.fill text
  | start _ ih => exact ih
  | run _ hw ih => exact ih.startRun (ih.find? hw) nofun
  | token _ ht hw ih =>
    have h₁ := nextSourceToken_secure.sound_ok ih ht
    exact h₁.startRun (h₁.find? (Option.filter_eq_some_iff.1 hw).1) nofun
  | compile _ ht _ hc ih =>
    exact (compileToken_secure _).sound_ok (nextSourceToken_secure.sound_ok ih ht) hc
  | badToken _ ht _ hc ih =>
    exact ((compileToken_secure _).sound_error (nextSourceToken_secure.sound_ok ih ht) hc).giveUpLine
  | noToken _ ht ih => exact (nextSourceToken_secure.sound_error ih ht).giveUpLine
  | finish _ ht ih => exact (M.put_secure _ (nextSourceToken_secure.sound_ok ih ht)).1
  | exhaust _ ih => exact (M.put_secure _ ih).1
  | step _ hs ih => exact (hs ▸ ih.step : (Progress.running _).machine.Sound)
  | ended _ hs ih => exact (hs ▸ ih.step : (Progress.ended _).machine.Sound)
  | failed _ hs ih => exact (hs ▸ ih.step : (Progress.failed _ _).machine.Sound)
  | failedLine _ hs ih =>
    have : (Progress.failed _ _).machine.Sound := hs ▸ ih.step
    exact Sound.giveUpLine this

/-- **Code and frames are well formed at every moment of a session.**  Every word that the machine
    holds has the right shape, every frame stands inside its word, and every indirect code leads
    inside its body.  Hence the engine finds the code of every running word, and no running word
    has come to an element that is a code. -/
theorem code_and_frames_well_formed {ph : Phase} (h : Reached ph m) :
    (∀ w, m.Held (.word w) → (m.heap.word w).Shaped) ∧
    (∀ f ∈ m.frames, 1 ≤ f.ip ∧ f.ip ≤ (m.heap.word f.word).size) ∧
    (∀ w body entry, m.Held (.word w) → .direct (.indirect body entry) ∈ (m.heap.word w).body →
      1 ≤ entry ∧ entry ≤ (m.heap.word body).size) ∧
    (∀ f ∈ m.frames, ∃ c, (m.heap.word f.word).code = .ok c) ∧
    ∀ f ∈ m.frames, ∀ c, (m.heap.word f.word).body[f.ip]? ≠ some (.direct c) := by
  have hs := h.sound
  refine ⟨fun w hw => (hs.heap.word (hs.held hw)).shaped,
    fun f hf => ⟨(hs.frames f hf).one_le, (hs.frames f hf).le_size⟩, ?_, ?_, ?_⟩
  · intro w body entry hw he
    obtain ⟨c, es, hb, hc, hi⟩ := hs.heap.word (hs.held hw)
    rw [← Array.mem_toList_iff, hb] at he
    rcases List.mem_cons.1 he with he | he
    · cases he
      exact hc.2
    · cases (hi _ he).notDirect
  · intro f hf
    obtain ⟨c, es, hb, _⟩ := hs.heap.word (hs.frames f hf).has
    refine ⟨c, ?_⟩
    rw [Word.code, ← Array.getElem?_toList, hb]
    rfl
  · intro f hf c hc
    have hF := hs.frames f hf
    obtain ⟨c', es, hb, _, hi⟩ := hs.heap.word hF.has
    obtain ⟨i, hip⟩ : ∃ i, f.ip = i + 1 := ⟨f.ip - 1, by have := hF.one_le; omega⟩
    rw [← Array.getElem?_toList, hb, hip, List.getElem?_cons_succ] at hc
    cases (hi _ (List.mem_of_getElem? hc)).notDirect

/-- A machine that has just started a word. -/
theorem code_and_frames_well_formed_of_dup :
    ∃ m w, (ofNames {} ["dup"]).find? "dup" = some w ∧
      m = (ofNames {} ["dup"]).startRun w .outside ∧ Reached (.word none) m ∧
      ∀ f ∈ m.frames, ∃ c, (m.heap.word f.word).code = .ok c := by
  have hw : (ofNames {} ["dup"]).find? "dup" = some ⟨0⟩ := by decide +kernel
  have hm := (Reached.create {} (Builtin.all.filter fun b => ["dup"].contains b.name)).run hw
  exact ⟨_, _, hw, rfl, hm, (code_and_frames_well_formed hm).2.2.2.1⟩

end Machine
end ThreadedForth
