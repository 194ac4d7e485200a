/-
  Machines stay lawful through steps, lines and whatever happens inside a line.
-/
import ThreadedForth.Proofs.FrozenCode
import ThreadedForth.Proofs.LawfulWords

namespace ThreadedForth

variable {L : Law} {m : Machine}

/-! ## The engine -/

/-- What a step has led to. -/
def Progress.Obeys (L : Law) : Progress → Prop
  | running m | ended m => m.Obeys L
  | failed e m => m.Obeys L ∧ e.Obeys L

theorem Progress.Obeys.machine {s : Progress} (h : s.Obeys L) : s.machine.Obeys L := by
  cases s with
  | running | ended => exact h
  | failed => exact h.1

namespace Machine.Obeys

theorem enter (hm : m.Obeys L) {w : WordId} (hw : L.callee w) : (m.enter w).Obeys L := by
  refine { hm with frames := fun f hf => ?_, bounded := { hm.bounded with } }
  rcases List.mem_cons.1 hf with rfl | hf
  · exact hw
  · exact hm.frames f hf

theorem popFrame (hm : m.Obeys L) : m.popFrame.Obeys L :=
  { hm with
    frames := fun f hf => hm.frames f (List.mem_of_mem_tail hf)
    bounded := { hm.bounded with } }

theorem startRun (hm : m.Obeys L) {w : WordId} {pending : Pending} (hw : L.callee w)
    (hp : pending.Obeys L) : (m.startRun w pending).Obeys L := by
  refine enter (m := { m with runs := ⟨m.frames.length, pending⟩ :: m.runs })
    { hm with runs := fun r hr => ?_, bounded := { hm.bounded with } } hw
  rcases List.mem_cons.1 hr with rfl | hr
  · exact hp
  · exact hm.runs r hr

theorem proceed (hm : m.Obeys L) {flow : Flow} (hf : flow.Obeys L) : (m.proceed flow).Obeys L := by
  cases flow with
  | next => exact hm.popFrame
  | leave =>
    simp only [Machine.proceed]
    split
    · exact hm.popFrame
    · exact hm.popFrame.popFrame
  | call w => exact hm.popFrame.enter hf
  | nest w pending => exact hm.startRun hf.1 hf.2

theorem unwind (hm : m.Obeys L) {e : Error} (he : e.Obeys L) {rs : List Run}
    (hr : ∀ r ∈ rs, r.pending.Obeys L) : (Machine.unwind e m rs).Obeys L := by
  induction rs generalizing e m with
  | nil => exact ⟨hm, he⟩
  | cons r rs ih =>
    unfold Machine.unwind
    have hr' : ∀ q ∈ rs, q.pending.Obeys L := fun q h => hr q (List.mem_cons_of_mem _ h)
    have hcut : Machine.Obeys L { m.truncateFrames r.base with runs := rs } :=
      { hm with
        frames := fun f hf => hm.frames f (List.mem_of_mem_drop hf)
        runs := hr'
        bounded := { hm.bounded with } }
    have hpending := hr r List.mem_cons_self
    cases hp : r.pending with
    | outside => exact ⟨hcut, he⟩
    | handler depth after => exact ih hcut he hr'
    | run => exact ih hcut he hr'
    | attempt =>
      rw [hp] at hpending
      have hpush := M.pushNew_lawful (L := L) (x := .text e.message)
        (fun hc => absurd hc hpending) hcut
      dsimp only
      cases hq : M.pushNew (.text e.message) { m.truncateFrames r.base with runs := rs } with
      | ok _ m₁ =>
        rw [hq] at hpush
        exact hpush.1.popFrame
      | error e' m₁ =>
        rw [hq] at hpush
        exact ih hpush.1 hpush.2 hr'

theorem fail (hm : m.Obeys L) {e : Error} (he : e.Obeys L) : (m.fail e).Obeys L :=
  hm.unwind he hm.runs

theorem settle {act : M Flow} (ha : Lawful L m act (Flow.Obeys L)) (hm : m.Obeys L) :
    (settle (act m)).Obeys L := by
  have ha := ha hm
  cases hr : act m with
  | ok flow m' =>
    rw [hr] at ha
    exact ha.1.proceed ha.2
  | error e m' =>
    rw [hr] at ha
    exact ha.1.fail ha.2

theorem resume {pending : Pending} (hp : pending.Obeys L) :
    Lawful L m (resume pending) (Flow.Obeys L) := by
  cases pending with
  | outside => exact .pure trivial
  | run => exact .pure trivial
  | handler depth after => exact (Operator.conclude_lawful depth hp).next
  | attempt => exact (M.pushNew_lawful (x := .text "fine") (.of_ascii (by decide))).next

theorem stepElement (hm : m.Obeys L) {f : Frame} {rest : List Frame} (hf : m.frames = f :: rest) :
    (m.stepElement f rest).Obeys L := by
  have hcallee : L.callee f.word := hm.frames f (hf ▸ List.mem_cons_self)
  rw [stepElement_eq]
  cases hb : (m.heap.word f.word).body[f.ip]? with
  | none => exact hm.popFrame
  | some e =>
    have he := (hm.heap.word f.word).body e (Array.mem_of_getElem? hb)
    have hpass : (m.pass f rest).Obeys L := by
      refine { hm with frames := fun g hg => ?_, bounded := { hm.bounded with } }
      rcases List.mem_cons.1 hg with rfl | hg
      · exact hcallee
      · exact hm.frames g (hf ▸ List.mem_cons_of_mem _ hg)
    cases e with
    | direct c => exact hpass.fail (.of_ne rfl)
    | call w => exact hpass.enter he
    | lit v => exact hpass.fail (.of_ne rfl)
    | recurse => exact hpass.enter hcallee

theorem stepFrame (hm : m.Obeys L) {f : Frame} {rest : List Frame} (hf : m.frames = f :: rest)
    (hp : ∀ p, (m.heap.word f.word).code = .ok (.native p) → p.Allowed L m) :
    (m.stepFrame f rest).Obeys L := by
  have hcallee : L.callee f.word := hm.frames f (hf ▸ List.mem_cons_self)
  have hcode := (hm.heap.word f.word).code
  unfold Machine.stepFrame
  cases hc : (m.heap.word f.word).code with
  | error e =>
    rw [hc] at hcode
    exact hm.fail hcode
  | ok c =>
    rw [hc] at hcode hp
    cases c with
    | docol => exact hm.stepElement hf
    | native p => exact settle (Primitive.run_lawful (hp p rfl) hcode) hm
    | indirect body entry =>
      have hpush := M.push_lawful (L := L) (v := .ptr (m.heap.pointer f.word 1)) hcallee hm
      have hfr := (M.push_blind (.ptr (m.heap.pointer f.word 1))).context_eq m
      dsimp only
      cases hq : M.push (.ptr (m.heap.pointer f.word 1)) m with
      | ok _ m₁ =>
        rw [hq] at hpush hfr
        have hfr : m₁.frames = f :: rest := (congrArg Context.frames hfr).trans hf
        refine { hpush.1 with frames := fun g hg => ?_, bounded := { hpush.1.bounded with } }
        rcases List.mem_cons.1 hg with rfl | hg
        · exact hcode
        · exact hpush.1.frames g (hfr ▸ List.mem_cons_of_mem _ hg)
      | error e m₁ =>
        rw [hq] at hpush
        exact hpush.1.fail hpush.2

/-- **One step keeps a machine lawful**, if the law allows the primitive that it runs. -/
theorem step (hm : m.Obeys L) (hp : ∀ p, m.primitive? = some p → p.Allowed L m) :
    m.step.Obeys L := by
  cases hr : m.runs with
  | nil =>
    rw [Machine.step, hr]
    exact hm
  | cons r rs =>
    have hrs : ∀ q ∈ r :: rs, q.pending.Obeys L := hr ▸ hm.runs
    by_cases hback : m.frames.length ≤ r.base
    · rw [step_of_back hr hback]
      have hm' : Machine.Obeys L { m with runs := rs } :=
        { hm with
          runs := fun q hq => hrs q (List.mem_cons_of_mem _ hq)
          bounded := { hm.bounded with } }
      have hset := settle (resume (m := { m with runs := rs }) (hrs r List.mem_cons_self)) hm'
      cases hq : r.pending with
      | outside => exact hm'
      | _ =>
        rw [hq] at hset
        exact hset
    · have hlt : r.base < m.frames.length := Nat.lt_of_not_le hback
      cases hi : m.interrupt with
      | true =>
        rw [step_of_interrupt hr hlt hi]
        exact fail (m := { m with interrupt := false })
          { hm with bounded := { hm.bounded with } } (.of_ne rfl)
      | false =>
        obtain ⟨f, rest, hf⟩ : ∃ f rest, m.frames = f :: rest :=
          List.exists_cons_of_length_pos (Nat.zero_lt_of_lt hlt)
        rw [step_of_frame hr hf hlt hi]
        exact hm.stepFrame hf fun p hc => hp p (primitive?_eq hr hf hlt hi hc)

end Machine.Obeys

/-! ## Lines -/

namespace Machine

theorem checkInterrupt_lawful : Lawful L m checkInterrupt := by
  intro hm
  unfold checkInterrupt
  cases m.interrupt with
  | true => exact ⟨{ hm with bounded := { hm.bounded with } }, .of_ne rfl⟩
  | false => exact ⟨hm, trivial⟩

theorem nextSourceToken_lawful : Lawful L m nextSourceToken := by
  have htoken : ∀ {m : Machine}, Lawful L m M.nextToken :=
    M.nextToken_lawful.weaken fun _ _ => trivial
  refine checkInterrupt_lawful.bind fun _ _ _ => .get fun _ => .ite ?_ htoken
  exact (Lawful.modify fun hm => hm.skipComment).bind fun _ _ _ => .get fun _ => .ite .done htoken

theorem interpretNumber_lawful (token : String) : Lawful L m (interpretNumber token) := by
  unfold interpretNumber
  cases Literal.number? token with
  | none => exact .throw rfl
  | some n =>
    have hv : n.toValue.Obeys L := .inert (by cases n <;> rfl)
    refine M.mode_lawful.bind fun mode _ _ => ?_
    cases mode with
    | interpreting => exact M.push_lawful hv
    | compiling => exact M.compileLiteral_lawful hv
    | compilingPostponed => exact .throw rfl
    | runtimeCompiling => exact .throw rfl

theorem compilePostponed_lawful {w : WordId} (hw : L.callee w) :
    Lawful L m (compilePostponed w) :=
  .get fun _ => .ite (M.compile_lawful (e := .call w) hw)
    ((M.compileLiteral_lawful (v := .xt w) hw).bind fun _ _ _ => M.compileBuiltin_lawful _)

theorem compileToken_lawful (token : String) : Lawful L m (compileToken token) := by
  rw [compileToken_eq]
  refine .get fun hm => ?_
  cases hf : m.find? token with
  | none => exact interpretNumber_lawful token
  | some w =>
    have hw := hm.find? hf
    cases hmode : m.compiler.mode with
    | interpreting => exact M.compileWord_lawful hw
    | compiling => exact M.compileWord_lawful hw
    | compilingPostponed =>
      exact (M.setMode_lawful _ fun hd => L.draft_compiling (.inl hmode) hd).bind fun _ _ _ =>
        compilePostponed_lawful hw
    | runtimeCompiling =>
      exact (M.setMode_lawful _ L.draft_interpreting).bind fun _ _ _ =>
        setLastCode_lawful (c := .indirect w 1) hw

theorem prompt_ascii (m : Machine) : AsciiText m.prompt := by
  unfold prompt
  split <;> decide

namespace Obeys

theorem giveUpLine (hm : m.Obeys L) : m.giveUpLine.Obeys L :=
  { hm with
    data := fun _ h => absurd h List.not_mem_nil
    temp := fun _ h => absurd h List.not_mem_nil
    self := fun _ h => absurd h List.not_mem_nil
    frames := fun _ h => absurd h List.not_mem_nil
    runs := fun _ h => absurd h List.not_mem_nil
    draft := L.draft_reset
    bounded :=
      { data := hm.bounded.data.clear
        «return» := hm.bounded.return.clear
        temp := hm.bounded.temp.clear
        self := hm.bounded.self.clear
        line := hm.bounded.line.skip
        output := hm.bounded.output } }

theorem fill (hm : m.Obeys L) (text : String) : (after (fill text m)).Obeys L := by
  unfold Machine.fill
  cases hl : m.line.fill text with
  | error e => exact hm
  | ok line => exact { hm with bounded := { hm.bounded with line := hm.bounded.line.fill hl } }

theorem put (hm : m.Obeys L) {text : String} (ht : L.Text text) :
    (after (M.put text m)).Obeys L :=
  (M.put_lawful ht).obeys hm

theorem takeOutput (hm : m.Obeys L) : Machine.Obeys L { m with output := m.output.clear } :=
  { hm with
    output := Law.Text.of_ascii (s := "") (by decide)
    bounded :=
      { hm.bounded with output := ⟨hm.bounded.output.capacity, Nat.zero_le _⟩ } }

/-- **Whatever happens inside a line, or in a word run from outside, keeps a machine lawful.** -/
theorem goesOn {ph ph' : Phase} {m' : Machine} (hm : m.Obeys L) (hph : ph ≠ .rest)
    (hn : Next ph m ph' m')
    (hp : ∀ left?, ph = .word left? → ∀ p, m.primitive? = some p → p.Allowed L m) :
    m'.Obeys L := by
  cases hn with
  | add | fill | start | run => exact absurd rfl hph
  | interrupt => exact { hm with bounded := { hm.bounded with } }
  | token ht hw =>
    have h₁ := (nextSourceToken_lawful.of_ok hm ht).1
    exact h₁.startRun (h₁.find? (Option.filter_eq_some_iff.1 hw).1) trivial
  | compile ht _ hc =>
    exact ((compileToken_lawful _).of_ok (nextSourceToken_lawful.of_ok hm ht).1 hc).1
  | badToken ht _ hc =>
    exact ((compileToken_lawful _).of_error (nextSourceToken_lawful.of_ok hm ht).1 hc).1.giveUpLine
  | noToken ht => exact (nextSourceToken_lawful.of_error hm ht).1.giveUpLine
  | finish ht => exact (nextSourceToken_lawful.of_ok hm ht).1.put (.of_ascii (prompt_ascii _))
  | exhaust => exact hm.put (.of_ascii (prompt_ascii _))
  | step hs => exact (hs ▸ hm.step (hp _ rfl) : (Progress.running _).Obeys L)
  | ended hs => exact (hs ▸ hm.step (hp _ rfl) : (Progress.ended _).Obeys L)
  | failed hs => exact (hs ▸ hm.step (hp _ rfl) : (Progress.failed _ _).Obeys L).1
  | failedLine hs => exact (hs ▸ hm.step (hp _ rfl) : (Progress.failed _ _).Obeys L).1.giveUpLine

end Obeys

/-- The moments at which a line fails. -/
inductive FailsAt : Phase → Machine → Error → Prop
  | noToken {n : Nat} {m m₁ : Machine} {e : Error} (ht : nextSourceToken m = .error e m₁) :
    FailsAt (.line (n + 1)) m e
  | badToken {n : Nat} {m m₁ m₂ : Machine} {t : String} {e : Error}
    (ht : nextSourceToken m = .ok (some t) m₁) (hc : compileToken t m₁ = .error e m₂) :
    FailsAt (.line (n + 1)) m e
  | step {n : Nat} {m m₁ : Machine} {e : Error} (hs : m.step = .failed e m₁) :
    FailsAt (.word (some n)) m e
  | finish {n : Nat} {m m₁ m₂ : Machine} {e : Error} (ht : nextSourceToken m = .ok none m₁)
    (hp : M.put m₁.prompt m₁ = .error e m₂) : FailsAt (.line (n + 1)) m e
  | exhaust {m m₁ : Machine} {e : Error} (hp : M.put m.prompt m = .error e m₁) :
    FailsAt (.line 0) m e

/-- A line fails lawfully. -/
theorem Obeys.failsAt (hm : m.Obeys L) {ph : Phase} {e : Error} (hf : FailsAt ph m e)
    (hp : ∀ left?, ph = .word left? → ∀ p, m.primitive? = some p → p.Allowed L m) :
    e.Obeys L := by
  cases hf with
  | noToken ht => exact (nextSourceToken_lawful.of_error hm ht).2
  | badToken ht hc =>
    exact ((compileToken_lawful _).of_error (nextSourceToken_lawful.of_ok hm ht).1 hc).2
  | step hs => exact (hs ▸ hm.step (hp _ rfl) : (Progress.failed _ _).Obeys L).2
  | finish ht ho =>
    exact ((M.put_lawful (.of_ascii (prompt_ascii _))).of_error
      (nextSourceToken_lawful.of_ok hm ht).1 ho).2
  | exhaust ho => exact ((M.put_lawful (.of_ascii (prompt_ascii _))).of_error hm ho).2

section Inside

variable {S : Phase → Machine → Prop} {fuel : Nat}

/-- A word inside a line, by what is kept at each of its steps. -/
theorem goes_inside
    (hS : ∀ {ph ph' m m'}, S ph m → ph ≠ .rest → Next ph m ph' m' → S ph' m') {n k : Nat}
    {m m' : Machine} (hm : S (.word (some k)) m) (hg : Goes n m m') : S (.word (some k)) m' := by
  induction hg with
  | refl => exact hm
  | step hs _ ih => exact ih (hS hm nofun (.step hs))

/-- The rest of a line, by what is kept at each of its moments. -/
theorem interpret_inside
    (hS : ∀ {ph ph' m m'}, S ph m → ph ≠ .rest → Next ph m ph' m' → S ph' m') {n : Nat}
    {m : Machine} {r : EStateM.Result Error Machine Unit} (hm : S (.line n) m)
    (hr : interpret fuel n m = some r) :
    S .rest (after (closeLine r)) ∧
      ∀ e m', closeLine r = .error e m' → ∃ ph x, S ph x ∧ FailsAt ph x e := by
  induction n generalizing m with
  | zero =>
    cases hr
    exact ⟨hS hm nofun .exhaust, fun e m' hp => ⟨_, _, hm, .exhaust hp⟩⟩
  | succ n ih =>
    rw [interpret_succ] at hr
    cases ht : nextSourceToken m with
    | error e m₁ =>
      rw [ht] at hr
      cases hr
      refine ⟨hS hm nofun (.noToken ht), fun e' m' he => ?_⟩
      cases he
      exact ⟨_, _, hm, .noToken ht⟩
    | ok t? m₁ =>
      rw [ht] at hr
      cases t? with
      | none =>
        cases hr
        exact ⟨hS hm nofun (.finish ht), fun e m' hp => ⟨_, _, hm, .finish ht hp⟩⟩
      | some t =>
        dsimp only at hr
        rw [interpretToken_eq] at hr
        cases hw : m₁.wordToRun? t with
        | some w =>
          rw [hw] at hr
          dsimp only at hr
          cases hx : m₁.execute fuel w with
          | none =>
            rw [hx] at hr
            cases hr
          | some q =>
            rw [hx] at hr
            have hrun := hS hm nofun (.token ht hw)
            obtain ⟨k, x, -, hg, ⟨y, hs, rfl⟩ | ⟨e, y, hs, rfl⟩⟩ := steps_eq_some hx
            · exact ih (hS (goes_inside hS hrun hg) nofun (.ended hs)) hr
            · cases hr
              have hxS := goes_inside hS hrun hg
              refine ⟨hS hxS nofun (.failedLine hs), fun e' m' he => ?_⟩
              cases he
              exact ⟨_, _, hxS, .step hs⟩
        | none =>
          rw [hw] at hr
          dsimp only at hr
          cases hc : compileToken t m₁ with
          | ok u m₂ =>
            rw [hc] at hr
            exact ih (hS hm nofun (.compile ht hw hc)) hr
          | error e m₂ =>
            rw [hc] at hr
            cases hr
            refine ⟨hS hm nofun (.badToken ht hw hc), fun e' m' he => ?_⟩
            cases he
            exact ⟨_, _, hm, .badToken ht hc⟩

/-- **A line, by what is kept at each of its moments**: it is kept to the end, and a line that fails
    does so at one of these moments. -/
theorem processLine_inside
    (hS : ∀ {ph ph' m m'}, S ph m → ph ≠ .rest → Next ph m ph' m' → S ph' m') {m : Machine}
    {r : EStateM.Result Error Machine Unit} (hm : S (.line (m.line.text.length + 2)) m)
    (hr : processLine fuel m = some r) :
    S .rest (after r) ∧ ∀ e m', r = .error e m' → ∃ ph x, S ph x ∧ FailsAt ph x e := by
  rw [processLine_eq] at hr
  obtain ⟨q, hq, rfl⟩ := Option.map_eq_some_iff.1 hr
  exact interpret_inside hS hm hq

end Inside

/-! ## Values -/

/-- Every value of a lawful machine is lawful. -/
theorem Obeys.occurs (hm : m.Obeys L) {v : Value} (hv : m.Occurs v) : v.Obeys L := by
  cases hv with
  | data h => exact hm.data v h
  | temp h => exact hm.temp v h
  | self h => exact hm.self v h
  | item o h =>
    have hx := hm.heap.object o
    cases ho : m.heap.object o with
    | text =>
      rw [ho] at h
      simp [Obj.items] at h
    | array =>
      rw [ho] at h hx
      exact hx v h
    | record =>
      rw [ho] at h hx
      exact hx.2 v h
  | slot w h => exact (hm.heap.word w).body _ h
  | @pending r _ hr hv =>
    have hq := hm.runs r hr
    cases hp : r.pending with
    | handler depth after =>
      rw [hp] at hq hv
      cases after with
      | push => cases hv
      | select a b =>
        simp only [Pending.values, List.mem_cons, List.not_mem_nil, or_false] at hv
        rcases hv with rfl | rfl
        · exact hq.1
        · exact hq.2
      | store q =>
        cases List.mem_singleton.1 hv
        exact hq
    | _ =>
      rw [hp] at hv
      cases hv

/-! ## New machines -/

theorem installAll_obeys {bs : List Builtin} (hm : m.Obeys L)
    (hbs : ∀ b ∈ bs, L.Text b.name ∧ (L.closed → b.word.isHost = false)) :
    (m.installAll bs).Obeys L := by
  unfold installAll
  induction bs generalizing m with
  | nil => exact hm
  | cons b bs ih =>
    obtain ⟨hname, hhost⟩ := hbs b List.mem_cons_self
    have hword : (Word.ofPrimitive b.name b.word b.immediate).Obeys L := by
      refine ⟨hname.foldCase, fun e he => ?_⟩
      simp only [Word.ofPrimitive, List.mem_toArray, List.mem_singleton] at he
      subst he
      exact hhost
    exact ih (hm.install hword).1 fun b' hb' => hbs b' (List.mem_cons_of_mem _ hb')

theorem initialConstants_obeys : ∀ w ∈ initialConstants, w.Obeys L := by
  intro w hw
  rcases List.mem_append.1 hw with hw | hw
  · obtain ⟨t, ht, rfl⟩ := List.mem_map.1 hw
    have hnames : ∀ t ∈ objectTypes, AsciiText t.1 := by decide
    exact M.constant_obeys (.of_ascii (hnames t ht)) (.inert rfl)
  · obtain ⟨op, -, rfl⟩ := List.mem_map.1 hw
    exact M.constant_obeys (.of_ascii (by cases op <;> decide)) (.inert rfl)

theorem initialTypes_obeys : initialTypes.Obeys L := by
  have hvalues : ∀ e ∈ initialTypes.values.toList, AsciiText e.name ∧ e.sort = .value := by
    decide +kernel
  have hobjects : ∀ e ∈ initialTypes.objects.toList, AsciiText e.name ∧
      (e.sort = .object .string (some .strings) ∨ e.sort = .object .array none) := by
    decide +kernel
  have husers : initialTypes.users.toList = [] := by decide +kernel
  intro e he
  rcases he with he | he | he
  · obtain ⟨hname, hsort⟩ := hvalues e (Array.mem_toList_iff.2 he)
    refine ⟨.of_ascii hname, fun _ _ h => ?_, fun _ _ h => ?_, fun _ h => ?_⟩
    · rw [hsort] at h
      cases h
    · rw [hsort] at h
      cases h
    · rw [TypeEntry.handler?, hsort] at h
      cases h
  · obtain ⟨hname, hsort⟩ := hobjects e (Array.mem_toList_iff.2 he)
    refine ⟨.of_ascii hname, fun _ _ h => ?_, fun _ _ h => ?_, fun _ h => ?_⟩
    · rcases hsort with hsort | hsort <;> rw [hsort] at h <;> cases h <;> trivial
    · rcases hsort with hsort | hsort <;> rw [hsort] at h <;> cases h
    · rcases hsort with hsort | hsort <;> rw [TypeEntry.handler?, hsort] at h <;> cases h
      trivial
  · have he := Array.mem_toList_iff.2 he
    rw [husers] at he
    cases he

theorem empty_obeys (hL : ∀ w, L.callee w) : (empty L.sizes).Obeys L where
  heap := ⟨fun _ h => absurd h (Array.not_mem_empty _), fun _ h => absurd h (Array.not_mem_empty _),
    fun w _ => hL w⟩
  data := fun _ h => absurd h List.not_mem_nil
  temp := fun _ h => absurd h List.not_mem_nil
  self := fun _ h => absurd h List.not_mem_nil
  frames := fun _ h => absurd h List.not_mem_nil
  runs := fun _ h => absurd h List.not_mem_nil
  dictionary := fun _ h => absurd h List.not_mem_nil
  types := initialTypes_obeys
  draft := L.draft_reset
  output := Law.Text.of_ascii (s := "") (by decide)
  bounded :=
    { data := ⟨rfl, Nat.zero_le _⟩
      «return» := ⟨rfl, Nat.zero_le _⟩
      temp := ⟨rfl, Nat.zero_le _⟩
      self := ⟨rfl, Nat.zero_le _⟩
      line := ⟨rfl, Nat.zero_le _, nofun, Nat.le_refl _, nofun⟩
      output := ⟨rfl, Nat.zero_le _⟩ }

/-- New machines are lawful. -/
theorem create_obeys (hL : ∀ w, L.callee w) {bs : List Builtin}
    (hbs : ∀ b ∈ bs, L.Text b.name ∧ (L.closed → b.word.isHost = false)) :
    (create L.sizes bs).Obeys L := by
  have hall : ∀ (ws : List Word) (m : Machine), (∀ w ∈ ws, w.Obeys L) → m.Obeys L →
      (ws.foldl (fun m w => (m.install w).2) m).Obeys L := by
    intro ws
    induction ws with
    | nil => exact fun _ _ hm => hm
    | cons w ws ih =>
      intro m hws hm
      exact ih _ (fun x hx => hws x (List.mem_cons_of_mem _ hx))
        (hm.install (hws w List.mem_cons_self)).1
  exact hall _ _ initialConstants_obeys (installAll_obeys (empty_obeys hL) hbs)

end Machine
end ThreadedForth
