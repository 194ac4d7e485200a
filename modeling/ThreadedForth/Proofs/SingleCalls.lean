/-
  Words that only call another word.
-/
import ThreadedForth.Proofs.Activations
import ThreadedForth.Proofs.Invariants
import ThreadedForth.Proofs.RoundTrip
import ThreadedForth.Proofs.Simulation

namespace ThreadedForth

/-! ## What is alive with one more root -/

namespace Heap

variable {h : Heap} {roots roots' : List Ref} {v : WordId}

section Held

variable (hmem : ∀ r, r ∈ roots' ↔ r ∈ roots ∨ r = .word v) (hrefs : ∀ r ∈ (h.word v).refs, r ∈ roots)
include hmem hrefs

theorem alive_of_held {r : Ref} (hr : r ≠ .word v) : h.Alive roots' r ↔ h.Alive roots r := by
  refine ⟨fun ⟨S, hS, hSr⟩ => ?_, fun ha => ha.mono fun x hx => (hmem x).2 (.inl hx)⟩
  -- A set that keeps itself alive with the root also does so without the word.
  refine ⟨fun x => S x ∧ x ≠ .word v, ?_, hSr, hr⟩
  rintro x ⟨hx, hxv⟩
  obtain ⟨hh, hroot | ⟨s, hs, hxs⟩⟩ := hS x hx
  · exact ⟨hh, .inl (((hmem x).1 hroot).resolve_right hxv)⟩
  · refine ⟨hh, ?_⟩
    by_cases hsv : s = .word v
    · subst hsv
      exact .inl (hrefs x hxs)
    · exact .inr ⟨s, ⟨hs, hsv⟩, hxs⟩

/-- Another word is alive as before. -/
theorem isAlive_of_held {u : WordId} (hu : u ≠ v) : h.isAlive roots' u = h.isAlive roots u := by
  have hne : Ref.word u ≠ .word v := fun he => hu (Ref.word.inj he)
  rw [Bool.eq_iff_iff, isAlive_iff, isAlive_iff, alive_of_held hmem hrefs hne, hmem]
  simp only [hne, or_false]

/-- Objects have as many references as before. -/
theorem references_of_held (hplain : ∀ o, Ref.object o ∉ (h.word v).refs) (o : ObjId)
    (hcount : roots'.count (.object o) = roots.count (.object o)) :
    h.references roots' o = h.references roots o := by
  classical
  have hheld : ∀ rs : List Ref, (h.heldBy (h.alive rs)).count (.object o) =
      h.occurrencesAmong (h.Alive rs) o := fun rs =>
    count_heldBy (alive_spec h rs).1 _ fun r => by
      rw [has_alive_iff]
      exact ⟨fun ha => ⟨ha.has, ha⟩, fun ha => ha.2⟩
  have hnone : h.occurrencesIn o (.word v) = 0 := by
    rw [← count_refsOf, List.count_eq_zero]
    exact hplain o
  have hsum : ∀ rs : List Ref,
      ((rs.filter fun r => decide (h.Alive roots' r)).map (h.occurrencesIn o)).sum =
        ((rs.filter fun r => decide (h.Alive roots r)).map (h.occurrencesIn o)).sum := by
    intro rs
    induction rs with
    | nil => rfl
    | cons r rs ih =>
      by_cases hr : r = .word v
      · subst hr
        by_cases h₁ : h.Alive roots' (.word v) <;> by_cases h₂ : h.Alive roots (.word v) <;>
          simp [h₁, h₂, ih, hnone]
      · have ha := alive_of_held hmem hrefs hr
        by_cases h₁ : h.Alive roots r <;> simp [h₁, ha, ih]
  rw [references, references, List.count_append, List.count_append, hheld, hheld, hcount,
    occurrencesAmong, occurrencesAmong, hsum]

end Held
end Heap

namespace Machine

variable {z : Machine} {v : WordId} {ip : Nat} {g g' : Debugger}

/-- A caller that holds only words that are held anyway, and that is not the word created last,
    makes no difference to what primitives are told. -/
theorem sameAnswers_of_held (hrefs : ∀ r ∈ (z.heap.word v).refs,
      (∃ u, r = .word u) ∧ r ∈ (z.atop ⟨[], [], g⟩).roots)
    (hlast : z.compiler.last? ≠ some v) (p : Primitive) :
    p.SameAnswers (z.atop ⟨[], [], g⟩) (z.atop ⟨[⟨v, ip⟩], [], g'⟩) := by
  have hmem : ∀ r, r ∈ (z.atop ⟨[⟨v, ip⟩], [], g'⟩).roots ↔
      r ∈ (z.atop ⟨[], [], g⟩).roots ∨ r = .word v := by
    intro r
    have hlift : ∀ k, (z.runs.map (Run.lift k)).flatMap (fun r => pendingRefs r.pending) =
        z.runs.flatMap fun r => pendingRefs r.pending := fun k => by
      rw [List.flatMap_map]
      rfl
    simp only [roots, atop, within, hlift, List.mem_append, List.map_append, List.map_cons,
      List.map_nil, List.mem_singleton, List.append_nil]
    tauto
  have hroots : ∀ r ∈ (z.heap.word v).refs, r ∈ (z.atop ⟨[], [], g⟩).roots := fun r hr => (hrefs r hr).2
  refine ⟨fun _ => ?_, fun _ => ?_, fun _ => rfl⟩
  · show z.compiler.last z.heap _ = z.compiler.last z.heap _
    unfold Compiler.last
    cases hl : z.compiler.last? with
    | none => rfl
    | some u =>
      have hu : u ≠ v := by
        rintro rfl
        exact hlast hl
      simp only [Heap.isAlive_of_held hmem hroots hu]
  · have hcount : ∀ o, z.heap.references (z.atop ⟨[⟨v, ip⟩], [], g'⟩).roots o =
        z.heap.references (z.atop ⟨[], [], g⟩).roots o := by
      intro o
      refine Heap.references_of_held hmem hroots (fun o ho => ?_) o ?_
      · obtain ⟨⟨u, hu⟩, -⟩ := hrefs _ ho
        cases hu
      · have hlift : ∀ k, (z.runs.map (Run.lift k)).flatMap (fun r => r.pending.operands) =
            z.runs.flatMap fun r => r.pending.operands := fun k => by
          rw [List.flatMap_map]
          rfl
        rw [count_roots, count_roots]
        simp only [atop, within, hlift, List.append_nil]
    show (z.data.peek? 0).bind (z.heap.liveCount? _) = (z.data.peek? 0).bind (z.heap.liveCount? _)
    congr 1
    funext u
    by_cases hn : ∃ n o, z.heap.follow u n = .ok (.obj o)
    · obtain ⟨n, o, hn⟩ := hn
      rw [Heap.liveCount?_of_follow hn, Heap.liveCount?_of_follow hn, hcount]
    · have hx : ∀ n o, z.heap.follow u n ≠ .ok (.obj o) := fun n o ho => hn ⟨n, o, ho⟩
      rw [Heap.liveCount?_of_not_follow hx, Heap.liveCount?_of_not_follow hx]

/-! ## Words that nothing changes -/

/-- A composed word to which no pointer leads, and of which the compiler knows nothing. -/
structure Frozen (v : WordId) (x : Machine) : Prop where
  aimed : x.Aimed []
  has : x.heap.Has (.word v)
  code : (x.heap.word v).code = .ok .docol
  last : x.compiler.last? ≠ some v
  building : x.compiler.building? ≠ some v

variable {x x' : Machine} {w : WordId}

/-- The compiler never comes to know a word again. -/
theorem unknown_kept (v : WordId) : Kept fun x => x.heap.Has (.word v) ∧
    x.compiler.last? ≠ some v ∧ x.compiler.building? ≠ some v where
  same := by
    rintro m m' ⟨hh, hl, hb⟩ hwords hcompiler
    refine ⟨?_, hcompiler ▸ hl, hcompiler ▸ hb⟩
    simpa only [Heap.Has, hwords] using hh
  mode h _ _ := h
  finish h := ⟨h.1, h.2.1, nofun⟩
  update h _ _ _ := ⟨Heap.has_setWord.2 h.1, h.2⟩
  start := by
    rintro m ⟨hh, -, -⟩ name
    have hne : (m.heap.addWord (.blank name)).1 ≠ v := fun he => by
      rw [← he] at hh
      exact Nat.lt_irrefl _ hh
    exact ⟨hh.mono (.addWord _ _), fun he => hne (Option.some.inj he), fun he => hne (Option.some.inj he)⟩
  define := by
    rintro m ⟨hh, -, hb⟩ u -
    have hne : (m.heap.addWord u).1 ≠ v := fun he => by
      rw [← he] at hh
      exact Nat.lt_irrefl _ hh
    exact ⟨hh.mono (.addWord _ _), fun he => hne (Option.some.inj he), hb⟩

/-- No pointer leads to a composed word. -/
theorem Frozen.target_ne (h : Frozen v x) {p : Pointer} (hp : x.Occurs (.ptr p)) : p.target ≠ v := by
  rintro rfl
  have hc := Word.code_eq_ok_iff.1 h.code
  rcases Word.hasData_iff.1 (h.aimed.occurs _ hp p rfl) with hd | ⟨_, _, hd⟩
  · cases hc.symm.trans hd
  · cases hc.symm.trans hd

/-- **No step changes a frozen word.** -/
theorem Frozen.step (h : Frozen v x) :
    Frozen v x.step.machine ∧ (x.step.machine.heap.word v).body = (x.heap.word v).body := by
  obtain ⟨hand, hm⟩ := x.step_moves
  obtain ⟨hh, hl, hb⟩ := (unknown_kept v).step ⟨h.has, h.last, h.building⟩
  have hc := Word.code_eq_ok_iff.1 h.code
  have hs : 1 ≤ (x.heap.word v).size := (Array.getElem?_eq_some_iff.1 hc).1
  have hf := (hm.follows h.has hs).1
  have hfirst : (x.step.machine.heap.word v).body[0]? = (x.heap.word v).body[0]? := by
    rcases hf.code with hsame | ⟨body, entry, he, -⟩
    · exact hsame
    · have hacts : ActsOn (.word none) x v := Edits.actsOn he
      exact absurd hacts.2 h.last
  have hsize : (x.step.machine.heap.word v).body.size = (x.heap.word v).body.size := by
    rcases hf.grows h.building with hsame | he
    · exact hsame
    · have hext : Extends (.word none) x v := Edits.extends he h.has
      exact absurd hext.2 h.last
  refine ⟨⟨⟨(h.aimed.moves hm).occurs, fun _ hv => absurd hv List.not_mem_nil⟩, hh,
    Word.code_eq_ok_iff.2 (hfirst.trans hc), hl, hb⟩, ?_⟩
  refine Array.ext hsize fun i hi hi' => ?_
  have hget : (x.step.machine.heap.word v).body[i]? = (x.heap.word v).body[i]? := by
    by_cases hi0 : i = 0
    · subst hi0
      exact hfirst
    · rcases hf.slots h.building i _ hi0 (Array.getElem?_eq_getElem hi') with he | ⟨_, _, p, _, _, hp, _, he⟩
      · rw [he, Array.getElem?_eq_getElem hi']
      · have hstores : Stores (.word none) x p := Edits.stores he
        exact absurd hp (h.target_ne hstores.occurs)
  rw [Array.getElem?_eq_getElem hi, Array.getElem?_eq_getElem hi'] at hget
  exact Option.some.inj hget

theorem Frozen.goes (h : Frozen v x) {n : Nat} (hg : Goes n x x') :
    Frozen v x' ∧ (x'.heap.word v).body = (x.heap.word v).body := by
  induction hg with
  | refl => exact ⟨h, rfl⟩
  | step hs _ ih =>
    obtain ⟨h₁, hb₁⟩ := h.step
    rw [hs] at h₁ hb₁
    obtain ⟨h₂, hb₂⟩ := ih h₁
    exact ⟨h₂, hb₂.trans hb₁⟩

/-! ## Runs of composed words -/

/-- A composed word without callers runs until it comes back. -/
theorem Grounded.goes_alone (h : Grounded w [] [⟨0, .outside⟩] x) (hw : Frozen w x) {n : Nat}
    (hg : Goes n x x') : Grounded w [] [⟨0, .outside⟩] x' ∨ CameBack [] [⟨0, .outside⟩] x' := by
  induction hg with
  | refl => exact .inl h
  | @step n x x₁ x' hs hg ih =>
    rcases h.step ⟨_, _, rfl, Nat.le_refl 0⟩ hw.code with ⟨y, hy, hx'⟩ | ⟨e, y, hy⟩
    · cases hs.symm.trans hy
      rcases hx' with hx' | hx'
      · have hframe : Frozen w (Progress.running x₁).machine := hs ▸ hw.step.1
        exact ih hx' hframe
      · -- There is nothing to run any more.
        cases hg with
        | refl => exact .inr hx'
        | step hs' => cases hx'.ended.symm.trans hs'
    · cases hs.symm.trans hy

/-! ## Runs that never hear of a caller -/

/-- The run of a word without callers never hears of one: the word itself runs whenever a primitive
    does, no primitive acts on a caller, and in the end no interrupt is due. -/
structure Unheard (w : WordId) (m : Machine) : Prop where
  running : ∀ {n : Nat} {x : Machine} {p : Primitive}, Goes n (m.startRun w .outside) x →
    x.primitive? = some p → w ∈ x.nesting ∧ (p.actsOnCaller = true → 2 ≤ x.frames.length)
  calm : ∀ {n : Nat} {x y : Machine}, Goes n (m.startRun w .outside) x → x.step = .ended y →
    y.interrupt = false

variable {m : Machine} {p : Primitive}

/-- **A composed word never hears of a caller.** -/
theorem Unheard.composed (hf : m.frames = []) (hr : m.runs = []) (hw : Frozen w (m.startRun w .outside)) :
    Unheard w m := by
  have hstart : Grounded w [] [⟨0, .outside⟩] (m.startRun w .outside) := by
    refine ⟨⟨[⟨w, 1⟩], ?_, rfl⟩, [], ?_, ?_⟩
    · simp [startRun, enter, hf]
    · simp [startRun, enter, hf, hr]
    · simp [Nested, startRun, enter, hf]
  refine ⟨fun {n x p} hg hp => ?_, fun {n x y} hg hs => ?_⟩
  · rcases hstart.goes_alone hw hg with h | h
    · obtain ⟨f, hact, hc⟩ := primitive?_eq_some_iff.1 hp
      rcases x.turn with ⟨-, ha⟩ | ⟨-, -, ha⟩ | ⟨-, -, -, ha⟩ | ⟨-, hframes, -, -, ha⟩
      · cases ha.symm.trans hact
      · cases ha.symm.trans hact
      · cases ha.symm.trans hact
      · cases ha.symm.trans hact
        exact ⟨h.mem, fun _ => h.two_le (hw.goes hg).1.code hframes (by simp [hc])⟩
    · rw [primitive?, h.runs, h.frames] at hp
      cases hp
  · rcases hstart.goes_alone hw hg with h | h
    · rcases h.step ⟨_, _, rfl, Nat.le_refl 0⟩ (hw.goes hg).1.code with ⟨x', hx, -⟩ | ⟨e, x', hx⟩
      · cases hx.symm.trans hs
      · exact absurd (hx.symm.trans hs) (unwind_ne_ended _ _ _ _)
    · cases h.ended.symm.trans hs
      exact h.calm

/-- A primitive never hears of a caller if all it does is to go on. -/
theorem Unheard.native (hf : m.frames = []) (hr : m.runs = []) (hi : m.interrupt = false)
    (hc : (m.heap.word w).code = .ok (.native p)) (hp : p.actsOnCaller = false)
    (hflow : Yields (· = .next) p.run) (hquiet : p ≠ .host .interrupt) : Unheard w m := by
  have hruns : (m.startRun w .outside).runs = [⟨0, .outside⟩] := by simp [startRun, enter, hf, hr]
  have hframes : (m.startRun w .outside).frames = [⟨w, 1⟩] := by simp [startRun, enter, hf]
  have hc' : ((m.startRun w .outside).heap.word w).code = .ok (.native p) := hc
  have hstep : (m.startRun w .outside).step = settle (p.run (m.startRun w .outside)) := by
    rw [step_startRun hi, stepFrame]
    simp only [hc']
  have hstates : ∀ {n x}, Goes n (m.startRun w .outside) x → x = m.startRun w .outside ∨ CameBack [] [⟨0, .outside⟩] x := by
    intro n x hg
    cases hg with
    | refl => exact .inl rfl
    | step hs hg =>
      rw [hstep] at hs
      obtain ⟨r, u, g, -, -, hx, -⟩ := p.run_agrees (m := m.startRun w .outside)
        (c := (m.startRun w .outside).context) (d := (m.startRun w .outside).context) (n := 1)
        (Nat.le_refl 1) (by simp [hp]) rfl (.refl _ _)
      have hx : p.run (m.startRun w .outside) = _ := hx
      cases r with
      | error e y =>
        rw [hx] at hs
        change Machine.unwind _ _ (m.startRun w .outside).runs = _ at hs
        rw [hruns] at hs
        cases hs
      | ok flow y =>
        cases hflow _ _ _ hx
        have hkept := after_interrupt_of_uses
          (p.run_usesOnly (.refl _)) (interrupt_uses hquiet)
          (m.startRun w .outside)
        rw [hx] at hs hkept
        cases hs
        have hback : CameBack [] [⟨0, .outside⟩] ((y.within ((m.startRun w .outside).context.moved u g)).proceed .next) := by
          refine ⟨?_, hruns, hkept.trans hi⟩
          have hlen := congrArg List.length (map_word_moveParent u (m.startRun w .outside).frames)
          rw [List.length_map, List.length_map, hframes] at hlen
          refine List.length_eq_zero_iff.1 ?_
          show (moveParent u (m.startRun w .outside).frames).tail.length = 0
          rw [List.length_tail, hframes, hlen]
          rfl
        cases hg with
        | refl => exact .inr hback
        | step hs' => cases hback.ended.symm.trans hs'
  refine ⟨fun {n x q} hg hq => ?_, fun {n x y} hg hs => ?_⟩
  · rcases hstates hg with rfl | h
    · refine ⟨by simp [nesting, hframes], fun hacts => ?_⟩
      obtain rfl : p = q :=
        Option.some.inj ((primitive?_eq hruns hframes (by simp [hframes]) hi hc').symm.trans hq)
      cases hp.symm.trans hacts
    · rw [primitive?, h.runs, h.frames] at hq
      cases hq
  · rcases hstates hg with rfl | h
    · rw [hstep] at hs
      exact absurd hs (settle_ne_ended _ _)
    · cases h.ended.symm.trans hs
      exact h.calm

/-! ## A word that only calls another one -/

theorem atop_nil (z : Machine) (g : Debugger) : z.atop ⟨[], [], g⟩ = { z with debugger := g } := by
  have hlift : z.runs.map (Run.lift 0) = z.runs := List.map_id _
  simp [atop, within, hlift]

section Single

variable (hu : Unheard w m) (hv : Frozen v (m.startRun w .outside))
  (hbody : (m.heap.word v).body = #[.direct .docol, .call w])
include hu

theorem Unheard.contained : Contained ⟨[], [], m.debugger⟩ (m.startRun w .outside) := by
  intro n z g q hg hq hacts
  have hlen := (hu.running (p := q) hg hq).2 hacts
  rwa [show z.atop (Context.seen ⟨[], [], m.debugger⟩ g) = { z with debugger := g } from atop_nil z g]
    at hlen

include hv hbody

theorem Unheard.indifferent :
    Indifferent ⟨[], [], m.debugger⟩ ⟨[⟨v, 2⟩], [], m.debugger⟩ (m.startRun w .outside) := by
  intro n z g q hg hq
  have hx : z.atop (Context.seen ⟨[], [], m.debugger⟩ g) = { z with debugger := g } := atop_nil z g
  obtain ⟨hfrozen, hkept⟩ := hv.goes hg
  have hmem := (hu.running (p := q) hg hq).1
  rw [hx] at hfrozen hkept hmem
  have hword : (z.heap.word v).body = #[.direct .docol, .call w] := hkept.trans hbody
  refine sameAnswers_of_held (fun r hr => ?_) hfrozen.last q
  have hr : r = .word w := by simpa [Word.refs, hword, Elem.refs] using hr
  subst hr
  obtain ⟨f, hf, rfl⟩ := List.mem_map.1 (hmem : w ∈ z.frames.map Frame.word)
  refine ⟨⟨_, rfl⟩, ?_⟩
  rw [atop_nil]
  exact frame_mem_roots hf

/-- **A word that only calls another one does what that one does.** -/
theorem Unheard.single_call_alike (hframes : m.frames = []) (hruns : m.runs = [])
    (hi : m.interrupt = false) (r : EStateM.Result Error Machine Unit) :
    (∃ fuel, (m.execute fuel v).map observed = some r) ↔
      ∃ fuel, (m.execute fuel w).map observed = some r := by
  have hcar : Carries v [.direct .docol, .call w] m := ⟨by rw [hbody], hv.code, hi⟩
  have hget : [Elem.direct .docol, .call w][1]? = some (.call w) := rfl
  have hback : ∀ {fuel q}, m.execute fuel w = some q →
      ∃ fuel q', m.execute fuel v = some q' ∧ observed q' = observed q := by
    intro fuel q hq
    have halone := call_as_alone hframes hruns hu.contained (hu.indifferent hv hbody) hcar hget hq m.debugger
    cases q with
    | error e y =>
      obtain ⟨n, d, hs⟩ := halone
      exact ⟨n, _, hs, rfl⟩
    | ok _ y =>
      obtain ⟨n, d, hg⟩ := halone
      obtain ⟨k, x, -, hgo, hend⟩ := steps_eq_some hq
      have hstep : x.step = .ended y := by
        rcases hend with ⟨y', hs, he⟩ | ⟨_, _, -, he⟩
        · cases he
          exact hs
        · cases he
      have hy : Carries v [.direct .docol, .call w] y := by
        obtain ⟨hx, hbody₁⟩ := hv.goes hgo
        obtain ⟨hfrozen, hbody₂⟩ := hx.step
        rw [hstep] at hfrozen hbody₂
        have hkept : (y.heap.word v).body = _ := (hbody₂.trans hbody₁).trans hbody
        exact ⟨by rw [hkept], hfrozen.code, hu.calm hgo hstep⟩
      have hlast : (y.inside v (1 + 1) d).step = .running (y.back d) := step_end hy d
      refine ⟨n + (0 + 1 + 1), .ok () { y with debugger := d }, ?_, rfl⟩
      show steps _ (m.inside v 1 m.debugger) = _
      rw [steps_of_goes hg, steps_succ_of_running hlast, steps, step_back]
  constructor
  · rintro ⟨fuel, hr⟩
    obtain ⟨q, hq, rfl⟩ := Option.map_eq_some_iff.1 hr
    obtain ⟨fuel', q', hq'⟩ := call_ends_alone hframes hruns hu.contained (hu.indifferent hv hbody)
      hcar hget hq
    obtain ⟨fuel'', q'', hq'', he⟩ := hback hq'
    obtain rfl := steps_unique hq hq''
    exact ⟨fuel', by rw [hq', Option.map_some, he]⟩
  · rintro ⟨fuel, hr⟩
    obtain ⟨q, hq, rfl⟩ := Option.map_eq_some_iff.1 hr
    obtain ⟨fuel', q', hq', he⟩ := hback hq
    exact ⟨fuel', by rw [hq', Option.map_some, he]⟩

end Single

end Machine
end ThreadedForth
