/-
  The same word under different callers.
-/
import ThreadedForth.Proofs.Answers

namespace ThreadedForth

variable {α : Type}

/-! ## Machines on top of callers -/

/-- The run, with `n` more frames below it. -/
def Run.lift (n : Nat) (r : Run) : Run :=
  { r with base := r.base + n }

/-- The context, with its debugger in another state. -/
def Context.seen (c : Context) (g : Debugger) : Context :=
  { c with debugger := g }

namespace Machine

/-- The machine on top of callers. -/
def atop (z : Machine) (c : Context) : Machine :=
  z.within ⟨z.frames ++ c.frames, z.runs.map (Run.lift c.frames.length) ++ c.runs, c.debugger⟩

/-- The running words, the innermost first. -/
def nesting (m : Machine) : List WordId :=
  m.frames.map Frame.word

/-- A machine without callers that is running a word. -/
def OwnRun (z : Machine) : Prop :=
  Inside (empty {}) .outside z

variable {z : Machine}

theorem OwnRun.runs (h : z.OwnRun) :
    ∃ Q, z.runs = Q ++ [⟨0, .outside⟩] ∧ Nested 0 z.frames.length Q :=
  Inside.runs h

theorem atop_startRun (z : Machine) (w : WordId) (pending : Pending) (c : Context) :
    (z.atop c).startRun w pending = (z.startRun w pending).atop c := by
  simp [atop, startRun, enter, within, Run.lift]

theorem atop_popFrame (hz : z.frames ≠ []) (c : Context) :
    (z.atop c).popFrame = z.popFrame.atop c := by
  simp [atop, popFrame, within, List.tail_append_of_ne_nil hz]

theorem atop_truncateFrames (z : Machine) (n : Nat) (rs : List Run) (c : Context) :
    { (z.atop c).truncateFrames (n + c.frames.length) with
      runs := rs.map (Run.lift c.frames.length) ++ c.runs } =
      ({ z.truncateFrames n with runs := rs } : Machine).atop c := by
  have hlen : (z.atop c).frames.length - (n + c.frames.length) = z.frames.length - n := by
    simp only [atop, within, List.length_append]
    omega
  simp only [truncateFrames, hlen]
  simp [atop, within, List.drop_append_of_le_length]

theorem length_atop (z : Machine) (c : Context) :
    (z.atop c).frames.length = z.frames.length + c.frames.length := by
  simp [atop, within]

theorem atop_proceed (hz : z.frames ≠ []) (hr : z.runs ≠ []) (flow : Flow) (c : Context) :
    (z.atop c).proceed flow = (z.proceed flow).atop c := by
  cases flow with
  | next => exact atop_popFrame hz c
  | call w =>
    simp only [proceed, atop_popFrame hz]
    rfl
  | nest w pending => exact atop_startRun z w pending c
  | leave =>
    obtain ⟨q, rs, hr⟩ := List.exists_cons_of_ne_nil hr
    have hbase : (z.atop c).runBase = z.runBase + c.frames.length := by
      simp [runBase, atop, within, hr, Run.lift]
    have hback : (z.atop c).popFrame.isBackAt (z.atop c).runBase = z.popFrame.isBackAt z.runBase := by
      rw [Bool.eq_iff_iff, isBackAt_iff, isBackAt_iff, hbase, atop_popFrame hz, length_atop]
      omega
    simp only [proceed, hback]
    split
    · exact atop_popFrame hz c
    · rename_i hb
      rw [atop_popFrame hz]
      refine atop_popFrame (fun h => hb (isBackAt_iff.2 ?_)) c
      simp [h]

end Machine

theorem Blind.atop {act : M α} (h : Blind act) (z : Machine) (c : Context) :
    act (z.atop c) = Machine.alter (·.atop c) (act z) := by
  have hc := h.context_eq z
  have hatop : ∀ s : Machine, s.context = z.context → s.within
      ⟨z.frames ++ c.frames, z.runs.map (Run.lift c.frames.length) ++ c.runs, c.debugger⟩ =
        s.atop c := by
    intro s hs
    rw [show z.frames = s.frames from (congrArg Context.frames hs).symm,
      show z.runs = s.runs from (congrArg Context.runs hs).symm]
    rfl
  show act (z.within _) = _
  rw [h]
  cases hr : act z with
  | ok y s =>
    rw [hr] at hc
    exact congrArg (EStateM.Result.ok y) (hatop s hc)
  | error e s =>
    rw [hr] at hc
    exact congrArg (EStateM.Result.error e) (hatop s hc)

/-! ## One step -/

/-- What a step makes of the words that a run has of its own: some of them end, or a composed word
    or a primitive that may start a nested run calls a word, or the innermost one gives way to
    another. -/
inductive Shift (h : Heap) : List WordId → List WordId → Prop
  | back (ws : List WordId) (k : Nat) : Shift h ws (ws.drop k)
  | call {v w : WordId} {ws : List WordId}
    (hv : (h.word v).code = .ok .docol ∨
      ∃ p, (h.word v).code = .ok (.native p) ∧ p.nests = true) : Shift h (v :: ws) (w :: v :: ws)
  | replace {v w : WordId} {ws : List WordId}
    (hv : (∃ entry, (h.word v).code = .ok (.indirect w entry)) ∨
      ∃ p, (h.word v).code = .ok (.native p) ∧ p.nests = false) : Shift h (v :: ws) (w :: ws)

namespace Progress

/-- The machine after a step, on top of callers. -/
def atop (c : Context) : Progress → Progress
  | running z => .running (z.atop c)
  | ended z => .ended (z.atop c)
  | failed e z => .failed e (z.atop c)

/-- A step leaves a run going on, or the run is over and has nothing left of its own. -/
def Stays (z : Machine) : Progress → Prop
  | running z' => z'.OwnRun ∧ Shift z.heap z.nesting z'.nesting
  | ended z' => z'.frames = [] ∧ z'.runs = []
  | failed _ z' => z'.frames = [] ∧ z'.runs = []

end Progress

/-- Two machines have taken the same step, apart from their callers. -/
def Abreast (z : Machine) (c d : Context) (x y : Progress) : Prop :=
  ∃ (p : Progress) (g g' : Debugger), x = p.atop (c.seen g) ∧ y = p.atop (d.seen g') ∧ p.Stays z

namespace Machine

variable {z : Machine}

theorem nesting_of_unwind {e : Error} {z' : Machine} {rs : List Run}
    (h : unwind e z rs = .running z') : ∃ k, z'.nesting = z.nesting.drop k := by
  induction rs generalizing e z with
  | nil => cases h
  | cons r rs ih =>
    have hcut : nesting { z.truncateFrames r.base with runs := rs } =
        z.nesting.drop (z.frames.length - r.base) := by
      simp [nesting, truncateFrames]
    have hrest : ∀ {e : Error} {y : Machine},
        y.nesting = nesting { z.truncateFrames r.base with runs := rs } →
        unwind e y rs = .running z' → ∃ k, z'.nesting = z.nesting.drop k := by
      intro e y hy h
      obtain ⟨k, hk⟩ := ih h
      exact ⟨z.frames.length - r.base + k, by rw [hk, hy, hcut, List.drop_drop]⟩
    unfold unwind at h
    cases hp : r.pending with
    | outside => simp [hp] at h
    | handler depth after =>
      simp only [hp] at h
      exact hrest rfl h
    | run =>
      simp only [hp] at h
      exact hrest rfl h
    | attempt =>
      simp only [hp] at h
      have hb := (M.pushNew_blind (.text e.message)).context_eq
        { z.truncateFrames r.base with runs := rs }
      cases hq : M.pushNew (.text e.message) { z.truncateFrames r.base with runs := rs } with
      | ok _ y =>
        simp only [hq, Progress.running.injEq] at h
        rw [hq] at hb
        have hy : y.frames = _ := congrArg Context.frames hb
        subst h
        refine ⟨z.frames.length - r.base + 1, ?_⟩
        rw [← List.drop_drop, ← hcut, List.drop_one]
        simp [nesting, proceed, popFrame, hy]
        rfl
      | error e' y =>
        simp only [hq] at h
        rw [hq] at hb
        exact hrest (congrArg (fun k => k.frames.map Frame.word) hb) h

/-- An error takes the same way out on top of callers. -/
theorem unwind_atop (e : Error) (Q : List Run) (z : Machine) (hn : Nested 0 z.frames.length Q)
    (c : Context) :
    unwind e (z.atop c) ((Q ++ [(⟨0, .outside⟩ : Run)]).map (Run.lift c.frames.length) ++ c.runs) =
      (unwind e z (Q ++ [⟨0, .outside⟩])).atop c := by
  induction Q generalizing e z with
  | nil =>
    have hcut := atop_truncateFrames z 0 [] c
    simp only [List.nil_append, List.map_cons, List.map_nil, List.cons_append, unwind]
    exact congrArg (Progress.failed e) hcut
  | cons q Q ih =>
    obtain ⟨h₁, h₂, h₃, h₄⟩ := hn
    generalize hy : ({ z.truncateFrames q.base with runs := Q ++ [⟨0, .outside⟩] } : Machine) = y
    have hlen : y.frames.length = q.base := by
      subst hy
      simp [truncateFrames]
      omega
    have hcut := atop_truncateFrames z q.base (Q ++ [⟨0, .outside⟩]) c
    have hrest : ∀ (e : Error) (s : Machine), s.frames.length = q.base →
        unwind e (s.atop c) ((Q ++ [(⟨0, .outside⟩ : Run)]).map (Run.lift c.frames.length) ++ c.runs) =
          (unwind e s (Q ++ [⟨0, .outside⟩])).atop c :=
      fun e s hs => ih e s (h₄.mono (by omega))
    rw [hy] at hcut
    simp only [List.cons_append, List.map_cons]
    rw [unwind, unwind]
    rw [show (Run.lift c.frames.length q).base = q.base + c.frames.length from rfl, hcut, hy,
      show (Run.lift c.frames.length q).pending = q.pending from rfl]
    cases hp : q.pending with
    | outside => exact absurd hp h₃
    | handler depth after => exact hrest e y hlen
    | run => exact hrest e y hlen
    | attempt =>
      have hb := (M.pushNew_blind (.text e.message)).context_eq y
      simp only [(M.pushNew_blind (.text e.message)).atop y c]
      cases hq : M.pushNew (.text e.message) y with
      | ok _ s =>
        rw [hq] at hb
        have hs : s.frames = y.frames := congrArg Context.frames hb
        refine congrArg Progress.running (atop_popFrame (fun h => ?_) c)
        rw [hs] at h
        rw [h] at hlen
        simp at hlen
        omega
      | error e' s =>
        rw [hq] at hb
        have hs : s.frames = y.frames := congrArg Context.frames hb
        exact hrest e' s (by rw [hs, hlen])

/-- An error of two machines. -/
theorem OwnRun.fail (h : z.OwnRun) {z₀ : Machine} (hz : z.nesting = z₀.nesting) (e : Error)
    (c d : Context) (g g' : Debugger) :
    Abreast z₀ c d ((z.atop (c.seen g)).fail e) ((z.atop (d.seen g')).fail e) := by
  obtain ⟨Q, hr, hn⟩ := h.runs
  have hatop : ∀ k : Context, (z.atop k).fail e = (z.fail e).atop k := by
    intro k
    show unwind e (z.atop k) (z.runs.map (Run.lift k.frames.length) ++ k.runs) = (unwind e z z.runs).atop k
    rw [hr]
    exact unwind_atop e Q z hn k
  refine ⟨z.fail e, g, g', hatop _, hatop _, ?_⟩
  have ho := Inside.fail h e
  cases hf : z.fail e with
  | running z' =>
    rw [hf] at ho
    obtain ⟨k, hk⟩ := nesting_of_unwind hf
    refine ⟨ho.outside, ?_⟩
    rw [hk, hz]
    exact .back _ k
  | ended z' =>
    rw [hf] at ho
    exact ⟨ho.outside.eq_nil rfl, ho.outside.runs⟩
  | failed e' z' =>
    rw [hf] at ho
    exact ⟨ho.outside.eq_nil rfl, ho.outside.runs⟩

/-- The frames of a run that is about to take a step. -/
theorem OwnRun.active (h : z.OwnRun) (hb : z.runBase < z.frames.length) :
    Active (empty {}) .outside z :=
  Inside.active h hb

theorem moveParent_append {u : Option Nat} {fs : List Frame} (hu : u = none ∨ 2 ≤ fs.length)
    (gs : List Frame) : moveParent u (fs ++ gs) = moveParent u fs ++ gs := by
  rcases hu with rfl | hu
  · simp
  · rcases fs with _ | ⟨f, _ | ⟨p, fs⟩⟩
    · simp at hu
    · simp at hu
    · cases u <;> rfl

/-- A primitive of two machines. -/
theorem OwnRun.native (h : z.OwnRun) (hb : z.runBase < z.frames.length) {f : Frame}
    {rest : List Frame} (hf : z.frames = f :: rest) {p : Primitive}
    (hc : (z.heap.word f.word).code = .ok (.native p)) {c d : Context}
    (hp : p.actsOnCaller = true → 2 ≤ z.frames.length) (ha : p.SameAnswers (z.atop c) (z.atop d))
    (g g' : Debugger) :
    Abreast z c d (settle (p.run (z.atop (c.seen g)))) (settle (p.run (z.atop (d.seen g')))) := by
  have hactive := h.active hb
  have hone : 1 ≤ z.frames.length := by simp [hf]
  have hlen : 1 ≤ min 2 z.frames.length := by omega
  have htake : ∀ k : Context, (z.atop k).frames.take (min 2 z.frames.length) =
      z.frames.take (min 2 z.frames.length) :=
    fun k => List.take_append_of_le_length (Nat.min_le_right _ _)
  obtain ⟨r, u, k, k', hu, hx, hy⟩ := p.run_agrees (m := z) (c := (z.atop (c.seen g)).context)
    (d := (z.atop (d.seen g')).context) hlen (fun h => by have := hp h; omega)
    ((htake _).trans (htake _).symm) ⟨ha.last, ha.count, ha.address⟩
  have hx : p.run (z.atop (c.seen g)) = _ := hx
  have hy : p.run (z.atop (d.seen g')) = _ := hy
  have hmove : u = none ∨ 2 ≤ z.frames.length := by
    by_cases h2 : 2 ≤ z.frames.length
    · exact .inr h2
    · exact .inl (hu (by omega))
  -- What the primitive makes of the machine without callers.
  have hatop : ∀ (s : Machine) (b : Context) (j j' : Debugger),
      s.within ((z.atop (b.seen j)).context.moved u j') =
        (s.within (z.context.moved u z.debugger)).atop (b.seen j') := by
    intro s b j j'
    have hf : moveParent u (z.frames ++ b.frames) = moveParent u z.frames ++ b.frames :=
      moveParent_append hmove _
    simp only [atop, within, context, Context.moved, Context.seen, hf]
  have hown : ∀ s : Machine,
      Active (empty {}) .outside (s.within (z.context.moved u z.debugger)) :=
    fun s => hactive.moved (u := u) rfl rfl
  have hnest : ∀ s : Machine, (s.within (z.context.moved u z.debugger)).nesting = z.nesting :=
    fun s => map_word_moveParent u z.frames
  cases r with
  | error e s =>
    rw [hx, hy]
    show Abreast z c d (Machine.fail e (s.within _)) (Machine.fail e (s.within _))
    rw [hatop, hatop]
    exact OwnRun.fail (hown s).inside (hnest s) e c d k k'
  | ok flow s =>
    have hallowed : flow.Allowed p.actsOnCaller p.nests := p.run_flow _ _ _ hx
    rw [hx, hy]
    show Abreast z c d (.running (proceed (s.within _) flow)) (.running (proceed (s.within _) flow))
    rw [hatop, hatop]
    have hs := hown s
    have hws := hnest s
    generalize s.within (z.context.moved u z.debugger) = y at hs hws
    have hframes : y.frames ≠ [] := by
      intro hnil
      rw [nesting, hnil] at hws
      simp [nesting, hf] at hws
    have hruns : y.runs ≠ [] := by
      obtain ⟨Q, hr, -⟩ := hs.runs
      simp [hr]
    refine ⟨.running (y.proceed flow), k, k', congrArg _ (atop_proceed hframes hruns flow _),
      congrArg _ (atop_proceed hframes hruns flow _), hs.proceed hallowed, ?_⟩
    have hz : z.nesting = f.word :: rest.map Frame.word := by simp [nesting, hf]
    have hpop : y.popFrame.nesting = z.nesting.drop 1 := by
      rw [← hws]
      simp [nesting, popFrame]
    cases flow with
    | next =>
      show Shift _ _ y.popFrame.nesting
      rw [hpop]
      exact .back _ 1
    | leave =>
      simp only [proceed]
      split
      · rw [hpop]
        exact .back _ 1
      · have hpop₂ : y.popFrame.popFrame.nesting = z.nesting.drop 2 := by
          rw [← hws]
          simp only [nesting, popFrame, ← List.drop_one, List.drop_drop, List.map_drop]
        rw [hpop₂]
        exact .back _ 2
    | call w =>
      have hcall : (y.proceed (.call w)).nesting = w :: z.nesting.drop 1 := by
        rw [← hpop]
        rfl
      rw [hcall, hz]
      exact .replace (.inr ⟨p, hc, hallowed⟩)
    | nest w pending =>
      have hcall : (y.proceed (.nest w pending)).nesting = w :: z.nesting := by
        rw [← hws]
        rfl
      rw [hcall, hz]
      exact .call (.inr ⟨p, hc, hallowed.1⟩)

theorem stepElement_atop {f : Frame} {rest : List Frame} (h : z.OwnRun)
    (hb : z.runBase < z.frames.length) (hf : z.frames = f :: rest)
    (hc : (z.heap.word f.word).code = .ok .docol) (c d : Context) (g g' : Debugger) :
    Abreast z c d ((z.atop (c.seen g)).stepElement f (rest ++ c.frames))
      ((z.atop (d.seen g')).stepElement f (rest ++ d.frames)) := by
  have hactive := h.active hb
  have hz : z.nesting = f.word :: rest.map Frame.word := by simp [nesting, hf]
  have hne : z.frames ≠ [] := by simp [hf]
  -- The debuggers may see different depths.
  have hpass : ∀ (b : Context) (j : Debugger), ∃ j', (z.atop (b.seen j)).pass f (rest ++ b.frames) =
      (z.pass f rest).atop (b.seen j') := fun b j => ⟨_, rfl⟩
  have hown : Active (empty {}) .outside (z.pass f rest) :=
    hactive.replace (g := { f with ip := f.ip + 1 }) (by rw [hf]; rfl) rfl
  have hnest : (z.pass f rest).nesting = z.nesting := by simp [nesting, pass, hf]
  obtain ⟨k, hk⟩ := hpass c g
  obtain ⟨k', hk'⟩ := hpass d g'
  have henter : ∀ w, Abreast z c d (.running (((z.pass f rest).atop (c.seen k)).enter w))
      (.running (((z.pass f rest).atop (d.seen k')).enter w)) := by
    intro w
    refine ⟨.running ((z.pass f rest).enter w), k, k', rfl, rfl, hown.inside.enter w, ?_⟩
    have hcall : ((z.pass f rest).enter w).nesting = w :: z.nesting := by
      rw [← hnest]
      rfl
    rw [hcall, hz]
    exact .call (.inl hc)
  have hheap : ∀ b : Context, (z.atop b).heap = z.heap := fun _ => rfl
  rw [stepElement_eq, stepElement_eq, hheap, hheap, hk, hk']
  cases (z.heap.word f.word).body[f.ip]? with
  | none =>
    refine ⟨.running z.popFrame, g, g', congrArg _ (atop_popFrame hne _),
      congrArg _ (atop_popFrame hne _), hactive.popFrame, ?_⟩
    have hpop : z.popFrame.nesting = z.nesting.drop 1 := by simp [nesting, popFrame]
    rw [hpop]
    exact .back _ 1
  | some el =>
    cases el with
    | call w => exact henter w
    | recurse => exact henter f.word
    | direct _ => exact OwnRun.fail hown.inside hnest _ c d k k'
    | lit _ => exact OwnRun.fail hown.inside hnest _ c d k k'

/-- A primitive of two machines goes on after a nested run. -/
theorem resume_atop {y : Machine} (h : Active (empty {}) .outside y) (hn : y.nesting = z.nesting)
    (pending : Pending) (c d : Context) (g g' : Debugger) :
    Abreast z c d (settle (resume pending (y.atop (c.seen g))))
      (settle (resume pending (y.atop (d.seen g')))) := by
  have hb := (resume_blind pending).context_eq y
  have hown : ∀ s : Machine, s.context = y.context → Active (empty {}) .outside s := fun s hs =>
    h.moved (u := none) (by rw [moveParent_none]; exact congrArg Context.frames hs)
      (congrArg Context.runs hs)
  have hnest : ∀ s : Machine, s.context = y.context → s.nesting = z.nesting := fun s hs =>
    (congrArg (fun k => k.frames.map Frame.word) hs).trans hn
  rw [(resume_blind _).atop, (resume_blind _).atop]
  cases hs : resume pending y with
  | ok flow s =>
    obtain rfl := resume_flow _ _ _ _ hs
    rw [hs] at hb
    have hne : s.frames ≠ [] := by
      obtain ⟨f, fs, _, hf, -⟩ := (hown s hb).frames
      simp [hf]
    refine ⟨.running s.popFrame, g, g', congrArg _ (atop_popFrame hne _),
      congrArg _ (atop_popFrame hne _), (hown s hb).popFrame, ?_⟩
    have hpop : s.popFrame.nesting = z.nesting.drop 1 := by
      rw [← hnest s hb]
      simp [nesting, popFrame]
    rw [hpop]
    exact .back _ 1
  | error e s =>
    rw [hs] at hb
    exact OwnRun.fail (hown s hb).inside (hnest s hb) e c d g g'

/-- The innermost frame of two machines takes a step. -/
theorem OwnRun.stepFrame (h : z.OwnRun) (hb : z.runBase < z.frames.length) {f : Frame}
    {rest : List Frame} (hf : z.frames = f :: rest) {c d : Context}
    (hp : ∀ p, (z.heap.word f.word).code = .ok (.native p) →
      (p.actsOnCaller = true → 2 ≤ z.frames.length) ∧ p.SameAnswers (z.atop c) (z.atop d))
    (g g' : Debugger) :
    Abreast z c d ((z.atop (c.seen g)).stepFrame f (rest ++ c.frames))
      ((z.atop (d.seen g')).stepFrame f (rest ++ d.frames)) := by
  have hheap : ∀ b : Context, (z.atop b).heap = z.heap := fun _ => rfl
  unfold Machine.stepFrame
  simp only [hheap]
  cases hc : (z.heap.word f.word).code with
  | error e => exact h.fail rfl e c d g g'
  | ok code =>
    cases code with
    | docol => exact stepElement_atop h hb hf hc c d g g'
    | native p =>
      obtain ⟨hacts, hans⟩ := hp p hc
      exact h.native hb hf hc hacts hans g g'
    | indirect body entry =>
      have hctx := (M.push_blind (.ptr (z.heap.pointer f.word 1))).context_eq z
      simp only [(M.push_blind _).atop]
      cases hs : M.push (.ptr (z.heap.pointer f.word 1)) z with
      | ok _ s =>
        rw [hs] at hctx
        have hruns : s.runs = z.runs := congrArg Context.runs hctx
        have hown : Active (empty {}) .outside { s with frames := ⟨body, entry⟩ :: rest } :=
          (h.active hb).replace (g := ⟨body, entry⟩) (by rw [hf]; rfl) hruns
        refine ⟨.running { s with frames := ⟨body, entry⟩ :: rest }, g, g', rfl, rfl, hown.inside, ?_⟩
        have hz : z.nesting = f.word :: rest.map Frame.word := by simp [nesting, hf]
        rw [hz]
        exact .replace (.inl ⟨entry, hc⟩)
      | error e s =>
        rw [hs] at hctx
        have hown : Active (empty {}) .outside s :=
          (h.active hb).moved (u := none)
            (by rw [moveParent_none]; exact congrArg Context.frames hctx)
            (congrArg Context.runs hctx)
        exact OwnRun.fail hown.inside (congrArg (fun k => k.frames.map Frame.word) hctx) e c d g g'

/-- **One step under two callers.**  Two machines that have the same run of their own on top of
    different callers take the same step, if no primitive acts on a word outside of the run, and
    the callers make no difference to the answers that a primitive gets. -/
theorem OwnRun.step (h : z.OwnRun) {c d : Context}
    (hp : ∀ p, (z.atop c).primitive? = some p → (p.actsOnCaller = true → 2 ≤ z.frames.length) ∧
      p.SameAnswers (z.atop c) (z.atop d)) (g g' : Debugger) :
    Abreast z c d (z.atop (c.seen g)).step (z.atop (d.seen g')).step := by
  obtain ⟨Q, hr, hn⟩ := h.runs
  obtain ⟨q, rs, hq⟩ : ∃ q rs, z.runs = q :: rs := by
    rw [hr]
    exact List.exists_cons_of_ne_nil (by simp)
  have hruns : ∀ b : Context, (z.atop b).runs =
      q.lift b.frames.length :: (rs.map (Run.lift b.frames.length) ++ b.runs) := by
    intro b
    show z.runs.map _ ++ _ = _
    rw [hq]
    rfl
  by_cases hback : z.frames.length ≤ q.base
  · have hlen : ∀ b : Context, (z.atop b).frames.length ≤ (q.lift b.frames.length).base := by
      intro b
      rw [length_atop]
      exact Nat.add_le_add_right hback _
    rw [step_of_back (hruns _) (hlen _), step_of_back (hruns _) (hlen _)]
    cases Q with
    | nil =>
      rw [hr, List.nil_append] at hq
      cases hq
      refine ⟨.ended { z with runs := [] }, g, g', rfl, rfl, ?_, rfl⟩
      exact List.length_eq_zero_iff.1 (Nat.le_zero.1 hback)
    | cons q' Q =>
      rw [hr, List.cons_append] at hq
      obtain ⟨rfl, rfl⟩ := List.cons.inj hq
      obtain ⟨h₁, h₂, h₃, h₄⟩ := hn
      obtain ⟨f, rest, hf⟩ := List.exists_cons_of_length_pos (Nat.lt_of_lt_of_le h₂ h₁)
      have hactive : Active (empty {}) .outside { z with runs := Q ++ [⟨0, .outside⟩] } :=
        ⟨⟨f, rest, [], by simpa using hf, .refl _⟩, Q, rfl,
          h₄.mono (show q'.base - 1 ≤ z.frames.length - 1 by omega)⟩
      have hset := resume_atop (z := z) hactive rfl q'.pending c d g g'
      have hlift : ∀ k, (q'.lift k).pending = q'.pending := fun _ => rfl
      cases hpend : q'.pending with
      | outside => exact absurd hpend h₃
      | _ =>
        simp only [hlift, hpend]
        rw [hpend] at hset
        exact hset
  · have hlt : q.base < z.frames.length := Nat.lt_of_not_le hback
    have hlt' : ∀ b : Context, (q.lift b.frames.length).base < (z.atop b).frames.length := by
      intro b
      rw [length_atop]
      exact Nat.add_lt_add_right hlt _
    obtain ⟨f, rest, hf⟩ := List.exists_cons_of_length_pos (Nat.zero_lt_of_lt hlt)
    have hframes : ∀ b : Context, (z.atop b).frames = f :: (rest ++ b.frames) := by
      intro b
      show z.frames ++ b.frames = _
      rw [hf]
      rfl
    cases hi : z.interrupt with
    | true =>
      rw [step_of_interrupt (hruns _) (hlt' _) hi, step_of_interrupt (hruns _) (hlt' _) hi]
      have hin : Inside (empty {}) .outside z := h
      have hown : OwnRun { z with interrupt := false } := ⟨hin.frames, hin.runs⟩
      exact hown.fail rfl _ c d g g'
    | false =>
      rw [step_of_frame (hruns _) (hframes _) (hlt' _) hi,
        step_of_frame (hruns _) (hframes _) (hlt' _) hi]
      have hbase : z.runBase = q.base := by simp [runBase, hq]
      exact h.stepFrame (hbase ▸ hlt) hf
        (fun p hc => hp p (primitive?_eq (hruns c) (hframes c) (hlt' c) hi hc)) g g'

/-! ## Whole runs -/

/-- Two results are the same apart from the callers, who are in the end as they were. -/
def SameResult (c d : Context) :
    Option (EStateM.Result Error Machine Unit) → Option (EStateM.Result Error Machine Unit) → Prop
  | none, none => True
  | some x, some y => ∃ r g g', x = alter (·.within (c.seen g)) r ∧ y = alter (·.within (d.seen g')) r
  | _, _ => False

/-- All along a run on top of callers, no primitive acts on one of them. -/
def Contained (c : Context) (x : Machine) : Prop :=
  ∀ (n : Nat) (z : Machine) (g : Debugger) (p : Primitive), Goes n x (z.atop (c.seen g)) →
    (z.atop c).primitive? = some p → p.actsOnCaller = true → 2 ≤ z.frames.length

/-- All along a run on top of callers, other callers would make no difference to the answers that
    primitives get when they ask what is alive. -/
def Indifferent (c d : Context) (x : Machine) : Prop :=
  ∀ (n : Nat) (z : Machine) (g : Debugger) (p : Primitive), Goes n x (z.atop (c.seen g)) →
    (z.atop c).primitive? = some p → p.SameAnswers (z.atop c) (z.atop d)

theorem atop_of_nil (hf : z.frames = []) (hr : z.runs = []) (c : Context) : z.atop c = z.within c := by
  rw [atop, hf, hr]
  rfl

/-- A run does the same on top of other callers. -/
theorem OwnRun.steps (h : z.OwnRun) {c d : Context} (g g' : Debugger)
    (hc : Contained c (z.atop (c.seen g))) (hi : Indifferent c d (z.atop (c.seen g))) (fuel : Nat) :
    SameResult c d (Machine.steps fuel (z.atop (c.seen g)))
      (Machine.steps fuel (z.atop (d.seen g'))) := by
  induction fuel generalizing z g g' with
  | zero => exact trivial
  | succ fuel ih =>
    obtain ⟨p, k, k', hx, hy, hs⟩ :=
      h.step (fun p hp => ⟨hc 0 z g p (.refl _) hp, hi 0 z g p (.refl _) hp⟩) g g'
    rw [Machine.steps, Machine.steps, hx, hy]
    cases p with
    | running z' =>
      exact ih hs.1 k k' (fun n y j q hg => hc (n + 1) y j q (.step hx hg))
        fun n y j q hg => hi (n + 1) y j q (.step hx hg)
    | ended z' =>
      refine ⟨.ok () z', k, k', ?_, ?_⟩
      · exact congrArg _ (atop_of_nil hs.1 hs.2 _)
      · exact congrArg _ (atop_of_nil hs.1 hs.2 _)
    | failed e z' =>
      refine ⟨.error e z', k, k', ?_, ?_⟩
      · exact congrArg _ (atop_of_nil hs.1 hs.2 _)
      · exact congrArg _ (atop_of_nil hs.1 hs.2 _)

/-- What a run comes to on top of other callers, it also comes to on top of the first ones. -/
theorem OwnRun.goes (h : z.OwnRun) {c d : Context} {g g' : Debugger}
    (hc : Contained c (z.atop (c.seen g))) (hi : Indifferent c d (z.atop (c.seen g))) {n : Nat}
    {y : Machine} (hg : Goes n (z.atop (d.seen g')) y) :
    ∃ (z' : Machine) (k k' : Debugger), z'.OwnRun ∧ Goes n (z.atop (c.seen g)) (z'.atop (c.seen k)) ∧
      y = z'.atop (d.seen k') := by
  induction n generalizing z g g' with
  | zero =>
    cases hg
    exact ⟨z, g, g', h, .refl _, rfl⟩
  | succ n ih =>
    obtain ⟨p, k, k', hx, hy, hs⟩ :=
      h.step (fun p hp => ⟨hc 0 z g p (.refl _) hp, hi 0 z g p (.refl _) hp⟩) g g'
    cases hg with
    | step hstep hg =>
      rw [hstep] at hy
      cases p with
      | ended => cases hy
      | failed => cases hy
      | running z₁ =>
        cases hy
        obtain ⟨z', j, j', hown, hgo, rfl⟩ := ih hs.1
          (fun n y j q hg => hc (n + 1) y j q (.step hx hg))
          (fun n y j q hg => hi (n + 1) y j q (.step hx hg)) hg
        exact ⟨z', j, j', hown, .step hx hgo, rfl⟩

/-- A word that is started has a run of its own. -/
theorem within_startRun (m : Machine) (w : WordId) (c : Context) :
    (m.within c).startRun w .outside =
      (({ m with frames := [], runs := [] } : Machine).startRun w .outside).atop c :=
  (atop_startRun { m with frames := [], runs := [] } w .outside c).symm ▸ rfl

theorem OwnRun.start (m : Machine) (w : WordId) :
    (({ m with frames := [], runs := [] } : Machine).startRun w .outside).OwnRun :=
  ⟨⟨[⟨w, 1⟩], [], rfl, .refl _⟩, [], rfl, Nat.zero_le _⟩

/-- **Executing a word under two callers.** -/
theorem execute_within (m : Machine) (w : WordId) {c d : Context}
    (hc : Contained c ((m.within c).startRun w .outside))
    (hi : Indifferent c d ((m.within c).startRun w .outside)) (fuel : Nat) :
    SameResult c d ((m.within c).execute fuel w) ((m.within d).execute fuel w) := by
  rw [within_startRun] at hc hi
  rw [execute, execute, within_startRun, within_startRun]
  exact (OwnRun.start m w).steps c.debugger d.debugger hc hi fuel

end Machine
end ThreadedForth
