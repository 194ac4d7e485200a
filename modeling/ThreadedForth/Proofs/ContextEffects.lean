/-
  What primitives see of the words around them, and do to them.
-/
import ThreadedForth.Proofs.Context

namespace ThreadedForth

variable {α β : Type} {n : Nat} {s : Bool}

/-- The frames with the word that called the innermost one moved to another position. -/
def moveParent : Option Nat → List Frame → List Frame
  | some ip, f :: p :: rest => f :: { p with ip } :: rest
  | _, fs => fs

@[simp] theorem moveParent_none (fs : List Frame) : moveParent none fs = fs := by
  unfold moveParent; split <;> simp_all

@[simp] theorem length_moveParent (u : Option Nat) (fs : List Frame) :
    (moveParent u fs).length = fs.length := by
  unfold moveParent; split <;> simp

@[simp] theorem map_word_moveParent (u : Option Nat) (fs : List Frame) :
    (moveParent u fs).map Frame.word = fs.map Frame.word := by
  unfold moveParent; split <;> simp

theorem moveParent_moveParent (u v : Option Nat) (fs : List Frame) :
    moveParent v (moveParent u fs) = moveParent (v.or u) fs := by
  rcases u with _ | u <;> rcases v with _ | v <;> rcases fs with _ | ⟨f, _ | ⟨p, rest⟩⟩ <;> rfl

theorem take_moveParent (u : Option Nat) (k : Nat) (fs : List Frame) (hk : 2 ≤ k) :
    (moveParent u fs).take k = moveParent u (fs.take k) := by
  obtain ⟨k, rfl⟩ : ∃ j, k = j + 2 := ⟨k - 2, by omega⟩
  rcases u with _ | u <;> rcases fs with _ | ⟨f, _ | ⟨p, rest⟩⟩ <;> rfl

namespace Context

/-- The context after its debugger has changed and the word that called the innermost one has
    been moved. -/
def moved (c : Context) (u : Option Nat) (d : Debugger) : Context :=
  ⟨moveParent u c.frames, c.runs, d⟩

theorem moved_moved (c : Context) (u v : Option Nat) (g k : Debugger) :
    (c.moved u g).moved v k = c.moved (v.or u) k := by
  simp only [moved, moveParent_moveParent]

/-- Two contexts with the same `n` innermost frames; if `s` is true, they also keep the same words
    alive. -/
structure Alike (c : Context) (s : Bool) (n : Nat) (d : Context) : Prop where
  top : c.frames.take n = d.frames.take n
  words : s = true → c.frames.map Frame.word = d.frames.map Frame.word
  refs : s = true → (c.runs.flatMap fun r => Machine.pendingRefs r.pending) =
    d.runs.flatMap fun r => Machine.pendingRefs r.pending

theorem Alike.refl (s : Bool) (n : Nat) (c : Context) : c.Alike s n c :=
  ⟨rfl, fun _ => rfl, fun _ => rfl⟩

theorem Alike.moved {c d : Context} (h : c.Alike s n d) {u : Option Nat} (hu : n < 2 → u = none)
    (g g' : Debugger) : (c.moved u g).Alike s n (d.moved u g') := by
  refine ⟨?_, ?_, h.refs⟩
  · by_cases hn : n < 2
    · rw [hu hn]
      simpa [Context.moved] using h.top
    · simp only [Context.moved, take_moveParent u n _ (by omega), h.top]
  · intro hs
    simpa [Context.moved] using h.words hs

end Context

namespace Machine

theorem roots_within {m : Machine} {c d : Context} (h : c.Alike true n d) :
    (m.within c).roots = (m.within d).roots := by
  have hw : (c.frames.map fun f => Ref.word f.word) = d.frames.map fun f => Ref.word f.word := by
    have := congrArg (List.map Ref.word) (h.words rfl)
    simpa only [List.map_map, Function.comp_def] using this
  simp only [roots, within, hw, h.refs rfl]

end Machine

/-! ## Computations that see little of the context -/

/-- A computation does the same to a machine in two contexts.  It leaves the runs alone, and may
    move the word that called the innermost one if the two innermost frames are looked at. -/
def Agrees (n : Nat) (act : M α) (m : Machine) (c d : Context) : Prop :=
  ∃ (r : EStateM.Result Error Machine α) (u : Option Nat) (g g' : Debugger), (n < 2 → u = none) ∧
    act (m.within c) = Machine.alter (·.within (c.moved u g)) r ∧
    act (m.within d) = Machine.alter (·.within (d.moved u g')) r

/-- A computation that does the same in contexts that have the `n` innermost frames in common, and,
    if `s` is true, keep the same words alive. -/
def Respects (s : Bool) (n : Nat) (act : M α) : Prop :=
  ∀ (m : Machine) (c d : Context), c.Alike s n d → Agrees n act m c d

theorem Blind.respects {act : M α} (h : Blind act) : Respects s n act := by
  intro m c d _
  refine ⟨act m, none, c.debugger, d.debugger, fun _ => rfl, ?_, ?_⟩
  · rw [h]; simp [Context.moved]
  · rw [h]; simp [Context.moved]

namespace Respects

theorem bind {x : M α} {f : α → M β} (hx : Respects s n x) (hf : ∀ a, Respects s n (f a)) :
    Respects s n (x >>= f) := by
  intro m c d h
  obtain ⟨r, u, g, g', hu, hc, hd⟩ := hx m c d h
  cases r with
  | error e m₁ =>
    refine ⟨.error e m₁, u, g, g', hu, ?_, ?_⟩
    · show EStateM.bind x f _ = _
      rw [EStateM.bind, hc]; rfl
    · show EStateM.bind x f _ = _
      rw [EStateM.bind, hd]; rfl
  | ok a m₁ =>
    obtain ⟨r, v, k, k', hv, hc', hd'⟩ := hf a m₁ _ _ (h.moved hu g g')
    refine ⟨r, v.or u, k, k', fun hn => by rw [hu hn, hv hn]; rfl, ?_, ?_⟩
    · show EStateM.bind x f _ = _
      rw [EStateM.bind, hc, ← Context.moved_moved c u v g k]
      exact hc'
    · show EStateM.bind x f _ = _
      rw [EStateM.bind, hd, ← Context.moved_moved d u v g' k']
      exact hd'

theorem get {f : Machine → M α}
    (h : ∀ (m : Machine) (c d : Context), c.Alike s n d → f (m.within c) = f (m.within d))
    (hf : ∀ m, Respects s n (f m)) : Respects s n (MonadState.get >>= f) := by
  intro m c d hcd
  obtain ⟨r, u, g, g', hu, hc, hd⟩ := hf (m.within c) m c d hcd
  refine ⟨r, u, g, g', hu, hc, ?_⟩
  show f (m.within d) (m.within d) = _
  rw [← h m c d hcd, hd]

theorem ite {p : Prop} [Decidable p] {x y : M α} (hx : Respects s n x) (hy : Respects s n y) :
    Respects s n (if p then x else y) := by
  split
  · exact hx
  · exact hy

/-- A computation that does not see the caller leaves the frames and the runs as they are. -/
theorem keeps {act : M α} (h : Respects s n act) (hn : n < 2) (m : Machine) :
    (Machine.after (act m)).frames = m.frames ∧ (Machine.after (act m)).runs = m.runs := by
  obtain ⟨r, u, g, _, hu, hr, _⟩ := h m m.context m.context (.refl s _ _)
  obtain rfl := hu hn
  rw [Machine.within_context] at hr
  rw [hr, Machine.after_alter]
  exact ⟨moveParent_none _, rfl⟩

end Respects

namespace M

theorem lastWith_respects (held : List Ref) : Respects true n (lastWith held) := by
  refine .get (fun m c d h => ?_) fun _ => (lift_blind _).respects
  show lift (m.compiler.last m.heap (held ++ (m.within c).roots)) = _
  rw [Machine.roots_within h]; rfl

theorem last_respects : Respects true n last := lastWith_respects []

theorem here_respects : Respects true n here := by
  refine .get (fun m c d h => ?_) fun _ => (lift_blind _).respects
  show lift (m.compiler.here m.heap (m.within c).roots) = _
  rw [Machine.roots_within h]; rfl

theorem current_respects (hn : 1 ≤ n) : Respects s n current := by
  refine .get (fun m c d h => ?_) fun m => ?_
  · obtain ⟨n, rfl⟩ : ∃ k, n = k + 1 := ⟨n - 1, by omega⟩
    have ht := h.top
    rcases c with ⟨_ | ⟨f, fs⟩, _, _⟩ <;> rcases d with ⟨_ | ⟨f', fs'⟩, _, _⟩ <;>
      simp_all [Machine.within]
  · split
    · exact (Blind.pure _).respects
    · exact (Blind.throw _).respects

theorem parent_respects (hn : 2 ≤ n) : Respects s n parent := by
  refine .get (fun m c d h => ?_) fun m => ?_
  · obtain ⟨n, rfl⟩ : ∃ k, n = k + 2 := ⟨n - 2, by omega⟩
    have ht := h.top
    rcases c with ⟨_ | ⟨f, _ | ⟨p, fs⟩⟩, _, _⟩ <;> rcases d with ⟨_ | ⟨f', _ | ⟨p', fs'⟩⟩, _, _⟩ <;>
      simp_all [Machine.within]
  · split
    · exact (Blind.pure _).respects
    · exact (Blind.throw _).respects

theorem setParentIp_eq (ip : Nat) (m : Machine) :
    setParentIp ip m = .ok () { m with frames := moveParent (some ip) m.frames } := by
  rcases m with ⟨_, _, _, _, _, _, _, _, _, _, _, _ | ⟨f, _ | ⟨p, rest⟩⟩, _, _, _, _, _, _⟩ <;> rfl

theorem setParentIp_respects (hn : 2 ≤ n) (ip : Nat) : Respects s n (setParentIp ip) := by
  intro m c d _
  refine ⟨.ok () m, some ip, c.debugger, d.debugger, fun h => by omega, ?_, ?_⟩
  · rw [setParentIp_eq]; rfl
  · rw [setParentIp_eq]; rfl

end M

/-! ## The primitives -/

theorem setLastCode_respects (c : Code) : Respects true n (setLastCode c) :=
  M.last_respects.bind fun _ => .get (fun _ _ _ _ => rfl) fun _ => (M.setHeap_blind _).respects

/-- Whether a primitive acts on the frame of the word that called it. -/
def BranchWord.actsOnCaller : BranchWord → Bool
  | enterCount maySkip => maySkip
  | unloop | index | outerIndex => false
  | _ => true

/-- Whether a primitive acts on the frame of the word that called it, or leaves that word. -/
def Primitive.actsOnCaller : Primitive → Bool
  | branch w => w.actsOnCaller
  | memory .doesRuntime | host .exit => true
  | _ => false

/-- Whether a primitive asks what is alive: the word created last, or what refers to an object. -/
def Primitive.looks : Primitive → Bool
  | memory .here | memory .comma | memory .allot | memory .does | memory .doesRuntime => true
  | defining .immediate => true
  | control .beginLoop | control .closeIf => true
  | object .refcount => true
  | _ => false

theorem MemoryWord.run_respects (w : MemoryWord) (hs : (Primitive.memory w).looks = true → s = true)
    (hn : (Primitive.memory w).actsOnCaller = true → 2 ≤ n) : Respects s n w.run := by
  cases w with
  | here =>
    obtain rfl := hs rfl
    exact M.here_respects.bind fun _ => Blind.respects <| (M.push_blind _).bind fun _ => .pure _
  | comma =>
    obtain rfl := hs rfl
    exact M.pop_blind.respects.bind fun _ => (M.lastWith_respects _).bind fun _ =>
      Blind.respects <| (addSlot_blind _ _).bind fun _ => .pure _
  | allot =>
    obtain rfl := hs rfl
    refine M.popInt_blind.respects.bind fun k => ?_
    have hb : Respects true n (do
        let m ← get
        M.setHeap (m.compiler.expand m.heap m.roots k.toInt.toNat)
        pure Flow.next : M Flow) := by
      refine .get (fun m c d h => ?_) fun _ =>
        Blind.respects <| (M.setHeap_blind _).bind fun _ => .pure _
      show (M.setHeap (m.compiler.expand m.heap (m.within c).roots _) >>= _) = _
      rw [Machine.roots_within h]; rfl
    exact .ite ((Blind.throw _).respects.bind fun _ => hb) hb
  | does =>
    obtain rfl := hs rfl
    refine M.mode_blind.respects.bind fun mode => ?_
    cases mode with
    | compiling => exact Blind.respects <| (M.compileBuiltin_blind _).bind fun _ => .pure _
    | interpreting =>
      exact M.last_respects.bind fun _ => Blind.respects <| (M.setMode_blind _).bind fun _ => .pure _
    | compilingPostponed => exact Blind.respects <| (Blind.throw _).bind fun _ => .pure _
    | runtimeCompiling => exact Blind.respects <| (Blind.throw _).bind fun _ => .pure _
  | doesRuntime =>
    obtain rfl := hs rfl
    exact (M.parent_respects (hn rfl)).bind fun _ => (setLastCode_respects _).bind fun _ =>
      (Blind.pure _).respects
  | _ => exact (MemoryWord.run_uses _ (.beyondContext rfl rfl)).blind.respects

theorem DefiningWord.run_respects (w : DefiningWord) (hs : (Primitive.defining w).looks = true → s = true) :
    Respects s n w.run := by
  cases w with
  | immediate =>
    obtain rfl := hs rfl
    exact (M.last_respects.bind fun _ => (Blind.modify fun _ _ => rfl).respects).bind fun _ =>
      (Blind.pure _).respects
  | _ => exact (DefiningWord.run_uses _ (.beyondContext rfl rfl)).blind.respects

namespace ControlWord

theorem run_respects (w : ControlWord) (hs : (Primitive.control w).looks = true → s = true) :
    Respects s n w.run := by
  cases w with
  | closeIf =>
    obtain rfl := hs rfl
    exact (M.requireCompiling_blind _).respects.bind fun _ => (closeTag_blind _ _).respects.bind
      fun _ => M.here_respects.bind fun _ => (fillHole_blind _ _).respects
  | beginLoop =>
    obtain rfl := hs rfl
    exact (M.requireCompiling_blind _).respects.bind fun _ => M.here_respects.bind fun _ =>
      (openAt_blind _ _).respects
  | _ => exact (run_uses _ (.beyondContext rfl rfl)).blind.respects

end ControlWord

namespace BranchWord

theorem jumpTo_respects (hn : 2 ≤ n) (address : Int64) : Respects s n (jumpTo address) := by
  refine (M.parent_respects hn).bind fun f => .get (fun _ _ _ _ => rfl) fun m => ?_
  exact .ite (M.setParentIp_respects hn _) (Blind.throw _).respects

theorem advance_respects (hn : 2 ≤ n) (entry step : Int64) (stepped : Bool) :
    Respects s n (advance entry step stepped) :=
  (M.peekReturn_blind 0).respects.bind fun _ => (M.peekReturn_blind 1).respects.bind fun _ =>
    .ite dropLoop_blind.respects
      ((setIndex_blind _).respects.bind fun _ => jumpTo_respects hn entry)

theorem act_respects (w : BranchWord) (hn : w.actsOnCaller = true → 2 ≤ n) :
    Respects s n w.act := by
  cases w with
  | inlineLiteral =>
    exact (M.parent_respects (hn rfl)).bind fun _ => .get (fun _ _ _ _ => rfl) fun _ =>
      (M.lift_blind _).respects.bind fun _ => (M.setParentIp_respects (hn rfl) _).bind fun _ =>
        (M.push_blind _).respects
  | jump => exact M.popInt_blind.respects.bind (jumpTo_respects (hn rfl))
  | jumpIfFalse =>
    exact M.popInt_blind.respects.bind fun _ => M.popFlag_blind.respects.bind fun _ =>
      .ite (jumpTo_respects (hn rfl) _) (Blind.pure _).respects
  | jumpIfTrue =>
    exact M.popInt_blind.respects.bind fun _ => M.popFlag_blind.respects.bind fun _ =>
      .ite (jumpTo_respects (hn rfl) _) (Blind.pure _).respects
  | enterCount maySkip =>
    refine M.popInt_blind.respects.bind fun exit => M.popInt_blind.respects.bind fun start =>
      M.popInt_blind.respects.bind fun limit => ?_
    cases maySkip with
    | false => exact (openLoop_blind exit limit start).respects
    | true => exact .ite (jumpTo_respects (hn rfl) exit) (openLoop_blind exit limit start).respects
  | advanceCount stepped =>
    refine M.popInt_blind.respects.bind fun entry => ?_
    cases stepped with
    | false => exact advance_respects (hn rfl) _ _ _
    | true => exact M.popInt_blind.respects.bind fun _ => advance_respects (hn rfl) _ _ _
  | leave =>
    exact (M.peekReturn_blind 2).respects.bind fun _ => dropLoop_blind.respects.bind fun _ =>
      jumpTo_respects (hn rfl) _
  | unloop | index | outerIndex => exact (act_uses _ (.beyondContext rfl rfl)).blind.respects
  | exit => exact (Blind.pure _).respects

theorem run_respects (w : BranchWord) (hn : w.actsOnCaller = true → 2 ≤ n) : Respects s n w.run := by
  cases w with
  | exit => exact (Blind.pure _).respects
  | _ => exact (act_respects _ hn).bind fun _ => (Blind.pure _).respects

end BranchWord

namespace ObjectWord

theorem run_respects (w : ObjectWord) (hs : (Primitive.object w).looks = true → s = true) :
    Respects s n w.run := by
  cases w with
  | refcount =>
    obtain rfl := hs rfl
    refine (M.peek_blind 0).respects.bind fun v => .get (fun m c d h => ?_) fun _ =>
      (M.push_blind _).respects
    show M.push (.nat ((m.heap.liveCount? (m.within c).roots v).getD 0)) = _
    rw [Machine.roots_within h]; rfl
  | _ => exact (run_uses _ (.beyondContext rfl rfl)).blind.respects

end ObjectWord

namespace StateWord

theorem setLevel_respects (l : DebugLevel) : Respects s n (modify fun m =>
    { m with debugger := m.debugger.setLevel l m.frames.length } : M Unit) := by
  intro m c d _
  refine ⟨.ok () m, none, c.debugger.setLevel l c.frames.length,
    d.debugger.setLevel l d.frames.length, fun _ => rfl, ?_, ?_⟩
  · simp only [Context.moved, moveParent_none]; rfl
  · simp only [Context.moved, moveParent_none]; rfl

theorem run_respects (w : StateWord) : Respects s n w.run := by
  cases w with
  | debugLevel =>
    refine M.popInt_blind.respects.bind fun k => ?_
    split
    · exact setLevel_respects _
    · exact (Blind.throw _).respects
  | _ => exact (run_uses _ (.beyondContext rfl rfl)).blind.respects

end StateWord

theorem pushDataAddress_respects (hn : 1 ≤ n) : Respects s n pushDataAddress :=
  (M.current_respects hn).bind fun _ => .get (fun _ _ _ _ => rfl) fun _ => (M.push_blind _).respects

theorem pushFirstSlot_respects (hn : 1 ≤ n) : Respects s n pushFirstSlot :=
  (M.current_respects hn).bind fun _ => .get (fun _ _ _ _ => rfl) fun _ =>
    (M.lift_blind _).respects.bind fun _ => (M.push_blind _).respects

theorem Respects.thenNext {act : M Unit} (h : Respects s n act) : Respects s n (thenNext act) :=
  h.bind fun _ => (Blind.pure _).respects

namespace Primitive

/-- A primitive sees the frame of its own, and the one of its caller if it acts on that; if it asks
    for it, it sees which words the frames and the runs keep alive, and nothing else of what is
    around it. -/
theorem run_respects (p : Primitive) (hs : p.looks = true → s = true) (hn : 1 ≤ n)
    (hp : p.actsOnCaller = true → 2 ≤ n) : Respects s n p.run := by
  cases p with
  | stack w => exact (run_blind (.stack w) rfl rfl).respects
  | arithmetic w => exact (run_blind (.arithmetic w) rfl rfl).respects
  | float w => exact (run_blind (.float w) rfl rfl).respects
  | output w => exact (run_blind (.output w) (by cases w <;> rfl) (by cases w <;> rfl)).respects
  | memory w => exact w.run_respects hs hp
  | defining w => exact w.run_respects hs
  | control w => exact (w.run_respects hs).thenNext
  | branch w => exact w.run_respects hp
  | object w => exact (w.run_respects hs).thenNext
  | state w => exact w.run_respects.thenNext
  | host w => exact (run_blind (.host w) (by cases w <;> rfl) (by cases w <;> rfl)).respects
  | dataAddress => exact (pushDataAddress_respects hn).thenNext
  | pushConstant => exact (pushFirstSlot_respects hn).thenNext
  | nop => exact (Blind.pure _).respects

/-- A primitive leaves the runs as they are, and of the frames it changes at most the position of
    the word that called it. -/
theorem run_context (p : Primitive) (m : Machine) :
    ∃ u d, (Machine.after (p.run m)).context = m.context.moved u d := by
  obtain ⟨r, u, g, _, _, h, _⟩ :=
    p.run_respects (n := 2) (fun _ => rfl) (by omega) (fun _ => Nat.le_refl 2) m m.context m.context
      (.refl _ _ _)
  rw [Machine.within_context] at h
  exact ⟨u, g, by rw [h, Machine.after_alter, Machine.context_within]⟩

end Primitive

/-! ## How primitives go on -/

/-- Every result of a computation has a property. -/
def Yields (P : α → Prop) (act : M α) : Prop :=
  ∀ m a m', act m = .ok a m' → P a

namespace Yields

variable {P : α → Prop}

theorem pure {a : α} (h : P a) : Yields P (Pure.pure a) := by
  intro m b m' hb
  cases hb
  exact h

theorem throw (e : Error) : Yields P (MonadExcept.throw e) := by
  intro m b m' hb
  cases hb

theorem bind {x : M β} {f : β → M α} (hf : ∀ b, Yields P (f b)) : Yields P (x >>= f) := by
  intro m a m' h
  have h : EStateM.bind x f m = .ok a m' := h
  unfold EStateM.bind at h
  split at h
  · exact hf _ _ _ _ h
  · cases h

theorem ite {c : Prop} [Decidable c] {x y : M α} (hx : Yields P x) (hy : Yields P y) :
    Yields P (if c then x else y) := by
  split
  · exact hx
  · exact hy

end Yields

/-- Whether a primitive may start a nested run. -/
def Primitive.nests : Primitive → Bool
  | arithmetic _ | memory .addStore | host .nested | host .attempt => true
  | _ => false

/-- How a primitive may go on: only one that acts on its caller leaves it, one that may start a
    nested run is never replaced by another word, and a nested run always has the primitive to come
    back to. -/
def Flow.Allowed (acts nests : Bool) : Flow → Prop
  | next => True
  | leave => acts = true
  | call _ => nests = false
  | nest _ pending => nests = true ∧ pending ≠ .outside

theorem Operator.applyThen_flow (a b : Value) (op : Operator) (after : After) (acts : Bool) :
    Yields (Flow.Allowed acts true) (applyThen a b op after) := by
  refine .bind fun d => ?_
  cases d with
  | done v => exact .bind fun _ => .pure trivial
  | run w depth => exact .pure ⟨rfl, nofun⟩

theorem ArithmeticWord.run_flow (w : ArithmeticWord) (acts : Bool) :
    Yields (Flow.Allowed acts true) w.run := by
  cases w with
  | apply op => exact .bind fun _ => .bind fun _ => Operator.applyThen_flow _ _ _ _ _
  | select op => exact .bind fun _ => .bind fun _ => Operator.applyThen_flow _ _ _ _ _
  | increment => exact .bind fun _ => Operator.applyThen_flow _ _ _ _ _
  | decrement => exact .bind fun _ => Operator.applyThen_flow _ _ _ _ _
  | negate =>
    refine .bind fun v => ?_
    cases v with
    | float x => exact .bind fun _ => .pure trivial
    | _ => exact .bind fun _ => .bind fun _ => .pure trivial
  | abs =>
    refine .bind fun v => ?_
    cases v with
    | float x => exact .bind fun _ => .pure trivial
    | _ => exact .bind fun _ => .bind fun _ => .pure trivial
  | not => exact .bind fun _ => .bind fun _ => .pure trivial
  | invert => exact .bind fun _ => .bind fun _ => .pure trivial
  | flag b => exact .bind fun _ => .pure trivial

theorem MemoryWord.run_flow (w : MemoryWord) :
    Yields (Flow.Allowed (Primitive.memory w).actsOnCaller (Primitive.memory w).nests) w.run := by
  cases w with
  | load => exact .bind fun _ => .bind fun _ => .bind fun _ => .bind fun _ => .pure trivial
  | store =>
    exact .bind fun _ => .bind fun _ => .bind fun _ => .bind fun _ => .bind fun _ => .pure trivial
  | addStore =>
    exact .bind fun _ => .bind fun _ => .bind fun _ => .bind fun _ => .bind fun _ =>
      Operator.applyThen_flow _ _ _ _ _
  | here => exact .bind fun _ => .bind fun _ => .pure trivial
  | comma => exact .bind fun _ => .bind fun _ => .bind fun _ => .pure trivial
  | allot =>
    exact .bind fun _ => .ite (.bind fun _ => .bind fun _ => .bind fun _ => .pure trivial)
      (.bind fun _ => .bind fun _ => .pure trivial)
  | create => exact .bind fun _ => .bind fun _ => .pure trivial
  | «variable» => exact .bind fun _ => .bind fun _ => .bind fun _ => .pure trivial
  | constant => exact .bind fun _ => .bind fun _ => .bind fun _ => .pure trivial
  | does =>
    refine .bind fun mode => ?_
    cases mode with
    | interpreting => exact .bind fun _ => .bind fun _ => .pure trivial
    | _ => exact .bind fun _ => .pure trivial
  | doesRuntime => exact .bind fun _ => .bind fun _ => .pure rfl

theorem DefiningWord.run_flow (w : DefiningWord) (acts : Bool) :
    Yields (Flow.Allowed acts false) w.run := by
  cases w with
  | execute => exact .bind fun _ => .pure rfl
  | _ => exact .bind fun _ => .pure trivial

theorem BranchWord.run_flow (w : BranchWord) (nests : Bool) :
    Yields (Flow.Allowed w.actsOnCaller nests) w.run := by
  cases w with
  | exit => exact .pure rfl
  | _ => exact .bind fun _ => .pure trivial

theorem HostWord.run_flow (w : HostWord) :
    Yields (Flow.Allowed (Primitive.host w).actsOnCaller (Primitive.host w).nests) w.run := by
  cases w with
  | log => exact .bind fun _ => .bind fun _ => .pure trivial
  | bump => exact .bind fun _ => .bind fun _ => .bind fun _ => .pure trivial
  | boom => exact .throw _
  | boomAny => exact .throw _
  | boomText => exact .bind fun _ => .throw _
  | nested => exact .bind fun _ => .pure ⟨rfl, nofun⟩
  | attempt => exact .bind fun _ => .pure ⟨rfl, nofun⟩
  | exit => exact .pure rfl
  | call => exact .bind fun _ => .pure rfl
  | interrupt => exact .bind fun _ => .pure trivial

theorem Primitive.run_flow (p : Primitive) :
    Yields (Flow.Allowed p.actsOnCaller p.nests) p.run := by
  cases p with
  | arithmetic w => exact w.run_flow _
  | memory w => exact w.run_flow
  | defining w => exact w.run_flow _
  | branch w => exact w.run_flow _
  | host w => exact w.run_flow
  | nop => exact .pure trivial
  | _ => exact .bind fun _ => .pure trivial

/-! ## Primitives run from outside -/

namespace Machine

variable {m m' : Machine} {p : Primitive} {act : M Unit} {w : WordId}

/-- A primitive that does not look at its context and goes on with its caller, run from outside,
    does just its work. -/
theorem execute_blind (hb : Blind p.run) (hflow : Yields (· = .next) p.run)
    (hw : (m.heap.word w).code = .ok (.native p)) (hi : m.interrupt = false) (fuel : Nat) :
    m.execute (fuel + 2) w = some (match p.run m with
      | .ok _ x => .ok () x
      | .error e x => .error e x) := by
  -- the run is a change of the context, and the work does not see it
  have hrun : p.run (m.startRun w .outside) =
      alter (·.within (m.startRun w .outside).context) (p.run m) :=
    hb m (m.startRun w .outside).context
  have hback := hb.context_eq m
  cases hr : p.run m with
  | ok flow x =>
    rw [hr] at hrun hback
    cases hflow _ _ _ hr
    rw [execute_native hw hi hrun rfl rfl fuel, ← x.within_context,
      show x.context = m.context from hback]
    rfl
  | error e x =>
    rw [hr] at hrun hback
    rw [execute_native_error hw hi hrun rfl (fuel + 1), ← x.within_context,
      show x.context = m.context from hback]
    simp [truncateFrames, within, context, startRun, enter]

/-- An interrupt comes before the work of any word that is run from outside. -/
theorem execute_interrupted (hi : m.interrupt = true) (w : WordId) (fuel : Nat) :
    m.execute (fuel + 1) w = some (.error .interrupted { m with interrupt := false }) := by
  have hs : (m.startRun w .outside).step =
      ({ m.startRun w .outside with interrupt := false } : Machine).fail .interrupted :=
    step_of_interrupt rfl (Nat.lt_succ_self _) hi
  rw [execute, steps, hs]
  simp [fail, unwind, startRun, enter, truncateFrames]

/-- A primitive whose work is a single computation that does not look at its context, run from
    outside. -/
theorem execute_thenNext (hp : p.run = thenNext act) (hb : Blind act)
    (hw : (m.heap.word w).code = .ok (.native p)) (fuel : Nat) :
    m.execute (fuel + 2) w =
      some (if m.interrupt then .error .interrupted { m with interrupt := false } else act m) := by
  cases hi : m.interrupt with
  | true => rw [execute_interrupted hi w (fuel + 1), if_pos rfl]
  | false =>
    have hblind : Blind p.run := hp ▸ hb.bind fun _ => .pure _
    have hflow : Yields (· = .next) p.run := hp ▸ .bind fun _ => .pure rfl
    rw [execute_blind hblind hflow hw hi fuel, hp, if_neg Bool.false_ne_true, thenNext]
    cases hr : act m with
    | ok u x => rw [M.bind_ok hr]; rfl
    | error e x => rw [M.bind_error hr]

end Machine

end ThreadedForth
