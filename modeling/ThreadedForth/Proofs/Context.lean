/-
  Computations that do not look at the words around them.
-/
import ThreadedForth.Proofs.Surroundings

namespace ThreadedForth

variable {α β : Type}

/-- What is around a running word. -/
structure Context where
  frames : List Frame
  runs : List Run
  debugger : Debugger

namespace Machine

/-- The context of a machine. -/
def context (m : Machine) : Context :=
  ⟨m.frames, m.runs, m.debugger⟩

/-- The machine in another context. -/
def within (m : Machine) (c : Context) : Machine :=
  { m with frames := c.frames, runs := c.runs, debugger := c.debugger }

@[simp] theorem within_context (m : Machine) : m.within m.context = m := rfl

@[simp] theorem context_within (m : Machine) (c : Context) : (m.within c).context = c := rfl

end Machine

/-! ## Computations that do not look at the context -/

/-- A computation that does the same in every context and leaves the context as it is. -/
def Blind (act : M α) : Prop :=
  ∀ m c, act (m.within c) = Machine.alter (·.within c) (act m)

namespace Blind

theorem pure (a : α) : Blind (Pure.pure a : M α) := fun _ _ => rfl

theorem throw (e : Error) : Blind (MonadExcept.throw e : M α) := fun _ _ => rfl

theorem bind {x : M α} {f : α → M β} (hx : Blind x) (hf : ∀ a, Blind (f a)) : Blind (x >>= f) := by
  intro m c
  show EStateM.bind x f _ = Machine.alter _ (EStateM.bind x f m)
  unfold EStateM.bind
  rw [hx]
  cases x m with
  | ok a m₁ => exact hf a m₁ c
  | error e m₁ => rfl

theorem get {f : Machine → M α} (h : ∀ m c, f (m.within c) = f m) (hf : ∀ m, Blind (f m)) :
    Blind (MonadState.get >>= f) := by
  intro m c
  show f (m.within c) (m.within c) = Machine.alter _ (f m m)
  rw [h, hf]

theorem modify {f : Machine → Machine} (h : ∀ m c, f (m.within c) = (f m).within c) :
    Blind (modify f : M Unit) := by
  intro m c
  show EStateM.Result.ok () (f (m.within c)) = _
  rw [h]; rfl

theorem ite {p : Prop} [Decidable p] {x y : M α} (hx : Blind x) (hy : Blind y) :
    Blind (if p then x else y) := by
  split
  · exact hx
  · exact hy

theorem context_eq {act : M α} (h : Blind act) (m : Machine) :
    (Machine.after (act m)).context = m.context := by
  have := h m m.context
  rw [Machine.within_context] at this
  rw [this, Machine.after_alter, Machine.context_within]

end Blind

/-- The surroundings apart from the context. -/
def Parts.beyondContext : Parts :=
  { line := true, output := true, interrupt := true, host := true, addresses := true }

theorem Parts.Within.beyondContext {J : Parts} (hd : J.debugger = false) (hc : J.calls = false) :
    J.Within .beyondContext where
  line _ := rfl
  output _ := rfl
  interrupt _ := rfl
  debugger h := by rw [hd] at h; cases h
  host _ := rfl
  calls h := by rw [hc] at h; cases h
  addresses _ := rfl

/-- A computation that uses no part of the context is blind. -/
theorem UsesOnly.blind {act : M α} (h : UsesOnly .beyondContext act) : Blind act :=
  fun m c => h m { m.surroundings with frames := c.frames, runs := c.runs, debugger := c.debugger }

namespace M

theorem lift_blind (r : Except Error α) : Blind (lift r) := (lift_uses r).blind

theorem pop_blind : Blind pop := pop_uses.blind

theorem push_blind (v : Value) : Blind (push v) := (push_uses v).blind

theorem peek_blind (n : Nat) : Blind (peek n) := (peek_uses n).blind

theorem popInt_blind : Blind popInt := popInt_uses.blind

theorem popFlag_blind : Blind popFlag := popFlag_uses.blind

theorem peekReturn_blind (n : Nat) : Blind (peekReturn n) := (peekReturn_uses n).blind

theorem setHeap_blind (r : Except Error Heap) : Blind (setHeap r) := (setHeap_uses r).blind

theorem pushNew_blind (x : Obj) : Blind (pushNew x) := (pushNew_uses x).blind

theorem put_blind (s : String) : Blind (put s) := (put_uses rfl s).blind

theorem mode_blind : Blind mode := mode_uses.blind

theorem setMode_blind (mode : Mode) : Blind (setMode mode) := (setMode_uses mode).blind

theorem requireCompiling_blind (word : String) : Blind (requireCompiling word) :=
  (requireCompiling_uses word).blind

theorem compileWord_blind (w : WordId) : Blind (compileWord w) := (compileWord_uses w).blind

theorem compileBuiltin_blind (name : String) : Blind (compileBuiltin name) :=
  (compileBuiltin_uses name).blind

end M

theorem addSlot_blind (w : WordId) (v : Value) : Blind (addSlot w v) := (addSlot_uses w v).blind

namespace ControlWord

theorem openAt_blind (address : Nat) (tag : ControlTag) : Blind (openAt address tag) :=
  (openAt_uses address tag).blind

theorem closeTag_blind (tags : List ControlTag) (fault : ControlFault) : Blind (closeTag tags fault) :=
  (closeTag_uses tags fault).blind

theorem fillHole_blind (hole target : Nat) : Blind (fillHole hole target) :=
  (fillHole_uses hole target).blind

end ControlWord

namespace BranchWord

theorem openLoop_blind (exit limit start : Int64) : Blind (openLoop exit limit start) :=
  (openLoop_uses exit limit start).blind

theorem dropLoop_blind : Blind dropLoop := dropLoop_uses.blind

theorem setIndex_blind (k : Int64) : Blind (setIndex k) := (setIndex_uses k).blind

end BranchWord

/-- A primitive that uses no part of the context is blind. -/
theorem Primitive.run_blind (p : Primitive) (hd : p.uses.debugger = false)
    (hc : p.uses.calls = false) : Blind p.run :=
  (p.run_usesOnly (.beyondContext hd hc)).blind

end ThreadedForth
