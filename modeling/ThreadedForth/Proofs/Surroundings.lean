/-
  What a computation looks at apart from stacks, heap, dictionary, types and compiler.
-/
import ThreadedForth.Proofs.Session
import ThreadedForth.Proofs.StoreSteps

namespace ThreadedForth

variable {α β : Type}

/-- What is around a program. -/
structure Surroundings where
  line : Line
  inComment : Bool
  output : Output
  interrupt : Bool
  debugger : Debugger
  host : Host
  frames : List Frame
  runs : List Run
  addresses : ObjId → UInt64

/-- Some parts of the surroundings.  A comment that is open belongs to the line; the calls are the
    frames and the runs. -/
structure Parts where
  line : Bool := false
  output : Bool := false
  interrupt : Bool := false
  debugger : Bool := false
  host : Bool := false
  calls : Bool := false
  addresses : Bool := false

/-- The parts `J` are among the parts `K`. -/
structure Parts.Within (J K : Parts) : Prop where
  line : J.line = true → K.line = true
  output : J.output = true → K.output = true
  interrupt : J.interrupt = true → K.interrupt = true
  debugger : J.debugger = true → K.debugger = true
  host : J.host = true → K.host = true
  calls : J.calls = true → K.calls = true
  addresses : J.addresses = true → K.addresses = true

theorem Parts.Within.refl (K : Parts) : K.Within K := ⟨id, id, id, id, id, id, id⟩

namespace Machine

/-- The surroundings of a machine. -/
def surroundings (m : Machine) : Surroundings :=
  ⟨m.line, m.inComment, m.output, m.interrupt, m.debugger, m.host, m.frames, m.runs,
    m.addresses⟩

/-- The machine in other surroundings, apart from the parts `K`. -/
def amid (m : Machine) (K : Parts) (s : Surroundings) : Machine :=
  { m with
    line := bif K.line then m.line else s.line
    inComment := bif K.line then m.inComment else s.inComment
    output := bif K.output then m.output else s.output
    interrupt := bif K.interrupt then m.interrupt else s.interrupt
    debugger := bif K.debugger then m.debugger else s.debugger
    host := bif K.host then m.host else s.host
    frames := bif K.calls then m.frames else s.frames
    runs := bif K.calls then m.runs else s.runs
    addresses := bif K.addresses then m.addresses else s.addresses }

theorem amid_frames {K : Parts} (hK : K.calls = true) (m : Machine) (s : Surroundings) :
    (m.amid K s).frames = m.frames := by
  simp only [amid, hK, cond_true]

theorem amid_runs {K : Parts} (hK : K.calls = true) (m : Machine) (s : Surroundings) :
    (m.amid K s).runs = m.runs := by
  simp only [amid, hK, cond_true]

theorem amid_roots {K : Parts} (hK : K.calls = true) (m : Machine) (s : Surroundings) :
    (m.amid K s).roots = m.roots := by
  unfold roots
  rw [amid_frames hK, amid_runs hK]
  rfl

theorem amid_heap (m : Machine) (K : Parts) (s : Surroundings) : (m.amid K s).heap = m.heap := rfl

@[simp] theorem amid_surroundings (m : Machine) (K : Parts) : m.amid K m.surroundings = m := by
  simp only [amid, surroundings, Bool.cond_self]

end Machine

/-! ## Computations that use some parts of their surroundings -/

/-- A computation that uses no part of its surroundings but those in `K`: it does the same whatever
    the others are, and leaves them as they are. -/
def UsesOnly (K : Parts) (act : M α) : Prop :=
  ∀ m s, act (m.amid K s) = Machine.alter (·.amid K s) (act m)

variable {K : Parts}

namespace UsesOnly

theorem pure (a : α) : UsesOnly K (Pure.pure a : M α) := fun _ _ => rfl

theorem throw (e : Error) : UsesOnly K (MonadExcept.throw e : M α) := fun _ _ => rfl

theorem bind {x : M α} {f : α → M β} (hx : UsesOnly K x) (hf : ∀ a, UsesOnly K (f a)) :
    UsesOnly K (x >>= f) := by
  intro m s
  show EStateM.bind x f _ = Machine.alter _ (EStateM.bind x f m)
  unfold EStateM.bind
  rw [hx]
  cases x m with
  | ok a m₁ => exact hf a m₁ s
  | error e m₁ => rfl

/-- A computation that looks at the machine, but not at its surroundings. -/
theorem get {f : Machine → M α} (h : ∀ m s, f (m.amid K s) = f m) (hf : ∀ m, UsesOnly K (f m)) :
    UsesOnly K (MonadState.get >>= f) := by
  intro m s
  show f (m.amid K s) (m.amid K s) = Machine.alter _ (f m m)
  rw [h, hf]

theorem modify {f : Machine → Machine} (h : ∀ m s, f (m.amid K s) = (f m).amid K s) :
    UsesOnly K (modify f : M Unit) := by
  intro m s
  show EStateM.Result.ok () (f (m.amid K s)) = _
  rw [h]
  rfl

/-- A computation that reads the machine, and replaces it by one in the same surroundings. -/
theorem replace {g : Machine → Except Error α} {k : Machine → α → Machine} {f : Machine → α → M β}
    (hg : ∀ m s, g (m.amid K s) = g m) (hk : ∀ m s a, k (m.amid K s) a = (k m a).amid K s)
    (hf : ∀ m s a, f (m.amid K s) a = f m a) (hb : ∀ m a, UsesOnly K (f m a)) :
    UsesOnly K (do let m ← MonadState.get; let a ← M.lift (g m); set (k m a); f m a) := by
  intro m s
  cases h : g m with
  | error e =>
    have h' := (hg m s).trans h
    rw [M.bind_ok (x := MonadState.get) rfl, M.bind_ok (x := MonadState.get) rfl, h, h']
    rfl
  | ok a =>
    have h' := (hg m s).trans h
    have hm := hb m a (k m a) s
    rw [← hk m s a] at hm
    rw [M.bind_ok (x := MonadState.get) rfl, M.bind_ok (x := MonadState.get) rfl, h, h']
    show f (m.amid K s) a (k (m.amid K s) a) = Machine.alter _ (f m a (k m a))
    rw [hf m s a]
    exact hm

theorem ite {p : Prop} [Decidable p] {x y : M α} (hx : UsesOnly K x) (hy : UsesOnly K y) :
    UsesOnly K (if p then x else y) := by
  split
  · exact hx
  · exact hy

/-- A check that comes before a computation. -/
theorem orThrow {p : Prop} [Decidable p] {e : Error} {x : M α} (hx : UsesOnly K x) :
    UsesOnly K (if p then (MonadExcept.throw e : M Unit) >>= fun _ => x else x) :=
  .ite ((UsesOnly.throw _).bind fun _ => hx) hx

/-- The parts that are not used stay. -/
theorem surroundings_eq {act : M α} (h : UsesOnly K act) (m : Machine) :
    (Machine.after (act m)).amid K m.surroundings = Machine.after (act m) := by
  have hs := h m m.surroundings
  rw [Machine.amid_surroundings] at hs
  rw [← Machine.after_alter (·.amid K m.surroundings), ← hs]

end UsesOnly

namespace M

theorem lift_uses (r : Except Error α) : UsesOnly K (lift r) := by
  intro m s; cases r <;> rfl

theorem pop_uses : UsesOnly K pop := by
  intro m s
  simp only [pop, Machine.amid]
  cases m.data.pop <;> rfl

theorem push_uses (v : Value) : UsesOnly K (push v) := by
  intro m s
  simp only [push, Machine.amid]
  cases m.data.push v <;> rfl

theorem peek_uses (n : Nat) : UsesOnly K (peek n) := by
  intro m s
  simp only [peek, Machine.amid]
  cases m.data.peek n <;> rfl

theorem popInt_uses : UsesOnly K popInt := pop_uses.bind fun _ => lift_uses _

theorem popFlag_uses : UsesOnly K popFlag := pop_uses.bind fun _ => lift_uses _

theorem popWord_uses : UsesOnly K popWord := pop_uses.bind fun _ => lift_uses _

theorem pushReturn_uses (n : Int64) : UsesOnly K (pushReturn n) := by
  intro m s
  simp only [pushReturn, Machine.amid]
  cases m.return.push n <;> rfl

theorem popReturn_uses : UsesOnly K popReturn := by
  intro m s
  simp only [popReturn, Machine.amid]
  cases m.return.pop <;> rfl

theorem peekReturn_uses (n : Nat) : UsesOnly K (peekReturn n) := by
  intro m s
  simp only [peekReturn, Machine.amid]
  cases m.return.peek n <;> rfl

theorem setHeap_uses (r : Except Error Heap) : UsesOnly K (setHeap r) :=
  (lift_uses r).bind fun _ => .modify fun _ _ => rfl

theorem onTypes_uses (act : Types → Except Error α × Types) : UsesOnly K (onTypes act) := by
  intro m s
  simp only [onTypes, Machine.amid]
  rcases act m.types with ⟨_ | _, _⟩ <;> rfl

theorem newText_uses (s : String) : UsesOnly K (newText s) := fun _ _ => rfl

theorem pushNew_uses (x : Obj) : UsesOnly K (pushNew x) :=
  fun m s => push_uses _ { m with heap := (m.heap.addObject x).2 } s

theorem onStore_uses (act : StoreM α) : UsesOnly K (onStore act) := by
  intro m s
  simp only [onStore, Machine.amid]
  cases act ⟨m.heap, m.data⟩ <;> rfl

theorem put_uses (hK : K.output = true) (piece : String) : UsesOnly K (put piece) := by
  intro m s
  simp only [put, Machine.amid, hK, cond_true]
  cases m.output.push piece <;> simp [Machine.alter]

theorem write_eq (ss : List String) (m : Machine) :
    write ss m = bif (m.output.write ss).2 then .ok () { m with output := (m.output.write ss).1 }
      else .error .outputFormat { m with output := (m.output.write ss).1 } := by
  cases h : (m.output.write ss).2 <;> simp [write, h]

theorem write_uses (hK : K.output = true) (ss : List String) : UsesOnly K (write ss) := by
  intro m s
  have ho : (m.amid K s).output = m.output := by simp only [Machine.amid, hK, cond_true]
  rw [write_eq, write_eq, ho]
  cases (m.output.write ss).2 <;> simp [Machine.alter, Machine.amid, hK]

theorem builtin_uses (name : String) : UsesOnly K (builtin name) := by
  refine .get (fun _ _ => rfl) fun m => ?_
  cases m.find? name with
  | none => exact .throw _
  | some w => exact .pure w

theorem mode_uses : UsesOnly K mode := .get (fun _ _ => rfl) fun _ => .pure _

theorem setMode_uses (mode : Mode) : UsesOnly K (setMode mode) := .modify fun _ _ => rfl

theorem requireCompiling_uses (word : String) : UsesOnly K (requireCompiling word) :=
  mode_uses.bind fun _ => .ite (.pure _) (.throw _)

theorem compile_uses (e : Elem) : UsesOnly K (compile e) := .get (fun _ _ => rfl) fun _ => setHeap_uses _

theorem compileWord_uses (w : WordId) : UsesOnly K (compileWord w) :=
  .get (fun _ _ => rfl) fun _ => setHeap_uses _

theorem compileBuiltin_uses (name : String) : UsesOnly K (compileBuiltin name) :=
  (builtin_uses name).bind fun _ => compile_uses _

theorem compileLiteral_uses (v : Value) : UsesOnly K (compileLiteral v) :=
  (compileBuiltin_uses _).bind fun _ => compile_uses _

theorem install_uses (w : Word) : UsesOnly K (install w) := fun _ _ => rfl

theorem setLast_uses (w : WordId) : UsesOnly K (setLast w) := .modify fun _ _ => rfl

theorem defineConstant_uses (name : String) (v : Value) : UsesOnly K (defineConstant name v) :=
  (install_uses _).bind fun _ => (setLast_uses _).bind fun _ => .pure _

theorem nextToken_uses (hK : K.line = true) : UsesOnly K nextToken := by
  intro m s
  simp [nextToken, Machine.alter, Machine.amid, hK]

theorem nextName_uses (hK : K.line = true) (reader : String) : UsesOnly K (nextName reader) := by
  refine (nextToken_uses hK).bind fun t => ?_
  cases t with
  | none => exact .throw _
  | some name => exact .pure name

theorem nextWord_uses (hK : K.line = true) (reader : String) : UsesOnly K (nextWord reader) := by
  refine (nextName_uses hK reader).bind fun name => .get (fun _ _ => rfl) fun m => ?_
  cases m.find? name with
  | none => exact .throw _
  | some w => exact .pure w

theorem nextText_uses (hK : K.line = true) : UsesOnly K nextText := by
  intro m s
  simp only [nextText, Machine.amid, hK, cond_true]
  rcases m.line.takeUntil '\x22' with ⟨_ | _, _⟩ <;> simp [Machine.alter]

/-! ### Calls -/

theorem current_uses (hK : K.calls = true) : UsesOnly K current := by
  refine .get (fun m s => by rw [Machine.amid_frames hK]) fun m => ?_
  cases m.frames with
  | nil => exact .throw _
  | cons f _ => exact .pure f

theorem parent_uses (hK : K.calls = true) : UsesOnly K parent := by
  refine .get (fun m s => by rw [Machine.amid_frames hK]) fun m => ?_
  rcases m.frames with _ | ⟨_, _ | ⟨f, _⟩⟩
  · exact .throw _
  · exact .throw _
  · exact .pure f

theorem setParentIp_uses (hK : K.calls = true) (ip : Nat) : UsesOnly K (setParentIp ip) := by
  refine .modify fun m s => ?_
  rw [Machine.amid_frames hK]
  rcases m.frames with _ | ⟨_, _ | ⟨_, _⟩⟩ <;> simp [Machine.amid, hK]

theorem lastWith_uses (hK : K.calls = true) (held : List Ref) : UsesOnly K (lastWith held) :=
  .get (fun m s => by rw [Machine.amid_roots hK]; rfl) fun _ => lift_uses _

theorem last_uses (hK : K.calls = true) : UsesOnly K last :=
  lastWith_uses hK []

theorem here_uses (hK : K.calls = true) : UsesOnly K here :=
  .get (fun m s => by rw [Machine.amid_roots hK]; rfl) fun _ => lift_uses _

end M

/-! ## Words on the stacks -/

namespace StackWord

theorem ensureRoom_uses (n : Nat) : UsesOnly K (ensureRoom n) :=
  .get (fun _ _ => rfl) fun _ => M.lift_uses _

theorem pushSide_uses (k : SideStack) (v : Value) : UsesOnly K (pushSide k v) := by
  intro m s
  cases k with
  | temp => simp only [pushSide, side, Machine.amid]; cases m.temp.push v <;> rfl
  | self => simp only [pushSide, side, Machine.amid]; cases m.self.push v <;> rfl

theorem popSide_uses (k : SideStack) : UsesOnly K (popSide k) := by
  intro m s
  cases k with
  | temp => simp only [popSide, side, Machine.amid]; cases m.temp.pop <;> rfl
  | self => simp only [popSide, side, Machine.amid]; cases m.self.pop <;> rfl

theorem run_uses (w : StackWord) : UsesOnly K w.run := by
  cases w with
  | dup => exact (M.peek_uses 0).bind M.push_uses
  | drop => exact M.pop_uses.bind fun _ => .pure _
  | swap =>
    exact M.pop_uses.bind fun _ => M.pop_uses.bind fun _ =>
      (M.push_uses _).bind fun _ => M.push_uses _
  | «over» => exact (M.peek_uses 1).bind M.push_uses
  | rot =>
    exact M.pop_uses.bind fun _ => M.pop_uses.bind fun _ => M.pop_uses.bind fun _ =>
      (M.push_uses _).bind fun _ => (M.push_uses _).bind fun _ => M.push_uses _
  | nip => exact M.pop_uses.bind fun _ => M.pop_uses.bind fun _ => M.push_uses _
  | tuck =>
    exact (ensureRoom_uses 1).bind fun _ => M.pop_uses.bind fun _ => M.pop_uses.bind fun _ =>
      (M.push_uses _).bind fun _ => (M.push_uses _).bind fun _ => M.push_uses _
  | twoDup =>
    exact (M.peek_uses 1).bind fun _ => (M.peek_uses 0).bind fun _ =>
      (ensureRoom_uses 2).bind fun _ => (M.push_uses _).bind fun _ => M.push_uses _
  | twoDrop => exact M.pop_uses.bind fun _ => M.pop_uses.bind fun _ => .pure _
  | pick =>
    exact M.popInt_uses.bind fun _ => .get (fun _ _ => rfl) fun _ =>
      (M.lift_uses _).bind fun _ => (M.peek_uses _).bind M.push_uses
  | depth => exact .get (fun _ _ => rfl) fun _ => M.push_uses _
  | clear => exact .modify fun _ _ => rfl
  | toReturn => exact M.popInt_uses.bind M.pushReturn_uses
  | fromReturn => exact M.popReturn_uses.bind fun _ => M.push_uses _
  | copyReturn => exact (M.peekReturn_uses 0).bind fun _ => M.push_uses _
  | toSide k => exact M.pop_uses.bind (pushSide_uses k)
  | fromSide k => exact (popSide_uses k).bind M.push_uses
  | copySide k =>
    refine .get ?_ fun _ => (M.lift_uses _).bind M.push_uses
    intro m s
    cases k <;> rfl

end StackWord

namespace Operator

theorem takeResult_uses (depth : Nat) : UsesOnly K (takeResult depth) :=
  .get (fun _ _ => rfl) fun _ => .ite M.pop_uses (.throw _)

theorem handleStrings_uses : UsesOnly K handleStrings :=
  M.pop_uses.bind fun _ => (M.lift_uses _).bind fun _ => M.pop_uses.bind fun _ =>
    M.pop_uses.bind fun _ => .get (fun _ _ => rfl) fun _ => (M.lift_uses _).bind fun _ =>
      (UsesOnly.modify fun _ _ => rfl).bind fun _ => M.push_uses _

theorem handleHost_uses (h : HostHandler) : UsesOnly K (handleHost h) := by
  cases h with
  | const | exit =>
    exact M.pop_uses.bind fun _ => M.pop_uses.bind fun _ => M.pop_uses.bind fun _ =>
      (M.push_uses _).bind fun _ => .pure _
  | call => exact (M.builtin_uses _).bind fun _ => .pure _
  | broken => exact M.pop_uses.bind fun _ => .pure _

theorem handle_uses (h : Handler) : UsesOnly K (handle h) := by
  cases h with
  | strings => exact handleStrings_uses.bind fun _ => .pure _
  | host h => exact handleHost_uses h
  | word w => exact .pure _

theorem dispatch_uses (a b : Value) (op : Operator) : UsesOnly K (dispatch a b op) := by
  refine .get ?_ fun m => ?_
  · intro m s
    have h : handler? (m.amid K s) a b = handler? m a b := by cases a <;> cases b <;> rfl
    simp only [h]
    rfl
  · cases handler? m a b with
    | none => exact (M.lift_uses _).bind fun _ => .pure _
    | some h =>
      refine (M.push_uses a).bind fun _ => (M.push_uses b).bind fun _ =>
        (M.push_uses _).bind fun _ => (handle_uses h).bind fun w => ?_
      cases w with
      | none => exact (takeResult_uses _).bind fun _ => .pure _
      | some w => exact .pure _

theorem useResult_uses (v : Value) (after : After) : UsesOnly K (useResult v after) := by
  cases after with
  | push => exact M.push_uses v
  | select a b => exact (M.lift_uses _).bind fun _ => .ite (M.push_uses a) (M.push_uses b)
  | store p => exact .get (fun _ _ => rfl) fun _ => M.setHeap_uses _

theorem conclude_uses (depth : Nat) (after : After) : UsesOnly K (conclude depth after) :=
  (takeResult_uses depth).bind fun v => useResult_uses v after

theorem applyThen_uses (a b : Value) (op : Operator) (after : After) :
    UsesOnly K (applyThen a b op after) := by
  refine (dispatch_uses a b op).bind fun d => ?_
  cases d with
  | done v => exact (useResult_uses v after).bind fun _ => .pure _
  | run w depth => exact .pure _

end Operator

theorem ArithmeticWord.run_uses (w : ArithmeticWord) : UsesOnly K w.run := by
  cases w with
  | apply op =>
    exact M.pop_uses.bind fun b => M.pop_uses.bind fun a => Operator.applyThen_uses a b op _
  | select op =>
    exact M.pop_uses.bind fun b => M.pop_uses.bind fun a => Operator.applyThen_uses a b op _
  | increment => exact M.pop_uses.bind fun a => Operator.applyThen_uses a _ _ _
  | decrement => exact M.pop_uses.bind fun a => Operator.applyThen_uses a _ _ _
  | negate =>
    refine M.pop_uses.bind fun v => ?_
    cases v with
    | float x => exact (M.push_uses _).bind fun _ => .pure _
    | _ => exact (M.lift_uses _).bind fun _ => (M.push_uses _).bind fun _ => .pure _
  | abs =>
    refine M.pop_uses.bind fun v => ?_
    cases v with
    | float x => exact (M.push_uses _).bind fun _ => .pure _
    | _ => exact (M.lift_uses _).bind fun _ => (M.push_uses _).bind fun _ => .pure _
  | not => exact M.popFlag_uses.bind fun _ => (M.push_uses _).bind fun _ => .pure _
  | invert => exact M.popInt_uses.bind fun _ => (M.push_uses _).bind fun _ => .pure _
  | flag b => exact (M.push_uses _).bind fun _ => .pure _

theorem onFloat_uses (f : Float → Float) : UsesOnly K (onFloat f) :=
  M.pop_uses.bind fun _ => (M.lift_uses _).bind fun _ => M.push_uses _

theorem FloatWord.run_uses (w : FloatWord) : UsesOnly K w.run := by
  cases w with
  | toInt =>
    refine M.pop_uses.bind fun v => ?_
    cases v with
    | float x => exact M.push_uses _
    | _ => exact (M.lift_uses _).bind fun _ => M.push_uses _
  | _ => exact onFloat_uses _

theorem putSpaces_uses (hK : K.output = true) : ∀ n, UsesOnly K (putSpaces n)
  | 0 => .pure _
  | n + 1 => (M.put_uses hK _).bind fun _ => putSpaces_uses hK n

theorem putByte_uses (hK : K.output = true) (b : UInt8) : UsesOnly K (putByte b) := by
  intro m s
  simp only [putByte, Machine.amid, hK, cond_true]
  cases m.output.pushBytes [b] <;> simp [Machine.alter]

theorem Machine.format_amid (m : Machine) (K : Parts) (s : Surroundings) (v : Value) :
    (m.amid K s).format v = m.format v := by
  cases v <;> rfl

theorem Machine.stackLine_amid (m : Machine) (K : Parts) (s : Surroundings) :
    (m.amid K s).stackLine = m.stackLine := by
  have h : (m.amid K s).format = m.format := funext (m.format_amid K s)
  simp only [stackLine, h]
  rfl

/-! ## The parts that primitives use -/

/-- The parts of its surroundings that a primitive uses. -/
def Primitive.uses : Primitive → Parts
  | output .see => { line := true, output := true }
  | output _ => { output := true }
  | memory .create | memory .variable | memory .constant => { line := true }
  | memory .load | memory .store | memory .addStore => {}
  | memory _ => { calls := true }
  | defining .colon | defining .tick | defining .bracketTick | defining .forget | defining .char
  | defining .bracketChar | defining .string | defining .comment | defining .lineComment =>
    { line := true }
  | defining .printString => { line := true, output := true }
  | defining .immediate => { calls := true }
  | control .beginLoop | control .closeIf => { calls := true }
  | branch .unloop | branch .index | branch .outerIndex | branch (.enterCount false) => {}
  | branch _ => { calls := true }
  | object .struct => { line := true }
  | object .refcount => { calls := true }
  | object (.invoke f) => { addresses := f == .hash }
  | state .debugLevel => { debugger := true, calls := true }
  | host .log | host .bump => { host := true }
  | host .interrupt => { interrupt := true }
  | dataAddress | pushConstant => { calls := true }
  | _ => {}

theorem OutputWord.run_uses (w : OutputWord) (hK : (Primitive.output w).uses.Within K) :
    UsesOnly K w.run := by
  cases w with
  | print =>
    refine M.pop_uses.bind fun v => .get (fun m s => ?_) fun _ => M.write_uses (hK.output rfl) _
    simp only [Machine.format_amid]
  | printFloat =>
    exact M.pop_uses.bind fun _ => (M.lift_uses _).bind fun _ => M.write_uses (hK.output rfl) _
  | printStack =>
    refine .get (fun m s => ?_) fun _ => M.write_uses (hK.output rfl) _
    simp only [Machine.stackLine_amid]
  | emit =>
    exact M.pop_uses.bind fun _ => (M.lift_uses _).bind fun _ => putByte_uses (hK.output rfl) _
  | newline => exact M.put_uses (hK.output rfl) _
  | space => exact M.put_uses (hK.output rfl) _
  | spaces => exact M.popInt_uses.bind fun _ => putSpaces_uses (hK.output rfl) _
  | type =>
    refine M.pop_uses.bind fun v => .get (fun m s => ?_) fun _ => M.put_uses (hK.output rfl) _
    simp only [Machine.format_amid]
  | words => exact .get (fun _ _ => rfl) fun _ => M.write_uses (hK.output rfl) _
  | see =>
    exact (M.nextWord_uses (hK.line rfl) _).bind fun _ => .get (fun _ _ => rfl) fun _ =>
      M.put_uses (hK.output rfl) _

theorem addSlot_uses (w : WordId) (v : Value) : UsesOnly K (addSlot w v) :=
  .get (fun _ _ => rfl) fun _ => M.setHeap_uses _

theorem createWord_uses (name : String) : UsesOnly K (createWord name) :=
  (M.install_uses _).bind fun _ => (M.setLast_uses _).bind fun _ => .pure _

theorem setLastCode_uses (hK : K.calls = true) (c : Code) : UsesOnly K (setLastCode c) :=
  (M.last_uses hK).bind fun _ => .get (fun _ _ => rfl) fun _ => M.setHeap_uses _

theorem MemoryWord.run_uses (w : MemoryWord) (hK : (Primitive.memory w).uses.Within K) :
    UsesOnly K w.run := by
  cases w with
  | load =>
    exact M.pop_uses.bind fun _ => .get (fun _ _ => rfl) fun _ => (M.lift_uses _).bind fun _ =>
      (M.push_uses _).bind fun _ => .pure _
  | store =>
    exact M.pop_uses.bind fun _ => M.pop_uses.bind fun _ => (M.lift_uses _).bind fun _ =>
      .get (fun _ _ => rfl) fun _ => (M.setHeap_uses _).bind fun _ => .pure _
  | addStore =>
    exact M.pop_uses.bind fun _ => M.pop_uses.bind fun _ => (M.lift_uses _).bind fun _ =>
      .get (fun _ _ => rfl) fun _ => (M.lift_uses _).bind fun _ => Operator.applyThen_uses _ _ _ _
  | here => exact (M.here_uses (hK.calls rfl)).bind fun _ => (M.push_uses _).bind fun _ => .pure _
  | comma =>
    exact M.pop_uses.bind fun _ => (M.lastWith_uses (hK.calls rfl) _).bind fun _ =>
      (addSlot_uses _ _).bind fun _ => .pure _
  | allot =>
    refine M.popInt_uses.bind fun k => .orThrow <| .get (fun m s => ?_) fun _ =>
      (M.setHeap_uses _).bind fun _ => .pure _
    rw [Machine.amid_roots (hK.calls rfl)]
    rfl
  | create =>
    exact (M.nextName_uses (hK.line rfl) _).bind fun _ => (createWord_uses _).bind fun _ => .pure _
  | «variable» =>
    exact (M.nextName_uses (hK.line rfl) _).bind fun _ => (createWord_uses _).bind fun _ =>
      (addSlot_uses _ _).bind fun _ => .pure _
  | constant =>
    exact (M.nextName_uses (hK.line rfl) _).bind fun _ => M.pop_uses.bind fun _ =>
      (M.defineConstant_uses _ _).bind fun _ => .pure _
  | does =>
    refine M.mode_uses.bind fun mode => ?_
    cases mode with
    | compiling => exact (M.compileBuiltin_uses _).bind fun _ => .pure _
    | interpreting =>
      exact (M.last_uses (hK.calls rfl)).bind fun _ => (M.setMode_uses _).bind fun _ => .pure _
    | compilingPostponed | runtimeCompiling => exact (UsesOnly.throw _).bind fun _ => .pure _
  | doesRuntime =>
    exact (M.parent_uses (hK.calls rfl)).bind fun _ => (setLastCode_uses (hK.calls rfl) _).bind
      fun _ => .pure _

theorem skipComment_uses (hK : K.line = true) : UsesOnly K (modify Machine.skipComment : M Unit) :=
  .modify fun m s => by simp only [Machine.skipComment, Machine.amid, hK, cond_true]

namespace DefiningWord

theorem openDefinition_uses (name : String) : UsesOnly K (openDefinition name) := by
  refine M.mode_uses.bind fun mode => .orThrow ?_
  exact (UsesOnly.modify fun _ _ => rfl).bind fun _ => (M.compile_uses _).bind fun _ => M.setMode_uses _

theorem checkBalance_uses : UsesOnly K checkBalance := by
  refine .get (fun _ _ => rfl) fun m => ?_
  have hl : UsesOnly K (if m.compiler.startDepth < m.data.depth then do
        if (m.data.peek? 0).any (ControlTag.isCode ControlTag.all) then
          throw (.controlMismatch .unterminated)
        throw (.compileState (.left (m.data.depth - m.compiler.startDepth)))
      else pure PUnit.unit : M PUnit) :=
    .ite (.ite ((UsesOnly.throw _).bind fun _ => .throw _) (.throw _)) (.pure _)
  exact .ite ((UsesOnly.throw _).bind fun _ => hl) hl

theorem reveal_uses : UsesOnly K reveal := by
  refine checkBalance_uses.bind fun _ => .replace (fun _ _ => rfl) (fun _ _ _ => rfl)
    (fun _ _ _ => rfl) fun m w => ?_
  exact .ite ((UsesOnly.modify fun _ _ => rfl).bind fun _ => M.push_uses _) (.modify fun _ _ => rfl)

theorem nextChar_uses (hK : K.line = true) (reader : String) : UsesOnly K (nextChar reader) := by
  refine (M.nextName_uses hK reader).bind fun name => ?_
  cases name.toList with
  | nil => exact .throw _
  | cons c _ => exact .pure _

theorem forget_uses (hK : K.line = true) : UsesOnly K (act forget) := by
  refine (M.nextName_uses hK _).bind fun name => ?_
  have h : UsesOnly K (do
      let m ← get
      let r ← M.lift (m.dictionary.forget m.heap name)
      set { m with dictionary := r.2.1, heap := r.2.2 } : M PUnit) :=
    .replace (fun _ _ => rfl) (fun _ _ _ => rfl) (fun _ _ _ => rfl) fun _ _ => .pure ()
  exact h

theorem act_uses (w : DefiningWord) (hK : (Primitive.defining w).uses.Within K) :
    UsesOnly K w.act := by
  cases w with
  | colon => exact (M.nextName_uses (hK.line rfl) _).bind fun _ => openDefinition_uses _
  | noname => exact openDefinition_uses _
  | semicolon =>
    exact (M.requireCompiling_uses _).bind fun _ => reveal_uses.bind fun _ => M.setMode_uses _
  | immediate => exact (M.last_uses (hK.calls rfl)).bind fun _ => .modify fun _ _ => rfl
  | postpone => exact (M.requireCompiling_uses _).bind fun _ => M.setMode_uses _
  | leftBracket => exact (M.requireCompiling_uses _).bind fun _ => M.setMode_uses _
  | rightBracket =>
    exact .get (fun _ _ => rfl) fun _ => (M.lift_uses _).bind fun _ => M.setMode_uses _
  | literal =>
    exact (M.requireCompiling_uses _).bind fun _ => M.pop_uses.bind M.compileLiteral_uses
  | tick => exact (M.nextWord_uses (hK.line rfl) _).bind fun _ => M.push_uses _
  | bracketTick =>
    exact (M.requireCompiling_uses _).bind fun _ => (M.nextWord_uses (hK.line rfl) _).bind fun _ =>
      M.compileLiteral_uses _
  | execute => exact .pure _
  | compileComma => exact M.popWord_uses.bind M.compileWord_uses
  | forget => exact forget_uses (hK.line rfl)
  | char => exact (nextChar_uses (hK.line rfl) _).bind M.push_uses
  | bracketChar =>
    exact (M.requireCompiling_uses _).bind fun _ => (nextChar_uses (hK.line rfl) _).bind
      M.compileLiteral_uses
  | string =>
    exact (M.nextText_uses (hK.line rfl)).bind fun _ => (M.newText_uses _).bind fun _ =>
      M.mode_uses.bind fun _ => .ite (M.compileLiteral_uses _) (M.push_uses _)
  | printString =>
    exact (M.nextText_uses (hK.line rfl)).bind fun _ => M.mode_uses.bind fun _ =>
      .ite ((M.newText_uses _).bind fun _ => (M.compileLiteral_uses _).bind fun _ =>
        M.compileBuiltin_uses _) (M.put_uses (hK.output rfl) _)
  | comment => exact skipComment_uses (hK.line rfl)
  | lineComment =>
    refine .modify fun m s => ?_
    have hl : K.line = true := hK.line rfl
    simp only [Machine.amid, hl, cond_true]

theorem run_uses (w : DefiningWord) (hK : (Primitive.defining w).uses.Within K) :
    UsesOnly K w.run := by
  cases w with
  | execute => exact M.popWord_uses.bind fun _ => .pure _
  | _ => exact (act_uses _ hK).bind fun _ => .pure _

end DefiningWord

namespace ControlWord

theorem openAt_uses (address : Nat) (tag : ControlTag) : UsesOnly K (openAt address tag) :=
  (M.push_uses _).bind fun _ => M.push_uses _

theorem popAddress_uses (fault : ControlFault) : UsesOnly K (popAddress fault) :=
  M.popInt_uses.bind fun _ => .ite ((UsesOnly.throw _).bind fun _ => .pure _) (.pure _)

theorem closeTag_uses (tags : List ControlTag) (fault : ControlFault) : UsesOnly K (closeTag tags fault) :=
  M.pop_uses.bind fun _ => .ite (popAddress_uses fault) (.throw _)

/-- Something was compiled, so a word is under construction. -/
theorem building_of_compile {e : Elem} {m m' : Machine} (h : M.compile e m = .ok () m') :
    m'.compiler.building? ≠ none := by
  obtain ⟨h₁, _, hx, h⟩ := M.of_bind_ok (x := M.lift (m.compiler.push m.heap e)) h
  intro hb
  cases hp : m.compiler.push m.heap e with
  | error e' =>
    rw [hp] at hx
    cases hx
  | ok heap =>
    rw [hp] at hx
    cases hx
    cases h
    simp [Compiler.push, Compiler.building, show m.compiler.building? = none from hb, Bind.bind,
      Except.bind] at hp

theorem building_of_compileBuiltin {name : String} {m m' : Machine}
    (h : M.compileBuiltin name m = .ok () m') : m'.compiler.building? ≠ none := by
  obtain ⟨_, _, _, h⟩ := M.of_bind_ok h
  exact building_of_compile h

/-- Right after something was compiled, the next free position is the one of the word under
    construction, whatever is alive. -/
theorem hereAfter_uses {x : M Unit} {f : Nat → M α} (hx : UsesOnly K x)
    (hb : ∀ m m', x m = .ok () m' → m'.compiler.building? ≠ none) (hf : ∀ k, UsesOnly K (f k)) :
    UsesOnly K (x >>= fun _ => M.here >>= f) := by
  intro m s
  have hs := hx m s
  cases hr : x m with
  | error e m₁ =>
    rw [hr] at hs
    rw [M.bind_error hr, M.bind_error hs]
    rfl
  | ok _ m₁ =>
    rw [hr] at hs
    obtain ⟨w, hw⟩ := Option.ne_none_iff_exists'.1 (hb _ _ hr)
    have here_eq : ∀ y : Machine, y.compiler.building? = some w →
        M.here y = .ok (y.heap.word w).size y := by
      intro y hy
      show M.lift (y.compiler.here y.heap y.roots) y = _
      simp [Compiler.here, hy, M.lift]
    rw [M.bind_ok hr, M.bind_ok hs, M.bind_ok (here_eq _ hw), M.bind_ok (here_eq (m₁.amid K s) hw)]
    exact hf _ m₁ s

theorem compileHole_uses : UsesOnly K compileHole :=
  hereAfter_uses (M.compileBuiltin_uses _) (fun _ _ => building_of_compileBuiltin) fun _ =>
    (M.compile_uses _).bind fun _ => .pure _

theorem fillHole_uses (hole target : Nat) : UsesOnly K (fillHole hole target) :=
  .get (fun _ _ => rfl) fun _ => M.setHeap_uses _

theorem compileJump_uses (target : Nat) (word : String) : UsesOnly K (compileJump target word) :=
  (M.compileLiteral_uses _).bind fun _ => M.compileBuiltin_uses _

theorem building_of_compileJump {target : Nat} {word : String} {m m' : Machine}
    (h : compileJump target word m = .ok () m') : m'.compiler.building? ≠ none := by
  obtain ⟨_, _, _, h⟩ := M.of_bind_ok h
  exact building_of_compileBuiltin h

/-- A jump back, after which the hole is filled. -/
theorem jumpBack_uses (target hole : Nat) (word : String) : UsesOnly K (do
    compileJump target word
    fillHole hole (← M.here)) :=
  hereAfter_uses (compileJump_uses _ _) (fun _ _ => building_of_compileJump) (fillHole_uses _)

theorem build_uses (w : ControlWord) (hK : (Primitive.control w).uses.Within K) :
    UsesOnly K w.build := by
  cases w with
  | openIf =>
    exact compileHole_uses.bind fun _ => (M.compileBuiltin_uses _).bind fun _ => openAt_uses _ _
  | elseBranch =>
    exact (closeTag_uses _ _).bind fun _ => compileHole_uses.bind fun _ =>
      hereAfter_uses (M.compileBuiltin_uses _) (fun _ _ => building_of_compileBuiltin) fun _ =>
        (fillHole_uses _ _).bind fun _ => openAt_uses _ _
  | closeIf =>
    exact (closeTag_uses _ _).bind fun _ => (M.here_uses (hK.calls rfl)).bind fun _ =>
      fillHole_uses _ _
  | beginLoop => exact (M.here_uses (hK.calls rfl)).bind fun _ => openAt_uses _ _
  | untilFlag => exact (closeTag_uses _ _).bind fun _ => compileJump_uses _ _
  | again => exact (closeTag_uses _ _).bind fun _ => compileJump_uses _ _
  | whileFlag =>
    exact (M.peek_uses 0).bind fun _ => .orThrow <| compileHole_uses.bind fun _ =>
      (M.compileBuiltin_uses _).bind fun _ => openAt_uses _ _
  | repeatLoop =>
    exact (closeTag_uses _ _).bind fun _ => (closeTag_uses _ _).bind fun _ => jumpBack_uses _ _ _
  | openCount maySkip =>
    exact compileHole_uses.bind fun _ =>
      hereAfter_uses (M.compileBuiltin_uses _) (fun _ _ => building_of_compileBuiltin) fun _ =>
        (M.push_uses _).bind fun _ => openAt_uses _ _
  | closeCount stepped =>
    exact (closeTag_uses _ _).bind fun _ => (popAddress_uses _).bind fun _ => jumpBack_uses _ _ _
  | leave => exact M.compileBuiltin_uses _
  | unloop => exact M.compileBuiltin_uses _
  | recurse => exact M.compile_uses _

theorem run_uses (w : ControlWord) (hK : (Primitive.control w).uses.Within K) : UsesOnly K w.run :=
  (M.requireCompiling_uses _).bind fun _ => build_uses w hK

end ControlWord

namespace BranchWord

theorem jumpTo_uses (hK : K.calls = true) (address : Int64) : UsesOnly K (jumpTo address) :=
  (M.parent_uses hK).bind fun _ => .get (fun _ _ => rfl) fun _ =>
    .ite (M.setParentIp_uses hK _) (.throw _)

theorem openLoop_uses (exit limit start : Int64) : UsesOnly K (openLoop exit limit start) :=
  (M.pushReturn_uses _).bind fun _ => (M.pushReturn_uses _).bind fun _ => M.pushReturn_uses _

theorem dropLoop_uses : UsesOnly K dropLoop :=
  M.popReturn_uses.bind fun _ => M.popReturn_uses.bind fun _ => M.popReturn_uses.bind fun _ => .pure _

theorem setIndex_uses (k : Int64) : UsesOnly K (setIndex k) := by
  intro m s
  simp only [setIndex, Machine.amid]
  cases m.return.overwrite 0 k <;> rfl

theorem advance_uses (hK : K.calls = true) (entry step : Int64) (stepped : Bool) :
    UsesOnly K (advance entry step stepped) :=
  (M.peekReturn_uses 0).bind fun _ => (M.peekReturn_uses 1).bind fun _ =>
    .ite dropLoop_uses ((setIndex_uses _).bind fun _ => jumpTo_uses hK entry)

theorem act_uses (w : BranchWord) (hK : (Primitive.branch w).uses.Within K) :
    UsesOnly K w.act := by
  cases w with
  | inlineLiteral =>
    exact (M.parent_uses (hK.calls rfl)).bind fun _ => .get (fun _ _ => rfl) fun _ =>
      (M.lift_uses _).bind fun _ => (M.setParentIp_uses (hK.calls rfl) _).bind fun _ => M.push_uses _
  | jump => exact M.popInt_uses.bind (jumpTo_uses (hK.calls rfl))
  | jumpIfFalse =>
    exact M.popInt_uses.bind fun _ => M.popFlag_uses.bind fun _ =>
      .ite (jumpTo_uses (hK.calls rfl) _) (.pure _)
  | jumpIfTrue =>
    exact M.popInt_uses.bind fun _ => M.popFlag_uses.bind fun _ =>
      .ite (jumpTo_uses (hK.calls rfl) _) (.pure _)
  | enterCount maySkip =>
    refine M.popInt_uses.bind fun exit => M.popInt_uses.bind fun start =>
      M.popInt_uses.bind fun limit => ?_
    cases maySkip with
    | false => exact openLoop_uses exit limit start
    | true => exact .ite (jumpTo_uses (hK.calls rfl) exit) (openLoop_uses exit limit start)
  | advanceCount stepped =>
    refine M.popInt_uses.bind fun entry => ?_
    cases stepped with
    | false => exact advance_uses (hK.calls rfl) _ _ _
    | true => exact M.popInt_uses.bind fun _ => advance_uses (hK.calls rfl) _ _ _
  | leave =>
    exact (M.peekReturn_uses 2).bind fun _ => dropLoop_uses.bind fun _ =>
      jumpTo_uses (hK.calls rfl) _
  | unloop => exact dropLoop_uses
  | index => exact (M.peekReturn_uses 0).bind fun _ => M.push_uses _
  | outerIndex => exact (M.peekReturn_uses 3).bind fun _ => M.push_uses _
  | exit => exact .pure _

theorem run_uses (w : BranchWord) (hK : (Primitive.branch w).uses.Within K) : UsesOnly K w.run := by
  cases w with
  | exit => exact .pure _
  | _ => exact (act_uses _ hK).bind fun _ => .pure _

end BranchWord

namespace ObjectWord

theorem make_uses (t : TypeId) (maker : Maker) : UsesOnly K (make t maker) := by
  cases maker with
  | string => exact M.pushNew_uses _
  | array =>
    exact M.popInt_uses.bind fun k => .orThrow <| .orThrow <| M.pushNew_uses _
  | host refuses =>
    cases refuses with
    | false => exact .get (fun _ _ => rfl) fun _ => M.pushNew_uses _
    | true => exact .throw _

theorem makeObject_uses : UsesOnly K makeObject := by
  refine M.pop_uses.bind fun v => (M.lift_uses _).bind fun t => .get (fun _ _ => rfl) fun m =>
    .orThrow ?_
  split
  · exact .throw _
  · split
    · exact .throw _
    · exact make_uses _ _
    · exact M.pushNew_uses _

theorem call_uses (f : Function) (hK : (Primitive.object (.invoke f)).uses.Within K) :
    UsesOnly K (call f) := by
  refine M.pop_uses.bind fun _ => (M.lift_uses _).bind fun o => .get (fun m s => ?_) fun _ =>
    .ite (M.onStore_uses _) (.throw _)
  -- the address of the object makes no difference to its functions, except to its hash
  have ha : Store.invoke ((m.amid K s).addresses o) o f = Store.invoke (m.addresses o) o f := by
    by_cases hf : f = .hash
    · simp only [Machine.amid, hK.addresses (beq_iff_eq.2 hf), cond_true]
    · exact Store.invoke_address hf _ _
  rw [ha]
  rfl

theorem nextFields_uses (hK : K.line = true) : ∀ k, UsesOnly K (nextFields k)
  | 0 => .pure _
  | k + 1 => by
    refine (M.nextToken_uses hK).bind fun t => ?_
    split
    · exact .pure _
    · exact .pure _
    · exact (nextFields_uses hK k).bind fun _ => .pure _

theorem defineFields_uses (name : String) : ∀ i fields, UsesOnly K (defineFields name i fields)
  | _, [] => .pure _
  | i, _ :: rest => (M.defineConstant_uses _ _).bind fun _ => defineFields_uses name (i + 1) rest

theorem declare_uses (hK : K.line = true) : UsesOnly K declare := by
  refine (M.nextName_uses hK _).bind fun name => .get (fun m s => ?_) fun m =>
    (nextFields_uses hK _).bind fun fields => ?_
  · simp only [Machine.amid, hK, cond_true]
  · cases fields with
    | none => exact .throw _
    | some fields =>
      exact (M.onTypes_uses _).bind fun _ => (M.defineConstant_uses _ _).bind fun _ =>
        defineFields_uses _ _ _

theorem run_uses (w : ObjectWord) (hK : (Primitive.object w).uses.Within K) : UsesOnly K w.run := by
  cases w with
  | new => exact makeObject_uses
  | typeOf => exact M.pop_uses.bind fun _ => .get (fun _ _ => rfl) fun _ => M.push_uses _
  | invoke f => exact call_uses f hK
  | struct => exact declare_uses (hK.line rfl)
  | setHandler =>
    exact M.pop_uses.bind fun _ => (M.lift_uses _).bind fun _ => M.popWord_uses.bind fun _ =>
      M.onTypes_uses _
  | refcount =>
    refine (M.peek_uses 0).bind fun v => .get (fun m s => ?_) fun _ => M.push_uses _
    rw [Machine.amid_roots (hK.calls rfl)]
    rfl

end ObjectWord

namespace StateWord

theorem popCell_uses : UsesOnly K popCell := M.popInt_uses.bind fun _ => M.lift_uses _

theorem run_uses (w : StateWord) (hK : (Primitive.state w).uses.Within K) : UsesOnly K w.run := by
  cases w with
  | loadCell => exact popCell_uses.bind fun _ => .get (fun _ _ => rfl) fun _ => M.push_uses _
  | storeCell =>
    exact popCell_uses.bind fun _ => M.popInt_uses.bind fun _ => .modify fun _ _ => rfl
  | loadFlag => exact popCell_uses.bind fun _ => .get (fun _ _ => rfl) fun _ => M.push_uses _
  | storeFlag =>
    exact popCell_uses.bind fun _ => M.popFlag_uses.bind fun _ => .modify fun _ _ => rfl
  | debugLevel =>
    have hd : K.debugger = true := hK.debugger rfl
    have hc : K.calls = true := hK.calls rfl
    refine M.popInt_uses.bind fun k => ?_
    split
    · exact .modify fun m s => by simp only [Machine.amid, hd, hc, cond_true]
    · exact .throw _

end StateWord

theorem HostWord.run_uses (w : HostWord) (hK : (Primitive.host w).uses.Within K) :
    UsesOnly K w.run := by
  cases w with
  | log =>
    have hh : K.host = true := hK.host rfl
    refine M.pop_uses.bind fun v => (UsesOnly.modify fun m s => ?_).bind fun _ => .pure _
    simp only [Machine.format_amid]
    simp only [Machine.amid, hh, cond_true]
  | bump =>
    have hh : K.host = true := hK.host rfl
    refine (UsesOnly.modify fun m s => ?_).bind fun _ => .get (fun m s => ?_) fun _ =>
      (M.push_uses _).bind fun _ => .pure _
    · simp only [Machine.amid, hh, cond_true]
    · simp only [Machine.amid, hh, cond_true]
  | boom => exact .throw _
  | boomAny => exact .throw _
  | boomText => exact M.popInt_uses.bind fun _ => .throw _
  | nested => exact M.popWord_uses.bind fun _ => .pure _
  | attempt => exact M.popWord_uses.bind fun _ => .pure _
  | exit => exact .pure _
  | call => exact M.popWord_uses.bind fun _ => .pure _
  | interrupt =>
    have hi : K.interrupt = true := hK.interrupt rfl
    refine (UsesOnly.modify fun m s => ?_).bind fun _ => .pure _
    simp only [Machine.amid, hi, cond_true]

theorem pushDataAddress_uses (hK : K.calls = true) : UsesOnly K pushDataAddress :=
  (M.current_uses hK).bind fun _ => .get (fun _ _ => rfl) fun _ => M.push_uses _

theorem pushFirstSlot_uses (hK : K.calls = true) : UsesOnly K pushFirstSlot :=
  (M.current_uses hK).bind fun _ => .get (fun _ _ => rfl) fun _ => (M.lift_uses _).bind fun _ =>
    M.push_uses _

theorem UsesOnly.thenNext {act : M Unit} (h : UsesOnly K act) : UsesOnly K (thenNext act) :=
  h.bind fun _ => .pure _

/-- **A primitive uses no part of its surroundings but its own.** -/
theorem Primitive.run_usesOnly (p : Primitive) (hK : p.uses.Within K) : UsesOnly K p.run := by
  cases p with
  | stack w => exact w.run_uses.thenNext
  | arithmetic w => exact w.run_uses
  | float w => exact w.run_uses.thenNext
  | output w => exact (w.run_uses hK).thenNext
  | memory w => exact w.run_uses hK
  | defining w => exact w.run_uses hK
  | control w => exact (w.run_uses hK).thenNext
  | branch w => exact w.run_uses hK
  | object w => exact (w.run_uses hK).thenNext
  | state w => exact (w.run_uses hK).thenNext
  | host w => exact w.run_uses hK
  | dataAddress => exact (pushDataAddress_uses (hK.calls rfl)).thenNext
  | pushConstant => exact (pushFirstSlot_uses (hK.calls rfl)).thenNext
  | nop => exact .pure _

/-! ## The engine and the interpreter -/

namespace Machine

theorem resume_uses (pending : Pending) : UsesOnly K (resume pending) := by
  cases pending with
  | outside | run => exact .pure _
  | handler depth after => exact (Operator.conclude_uses depth after).bind fun _ => .pure _
  | attempt => exact (M.pushNew_uses _).bind fun _ => .pure _

theorem fill_uses (hK : K.line = true) (text : String) : UsesOnly K (fill text) := by
  intro m s
  simp only [fill, amid, hK, cond_true]
  cases m.line.fill text <;> simp [alter]

theorem checkInterrupt_eq (m : Machine) :
    checkInterrupt m = bif m.interrupt then .error .interrupted { m with interrupt := false }
      else .ok () m := by
  cases h : m.interrupt <;> simp [checkInterrupt, h]

theorem checkInterrupt_uses (hK : K.interrupt = true) : UsesOnly K checkInterrupt := by
  intro m s
  have hi : (m.amid K s).interrupt = m.interrupt := by simp only [amid, hK, cond_true]
  rw [checkInterrupt_eq, checkInterrupt_eq, hi]
  cases m.interrupt <;> simp [alter, amid, hK]

theorem nextSourceToken_uses (hl : K.line = true) (hi : K.interrupt = true) :
    UsesOnly K nextSourceToken := by
  have hc : ∀ (m : Machine) (s : Surroundings), (m.amid K s).inComment = m.inComment :=
    fun m s => by simp only [amid, hl, cond_true]
  refine (checkInterrupt_uses hi).bind fun _ => .get (fun m s => by rw [hc]) fun m => ?_
  refine .ite ?_ (M.nextToken_uses hl)
  refine (skipComment_uses hl).bind fun _ => .get (fun m s => by rw [hc]) fun m => ?_
  exact .ite (.pure _) (M.nextToken_uses hl)

theorem compilePostponed_uses (w : WordId) : UsesOnly K (compilePostponed w) := by
  refine .get (fun _ _ => rfl) fun m => .ite (M.compile_uses _) ?_
  exact (M.compileLiteral_uses _).bind fun _ => M.compileBuiltin_uses _

theorem interpretNumber_uses (token : String) : UsesOnly K (interpretNumber token) := by
  unfold interpretNumber
  cases Literal.number? token with
  | none => exact .throw _
  | some n =>
    refine M.mode_uses.bind fun mode => ?_
    cases mode with
    | interpreting => exact M.push_uses _
    | compiling => exact M.compileLiteral_uses _
    | compilingPostponed | runtimeCompiling => exact .throw _

theorem compileToken_eq (token : String) :
    compileToken token = (do
      let m ← get
      match m.find? token with
      | none => interpretNumber token
      | some w =>
        match m.compiler.mode with
        | .compilingPostponed => do M.setMode .compiling; compilePostponed w
        | .runtimeCompiling => do M.setMode .interpreting; setLastCode (.indirect w 1)
        | _ => M.compileWord w) := by
  funext m
  show compileToken token m = (match m.find? token with | none => _ | some w => _ : M Unit) m
  unfold compileToken
  cases m.find? token with
  | none => rfl
  | some w => cases m.compiler.mode <;> rfl

theorem compileToken_uses (hK : K.calls = true) (token : String) :
    UsesOnly K (compileToken token) := by
  rw [compileToken_eq]
  refine .get (fun _ _ => rfl) fun m => ?_
  cases m.find? token with
  | none => exact interpretNumber_uses token
  | some w =>
    cases m.compiler.mode with
    | interpreting | compiling => exact M.compileWord_uses w
    | compilingPostponed => exact (M.setMode_uses _).bind fun _ => compilePostponed_uses w
    | runtimeCompiling => exact (M.setMode_uses _).bind fun _ => setLastCode_uses hK _

end Machine
end ThreadedForth
