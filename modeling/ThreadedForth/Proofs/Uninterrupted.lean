/-
  Work that nothing interrupts.
-/
import ThreadedForth.Proofs.Surroundings

namespace ThreadedForth

variable {α β σ : Type} {address : UInt64}

/-! ## Results -/

/-- Whether an error is an interruption. -/
def Error.isInterruption : Error → Bool
  | interrupted => true
  | _ => false

theorem Error.ne_interrupted {e : Error} (h : e.isInterruption = false) : e ≠ .interrupted := by
  rintro rfl
  cases h

/-- A result that is no interruption. -/
def Calm (r : Except Error α) : Prop :=
  r ≠ .error .interrupted

namespace Calm

@[simp] theorem ok (a : α) : Calm (.ok a) := by
  simp [Calm]

@[simp] theorem error_iff {e : Error} : Calm (.error e : Except Error α) ↔ e ≠ .interrupted := by
  simp [Calm]

/-- An error that is passed on. -/
theorem passed {r : Except Error α} {e : Error} (hr : Calm r) (h : r = .error e) :
    Calm (.error e : Except Error β) := by
  rw [h] at hr
  exact error_iff.2 (error_iff.1 hr)

theorem bind {r : Except Error α} {f : α → Except Error β} (hr : Calm r) (hf : ∀ a, Calm (f a)) :
    Calm (r >>= f) := by
  cases r with
  | ok a => exact hf a
  | error e => exact error_iff.2 (error_iff.1 hr)

theorem map {r : Except Error α} (f : α → β) (hr : Calm r) : Calm (r.map f) := by
  cases r with
  | ok a => exact ok _
  | error e => exact error_iff.2 (error_iff.1 hr)

end Calm

/-! ### Values -/

namespace Value

theorem toInt_calm (v : Value) : Calm v.toInt := by
  cases v <;> simp [toInt, mismatch]

theorem toFloat_calm (v : Value) : Calm v.toFloat := by
  unfold toFloat
  split
  · exact .ok _
  · split <;> simp [mismatch]

theorem toFlag_calm (v : Value) : Calm v.toFlag := by
  cases v <;> simp [toFlag, mismatch]

theorem toWord_calm (v : Value) : Calm v.toWord := by
  cases v <;> simp [toWord, mismatch]

theorem toObject_calm (v : Value) : Calm v.toObject := by
  cases v <;> simp [toObject, mismatch]

theorem toType_calm (v : Value) : Calm v.toType := by
  cases v <;> simp [toType, mismatch]

theorem toOperator_calm (v : Value) : Calm v.toOperator := by
  cases v <;> simp [toOperator, mismatch]

theorem toPointer_calm (v : Value) : Calm v.toPointer := by
  cases v <;> simp [toPointer]

end Value

/-! ### Stacks and the output -/

namespace Stack

variable (s : Stack α)

theorem push_calm (x : α) : Calm (s.push x) := by
  unfold push
  split <;> simp

theorem pop_calm : Calm s.pop := by
  unfold pop
  split <;> simp

theorem peek_calm (n : Nat) : Calm (s.peek n) := by
  unfold peek
  split <;> simp

theorem ensureRoom_calm (n : Nat) : Calm (s.ensureRoom n) := by
  unfold ensureRoom
  split <;> simp

theorem overwrite_calm (n : Nat) (x : α) : Calm (s.overwrite n x) := by
  unfold overwrite
  split <;> simp

end Stack

namespace Output

theorem push_calm (o : Output) (piece : String) : Calm (o.push piece) := by
  unfold push
  split <;> simp

theorem pushBytes_calm (o : Output) (bs : List UInt8) : Calm (o.pushBytes bs) := by
  unfold pushBytes
  split
  · exact o.push_calm _
  · simp

end Output

/-! ### Words and the heap -/

namespace Word

theorem code_calm (w : Word) : Calm w.code := by
  unfold code
  split <;> simp

theorem checkSlot_calm (index : Nat) (e : Elem) : Calm (checkSlot index e) := by
  cases e <;> simp only [checkSlot] <;> split <;> simp

theorem push_calm (w : Word) (e : Elem) : Calm (w.push e) := by
  unfold push
  split
  · exact .ok _
  · exact (checkSlot_calm w.size e).passed ‹_›

theorem poke_calm (w : Word) (index : Nat) (e : Elem) : Calm (w.poke index e) := by
  unfold poke
  split
  · split <;> simp [badOffset]
  · exact (checkSlot_calm index e).passed ‹_›

theorem expand_calm (w : Word) (n : Nat) : Calm (w.expand n) := by
  unfold expand
  split <;> simp

theorem load_calm (w : Word) (index : Nat) : Calm (w.load index) := by
  unfold load
  split
  · split <;> simp [badOffset]
  · simp [badOffset]

theorem store_calm (w : Word) (index : Nat) (v : Value) : Calm (w.store index v) := by
  unfold store
  split
  · exact .ok _
  · exact (w.load_calm index).passed ‹_›

end Word

namespace Heap

variable (h : Heap)

theorem changeWord_calm (w : WordId) {f : Word → Except Error Word} (hf : ∀ x, Calm (f x)) :
    Calm (h.changeWord w f) := by
  unfold changeWord
  split
  · exact .ok _
  · exact (hf _).passed ‹_›

theorem store_calm (p : Pointer) (v : Value) : Calm (h.store p v) :=
  h.changeWord_calm _ fun w => w.store_calm _ _

theorem deref_calm (v : Value) : Calm (h.deref v) := by
  unfold deref
  split
  · exact Word.load_calm _ _
  · exact v.toPointer_calm.passed ‹_›

theorem moved_calm (p : Pointer) (n : Int64) : Calm (h.moved p n) := by
  refine .map _ ?_
  unfold offset
  dsimp only
  split <;> simp

end Heap

/-! ### Operators -/

theorem intResult_calm (a b : Int64) (op : Operator) : Calm (intResult a b op) := by
  cases op with
  | div | mod => simp only [intResult]; split <;> simp
  | _ => exact .ok _

theorem floatResult_calm (a b : Float) (op : Operator) : Calm (floatResult a b op) := by
  cases op with
  | div | mod => simp only [floatResult]; split <;> simp
  | _ => simp [floatResult]

theorem flagResult_calm (a b : Bool) (op : Operator) : Calm (flagResult a b op) := by
  cases op <;> simp [flagResult, noRule]

theorem equalityResult_calm (a b : Value) (op : Operator) : Calm (equalityResult a b op) := by
  cases op <;> simp [equalityResult, noRule]

namespace Heap

variable (h : Heap) (a b : Value) (op : Operator)

theorem applyValues_calm : Calm (h.applyValues a b op) := by
  unfold applyValues
  split
  · exact (a.toFloat_calm).bind fun _ => (b.toFloat_calm).bind fun _ => floatResult_calm _ _ op
  · split
    · exact flagResult_calm _ _ op
    · split
      · exact h.moved_calm _ _
      · exact h.moved_calm _ _
      · simp [noRule]
    · split
      · exact h.moved_calm _ _
      · simp [noRule]
    · split
      · split <;> simp [noRule]
      · exact equalityResult_calm _ _ op
    · exact equalityResult_calm _ _ op
    · exact equalityResult_calm _ _ op
    · exact equalityResult_calm _ _ op
    · exact equalityResult_calm _ _ op
    · split
      · exact (a.toInt_calm).bind fun _ => (b.toInt_calm).bind fun _ => intResult_calm _ _ op
      · simp [noRule]

theorem applyStrings_calm : Calm (h.applyStrings a b op) := by
  unfold applyStrings
  split
  · exact .ok _
  · split
    · split
      · exact .ok _
      · split <;> simp
    · simp

end Heap

/-! ### Sequences, types and the dictionary -/

theorem checkIndex_calm (index : Int64) (length : Nat) : Calm (checkIndex index length) := by
  unfold checkIndex
  split <;> simp

theorem checkRange_calm (start count : Int64) (length : Nat) :
    Calm (checkRange start count length) := by
  unfold checkRange
  split
  · simp
  · split <;> simp

theorem Heap.needle_calm (h : Heap) (v : Value) : Calm (h.needle v) := by
  unfold Heap.needle
  split
  · exact .ok _
  · split <;> simp

theorem storedChar_calm (v : Value) : Calm (storedChar v) := by
  unfold storedChar
  split
  · split <;> simp
  · split <;> simp
  · simp

theorem byteOf_calm (v : Value) : Calm (byteOf v) := by
  unfold byteOf
  split
  · exact .ok _
  · refine (Value.toInt_calm _).bind fun n => ?_
    split <;> simp

namespace Types

theorem addUser_calm (t : Types) (d : Declaration) : Calm (t.addUser d).1 := by
  have h : Calm (t.checkFree d.name t.users.size TypeId.userRoom) := by
    unfold checkFree
    split
    · simp
    · split <;> simp
  unfold addUser
  split
  · exact h.passed ‹_›
  · exact .ok _

theorem setHandler_calm (t : Types) (id : TypeId) (x : Handler) : Calm (t.setHandler id x).1 := by
  unfold setHandler
  split
  · simp
  · rename_i e _
    have h : Calm (e.setHandler x) := by
      unfold TypeEntry.setHandler
      split <;> simp
    split
    · exact h.passed ‹_›
    · exact .ok _

end Types

theorem Dictionary.forget_calm (d : Dictionary) (h : Heap) (name : String) :
    Calm (d.forget h name) := by
  unfold Dictionary.forget
  split
  · simp
  · split <;> simp

namespace Compiler

variable (c : Compiler) (h : Heap)

theorem building_calm : Calm c.building := by
  unfold building
  split <;> simp

theorem last_calm (roots : List Ref) : Calm (c.last h roots) := by
  unfold last
  split
  · split <;> simp
  · simp

theorem push_calm (e : Elem) : Calm (c.push h e) :=
  c.building_calm.bind fun _ => h.changeWord_calm _ fun w => w.push_calm e

theorem compileWord_calm (w : WordId) : Calm (c.compileWord h w) := by
  refine c.building_calm.bind fun b => ?_
  split
  · exact (Word.code_calm _).bind fun _ => h.changeWord_calm _ fun x => x.push_calm _
  · exact h.changeWord_calm _ fun x => x.push_calm _

theorem alter_calm (index : Nat) (e : Elem) : Calm (c.alter h index e) :=
  c.building_calm.bind fun _ => h.changeWord_calm _ fun w => w.poke_calm _ _

theorem here_calm (roots : List Ref) : Calm (c.here h roots) := by
  unfold here
  split
  · exact .ok _
  · exact (c.last_calm h roots).map _

theorem expand_calm (roots : List Ref) (n : Nat) : Calm (c.expand h roots n) :=
  (c.last_calm h roots).bind fun _ => h.changeWord_calm _ fun w => w.expand_calm n

end Compiler

/-! ## Computations -/

/-- A computation that fails for other reasons than an interrupt, if it fails. -/
def Uninterrupted (act : EStateM Error σ α) : Prop :=
  ∀ s s', act s ≠ .error .interrupted s'

namespace Uninterrupted

/-- A computation that does not fail. -/
theorem of_ok {act : EStateM Error σ α} {f : σ → α} {g : σ → σ} (h : ∀ s, act s = .ok (f s) (g s)) :
    Uninterrupted act := by
  intro s s' hs
  rw [h] at hs
  cases hs

theorem pure (a : α) : Uninterrupted (Pure.pure a : EStateM Error σ α) := of_ok fun _ => rfl

theorem throw {e : Error} (h : e.isInterruption = false) :
    Uninterrupted (MonadExcept.throw e : EStateM Error σ α) := by
  intro s s' hs
  exact e.ne_interrupted h (EStateM.Result.error.inj hs).1

theorem bind {x : EStateM Error σ α} {f : α → EStateM Error σ β} (hx : Uninterrupted x)
    (hf : ∀ a, Uninterrupted (f a)) : Uninterrupted (x >>= f) := by
  intro s s' h
  have h : EStateM.bind x f s = _ := h
  unfold EStateM.bind at h
  cases hr : x s with
  | ok a s₁ =>
    rw [hr] at h
    exact hf a s₁ s' h
  | error e s₁ =>
    rw [hr] at h
    cases h
    exact hx s s' hr

theorem get {f : σ → EStateM Error σ α} (hf : ∀ s, Uninterrupted (f s)) :
    Uninterrupted (MonadState.get >>= f) :=
  fun s s' => hf s s s'

theorem modify (f : σ → σ) : Uninterrupted (modify f : EStateM Error σ Unit) := of_ok fun _ => rfl

theorem set (s : σ) : Uninterrupted (MonadStateOf.set s : EStateM Error σ PUnit) :=
  of_ok fun _ => rfl

theorem ite {p : Prop} [Decidable p] {x y : EStateM Error σ α} (hx : Uninterrupted x)
    (hy : Uninterrupted y) : Uninterrupted (if p then x else y) := by
  split
  · exact hx
  · exact hy

/-- A check that comes before a computation. -/
theorem orThrow {p : Prop} [Decidable p] {e : Error} {x : EStateM Error σ α}
    (he : e.isInterruption = false) (hx : Uninterrupted x) :
    Uninterrupted
      (if p then (MonadExcept.throw e : EStateM Error σ Unit) >>= fun _ => x else x) :=
  .ite (.bind (.throw he) fun _ => hx) hx

end Uninterrupted

/-! ### Steps on a machine -/

namespace M

theorem lift_calm {r : Except Error α} (h : Calm r) : Uninterrupted (lift r) := by
  intro m m' hm
  unfold lift at hm
  split at hm
  · cases hm
  · cases hm
    exact h rfl

theorem pop_calm : Uninterrupted pop := by
  intro m m' h
  unfold pop at h
  split at h
  · cases h
  · cases h
    exact m.data.pop_calm ‹_›

theorem push_calm (v : Value) : Uninterrupted (push v) := by
  intro m m' h
  unfold push at h
  split at h
  · cases h
  · cases h
    exact m.data.push_calm v ‹_›

theorem peek_calm (n : Nat) : Uninterrupted (peek n) := by
  intro m m' h
  unfold peek at h
  split at h
  · cases h
  · cases h
    exact m.data.peek_calm n ‹_›

theorem popInt_calm : Uninterrupted popInt := pop_calm.bind fun v => lift_calm v.toInt_calm

theorem popFlag_calm : Uninterrupted popFlag := pop_calm.bind fun v => lift_calm v.toFlag_calm

theorem popWord_calm : Uninterrupted popWord := pop_calm.bind fun v => lift_calm v.toWord_calm

theorem pushReturn_calm (n : Int64) : Uninterrupted (pushReturn n) := by
  intro m m' h
  unfold pushReturn at h
  split at h
  · cases h
  · cases h
    exact m.return.push_calm n ‹_›

theorem popReturn_calm : Uninterrupted popReturn := by
  intro m m' h
  unfold popReturn at h
  split at h
  · cases h
  · cases h
    exact m.return.pop_calm ‹_›

theorem peekReturn_calm (n : Nat) : Uninterrupted (peekReturn n) := by
  intro m m' h
  unfold peekReturn at h
  split at h
  · cases h
  · cases h
    exact m.return.peek_calm n ‹_›

theorem setHeap_calm {r : Except Error Heap} (h : Calm r) : Uninterrupted (setHeap r) :=
  (lift_calm h).bind fun _ => .modify _

theorem onTypes_calm {act : Types → Except Error α × Types} (h : ∀ t, Calm (act t).1) :
    Uninterrupted (onTypes act) := by
  intro m m' hm
  have ht := h m.types
  unfold onTypes at hm
  split at hm
  · cases hm
  · cases hm
    rw [‹act m.types = _›] at ht
    exact ht rfl

theorem pushNew_calm (x : Obj) : Uninterrupted (pushNew x) :=
  fun m => push_calm _ { m with heap := (m.heap.addObject x).2 }

theorem onStore_calm {act : StoreM α} (h : Uninterrupted act) : Uninterrupted (onStore act) := by
  intro m m' hm
  unfold onStore at hm
  split at hm
  · cases hm
  · cases hm
    exact h _ _ ‹_›

theorem put_calm (piece : String) : Uninterrupted (put piece) := by
  intro m m' h
  unfold put at h
  split at h
  · cases h
  · cases h
    exact m.output.push_calm piece ‹_›

theorem write_calm (pieces : List String) : Uninterrupted (write pieces) := by
  intro m m' h
  rw [write_eq] at h
  cases hw : (m.output.write pieces).2 <;> simp [hw] at h

theorem builtin_calm (name : String) : Uninterrupted (builtin name) := by
  refine .get fun m => ?_
  cases m.find? name with
  | none => exact .throw rfl
  | some w => exact .pure w

theorem current_calm : Uninterrupted current := by
  refine .get fun m => ?_
  split
  · exact .pure _
  · exact .throw rfl

theorem parent_calm : Uninterrupted parent := by
  refine .get fun m => ?_
  split
  · exact .pure _
  · exact .throw rfl

theorem lastWith_calm (held : List Ref) : Uninterrupted (lastWith held) :=
  .get fun m => lift_calm (m.compiler.last_calm _ _)

theorem here_calm : Uninterrupted here := .get fun m => lift_calm (m.compiler.here_calm _ _)

theorem mode_calm : Uninterrupted mode := .get fun _ => .pure _

theorem setMode_calm (mode : Mode) : Uninterrupted (setMode mode) := .modify _

theorem requireCompiling_calm (word : String) : Uninterrupted (requireCompiling word) :=
  mode_calm.bind fun _ => .ite (.pure _) (.throw rfl)

theorem compile_calm (e : Elem) : Uninterrupted (compile e) :=
  .get fun m => setHeap_calm (m.compiler.push_calm _ e)

theorem compileWord_calm (w : WordId) : Uninterrupted (compileWord w) :=
  .get fun m => setHeap_calm (m.compiler.compileWord_calm _ w)

theorem compileBuiltin_calm (name : String) : Uninterrupted (compileBuiltin name) :=
  (builtin_calm name).bind fun _ => compile_calm _

theorem compileLiteral_calm (v : Value) : Uninterrupted (compileLiteral v) :=
  (compileBuiltin_calm _).bind fun _ => compile_calm _

theorem install_calm (w : Word) : Uninterrupted (install w) := .of_ok fun _ => rfl

theorem newText_calm (s : String) : Uninterrupted (newText s) := .of_ok fun _ => rfl

theorem defineConstant_calm (name : String) (v : Value) : Uninterrupted (defineConstant name v) :=
  (install_calm _).bind fun _ => (Uninterrupted.modify _).bind fun _ => .pure _

theorem nextToken_calm : Uninterrupted nextToken := .of_ok fun _ => rfl

theorem nextName_calm (reader : String) : Uninterrupted (nextName reader) := by
  refine nextToken_calm.bind fun t => ?_
  cases t with
  | none => exact .throw rfl
  | some name => exact .pure name

theorem nextWord_calm (reader : String) : Uninterrupted (nextWord reader) := by
  refine (nextName_calm reader).bind fun name => .get fun m => ?_
  cases m.find? name with
  | none => exact .throw rfl
  | some w => exact .pure w

theorem nextText_calm : Uninterrupted nextText := by
  intro m m' h
  unfold nextText at h
  split at h <;> cases h

end M

/-! ### The functions of objects -/

namespace Store

theorem lift_calm {r : Except Error α} (h : Calm r) : Uninterrupted (lift r) := by
  intro s s' hs
  unfold lift at hs
  split at hs
  · cases hs
  · cases hs
    exact h rfl

theorem pop_calm : Uninterrupted pop := by
  intro s s' h
  unfold pop at h
  split at h
  · cases h
  · cases h
    exact s.data.pop_calm ‹_›

theorem push_calm (v : Value) : Uninterrupted (push v) := by
  intro s s' h
  unfold push at h
  split at h
  · cases h
  · cases h
    exact s.data.push_calm v ‹_›

theorem popInt_calm : Uninterrupted popInt := pop_calm.bind fun v => lift_calm v.toInt_calm

theorem pushAll_calm : ∀ vs, Uninterrupted (pushAll vs)
  | [] => .pure _
  | v :: vs => (push_calm v).bind fun _ => pushAll_calm vs

theorem pushNew_calm (x : Obj) : Uninterrupted (pushNew x) :=
  .get fun _ => (Uninterrupted.modify _).bind fun _ => push_calm _

theorem invokeText_calm (o : ObjId) (text : String) (f : Function) :
    Uninterrupted (invokeText o text f) := by
  cases f with
  | size | hash => exact push_calm _
  | get => exact popInt_calm.bind fun _ => (lift_calm (checkIndex_calm _ _)).bind fun _ => push_calm _
  | set =>
    refine popInt_calm.bind fun _ => pop_calm.bind fun _ =>
      (lift_calm (storedChar_calm _)).bind fun _ => (lift_calm (checkIndex_calm _ _)).bind fun _ => ?_
    split
    · exact .modify _
    · exact .throw rfl
  | contains =>
    exact pop_calm.bind fun _ => .get fun s => (lift_calm (s.heap.needle_calm _)).bind fun _ =>
      push_calm _
  | indexOf =>
    refine pop_calm.bind fun _ => .get fun s => (lift_calm (s.heap.needle_calm _)).bind fun _ => ?_
    split
    · exact push_calm _
    · exact push_calm _
  | subRange =>
    refine popInt_calm.bind fun _ => popInt_calm.bind fun _ =>
      (lift_calm (checkRange_calm _ _ _)).bind fun _ => ?_
    dsimp only
    split
    · exact pushNew_calm _
    · exact .throw rfl
  | deconstruct => exact (pushAll_calm _).bind fun _ => push_calm _
  | append => exact pop_calm.bind fun _ => .get fun _ => .modify _
  | implements => exact popInt_calm.bind fun _ => push_calm _
  | _ => exact .throw rfl

theorem invokeItems_calm (o : ObjId) (x : Obj) (items : Array Value) (f : Function) :
    Uninterrupted (invokeItems address o x items f) := by
  cases f with
  | size | hash => exact push_calm _
  | get => exact popInt_calm.bind fun _ => (lift_calm (checkIndex_calm _ _)).bind fun _ => push_calm _
  | set =>
    exact popInt_calm.bind fun _ => pop_calm.bind fun _ =>
      (lift_calm (checkIndex_calm _ _)).bind fun _ => .modify _
  | contains => exact pop_calm.bind fun _ => .get fun _ => push_calm _
  | indexOf =>
    refine pop_calm.bind fun _ => .get fun s => ?_
    dsimp only
    split
    · exact push_calm _
    · exact push_calm _
  | deconstruct => exact (pushAll_calm _).bind fun _ => push_calm _
  | implements => exact popInt_calm.bind fun _ => push_calm _
  | _ => exact .throw rfl

theorem invokeArray_calm (o : ObjId) (x : Obj) (items : Array Value) (f : Function) :
    Uninterrupted (invokeArray address o x items f) := by
  unfold invokeArray
  split
  · exact popInt_calm.bind fun _ => popInt_calm.bind fun _ =>
      (lift_calm (checkRange_calm _ _ _)).bind fun _ => pushNew_calm _
  · exact pop_calm.bind fun _ => .modify _
  · exact invokeItems_calm o x items _

theorem invoke_calm (o : ObjId) (f : Function) : Uninterrupted (invoke address o f) := by
  refine .get fun s => ?_
  split
  · exact invokeText_calm o _ f
  · exact invokeArray_calm o _ _ f
  · exact invokeItems_calm o _ _ f

end Store

/-! ## Primitives -/

namespace StackWord

theorem ensureRoom_calm (n : Nat) : Uninterrupted (ensureRoom n) :=
  .get fun m => M.lift_calm (m.data.ensureRoom_calm n)

theorem pushSide_calm (k : SideStack) (v : Value) : Uninterrupted (pushSide k v) := by
  intro m m' h
  unfold pushSide at h
  split at h
  · cases h
  · cases h
    exact (side m k).push_calm v ‹_›

theorem popSide_calm (k : SideStack) : Uninterrupted (popSide k) := by
  intro m m' h
  unfold popSide at h
  split at h
  · cases h
  · cases h
    exact (side m k).pop_calm ‹_›

theorem run_calm (w : StackWord) : Uninterrupted w.run := by
  cases w with
  | dup => exact (M.peek_calm 0).bind M.push_calm
  | drop => exact M.pop_calm.bind fun _ => .pure _
  | swap =>
    exact M.pop_calm.bind fun _ => M.pop_calm.bind fun _ =>
      (M.push_calm _).bind fun _ => M.push_calm _
  | «over» => exact (M.peek_calm 1).bind M.push_calm
  | rot =>
    exact M.pop_calm.bind fun _ => M.pop_calm.bind fun _ => M.pop_calm.bind fun _ =>
      (M.push_calm _).bind fun _ => (M.push_calm _).bind fun _ => M.push_calm _
  | nip => exact M.pop_calm.bind fun _ => M.pop_calm.bind fun _ => M.push_calm _
  | tuck =>
    exact (ensureRoom_calm 1).bind fun _ => M.pop_calm.bind fun _ => M.pop_calm.bind fun _ =>
      (M.push_calm _).bind fun _ => (M.push_calm _).bind fun _ => M.push_calm _
  | twoDup =>
    exact (M.peek_calm 1).bind fun _ => (M.peek_calm 0).bind fun _ =>
      (ensureRoom_calm 2).bind fun _ => (M.push_calm _).bind fun _ => M.push_calm _
  | twoDrop => exact M.pop_calm.bind fun _ => M.pop_calm.bind fun _ => .pure _
  | pick =>
    exact M.popInt_calm.bind fun _ => .get fun _ => (M.lift_calm (checkIndex_calm _ _)).bind fun _ =>
      (M.peek_calm _).bind M.push_calm
  | depth => exact .get fun _ => M.push_calm _
  | clear => exact .modify _
  | toReturn => exact M.popInt_calm.bind M.pushReturn_calm
  | fromReturn => exact M.popReturn_calm.bind fun _ => M.push_calm _
  | copyReturn => exact (M.peekReturn_calm 0).bind fun _ => M.push_calm _
  | toSide k => exact M.pop_calm.bind (pushSide_calm k)
  | fromSide k => exact (popSide_calm k).bind M.push_calm
  | copySide k => exact .get fun m => (M.lift_calm ((side m k).peek_calm 0)).bind M.push_calm

end StackWord

namespace Operator

theorem takeResult_calm (depth : Nat) : Uninterrupted (takeResult depth) :=
  .get fun _ => .ite M.pop_calm (.throw rfl)

theorem handleStrings_calm : Uninterrupted handleStrings :=
  M.pop_calm.bind fun v => (M.lift_calm v.toOperator_calm).bind fun _ => M.pop_calm.bind fun _ =>
    M.pop_calm.bind fun _ => .get fun m => (M.lift_calm (m.heap.applyStrings_calm _ _ _)).bind fun _ =>
      (Uninterrupted.modify _).bind fun _ => M.push_calm _

theorem handleHost_calm (h : HostHandler) : Uninterrupted (handleHost h) := by
  cases h with
  | const | exit =>
    exact M.pop_calm.bind fun _ => M.pop_calm.bind fun _ => M.pop_calm.bind fun _ =>
      (M.push_calm _).bind fun _ => .pure _
  | call => exact (M.builtin_calm _).bind fun _ => .pure _
  | broken => exact M.pop_calm.bind fun _ => .pure _

theorem handle_calm (h : Handler) : Uninterrupted (handle h) := by
  cases h with
  | strings => exact handleStrings_calm.bind fun _ => .pure _
  | host h => exact handleHost_calm h
  | word w => exact .pure _

theorem dispatch_calm (a b : Value) (op : Operator) : Uninterrupted (dispatch a b op) := by
  refine .get fun m => ?_
  cases handler? m a b with
  | none => exact (M.lift_calm (m.heap.applyValues_calm a b op)).bind fun _ => .pure _
  | some h =>
    refine (M.push_calm a).bind fun _ => (M.push_calm b).bind fun _ =>
      (M.push_calm _).bind fun _ => (handle_calm h).bind fun w => ?_
    cases w with
    | none => exact (takeResult_calm _).bind fun _ => .pure _
    | some w => exact .pure _

theorem useResult_calm (v : Value) (after : After) : Uninterrupted (useResult v after) := by
  cases after with
  | push => exact M.push_calm v
  | select a b =>
    exact (M.lift_calm v.toFlag_calm).bind fun _ => .ite (M.push_calm a) (M.push_calm b)
  | store p => exact .get fun m => M.setHeap_calm (m.heap.store_calm p v)

theorem conclude_calm (depth : Nat) (after : After) : Uninterrupted (conclude depth after) :=
  (takeResult_calm depth).bind fun v => useResult_calm v after

theorem applyThen_calm (a b : Value) (op : Operator) (after : After) :
    Uninterrupted (applyThen a b op after) := by
  refine (dispatch_calm a b op).bind fun d => ?_
  cases d with
  | done v => exact (useResult_calm v after).bind fun _ => .pure _
  | run w depth => exact .pure _

end Operator

theorem ArithmeticWord.run_calm (w : ArithmeticWord) : Uninterrupted w.run := by
  cases w with
  | apply op =>
    exact M.pop_calm.bind fun b => M.pop_calm.bind fun a => Operator.applyThen_calm a b op _
  | select op =>
    exact M.pop_calm.bind fun b => M.pop_calm.bind fun a => Operator.applyThen_calm a b op _
  | increment => exact M.pop_calm.bind fun a => Operator.applyThen_calm a _ _ _
  | decrement => exact M.pop_calm.bind fun a => Operator.applyThen_calm a _ _ _
  | negate | abs =>
    refine M.pop_calm.bind fun v => ?_
    cases v with
    | float x => exact (M.push_calm _).bind fun _ => .pure _
    | _ =>
      exact (M.lift_calm (Value.toInt_calm _)).bind fun _ => (M.push_calm _).bind fun _ => .pure _
  | not => exact M.popFlag_calm.bind fun _ => (M.push_calm _).bind fun _ => .pure _
  | invert => exact M.popInt_calm.bind fun _ => (M.push_calm _).bind fun _ => .pure _
  | flag b => exact (M.push_calm _).bind fun _ => .pure _

theorem onFloat_calm (f : Float → Float) : Uninterrupted (onFloat f) :=
  M.pop_calm.bind fun v => (M.lift_calm v.toFloat_calm).bind fun _ => M.push_calm _

theorem FloatWord.run_calm (w : FloatWord) : Uninterrupted w.run := by
  cases w with
  | toInt =>
    refine M.pop_calm.bind fun v => ?_
    cases v with
    | float x => exact M.push_calm _
    | _ => exact (M.lift_calm (Value.toInt_calm _)).bind fun _ => M.push_calm _
  | _ => exact onFloat_calm _

theorem putSpaces_calm : ∀ n, Uninterrupted (putSpaces n)
  | 0 => .pure _
  | n + 1 => (M.put_calm _).bind fun _ => putSpaces_calm n

theorem putByte_calm (b : UInt8) : Uninterrupted (putByte b) := by
  intro m m' h
  unfold putByte at h
  split at h
  · cases h
  · cases h
    exact m.output.pushBytes_calm [b] ‹_›

theorem OutputWord.run_calm (w : OutputWord) : Uninterrupted w.run := by
  cases w with
  | print => exact M.pop_calm.bind fun _ => .get fun _ => M.write_calm _
  | printFloat =>
    exact M.pop_calm.bind fun v => (M.lift_calm v.toFloat_calm).bind fun _ => M.write_calm _
  | printStack => exact .get fun _ => M.write_calm _
  | emit =>
    exact M.pop_calm.bind fun v => (M.lift_calm (byteOf_calm v)).bind fun _ => putByte_calm _
  | newline | space => exact M.put_calm _
  | spaces => exact M.popInt_calm.bind fun _ => putSpaces_calm _
  | type => exact M.pop_calm.bind fun _ => .get fun _ => M.put_calm _
  | words => exact .get fun _ => M.write_calm _
  | see => exact (M.nextWord_calm _).bind fun _ => .get fun _ => M.put_calm _

theorem addSlot_calm (w : WordId) (v : Value) : Uninterrupted (addSlot w v) :=
  .get fun m => M.setHeap_calm (m.heap.changeWord_calm w fun x => x.push_calm _)

theorem createWord_calm (name : String) : Uninterrupted (createWord name) :=
  (M.install_calm _).bind fun _ => (Uninterrupted.modify _).bind fun _ => .pure _

theorem setLastCode_calm (c : Code) : Uninterrupted (setLastCode c) :=
  (M.lastWith_calm []).bind fun w => .get fun m =>
    M.setHeap_calm (m.heap.changeWord_calm w fun x => x.poke_calm 0 _)

theorem MemoryWord.run_calm (w : MemoryWord) : Uninterrupted w.run := by
  cases w with
  | load =>
    exact M.pop_calm.bind fun _ => .get fun m => (M.lift_calm (m.heap.deref_calm _)).bind fun _ =>
      (M.push_calm _).bind fun _ => .pure _
  | store =>
    exact M.pop_calm.bind fun v => M.pop_calm.bind fun _ => (M.lift_calm v.toPointer_calm).bind fun _ =>
      .get fun m => (M.setHeap_calm (m.heap.store_calm _ _)).bind fun _ => .pure _
  | addStore =>
    exact M.pop_calm.bind fun v => M.pop_calm.bind fun _ => (M.lift_calm v.toPointer_calm).bind fun _ =>
      .get fun _ => (M.lift_calm (Word.load_calm _ _)).bind fun _ => Operator.applyThen_calm _ _ _ _
  | here => exact M.here_calm.bind fun _ => (M.push_calm _).bind fun _ => .pure _
  | comma =>
    exact M.pop_calm.bind fun _ => (M.lastWith_calm _).bind fun _ =>
      (addSlot_calm _ _).bind fun _ => .pure _
  | allot =>
    exact M.popInt_calm.bind fun _ => .orThrow rfl <| .get fun m =>
      (M.setHeap_calm (m.compiler.expand_calm _ _ _)).bind fun _ => .pure _
  | create => exact (M.nextName_calm _).bind fun _ => (createWord_calm _).bind fun _ => .pure _
  | «variable» =>
    exact (M.nextName_calm _).bind fun _ => (createWord_calm _).bind fun _ =>
      (addSlot_calm _ _).bind fun _ => .pure _
  | constant =>
    exact (M.nextName_calm _).bind fun _ => M.pop_calm.bind fun _ =>
      (M.defineConstant_calm _ _).bind fun _ => .pure _
  | does =>
    refine M.mode_calm.bind fun mode => ?_
    cases mode with
    | compiling => exact (M.compileBuiltin_calm _).bind fun _ => .pure _
    | interpreting =>
      exact (M.lastWith_calm []).bind fun _ => (M.setMode_calm _).bind fun _ => .pure _
    | compilingPostponed | runtimeCompiling => exact .bind (.throw rfl) fun _ => .pure _
  | doesRuntime => exact M.parent_calm.bind fun _ => (setLastCode_calm _).bind fun _ => .pure _

namespace DefiningWord

theorem openDefinition_calm (name : String) : Uninterrupted (openDefinition name) :=
  M.mode_calm.bind fun _ => .orThrow rfl <| (Uninterrupted.modify _).bind fun _ =>
    (M.compile_calm _).bind fun _ => M.setMode_calm _

theorem checkBalance_calm : Uninterrupted checkBalance := by
  refine .get fun m => ?_
  have hl : Uninterrupted (if m.compiler.startDepth < m.data.depth then do
        if (m.data.peek? 0).any (ControlTag.isCode ControlTag.all) then
          throw (.controlMismatch .unterminated)
        throw (.compileState (.left (m.data.depth - m.compiler.startDepth)))
      else pure PUnit.unit : M PUnit) :=
    .ite (.ite (.bind (.throw rfl) fun _ => .throw rfl) (.throw rfl)) (.pure _)
  exact .ite (.bind (.throw rfl) fun _ => hl) hl

theorem reveal_calm : Uninterrupted reveal :=
  checkBalance_calm.bind fun _ => .get fun m => (M.lift_calm m.compiler.building_calm).bind fun _ =>
    (Uninterrupted.set _).bind fun _ =>
      .ite ((Uninterrupted.modify _).bind fun _ => M.push_calm _) (.modify _)

theorem nextChar_calm (reader : String) : Uninterrupted (nextChar reader) := by
  refine (M.nextName_calm reader).bind fun name => ?_
  split
  · exact .pure _
  · exact .throw rfl

theorem act_calm (w : DefiningWord) : Uninterrupted w.act := by
  cases w with
  | colon => exact (M.nextName_calm _).bind fun _ => openDefinition_calm _
  | noname => exact openDefinition_calm _
  | semicolon =>
    exact (M.requireCompiling_calm _).bind fun _ => reveal_calm.bind fun _ => M.setMode_calm _
  | immediate => exact (M.lastWith_calm []).bind fun _ => .modify _
  | postpone | leftBracket => exact (M.requireCompiling_calm _).bind fun _ => M.setMode_calm _
  | rightBracket =>
    exact .get fun m => (M.lift_calm m.compiler.building_calm).bind fun _ => M.setMode_calm _
  | literal =>
    exact (M.requireCompiling_calm _).bind fun _ => M.pop_calm.bind M.compileLiteral_calm
  | tick => exact (M.nextWord_calm _).bind fun _ => M.push_calm _
  | bracketTick =>
    exact (M.requireCompiling_calm _).bind fun _ => (M.nextWord_calm _).bind fun _ =>
      M.compileLiteral_calm _
  | execute => exact .pure _
  | compileComma => exact M.popWord_calm.bind M.compileWord_calm
  | forget =>
    exact (M.nextName_calm _).bind fun name => .get fun m =>
      (M.lift_calm (m.dictionary.forget_calm m.heap name)).bind fun _ => .set _
  | char => exact (nextChar_calm _).bind M.push_calm
  | bracketChar =>
    exact (M.requireCompiling_calm _).bind fun _ => (nextChar_calm _).bind M.compileLiteral_calm
  | string =>
    exact M.nextText_calm.bind fun _ => (M.newText_calm _).bind fun _ =>
      M.mode_calm.bind fun _ => .ite (M.compileLiteral_calm _) (M.push_calm _)
  | printString =>
    exact M.nextText_calm.bind fun _ => M.mode_calm.bind fun _ =>
      .ite ((M.newText_calm _).bind fun _ => (M.compileLiteral_calm _).bind fun _ =>
        M.compileBuiltin_calm _) (M.put_calm _)
  | comment | lineComment => exact .modify _

theorem run_calm (w : DefiningWord) : Uninterrupted w.run := by
  cases w with
  | execute => exact M.popWord_calm.bind fun _ => .pure _
  | _ => exact (act_calm _).bind fun _ => .pure _

end DefiningWord

namespace ControlWord

theorem openAt_calm (address : Nat) (tag : ControlTag) : Uninterrupted (openAt address tag) :=
  (M.push_calm _).bind fun _ => M.push_calm _

theorem popAddress_calm (fault : ControlFault) : Uninterrupted (popAddress fault) :=
  M.popInt_calm.bind fun _ => .orThrow rfl (.pure _)

theorem closeTag_calm (tags : List ControlTag) (fault : ControlFault) :
    Uninterrupted (closeTag tags fault) :=
  M.pop_calm.bind fun _ => .ite (popAddress_calm fault) (.throw rfl)

theorem compileHole_calm : Uninterrupted compileHole :=
  (M.compileBuiltin_calm _).bind fun _ => M.here_calm.bind fun _ =>
    (M.compile_calm _).bind fun _ => .pure _

theorem fillHole_calm (hole target : Nat) : Uninterrupted (fillHole hole target) :=
  .get fun m => M.setHeap_calm (m.compiler.alter_calm _ _ _)

theorem compileJump_calm (target : Nat) (word : String) : Uninterrupted (compileJump target word) :=
  (M.compileLiteral_calm _).bind fun _ => M.compileBuiltin_calm _

theorem build_calm (w : ControlWord) : Uninterrupted w.build := by
  cases w with
  | openIf =>
    exact compileHole_calm.bind fun _ => (M.compileBuiltin_calm _).bind fun _ => openAt_calm _ _
  | elseBranch =>
    exact (closeTag_calm _ _).bind fun _ => compileHole_calm.bind fun _ =>
      (M.compileBuiltin_calm _).bind fun _ => M.here_calm.bind fun _ =>
        (fillHole_calm _ _).bind fun _ => openAt_calm _ _
  | closeIf => exact (closeTag_calm _ _).bind fun _ => M.here_calm.bind fun _ => fillHole_calm _ _
  | beginLoop => exact M.here_calm.bind fun _ => openAt_calm _ _
  | untilFlag | again => exact (closeTag_calm _ _).bind fun _ => compileJump_calm _ _
  | whileFlag =>
    exact (M.peek_calm 0).bind fun _ => .orThrow rfl <| compileHole_calm.bind fun _ =>
      (M.compileBuiltin_calm _).bind fun _ => openAt_calm _ _
  | repeatLoop =>
    exact (closeTag_calm _ _).bind fun _ => (closeTag_calm _ _).bind fun _ =>
      (compileJump_calm _ _).bind fun _ => M.here_calm.bind fun _ => fillHole_calm _ _
  | openCount maySkip =>
    exact compileHole_calm.bind fun _ => (M.compileBuiltin_calm _).bind fun _ =>
      M.here_calm.bind fun _ => (M.push_calm _).bind fun _ => openAt_calm _ _
  | closeCount stepped =>
    exact (closeTag_calm _ _).bind fun _ => (popAddress_calm _).bind fun _ =>
      (compileJump_calm _ _).bind fun _ => M.here_calm.bind fun _ => fillHole_calm _ _
  | leave | unloop => exact M.compileBuiltin_calm _
  | recurse => exact M.compile_calm _

theorem run_calm (w : ControlWord) : Uninterrupted w.run :=
  (M.requireCompiling_calm _).bind fun _ => build_calm w

end ControlWord

namespace BranchWord

theorem jumpTo_calm (address : Int64) : Uninterrupted (jumpTo address) :=
  M.parent_calm.bind fun _ => .get fun _ => .ite (.modify _) (.throw rfl)

theorem openLoop_calm (exit limit start : Int64) : Uninterrupted (openLoop exit limit start) :=
  (M.pushReturn_calm _).bind fun _ => (M.pushReturn_calm _).bind fun _ => M.pushReturn_calm _

theorem dropLoop_calm : Uninterrupted dropLoop :=
  M.popReturn_calm.bind fun _ => M.popReturn_calm.bind fun _ => M.popReturn_calm.bind fun _ => .pure _

theorem setIndex_calm (n : Int64) : Uninterrupted (setIndex n) := by
  intro m m' h
  unfold setIndex at h
  split at h
  · cases h
  · cases h
    exact m.return.overwrite_calm 0 n ‹_›

theorem advance_calm (entry step : Int64) (stepped : Bool) :
    Uninterrupted (advance entry step stepped) :=
  (M.peekReturn_calm 0).bind fun _ => (M.peekReturn_calm 1).bind fun _ =>
    .ite dropLoop_calm ((setIndex_calm _).bind fun _ => jumpTo_calm entry)

theorem act_calm (w : BranchWord) : Uninterrupted w.act := by
  cases w with
  | inlineLiteral =>
    exact M.parent_calm.bind fun _ => .get fun _ => (M.lift_calm (Word.load_calm _ _)).bind fun _ =>
      (Uninterrupted.modify _).bind fun _ => M.push_calm _
  | jump => exact M.popInt_calm.bind jumpTo_calm
  | jumpIfFalse | jumpIfTrue =>
    exact M.popInt_calm.bind fun _ => M.popFlag_calm.bind fun _ => .ite (jumpTo_calm _) (.pure _)
  | enterCount maySkip =>
    exact M.popInt_calm.bind fun exit => M.popInt_calm.bind fun start =>
      M.popInt_calm.bind fun limit => .ite (jumpTo_calm exit) (openLoop_calm exit limit start)
  | advanceCount stepped =>
    refine M.popInt_calm.bind fun entry => ?_
    cases stepped with
    | false => exact advance_calm _ _ _
    | true => exact M.popInt_calm.bind fun _ => advance_calm _ _ _
  | leave =>
    exact (M.peekReturn_calm 2).bind fun _ => dropLoop_calm.bind fun _ => jumpTo_calm _
  | unloop => exact dropLoop_calm
  | index => exact (M.peekReturn_calm 0).bind fun _ => M.push_calm _
  | outerIndex => exact (M.peekReturn_calm 3).bind fun _ => M.push_calm _
  | exit => exact .pure _

theorem run_calm (w : BranchWord) : Uninterrupted w.run := by
  cases w with
  | exit => exact .pure _
  | _ => exact (act_calm _).bind fun _ => .pure _

end BranchWord

namespace ObjectWord

theorem make_calm (t : TypeId) (maker : Maker) : Uninterrupted (make t maker) := by
  cases maker with
  | string => exact M.pushNew_calm _
  | array =>
    exact M.popInt_calm.bind fun _ => .orThrow rfl <| .orThrow rfl <| M.pushNew_calm _
  | host refuses =>
    cases refuses with
    | false => exact .get fun _ => M.pushNew_calm _
    | true => exact .throw rfl

theorem makeObject_calm : Uninterrupted makeObject := by
  refine M.pop_calm.bind fun v => (M.lift_calm v.toType_calm).bind fun t => .get fun m =>
    .orThrow rfl ?_
  split
  · exact .throw rfl
  · split
    · exact .throw rfl
    · exact make_calm _ _
    · exact M.pushNew_calm _

theorem call_calm (f : Function) : Uninterrupted (call f) :=
  M.pop_calm.bind fun v => (M.lift_calm v.toObject_calm).bind fun _ => .get fun _ =>
    .ite (M.onStore_calm (Store.invoke_calm _ f)) (.throw rfl)

theorem nextFields_calm : ∀ k, Uninterrupted (nextFields k)
  | 0 => .pure _
  | k + 1 => by
    refine M.nextToken_calm.bind fun t => ?_
    split
    · exact .pure _
    · exact .pure _
    · exact (nextFields_calm k).bind fun _ => .pure _

theorem defineFields_calm (name : String) : ∀ i fields, Uninterrupted (defineFields name i fields)
  | _, [] => .pure _
  | i, _ :: rest => (M.defineConstant_calm _ _).bind fun _ => defineFields_calm name (i + 1) rest

theorem declare_calm : Uninterrupted declare := by
  refine (M.nextName_calm _).bind fun name => .get fun m => (nextFields_calm _).bind fun fields => ?_
  cases fields with
  | none => exact .throw rfl
  | some fields =>
    exact (M.onTypes_calm fun t => t.addUser_calm _).bind fun _ =>
      (M.defineConstant_calm _ _).bind fun _ => defineFields_calm _ _ _

theorem run_calm (w : ObjectWord) : Uninterrupted w.run := by
  cases w with
  | new => exact makeObject_calm
  | typeOf => exact M.pop_calm.bind fun _ => .get fun _ => M.push_calm _
  | invoke f => exact call_calm f
  | struct => exact declare_calm
  | setHandler =>
    exact M.pop_calm.bind fun v => (M.lift_calm v.toType_calm).bind fun _ => M.popWord_calm.bind fun _ =>
      M.onTypes_calm fun t => t.setHandler_calm _ _
  | refcount => exact (M.peek_calm 0).bind fun _ => .get fun _ => M.push_calm _

end ObjectWord

namespace StateWord

theorem popCell_calm : Uninterrupted popCell :=
  M.popInt_calm.bind fun _ => M.lift_calm (checkIndex_calm _ _)

theorem run_calm (w : StateWord) : Uninterrupted w.run := by
  cases w with
  | loadCell | loadFlag => exact popCell_calm.bind fun _ => .get fun _ => M.push_calm _
  | storeCell => exact popCell_calm.bind fun _ => M.popInt_calm.bind fun _ => .modify _
  | storeFlag => exact popCell_calm.bind fun _ => M.popFlag_calm.bind fun _ => .modify _
  | debugLevel =>
    refine M.popInt_calm.bind fun n => ?_
    split
    · exact .modify _
    · exact .throw rfl

end StateWord

theorem HostWord.run_calm (w : HostWord) : Uninterrupted w.run := by
  cases w with
  | log => exact M.pop_calm.bind fun _ => (Uninterrupted.modify _).bind fun _ => .pure _
  | bump =>
    exact (Uninterrupted.modify _).bind fun _ => .get fun _ => (M.push_calm _).bind fun _ => .pure _
  | boom | boomAny => exact .throw rfl
  | boomText => exact M.popInt_calm.bind fun _ => .throw rfl
  | nested | attempt | call => exact M.popWord_calm.bind fun _ => .pure _
  | exit => exact .pure _
  | interrupt => exact (Uninterrupted.modify _).bind fun _ => .pure _

theorem pushDataAddress_calm : Uninterrupted pushDataAddress :=
  M.current_calm.bind fun _ => .get fun _ => M.push_calm _

theorem pushFirstSlot_calm : Uninterrupted pushFirstSlot :=
  M.current_calm.bind fun _ => .get fun _ => (M.lift_calm (Word.load_calm _ _)).bind fun _ =>
    M.push_calm _

theorem Uninterrupted.thenNext {act : M Unit} (h : Uninterrupted act) : Uninterrupted (thenNext act) :=
  h.bind fun _ => .pure _

/-- **A primitive fails for other reasons than an interrupt**, if it fails; one that asks for an
    interrupt does not fail. -/
theorem Primitive.run_calm (p : Primitive) : Uninterrupted p.run := by
  cases p with
  | stack w => exact w.run_calm.thenNext
  | arithmetic w => exact w.run_calm
  | float w => exact w.run_calm.thenNext
  | output w => exact w.run_calm.thenNext
  | memory w => exact w.run_calm
  | defining w => exact w.run_calm
  | control w => exact w.run_calm.thenNext
  | branch w => exact w.run_calm
  | object w => exact w.run_calm.thenNext
  | state w => exact w.run_calm.thenNext
  | host w => exact w.run_calm
  | dataAddress => exact pushDataAddress_calm.thenNext
  | pushConstant => exact pushFirstSlot_calm.thenNext
  | nop => exact .pure _

/-! ## The engine and the interpreter -/

namespace Machine

theorem resume_calm (pending : Pending) : Uninterrupted (resume pending) := by
  cases pending with
  | outside | run => exact .pure _
  | handler depth after => exact (Operator.conclude_calm depth after).bind fun _ => .pure _
  | attempt => exact (M.pushNew_calm _).bind fun _ => .pure _

theorem compilePostponed_calm (w : WordId) : Uninterrupted (compilePostponed w) :=
  .get fun _ => .ite (M.compile_calm _) <|
    (M.compileLiteral_calm _).bind fun _ => M.compileBuiltin_calm _

theorem interpretNumber_calm (token : String) : Uninterrupted (interpretNumber token) := by
  unfold interpretNumber
  cases Literal.number? token with
  | none => exact .throw rfl
  | some n =>
    refine M.mode_calm.bind fun mode => ?_
    cases mode with
    | interpreting => exact M.push_calm _
    | compiling => exact M.compileLiteral_calm _
    | compilingPostponed | runtimeCompiling => exact .throw rfl

theorem compileToken_calm (token : String) : Uninterrupted (compileToken token) := by
  rw [compileToken_eq]
  refine .get fun m => ?_
  cases m.find? token with
  | none => exact interpretNumber_calm token
  | some w =>
    cases m.compiler.mode with
    | interpreting | compiling => exact M.compileWord_calm w
    | compilingPostponed => exact (M.setMode_calm _).bind fun _ => compilePostponed_calm w
    | runtimeCompiling => exact (M.setMode_calm _).bind fun _ => setLastCode_calm _

end Machine
end ThreadedForth
