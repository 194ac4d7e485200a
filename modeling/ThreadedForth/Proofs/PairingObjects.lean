/-
  Words for objects, jumps and cells, on machines that hold the same under other numbers.
-/
import ThreadedForth.Proofs.LikenessObjects
import ThreadedForth.Proofs.PairingValues

namespace ThreadedForth

variable {α β γ δ : Type}

namespace Pairing

variable {m m' : Machine} {P : Pairing m m'} {x y : Machine} {R : α → β → Prop} {S : γ → δ → Prop}
  {o p : ObjId}

/-! ## Functions of objects -/

/-- Computations on the objects and the data stack with results that stand for the same. -/
abbrev JointStore (P : Pairing m m') (R : α → β → Prop) (f : StoreM α) (g : StoreM β) : Prop :=
  P.Joint R (M.onStore f) (M.onStore g)

namespace JointStore

theorem bind {f : StoreM α} {g : StoreM β} {f' : α → StoreM γ} {g' : β → StoreM δ}
    (h : P.JointStore R f g) (hf : ∀ a b, R a b → P.JointStore S (f' a) (g' b)) :
    P.JointStore S (f >>= f') (g >>= g') := by
  unfold JointStore
  rw [M.onStore_bind, M.onStore_bind]
  exact Joint.bind h hf

theorem andThen {f g : StoreM α} {f' : α → StoreM γ} {g' : α → StoreM δ} (h : P.JointStore Eq f g)
    (hf : ∀ a, P.JointStore S (f' a) (g' a)) : P.JointStore S (f >>= f') (g >>= g') :=
  h.bind fun a _ hab => hab ▸ hf a

theorem pure {a : α} {b : β} (h : R a b) : P.JointStore R (Pure.pure a) (Pure.pure b) :=
  Joint.pure h

theorem throw (e : Error) :
    P.JointStore R (MonadExcept.throw e : StoreM α) (MonadExcept.throw e : StoreM β) :=
  Joint.throw e

theorem lift {r : Except Error α} {s : Except Error β} (h : SameExcept R r s) :
    P.JointStore R (Store.lift r) (Store.lift s) := by
  unfold JointStore
  rw [M.onStore_lift, M.onStore_lift]
  exact .lift h

theorem look {f : Store → StoreM α} {g : Store → StoreM β}
    (h : ∀ x y, P.Alike x y → P.JointStore R (f ⟨x.heap, x.data⟩) (g ⟨y.heap, y.data⟩)) :
    P.JointStore R (MonadState.get >>= f) (MonadState.get >>= g) :=
  fun x y hxy => h x y hxy x y hxy

end JointStore

theorem storePop : P.JointStore P.SameValue Store.pop Store.pop := by
  unfold JointStore
  rw [M.onStore_pop]
  exact pop

theorem storePush {v t : Value} (hv : P.SameValue v t) :
    P.JointStore Eq (Store.push v) (Store.push t) := by
  unfold JointStore
  rw [M.onStore_push, M.onStore_push]
  exact push hv

theorem storePlain {v : Value} (hv : v.refs = []) : P.JointStore Eq (Store.push v) (Store.push v) :=
  storePush (.plain hv)

theorem storePopInt : P.JointStore Eq Store.popInt Store.popInt :=
  storePop.bind fun _ _ hv => .lift (.of_eq hv.toInt)

theorem storePushNew {a b : Obj} (hab : P.SameObj a b) :
    P.JointStore Eq (Store.pushNew a) (Store.pushNew b) := by
  unfold JointStore
  rw [Store.onStore_pushNew, Store.onStore_pushNew]
  exact pushNew hab

theorem storePushAll {vs us : List Value} (h : List.Forall₂ P.SameValue vs us) :
    P.JointStore Eq (Store.pushAll vs) (Store.pushAll us) := by
  induction h with
  | nil => exact .pure rfl
  | cons hv _ ih => exact (storePush hv).andThen fun _ => ih

theorem storeReplace (ho : P.object o p) {a b : Obj} (hab : P.SameObj a b) :
    P.JointStore Eq (Store.replace o a) (Store.replace p b) :=
  fun _ _ h => .ok rfl (h.setObject ho hab)

theorem SameHeap.needle {h k : Heap} (hs : P.SameHeap h k) {v t : Value} (hv : P.SameValue v t) :
    h.needle v = k.needle t := by
  have ht := hs.text? hv
  have hk := hv.kind
  cases hv with
  | plain _ =>
    cases v with
    | char c => rfl
    | _ => simp only [Heap.needle, ht]
  | xt _ | ptr _ | obj _ => simp only [Heap.needle, ht, hk]

theorem SameHeap.sameContent {h k : Heap} (hs : P.SameHeap h k) {a b c d : Value}
    (ha : P.SameValue a c) (hb : P.SameValue b d) : h.sameContent a b = k.sameContent c d := by
  unfold Heap.sameContent
  rw [hs.text? ha, hs.text? hb, ha.same hb]

theorem storedChar_eq {v t : Value} (hv : P.SameValue v t) : storedChar v = storedChar t := by
  cases hv <;> rfl

theorem invokeText (ho : P.object o p) (text : String) (f : Function) :
    P.JointStore Eq (Store.invokeText o text f) (Store.invokeText p text f) := by
  cases f with
  | size => exact storePlain rfl
  | hash => exact storePlain rfl
  | get =>
    exact storePopInt.andThen fun _ => (JointStore.lift (.refl _)).andThen fun _ => storePlain rfl
  | set =>
    refine storePopInt.andThen fun index => storePop.bind fun v t hv => ?_
    rw [storedChar_eq hv]
    refine (JointStore.lift (.refl _)).andThen fun c => (JointStore.lift (.refl _)).andThen
      fun i => ?_
    cases Utf8.splice? i (i + 1) [c] text.toList with
    | none => exact .throw _
    | some cs => exact storeReplace ho (.text _)
  | contains =>
    refine storePop.bind fun v t hv => .look fun x y h => ?_
    rw [h.heap.needle hv]
    exact (JointStore.lift (.refl _)).andThen fun _ => storePlain rfl
  | indexOf =>
    refine storePop.bind fun v t hv => .look fun x y h => ?_
    rw [h.heap.needle hv]
    refine (JointStore.lift (.refl _)).andThen fun needle => ?_
    cases Utf8.offsetOf? needle.toList text.toList with
    | none => exact storePlain rfl
    | some i => exact storePlain rfl
  | subRange =>
    refine storePopInt.andThen fun count => storePopInt.andThen fun start =>
      (JointStore.lift (.refl _)).andThen fun ij => ?_
    dsimp only
    cases Utf8.slice? ij.1 ij.2 text.toList with
    | none => exact .throw _
    | some cs => exact storePushNew (.text _)
  | deconstruct =>
    refine (storePushAll (List.forall₂_same.2 fun v hv => ?_)).andThen fun _ => storePlain rfl
    obtain ⟨c, -, rfl⟩ := List.mem_map.1 hv
    exact .plain rfl
  | append =>
    refine storePop.bind fun v t hv => .look fun x y h => ?_
    rw [h.heap.display hv]
    exact storeReplace ho (.text _)
  | implements => exact storePopInt.andThen fun _ => storePlain rfl
  | close | read | readLine | readChar | eof => exact .throw _

theorem sameItems_getD {items items' : Array Value}
    (hi : List.Forall₂ P.SameValue items.toList items'.toList) (i : Nat) :
    P.SameValue (items[i]?.getD default) (items'[i]?.getD default) := by
  have he := forall₂_getElem? hi i
  rw [Array.getElem?_toList, Array.getElem?_toList] at he
  generalize items[i]? = a at he
  generalize items'[i]? = b at he
  cases he with
  | none => exact .plain rfl
  | some he => exact he

/-- The position of the first value of an array with the same content. -/
theorem SameHeap.findIdx? {h k : Heap} (hs : P.SameHeap h k) {vs us : List Value}
    (hi : List.Forall₂ P.SameValue vs us) {v t : Value} (hv : P.SameValue v t) :
    (vs.findIdx? fun w => h.sameContent w v) = us.findIdx? fun w => k.sameContent w t := by
  induction hi with
  | nil => rfl
  | cons hw _ ih => rw [List.findIdx?_cons, List.findIdx?_cons, hs.sameContent hw hv, ih]

theorem SameHeap.any_sameContent {h k : Heap} (hs : P.SameHeap h k) {vs us : List Value}
    (hi : List.Forall₂ P.SameValue vs us) {v t : Value} (hv : P.SameValue v t) :
    (vs.any fun w => h.sameContent w v) = us.any fun w => k.sameContent w t := by
  induction hi with
  | nil => rfl
  | cons hw _ ih => rw [List.any_cons, List.any_cons, hs.sameContent hw hv, ih]

variable {address : UInt64} {a b : Obj} {items items' : Array Value}

theorem invokeItems (ho : P.object o p) (hab : P.SameObj a b)
    (hi : List.Forall₂ P.SameValue items.toList items'.toList) (f : Function) :
    P.JointStore Eq (Store.invokeItems address o a items f)
      (Store.invokeItems address p b items' f) := by
  have hsize : items.size = items'.size := by
    rw [← Array.length_toList, hi.length_eq, Array.length_toList]
  cases f with
  | size =>
    unfold Store.invokeItems
    rw [hsize]
    exact storePlain rfl
  | hash => exact storePlain rfl
  | get =>
    unfold Store.invokeItems
    rw [hsize]
    exact storePopInt.andThen fun _ => (JointStore.lift (.refl _)).andThen fun i =>
      storePush (sameItems_getD hi i)
  | set =>
    unfold Store.invokeItems
    rw [hsize]
    refine storePopInt.andThen fun index => storePop.bind fun v t hv =>
      (JointStore.lift (.refl _)).andThen fun i => storeReplace ho (hab.setItems ?_)
    rw [Array.toList_setIfInBounds, Array.toList_setIfInBounds]
    exact forall₂_set hi i hv
  | contains =>
    refine storePop.bind fun v t hv => .look fun x y h => ?_
    dsimp only
    rw [← Array.any_toList, ← Array.any_toList, h.heap.any_sameContent hi hv]
    exact storePlain rfl
  | indexOf =>
    refine storePop.bind fun v t hv => .look fun x y h => ?_
    dsimp only
    rw [h.heap.findIdx? hi hv]
    split
    · exact storePlain rfl
    · exact storePlain rfl
  | deconstruct =>
    unfold Store.invokeItems
    rw [hsize]
    exact (storePushAll hi).andThen fun _ => storePlain rfl
  | implements =>
    refine storePopInt.andThen fun n => ?_
    have himp : a.implements = b.implements := funext hab.implements
    rw [himp]
    exact storePlain rfl
  | subRange | append | close | read | readLine | readChar | eof =>
    unfold Store.invokeItems
    rw [hab.typeLabel]
    exact .throw _

theorem invokeArray (ho : P.object o p) (hab : P.SameObj a b)
    (hi : List.Forall₂ P.SameValue items.toList items'.toList) (f : Function) :
    P.JointStore Eq (Store.invokeArray address o a items f)
      (Store.invokeArray address p b items' f) := by
  have h : P.JointStore Eq (Store.invokeItems address o a items f)
    (Store.invokeItems address p b items' f) := invokeItems ho hab hi f
  have hsize : items.size = items'.size := by
    rw [← Array.length_toList, hi.length_eq, Array.length_toList]
  cases f with
  | subRange =>
    unfold Store.invokeArray
    rw [hsize]
    refine storePopInt.andThen fun count => storePopInt.andThen fun start =>
      (JointStore.lift (.refl _)).andThen fun ij => storePushNew (.array ?_)
    rw [Array.toList_extract, Array.toList_extract]
    exact List.forall₂_take _ (List.forall₂_drop _ hi)
  | append =>
    refine storePop.bind fun v t hv => storeReplace ho (hab.setItems ?_)
    rw [Array.toList_push, Array.toList_push]
    exact forall₂_append hi (.cons hv .nil)
  | _ => exact h

theorem invoke (ho : P.object o p) (f : Function) :
    P.JointStore Eq (Store.invoke address o f) (Store.invoke address p f) := by
  refine .look fun x y h => ?_
  have hob := h.heap.object ho
  dsimp only
  generalize x.heap.object o = c at hob
  generalize y.heap.object p = d at hob
  cases hob with
  | text s => exact invokeText ho s f
  | array hi => exact invokeArray ho (.array hi) hi f
  | record t d hi => exact invokeItems ho (.record t d hi) hi f

/-! ## Objects and types -/

theorem make (t : TypeId) (maker : Maker) :
    P.Joint Eq (ObjectWord.make t maker) (ObjectWord.make t maker) := by
  cases maker with
  | string => exact pushNew (.text _)
  | array =>
    exact popInt.andThen fun n => .orThrow .rfl rfl (.orThrow .rfl rfl (pushNew (.array (SameObj.zeros _))))
  | host refuses =>
    cases refuses with
    | false =>
      refine .look fun x y h => ?_
      rw [h.types.nameOf]
      exact pushNew (.text _)
    | true => exact .throw _

theorem makeObject : P.Joint Eq ObjectWord.makeObject ObjectWord.makeObject := by
  refine pop.bind fun v t hv => ?_
  rw [hv.toType]
  refine (Joint.lift (.refl _)).andThen fun t => .look fun x y h => ?_
  have he := h.types.get? t
  dsimp only
  rw [h.types.nameOf]
  refine .orThrow .rfl rfl ?_
  generalize x.types.get? t = c at he
  generalize y.types.get? t = d at he
  cases he with
  | none => exact .throw _
  | some he =>
    have hs := he.sort
    dsimp only
    generalize TypeEntry.sort _ = c at hs
    generalize TypeEntry.sort _ = d at hs
    cases hs with
    | value => exact .throw _
    | object maker _ => exact make t maker
    | user d _ => exact pushNew (.record t d (SameObj.zeros _))

/-- The objects that have been taken off the data stacks are at the same address, if it counts. -/
theorem address_of_pops {v t : Value} {x₁ y₁ : Machine} (hx : M.pop x = .ok v x₁)
    (hy : M.pop y = .ok t y₁) (hv : v.toObject = .ok o) (ht : t.toObject = .ok p)
    (hc : (x.heap.object o).hashesAddress = (y.heap.object p).hashesAddress)
    (ha : x.topAddress = y.topAddress) (hh : (x.heap.object o).hashesAddress = true) :
    x.addresses o = y.addresses p := by
  obtain ⟨s, hs, -⟩ := M.pop_eq_ok hx
  obtain ⟨s', hs', -⟩ := M.pop_eq_ok hy
  obtain rfl : v = .obj o := by
    cases v <;> cases hv
    rfl
  obtain rfl : t = .obj p := by
    cases t <;> cases ht
    rfl
  have hobj : ∀ {z : Machine} {q : ObjId} {s : Stack Value}, z.data.items = .obj q :: s.items →
      z.topAddress = if (z.heap.object q).hashesAddress then some (z.addresses q) else none := by
    intro z q s hz
    simp only [Machine.topAddress, Stack.peek?, hz, List.getElem?_cons_zero]
  rw [hobj hs, hobj hs', if_pos hh, if_pos (hc ▸ hh)] at ha
  exact Option.some.inj ha

theorem Alike.call (h : P.Alike x y) (f : Function)
    (ha : f = .hash → x.topAddress = y.topAddress) :
    P.SameResult Eq (ObjectWord.call f x) (ObjectWord.call f y) := by
  refine (pop x y h).bind fun v t x₁ y₁ hx hy hv h₁ => (Joint.lift hv.toObject x₁ y₁ h₁).bind
    fun o p x₂ y₂ hx₂ hy₂ ho _ => ?_
  obtain ⟨hvo, rfl⟩ := M.lift_eq_ok hx₂
  obtain ⟨htp, rfl⟩ := M.lift_eq_ok hy₂
  have hob := h₁.heap.object ho
  show P.SameResult _ ((if (x₂.heap.object o).implements f then
      M.onStore (Store.invoke (x₂.addresses o) o f) else throw _) x₂)
    ((if (y₂.heap.object p).implements f then
      M.onStore (Store.invoke (y₂.addresses p) p f) else throw _) y₂)
  rw [hob.implements, hob.type, h₁.types.nameOf]
  split
  · have hloc : M.onStore (Store.invoke (y₂.addresses p) p f) y₂ =
        M.onStore (Store.invoke (x₂.addresses o) p f) y₂ := by
      by_cases hf : f = .hash
      · subst hf
        refine ObjectWord.onStore_hash fun hh => ?_
        have hx' : x₂.heap = x.heap ∧ x₂.addresses = x.addresses := by
          obtain ⟨s, -, rfl⟩ := M.pop_eq_ok hx
          exact ⟨rfl, rfl⟩
        have hy' : y₂.heap = y.heap ∧ y₂.addresses = y.addresses := by
          obtain ⟨s, -, rfl⟩ := M.pop_eq_ok hy
          exact ⟨rfl, rfl⟩
        have hc := hob.hashesAddress
        rw [hx'.1, hy'.1] at hc
        rw [hy'.1] at hh
        rw [hx'.2, hy'.2]
        exact (address_of_pops hx hy hvo htp hc (ha rfl) (hc.trans hh)).symm
      · rw [Store.invoke_address hf]
    rw [hloc]
    exact invoke ho f x₂ y₂ h₁
  · exact .error _ h₁

theorem setHandler : P.Joint Eq (ObjectWord.run .setHandler) (ObjectWord.run .setHandler) := by
  refine pop.bind fun v t hv => ?_
  rw [hv.toType]
  exact (Joint.lift (.refl _)).andThen fun t => popWord.bind fun w u hw =>
    onTypes fun ht => ht.setHandler t (.word hw)

theorem Alike.objectWord (h : P.Alike x y) {w : ObjectWord} (hw : w ≠ .struct)
    (hc : w = .refcount → x.topCount = y.topCount)
    (ha : w = .invoke .hash → x.topAddress = y.topAddress) :
    P.SameResult Eq (w.run x) (w.run y) := by
  cases w with
  | new => exact makeObject x y h
  | typeOf =>
    refine (pop.bind fun v t hv => .look fun x y h => ?_) x y h
    rw [h.heap.typeOf hv]
    exact pushPlain rfl
  | invoke f => exact h.call f fun hf => ha (by rw [hf])
  | struct => exact absurd rfl hw
  | setHandler => exact setHandler x y h
  | refcount =>
    refine (peek 0 x y h).bind fun v t x' y' hx hy _ hxy => ?_
    obtain ⟨hvx, rfl⟩ := M.peek_eq_ok hx
    obtain ⟨hvy, rfl⟩ := M.peek_eq_ok hy
    have hcount : x'.heap.liveCount? x'.roots v = y'.heap.liveCount? y'.roots t := by
      have := hc rfl
      rwa [Machine.topCount, Machine.topCount, hvx, hvy] at this
    show P.SameResult _ (M.push (.nat ((x'.heap.liveCount? x'.roots v).getD 0)) x')
      (M.push (.nat ((y'.heap.liveCount? y'.roots t).getD 0)) y')
    rw [hcount]
    exact pushPlain rfl x' y' hxy

/-! ## Jumps and counted loops -/

theorem jumpTo (address : Int64) :
    P.Joint Eq (BranchWord.jumpTo address) (BranchWord.jumpTo address) := by
  refine parent.bind fun f g hfg => .look fun x y h => ?_
  have hw := h.heap.word hfg.word
  dsimp only
  rw [hw.size, hw.badOffset]
  exact .ite .rfl (setParentIp _) (.throw _)

theorem dropLoop : P.Joint Eq BranchWord.dropLoop BranchWord.dropLoop :=
  popReturn.andThen fun _ => popReturn.andThen fun _ => popReturn.andThen fun _ => .done

theorem setIndex (n : Int64) : P.Joint Eq (BranchWord.setIndex n) (BranchWord.setIndex n) := by
  intro x y h
  unfold BranchWord.setIndex
  rw [← h.return]
  cases x.return.overwrite 0 n with
  | error e => exact .error e h
  | ok s => exact .ok rfl (h.setReturn s)

theorem advance (entry step : Int64) (stepped : Bool) :
    P.Joint Eq (BranchWord.advance entry step stepped) (BranchWord.advance entry step stepped) :=
  (peekReturn 0).andThen fun _ => (peekReturn 1).andThen fun _ =>
    .ite .rfl dropLoop ((setIndex _).andThen fun _ => jumpTo entry)

theorem branchAct (w : BranchWord) : P.Joint Eq w.act w.act := by
  cases w with
  | inlineLiteral =>
    refine parent.bind fun f g hfg => .look fun x y h => ?_
    rw [hfg.ip]
    exact (Joint.lift ((h.heap.word hfg.word).load _)).bind fun _ _ hv =>
      (setParentIp _).andThen fun _ => push hv
  | jump => exact popInt.andThen fun _ => jumpTo _
  | jumpIfFalse => exact popInt.andThen fun _ => popFlag.andThen fun _ => .ite .rfl (jumpTo _) .done
  | jumpIfTrue => exact popInt.andThen fun _ => popFlag.andThen fun _ => .ite .rfl (jumpTo _) .done
  | enterCount maySkip =>
    exact popInt.andThen fun _ => popInt.andThen fun _ => popInt.andThen fun _ =>
      .ite .rfl (jumpTo _) ((pushReturn _).andThen fun _ => (pushReturn _).andThen fun _ =>
        pushReturn _)
  | advanceCount stepped =>
    cases stepped with
    | false => exact popInt.andThen fun _ => advance _ _ _
    | true => exact popInt.andThen fun _ => popInt.andThen fun _ => advance _ _ _
  | leave => exact (peekReturn 2).andThen fun _ => dropLoop.andThen fun _ => jumpTo _
  | unloop => exact dropLoop
  | index => exact (peekReturn 0).andThen fun _ => pushPlain rfl
  | outerIndex => exact (peekReturn 3).andThen fun _ => pushPlain rfl
  | exit => exact .done

theorem branchWord (w : BranchWord) : P.Joint P.SameFlow w.run w.run := by
  cases w with
  | exit => exact .pure .leave
  | _ => exact (branchAct _).andThen fun _ => .pure .next

/-! ## Cells and the host -/

theorem popCell : P.Joint Eq StateWord.popCell StateWord.popCell :=
  popInt.andThen fun _ => .lift (.refl _)

theorem SameDebugger.setLevel {d e : Debugger} (h : P.SameDebugger d e) (l : DebugLevel)
    (depth : Nat) : P.SameDebugger (d.setLevel l depth) (e.setLevel l depth) := by
  unfold Debugger.setLevel
  rw [h.stepOverDepth]
  exact { h with level := rfl, stepOverDepth := rfl }

theorem stateWord (w : StateWord) : P.Joint Eq w.run w.run := by
  cases w with
  | loadCell =>
    refine popCell.andThen fun _ => .look fun x y h => ?_
    rw [h.cells]
    exact pushPlain rfl
  | storeCell =>
    refine popCell.andThen fun i => popInt.andThen fun n => .modify fun x y h => ?_
    rw [h.cells]
    exact { h with cells := rfl, depth := h.depth.imp_left fun hi => ⟨hi.1, hi.2⟩ }
  | loadFlag =>
    refine popCell.andThen fun _ => .look fun x y h => ?_
    rw [h.flags]
    exact pushPlain rfl
  | storeFlag =>
    refine popCell.andThen fun i => popFlag.andThen fun b => .modify fun x y h => ?_
    rw [h.flags]
    exact { h with flags := rfl, depth := h.depth.imp_left fun hi => ⟨hi.1, hi.2⟩ }
  | debugLevel =>
    refine popInt.andThen fun n => ?_
    cases DebugLevel.ofInt? n.toInt with
    | none => exact .throw _
    | some l =>
      refine .modify fun x y h => ?_
      rw [h.frames.length_eq]
      exact { h with
        debugger := h.debugger.setLevel l _
        depth := h.depth.imp_left fun hi => ⟨hi.1, hi.2⟩ }

theorem hostWord (w : HostWord) : P.Joint P.SameFlow w.run w.run := by
  cases w with
  | log =>
    refine pop.bind fun v t hv => (Joint.modify fun x y h => ?_).andThen fun _ => .pure .next
    rw [h.format hv, h.host]
    exact { h with host := rfl, depth := h.depth.imp_left fun hi => ⟨hi.1, hi.2⟩ }
  | bump =>
    refine (Joint.modify fun x y h => ?_).andThen fun _ => .look fun x y h => ?_
    · rw [h.host]
      exact { h with host := rfl, depth := h.depth.imp_left fun hi => ⟨hi.1, hi.2⟩ }
    · rw [h.host]
      exact (pushPlain rfl).andThen fun _ => .pure .next
  | boom => exact .throw _
  | boomAny => exact .throw _
  | boomText => exact popInt.andThen fun _ => .throw _
  | nested => exact popWord.bind fun _ _ hw => .pure (.nest hw .run)
  | attempt => exact popWord.bind fun _ _ hw => .pure (.nest hw .attempt)
  | exit => exact .pure .leave
  | call => exact popWord.bind fun _ _ hw => .pure (.call hw)
  | interrupt =>
    refine (Joint.modify fun x y h => ?_).andThen fun _ => .pure .next
    exact { h with interrupt := rfl, depth := h.depth.imp_left fun hi => ⟨hi.1, hi.2⟩ }

theorem pushDataAddress : P.Joint Eq pushDataAddress pushDataAddress :=
  current.bind fun _ _ hf => .look fun _ _ h => push (.ptr (h.heap.pointer hf.word 1))

theorem pushFirstSlot : P.Joint Eq pushFirstSlot pushFirstSlot :=
  current.bind fun _ _ hf => .look fun _ _ h =>
    (Joint.lift ((h.heap.word hf.word).load 1)).bind fun _ _ hv => push hv

end Pairing
end ThreadedForth
