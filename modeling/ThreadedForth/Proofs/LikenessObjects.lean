/-
  Words for objects, jumps and cells, on machines that are alike.
-/
import ThreadedForth.Proofs.LikenessValues

namespace ThreadedForth

variable {α β : Type}

namespace Likeness

variable {L : Likeness} {x y : Machine} {φ : α → Prop} {ψ : β → Prop}

/-! ## Functions of objects -/

/-- A computation on the objects and the data stack that does the same to machines that are
    alike. -/
abbrev KeepsStore (L : Likeness) (act : StoreM α) (φ : α → Prop) : Prop :=
  L.Keeps (M.onStore act) φ

namespace KeepsStore

theorem bind {act : StoreM α} {f : α → StoreM β} (h : L.KeepsStore act φ)
    (hf : ∀ a, φ a → L.KeepsStore (f a) ψ) : L.KeepsStore (act >>= f) ψ := by
  unfold KeepsStore
  rw [M.onStore_bind]
  exact Keeps.bind h hf

theorem pure {a : α} (ha : φ a) : L.KeepsStore (Pure.pure a) φ :=
  Keeps.pure ha

theorem throw (e : Error) : L.KeepsStore (MonadExcept.throw e : StoreM α) φ :=
  Keeps.throw e

theorem lift (r : Except Error α) (hr : ∀ a, r = .ok a → φ a) : L.KeepsStore (Store.lift r) φ := by
  unfold KeepsStore
  rw [M.onStore_lift]
  exact .lift r hr

theorem lift' (r : Except Error α) : L.KeepsStore (Store.lift r) fun _ => True :=
  lift r fun _ _ => trivial

theorem get {f : Store → StoreM α}
    (h : ∀ x y, L.alike x y → f ⟨x.heap, x.data⟩ = f ⟨y.heap, y.data⟩)
    (hf : ∀ x y, L.alike x y → L.KeepsStore (f ⟨x.heap, x.data⟩) φ) :
    L.KeepsStore (MonadState.get >>= f) φ := by
  intro x y hxy
  show L.Same φ (M.onStore (f ⟨x.heap, x.data⟩) x) (M.onStore (f ⟨y.heap, y.data⟩) y)
  rw [← h x y hxy]
  exact hf x y hxy x y hxy

end KeepsStore

theorem knows_setItems {o : Obj} {items : Array Value} (h : ∀ v ∈ items, L.Knows v) :
    ∀ v ∈ (o.setItems items).items, L.Knows v := by
  cases o with
  | text s => exact knows_text s
  | array _ _ => exact h
  | record _ _ _ _ => exact h

theorem knows_replicate (n : Nat) : ∀ v ∈ Array.replicate n (Value.int 0), L.Knows v := by
  intro v hv
  rw [Array.eq_of_mem_replicate hv]
  exact .plain rfl

namespace Basic

variable (B : L.Basic) {address : UInt64}
include B

theorem storePop : L.KeepsStore Store.pop L.Knows := by
  unfold KeepsStore
  rw [M.onStore_pop]
  exact B.pop

theorem storePush {v : Value} (hv : L.Knows v) : L.KeepsStore (Store.push v) fun _ => True := by
  unfold KeepsStore
  rw [M.onStore_push]
  exact B.push hv

theorem storePlain {v : Value} (hv : v.refs = []) : L.KeepsStore (Store.push v) fun _ => True :=
  B.storePush (.plain hv)

theorem storePopInt : L.KeepsStore Store.popInt fun _ => True :=
  B.storePop.bind fun _ _ => .lift' _

theorem storePushNew {o : Obj} (ho : ∀ v ∈ o.items, L.Knows v) :
    L.KeepsStore (Store.pushNew o) fun _ => True := by
  unfold KeepsStore
  rw [Store.onStore_pushNew]
  exact B.pushNew ho

theorem storePushAll : ∀ {vs : List Value}, (∀ v ∈ vs, L.Knows v) →
    L.KeepsStore (Store.pushAll vs) fun _ => True
  | [], _ => .pure trivial
  | _ :: _, h =>
    (B.storePush (h _ List.mem_cons_self)).bind fun _ _ =>
      storePushAll fun v hv => h v (List.mem_cons_of_mem _ hv)

theorem storeReplace (i : ObjId) {o : Obj} (ho : ∀ v ∈ o.items, L.Knows v) :
    L.KeepsStore (Store.replace i o) fun _ => True :=
  fun _ _ h => .ok () trivial (B.setObject h i ho)

theorem needle_eq (h : L.alike x y) (v : Value) : x.heap.needle v = y.heap.needle v := by
  cases v with
  | char c => rfl
  | _ => simp only [Heap.needle, B.text?_eq h]

theorem sameContent_eq (h : L.alike x y) (a b : Value) :
    x.heap.sameContent a b = y.heap.sameContent a b := by
  simp only [Heap.sameContent, B.text?_eq h]

theorem invokeText (o : ObjId) (text : String) (f : Function) :
    L.KeepsStore (Store.invokeText o text f) fun _ => True := by
  cases f with
  | size => exact B.storePlain rfl
  | hash => exact B.storePlain rfl
  | get =>
    exact B.storePopInt.bind fun _ _ => (KeepsStore.lift' _).bind fun _ _ => B.storePlain rfl
  | set =>
    refine B.storePopInt.bind fun _ _ => B.storePop.bind fun _ _ => (KeepsStore.lift' _).bind
      fun c _ => (KeepsStore.lift' _).bind fun i _ => ?_
    cases Utf8.splice? i (i + 1) [c] text.toList with
    | none => exact .throw _
    | some cs => exact B.storeReplace o (knows_text _)
  | contains =>
    exact B.storePop.bind fun v _ => .get (fun x y h => by simp only [B.needle_eq h]) fun _ _ _ =>
      (KeepsStore.lift' _).bind fun _ _ => B.storePlain rfl
  | indexOf =>
    refine B.storePop.bind fun v _ => .get (fun x y h => by simp only [B.needle_eq h]) fun _ _ _ =>
      (KeepsStore.lift' _).bind fun needle _ => ?_
    cases Utf8.offsetOf? needle.toList text.toList with
    | none => exact B.storePlain rfl
    | some i => exact B.storePlain rfl
  | subRange =>
    refine B.storePopInt.bind fun _ _ => B.storePopInt.bind fun _ _ => (KeepsStore.lift' _).bind
      fun ij _ => ?_
    dsimp only
    cases Utf8.slice? ij.1 ij.2 text.toList with
    | none => exact .throw _
    | some cs => exact B.storePushNew (knows_text _)
  | deconstruct =>
    refine (B.storePushAll fun v hv => ?_).bind fun _ _ => B.storePlain rfl
    obtain ⟨c, -, rfl⟩ := List.mem_map.1 hv
    exact .plain rfl
  | append =>
    exact B.storePop.bind fun v hv => .get (fun x y h => by simp only [B.display_eq h hv])
      fun _ _ _ => B.storeReplace o (knows_text _)
  | implements => exact B.storePopInt.bind fun _ _ => B.storePlain rfl
  | close | read | readLine | readChar | eof => exact .throw _

theorem invokeItems (o : ObjId) (obj : Obj) {items : Array Value} (hi : ∀ v ∈ items, L.Knows v)
    (f : Function) : L.KeepsStore (Store.invokeItems address o obj items f) fun _ => True := by
  cases f with
  | size => exact B.storePlain rfl
  | hash => exact B.storePlain rfl
  | get =>
    refine B.storePopInt.bind fun _ _ => (KeepsStore.lift' _).bind fun i _ => B.storePush ?_
    cases hv : items[i]? with
    | none => exact .plain rfl
    | some v => exact hi v (Array.mem_of_getElem? hv)
  | set =>
    refine B.storePopInt.bind fun _ _ => B.storePop.bind fun v hv => (KeepsStore.lift' _).bind
      fun i _ => B.storeReplace o (knows_setItems fun u hu => ?_)
    rcases Array.mem_or_eq_of_mem_setIfInBounds hu with hu | rfl
    · exact hi u hu
    · exact hv
  | contains =>
    exact B.storePop.bind fun v _ => .get (fun x y h => by simp only [B.sameContent_eq h])
      fun _ _ _ => B.storePlain rfl
  | indexOf =>
    refine B.storePop.bind fun v _ => .get (fun x y h => by simp only [B.sameContent_eq h])
      fun x _ _ => ?_
    dsimp only
    split
    · exact B.storePlain rfl
    · exact B.storePlain rfl
  | deconstruct =>
    exact (B.storePushAll fun v hv => hi v (Array.mem_toList_iff.1 hv)).bind fun _ _ =>
      B.storePlain rfl
  | implements => exact B.storePopInt.bind fun _ _ => B.storePlain rfl
  | subRange | append | close | read | readLine | readChar | eof => exact .throw _

theorem invokeArray (o : ObjId) (obj : Obj) {items : Array Value} (hi : ∀ v ∈ items, L.Knows v)
    (f : Function) : L.KeepsStore (Store.invokeArray address o obj items f) fun _ => True := by
  have h : L.KeepsStore (Store.invokeItems address o obj items f) _ := B.invokeItems o obj hi f
  cases f with
  | subRange =>
    refine B.storePopInt.bind fun _ _ => B.storePopInt.bind fun _ _ => (KeepsStore.lift' _).bind
      fun ij _ => B.storePushNew fun v hv => ?_
    have hv : v ∈ items.toList.extract ij.1 ij.2 := by
      rw [← Array.toList_extract]
      exact Array.mem_toList_iff.2 hv
    exact hi v (Array.mem_toList_iff.1 (List.mem_of_mem_drop (List.mem_of_mem_take hv)))
  | append =>
    refine B.storePop.bind fun v hv => B.storeReplace o (knows_setItems fun u hu => ?_)
    rcases Array.mem_push.1 hu with hu | rfl
    · exact hi u hu
    · exact hv
  | _ => exact h

theorem invoke (o : ObjId) (f : Function) : L.KeepsStore (Store.invoke address o f) fun _ => True := by
  refine .get (fun x y h => by simp only [B.object_eq h]) fun x y h => ?_
  have hi : ∀ v ∈ (x.heap.object o).items, L.Knows v := fun v => B.item h o
  dsimp only
  cases ho : x.heap.object o with
  | text s => exact B.invokeText o s f
  | array items v =>
    rw [ho] at hi
    exact B.invokeArray o _ hi f
  | record t d items v =>
    rw [ho] at hi
    exact B.invokeItems o _ hi f

/-! ## Objects and types -/

theorem make (t : TypeId) (maker : Maker) : L.Keeps (ObjectWord.make t maker) fun _ => True := by
  cases maker with
  | string => exact B.pushNew (knows_text _)
  | array => exact B.popInt.bind fun _ _ => .orThrow (.orThrow (B.pushNew (knows_replicate _)))
  | host refuses =>
    cases refuses with
    | false =>
      exact .get (fun x y h => by simp only [B.types_eq h]) fun _ _ _ => B.pushNew (knows_text _)
    | true => exact .throw _

theorem makeObject : L.Keeps ObjectWord.makeObject fun _ => True := by
  refine B.pop.bind fun _ _ => (Keeps.lift' _).bind fun t _ =>
    .get (fun x y h => by simp only [B.types_eq h]) fun x _ _ => .orThrow ?_
  split
  · exact .throw _
  · split
    · exact .throw _
    · exact B.make _ _
    · exact B.pushNew (knows_replicate _)

omit B in
/-- The object that has been taken off both data stacks is at the same address in both machines, if
    its address counts. -/
theorem topAddress_of_pop {v : Value} {o : ObjId} {x' y' : Machine} (hx : M.pop x = .ok v x')
    (hy : M.pop y = .ok v y') (hv : v.toObject = .ok o)
    (ht : (x'.heap.object o).hashesAddress = true) (ha : x.topAddress = y.topAddress) :
    x'.addresses o = y'.addresses o := by
  obtain ⟨s, hs, rfl⟩ := M.pop_eq_ok hx
  obtain ⟨s', hs', rfl⟩ := M.pop_eq_ok hy
  obtain rfl : v = .obj o := by
    cases v <;> cases hv
    rfl
  have hobj : ∀ {m : Machine} {t : Stack Value}, m.data.items = .obj o :: t.items →
      m.topAddress = if (m.heap.object o).hashesAddress then some (m.addresses o) else none := by
    intro m t ht
    simp only [Machine.topAddress, Stack.peek?, ht, List.getElem?_cons_zero]
  have ht : (x.heap.object o).hashesAddress = true := ht
  rw [hobj hs, hobj hs', if_pos ht] at ha
  split at ha
  · exact Option.some.inj ha
  · cases ha

theorem call (h : L.alike x y) (f : Function) (ha : f = .hash → x.topAddress = y.topAddress) :
    L.Same (fun _ => True) (ObjectWord.call f x) (ObjectWord.call f y) := by
  refine (B.pop x y h).bind fun v x₁ y₁ hx hy _ h₁ => (Keeps.lift' v.toObject x₁ y₁ h₁).bind
    fun o x₂ y₂ hx₂ hy₂ _ _ => ?_
  obtain ⟨hv, rfl⟩ := M.lift_eq_ok hx₂
  obtain ⟨-, rfl⟩ := M.lift_eq_ok hy₂
  show L.Same _ ((if (x₂.heap.object o).implements f then
      M.onStore (Store.invoke (x₂.addresses o) o f) else throw _) x₂)
    ((if (y₂.heap.object o).implements f then
      M.onStore (Store.invoke (y₂.addresses o) o f) else throw _) y₂)
  rw [← B.object_eq h₁, ← B.types_eq h₁]
  split
  · have hloc : M.onStore (Store.invoke (y₂.addresses o) o f) y₂ =
        M.onStore (Store.invoke (x₂.addresses o) o f) y₂ := by
      by_cases hf : f = .hash
      · subst hf
        refine ObjectWord.onStore_hash fun ht => (topAddress_of_pop hx hy hv ?_ (ha rfl)).symm
        rwa [B.object_eq h₁]
      · rw [Store.invoke_address hf]
    rw [hloc]
    exact B.invoke o f x₂ y₂ h₁
  · exact .error _ h₁

theorem setHandler : L.Keeps (ObjectWord.run .setHandler) fun _ => True := by
  refine B.pop.bind fun _ _ => (Keeps.lift' _).bind fun t _ => B.popWord.bind fun w hw =>
    B.onTypes fun ts v ht hv => ?_
  rcases ObjectWord.handles_setHandler hv with hv | rfl
  · exact ht v hv
  · exact hw

theorem objectWord (h : L.alike x y) {w : ObjectWord} (hw : w ≠ .struct)
    (hc : w = .refcount → x.topCount = y.topCount)
    (ha : w = .invoke .hash → x.topAddress = y.topAddress) :
    L.Same (fun _ => True) (w.run x) (w.run y) := by
  cases w with
  | new => exact B.makeObject x y h
  | typeOf =>
    exact (B.pop.bind fun v _ => .get (fun x y h => by simp only [B.typeOf_eq h]) fun _ _ _ =>
      B.pushPlain rfl) x y h
  | invoke f => exact B.call h f fun hf => ha (by rw [hf])
  | struct => exact absurd rfl hw
  | setHandler => exact B.setHandler x y h
  | refcount =>
    refine (B.peek 0 x y h).bind fun v x' y' hx hy _ hxy => ?_
    obtain ⟨hvx, rfl⟩ := M.peek_eq_ok hx
    obtain ⟨hvy, rfl⟩ := M.peek_eq_ok hy
    have hcount : x'.heap.liveCount? x'.roots v = y'.heap.liveCount? y'.roots v := by
      have := hc rfl
      rwa [Machine.topCount, Machine.topCount, hvx, hvy] at this
    show L.Same _ (M.push (.nat ((x'.heap.liveCount? x'.roots v).getD 0)) x')
      (M.push (.nat ((y'.heap.liveCount? y'.roots v).getD 0)) y')
    rw [← hcount]
    exact B.pushPlain rfl x' y' hxy

/-! ## Jumps and counted loops -/

theorem jumpTo (address : Int64) : L.Keeps (BranchWord.jumpTo address) fun _ => True := by
  refine B.parent.bind fun f hf => .get (fun x y h => ?_) fun _ _ _ =>
    .ite (B.setParentIp _) (.throw _)
  have hs : (x.heap.word f.word).size = (y.heap.word f.word).size := by
    rw [Word.size, B.body_eq h hf, Word.size]
  have ho : ∀ i, (x.heap.word f.word).badOffset i = (y.heap.word f.word).badOffset i := by
    intro i
    rw [Word.badOffset, B.label_eq h hf, Word.badOffset]
  simp only [hs, ho]

theorem dropLoop : L.Keeps BranchWord.dropLoop fun _ => True :=
  B.popReturn.bind fun _ _ => B.popReturn.bind fun _ _ => B.popReturn.bind fun _ _ => .pure trivial

theorem setIndex (n : Int64) : L.Keeps (BranchWord.setIndex n) fun _ => True := by
  intro x y h
  unfold BranchWord.setIndex
  rw [← B.return_eq h]
  cases x.return.overwrite 0 n with
  | error e => exact .error e h
  | ok s => exact .ok () trivial (B.setReturn h s)

theorem advance (entry step : Int64) (stepped : Bool) :
    L.Keeps (BranchWord.advance entry step stepped) fun _ => True :=
  (B.peekReturn 0).bind fun _ _ => (B.peekReturn 1).bind fun _ _ =>
    .ite B.dropLoop ((B.setIndex _).bind fun _ _ => B.jumpTo entry)

theorem branchAct (w : BranchWord) : L.Keeps w.act fun _ => True := by
  cases w with
  | inlineLiteral =>
    exact B.parent.bind fun f hf => .get (fun x y h => by simp only [B.load_eq h hf]) fun x y h =>
      (Keeps.lift _ fun v hv => B.knows_load h hf hv).bind fun _ hv =>
        (B.setParentIp _).bind fun _ _ => B.push hv
  | jump => exact B.popInt.bind fun _ _ => B.jumpTo _
  | jumpIfFalse =>
    exact B.popInt.bind fun _ _ => B.popFlag.bind fun _ _ => .ite (B.jumpTo _) (.pure trivial)
  | jumpIfTrue =>
    exact B.popInt.bind fun _ _ => B.popFlag.bind fun _ _ => .ite (B.jumpTo _) (.pure trivial)
  | enterCount maySkip =>
    exact B.popInt.bind fun _ _ => B.popInt.bind fun _ _ => B.popInt.bind fun _ _ =>
      .ite (B.jumpTo _) ((B.pushReturn _).bind fun _ _ => (B.pushReturn _).bind fun _ _ =>
        B.pushReturn _)
  | advanceCount stepped =>
    cases stepped with
    | false => exact B.popInt.bind fun _ _ => B.advance _ _ _
    | true => exact B.popInt.bind fun _ _ => B.popInt.bind fun _ _ => B.advance _ _ _
  | leave => exact (B.peekReturn 2).bind fun _ _ => B.dropLoop.bind fun _ _ => B.jumpTo _
  | unloop => exact B.dropLoop
  | index => exact (B.peekReturn 0).bind fun _ _ => B.pushPlain rfl
  | outerIndex => exact (B.peekReturn 3).bind fun _ _ => B.pushPlain rfl
  | exit => exact .pure trivial

theorem branchWord (w : BranchWord) : L.Keeps w.run L.Leads := by
  cases w with
  | exit => exact .pure trivial
  | _ => exact (B.branchAct _).bind fun _ _ => .pure trivial

/-! ## Cells and the host -/

theorem popCell : L.Keeps StateWord.popCell fun _ => True :=
  B.popInt.bind fun _ _ => .lift' _

theorem stateWord (w : StateWord) : L.Keeps w.run fun _ => True := by
  have hcells : ∀ {x y}, L.alike x y → x.cells = y.cells := fun h => congrArg Common.cells (B.common h)
  have hflags : ∀ {x y}, L.alike x y → x.flags = y.flags := fun h => congrArg Common.flags (B.common h)
  cases w with
  | loadCell =>
    exact B.popCell.bind fun _ _ => .get (fun x y h => by simp only [hcells h]) fun _ _ _ =>
      B.pushPlain rfl
  | storeCell =>
    exact B.popCell.bind fun i _ => B.popInt.bind fun n _ => .modify fun x y h =>
      B.change h (fun c => { c with cells := c.cells.setIfInBounds i n }) { B.holds h with }
  | loadFlag =>
    exact B.popCell.bind fun _ _ => .get (fun x y h => by simp only [hflags h]) fun _ _ _ =>
      B.pushPlain rfl
  | storeFlag =>
    exact B.popCell.bind fun i _ => B.popFlag.bind fun b _ => .modify fun x y h =>
      B.change h (fun c => { c with flags := c.flags.setIfInBounds i b }) { B.holds h with }
  | debugLevel =>
    refine B.popInt.bind fun n _ => ?_
    cases DebugLevel.ofInt? n.toInt with
    | none => exact .throw _
    | some l =>
      exact .modify fun x y h =>
        B.change h (fun c => { c with debugger := c.debugger.setLevel l c.frames.length })
          { B.holds h with }

theorem hostWord (w : HostWord) : L.Keeps w.run L.Leads := by
  cases w with
  | log =>
    refine B.pop.bind fun v hv => (Keeps.modify fun x y h => ?_).bind fun _ _ => .pure trivial
    rw [← B.format_eq h hv]
    exact B.change h (fun c => { c with host := { c.host with log := c.host.log ++ [x.format v] } })
      { B.holds h with }
  | bump =>
    have hhost : ∀ {x y}, L.alike x y → x.host = y.host := fun h => congrArg Common.host (B.common h)
    refine (Keeps.modify fun x y h => ?_).bind fun _ _ =>
      .get (fun x y h => by simp only [hhost h]) fun _ _ _ => (B.pushPlain rfl).bind fun _ _ =>
        .pure trivial
    exact B.change h (fun c => { c with host := { c.host with calls := c.host.calls + 1 } })
      { B.holds h with }
  | boom => exact .throw _
  | boomAny => exact .throw _
  | boomText => exact B.popInt.bind fun _ _ => .throw _
  | nested => exact B.popWord.bind fun _ hw => .pure ⟨hw, nofun⟩
  | attempt => exact B.popWord.bind fun _ hw => .pure ⟨hw, nofun⟩
  | exit => exact .pure trivial
  | call => exact B.popWord.bind fun _ hw => .pure hw
  | interrupt =>
    exact (Keeps.modify fun x y h =>
      B.change h (fun c => { c with interrupt := true }) { B.holds h with }).bind fun _ _ =>
        .pure trivial

theorem pushDataAddress : L.Keeps pushDataAddress fun _ => True :=
  B.current.bind fun _ hf => .get (fun x y h => by simp only [B.pointer_eq h hf]) fun _ _ _ =>
    B.push (.ptr hf)

theorem pushFirstSlot : L.Keeps pushFirstSlot fun _ => True :=
  B.current.bind fun _ hf => .get (fun x y h => by simp only [B.load_eq h hf]) fun x y h =>
    (Keeps.lift _ fun _ hv => B.knows_load h hf hv).bind fun _ hv => B.push hv

end Basic
end Likeness
end ThreadedForth
