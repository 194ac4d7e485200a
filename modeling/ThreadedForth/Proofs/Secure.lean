/-
  Well-formed machines, and computations that keep them so.
-/
import ThreadedForth.Proofs.ContextEffects
import ThreadedForth.Proofs.HeapShape

namespace ThreadedForth

variable {α β : Type}

/-- The position of a frame is that of an element of its word, or the end. -/
structure Frame.Fits (h : Heap) (f : Frame) : Prop where
  has : h.Has (.word f.word)
  one_le : 1 ≤ f.ip
  le_size : f.ip ≤ (h.word f.word).size

/-- The heap has everything that is held until a nested run has ended. -/
def Pending.In (h : Heap) (p : Pending) : Prop :=
  ∀ r ∈ Machine.pendingRefs p, h.Has r

/-- The heap has the words that handle operators. -/
def Types.In (h : Heap) (t : Types) : Prop :=
  ∀ e w, (e ∈ t.values ∨ e ∈ t.objects ∨ e ∈ t.users) → e.handler? = some (.word w) →
    h.Has (.word w)

/-- The heap has the words that a primitive goes on with. -/
def Flow.In (h : Heap) : Flow → Prop
  | call w => h.Has (.word w)
  | nest w pending => h.Has (.word w) ∧ pending.In h
  | _ => True

/-- The invariant of a machine. -/
structure Machine.Sound (m : Machine) : Prop where
  heap : m.heap.Sound
  data : ∀ v ∈ m.data.items, v.In m.heap
  temp : ∀ v ∈ m.temp.items, v.In m.heap
  self : ∀ v ∈ m.self.items, v.In m.heap
  frames : ∀ f ∈ m.frames, f.Fits m.heap
  runs : ∀ r ∈ m.runs, r.pending.In m.heap
  dictionary : ∀ e ∈ m.dictionary.entries, m.heap.Has (.word e.2)
  types : m.types.In m.heap
  building : ∀ w, m.compiler.building? = some w → m.heap.Has (.word w)
  last : ∀ w, m.compiler.last? = some w → m.heap.Has (.word w)

section Growth

variable {h h' : Heap} (hg : h.Grows h')
include hg

theorem Frame.Fits.mono {f : Frame} (hf : f.Fits h) : f.Fits h' :=
  ⟨hf.has.mono hg, hf.one_le, Nat.le_trans hf.le_size (hg.bodies f.word)⟩

theorem Pending.In.mono {p : Pending} (hp : p.In h) : p.In h' :=
  fun r hr => (hp r hr).mono hg

theorem Types.In.mono {t : Types} (ht : t.In h) : t.In h' :=
  fun e w he hw => (ht e w he hw).mono hg

end Growth

namespace Machine

variable {m : Machine}

/-- The heap may be replaced by one that it has grown to. -/
theorem Sound.withHeap (hs : m.Sound) {h : Heap} (hh : h.Sound) (hg : m.heap.Grows h) :
    Sound { m with heap := h } where
  heap := hh
  data := fun v hv => (hs.data v hv).mono hg
  temp := fun v hv => (hs.temp v hv).mono hg
  self := fun v hv => (hs.self v hv).mono hg
  frames := fun f hf => (hs.frames f hf).mono hg
  runs := fun r hr => (hs.runs r hr).mono hg
  dictionary := fun e he => (hs.dictionary e he).mono hg
  types := hs.types.mono hg
  building := fun w hw => (hs.building w hw).mono hg
  last := fun w hw => (hs.last w hw).mono hg

theorem Sound.find? (hs : m.Sound) {name : String} {w : WordId} (hw : m.find? name = some w) :
    m.heap.Has (.word w) := by
  unfold Machine.find? Dictionary.find? Dictionary.lookup? at hw
  obtain ⟨hw, _⟩ := Option.filter_eq_some_iff.1 hw
  obtain ⟨e, he, rfl⟩ := Option.map_eq_some_iff.1 hw
  exact hs.dictionary e (List.mem_of_find?_eq_some he)

end Machine

/-! ## Secure computations -/

/-- A computation that keeps a machine well formed and lets its heap only grow; its results have
    the property `P`. -/
def Secure (m : Machine) (act : M α) (P : α → Machine → Prop) : Prop :=
  m.Sound → (Machine.after (act m)).Sound ∧ m.heap.Grows (Machine.after (act m)).heap ∧
    ∀ a m', act m = .ok a m' → P a m'

namespace Secure

variable {m : Machine} {P : α → Machine → Prop} {Q : β → Machine → Prop}

theorem pure {a : α} (h : m.Sound → P a m) : Secure m (Pure.pure a) P := by
  refine fun hs => ⟨hs, .refl _, fun b m' hb => ?_⟩
  cases hb
  exact h hs

theorem throw (e : Error) : Secure m (MonadExcept.throw e) P :=
  fun hs => ⟨hs, .refl _, fun _ _ hb => by cases hb⟩

theorem bind {x : M α} {f : α → M β} (hx : Secure m x P)
    (hf : ∀ a m₁, m₁.Sound → m.heap.Grows m₁.heap → P a m₁ → Secure m₁ (f a) Q) :
    Secure m (x >>= f) Q := by
  intro hs
  obtain ⟨h₁, h₂, h₃⟩ := hx hs
  cases hr : x m with
  | error e m₁ =>
    rw [hr] at h₁ h₂
    rw [M.bind_error hr]
    exact ⟨h₁, h₂, fun _ _ hb => by cases hb⟩
  | ok a m₁ =>
    rw [hr] at h₁ h₂
    rw [M.bind_ok hr]
    obtain ⟨h₄, h₅, h₆⟩ := hf a m₁ h₁ h₂ (h₃ a m₁ hr) h₁
    exact ⟨h₄, h₂.trans h₅, h₆⟩

theorem get {f : Machine → M α} (h : Secure m (f m) P) : Secure m (MonadState.get >>= f) P := h

theorem ite {c : Prop} [Decidable c] {x y : M α} (hx : c → Secure m x P) (hy : ¬ c → Secure m y P) :
    Secure m (if c then x else y) P := by
  split
  · exact hx ‹_›
  · exact hy ‹_›

theorem weaken {P' : α → Machine → Prop} {x : M α} (hx : Secure m x P)
    (h : ∀ a m', m'.Sound → P a m' → P' a m') : Secure m x P' := by
  intro hs
  obtain ⟨h₁, h₂, h₃⟩ := hx hs
  refine ⟨h₁, h₂, fun a m' hr => h a m' ?_ (h₃ a m' hr)⟩
  rw [hr] at h₁
  exact h₁

theorem sound_ok {x : M α} (hx : Secure m x P) (hs : m.Sound) {a : α} {m' : Machine}
    (hr : x m = .ok a m') : m'.Sound := by
  have := (hx hs).1
  rwa [hr] at this

theorem sound_error {x : M α} (hx : Secure m x P) (hs : m.Sound) {e : Error} {m' : Machine}
    (hr : x m = .error e m') : m'.Sound := by
  have := (hx hs).1
  rwa [hr] at this

/-- A change of the machine. -/
theorem modify {f : Machine → Machine} (hf : m.Sound → (f m).Sound ∧ m.heap.Grows (f m).heap) :
    Secure m (modify f : M Unit) fun _ _ => True :=
  fun hs => ⟨(hf hs).1, (hf hs).2, fun _ _ _ => trivial⟩

/-- A machine of one's own may be put in. -/
theorem set {m' : Machine} (hf : m.Sound → m'.Sound ∧ m.heap.Grows m'.heap) :
    Secure m (MonadStateOf.set m' : M PUnit) fun _ m₁ => m₁ = m' :=
  fun hs => ⟨(hf hs).1, (hf hs).2, fun _ _ hb => by cases hb; rfl⟩

end Secure

namespace M

variable {m : Machine}

theorem lift_secure (r : Except Error α) : Secure m (lift r) fun a m' => m' = m ∧ r = .ok a := by
  intro hs
  cases r with
  | ok a => exact ⟨hs, .refl _, fun _ _ hb => by cases hb; exact ⟨rfl, rfl⟩⟩
  | error e => exact ⟨hs, .refl _, fun _ _ hb => by cases hb⟩

theorem pop_secure : Secure m pop fun v m' => v.In m'.heap := by
  intro hs
  unfold pop
  cases hp : m.data.pop with
  | error e => exact ⟨hs, .refl _, fun _ _ hb => by cases hb⟩
  | ok vd =>
    obtain ⟨v, data⟩ := vd
    obtain ⟨hi, _⟩ := Stack.pop_eq_ok hp
    refine ⟨{ hs with data := fun x hx => hs.data x (hi ▸ List.mem_cons_of_mem _ hx) }, .refl _,
      fun _ _ hb => ?_⟩
    cases hb
    exact hs.data v (hi ▸ List.mem_cons_self)

theorem push_secure {v : Value} (hv : v.In m.heap) : Secure m (push v) fun _ _ => True := by
  intro hs
  unfold push
  cases hp : m.data.push v with
  | error e => exact ⟨hs, .refl _, fun _ _ _ => trivial⟩
  | ok data =>
    obtain ⟨_, rfl⟩ := Stack.push_eq_ok hp
    refine ⟨{ hs with data := fun x hx => ?_ }, .refl _, fun _ _ _ => trivial⟩
    rcases List.mem_cons.1 hx with rfl | hx
    · exact hv
    · exact hs.data x hx

theorem peek_secure (n : Nat) : Secure m (peek n) fun v m' => v.In m'.heap := by
  intro hs
  unfold peek Stack.peek Stack.peek?
  cases hp : m.data.items[n]? with
  | none => exact ⟨hs, .refl _, fun _ _ hb => by cases hb⟩
  | some v => exact ⟨hs, .refl _, fun _ _ hb => by cases hb; exact hs.data v (List.mem_of_getElem? hp)⟩

/-- A value is taken off the data stack and read. -/
theorem popLift_secure (f : Value → Except Error α) :
    Secure m (do lift (f (← pop))) fun a m' => ∃ v, v.In m'.heap ∧ f v = .ok a :=
  pop_secure.bind fun v _ _ _ hv =>
    (lift_secure _).weaken fun _ _ _ ⟨hm, hr⟩ => ⟨v, hm ▸ hv, hr⟩

theorem popInt_secure : Secure m popInt fun _ _ => True :=
  (popLift_secure Value.toInt).weaken fun _ _ _ _ => trivial

theorem popFlag_secure : Secure m popFlag fun _ _ => True :=
  (popLift_secure Value.toFlag).weaken fun _ _ _ _ => trivial

theorem popWord_secure : Secure m popWord fun w m' => m'.heap.Has (.word w) := by
  refine (popLift_secure Value.toWord).weaken fun w m' _ ⟨v, hv, hw⟩ => ?_
  cases v with
  | xt w' =>
    obtain rfl : w' = w := by simpa [Value.toWord] using hw
    exact hv (.word w') (by simp [Value.refs])
  | _ => simp [Value.toWord] at hw

theorem pushReturn_secure (n : Int64) : Secure m (pushReturn n) fun _ _ => True := by
  intro hs
  unfold pushReturn
  cases m.return.push n with
  | error e => exact ⟨hs, .refl _, fun _ _ _ => trivial⟩
  | ok s => exact ⟨{ hs with }, .refl _, fun _ _ _ => trivial⟩

theorem popReturn_secure : Secure m popReturn fun _ _ => True := by
  intro hs
  unfold popReturn
  cases m.return.pop with
  | error e => exact ⟨hs, .refl _, fun _ _ _ => trivial⟩
  | ok s => exact ⟨{ hs with }, .refl _, fun _ _ _ => trivial⟩

theorem peekReturn_secure (n : Nat) : Secure m (peekReturn n) fun _ _ => True := by
  intro hs
  unfold peekReturn
  cases m.return.peek n with
  | error e => exact ⟨hs, .refl _, fun _ _ _ => trivial⟩
  | ok s => exact ⟨hs, .refl _, fun _ _ _ => trivial⟩

theorem setHeap_secure {r : Except Error Heap}
    (hr : m.Sound → ∀ h, r = .ok h → h.Sound ∧ m.heap.Grows h) :
    Secure m (setHeap r) fun _ _ => True := by
  refine (lift_secure r).bind fun h m₁ hs₁ _ ⟨hm, hh⟩ => ?_
  subst hm
  exact .modify fun hs => ⟨hs.withHeap (hr hs h hh).1 (hr hs h hh).2, (hr hs h hh).2⟩

/-- A word of the heap is changed. -/
theorem changeWord_secure {w : WordId} (hw : m.heap.Has (.word w)) {f : Word → Except Error Word}
    (hf : ∀ x y, x.Sound m.heap → f x = .ok y → y.Sound m.heap ∧ x.size ≤ y.size) :
    Secure m (setHeap (m.heap.changeWord w f)) fun _ _ => True :=
  setHeap_secure fun hs _ hh => hs.heap.changeWord hw hf hh

theorem onTypes_secure {act : Types → Except Error α × Types}
    (ha : m.Sound → (act m.types).2.In m.heap) : Secure m (onTypes act) fun _ _ => True := by
  intro hs
  have ha := ha hs
  unfold onTypes
  rcases h : act m.types with ⟨_ | a, types⟩
  · rw [h] at ha
    exact ⟨{ hs with types := ha }, .refl _, fun _ _ _ => trivial⟩
  · rw [h] at ha
    exact ⟨{ hs with types := ha }, .refl _, fun _ _ _ => trivial⟩

theorem addObject_in (h : Heap) (x : Obj) : (Value.obj (h.addObject x).1).In (h.addObject x).2 := by
  intro r hr
  obtain rfl : r = .object ⟨h.objects.size⟩ := by simpa [Value.refs, Heap.addObject] using hr
  show h.objects.size < (h.objects.push x).size
  rw [Array.size_push]
  exact Nat.lt_succ_self _

theorem newText_secure (s : String) : Secure m (newText s) fun v m' => v.In m'.heap := by
  intro hs
  have hg := Heap.Grows.addObject m.heap (.text s)
  refine ⟨hs.withHeap (hs.heap.addObject fun v hv => by simp [Obj.items] at hv) hg, hg,
    fun _ _ hb => ?_⟩
  cases hb
  exact addObject_in _ _

theorem pushNew_secure {x : Obj} (hx : x.In m.heap) : Secure m (pushNew x) fun _ _ => True := by
  intro hs
  have hg := Heap.Grows.addObject m.heap x
  obtain ⟨h₁, h₂, _⟩ := push_secure (m := { m with heap := (m.heap.addObject x).2 })
    (addObject_in m.heap x) (hs.withHeap (hs.heap.addObject hx) hg)
  exact ⟨h₁, hg.trans h₂, fun _ _ _ => trivial⟩

theorem put_secure (s : String) : Secure m (put s) fun _ _ => True := by
  intro hs
  unfold put
  cases m.output.push s with
  | error e => exact ⟨hs, .refl _, fun _ _ _ => trivial⟩
  | ok o => exact ⟨{ hs with }, .refl _, fun _ _ _ => trivial⟩

theorem write_secure (ss : List String) : Secure m (write ss) fun _ _ => True := by
  intro hs
  rw [write_eq]
  cases (m.output.write ss).2 with
  | false => exact ⟨{ hs with }, .refl _, fun _ _ _ => trivial⟩
  | true => exact ⟨{ hs with }, .refl _, fun _ _ _ => trivial⟩

theorem builtin_secure (name : String) :
    Secure m (builtin name) fun w m' => m'.heap.Has (.word w) := by
  refine .get ?_
  cases hf : m.find? name with
  | none => exact .throw _
  | some w => exact .pure fun hs => hs.find? hf

theorem current_secure :
    Secure m current fun f m' => m' = m ∧ ∃ rest, m.frames = f :: rest := by
  refine .get ?_
  cases hf : m.frames with
  | nil => exact .throw _
  | cons f rest => exact .pure fun _ => ⟨rfl, rest, rfl⟩

theorem parent_secure :
    Secure m parent fun f m' => m' = m ∧ ∃ g rest, m.frames = g :: f :: rest := by
  refine .get ?_
  rcases hf : m.frames with _ | ⟨g, _ | ⟨f, rest⟩⟩
  · exact .throw _
  · exact .throw _
  · exact .pure fun _ => ⟨rfl, g, rest, rfl⟩

theorem setParentIp_secure {g f : Frame} {rest : List Frame} {ip : Nat}
    (hf : m.frames = g :: f :: rest) (h₁ : 1 ≤ ip) (h₂ : ip ≤ (m.heap.word f.word).size) :
    Secure m (setParentIp ip) fun _ _ => True := by
  intro hs
  rw [setParentIp_eq, hf]
  refine ⟨{ hs with frames := fun x hx => ?_ }, .refl _, fun _ _ _ => trivial⟩
  have hfr := hs.frames
  rw [hf] at hfr
  rcases List.mem_cons.1 hx with rfl | hx
  · exact hfr _ List.mem_cons_self
  · rcases List.mem_cons.1 hx with rfl | hx
    · exact ⟨(hfr f (by simp)).has, h₁, h₂⟩
    · exact hfr x (List.mem_cons_of_mem _ (List.mem_cons_of_mem _ hx))

theorem lastWith_secure (held : List Ref) :
    Secure m (lastWith held) fun w m' => m'.heap.Has (.word w) := by
  intro hs
  obtain ⟨h₁, h₂, h₃⟩ := lift_secure (m := m) (m.compiler.last m.heap (held ++ m.roots)) hs
  refine ⟨h₁, h₂, fun w m' hr => ?_⟩
  obtain ⟨rfl, hl⟩ := h₃ w m' hr
  unfold Compiler.last at hl
  split at hl
  · rename_i w' hw
    split at hl
    · obtain rfl : w' = w := by simpa using hl
      exact hs.last w' hw
    · simp at hl
  · simp at hl

theorem here_secure : Secure m here fun _ _ => True :=
  .get ((lift_secure _).weaken fun _ _ _ _ => trivial)

theorem mode_secure : Secure m mode fun _ _ => True := .get (.pure fun _ => trivial)

theorem setMode_secure (mode : Mode) : Secure m (setMode mode) fun _ _ => True :=
  .modify fun hs => ⟨{ hs with }, .refl _⟩

theorem requireCompiling_secure (word : String) : Secure m (requireCompiling word) fun _ _ => True :=
  mode_secure.bind fun _ _ _ _ _ => .ite (fun _ => .pure fun _ => trivial) fun _ => .throw _

/-- An operation on the word under construction. -/
theorem onBuilding_secure {f : Word → Except Error Word}
    (hf : ∀ x y, x.Sound m.heap → f x = .ok y → y.Sound m.heap ∧ x.size ≤ y.size) :
    Secure m (setHeap (m.compiler.building >>= fun w => m.heap.changeWord w f)) fun _ _ => True := by
  refine setHeap_secure fun hs h hh => ?_
  unfold Compiler.building at hh
  cases hb : m.compiler.building? with
  | none => simp [hb, Bind.bind, Except.bind] at hh
  | some w =>
    rw [hb] at hh
    exact hs.heap.changeWord (hs.building w hb) hf hh

theorem compile_secure {e : Elem} (he : e.Inner m.heap) : Secure m (compile e) fun _ _ => True :=
  .get (onBuilding_secure fun _ _ hx hy => hx.push he hy)

theorem compileWord_secure {w : WordId} (hw : m.heap.Has (.word w)) :
    Secure m (compileWord w) fun _ _ => True := by
  refine .get (setHeap_secure fun hs h hh => ?_)
  unfold Compiler.compileWord Compiler.building at hh
  cases hb : m.compiler.building? with
  | none => simp [hb, Bind.bind, Except.bind] at hh
  | some b =>
    have hB := hs.building b hb
    -- the word under construction has its code already
    have he : (m.heap.word b).body.isEmpty = false := by
      have := (hs.heap.word hB).one_le_size
      rw [Word.size] at this
      simp only [Array.isEmpty, decide_eq_false_iff_not]
      omega
    simp only [hb, he, Bind.bind, Except.bind] at hh
    exact hs.heap.changeWord hB (fun _ _ hx hy => hx.push (.call hw) hy) hh

theorem compileBuiltin_secure (name : String) : Secure m (compileBuiltin name) fun _ _ => True :=
  (builtin_secure name).bind fun _ _ _ _ hw => compile_secure (.call hw)

theorem compileLiteral_secure {v : Value} (hv : v.In m.heap) :
    Secure m (compileLiteral v) fun _ _ => True :=
  (compileBuiltin_secure _).bind fun _ _ _ hg _ => compile_secure (.lit (hv.mono hg))

theorem install_sound {w : Word} (hs : m.Sound) (hw : w.Sound m.heap) :
    (m.install w).2.Sound ∧ m.heap.Grows (m.install w).2.heap ∧
      (m.install w).2.heap.Has (.word (m.install w).1) := by
  have hg := Heap.Grows.addWord m.heap w
  have hi : (m.heap.addWord w).2.Has (.word (m.heap.addWord w).1) := by
    show m.heap.words.size < (m.heap.words.push w).size
    rw [Array.size_push]
    exact Nat.lt_succ_self _
  obtain ⟨hh, hg'⟩ := (hs.heap.addWord hw).updateWord hi
    (f := fun x => { x with hidden := false }) fun _ => rfl
  have hG := hg.trans hg'
  have hs' := hs.withHeap hh hG
  refine ⟨{ hs' with dictionary := fun e he => ?_ }, hG, hi.mono hg'⟩
  rcases List.mem_cons.1 he with rfl | he
  · exact hi.mono hg'
  · exact (hs.dictionary e (List.mem_filter.1 he).1).mono hG

theorem install_secure {w : Word} (hw : w.Sound m.heap) :
    Secure m (install w) fun id m' => m'.heap.Has (.word id) := by
  intro hs
  obtain ⟨h₁, h₂, h₃⟩ := install_sound hs hw
  exact ⟨h₁, h₂, fun _ _ hb => by cases hb; exact h₃⟩

theorem setLast_secure {w : WordId} (hw : m.heap.Has (.word w)) :
    Secure m (setLast w) fun _ _ => True := by
  refine .modify fun hs => ⟨{ hs with last := fun x hx => ?_ }, .refl _⟩
  obtain rfl : w = x := by simpa using hx
  exact hw

theorem constant_sound {h : Heap} {v : Value} (hv : v.In h) (name : String) :
    (Word.constant name v).Sound h := by
  refine ⟨.native .pushConstant, [.lit v], rfl, trivial, fun e he => ?_⟩
  rw [List.mem_singleton.1 he]
  exact .lit hv

theorem defineConstant_secure (name : String) {v : Value} (hv : v.In m.heap) :
    Secure m (defineConstant name v) fun _ _ => True :=
  (install_secure (constant_sound hv name)).bind fun _ _ _ _ hw =>
    (setLast_secure hw).bind fun _ _ _ _ _ => .pure fun _ => trivial

theorem nextToken_secure : Secure m nextToken fun _ _ => True :=
  fun hs => ⟨{ hs with }, .refl _, fun _ _ _ => trivial⟩

theorem nextName_secure (reader : String) : Secure m (nextName reader) fun _ _ => True := by
  refine nextToken_secure.bind fun t _ _ _ _ => ?_
  cases t with
  | none => exact .throw _
  | some name => exact .pure fun _ => trivial

theorem nextWord_secure (reader : String) :
    Secure m (nextWord reader) fun w m' => m'.heap.Has (.word w) := by
  refine (nextName_secure reader).bind fun name m₁ _ _ _ => .get ?_
  cases hf : m₁.find? name with
  | none => exact .throw _
  | some w => exact .pure fun hs => hs.find? hf

theorem nextText_secure : Secure m nextText fun _ _ => True := by
  intro hs
  unfold nextText
  rcases m.line.takeUntil '\x22' with ⟨_ | _, _⟩
  · exact ⟨{ hs with }, .refl _, fun _ _ _ => trivial⟩
  · exact ⟨{ hs with }, .refl _, fun _ _ _ => trivial⟩

end M
end ThreadedForth
