/-
  Compiled code is frozen: what the body of a finished word can become.
-/
import ThreadedForth.Proofs.Definitions
import ThreadedForth.Proofs.Histories
import ThreadedForth.Proofs.WellFormed

namespace ThreadedForth

/-! ## How bodies change -/

/-- How a move changes the body of a word; `B` says that the word is under construction. -/
inductive BodyMove (L : Edit → Prop) (B : Prop) (w : WordId) (b : Array Elem) : Array Elem → Prop
  | same : BodyMove L B w b b
  | build {e : Elem} (hB : B) : BodyMove L B w b (b.push e)
  | patch {i : Nat} {v : Value} (hB : B) (hi : i ≠ 0) :
    BodyMove L B w b (b.setIfInBounds i (.lit v))
  | store {p : Pointer} {v old : Value} (hp : p.target = w) (hi : p.index ≠ 0)
    (ho : b[p.index]? = some (.lit old)) (hL : L (.store p)) :
    BodyMove L B w b (b.setIfInBounds p.index (.lit v))
  | extend {es : Array Elem} (hL : L (.extend w)) : BodyMove L B w b (b ++ es)
  | action {body : WordId} {entry : Nat} (hL : L (.action w body entry)) :
    BodyMove L B w b (b.setIfInBounds 0 (.direct (.indirect body entry)))

namespace Word

variable {w x : Word} {i : Nat} {v : Value}

theorem ne_zero_of_poke (h : w.poke i (.lit v) = .ok x) : i ≠ 0 := by
  rintro rfl
  cases h

theorem load_of_store (h : w.store i v = .ok x) : i ≠ 0 ∧ ∃ old, w.body[i]? = some (.lit old) := by
  unfold store at h
  split at h
  · rename_i old hl
    obtain ⟨hb, hi⟩ := load_eq_ok hl
    exact ⟨hi, old, hb⟩
  · cases h

theorem code_eq_ok_iff {c : Code} : w.code = .ok c ↔ w.body[0]? = some (.direct c) := by
  unfold code
  split
  · rename_i c' h
    rw [h]
    simp
  · rename_i h
    constructor
    · intro h'
      cases h'
    · exact fun h' => absurd h' (h c)

end Word

variable {L : Edit → Prop} {m m' : Machine} {hand hand' : List Value} {w : WordId}

/-- A word of the heap is replaced. -/
theorem BodyMove.setWord {h : Heap} {B : Prop} {v : WordId} {x : Word}
    (hx : v = w → BodyMove L B w (h.word w).body x.body) :
    BodyMove L B w (h.word w).body ((h.setWord v x).word w).body := by
  rw [Heap.word_setWord]
  split
  · rename_i hv
    exact hx hv.1.symm
  · exact .same

theorem Heap.word_addWord_of_has {h : Heap} (hw : h.Has (.word w)) (x : Word) :
    (h.addWord x).2.word w = h.word w := by
  have hw : w.index ≠ h.words.size := Nat.ne_of_lt hw
  simp [word, addWord, Array.getElem?_push, hw]

/-- What a move may do to the body of a word that exists. -/
theorem Move.body (hm : Move L m hand m' hand') (hw : m.heap.Has (.word w)) :
    BodyMove L (m.compiler.building? = some w) w (m.heap.word w).body (m'.heap.word w).body := by
  cases hm with
  | other h =>
    rw [show m'.heap = m.heap from congrArg Owned.heap h]
    exact .same
  | start name mode depth =>
    rw [show _ = (m.heap.addWord _).2.word w from rfl, Heap.word_addWord_of_has hw]
    exact .same
  | newWord h =>
    rw [show _ = (m.heap.addWord _).2.word w from rfl, Heap.word_addWord_of_has hw]
    exact .same
  | flags h =>
    refine .setWord fun hv => ?_
    subst hv
    rw [h]
    exact .same
  | build hb he hx hL =>
    refine .setWord fun hv => ?_
    subst hv
    rw [Word.body_of_push hx]
    exact .build hb
  | patch hb hv hx hL =>
    refine .setWord fun hv => ?_
    subst hv
    rw [Word.body_of_poke hx]
    exact .patch hb (Word.ne_zero_of_poke hx)
  | store hp hv hx hL =>
    refine .setWord fun hv => ?_
    subst hv
    obtain ⟨hi, old, ho⟩ := Word.load_of_store hx
    rw [Word.body_of_store hx]
    exact .store rfl hi ho hL
  | extend hl hh hv hx hL =>
    refine .setWord fun hv => ?_
    subst hv
    rw [Word.body_of_push hx, Array.push_eq_append]
    exact .extend hL
  | expand hl hh hx hL =>
    refine .setWord fun hv => ?_
    subst hv
    rw [Word.body_of_expand hx]
    exact .extend hL
  | action hl hh hb hx hL =>
    refine .setWord fun hv => ?_
    subst hv
    rw [Word.body_of_poke hx]
    exact .action hL
  | _ => exact .same

/-- What the body of a word becomes: nothing is taken away, and whatever changes has a label that
    allows it; `B` says that the word was under construction. -/
structure BodyFollows (L : Edit → Prop) (B : Prop) (w : WordId) (b b' : Array Elem) : Prop where
  size : b.size ≤ b'.size
  code : b'[0]? = b[0]? ∨ ∃ body entry, L (.action w body entry) ∧
    b'[0]? = some (.direct (.indirect body entry))
  slots : ¬ B → ∀ i e, i ≠ 0 → b[i]? = some e → b'[i]? = some e ∨
    ∃ v v' p, e = .lit v ∧ b'[i]? = some (.lit v') ∧ p.target = w ∧ p.index = i ∧ L (.store p)
  grows : ¬ B → b'.size = b.size ∨ L (.extend w)

namespace BodyFollows

variable {B B' : Prop} {b b₁ b' : Array Elem}

theorem refl (L : Edit → Prop) (B : Prop) (w : WordId) (b : Array Elem) : BodyFollows L B w b b :=
  ⟨Nat.le_refl _, .inl rfl, fun _ _ _ _ h => .inl h, fun _ => .inl rfl⟩

theorem trans (h : BodyFollows L B w b b₁) (h' : BodyFollows L B' w b₁ b') (hB : B' → B) :
    BodyFollows L B w b b' := by
  constructor
  · exact Nat.le_trans h.size h'.size
  · rcases h'.code with hc | hc
    · rw [hc]
      exact h.code
    · exact .inr hc
  · intro hn i e hi he
    have hslots := h'.slots (mt hB hn) i
    rcases h.slots hn i e hi he with he | ⟨v, v', p, rfl, he, hp⟩
    · exact hslots e hi he
    · rcases hslots _ hi he with he | ⟨_, v'', _, _, he, _⟩
      · exact .inr ⟨v, v', p, rfl, he, hp⟩
      · exact .inr ⟨v, v'', p, rfl, he, hp⟩
  · intro hn
    rcases h'.grows (mt hB hn) with hg | hg
    · rw [hg]
      exact h.grows hn
    · exact .inr hg

theorem mono {L' : Edit → Prop} (h : BodyFollows L B w b b') (hL : ∀ e, L e → L' e) :
    BodyFollows L' B w b b' := by
  constructor
  · exact h.size
  · exact h.code.imp_right fun ⟨x, n, hx, hc⟩ => ⟨x, n, hL _ hx, hc⟩
  · intro hn i e hi he
    exact (h.slots hn i e hi he).imp_right fun ⟨v, v', p, h₁, h₂, h₃, h₄, h₅⟩ =>
      ⟨v, v', p, h₁, h₂, h₃, h₄, hL _ h₅⟩
  · exact fun hn => (h.grows hn).imp_right (hL _)

theorem getElem?_set {i j : Nat} (x : Elem) (hij : i ≠ j) : (b.setIfInBounds i x)[j]? = b[j]? := by
  rw [Array.getElem?_setIfInBounds, if_neg hij]

theorem of_bodyMove (h : BodyMove L B w b b') (hs : 1 ≤ b.size) : BodyFollows L B w b b' := by
  cases h with
  | same => exact .refl L B w b
  | build hB =>
    refine ⟨by simp, .inl ?_, fun hn => absurd hB hn, fun hn => absurd hB hn⟩
    rw [Array.getElem?_push, if_neg (by omega)]
  | patch hB hi =>
    exact ⟨by simp, .inl (getElem?_set _ hi), fun hn => absurd hB hn, fun hn => absurd hB hn⟩
  | @store p v old hp hi ho hL =>
    refine ⟨by simp, .inl (getElem?_set _ hi), fun _ i e _ he => ?_, fun _ => .inl (by simp)⟩
    by_cases hpi : p.index = i
    · subst hpi
      obtain rfl : .lit old = e := Option.some.inj (ho.symm.trans he)
      have hlt := (Array.getElem?_eq_some_iff.1 ho).1
      exact .inr ⟨old, v, p, rfl, by simp [hlt], hp, rfl, hL⟩
    · exact .inl ((getElem?_set _ hpi).trans he)
  | extend hL =>
    refine ⟨by simp, .inl ?_, fun _ i e _ he => .inl ?_, fun _ => .inr hL⟩
    · rw [Array.getElem?_append_left (by omega)]
    · rw [Array.getElem?_append_left (Array.getElem?_eq_some_iff.1 he).1]
      exact he
  | @action body entry hL =>
    refine ⟨by simp, .inr ⟨body, entry, hL, ?_⟩, fun _ i e hi he => .inl ?_,
      fun _ => .inl (by simp)⟩
    · rw [Array.getElem?_setIfInBounds_self, if_pos (by omega)]
    · exact (getElem?_set _ (Ne.symm hi)).trans he

end BodyFollows

/-- What moves leave alone about which word is under construction. -/
theorem Move.building (hm : Move L m hand m' hand') (hw : m.heap.Has (.word w))
    (hb : m'.compiler.building? = some w) : m.compiler.building? = some w := by
  cases hm with
  | other h => rwa [← show m'.compiler = m.compiler from congrArg Owned.compiler h]
  | compiler h =>
    rcases h with h | h
    · cases h.symm.trans hb
    · exact h ▸ hb
  | start name mode depth =>
    cases hb
    exact absurd hw (Nat.lt_irrefl _)
  | _ => exact hb

theorem Heap.has_setWord {h : Heap} {x : Word} {r : Ref} : (h.setWord w x).Has r ↔ h.Has r := by
  cases r <;> simp [Has, setWord]

theorem Move.has (hm : Move L m hand m' hand') {r : Ref} (hr : m.heap.Has r) : m'.heap.Has r := by
  cases hm with
  | other h => rwa [show m'.heap = m.heap from congrArg Owned.heap h]
  | start => exact hr.mono (.addWord _ _)
  | newWord => exact hr.mono (.addWord _ _)
  | newObject => exact hr.mono (.addObject _ _)
  | setObject => exact hr.mono (.setObject _ _ _)
  | flags => exact Heap.has_setWord.2 hr
  | build => exact Heap.has_setWord.2 hr
  | patch => exact Heap.has_setWord.2 hr
  | store => exact Heap.has_setWord.2 hr
  | extend => exact Heap.has_setWord.2 hr
  | expand => exact Heap.has_setWord.2 hr
  | action => exact Heap.has_setWord.2 hr
  | _ => exact hr

/-- What moves make of the body of a word that exists. -/
theorem Moves.follows (h : Moves L m hand m' hand') (hw : m.heap.Has (.word w))
    (hs : 1 ≤ (m.heap.word w).size) :
    BodyFollows L (m.compiler.building? = some w) w (m.heap.word w).body (m'.heap.word w).body ∧
      m'.heap.Has (.word w) ∧
      (m'.compiler.building? = some w → m.compiler.building? = some w) := by
  induction h with
  | refl => exact ⟨.refl _ _ _ _, hw, id⟩
  | tail _ ht ih =>
    obtain ⟨hf, hh, hb⟩ := ih
    have hs₁ := Nat.le_trans hs hf.size
    exact ⟨hf.trans (.of_bodyMove (ht.body hh) hs₁) hb, ht.has hh,
      fun h => hb (ht.building hh h)⟩

/-! ## What pointers point to -/

/-- Where a machine has values. -/
inductive Machine.Occurs (m : Machine) : Value → Prop
  | data {v : Value} (h : v ∈ m.data.items) : Occurs m v
  | temp {v : Value} (h : v ∈ m.temp.items) : Occurs m v
  | self {v : Value} (h : v ∈ m.self.items) : Occurs m v
  | pending {r : Run} {v : Value} (hr : r ∈ m.runs) (h : v ∈ r.pending.values) : Occurs m v
  | slot (w : WordId) {v : Value} (h : .lit v ∈ (m.heap.word w).body) : Occurs m v
  | item (o : ObjId) {v : Value} (h : v ∈ (m.heap.object o).items) : Occurs m v

/-- A pointer points into a word that has data. -/
def Value.Aimed (h : Heap) (v : Value) : Prop :=
  ∀ p, v = .ptr p → (h.word p.target).HasData

theorem Value.Aimed.of_refs {h : Heap} {v : Value} (hv : v.refs = []) : v.Aimed h := by
  rintro p rfl
  cases hv

/-- Every pointer of a machine, and every one in hand, points into a word that has data. -/
structure Machine.Aimed (m : Machine) (hand : List Value) : Prop where
  occurs : ∀ v, m.Occurs v → v.Aimed m.heap
  hand : ∀ v ∈ hand, v.Aimed m.heap

theorem Word.hasData_iff {x : Word} : x.HasData ↔
    x.body[0]? = some (.direct (.native .dataAddress)) ∨
      ∃ body entry, x.body[0]? = some (.direct (.indirect body entry)) := by
  simp only [HasData, code_eq_ok_iff]

theorem Word.HasData.one_le_size {x : Word} (h : x.HasData) : 1 ≤ x.size := by
  rcases hasData_iff.1 h with h | ⟨_, _, h⟩
  · exact (Array.getElem?_eq_some_iff.1 h).1
  · exact (Array.getElem?_eq_some_iff.1 h).1

theorem Heap.has_of_hasData {h : Heap} (hd : (h.word w).HasData) : h.Has (.word w) := by
  refine Nat.lt_of_not_le fun hw => ?_
  have := hd.one_le_size
  simp [word, hw, default, Word.blank, Word.size] at this

/-- A word that has data keeps having data. -/
theorem Move.hasData (hm : Move L m hand m' hand') (hd : (m.heap.word w).HasData) :
    (m'.heap.word w).HasData := by
  have hf := BodyFollows.of_bodyMove (hm.body (Heap.has_of_hasData hd)) hd.one_le_size
  rcases hf.code with hc | ⟨body, entry, -, hc⟩
  · rw [Word.hasData_iff, hc, ← Word.hasData_iff]
    exact hd
  · exact Word.hasData_iff.2 (.inr ⟨body, entry, hc⟩)

theorem Machine.Occurs.of_same {v : Value} (ho : m'.Occurs v) (hd : m'.data = m.data)
    (ht : m'.temp = m.temp) (hs : m'.self = m.self) (hr : m'.runs = m.runs)
    (hh : m'.heap = m.heap) : m.Occurs v := by
  cases ho with
  | data h => exact .data (hd ▸ h)
  | temp h => exact .temp (ht ▸ h)
  | self h => exact .self (hs ▸ h)
  | pending hq h => exact .pending (hr ▸ hq) h
  | slot u h => exact .slot u (hh ▸ h)
  | item o h => exact .item o (hh ▸ h)

/-- A word of the heap is replaced. -/
theorem Machine.Occurs.of_setWord {x : Word} {v : Value}
    (ho : ({ m with heap := m.heap.setWord w x } : Machine).Occurs v)
    (hx : .lit v ∈ x.body → .lit v ∈ (m.heap.word w).body ∨ v ∈ hand ∨ v.refs = []) :
    m.Occurs v ∨ v ∈ hand ∨ v.refs = [] := by
  cases ho with
  | data h => exact .inl (.data h)
  | temp h => exact .inl (.temp h)
  | self h => exact .inl (.self h)
  | pending hr h => exact .inl (.pending hr h)
  | slot u h =>
    simp only [Heap.word_setWord] at h
    split at h
    · exact (hx h).imp_left (.slot w)
    · exact .inl (.slot u h)
  | item o h => exact .inl (.item o h)

theorem Machine.Occurs.of_addWord {x : Word} {v : Value}
    (ho : ({ m with heap := (m.heap.addWord x).2 } : Machine).Occurs v)
    (hx : .lit v ∈ x.body → v ∈ hand) : m.Occurs v ∨ v ∈ hand ∨ v.refs = [] := by
  cases ho with
  | data h => exact .inl (.data h)
  | temp h => exact .inl (.temp h)
  | self h => exact .inl (.self h)
  | pending hr h => exact .inl (.pending hr h)
  | slot u h =>
    by_cases hu : u.index = m.heap.words.size
    · have : (m.heap.addWord x).2.word u = x := by
        simp [Heap.word, Heap.addWord, hu]
      exact .inr (.inl (hx (this ▸ h)))
    · have : (m.heap.addWord x).2.word u = m.heap.word u := by
        simp [Heap.word, Heap.addWord, Array.getElem?_push, hu]
      exact .inl (.slot u (this ▸ h))
  | item o h => exact .inl (.item o h)

/-- An object of the heap is new or replaced. -/
theorem Machine.Occurs.of_object {h' : Heap} {v : Value} (ho : ({ m with heap := h' } : Machine).Occurs v)
    (hw : ∀ u, h'.word u = m.heap.word u)
    (hx : ∀ o, v ∈ (h'.object o).items → m.Occurs v ∨ v ∈ hand) :
    m.Occurs v ∨ v ∈ hand ∨ v.refs = [] := by
  cases ho with
  | data h => exact .inl (.data h)
  | temp h => exact .inl (.temp h)
  | self h => exact .inl (.self h)
  | pending hr h => exact .inl (.pending hr h)
  | slot u h => exact .inl (.slot u (hw u ▸ h))
  | item o h => exact (hx o h).imp_right .inl

theorem lit_mem_set {b : Array Elem} {i : Nat} {e : Elem} {v : Value}
    (h : .lit v ∈ b.setIfInBounds i e) : .lit v ∈ b ∨ e = .lit v := by
  rcases Array.mem_or_eq_of_mem_setIfInBounds h with h | h
  · exact .inl h
  · exact .inr h.symm

/-- Every value that is somewhere after a move was somewhere or in hand before, unless it refers to
    nothing. -/
theorem Move.occurs (hm : Move L m hand m' hand') {v : Value} (ho : m'.Occurs v) :
    m.Occurs v ∨ v ∈ hand ∨ v.refs = [] := by
  cases hm with
  | other h =>
    exact .inl (ho.of_same (congrArg Owned.data h) (congrArg Owned.temp h) (congrArg Owned.self h)
      (congrArg Owned.runs h) (congrArg Owned.heap h))
  | data h =>
    cases ho with
    | data hv => exact (h v hv).imp .data .inl
    | temp h => exact .inl (.temp h)
    | self h => exact .inl (.self h)
    | pending hr h => exact .inl (.pending hr h)
    | slot u h => exact .inl (.slot u h)
    | item o h => exact .inl (.item o h)
  | temp h =>
    cases ho with
    | data h => exact .inl (.data h)
    | temp hv => exact (h v hv).imp .temp .inl
    | self h => exact .inl (.self h)
    | pending hr h => exact .inl (.pending hr h)
    | slot u h => exact .inl (.slot u h)
    | item o h => exact .inl (.item o h)
  | self h =>
    cases ho with
    | data h => exact .inl (.data h)
    | temp h => exact .inl (.temp h)
    | self hv => exact (h v hv).imp .self .inl
    | pending hr h => exact .inl (.pending hr h)
    | slot u h => exact .inl (.slot u h)
    | item o h => exact .inl (.item o h)
  | calls fs rs hf hr =>
    cases ho with
    | data h => exact .inl (.data h)
    | temp h => exact .inl (.temp h)
    | self h => exact .inl (.self h)
    | pending hq h => exact (hr _ hq v h).imp (fun ⟨q, hq, h⟩ => .pending hq h) .inl
    | slot u h => exact .inl (.slot u h)
    | item o h => exact .inl (.item o h)
  | dictionary h => exact .inl (ho.of_same rfl rfl rfl rfl rfl)
  | types h hs => exact .inl (ho.of_same rfl rfl rfl rfl rfl)
  | compiler h => exact .inl (ho.of_same rfl rfl rfl rfl rfl)
  | start name mode depth =>
    have ho : ({ m with heap := (m.heap.addWord (.opened name)).2 } : Machine).Occurs v :=
      ho.of_same rfl rfl rfl rfl rfl
    exact ho.of_addWord fun hx => by simp [Word.opened] at hx
  | @newObject _ x h =>
    refine ho.of_object (fun _ => rfl) fun o hv => ?_
    rw [Heap.object_addObject] at hv
    split at hv
    · exact .inr (h v hv)
    · exact .inl (.item o hv)
  | @setObject _ a x ha h =>
    refine ho.of_object (fun _ => rfl) fun o hv => ?_
    rw [Heap.object_setObject] at hv
    split at hv
    · exact (h v hv).imp_left (.item a)
    · exact .inl (.item o hv)
  | newWord h => exact ho.of_addWord fun hx => h _ hx
  | flags h => exact ho.of_setWord fun hx => .inl (h ▸ hx)
  | build hb he hx hL =>
    refine ho.of_setWord fun hv => ?_
    rw [Word.body_of_push hx] at hv
    rcases Array.mem_push.1 hv with hv | rfl
    · exact .inl hv
    · exact .inr (.inl he)
  | patch hb hu hx hL =>
    refine ho.of_setWord fun hv => ?_
    rw [Word.body_of_poke hx] at hv
    rcases lit_mem_set hv with hv | hv
    · exact .inl hv
    · cases hv
      exact .inr (.inl hu)
  | store hp hu hx hL =>
    refine ho.of_setWord fun hv => ?_
    rw [Word.body_of_store hx] at hv
    rcases lit_mem_set hv with hv | hv
    · exact .inl hv
    · cases hv
      exact .inr (.inl hu)
  | extend hl hh hu hx hL =>
    refine ho.of_setWord fun hv => ?_
    rw [Word.body_of_push hx] at hv
    rcases Array.mem_push.1 hv with hv | hv
    · exact .inl hv
    · cases hv
      exact .inr (.inl hu)
  | expand hl hh hx hL =>
    refine ho.of_setWord fun hv => ?_
    rw [Word.body_of_expand hx] at hv
    rcases Array.mem_append.1 hv with hv | hv
    · exact .inl hv
    · cases (Array.mem_replicate.1 hv).2
      exact .inr (.inr rfl)
  | action hl hh hb hx hL =>
    refine ho.of_setWord fun hv => ?_
    rw [Word.body_of_poke hx] at hv
    rcases lit_mem_set hv with hv | hv
    · exact .inl hv
    · cases hv
  | _ => exact .inl ho

/-- Pointers come from pointers into the same word, and from words that have data.  They never point
    to the slot that holds the code of a word. -/
theorem Move.pointer (hm : Move L m hand m' hand') {p : Pointer} (hp : .ptr p ∈ hand') :
    m.Occurs (.ptr p) ∨ .ptr p ∈ hand ∨
      Addressable p.index ∧
        ((m.heap.word p.target).HasData ∨ ∃ q, .ptr q ∈ hand ∧ q.target = p.target) := by
  -- a single value is new in hand
  have hcons : ∀ {v : Value}, .ptr p ∈ v :: hand → (v = .ptr p → m.Occurs (.ptr p)) →
      m.Occurs (.ptr p) ∨ .ptr p ∈ hand ∨
        Addressable p.index ∧
          ((m.heap.word p.target).HasData ∨ ∃ q, .ptr q ∈ hand ∧ q.target = p.target) := by
    intro v hp hv
    rcases List.mem_cons.1 hp with rfl | hp
    · exact .inl (hv rfl)
    · exact .inr (.inl hp)
  cases hm with
  | drop h => exact .inr (.inl (h _ hp))
  | plain h => exact hcons hp fun he => by rw [he] at h; cases h
  | stack h =>
    refine hcons hp fun he => ?_
    rcases he ▸ h with h | h | h
    · exact .data h
    · exact .temp h
    · exact .self h
  | word => exact hcons hp nofun
  | handler => exact hcons hp nofun
  | slot h hv => exact hcons hp fun he => he ▸ .slot _ (Array.mem_of_getElem? hv)
  | link => exact hcons hp nofun
  | item h hv => exact hcons hp fun he => he ▸ .item _ hv
  | address hf hc hi =>
    rcases List.mem_cons.1 hp with hp | hp
    · cases hp
      exact .inr (.inr ⟨hi, .inl hc⟩)
    · exact .inr (.inl hp)
  | offset h hi =>
    rcases List.mem_cons.1 hp with hp | hp
    · cases hp
      exact .inr (.inr ⟨hi, .inr ⟨_, h, rfl⟩⟩)
    · exact .inr (.inl hp)
  | operand hr hv => exact hcons hp fun he => he ▸ .pending hr hv
  | last => exact hcons hp nofun
  | newObject => exact hcons hp nofun
  | newWord => exact hcons hp nofun
  | _ => exact .inr (.inl hp)

theorem Machine.Aimed.move (ha : m.Aimed hand) (hm : Move L m hand m' hand') : m'.Aimed hand' := by
  refine ⟨fun v hv p hp => hm.hasData ?_, ?_⟩
  · rcases hm.occurs hv with hv | hv | hv
    · exact ha.occurs v hv p hp
    · exact ha.hand v hv p hp
    · exact Value.Aimed.of_refs hv p hp
  · rintro _ hv p rfl
    refine hm.hasData ?_
    rcases hm.pointer hv with hv | hv | ⟨-, hd | ⟨q, hq, ht⟩⟩
    · exact ha.occurs _ hv p rfl
    · exact ha.hand _ hv p rfl
    · exact hd
    · exact ht ▸ ha.hand _ hq q rfl

theorem Machine.Aimed.moves (ha : m.Aimed hand) (hm : Moves L m hand m' hand') : m'.Aimed hand' := by
  induction hm with
  | refl => exact ha
  | tail _ ht ih => exact (ih ha).move ht

/-! ## The words of a session -/

namespace Machine

variable {ph ph' : Phase}

theorem not_occurs_empty (p : Params) (v : Value) : ¬(empty p).Occurs v := by
  rintro (h | h | h | h | ⟨_, h⟩ | ⟨_, h⟩)
  · cases h
  · cases h
  · cases h
  · cases h
  · simp [empty, Heap.word, default, Word.blank] at h
  · simp [empty, Heap.object, default, Obj.items] at h

theorem Reached.aimed (h : Reached ph m) : m.Aimed [] := by
  refine h.invariant (P := fun _ m => m.Aimed []) (fun p bs => ?_) fun _ ha hn => ?_
  · have hm : Moves (fun _ => False) (empty p) [] (Machine.create p bs) [] := create_moves p bs
    exact Aimed.moves ⟨fun v hv => absurd hv (not_occurs_empty p v),
      fun _ hv => absurd hv List.not_mem_nil⟩ hm
  · obtain ⟨hand, hm⟩ := hn.moves
    exact ⟨(ha.moves hm).occurs, fun _ hv => absurd hv List.not_mem_nil⟩

/-- A value is stored through a pointer: by `!` or `+!`, or at the end of a `+!` whose operands were
    left to a handler. -/
def Stores (ph : Phase) (m : Machine) (p : Pointer) : Prop :=
  match ph with
  | .word _ =>
    ((m.primitive? = some (.memory .store) ∨ m.primitive? = some (.memory .addStore)) ∧
        ∃ rest, m.data.items = .ptr p :: rest) ∨
      ∃ depth, m.resumed? = some (.handler depth (.store p))
  | _ => False

/-- `,` or `allot` runs while a word is the one created last. -/
def Extends (ph : Phase) (m : Machine) (w : WordId) : Prop :=
  match ph with
  | .word _ =>
    (m.primitive? = some (.memory .comma) ∨ m.primitive? = some (.memory .allot)) ∧
      m.compiler.last? = some w
  | _ => False

/-- `does>` acts on a word, which is the one created last: the part of a word up to it has been run,
    or the token after it is read. -/
def ActsOn (ph : Phase) (m : Machine) (w : WordId) : Prop :=
  match ph with
  | .word _ => m.primitive? = some (.memory .doesRuntime) ∧ m.compiler.last? = some w
  | .line _ => m.compiler.mode = .runtimeCompiling ∧ m.compiler.last? = some w
  | _ => False

theorem Edits.stores {p : Pointer} (h : Edits ph m (.store p)) : Stores ph m p := by
  cases ph with
  | word left? =>
    rcases h with ⟨q, hq, hp, hd⟩ | ⟨depth, _, hr, he⟩
    · rcases hp with rfl | rfl
      · exact .inl ⟨.inl hq, hd⟩
      · exact .inl ⟨.inr hq, hd⟩
    · cases he
      exact .inr ⟨depth, hr⟩
  | _ => cases h

theorem Edits.extends (h : Edits ph m (.extend w)) (hw : m.heap.Has (.word w)) :
    Extends ph m w := by
  cases ph with
  | word left? =>
    rcases h with ⟨q, hq, ⟨hp, hl⟩ | ⟨-, rfl⟩⟩ | ⟨_, _, _, he⟩
    · rcases hp with rfl | rfl
      · exact ⟨.inl hq, hl⟩
      · exact ⟨.inr hq, hl⟩
    · exact absurd hw (Nat.lt_irrefl _)
    · cases he
  | _ => cases h

theorem Edits.actsOn {body : WordId} {entry : Nat} (h : Edits ph m (.action w body entry)) :
    ActsOn ph m w := by
  cases ph with
  | word left? =>
    rcases h with ⟨q, hq, rfl, hl, -⟩ | ⟨_, _, _, he⟩
    · exact ⟨hq, hl⟩
    · cases he
  | line n => exact h
  | _ => cases h

/-- What happens next makes of the body of a word. -/
theorem Next.follows (hn : Next ph m ph' m') (h : Reached ph m) (hw : m.heap.Has (.word w)) :
    BodyFollows (Edits ph m) (m.compiler.building? = some w) w (m.heap.word w).body
        (m'.heap.word w).body ∧ m'.heap.Has (.word w) ∧
      (m'.compiler.building? = some w → m.compiler.building? = some w) := by
  obtain ⟨hand, hm⟩ := hn.moves
  exact hm.follows hw (h.sound.heap.word hw).one_le_size

theorem Leads.follows (hl : Leads ph m ph' m') (h : Reached ph m) (hw : m.heap.Has (.word w)) :
    BodyFollows (fun _ => True) (m.compiler.building? = some w) w (m.heap.word w).body
        (m'.heap.word w).body ∧ m'.heap.Has (.word w) ∧
      (m'.compiler.building? = some w → m.compiler.building? = some w) := by
  induction hl with
  | refl => exact ⟨.refl _ _ _ _, hw, id⟩
  | tail hl hn ih =>
    obtain ⟨hf, hh, hb⟩ := ih h hw
    obtain ⟨hf', hh', hb'⟩ := hn.follows (h.leads hl) hh
    exact ⟨hf.trans (hf'.mono fun _ _ => trivial) hb, hh', fun h => hb (hb' h)⟩

/-- A word that `:` or `:noname` has opened, and that `does>` has not given an action since. -/
inductive Composed (w : WordId) : Phase → Machine → Prop
  | opened {left? : Option Nat} {m m' : Machine} (h : Reached (.word left?) m)
    (hp : m.primitive? = some (.defining .colon) ∨ m.primitive? = some (.defining .noname))
    (hs : m.step = .running m') (hw : ¬ m.heap.Has (.word w))
    (hb : m'.compiler.building? = some w) : Composed w (.word left?) m'
  | next {ph ph' : Phase} {m m' : Machine} (h : Composed w ph m) (hn : Next ph m ph' m')
    (hd : ¬ (ActsOn ph m w ∧ (m'.heap.word w).body[0]? ≠ (m.heap.word w).body[0]?)) :
    Composed w ph' m'

/-- A word is opened with its code, which is the one of composed words. -/
theorem opened_of_moves (hm : Moves L m hand m' hand') (hL : ∀ body entry, ¬ L (.action w body entry))
    (hw : m.compiler.building? ≠ some w) (hb : m'.compiler.building? = some w) :
    m'.heap.Has (.word w) ∧ (m'.heap.word w).body[0]? = some (.direct .docol) := by
  induction hm with
  | refl => exact absurd hb hw
  | @tail m₁ m₂ _ _ _ _ ht ih =>
    have hkept : m₁.compiler.building? = some w →
        m₂.heap.Has (.word w) ∧ (m₂.heap.word w).body[0]? = some (.direct .docol) := by
      intro hb₁
      obtain ⟨hh, hc⟩ := ih hb₁
      have hs : 1 ≤ (m₁.heap.word w).size := (Array.getElem?_eq_some_iff.1 hc).1
      refine ⟨ht.has hh, ?_⟩
      rcases (BodyFollows.of_bodyMove (ht.body hh) hs).code with hc' | ⟨body, entry, hx, -⟩
      · exact hc'.trans hc
      · exact absurd hx (hL body entry)
    cases ht with
    | start name mode depth =>
      cases hb
      simp [Heap.Has, Heap.addWord, Heap.word, Word.opened]
    | compiler h =>
      rcases h with h | h
      · cases h.symm.trans hb
      · exact hkept (h ▸ hb)
    | other h => exact hkept ((show m₂.compiler = m₁.compiler from congrArg Owned.compiler h) ▸ hb)
    | _ => exact hkept hb

theorem Composed.spec (h : Composed w ph m) :
    Reached ph m ∧ m.heap.Has (.word w) ∧ (m.heap.word w).body[0]? = some (.direct .docol) := by
  induction h with
  | @opened left? m m' h hp hs hw hb =>
    have hn : Next (.word left?) m (.word left?) m' := .step hs
    obtain ⟨hand, hm⟩ := hn.moves
    have hL : ∀ body entry, ¬ Edits (.word left?) m (.action w body entry) := by
      intro body entry he
      obtain ⟨hq, -⟩ := Edits.actsOn he
      rcases hp with hp | hp <;> cases hp.symm.trans hq
    have hbuild : m.compiler.building? ≠ some w := fun hb => hw (h.sound.building w hb)
    exact ⟨h.next hn, opened_of_moves hm hL hbuild hb⟩
  | next _ hn hd ih =>
    obtain ⟨hr, hw, hc⟩ := ih
    obtain ⟨hf, hw', -⟩ := hn.follows hr hw
    refine ⟨hr.next hn, hw', ?_⟩
    rcases hf.code with hc' | ⟨body, entry, hx, hc'⟩
    · exact hc'.trans hc
    · refine absurd ⟨Edits.actsOn hx, fun he => ?_⟩ hd
      cases (hc'.symm.trans (he.trans hc))

theorem Stores.occurs {p : Pointer} (h : Stores ph m p) : m.Occurs (.ptr p) := by
  cases ph with
  | word left? =>
    rcases h with ⟨-, rest, hd⟩ | ⟨depth, hr⟩
    · exact .data (hd ▸ List.mem_cons_self)
    · unfold resumed? at hr
      split at hr
      · rename_i r rs hruns
        split at hr
        · have hp : r.pending = .handler depth (.store p) := Option.some.inj hr
          refine .pending (r := r) (hruns ▸ List.mem_cons_self) ?_
          rw [hp]
          exact List.mem_cons_self
        · cases hr
      · cases hr
  | _ => cases h

/-- No pointer points into a composed word. -/
theorem target_ne_of_docol (h : Reached ph m) (hc : (m.heap.word w).body[0]? = some (.direct .docol))
    {p : Pointer} (hp : m.Occurs (.ptr p)) : p.target ≠ w := by
  rintro rfl
  rcases Word.hasData_iff.1 (h.aimed.occurs _ hp p rfl) with hd | ⟨_, _, hd⟩
  · cases hc.symm.trans hd
  · cases hc.symm.trans hd

/-- As long as a word is composed, none of its slots changes. -/
theorem Leads.slots_of_docol (hl : Leads ph m ph' m') (h : Reached ph m) (hw : m.heap.Has (.word w))
    (hb : m.compiler.building? ≠ some w)
    (hc : (m'.heap.word w).body[0]? = some (.direct .docol)) :
    ∀ i < (m.heap.word w).size, (m'.heap.word w).body[i]? = (m.heap.word w).body[i]? := by
  induction hl with
  | refl => exact fun _ _ => rfl
  | @tail ph₁ ph₂ _ m₁ m₂ hl hn ih =>
    intro i hi
    obtain ⟨hf, hw₁, hb₁⟩ := hl.follows h hw
    have hb₁ := mt hb₁ hb
    have hr₁ := h.leads hl
    have hf₁ := (hn.follows hr₁ hw₁).1
    have hc₁ : (m₁.heap.word w).body[0]? = some (.direct .docol) := by
      rcases hf₁.code with hc' | ⟨_, _, -, hc'⟩
      · exact hc'.symm.trans hc
      · cases hc.symm.trans hc'
    rw [← ih h hw hb hc₁ i hi]
    by_cases h0 : i = 0
    · subst h0
      exact hc.trans hc₁.symm
    · have hi₁ : i < (m₁.heap.word w).body.size := Nat.lt_of_lt_of_le hi hf.size
      rcases hf₁.slots hb₁ i _ h0 (Array.getElem?_eq_getElem hi₁) with hs | ⟨_, _, p, _, _, hp, _, hx⟩
      · rw [hs, Array.getElem?_eq_getElem hi₁]
      · exact absurd hp (target_ne_of_docol hr₁ hc₁ (Edits.stores hx).occurs)

/-- **Compiled code is frozen.**  From when a word is not under construction, whatever happens in a
    session: its body never gets shorter, its calls stay and its data slots stay data slots; a data
    slot changes only by a store through a pointer to it, the code only when `does>` acts on the
    word, and the body grows only by `,` and `allot` while the word is the one created last.  A word
    made by `:` or `:noname` on which `does>` has not acted keeps every slot that it had, and no
    pointer points into it. -/
theorem compiled_code_frozen (h : Reached ph m) (hw : m.heap.Has (.word w))
    (hb : m.compiler.building? ≠ some w) (hl : Leads ph m ph' m') :
    (m.heap.word w).size ≤ (m'.heap.word w).size ∧
    (∀ (i : Nat) (e : Elem), i ≠ 0 → (m.heap.word w).body[i]? = some e → (∀ v, e ≠ .lit v) →
      (m'.heap.word w).body[i]? = some e) ∧
    (∀ (i : Nat) (v : Value), (m.heap.word w).body[i]? = some (.lit v) →
      ∃ v', (m'.heap.word w).body[i]? = some (.lit v')) ∧
    (∀ ph'' m'', Next ph' m' ph'' m'' →
      (∀ (i : Nat) (v v' : Value), (m'.heap.word w).body[i]? = some (.lit v) →
        (m''.heap.word w).body[i]? = some (.lit v') → v' = v ∨
          ∃ p, p.target = w ∧ p.index = i ∧ Stores ph' m' p) ∧
      ((m''.heap.word w).body[0]? = (m'.heap.word w).body[0]? ∨ ActsOn ph' m' w) ∧
      ((m''.heap.word w).size = (m'.heap.word w).size ∨ Extends ph' m' w)) ∧
    (Composed w ph' m' →
      (∀ i < (m.heap.word w).size, (m'.heap.word w).body[i]? = (m.heap.word w).body[i]?) ∧
      ∀ p, m'.Occurs (.ptr p) → p.target ≠ w) := by
  have hzero : ∀ {x : Machine}, x.Sound → x.heap.Has (.word w) → ∀ {i : Nat} {v : Value},
      (x.heap.word w).body[i]? = some (.lit v) → i ≠ 0 := by
    rintro x hs hw _ v hv rfl
    obtain ⟨c, es, hb, -⟩ := hs.heap.word hw
    rw [← Array.getElem?_toList, hb] at hv
    cases hv
  obtain ⟨hf, hw', hb'⟩ := hl.follows h hw
  have hb' := mt hb' hb
  have hr' := h.leads hl
  refine ⟨hf.size, fun i e hi he hv => ?_, fun i v hv => ?_, fun ph'' m'' hn => ⟨?_, ?_, ?_⟩,
    fun hc => ?_⟩
  · rcases hf.slots hb i e hi he with he | ⟨v, _, _, rfl, _⟩
    · exact he
    · exact absurd rfl (hv v)
  · rcases hf.slots hb i _ (hzero h.sound hw hv) hv with hv | ⟨_, v', _, _, hv', _⟩
    · exact ⟨v, hv⟩
    · exact ⟨v', hv'⟩
  · intro i v v' hv hv'
    rcases (hn.follows hr' hw').1.slots hb' i _ (hzero hr'.sound hw' hv) hv with hs | hs
    · cases hs.symm.trans hv'
      exact .inl rfl
    · obtain ⟨_, _, p, _, _, hp, hi, hx⟩ := hs
      exact .inr ⟨p, hp, hi, Edits.stores hx⟩
  · rcases (hn.follows hr' hw').1.code with hc | ⟨_, _, hx, -⟩
    · exact .inl hc
    · exact .inr (Edits.actsOn hx)
  · rcases (hn.follows hr' hw').1.grows hb' with hg | hx
    · exact .inl hg
    · exact .inr (Edits.extends hx hw')
  · obtain ⟨-, -, hc⟩ := hc.spec
    exact ⟨hl.slots_of_docol h hw hb hc, fun p hp => target_ne_of_docol hr' hc hp⟩

theorem step_eq_running {m : Machine} (h : (m.step matches .running _) = true) :
    m.step = .running m.step.machine := by
  cases hs : m.step with
  | running => rfl
  | ended => rw [hs] at h; cases h
  | failed => rw [hs] at h; cases h

instance (ph : Phase) (m : Machine) (w : WordId) : Decidable (ActsOn ph m w) :=
  match ph with
  | .word _ => inferInstanceAs (Decidable (_ ∧ _))
  | .line _ => inferInstanceAs (Decidable (_ ∧ _))
  | .rest => inferInstanceAs (Decidable False)

/-- Whether `does>` acts on a word in none of a number of moves. -/
def spares (w : WordId) : Nat → Phase → Machine → Bool
  | 0, _, _ => true
  | k + 1, ph, m => !decide (ActsOn ph m w) && spares w k (move ph m).1 (move ph m).2

theorem Composed.moves (h : Composed w ph m) {k : Nat} (hk : spares w k ph m = true) :
    Composed w (Machine.moves k ph m).1 (Machine.moves k ph m).2 := by
  induction k generalizing ph m with
  | zero => exact h
  | succ k ih =>
    obtain ⟨ha, hk⟩ := Bool.and_eq_true_iff.1 hk
    refine ih ?_ hk
    by_cases hp : ph = .rest
    · subst hp
      exact h
    · exact h.next (next_move hp) fun hd => by simp [hd.1] at ha

/-- What happens next is that the token runs a word. -/
theorem Next.of_token {n : Nat} {t : String} (hq : m.interrupt = false) (hc : m.inComment = false)
    (ht : m.line.advance.token? = some t)
    (hw : (m.atLine m.line.advance).wordToRun? t = some w) :
    Next (.line (n + 1)) m (.word (some n)) ((m.atLine m.line.advance).startRun w .outside) :=
  .token ((nextSourceToken_quiet hq hc).trans (by rw [ht])) hw

/-- A machine at the start of a line with a definition and a call of the word that it makes. -/
def atDefinition : Machine :=
  after (fill ": inc 1 + ; 2 inc" (ofNames {} [":", ";", "(literal)", "+"]))

/-- The same machine about to run `:`. -/
def atColon : Machine :=
  (atDefinition.atLine atDefinition.line.advance).startRun ⟨1⟩ .outside

/-- The same machine after the definition. -/
def withInc : Phase × Machine :=
  moves 6 (.word (some 18)) atColon.step.machine

/-- The same machine after the line. -/
def afterInc : Phase × Machine :=
  moves 9 withInc.1 withInc.2

theorem atDefinition_eq : atDefinition = after (fill ": inc 1 + ; 2 inc" (stocked {} (supply
    [⟨"+", .arithmetic (.apply .add), false⟩, ⟨":", .defining .colon, false⟩,
      ⟨";", .defining .semicolon, true⟩, ⟨"(literal)", .branch .inlineLiteral, false⟩]))) :=
  congrArg (after <| fill _ ·) (ofNames_eq _ _ (by decide) (by decide))

/-- What these machines come to. -/
theorem atDefinition_spec :
    (atDefinition.line.text.length + 2 = 19 ∧ atDefinition.interrupt = false ∧
      atDefinition.inComment = false ∧ atDefinition.line.advance.token? = some ":" ∧
      (atDefinition.atLine atDefinition.line.advance).wordToRun? ":" = some ⟨1⟩) ∧
    (atColon.primitive? = some (.defining .colon) ∧ (atColon.step matches .running _) = true ∧
      ¬ 20 < atColon.heap.words.size ∧ atColon.step.machine.compiler.building? = some ⟨20⟩) ∧
    (spares ⟨20⟩ 6 (.word (some 18)) atColon.step.machine = true ∧
      withInc.2.compiler.building? ≠ some ⟨20⟩ ∧
      (withInc.2.heap.word ⟨20⟩).body = #[.direct .docol, .call ⟨3⟩, .lit (.int 1), .call ⟨0⟩]) ∧
    spares ⟨20⟩ 9 withInc.1 withInc.2 = true ∧ afterInc.2.data.items = [.int 3] := by
  rw [afterInc, withInc, atColon, atDefinition_eq]
  decide +kernel

/-- A word with a literal and a call, from the end of its definition until it has been called. -/
theorem compiled_code_frozen_of_definition :
    ∃ ph m ph' m' w, Reached ph m ∧ m.heap.Has (.word w) ∧ m.compiler.building? ≠ some w ∧
      (m.heap.word w).body = #[.direct .docol, .call ⟨3⟩, .lit (.int 1), .call ⟨0⟩] ∧
      Leads ph m ph' m' ∧ Composed w ph' m' ∧ m'.data.items = [.int 3] ∧
      (∀ i < 4, (m'.heap.word w).body[i]? = (m.heap.word w).body[i]?) ∧
      ∀ p, m'.Occurs (.ptr p) → p.target ≠ w := by
  have hrest : Reached .rest (ofNames {} [":", ";", "(literal)", "+"]) := .create _ _
  obtain ⟨⟨hlength, hq, hc, ht, hword⟩, ⟨hp, hruns, hnew, hopen⟩, ⟨hspares, hb, hbody⟩, hspares',
    hitems⟩ := atDefinition_spec
  have hstart : Reached (.line 19) atDefinition := by
    rw [← hlength]
    exact (hrest.fill ": inc 1 + ; 2 inc").start
  have hcolon : Next (.line 19) atDefinition (.word (some 18)) atColon :=
    .of_token hq hc ht hword
  have hopened : Composed ⟨20⟩ (.word (some 18)) atColon.step.machine :=
    .opened (hstart.next hcolon) (.inl hp) (step_eq_running hruns) hnew hopen
  have hdefined : Composed ⟨20⟩ withInc.1 withInc.2 := hopened.moves hspares
  have hcalled : Composed ⟨20⟩ afterInc.1 afterInc.2 := hdefined.moves hspares'
  have hleads : Leads withInc.1 withInc.2 afterInc.1 afterInc.2 := (Leads.refl _ _).moves 9
  obtain ⟨hr, hw, -⟩ := hdefined.spec
  obtain ⟨hslots, hpointers⟩ := (compiled_code_frozen hr hw hb hleads).2.2.2.2 hcalled
  have hsize : (withInc.2.heap.word ⟨20⟩).size = 4 := by
    rw [Word.size, hbody]
    rfl
  exact ⟨_, _, _, _, _, hr, hw, hb, hbody, hleads, hcalled, hitems,
    fun i hi => hslots i (hsize ▸ hi), hpointers⟩

end Machine
end ThreadedForth
