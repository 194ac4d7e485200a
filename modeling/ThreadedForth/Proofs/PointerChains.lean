/-
  Chains of pointers, and the three ways in which they end.
-/
import ThreadedForth.Heap.Liveness
import ThreadedForth.Proofs.PointerArithmetic

namespace ThreadedForth.Heap

variable {h : Heap} {v u w : Value} {p q : Pointer} {e : Error} {n k : Nat}

/-! ## Levels -/

theorem deref_ptr (h : Heap) (p : Pointer) : h.deref (.ptr p) = h.load p := rfl

theorem deref_of_not_ptr (h : Heap) (hv : ∀ p, v ≠ .ptr p) : h.deref v = .error .notAPointer := by
  cases v with
  | ptr p => exact absurd rfl (hv p)
  | _ => rfl

/-- One level more. -/
theorem follow_succ (h : Heap) (v : Value) (n : Nat) :
    h.follow v (n + 1) = match h.follow v n with
      | .ok u => h.deref u
      | .error e => .error e := by
  induction n generalizing v with
  | zero =>
    show (match h.deref v with
      | .ok u => .ok u
      | .error e => .error e) = h.deref v
    cases h.deref v <;> rfl
  | succ n ih =>
    rw [follow]
    cases hd : h.deref v with
    | ok u =>
      rw [follow, hd]
      exact ih u
    | error e => rw [follow, hd]

theorem follow_succ_of_ok (hn : h.follow v n = .ok u) : h.follow v (n + 1) = h.deref u := by
  rw [follow_succ, hn]

theorem follow_of_error (hn : h.follow v n = .error e) (hk : n ≤ k) : h.follow v k = .error e := by
  induction hk with
  | refl => exact hn
  | step _ ih => rw [follow_succ, ih]

/-- No level comes after one that leads nowhere. -/
theorem le_of_follow (hn : h.follow v n = .ok w) (he : h.deref w = .error e)
    (hk : h.follow v k = .ok u) : k ≤ n := by
  refine Nat.le_of_not_lt fun hlt => ?_
  have := follow_of_error ((follow_succ_of_ok hn).trans he) hlt
  rw [hk] at this
  cases this

/-- A chain has at most one last level. -/
theorem last_unique {e' : Error} (hn : h.follow v n = .ok w) (he : h.deref w = .error e)
    (hk : h.follow v k = .ok u) (he' : h.deref u = .error e') : n = k ∧ w = u := by
  obtain rfl := Nat.le_antisymm (le_of_follow hk he' hn) (le_of_follow hn he hk)
  rw [hn] at hk
  cases hk
  exact ⟨rfl, rfl⟩

/-- What a pointer leads to depends on the slot alone. -/
theorem load_of_sameSlot (h : Heap) (hs : p.SameSlot q) : h.load p = h.load q := by
  rw [load, load, hs.1, hs.2]

/-! ## Slots -/

/-- The slots of all words, one by one. -/
def slots (h : Heap) : List (WordId × Nat) :=
  (List.range h.words.size).flatMap fun i => (List.range (h.word ⟨i⟩).size).map fun j => (⟨i⟩, j)

theorem length_slots (h : Heap) : h.slots.length = h.slotCount := by
  have hsum : ∀ ws : List Word, (ws.map Word.size).sum = ws.foldl (fun n w => n + w.size) 0 := by
    intro ws
    have hgen : ∀ n, ws.foldl (fun n w => n + w.size) n = n + (ws.map Word.size).sum := by
      induction ws with
      | nil => exact fun n => rfl
      | cons w ws ih =>
        intro n
        rw [List.foldl_cons, ih, List.map_cons, List.sum_cons, Nat.add_assoc]
    rw [hgen, Nat.zero_add]
  have hmap : (List.range h.words.size).map (fun i => (h.word ⟨i⟩).size) =
      h.words.toList.map Word.size := by
    refine List.ext_getElem (by simp) fun i hi _ => ?_
    have hi : i < h.words.size := by simpa using hi
    simp [word, hi]
  rw [slots, List.length_flatMap]
  simp only [List.length_map, List.length_range]
  rw [hmap, hsum, slotCount, Array.foldl_toList]

theorem mem_slots_of_load (hl : h.load p = .ok v) : (p.target, p.index) ∈ h.slots := by
  have hi : p.index < (h.word p.target).size := by
    obtain ⟨hb, -⟩ := load_eq_ok_iff.1 hl
    exact (Array.getElem?_eq_some_iff.1 hb).1
  have hw : p.target.index < h.words.size := by
    refine Nat.lt_of_not_le fun hw => ?_
    simp [word, hw, default, Word.blank, Word.size] at hi
  exact List.mem_flatMap.2 ⟨p.target.index, List.mem_range.2 hw,
    List.mem_map.2 ⟨p.index, List.mem_range.2 hi, rfl⟩⟩

/-- A chain has passed these slots, the last one first, and has come to a value. -/
inductive Passes (h : Heap) (v : Value) : List (WordId × Nat) → Value → Prop
  | start : Passes h v [] v
  | next {seen : List (WordId × Nat)} {p : Pointer} {u : Value} (hp : Passes h v seen (.ptr p))
    (hl : h.load p = .ok u) : Passes h v ((p.target, p.index) :: seen) u

namespace Passes

variable {seen : List (WordId × Nat)}

theorem follow (hp : h.Passes v seen u) : h.follow v seen.length = .ok u := by
  induction hp with
  | start => rfl
  | next _ hl ih => exact (follow_succ_of_ok ih).trans hl

theorem subset (hp : h.Passes v seen u) : seen ⊆ h.slots := by
  induction hp with
  | start => exact List.nil_subset _
  | next _ hl ih => exact List.cons_subset.2 ⟨mem_slots_of_load hl, ih⟩

/-- A slot has been passed at some level. -/
theorem level (hp : h.Passes v seen u) {s : WordId × Nat} (hs : s ∈ seen) :
    ∃ n q, n < seen.length ∧ h.follow v n = .ok (.ptr q) ∧ s = (q.target, q.index) := by
  induction hp with
  | start => cases hs
  | next hp _ ih =>
    rcases List.mem_cons.1 hs with rfl | hs
    · exact ⟨_, _, Nat.lt_succ_self _, hp.follow, rfl⟩
    · obtain ⟨n, q, hn, hq, rfl⟩ := ih hs
      exact ⟨n, q, Nat.lt_succ_of_lt hn, hq, rfl⟩

/-- There was a slot at every level. -/
theorem pointer (hp : h.Passes v seen u) (hn : n < seen.length) :
    ∃ q, h.follow v n = .ok (.ptr q) := by
  induction hp with
  | start => cases hn
  | next hp _ ih =>
    rcases Nat.lt_succ_iff_lt_or_eq.1 hn with hn | rfl
    · exact ih hn
    · exact ⟨_, hp.follow⟩

/-- A chain that comes back to a slot goes round for ever: each level is at a slot that has been
    passed. -/
theorem loops (hp : h.Passes v seen (.ptr p)) (hs : (p.target, p.index) ∈ seen) (n : Nat) :
    ∃ q, h.follow v n = .ok (.ptr q) := by
  obtain ⟨j, q, hj, hq, hpq⟩ := hp.level hs
  have hsame : p.SameSlot q := Prod.ext_iff.1 hpq
  have hall : ∃ i < seen.length, ∃ r s, h.follow v n = .ok (.ptr r) ∧
      h.follow v i = .ok (.ptr s) ∧ r.SameSlot s := by
    induction n with
    | zero =>
      obtain ⟨r, hr⟩ := hp.pointer (Nat.zero_lt_of_lt hj)
      exact ⟨0, Nat.zero_lt_of_lt hj, r, r, hr, hr, .refl r⟩
    | succ n ih =>
      obtain ⟨i, hi, r, s, hr, hs, hrs⟩ := ih
      have hnext : h.follow v (n + 1) = h.follow v (i + 1) := by
        rw [follow_succ_of_ok hr, follow_succ_of_ok hs, deref_ptr, deref_ptr, load_of_sameSlot h hrs]
      rcases Nat.lt_or_eq_of_le (Nat.succ_le_of_lt hi) with hi | hi
      · obtain ⟨t, ht⟩ := hp.pointer hi
        exact ⟨i + 1, hi, t, t, hnext.trans ht, ht, .refl t⟩
      · -- the last level is at the slot that the chain has come back to
        exact ⟨j, hj, p, q, hnext.trans ((congrArg (h.follow v) hi).trans hp.follow), hq,
          hsame⟩
  obtain ⟨_, _, r, _, hr, _⟩ := hall
  exact ⟨r, hr⟩

theorem length_le (hp : h.Passes v seen u) (hd : seen.Nodup) : seen.length ≤ h.slotCount := by
  rw [← length_slots]
  exact hd.length_le_of_subset hp.subset

end Passes

/-! ## Ends -/

/-- The pointer points to a slot that holds data. -/
def HoldsData (h : Heap) (p : Pointer) : Prop :=
  p.index ≠ 0 ∧ ∃ v, (h.word p.target).body[p.index]? = some (.lit v)

theorem holdsData_iff : h.HoldsData p ↔ ∃ v, h.load p = .ok v := by
  simp only [HoldsData, load_eq_ok_iff]
  exact ⟨fun ⟨hi, v, hv⟩ => ⟨v, hv, hi⟩, fun ⟨v, hv, hi⟩ => ⟨hi, v, hv⟩⟩

/-- What comes of following a chain of pointers. -/
inductive ChainEnd (h : Heap) (v : Value) : Except Error Value → Prop
  /-- The chain ends in a value. -/
  | value {n : Nat} {w : Value} (hn : h.follow v n = .ok w) (hw : ∀ p, w ≠ .ptr p) :
    ChainEnd h v (.ok w)
  /-- The chain comes to a slot without data. -/
  | broken {n : Nat} {p : Pointer} {e : Error} (hn : h.follow v n = .ok (.ptr p))
    (he : h.load p = .error e) : ChainEnd h v (.error e)
  /-- The chain goes on for ever. -/
  | cycle (hn : ∀ n, ∃ p, h.follow v n = .ok (.ptr p)) : ChainEnd h v (.error .pointerCycle)

namespace ChainEnd

variable {r r' : Except Error Value}

/-- A chain with a last level does not go on for ever. -/
theorem not_cycle (hn : h.follow v n = .ok w) (he : h.deref w = .error e) :
    ¬ ∀ n, ∃ p, h.follow v n = .ok (.ptr p) := by
  intro hall
  obtain ⟨p, hp⟩ := hall (n + 1)
  exact absurd (le_of_follow hn he hp) (Nat.not_succ_le_self n)

theorem unique (hr : h.ChainEnd v r) (hr' : h.ChainEnd v r') : r = r' := by
  cases hr with
  | value hn hw =>
    have he := h.deref_of_not_ptr hw
    cases hr' with
    | value hk hu => rw [(last_unique hn he hk (h.deref_of_not_ptr hu)).2]
    | broken hk he' => exact absurd (last_unique hn he hk he').2 (hw _)
    | cycle hall => exact absurd hall (not_cycle hn he)
  | broken hn he =>
    cases hr' with
    | value hk hu => exact absurd (last_unique hn he hk (h.deref_of_not_ptr hu)).2.symm (hu _)
    | broken hk he' =>
      obtain ⟨-, hp⟩ := last_unique hn he hk he'
      cases hp
      rw [he] at he'
      cases he'
      rfl
    | cycle hall => exact absurd hall (not_cycle hn he)
  | cycle hall =>
    cases hr' with
    | value hk hu => exact absurd hall (not_cycle hk (h.deref_of_not_ptr hu))
    | broken hk he' => exact absurd hall (not_cycle hk he')
    | cycle => rfl

end ChainEnd

/-! ## The loop -/

/-- The loop that follows a chain which has passed the slots `seen`, without a bound on its
    rounds. -/
inductive Chases (h : Heap) : List (WordId × Nat) → Value → Except Error Value → Prop
  | done {seen : List (WordId × Nat)} {v : Value} (hv : ∀ p, v ≠ .ptr p) : Chases h seen v (.ok v)
  | again {seen : List (WordId × Nat)} {p : Pointer} (hs : (p.target, p.index) ∈ seen) :
    Chases h seen (.ptr p) (.error .pointerCycle)
  | broken {seen : List (WordId × Nat)} {p : Pointer} {e : Error} (hs : (p.target, p.index) ∉ seen)
    (he : h.load p = .error e) : Chases h seen (.ptr p) (.error e)
  | next {seen : List (WordId × Nat)} {p : Pointer} {u : Value} {r : Except Error Value}
    (hs : (p.target, p.index) ∉ seen) (hl : h.load p = .ok u)
    (hr : Chases h ((p.target, p.index) :: seen) u r) : Chases h seen (.ptr p) r

variable {seen : List (WordId × Nat)} {r r' : Except Error Value}

/-- The loop finds the end of the chain. -/
theorem Chases.chainEnd (hc : h.Chases seen u r) (hp : h.Passes v seen u) : h.ChainEnd v r := by
  induction hc with
  | done hv => exact .value hp.follow hv
  | again hs => exact .cycle (hp.loops hs)
  | broken _ he => exact .broken hp.follow he
  | next _ hl _ ih => exact ih (hp.next hl)

/-- The loop ends, before a bound on its rounds can: the slots that have been passed are
    distinct. -/
theorem chases_followFrom {fuel : Nat} (hp : h.Passes v seen u) (hd : seen.Nodup)
    (hf : h.slotCount < fuel + seen.length) : h.Chases seen u (h.followFrom seen fuel u) := by
  induction fuel generalizing seen u with
  | zero =>
    have := hp.length_le hd
    omega
  | succ fuel ih =>
    cases u with
    | ptr p =>
      rw [followFrom]
      by_cases hs : (p.target, p.index) ∈ seen
      · rw [if_pos (List.contains_iff_mem.2 hs)]
        exact .again hs
      · rw [if_neg fun hc => hs (List.contains_iff_mem.1 hc)]
        cases hl : h.load p with
        | error e => exact .broken hs hl
        | ok u =>
          refine .next hs hl (ih (hp.next hl) (List.nodup_cons.2 ⟨hs, hd⟩) ?_)
          rw [List.length_cons]
          omega
    | _ => exact .done nofun

theorem chases_of_le {fuel : Nat} (hf : h.slotCount < fuel) :
    h.Chases [] v (h.followFrom [] fuel v) :=
  chases_followFrom .start .nil hf

theorem chases_followToEnd (h : Heap) (v : Value) : h.Chases [] v (h.followToEnd v) :=
  chases_of_le (by omega)

theorem followToEnd_eq_iff : h.followToEnd v = r ↔ h.ChainEnd v r := by
  have hend := (h.chases_followToEnd v).chainEnd .start
  exact ⟨fun hr => hr ▸ hend, hend.unique⟩

theorem chases_iff : h.Chases [] v r ↔ h.followToEnd v = r := by
  refine ⟨fun hc => followToEnd_eq_iff.2 (hc.chainEnd .start), ?_⟩
  rintro rfl
  exact h.chases_followToEnd v

theorem followFrom_eq_followToEnd {fuel : Nat} (hf : h.slotCount < fuel) :
    h.followFrom [] fuel v = h.followToEnd v :=
  (chases_iff.1 (chases_of_le hf)).symm

/-! ## The answers -/

theorem followToEnd_eq_ok_iff :
    h.followToEnd v = .ok w ↔ (∀ p, w ≠ .ptr p) ∧ ∃ n, h.follow v n = .ok w := by
  rw [followToEnd_eq_iff]
  constructor
  · intro hc
    cases hc with
    | value hn hw => exact ⟨hw, _, hn⟩
  · rintro ⟨hw, n, hn⟩
    exact .value hn hw

theorem follow_unique (hn : h.follow v n = .ok w) (hw : ∀ p, w ≠ .ptr p)
    (hk : h.follow v k = .ok u) (hu : ∀ p, u ≠ .ptr p) : n = k :=
  (last_unique hn (h.deref_of_not_ptr hw) hk (h.deref_of_not_ptr hu)).1

/-- There are two errors: the chain goes on for ever, or it is broken, and the error tells where. -/
theorem followToEnd_eq_error_iff :
    h.followToEnd v = .error e ↔
      e = .pointerCycle ∧ (∀ n, ∃ p, h.follow v n = .ok (.ptr p)) ∨
        ∃ n p, h.follow v n = .ok (.ptr p) ∧ ¬ h.HoldsData p ∧
          e = .badWordOffset (h.word p.target).label p.index := by
  rw [followToEnd_eq_iff]
  constructor
  · intro hc
    cases hc with
    | @broken n p _ hn he =>
      refine .inr ⟨n, p, hn, fun hd => ?_, load_eq_error he⟩
      obtain ⟨u, hu⟩ := holdsData_iff.1 hd
      rw [hu] at he
      cases he
    | cycle hall => exact .inl ⟨rfl, hall⟩
  · rintro (⟨rfl, hall⟩ | ⟨n, p, hn, hd, rfl⟩)
    · exact .cycle hall
    · cases hl : h.load p with
      | ok u => exact absurd (holdsData_iff.2 ⟨u, hl⟩) hd
      | error e => exact load_eq_error hl ▸ .broken hn hl

theorem followToEnd_eq_cycle_iff :
    h.followToEnd v = .error .pointerCycle ↔ ∀ n, ∃ p, h.follow v n = .ok (.ptr p) := by
  rw [followToEnd_eq_error_iff]
  constructor
  · rintro (⟨-, hall⟩ | ⟨_, _, _, _, he⟩)
    · exact hall
    · cases he
  · exact fun hall => .inl ⟨rfl, hall⟩

/-- **A chain of pointers ends in an object if some number of levels leads to it.** -/
theorem followToEnd_eq_obj_iff {o : ObjId} :
    h.followToEnd v = .ok (.obj o) ↔ ∃ n, h.follow v n = .ok (.obj o) := by
  rw [followToEnd_eq_ok_iff]
  exact ⟨fun ⟨_, hn⟩ => hn, fun hn => ⟨nofun, hn⟩⟩

/-- The object that is counted stands at the end of the chain. -/
theorem liveCount?_eq (h : Heap) (roots : List Ref) (v : Value) :
    h.liveCount? roots v = match h.followToEnd v with
      | .ok (.obj o) => some (h.references roots o)
      | _ => none := by
  cases v with
  | ptr p => rfl
  | _ => rfl

/-- The count of the object that a value leads to. -/
theorem liveCount?_of_follow {roots : List Ref} {o : ObjId} (hn : h.follow v n = .ok (.obj o)) :
    h.liveCount? roots v = some (h.references roots o) := by
  rw [liveCount?_eq, followToEnd_eq_obj_iff.2 ⟨n, hn⟩]

theorem liveCount?_eq_none_iff {roots : List Ref} :
    h.liveCount? roots v = none ↔ ∀ o, h.followToEnd v ≠ .ok (.obj o) := by
  rw [liveCount?_eq]
  constructor
  · intro hc o ho
    rw [ho] at hc
    cases hc
  · intro hno
    split
    · exact absurd ‹_› (hno _)
    · rfl

/-- There is no count for a value that leads to no object. -/
theorem liveCount?_of_not_follow {roots : List Ref} (hn : ∀ n o, h.follow v n ≠ .ok (.obj o)) :
    h.liveCount? roots v = none :=
  liveCount?_eq_none_iff.2 fun o ho => by
    obtain ⟨n, hf⟩ := followToEnd_eq_obj_iff.1 ho
    exact hn n o hf

/-- What following a chain of pointers comes to. -/
structure ChainAnswers (h : Heap) (v : Value) : Prop where
  /-- The loop that has no bound on its rounds ends, and with this answer. -/
  ends : ∀ r, h.Chases [] v r ↔ h.followToEnd v = r
  /-- The bound on the rounds never shows. -/
  bound : ∀ fuel, h.slotCount < fuel → h.followFrom [] fuel v = h.followToEnd v
  value_iff : ∀ w, h.followToEnd v = .ok w ↔ ∃ n, h.follow v n = .ok w ∧ ∀ p, w ≠ .ptr p
  level_unique : ∀ n k w u, h.follow v n = .ok w → (∀ p, w ≠ .ptr p) →
    h.follow v k = .ok u → (∀ p, u ≠ .ptr p) → n = k
  cycle_iff : h.followToEnd v = .error .pointerCycle ↔ ∀ n, ∃ p, h.follow v n = .ok (.ptr p)
  /-- The first slot of the chain that has no data; the slots before it have been read. -/
  broken_iff : ∀ e, e ≠ .pointerCycle → (h.followToEnd v = .error e ↔
    ∃ n p, h.follow v n = .ok (.ptr p) ∧ ¬ h.HoldsData p ∧
      e = .badWordOffset (h.word p.target).label p.index)
  uncounted_iff : ∀ roots, h.liveCount? roots v = none ↔
    (∀ n, ∃ p, h.follow v n = .ok (.ptr p)) ∨
    (∃ n p, h.follow v n = .ok (.ptr p) ∧ ¬ h.HoldsData p) ∨
    ∃ n w, h.follow v n = .ok w ∧ (∀ p, w ≠ .ptr p) ∧ ∀ o, w ≠ .obj o

/-- **Chains of pointers are followed to their true end.**  Whatever the words of a heap hold, a
    value is found if the chain ends in one, a cycle if it never ends, and else the first slot that
    has no data. -/
theorem pointer_chains (h : Heap) (v : Value) : h.ChainAnswers v where
  ends _ := chases_iff
  bound _ hf := followFrom_eq_followToEnd hf
  value_iff w := by
    rw [followToEnd_eq_ok_iff]
    exact ⟨fun ⟨hw, n, hn⟩ => ⟨n, hn, hw⟩, fun ⟨n, hn, hw⟩ => ⟨hw, n, hn⟩⟩
  level_unique _ _ _ _ := follow_unique
  cycle_iff := followToEnd_eq_cycle_iff
  broken_iff e he := by
    rw [followToEnd_eq_error_iff]
    exact or_iff_right fun hc => he hc.1
  uncounted_iff roots := by
    rw [liveCount?_eq_none_iff]
    constructor
    · intro hno
      cases hr : h.followToEnd v with
      | ok w =>
        obtain ⟨hw, n, hn⟩ := followToEnd_eq_ok_iff.1 hr
        exact .inr (.inr ⟨n, w, hn, hw, fun o ho => hno o (hr.trans (congrArg _ ho))⟩)
      | error e =>
        rcases followToEnd_eq_error_iff.1 hr with ⟨-, hall⟩ | ⟨n, p, hn, hd, -⟩
        · exact .inl hall
        · exact .inr (.inl ⟨n, p, hn, hd⟩)
    · rintro (hall | ⟨n, p, hn, hd⟩ | ⟨n, w, hn, hw, hno⟩) o ho
      · rw [followToEnd_eq_cycle_iff.2 hall] at ho
        cases ho
      · rw [followToEnd_eq_error_iff.2 (.inr ⟨n, p, hn, hd, rfl⟩)] at ho
        cases ho
      · rw [followToEnd_eq_ok_iff.2 ⟨hw, n, hn⟩] at ho
        cases ho
        exact hno o rfl

end ThreadedForth.Heap
