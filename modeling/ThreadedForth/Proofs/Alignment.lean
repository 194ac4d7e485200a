/-
  Machines that differ in what is left to read and in what was written before.
-/
import ThreadedForth.Proofs.LineReading
import ThreadedForth.Proofs.StructDefinitions
import ThreadedForth.Proofs.SurroundingSteps

namespace ThreadedForth

variable {α β : Type} {T : List Char} {o q : String}

/-! ## Outputs with and without a note -/

namespace Output

variable {b c : Output}

/-- The output has room for one more text. -/
def Room (q : String) (b : Output) : Prop :=
  b.text.utf8ByteSize + q.utf8ByteSize ≤ b.capacity

instance (q : String) (b : Output) : Decidable (b.Room q) :=
  inferInstanceAs (Decidable (_ ≤ _))

/-- After the text `o`, the second output has a note that the first has not. -/
structure Noted (o q : String) (b c : Output) : Prop where
  capacity : c.capacity = b.capacity
  text : ∃ t, b.text = o ++ t ∧ c.text = o ++ q ++ t

theorem Noted.push {p : Output} {piece : String} (h : b.Noted o q c)
    (hp : b.push piece = .ok p) (hr : p.Room q) :
    ∃ d, c.push piece = .ok d ∧ p.Noted o q d := by
  obtain ⟨rfl, -⟩ := push_eq_ok hp
  obtain ⟨t, hb, hc⟩ := h.text
  have hfits : c.text.utf8ByteSize + piece.utf8ByteSize ≤ c.capacity := by
    simp only [Room, hb, String.utf8ByteSize_append] at hr
    rw [hc, h.capacity]
    simp only [String.utf8ByteSize_append]
    omega
  refine ⟨{ c with text := c.text ++ piece }, if_pos hfits, h.capacity, t ++ piece, ?_, ?_⟩
  · rw [hb, String.append_assoc]
  · rw [hc, String.append_assoc]

theorem Noted.push_error {e : Error} {piece : String} (h : b.Noted o q c)
    (hp : b.push piece = .error e) : c.push piece = .error e := by
  obtain ⟨t, hb, hc⟩ := h.text
  unfold Output.push at hp ⊢
  split at hp
  · cases hp
  · rename_i hn
    rw [hb] at hn
    rw [hc, h.capacity, if_neg]
    · exact hp
    · simp only [String.utf8ByteSize_append] at hn ⊢
      omega

theorem write_grows (b : Output) (ps : List String) :
    (b.write ps).1.capacity = b.capacity ∧
      b.text.utf8ByteSize ≤ (b.write ps).1.text.utf8ByteSize := by
  induction ps generalizing b with
  | nil => exact ⟨rfl, Nat.le_refl _⟩
  | cons p ps ih =>
    unfold write
    cases hp : b.push p with
    | error e => exact ⟨rfl, Nat.le_refl _⟩
    | ok c =>
      obtain ⟨rfl, -⟩ := push_eq_ok hp
      obtain ⟨hcap, hle⟩ := ih { b with text := b.text ++ p }
      refine ⟨hcap, Nat.le_trans ?_ hle⟩
      simp

theorem Room.mono (hr : c.Room q) (hcap : c.capacity = b.capacity)
    (hle : b.text.utf8ByteSize ≤ c.text.utf8ByteSize) : b.Room q := by
  unfold Room at hr ⊢
  omega

theorem Noted.write {ps : List String} (h : b.Noted o q c) (hr : (b.write ps).1.Room q) :
    (c.write ps).2 = (b.write ps).2 ∧ (b.write ps).1.Noted o q (c.write ps).1 := by
  induction ps generalizing b c with
  | nil => exact ⟨rfl, h⟩
  | cons p ps ih =>
    unfold Output.write at hr ⊢
    cases hp : b.push p with
    | error e =>
      rw [h.push_error hp]
      exact ⟨rfl, h⟩
    | ok b₁ =>
      rw [hp] at hr
      obtain ⟨hcap, hle⟩ := b₁.write_grows ps
      obtain ⟨c₁, hc₁, h₁⟩ := h.push hp (hr.mono hcap hle)
      rw [hc₁]
      exact ih h₁ hr

end Output

/-! ## Aligned machines -/

/-- A word that reads ahead found nothing left to read. -/
def Error.isMissing : Error → Bool
  | missingName _ | badStringLiteral | compileState (.structOpen _) => true
  | _ => false

/-- What is around a program, apart from its line and its output. -/
def Parts.besideTexts : Parts :=
  { interrupt := true, debugger := true, host := true, calls := true, addresses := true }

theorem Parts.Within.besideTexts {J : Parts} (hl : J.line = false) (ho : J.output = false) :
    J.Within .besideTexts where
  line h := by rw [hl] at h; cases h
  output h := by rw [ho] at h; cases h
  interrupt _ := rfl
  debugger _ := rfl
  host _ := rfl
  calls _ := rfl
  addresses _ := rfl

namespace Machine

variable {x y : Machine}

/-- The first machine has the text `T` to read after all that the second one has.  The second one
    has a note in its output.  Apart from the line and the output, they are the same. -/
structure Aligned (T : List Char) (o q : String) (x y : Machine) : Prop where
  same : y = { x with line := y.line, output := y.output }
  line : x.line.Extends T y.line
  output : x.output.Noted o q y.output

/-- The line ended inside a comment. -/
structure Stuck (m : Machine) : Prop where
  comment : m.inComment = true
  rest : m.line.rest = []

/-- The second machine has read on, and has written no less. -/
structure ReadsTo (m m' : Machine) : Prop where
  width : m'.line.capacity = m.line.capacity
  short : m'.line.rest.length ≤ m.line.rest.length
  stuck : m.Stuck → m'.Stuck
  capacity : m'.output.capacity = m.output.capacity
  grows : m.output.text.utf8ByteSize ≤ m'.output.text.utf8ByteSize

theorem ReadsTo.trans {m m₁ m₂ : Machine} (h : m.ReadsTo m₁) (h' : m₁.ReadsTo m₂) :
    m.ReadsTo m₂ where
  width := h'.width.trans h.width
  short := Nat.le_trans h'.short h.short
  stuck hm := h'.stuck (h.stuck hm)
  capacity := h'.capacity.trans h.capacity
  grows := Nat.le_trans h.grows h'.grows

theorem ReadsTo.of_eq {m m' : Machine} (hl : m'.line = m.line) (ho : m'.output = m.output)
    (hc : m'.inComment = m.inComment) : m.ReadsTo m' where
  width := by rw [hl]
  short := Nat.le_of_eq (by rw [hl])
  stuck hm := ⟨hc.trans hm.comment, by rw [hl, hm.rest]⟩
  capacity := by rw [ho]
  grows := Nat.le_of_eq (by rw [ho])

theorem ReadsTo.room {m m' : Machine} (h : m.ReadsTo m') (hr : m'.output.Room q) :
    m.output.Room q :=
  hr.mono h.capacity h.grows

namespace Aligned

variable {x' : Machine}

theorem amid (h : Aligned T o q x y) : x.amid .besideTexts y.surroundings = y := by
  rw [h.same]
  rfl

/-- A change elsewhere keeps machines aligned. -/
theorem carry (h : Aligned T o q x y) (hl : x'.line = x.line) (ho : x'.output = x.output)
    (hc : x'.inComment = x.inComment) : Aligned T o q x' (x'.amid .besideTexts y.surroundings) where
  same := by
    have : y.inComment = x'.inComment := by
      rw [h.same, hc]
    show x'.amid .besideTexts y.surroundings = { x' with line := y.line, output := y.output }
    rw [← this]
    rfl
  line := (congrArg (Line.Extends · T y.line) hl).mpr h.line
  output := (congrArg (Output.Noted o q · y.output) ho).mpr h.output

theorem setLine (h : Aligned T o q x y) {l k : Line} (hl : l.Extends T k) :
    Aligned T o q { x with line := l } { y with line := k } where
  same := by
    rw [h.same]
  line := hl
  output := h.output

theorem setOutput (h : Aligned T o q x y) {b c : Output} (hb : b.Noted o q c) :
    Aligned T o q { x with output := b } { y with output := c } where
  same := by
    rw [h.same]
  line := h.line
  output := hb

end Aligned

/-- Two results are the same, on aligned machines. -/
def AlignedResults (T : List Char) (o q : String) :
    EStateM.Result Error Machine α → EStateM.Result Error Machine α → Prop
  | .ok a x, .ok b y => a = b ∧ Aligned T o q x y
  | .error e x, .error f y => e = f ∧ Aligned T o q x y
  | _, _ => False

theorem AlignedResults.split {rx ry : EStateM.Result Error Machine α}
    (h : AlignedResults T o q rx ry) :
    (∃ a x y, rx = .ok a x ∧ ry = .ok a y ∧ Aligned T o q x y) ∨
      ∃ e x y, rx = .error e x ∧ ry = .error e y ∧ Aligned T o q x y := by
  cases rx with
  | ok a x =>
    cases ry with
    | ok b y => exact .inl ⟨a, x, y, rfl, by rw [h.1], h.2⟩
    | error f y => exact h.elim
  | error e x =>
    cases ry with
    | ok b y => exact h.elim
    | error f y => exact .inr ⟨e, x, y, rfl, by rw [h.1], h.2⟩

theorem AlignedResults.map (f : α → β) {act bct : M α} (h : AlignedResults T o q (act x) (bct y)) :
    AlignedResults T o q ((do pure (f (← act)) : M β) x) ((do pure (f (← bct)) : M β) y) := by
  rcases h.split with ⟨a, x₁, y₁, hx, hy, h₁⟩ | ⟨e, x₁, y₁, hx, hy, h₁⟩
  · rw [M.bind_ok hx, M.bind_ok hy]
    exact ⟨rfl, h₁⟩
  · rw [M.bind_error hx, M.bind_error hy]
    exact ⟨rfl, h₁⟩

/-- A computation failed for want of something to read. -/
def Missing : EStateM.Result Error Machine α → Prop
  | .ok _ _ => False
  | .error e _ => e.isMissing = true

instance : (r : EStateM.Result Error Machine α) → Decidable (Missing r)
  | .ok _ _ => .isFalse id
  | .error e _ => inferInstanceAs (Decidable (e.isMissing = true))

end Machine

open Machine

/-! ## Computations that keep machines aligned -/

/-- A computation that reads the line and adds to the output, and does not get out of a comment. -/
def ReadsOn (act : M α) : Prop :=
  ∀ m : Machine, m.ReadsTo (after (act m))

namespace ReadsOn

theorem bind {x : M α} {f : α → M β} (hx : ReadsOn x) (hf : ∀ a, ReadsOn (f a)) :
    ReadsOn (x >>= f) := by
  intro m
  have hm := hx m
  cases h : x m with
  | ok a m₁ =>
    rw [h] at hm
    rw [M.bind_ok h]
    exact hm.trans (hf a m₁)
  | error e m₁ =>
    rw [h] at hm
    rw [M.bind_error h]
    exact hm

/-- A computation that uses neither the line nor the output. -/
theorem of_uses {act : M α} (h : UsesOnly .besideTexts act) : ReadsOn act := by
  intro m
  have hs := h.surroundings_eq m
  exact .of_eq (congrArg Machine.line hs).symm (congrArg Machine.output hs).symm
    (congrArg Machine.inComment hs).symm

end ReadsOn

/-- A computation that does the same on aligned machines, unless it finds nothing left to read on
    the shorter line. -/
structure Aligning (T : List Char) (o q : String) (act : M α) : Prop where
  reads : ReadsOn act
  aligned : ∀ x y, Aligned T o q x y → (after (act x)).output.Room q →
    AlignedResults T o q (act x) (act y) ∨ T ≠ [] ∧ Missing (act y)

namespace Aligning

/-- What comes after a computation that kept two machines aligned. -/
theorem after_aligned {x y : Machine} {act bct : M α} {f : α → M β} (hf : ∀ a, Aligning T o q (f a))
    (h : AlignedResults T o q (act x) (bct y)) (hr : (after ((act >>= f) x)).output.Room q) :
    AlignedResults T o q ((act >>= f) x) ((bct >>= f) y) ∨ T ≠ [] ∧ Missing ((bct >>= f) y) := by
  rcases h.split with ⟨a, x₁, y₁, hx, hy, h₁⟩ | ⟨e, x₁, y₁, hx, hy, h₁⟩
  · rw [M.bind_ok hx] at hr ⊢
    rw [M.bind_ok hy]
    exact (hf a).aligned x₁ y₁ h₁ hr
  · rw [M.bind_error hx, M.bind_error hy]
    exact .inl ⟨rfl, h₁⟩

theorem bind {x : M α} {f : α → M β} (hx : Aligning T o q x) (hf : ∀ a, Aligning T o q (f a)) :
    Aligning T o q (x >>= f) where
  reads := hx.reads.bind fun a => (hf a).reads
  aligned m k h hr := by
    have hroom : (after (x m)).output.Room q := by
      cases hm : x m with
      | error e m₁ =>
        rw [M.bind_error hm] at hr
        exact hr
      | ok a m₁ =>
        rw [M.bind_ok hm] at hr
        exact ((hf a).reads m₁).room hr
    rcases hx.aligned m k h hroom with hres | ⟨hT, hmiss⟩
    · exact after_aligned hf hres hr
    · cases hk : x k with
      | ok b k₁ => rw [hk] at hmiss; exact hmiss.elim
      | error e k₁ =>
        rw [hk] at hmiss
        rw [M.bind_error hk]
        exact .inr ⟨hT, hmiss⟩

/-- A computation that uses neither the line nor the output. -/
theorem of_uses {act : M α} (h : UsesOnly .besideTexts act) : Aligning T o q act where
  reads := .of_uses h
  aligned x y hxy _ := by
    have hs := h.surroundings_eq x
    have hl : (after (act x)).line = x.line := (congrArg Machine.line hs).symm
    have ho : (after (act x)).output = x.output := (congrArg Machine.output hs).symm
    have hc : (after (act x)).inComment = x.inComment := (congrArg Machine.inComment hs).symm
    have hy := h x y.surroundings
    rw [hxy.amid] at hy
    have hcarry := hxy.carry hl ho hc
    refine .inl ?_
    rw [hy]
    cases hr : act x with
    | ok a x₁ =>
      rw [hr] at hcarry
      exact ⟨rfl, hcarry⟩
    | error e x₁ =>
      rw [hr] at hcarry
      exact ⟨rfl, hcarry⟩

theorem pure (a : α) : Aligning T o q (Pure.pure a : M α) := of_uses (.pure a)

theorem throw (e : Error) : Aligning T o q (MonadExcept.throw e : M α) := of_uses (.throw e)

theorem get {f : Machine → M α} (h : ∀ m s, f (m.amid .besideTexts s) = f m)
    (hf : ∀ m, Aligning T o q (f m)) : Aligning T o q (MonadState.get >>= f) where
  reads m := (hf m).reads m
  aligned x y hxy hr := by
    have hy : f y = f x := by
      have := h x y.surroundings
      rwa [hxy.amid] at this
    show AlignedResults T o q (f x x) (f y y) ∨ T ≠ [] ∧ Missing (f y y)
    rw [hy]
    exact (hf x).aligned x y hxy hr

theorem ite {p : Prop} [Decidable p] {x y : M α} (hx : Aligning T o q x) (hy : Aligning T o q y) :
    Aligning T o q (if p then x else y) := by
  split
  · exact hx
  · exact hy

/-- A computation that writes some pieces of text. -/
theorem writing {act : M Unit} (e : Error) (ps : List String)
    (h : ∀ m, act m = bif (m.output.write ps).2 then .ok () { m with output := (m.output.write ps).1 }
      else .error e { m with output := (m.output.write ps).1 }) : Aligning T o q act := by
  have hafter : ∀ m, after (act m) = { m with output := (m.output.write ps).1 } := by
    intro m
    rw [h]
    cases (m.output.write ps).2 <;> rfl
  refine ⟨fun m => ?_, fun x y hxy hr => .inl ?_⟩
  · rw [hafter]
    have hgrows := m.output.write_grows ps
    exact ⟨rfl, Nat.le_refl _, fun hm => ⟨hm.comment, hm.rest⟩, hgrows.1, hgrows.2⟩
  · rw [hafter] at hr
    obtain ⟨hflag, hout⟩ := hxy.output.write hr
    rw [h, h, hflag]
    cases (x.output.write ps).2 with
    | true => exact ⟨rfl, hxy.setOutput hout⟩
    | false => exact ⟨rfl, hxy.setOutput hout⟩

end Aligning

namespace M

theorem put_aligning (piece : String) : Aligning T o q (put piece) := by
  refine .writing .outputFull [piece] fun m => ?_
  by_cases hfits : m.output.text.utf8ByteSize + piece.utf8ByteSize ≤ m.output.capacity
  · simp [put, Output.write, Output.push, hfits]
  · simp [put, Output.write, Output.push, hfits]

theorem write_aligning (ps : List String) : Aligning T o q (write ps) :=
  .writing .outputFormat ps fun m => write_eq ps m

end M

/-! ## Computations that read the line -/

theorem Line.rest_advance_nil {l : Line} (h : l.rest = []) : l.advance.rest = [] := by
  rw [rest_advance, h]
  rfl

theorem Line.rest_takeUntil_nil {l : Line} (h : l.rest = []) (c : Char) :
    (l.takeUntil c).2.rest = [] := by
  have hle := l.rest_takeUntil_le c
  rw [h] at hle
  exact List.eq_nil_of_length_eq_zero (Nat.le_zero.1 hle)

namespace M

theorem nextToken_reads : ReadsOn nextToken := fun m =>
  ⟨m.line.capacity_advance, m.line.rest_advance_le,
    fun hm => ⟨hm.comment, Line.rest_advance_nil hm.rest⟩, rfl, Nat.le_refl _⟩

/-- The next token of aligned machines, if there is one. -/
theorem nextToken_aligned (hT : Line.Apart T) {x y : Machine} (h : Aligned T o q x y) :
    AlignedResults T o q (nextToken x) (nextToken y) ∨
      T ≠ [] ∧ nextToken y = .ok none { y with line := y.line.advance } := by
  rcases Line.advance_extends hT h.line with ⟨ht, hadv⟩ | ⟨hne, ht⟩
  · exact .inl ⟨ht, h.setLine hadv⟩
  · exact .inr ⟨hne, by rw [nextToken, ht]⟩

/-- A computation that reads a token, and fails if there is none. -/
theorem nextToken_aligning (hT : Line.Apart T) {f : Option String → M α}
    (hf : ∀ t, Aligning T o q (f t)) (hnone : ∀ m, Missing (f none m)) :
    Aligning T o q (nextToken >>= f) where
  reads := nextToken_reads.bind fun t => (hf t).reads
  aligned x y h hr := by
    rcases nextToken_aligned hT h with hres | ⟨hne, hy⟩
    · exact Aligning.after_aligned hf hres hr
    · rw [M.bind_ok hy]
      exact .inr ⟨hne, hnone _⟩

theorem nextName_aligning (hT : Line.Apart T) (reader : String) : Aligning T o q (nextName reader) := by
  refine nextToken_aligning hT (fun t => ?_) fun _ => rfl
  cases t with
  | none => exact .throw _
  | some name => exact .pure name

theorem nextWord_aligning (hT : Line.Apart T) (reader : String) : Aligning T o q (nextWord reader) := by
  refine (nextName_aligning hT reader).bind fun name => .get (fun _ _ => rfl) fun m => ?_
  cases m.find? name with
  | none => exact .throw _
  | some w => exact .pure w

theorem nextText_aligning : Aligning T o q nextText := by
  have hafter : ∀ m, after (nextText m) = { m with line := (m.line.takeUntil '\x22').2 } := by
    intro m
    unfold nextText
    rcases m.line.takeUntil '\x22' with ⟨_ | _, _⟩ <;> rfl
  refine ⟨fun m => ?_, fun x y h _ => ?_⟩
  · rw [hafter]
    exact ⟨m.line.capacity_takeUntil _, m.line.rest_takeUntil_le _,
      fun hm => ⟨hm.comment, Line.rest_takeUntil_nil hm.rest _⟩, rfl, Nat.le_refl _⟩
  · have htake := Line.takeUntil_extends h.line '\x22'
    unfold nextText
    revert htake
    rcases x.line.takeUntil '\x22' with ⟨rx, lx⟩
    rcases y.line.takeUntil '\x22' with ⟨ry, ly⟩
    intro htake
    rcases htake with ⟨hres, hl⟩ | ⟨hne, hres⟩
    · obtain rfl : rx = ry := hres
      refine .inl ?_
      cases rx with
      | ok cs => exact ⟨rfl, h.setLine hl⟩
      | error e => exact ⟨rfl, h.setLine hl⟩
    · obtain rfl : ry = .error .unterminated := hres
      exact .inr ⟨hne, rfl⟩

end M

namespace ObjectWord

theorem nextFields_reads : ∀ n, ReadsOn (nextFields n)
  | 0 => .of_uses (.pure _)
  | n + 1 => by
    refine M.nextToken_reads.bind fun t => ?_
    split
    · exact .of_uses (.pure _)
    · exact .of_uses (.pure _)
    · exact (nextFields_reads n).bind fun _ => .of_uses (.pure _)

/-- The fields of a struct on aligned machines, if they end on the shorter line. -/
theorem nextFields_aligned (hT : Line.Apart T) {n i : Nat} {x y : Machine} (h : Aligned T o q x y)
    (hn : x.line.rest.length < n) (hi : y.line.rest.length < i) :
    AlignedResults T o q (nextFields n x) (nextFields i y) ∨
      T ≠ [] ∧ ∃ y', nextFields i y = .ok none y' := by
  induction n generalizing x y i with
  | zero => omega
  | succ n ih =>
    cases i with
    | zero => omega
    | succ i =>
      rcases Line.advance_extends hT h.line with ⟨ht, hadv⟩ | ⟨hne, ht⟩
      · have hxy : Aligned T o q (x.atLine x.line.advance) (y.atLine y.line.advance) := h.setLine hadv
        cases htok : y.line.advance.token? with
        | none =>
          rw [nextFields_open (ht.trans htok), nextFields_open htok]
          exact .inl ⟨rfl, hxy⟩
        | some t =>
          have h₁ := Line.rest_advance_lt (ht.trans htok)
          have h₂ := Line.rest_advance_lt htok
          by_cases hend : t = ";struct"
          · subst hend
            rw [nextFields_close (ht.trans htok), nextFields_close htok]
            exact .inl ⟨rfl, hxy⟩
          · rw [nextFields_field (ht.trans htok) hend, nextFields_field htok hend]
            rcases ih (i := i) hxy (Nat.lt_of_lt_of_le h₁ (Nat.le_of_lt_succ hn))
              (Nat.lt_of_lt_of_le h₂ (Nat.le_of_lt_succ hi)) with hres | ⟨hne, y', hy⟩
            · exact .inl (hres.map _)
            · rw [M.bind_ok hy]
              exact .inr ⟨hne, y', rfl⟩
      · exact .inr ⟨hne, _, nextFields_open ht _⟩

/-- The rest of the declaration of a struct, which fails if the fields do not end on the line. -/
theorem fields_aligning (hT : Line.Apart T) {f : Option (List String) → M α}
    (hf : ∀ fields, Aligning T o q (f fields)) (hnone : ∀ m, Missing (f none m)) :
    Aligning T o q (do f (← nextFields ((← get).line.text.length + 1))) where
  reads m := ((nextFields_reads _).bind fun fields => (hf fields).reads) m
  aligned x y h hr := by
    have hx := x.line.rest_le_text
    have hy := y.line.rest_le_text
    rcases nextFields_aligned hT h (Nat.lt_succ_of_le hx) (Nat.lt_succ_of_le hy) with
      hres | ⟨hne, y', hnext⟩
    · show AlignedResults T o q ((nextFields (x.line.text.length + 1) >>= f) x)
        ((nextFields (y.line.text.length + 1) >>= f) y) ∨ _
      exact Aligning.after_aligned hf hres hr
    · refine .inr ⟨hne, ?_⟩
      show Missing ((nextFields (y.line.text.length + 1) >>= f) y)
      rw [M.bind_ok hnext]
      exact hnone y'

theorem declare_aligning (hT : Line.Apart T) : Aligning T o q declare := by
  refine (M.nextName_aligning hT _).bind fun name => fields_aligning hT (fun fields => ?_) fun _ => rfl
  cases fields with
  | none => exact .throw _
  | some fields =>
    exact .of_uses <| (M.onTypes_uses _).bind fun _ => (M.defineConstant_uses _ _).bind fun _ =>
      defineFields_uses _ _ _

end ObjectWord

/-! ## The primitives -/

theorem Aligning.of_primitive (p : Primitive) (hl : p.uses.line = false) (ho : p.uses.output = false) :
    Aligning T o q p.run :=
  .of_uses (p.run_usesOnly (.besideTexts hl ho))

theorem Aligning.thenNext {act : M Unit} (h : Aligning T o q act) : Aligning T o q (thenNext act) :=
  h.bind fun _ => .pure _

theorem putSpaces_aligning : ∀ n, Aligning T o q (putSpaces n)
  | 0 => .pure _
  | n + 1 => (M.put_aligning _).bind fun _ => putSpaces_aligning n

theorem putByte_aligning (b : UInt8) : Aligning T o q (putByte b) := by
  have h : putByte b = (Utf8.ofBytes? [b]).elim (MonadExcept.throw .outputFormat) M.put := by
    funext m
    unfold putByte Output.pushBytes M.put
    cases Utf8.ofBytes? [b] <;> rfl
  rw [h]
  cases Utf8.ofBytes? [b] with
  | none => exact .throw _
  | some piece => exact M.put_aligning piece

theorem OutputWord.run_aligning (hT : Line.Apart T) (w : OutputWord) : Aligning T o q w.run := by
  cases w with
  | print =>
    refine (Aligning.of_uses M.pop_uses).bind fun v => .get (fun m s => ?_) fun _ => M.write_aligning _
    simp only [Machine.format_amid]
  | printFloat =>
    exact (Aligning.of_uses M.pop_uses).bind fun _ => (Aligning.of_uses (M.lift_uses _)).bind fun _ =>
      M.write_aligning _
  | printStack =>
    refine .get (fun m s => ?_) fun _ => M.write_aligning _
    simp only [Machine.stackLine_amid]
  | emit =>
    exact (Aligning.of_uses M.pop_uses).bind fun _ => (Aligning.of_uses (M.lift_uses _)).bind fun _ =>
      putByte_aligning _
  | newline => exact M.put_aligning _
  | space => exact M.put_aligning _
  | spaces => exact (Aligning.of_uses M.popInt_uses).bind fun _ => putSpaces_aligning _
  | type =>
    refine (Aligning.of_uses M.pop_uses).bind fun v => .get (fun m s => ?_) fun _ => M.put_aligning _
    simp only [Machine.format_amid]
  | words => exact .get (fun _ _ => rfl) fun _ => M.write_aligning _
  | see =>
    exact (M.nextWord_aligning hT _).bind fun _ => .get (fun _ _ => rfl) fun _ => M.put_aligning _

theorem MemoryWord.run_aligning (hT : Line.Apart T) (w : MemoryWord) : Aligning T o q w.run := by
  cases w with
  | create =>
    exact (M.nextName_aligning hT _).bind fun _ => .of_uses <| (createWord_uses _).bind fun _ => .pure _
  | «variable» =>
    exact (M.nextName_aligning hT _).bind fun _ => .of_uses <| (createWord_uses _).bind fun _ =>
      (addSlot_uses _ _).bind fun _ => .pure _
  | constant =>
    exact (M.nextName_aligning hT _).bind fun _ => .of_uses <| M.pop_uses.bind fun _ =>
      (M.defineConstant_uses _ _).bind fun _ => .pure _
  | _ => exact .of_uses (MemoryWord.run_uses _ (.besideTexts rfl rfl))

namespace DefiningWord

theorem nextChar_aligning (hT : Line.Apart T) (reader : String) : Aligning T o q (nextChar reader) := by
  refine (M.nextName_aligning hT reader).bind fun name => ?_
  cases name.toList with
  | nil => exact .throw _
  | cons c _ => exact .pure _

theorem run_aligning (hT : Line.Apart T) {w : DefiningWord} (hw : w ≠ comment) (hw' : w ≠ lineComment) :
    Aligning T o q w.run := by
  have hrun : ∀ {act : M Unit}, Aligning T o q act →
      Aligning T o q (do act; pure .next : M Flow) := fun h => h.bind fun _ => .pure _
  cases w with
  | colon => exact hrun ((M.nextName_aligning hT _).bind fun _ => .of_uses (openDefinition_uses _))
  | tick => exact hrun ((M.nextWord_aligning hT _).bind fun _ => .of_uses (M.push_uses _))
  | bracketTick =>
    exact hrun <| (Aligning.of_uses (M.requireCompiling_uses _)).bind fun _ =>
      (M.nextWord_aligning hT _).bind fun _ => .of_uses (M.compileLiteral_uses _)
  | forget =>
    refine hrun ((M.nextName_aligning hT _).bind fun name => .of_uses ?_)
    have h : UsesOnly .besideTexts (do
        let m ← get
        let r ← M.lift (m.dictionary.forget m.heap name)
        set { m with dictionary := r.2.1, heap := r.2.2 } : M PUnit) :=
      .replace (fun _ _ => rfl) (fun _ _ _ => rfl) (fun _ _ _ => rfl) fun _ _ => .pure ()
    exact h
  | char => exact hrun ((nextChar_aligning hT _).bind fun _ => .of_uses (M.push_uses _))
  | bracketChar =>
    exact hrun <| (Aligning.of_uses (M.requireCompiling_uses _)).bind fun _ =>
      (nextChar_aligning hT _).bind fun _ => .of_uses (M.compileLiteral_uses _)
  | string =>
    exact hrun <| M.nextText_aligning.bind fun _ => .of_uses <| (M.newText_uses _).bind fun _ =>
      M.mode_uses.bind fun _ => .ite (M.compileLiteral_uses _) (M.push_uses _)
  | printString =>
    exact hrun <| M.nextText_aligning.bind fun _ => (Aligning.of_uses M.mode_uses).bind fun _ =>
      .ite (.of_uses <| (M.newText_uses _).bind fun _ => (M.compileLiteral_uses _).bind fun _ =>
        M.compileBuiltin_uses _) (M.put_aligning _)
  | comment => exact absurd rfl hw
  | lineComment => exact absurd rfl hw'
  | _ => exact .of_uses (run_uses _ (.besideTexts rfl rfl))

end DefiningWord

/-- **A primitive keeps machines aligned, if it finds what it reads.**  Only comments end with
    their line. -/
theorem Primitive.aligning (hT : Line.Apart T) {p : Primitive} (hc : p ≠ .defining .comment)
    (hl : p ≠ .defining .lineComment) : Aligning T o q p.run := by
  cases p with
  | output w => exact (w.run_aligning hT).thenNext
  | memory w => exact w.run_aligning hT
  | defining w =>
    exact DefiningWord.run_aligning hT (fun h => hc (h ▸ rfl)) fun h => hl (h ▸ rfl)
  | object w =>
    cases w with
    | struct => exact (ObjectWord.declare_aligning hT).thenNext
    | _ => exact (Aligning.of_uses (ObjectWord.run_uses _ (.besideTexts rfl rfl))).thenNext
  | control w => exact .of_primitive (.control w) (by cases w <;> rfl) (by cases w <;> rfl)
  | branch w =>
    have hu : ((Primitive.branch w).uses.line = false) ∧ (Primitive.branch w).uses.output = false := by
      cases w with
      | enterCount maySkip => cases maySkip <;> exact ⟨rfl, rfl⟩
      | _ => exact ⟨rfl, rfl⟩
    exact .of_primitive (.branch w) hu.1 hu.2
  | state w => exact .of_primitive (.state w) (by cases w <;> rfl) (by cases w <;> rfl)
  | host w => exact .of_primitive (.host w) (by cases w <;> rfl) (by cases w <;> rfl)
  | _ => exact .of_primitive _ rfl rfl

/-! ### Comments -/

theorem Line.skipComment_nil {l : Line} (h : l.rest = []) (n : Nat) : (l.skipComment n).2 = false := by
  cases n with
  | zero => rfl
  | succ n =>
    have ht : l.advance.token? = none := by
      rw [token?_advance_of_rest, h]
      rfl
    unfold skipComment
    simp only [ht]

theorem skipComment_reads : ReadsOn (modify Machine.skipComment : M Unit) := by
  intro m
  show m.ReadsTo m.skipComment
  have hle := Line.rest_skipComment_le (m.line.text.length + 1) m.line
  rw [skipComment_eq]
  refine ⟨Line.capacity_skipComment _ _, hle, fun hm => ⟨?_, ?_⟩, rfl, Nat.le_refl _⟩
  · rw [Line.skipComment_nil hm.rest]
    rfl
  · rw [hm.rest] at hle
    exact List.eq_nil_of_length_eq_zero (Nat.le_zero.1 hle)

theorem skip_reads : ReadsOn (modify fun m => { m with line := m.line.skip } : M Unit) := by
  intro m
  refine ⟨rfl, ?_, fun hm => ⟨hm.comment, m.line.rest_skip⟩, rfl, Nat.le_refl _⟩
  show m.line.skip.rest.length ≤ _
  rw [Line.rest_skip]
  exact Nat.zero_le _

namespace Machine

variable {x y : Machine}

/-- A comment on aligned machines: it ends on both, or the shorter line has ended inside it. -/
theorem Aligned.skipComment (hT : Line.Apart T) (h : Aligned T o q x y) :
    Aligned T o q x.skipComment y.skipComment ∨ T ≠ [] ∧ y.skipComment.Stuck := by
  have hx := Nat.lt_succ_of_le x.line.rest_le_text
  have hy := Nat.lt_succ_of_le y.line.rest_le_text
  rw [skipComment_eq x, skipComment_eq y]
  rcases Line.skipComment_extends hT h.line hx hy with ⟨hend, hl⟩ | ⟨hne, hend⟩
  · refine .inl ⟨?_, hl, h.output⟩
    rw [hend]
    conv => lhs; rw [h.same]
  · exact .inr ⟨hne, by rw [hend]; rfl, Line.rest_skipComment_open hy hend⟩

end Machine

theorem Primitive.run_reads (p : Primitive) : ReadsOn p.run := by
  by_cases hc : p = .defining .comment
  · subst hc
    exact skipComment_reads.bind fun _ => .of_uses (.pure _)
  · by_cases hl : p = .defining .lineComment
    · subst hl
      exact skip_reads.bind fun _ => .of_uses (.pure _)
    · exact (Primitive.aligning (T := []) (o := "") (q := "") nofun hc hl).reads

/-- **A primitive on aligned machines does the same, unless the shorter line has ended.** -/
theorem Primitive.run_aligned (hT : Line.Apart T) {p : Primitive}
    (hp : T = [] ∨ p ≠ .defining .lineComment) {x y : Machine} (h : Aligned T o q x y)
    (hr : (after (p.run x)).output.Room q) :
    AlignedResults T o q (p.run x) (p.run y) ∨
      T ≠ [] ∧ (Missing (p.run y) ∨ (after (p.run y)).Stuck) := by
  by_cases hc : p = .defining .comment
  · subst hc
    rcases h.skipComment hT with hxy | ⟨hne, hst⟩
    · exact .inl ⟨rfl, hxy⟩
    · exact .inr ⟨hne, .inr hst⟩
  · by_cases hl : p = .defining .lineComment
    · subst hl
      obtain rfl : T = [] := hp.resolve_right (absurd rfl)
      have hskip : x.line.skip.Extends [] y.line.skip := by
        unfold Line.Extends
        rw [Line.rest_skip, Line.rest_skip]
        rfl
      exact .inl ⟨rfl, h.setLine hskip⟩
    · rcases (Primitive.aligning hT hc hl).aligned x y h hr with hres | ⟨hne, hmiss⟩
      · exact .inl hres
      · exact .inr ⟨hne, .inl hmiss⟩

/-! ## Steps -/

namespace Machine

variable {x y : Machine}

/-- Two steps came to the same, on aligned machines. -/
def AlignedProgress (T : List Char) (o q : String) : Progress → Progress → Prop
  | .running x, .running y => Aligned T o q x y
  | .ended x, .ended y => Aligned T o q x y
  | .failed e x, .failed f y => e = f ∧ Aligned T o q x y
  | _, _ => False

/-- A word that reads ahead is about to fail for want of something to read. -/
def Lacks (m : Machine) : Prop :=
  ∃ p ∈ m.primitive?, Missing (p.run m)

instance (m : Machine) : Decidable m.Lacks :=
  inferInstanceAs (Decidable (∃ p ∈ m.primitive?, _))

theorem Aligned.progress (h : Aligned T o q x y) {p : Progress} (hl : p.machine.line = x.line)
    (ho : p.machine.output = x.output) (hc : p.machine.inComment = x.inComment) :
    AlignedProgress T o q p (p.alter (·.amid .besideTexts y.surroundings)) := by
  cases p with
  | running m => exact h.carry hl ho hc
  | ended m => exact h.carry hl ho hc
  | failed e m => exact ⟨rfl, h.carry hl ho hc⟩

theorem AlignedResults.eq_alter {rx ry : EStateM.Result Error Machine α}
    (h : AlignedResults T o q rx ry) : Aligned T o q (after rx) (after ry) ∧
      ry = alter (·.amid .besideTexts (after ry).surroundings) rx := by
  rcases h.split with ⟨a, x, y, rfl, rfl, hxy⟩ | ⟨e, x, y, rfl, rfl, hxy⟩
  · exact ⟨hxy, congrArg (EStateM.Result.ok a) hxy.amid.symm⟩
  · exact ⟨hxy, congrArg (EStateM.Result.error e) hxy.amid.symm⟩

/-- How steps on aligned machines may go. -/
theorem AlignedProgress.split {px py : Progress} (h : AlignedProgress T o q px py) :
    (∃ x y, px = .running x ∧ py = .running y ∧ Aligned T o q x y) ∨
      (∃ x y, px = .ended x ∧ py = .ended y ∧ Aligned T o q x y) ∨
      ∃ e x y, px = .failed e x ∧ py = .failed e y ∧ Aligned T o q x y := by
  cases px with
  | running x =>
    cases py with
    | running y => exact .inl ⟨x, y, rfl, rfl, h⟩
    | ended y => exact h.elim
    | failed f y => exact h.elim
  | ended x =>
    cases py with
    | running y => exact h.elim
    | ended y => exact .inr (.inl ⟨x, y, rfl, rfl, h⟩)
    | failed f y => exact h.elim
  | failed e x =>
    cases py with
    | running y => exact h.elim
    | ended y => exact h.elim
    | failed f y => exact .inr (.inr ⟨e, x, y, rfl, by rw [h.1], h.2⟩)

theorem settle_aligned {rx ry : EStateM.Result Error Machine Flow} (h : AlignedResults T o q rx ry) :
    AlignedProgress T o q (settle rx) (settle ry) := by
  obtain ⟨hxy, heq⟩ := h.eq_alter
  have hs := settle_surroundings rx
  rw [heq, settle_amid rfl]
  exact hxy.progress (congrArg Machine.line hs).symm (congrArg Machine.output hs).symm
    (congrArg Machine.inComment hs).symm

/-- A step whose machine does no work of a primitive leaves the line and the output alone. -/
theorem step_of_none (hp : x.primitive? = none) : x.step.machine.line = x.line ∧
    x.step.machine.output = x.output ∧ x.step.machine.inComment = x.inComment := by
  have hK : Parts.engine.Within .engine := .refl _
  have hs := step_surroundings hK fun p h => by rw [hp] at h; cases h
  exact ⟨(congrArg Machine.line hs).symm, (congrArg Machine.output hs).symm,
    (congrArg Machine.inComment hs).symm⟩

theorem step_reads (m : Machine) : m.ReadsTo m.step.machine := by
  cases hp : m.primitive? with
  | none =>
    obtain ⟨hl, ho, hc⟩ := step_of_none hp
    exact .of_eq hl ho hc
  | some p =>
    have hs := step_surroundings_of_primitive hp
    exact (p.run_reads m).trans (.of_eq (congrArg Machine.line hs).symm
      (congrArg Machine.output hs).symm (congrArg Machine.inComment hs).symm)

/-- **A step on aligned machines comes to the same, unless the shorter line has ended.** -/
theorem step_aligned (hT : Line.Apart T) (h : Aligned T o q x y)
    (hr : x.step.machine.output.Room q)
    (hy : T = [] ∨ y.primitive? ≠ some (.defining .lineComment)) :
    AlignedProgress T o q x.step y.step ∨ T ≠ [] ∧ (y.Lacks ∨ y.step.machine.Stuck) := by
  have hsame : y.primitive? = x.primitive? := by
    rw [h.same]
    rfl
  cases hp : x.primitive? with
  | none =>
    obtain ⟨hl, ho, hc⟩ := step_of_none hp
    have hstep : y.step = x.step.alter (·.amid .besideTexts y.surroundings) := by
      have hK : Parts.engine.Within .besideTexts := ⟨id, id, id, id, fun _ => rfl, id, fun _ => rfl⟩
      have hs := step_amid (m := x) (s := y.surroundings) hK fun p hp' => by rw [hp] at hp'; cases hp'
      rwa [h.amid] at hs
    rw [hstep]
    exact .inl (h.progress hl ho hc)
  | some p =>
    have hpy := hsame.trans hp
    have hs := step_surroundings_of_primitive hp
    have hout : x.step.machine.output = (after (p.run x)).output := (congrArg Machine.output hs).symm
    have hroom : (after (p.run x)).output.Room q := hout ▸ hr
    have hlc : T = [] ∨ p ≠ .defining .lineComment :=
      hy.imp_right fun hne heq => hne (heq ▸ hpy)
    rcases p.run_aligned hT hlc h hroom with hres | ⟨hne, hmiss | hst⟩
    · rw [step_of_primitive hp, step_of_primitive hpy]
      exact .inl (settle_aligned hres)
    · exact .inr ⟨hne, .inl ⟨p, hpy, hmiss⟩⟩
    · have hsy := step_surroundings_of_primitive hpy
      exact .inr ⟨hne, .inr ⟨(congrArg Machine.inComment hsy).symm.trans hst.comment,
        (congrArg (fun m => m.line.rest) hsy).symm.trans hst.rest⟩⟩

end Machine
end ThreadedForth
