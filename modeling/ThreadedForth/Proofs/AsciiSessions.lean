/-
  Texts stay ASCII in a session whose input is lines.
-/
import ThreadedForth.Proofs.LawfulRuns
import ThreadedForth.Proofs.Locality

namespace ThreadedForth

variable {L : Law} {F : Prop} {p : Params} {m : Machine}

/-- The law of machines without a host. -/
def Law.ofLines (p : Params) (F : Prop) : Law where
  callee := fun _ => True
  draft := fun _ _ => True
  closed := True
  faults := F
  sizes := p
  draft_reset := trivial
  draft_interpreting := fun _ => trivial
  draft_pending := fun _ => trivial
  draft_postponed := fun _ => trivial
  draft_compiling := fun _ _ => trivial

theorem Law.allowed_ofLines {q : Primitive} (hF : q.Exceeds m → F) :
    q.Allowed (.ofLines p F) m :=
  ⟨fun _ _ => trivial, fun _ => ⟨fun _ _ => trivial, fun _ => trivial⟩, hF⟩

namespace Machine

/-! ## Sessions of lines -/

/-- What comes of a machine with primitive words of its own, every one of them or some, when lines
    are all that is put in. -/
inductive Typed (p : Params) : Phase → Machine → Prop
  | create {bs : List Builtin} (hbs : ∀ b ∈ bs, b ∈ Builtin.all) : Typed p .rest (create p bs)
  /-- A line is put in. -/
  | enter {m : Machine} (h : Typed p .rest m) (text : String) :
    Typed p .rest (after (fill text m))
  /-- The line is processed. -/
  | start {m : Machine} (h : Typed p .rest m) : Typed p (.line (m.line.text.length + 2)) m
  /-- The line goes on. -/
  | next {ph ph' : Phase} {m m' : Machine} (h : Typed p ph m) (hph : ph ≠ .rest)
    (hn : Next ph m ph' m') : Typed p ph' m'
  /-- The output is taken. -/
  | take {m : Machine} (h : Typed p .rest m) : Typed p .rest { m with output := m.output.clear }
  /-- An interrupt is asked for. -/
  | interrupt {m : Machine} (h : Typed p .rest m) : Typed p .rest { m with interrupt := true }

/-- The primitive words of a machine without a host have ASCII names. -/
theorem builtins_closed {bs : List Builtin} (hbs : ∀ b ∈ bs, b ∈ Builtin.all) :
    ∀ b ∈ bs, L.Text b.name ∧ (L.closed → b.word.isHost = false) := by
  have hall : ∀ b ∈ Builtin.all, AsciiText b.name ∧ b.word.isHost = false := by decide +kernel
  exact fun b hb => ⟨.of_ascii (hall b (hbs b hb)).1, fun _ => (hall b (hbs b hb)).2⟩

theorem Typed.obeys {ph : Phase} (h : Typed p ph m) : m.Obeys (.ofLines p F) := by
  have hm : m.Obeys (.ofLines p True) := by
    induction h with
    | create hbs => exact create_obeys (L := .ofLines p True) (fun _ => trivial) (builtins_closed hbs)
    | enter _ text ih => exact ih.fill text
    | start _ ih => exact ih
    | next _ hph hn ih =>
      exact ih.goesOn hph hn fun _ _ _ _ => Law.allowed_ofLines fun _ => trivial
    | take _ ih => exact ih.takeOutput
    | interrupt _ ih => exact { ih with bounded := { ih.bounded with } }
  have hL : (Law.ofLines p F).Weakens (.ofLines p True) := ⟨fun _ h => h, fun _ => trivial, rfl⟩
  exact hm.mono hL trivial

/-! ## Everything stored -/

/-- A machine without any character or text that is not ASCII. -/
structure AllAscii (m : Machine) : Prop where
  chars : ∀ c, m.Occurs (.char c) → c < 128
  strings : ∀ s, .text s ∈ m.heap.objects → AsciiText s
  words : ∀ w ∈ m.heap.words, AsciiText w.name.text
  types : ∀ e, (e ∈ m.types.values ∨ e ∈ m.types.objects ∨ e ∈ m.types.users) → AsciiText e.name
  declarations : ∀ e d h, e ∈ m.types.users → e.sort = .user d h →
    AsciiText d.name ∧ ∀ f ∈ d.fields, AsciiText f
  records : ∀ t d items v, .record t d items v ∈ m.heap.objects →
    AsciiText d.name ∧ ∀ f ∈ d.fields, AsciiText f
  output : AsciiText m.output.text

theorem Obeys.allAscii (hm : m.Obeys L) (hc : L.closed) : m.AllAscii where
  chars _ h := hm.occurs h hc
  strings _ h := hm.heap.objects _ h hc
  words w h := (hm.heap.words w h).name hc
  types e h := (hm.types e h).name hc
  declarations e d h he hs :=
    have hd := (hm.types e (.inr (.inr he))).declaration d h hs
    ⟨hd.name hc, fun f hf => hd.fields f hf hc⟩
  records _ _ _ _ h :=
    have hd := (hm.heap.objects _ h).1
    ⟨hd.name hc, fun f hf => hd.fields f hf hc⟩
  output := hm.output hc

/-! ## Strings and faults -/

theorem AllAscii.slice {s : String} (hs : AsciiText s) {i j : Nat} (hi : i ≤ j)
    (hj : j ≤ s.utf8ByteSize) : (Utf8.slice? i j s.toList).isSome = true := by
  rw [Utf8.slice?_ascii hs hi (hs.utf8ByteSize ▸ hj)]
  rfl

theorem AllAscii.splice {s : String} (hs : AsciiText s) {i : Nat} (c : Char)
    (hi : i < s.utf8ByteSize) : (Utf8.splice? i (i + 1) [c] s.toList).isSome = true := by
  have hlen := hs.utf8ByteSize
  rw [Utf8.splice?_ascii [c] hs (Nat.le_succ i) (by omega)]
  rfl

/-- A closed machine on which nothing asks for too many slots has no faults. -/
theorem Obeys.noFault {e : Error} (he : e.Obeys (.ofLines p False))
    (f : NativeFault) : e ≠ .nativeFault f :=
  fun h => (he trivial f h).2

/-- A line without a host has a fault only at a word that asks for too many slots. -/
theorem Typed.fault_of_failsAt {ph : Phase} (h : Typed p ph m) {f : NativeFault}
    (hf : FailsAt ph m (.nativeFault f)) :
    f = .allocation ∧ ∃ left? q, ph = .word left? ∧ m.primitive? = some q ∧ q.Exceeds m := by
  have hm : m.Obeys (.ofLines p (∃ left? q, ph = .word left? ∧ m.primitive? = some q ∧ q.Exceeds m)) :=
    h.obeys
  exact hm.failsAt hf (fun left? hph q hq => Law.allowed_ofLines fun hx => ⟨left?, q, hph, hq, hx⟩)
    trivial f rfl

/-- A whole line, whether it succeeds or fails. -/
theorem Typed.processLine {fuel : Nat} {r : EStateM.Result Error Machine Unit}
    (h : Typed p .rest m) (hr : processLine fuel m = some r) : Typed p .rest (after r) :=
  (processLine_inside (fun hx => hx.next) h.start hr).1

/-- **Texts stay ASCII and faults stay out** of a session in which lines are all that is put in.
    Every character, every string, every name and the output are ASCII at every moment.  Hence every
    part of a string can be cut out and every character of it replaced, no function of an object
    has a fault, and a line ends with a fault only if on the way one of its words asked for more
    slots than a body or an array can have. -/
theorem texts_stay_ascii {ph : Phase} (h : Typed p ph m) :
    m.AllAscii ∧
    (∀ s, .text s ∈ m.heap.objects →
      (∀ i j, i ≤ j → j ≤ s.utf8ByteSize → (Utf8.slice? i j s.toList).isSome = true) ∧
      ∀ i c, i < s.utf8ByteSize → (Utf8.splice? i (i + 1) [c] s.toList).isSome = true) ∧
    (∀ address o f e m', M.onStore (Store.invoke address o f) m = .error e m' →
      ∀ fault, e ≠ .nativeFault fault) ∧
    (ph = .rest → ∀ fuel fault m', processLine fuel m = some (.error (.nativeFault fault) m') →
      fault = .allocation ∧ ∃ n x q y, Leads (.line (m.line.text.length + 2)) m (.word (some n)) x ∧
        x.primitive? = some q ∧ q.Exceeds x ∧
          x.step = .failed (.nativeFault .allocation) y) := by
  have hascii := (h.obeys (F := True)).allAscii trivial
  refine ⟨hascii, fun s hs => ⟨fun i j => AllAscii.slice (hascii.strings s hs),
    fun i c => AllAscii.splice (hascii.strings s hs) c⟩, fun _ o f e m' he => ?_,
    fun hph fuel fault m' hr => ?_⟩
  · exact Obeys.noFault ((Store.invoke_lawful o f).of_error h.obeys he).2
  · subst hph
    have hS : ∀ {ph ph' x x'}, Typed p ph x ∧ Leads (.line (m.line.text.length + 2)) m ph x →
        ph ≠ .rest → Next ph x ph' x' →
        Typed p ph' x' ∧ Leads (.line (m.line.text.length + 2)) m ph' x' :=
      fun hx hph hn => ⟨hx.1.next hph hn, hx.2.tail hn⟩
    obtain ⟨ph, x, hx, hf⟩ := (processLine_inside hS ⟨h.start, .refl _ _⟩ hr).2 _ _ rfl
    obtain ⟨rfl, left?, q, rfl, hq, hex⟩ := hx.1.fault_of_failsAt hf
    cases hf with
    | step hs => exact ⟨rfl, _, x, q, _, hx.2, hq, hex, hs⟩

theorem Typed.ofNames (p : Params) (names : List String) : Typed p .rest (ofNames p names) :=
  .create fun _ hb => List.mem_of_mem_filter hb

/-- The fault that a line ends with. -/
def fault? (r : Option (EStateM.Result Error Machine Unit)) : Option NativeFault :=
  match r with
  | some (.error (.nativeFault f) _) => some f
  | _ => none

theorem of_fault? {r : Option (EStateM.Result Error Machine Unit)} {f : NativeFault}
    (h : fault? r = some f) : ∃ m', r = some (.error (.nativeFault f) m') := by
  unfold fault? at h
  split at h
  · cases h
    exact ⟨_, rfl⟩
  · cases h

/-- A machine with a string, which is about to ask for a very large array. -/
def greedy : Machine :=
  after (fill "9223372036854775807 array new" (afterLine "s\x22 ab\x22" (ofNames {} ["s\x22", "new"])))

theorem ofNames_greedy : ofNames {} ["s\x22", "new"] = stocked {} (supply
    [⟨"s\x22", .defining .string, true⟩, ⟨"new", .object .new, false⟩]) :=
  ofNames_eq _ _ (by decide) (by decide)

/-- The string can be cut, and the fault of the line is that of the array. -/
theorem texts_stay_ascii_of_greedy :
    Typed {} .rest greedy ∧ .text "ab" ∈ greedy.heap.objects ∧
      (Utf8.slice? 1 2 "ab".toList).isSome = true ∧
      ∃ m', Machine.processLine 64 greedy = some (.error (.nativeFault .allocation) m') ∧
        ∃ n x q, Leads (.line (greedy.line.text.length + 2)) greedy (.word (some n)) x ∧
          x.primitive? = some q ∧ q.Exceeds x := by
  have hm : Typed {} .rest (ofNames {} ["s\x22", "new"]) := .ofNames _ _
  have hs : (Machine.processLine 64 (after (fill "s\x22 ab\x22"
      (ofNames {} ["s\x22", "new"])))).isSome = true := by
    rw [ofNames_greedy]
    decide +kernel
  obtain ⟨r, hr⟩ := Option.isSome_iff_exists.1 hs
  have hg : Typed {} .rest greedy := by
    rw [greedy, afterLine, hr]
    exact ((hm.enter _).processLine hr).enter _
  have hspec : Obj.text "ab" ∈ greedy.heap.objects ∧
      fault? (Machine.processLine 64 greedy) = some .allocation := by
    rw [greedy, ofNames_greedy]
    decide +kernel
  obtain ⟨htext, hfault⟩ := hspec
  obtain ⟨m', hr⟩ := of_fault? hfault
  have h := texts_stay_ascii hg
  obtain ⟨-, n, x, q, y, hl, hq, hx, -⟩ := h.2.2.2 rfl _ _ _ hr
  exact ⟨hg, htext, (h.2.1 _ htext).1 1 2 (by decide) (by decide), m', hr, n, x, q, hl, hq, hx⟩

end Machine
end ThreadedForth
