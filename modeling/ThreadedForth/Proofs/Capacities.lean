/-
  Stacks and buffers never exceed the sizes that their machine was made with.
-/
import ThreadedForth.Host
import ThreadedForth.Proofs.LawfulRuns
import ThreadedForth.Proofs.Locality

namespace ThreadedForth

variable {p : Params} {L : Law} {m : Machine}

/-- A law that lets everything be referred to, and hosts do what they like. -/
structure Law.Lax (L : Law) : Prop where
  callee : ∀ w, L.callee w
  opened : ¬ L.closed

/-- The law that asks for nothing but sizes. -/
def Law.ofSizes (p : Params) : Law where
  callee := fun _ => True
  draft := fun _ _ => True
  closed := False
  faults := True
  sizes := p
  draft_reset := trivial
  draft_interpreting := fun _ => trivial
  draft_pending := fun _ => trivial
  draft_postponed := fun _ => trivial
  draft_compiling := fun _ _ => trivial

theorem Law.lax_ofSizes (p : Params) : (Law.ofSizes p).Lax :=
  ⟨fun _ => trivial, id⟩

namespace Machine

/-- The stacks and the buffers of a machine. -/
structure Containers where
  data : Stack Value
  «return» : Stack Int64
  temp : Stack Value
  self : Stack Value
  line : Line
  output : Output

def containers (m : Machine) : Containers where
  data := m.data
  «return» := m.return
  temp := m.temp
  self := m.self
  line := m.line
  output := m.output

/-! ## The law of sizes -/

theorem Bounded.of_containers {m' : Machine} (hm : m.Bounded p)
    (hc : m'.containers = m.containers) : m'.Bounded p := by
  simp only [containers, Containers.mk.injEq] at hc
  obtain ⟨hdata, hreturn, htemp, hself, hline, houtput⟩ := hc
  exact
    { data := hdata ▸ hm.data
      «return» := hreturn ▸ hm.return
      temp := htemp ▸ hm.temp
      self := hself ▸ hm.self
      line := hline ▸ hm.line
      output := houtput ▸ hm.output }

end Machine

namespace Law.Lax

variable (hL : L.Lax)
include hL

theorem value (v : Value) : v.Obeys L :=
  .of_refs hL.opened fun w _ => hL.callee w

/-- A machine obeys a lax law as soon as it keeps to the sizes and to what may be under
    construction. -/
theorem obeys (hm : m.Bounded L.sizes) (hd : L.draft m.compiler.mode m.compiler.building?) :
    m.Obeys L where
  heap := ⟨fun _ _ => .of_refs hL.opened fun w _ => hL.callee w,
    fun _ _ => .of_refs hL.opened fun w _ => hL.callee w, fun w _ => hL.callee w⟩
  data v _ := hL.value v
  temp v _ := hL.value v
  self v _ := hL.value v
  frames f _ := hL.callee f.word
  runs _ _ := .of_refs hL.opened fun w _ => hL.callee w
  dictionary e _ := hL.callee e.2
  types _ _ := .of_handler hL.opened fun w _ => hL.callee w
  draft := hd
  output hc := absurd hc hL.opened
  bounded := hm

theorem allowed {q : Primitive} (hd : ∀ mode b?, L.draft mode b?) (hf : L.faults) :
    q.Allowed L m :=
  ⟨fun _ _ => hd _ _, fun _ => ⟨fun b _ => hL.callee b, fun _ => hd _ _⟩, fun _ => hf⟩

end Law.Lax

namespace Machine

theorem Bounded.obeys (hm : m.Bounded p) : m.Obeys (.ofSizes p) :=
  (Law.lax_ofSizes p).obeys hm trivial

/-! ## Machines in the hands of a host -/

/-- What a machine of given sizes comes to in the hands of a host. -/
inductive Hosted (p : Params) : Phase → Machine → Prop
  | create (bs : List Builtin) : Hosted p .rest (create p bs)
  /-- A session goes on: words are added and run, lines are put in and processed. -/
  | next {ph ph' : Phase} {m m' : Machine} (h : Hosted p ph m) (hn : Next ph m ph' m') :
    Hosted p ph' m'
  /-- Any word is run from outside. -/
  | execute {m : Machine} (h : Hosted p .rest m) (w : WordId) :
    Hosted p (.word none) (m.startRun w .outside)
  /-- A text is put into the line. -/
  | fill {ph : Phase} {m : Machine} (h : Hosted p ph m) (text : String) :
    Hosted p ph (after (fill text m))
  /-- A value is put on a stack. -/
  | push {ph : Phase} {m : Machine} (h : Hosted p ph m) (k : StackKind) (v : Value) :
    Hosted p ph (after (Host.push k v m))
  /-- A text is written to the output. -/
  | write {ph : Phase} {m : Machine} (h : Hosted p ph m) (text : String) :
    Hosted p ph (after (M.put text m))
  /-- The output is taken. -/
  | take {ph : Phase} {m : Machine} (h : Hosted p ph m) :
    Hosted p ph { m with output := m.output.clear }
  /-- Anything else is changed. -/
  | change {ph : Phase} {m m' : Machine} (h : Hosted p ph m)
    (hc : m'.containers = m.containers) : Hosted p ph m'

theorem push_lawful (k : StackKind) {v : Value} (hv : v.Obeys L) :
    Lawful L m (Host.push k v) := by
  cases k with
  | data => exact M.push_lawful hv
  | temp => exact StackWord.pushSide_lawful .temp hv
  | self => exact StackWord.pushSide_lawful .self hv
  | «return» =>
    exact (M.lift_lawful Value.toInt_keeping).bind fun _ _ _ => M.pushReturn_lawful _

theorem startRun_containers (m : Machine) (w : WordId) (q : Pending) :
    (m.startRun w q).containers = m.containers := rfl

theorem installAll_containers (m : Machine) (bs : List Builtin) :
    (m.installAll bs).containers = m.containers := by
  unfold installAll
  induction bs generalizing m with
  | nil => rfl
  | cons b bs ih => exact ih _

/-- The sizes are kept by whatever happens next. -/
theorem Bounded.next {ph ph' : Phase} {m' : Machine} (hm : m.Bounded p)
    (hn : Next ph m ph' m') : m'.Bounded p := by
  by_cases hph : ph = .rest
  · subst hph
    cases hn with
    | add b => exact hm.of_containers (installAll_containers m [b])
    | interrupt => exact hm.of_containers rfl
    | fill text => exact (hm.obeys.fill text).bounded
    | start => exact hm
    | run => exact hm.of_containers (startRun_containers m _ _)
  · exact (hm.obeys.goesOn hph hn fun _ _ _ _ =>
      (Law.lax_ofSizes p).allowed (fun _ _ => trivial) trivial).bounded

/-- The sizes are kept in the hands of any host. -/
theorem Hosted.bounded {ph : Phase} (h : Hosted p ph m) : m.Bounded p := by
  induction h with
  | create bs =>
    exact (create_obeys (L := .ofSizes p) (fun _ => trivial)
      fun b _ => ⟨False.elim, False.elim⟩).bounded
  | next _ hn ih => exact ih.next hn
  | execute _ w ih => exact ih.of_containers (startRun_containers _ w _)
  | fill _ text ih => exact (ih.obeys.fill text).bounded
  | push _ k v ih => exact ((push_lawful k ((Law.lax_ofSizes p).value v)).obeys ih.obeys).bounded
  | write _ text ih => exact (ih.obeys.put False.elim).bounded
  | take _ ih => exact ih.obeys.takeOutput.bounded
  | change _ hc ih => exact ih.of_containers hc

/-- A whole line, whether it succeeds or fails. -/
theorem Hosted.processLine {fuel : Nat} {r : EStateM.Result Error Machine Unit}
    (h : Hosted p .rest m) (hr : processLine fuel m = some r) : Hosted p .rest (after r) :=
  (processLine_inside (fun hx _ hn => hx.next hn) (h.next .start) hr).1

/-! ## Pushes that fail -/

theorem push_error_same {k : StackKind} {v : Value} {e : Error} {m' : Machine}
    (h : Host.push k v m = .error e m') : m' = m := by
  cases k with
  | data =>
    unfold Host.push M.push at h
    dsimp only at h
    split at h
    · cases h
    · cases h
      rfl
  | temp | self =>
    unfold Host.push StackWord.pushSide at h
    dsimp only at h
    split at h
    · cases h
    · cases h
      rfl
  | «return» =>
    have h : (M.lift v.toInt >>= M.pushReturn) m = .error e m' := h
    cases hv : v.toInt with
    | error e' =>
      rw [hv] at h
      cases h
      rfl
    | ok n =>
      have hl : M.lift (.ok n) m = .ok n m := rfl
      rw [hv, M.bind_ok hl] at h
      unfold M.pushReturn at h
      split at h
      · cases h
      · cases h
        rfl

theorem put_error_same {s : String} {e : Error} {m' : Machine} (h : M.put s m = .error e m') :
    m' = m := by
  unfold M.put at h
  split at h
  · cases h
  · cases h
    rfl

theorem putByte_error_same {b : UInt8} {e : Error} {m' : Machine} (h : putByte b m = .error e m') :
    m' = m := by
  unfold putByte at h
  split at h
  · cases h
  · cases h
    rfl

end Machine

/-- The pieces before the one that does not fit have been written, and that one has not. -/
theorem Output.write_refused {o : Output} {ps : List String} (h : (o.write ps).2 = false) :
    ∃ done piece rest, ps = done ++ piece :: rest ∧
      (o.write ps).1 = { o with text := o.text ++ String.join done } ∧
      (o.write ps).1.push piece = .error .outputFull := by
  induction ps generalizing o with
  | nil => cases h
  | cons p ps ih =>
    unfold Output.write at h ⊢
    cases hp : o.push p with
    | error e =>
      refine ⟨[], p, ps, rfl, by simp, ?_⟩
      unfold Output.push at hp ⊢
      split at hp
      · cases hp
      · rename_i hlt
        exact if_neg hlt
    | ok o' =>
      rw [hp] at h
      obtain ⟨done, piece, rest, rfl, hw, hpush⟩ := ih h
      obtain ⟨rfl, -⟩ := Output.push_eq_ok hp
      refine ⟨p :: done, piece, rest, rfl, ?_, hpush⟩
      rw [hw]
      simp [String.append_assoc]

namespace Machine

theorem write_error {ps : List String} {e : Error} {m' : Machine} (h : M.write ps m = .error e m') :
    ∃ done piece rest, ps = done ++ piece :: rest ∧
      m' = { m with output := { m.output with text := m.output.text ++ String.join done } } ∧
      m'.output.push piece = .error .outputFull := by
  rw [M.write_eq] at h
  cases hw : (m.output.write ps).2 with
  | true =>
    rw [hw] at h
    cases h
  | false =>
    rw [hw] at h
    cases h
    obtain ⟨done, piece, rest, hps, ho, hpush⟩ := Output.write_refused hw
    exact ⟨done, piece, rest, hps, by rw [ho], hpush⟩

end Machine

theorem Stack.Within.ensureRoom_iff {α : Type} {s : Stack α} {n : Nat} (hs : s.Within n) (k : Nat) :
    s.ensureRoom k = .ok () ↔ s.depth + k ≤ n := by
  have hfits : s.depth ≤ s.capacity := hs.fits
  have hcap := hs.capacity
  unfold Stack.ensureRoom
  split <;> simp <;> omega

namespace Machine

/-- **No stack and no buffer ever exceeds its size**, whatever a host and its programs do and
    wherever they fail.  Hence the room that is left is never negative, and a check for room tells
    whether so many more items fit.  A push that fails leaves its stack or the output as it was; of a
    text that is written in pieces, the pieces before the one that does not fit have been
    written. -/
theorem capacities_never_exceeded {ph : Phase} (h : Hosted p ph m) :
    (m.data.depth ≤ p.dataStack ∧ m.return.depth ≤ p.returnStack ∧
      m.temp.depth ≤ p.tempStack ∧ m.self.depth ≤ p.selfStack) ∧
    (∀ k, (m.data.ensureRoom k = .ok () ↔ m.data.depth + k ≤ p.dataStack) ∧
      (m.return.ensureRoom k = .ok () ↔ m.return.depth + k ≤ p.returnStack) ∧
      (m.temp.ensureRoom k = .ok () ↔ m.temp.depth + k ≤ p.tempStack) ∧
      (m.self.ensureRoom k = .ok () ↔ m.self.depth + k ≤ p.selfStack)) ∧
    m.output.text.utf8ByteSize ≤ p.outputBuffer ∧
    (∀ c ∈ m.line.text, isAscii c = true) ∧ Utf8.size m.line.text ≤ p.inputBuffer ∧
    m.line.cursor ≤ m.line.text.length ∧
    (∀ s, m.line.held = some s → s.start + s.length ≤ m.line.text.length) ∧
    (∀ k v e m', Host.push k v m = .error e m' → m' = m) ∧
    (∀ s e m', M.put s m = .error e m' → m' = m) ∧
    (∀ b e m', putByte b m = .error e m' → m' = m) ∧
    (∀ ps e m', M.write ps m = .error e m' → ∃ done piece rest, ps = done ++ piece :: rest ∧
      m' = { m with output := { m.output with text := m.output.text ++ String.join done } } ∧
      m'.output.push piece = .error .outputFull) := by
  have hb := h.bounded
  have hline := hb.line.wellFormed
  refine ⟨⟨?_, ?_, ?_, ?_⟩, fun k => ⟨hb.data.ensureRoom_iff k, hb.return.ensureRoom_iff k,
    hb.temp.ensureRoom_iff k, hb.self.ensureRoom_iff k⟩, ?_, hline.ascii, ?_, hline.cursor_le,
    hline.held_le, fun _ _ _ _ => push_error_same, fun _ _ _ => put_error_same,
    fun _ _ _ => putByte_error_same, fun _ _ _ => write_error⟩
  · exact hb.data.capacity ▸ hb.data.fits
  · exact hb.return.capacity ▸ hb.return.fits
  · exact hb.temp.capacity ▸ hb.temp.fits
  · exact hb.self.capacity ▸ hb.self.fits
  · exact hb.output.capacity ▸ hb.output.fits
  · rw [Utf8.size_of_ascii hline.ascii]
    exact hb.line.capacity ▸ hline.fits

/-- A machine with room for two values, on which a host has put one before a line put another. -/
def crowded : Machine :=
  afterLine "5" (after (Host.push .data (.char 65) (ofNames { dataStack := 2, outputBuffer := 5 } [])))

/-- The stack is full and the output nearly so. -/
theorem capacities_never_exceeded_of_crowded :
    Hosted { dataStack := 2, outputBuffer := 5 } .rest crowded ∧ crowded.data.depth = 2 ∧
      crowded.output.text = "ok.\n" ∧ ¬ crowded.data.ensureRoom 1 = .ok () ∧
      ∀ v e m', Host.push .data v crowded = .error e m' → m' = crowded := by
  have hm : Hosted { dataStack := 2, outputBuffer := 5 } .rest
      (after (Host.push .data (.char 65) (ofNames { dataStack := 2, outputBuffer := 5 } []))) :=
    (Hosted.create _).push .data (.char 65)
  have hr : (Machine.processLine 64 (after (Machine.fill "5" (after (Host.push .data (.char 65)
      (ofNames { dataStack := 2, outputBuffer := 5 } [])))))).isSome = true := by
    rw [ofNames_nil]
    decide +kernel
  obtain ⟨r, hr⟩ := Option.isSome_iff_exists.1 hr
  have hc : Hosted { dataStack := 2, outputBuffer := 5 } .rest crowded := by
    rw [crowded, afterLine, hr]
    exact (hm.fill "5").processLine hr
  have hspec : crowded.data.depth = 2 ∧ crowded.output.text = "ok.\n" := by
    rw [crowded, ofNames_nil]
    decide +kernel
  obtain ⟨hdepth, hout⟩ := hspec
  have h := capacities_never_exceeded hc
  refine ⟨hc, hdepth, hout, fun hroom => ?_, fun v => h.2.2.2.2.2.2.2.1 .data v⟩
  have := ((h.2.1 1).1).1 hroom
  rw [hdepth] at this
  exact absurd this (by decide)

end Machine
end ThreadedForth
