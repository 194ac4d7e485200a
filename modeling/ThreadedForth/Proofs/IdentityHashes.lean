/-
  Machines whose objects are at other addresses.
-/
import ThreadedForth.Proofs.Answers
import ThreadedForth.Proofs.Operands
import ThreadedForth.Proofs.SurroundingSteps

namespace ThreadedForth

variable {α : Type}

/-- All parts of the surroundings but the addresses. -/
def Parts.butAddresses : Parts :=
  { line := true, output := true, interrupt := true, debugger := true, host := true, calls := true }

theorem Parts.Within.butAddresses {J : Parts} (h : J.addresses = false) : J.Within .butAddresses where
  line _ := rfl
  output _ := rfl
  interrupt _ := rfl
  debugger _ := rfl
  host _ := rfl
  calls _ := rfl
  addresses ha := absurd (h.symm.trans ha) Bool.false_ne_true

/-- No other primitive uses the addresses. -/
theorem Primitive.addresses_uses {p : Primitive} (hp : p ≠ .object (.invoke .hash)) :
    p.uses.addresses = false := by
  have hf : ∀ f : Function, p = .object (.invoke f) → (f == .hash) = false :=
    fun f h => beq_eq_false_iff_ne.2 fun he => hp (he ▸ h)
  unfold Primitive.uses
  split <;> first | rfl | exact hf _ rfl

namespace Machine

/-- The machine with its objects at other addresses. -/
def located (m : Machine) (f : ObjId → UInt64) : Machine :=
  { m with addresses := f }

/-- If the next step takes the hash of an object, the object is at the address that `f` gives, or
    its address makes no difference. -/
def HashesAlike (f : ObjId → UInt64) (m : Machine) : Prop :=
  m.primitive? = some (.object (.invoke .hash)) → m.topAddress = (m.located f).topAddress

instance (f : ObjId → UInt64) (m : Machine) : Decidable (m.HashesAlike f) :=
  inferInstanceAs (Decidable (_ → _))

end Machine

/-- A computation that does not use the addresses does the same whatever they are. -/
theorem UsesOnly.located {act : M α} (h : UsesOnly .butAddresses act) (m : Machine)
    (f : ObjId → UInt64) : act (m.located f) = Machine.alter (·.located f) (act m) :=
  h m { m.surroundings with addresses := f }

/-- Such a computation moves no object. -/
theorem UsesOnly.addresses {act : M α} (h : UsesOnly .butAddresses act) (m : Machine) :
    (Machine.after (act m)).addresses = m.addresses := by
  -- The machine is itself with its objects where they are.
  have hm : act m = Machine.alter (·.located m.addresses) (act m) := h.located m m.addresses
  cases hr : act m <;> rw [hr] at hm
  · exact congrArg (fun r => (Machine.after r).addresses) hm
  · exact congrArg (fun r => (Machine.after r).addresses) hm

namespace ObjectWord

/-- The hash of an object is taken where it is at another address. -/
theorem call_hash_located {m : Machine} {f : ObjId → UInt64}
    (h : m.topAddress = (m.located f).topAddress) :
    call .hash (m.located f) = Machine.alter (·.located f) (call .hash m) := by
  cases hd : m.data.items with
  | nil =>
    have hpop : ∀ x : Machine, x.data.items = [] →
        call .hash x = .error (.stackEmpty x.data.kind) x := fun x hx =>
      M.bind_error (by simp only [M.pop, Stack.pop, hx])
    rw [hpop m hd, hpop (m.located f) hd]
    rfl
  | cons v rest =>
    have hd' : (m.located f).data.items = v :: rest := hd
    unfold call
    rw [M.bind_ok (Machine.pop_of_items hd), M.bind_ok (Machine.pop_of_items hd')]
    cases v with
    | obj o =>
      show (if (m.heap.object o).implements .hash then M.onStore (Store.invoke (f o) o .hash) else
          throw _) ((m.withItems rest).located f) =
        Machine.alter (·.located f) ((if (m.heap.object o).implements .hash then
          M.onStore (Store.invoke (m.addresses o) o .hash) else throw _) (m.withItems rest))
      split
      · rw [(M.onStore_uses _).located]
        refine congrArg _ (onStore_hash (m := m.withItems rest) fun ht => ?_)
        have ht : (m.heap.object o).hashesAddress = true := ht
        simp only [Machine.topAddress, Stack.peek?, hd, Machine.located, List.getElem?_cons_zero, ht,
          if_true, Option.some.injEq] at h
        exact h.symm
      · rfl
    | _ => rfl

end ObjectWord

namespace Machine

variable {m : Machine} {f : ObjId → UInt64}

theorem primitive?_located (m : Machine) (f : ObjId → UInt64) :
    (m.located f).primitive? = m.primitive? := rfl

/-- **A step is the same step when the objects are at other addresses**, unless it takes the hash
    of an object by an address that is not the same. -/
theorem step_located (h : m.HashesAlike f) : (m.located f).step = m.step.alter (·.located f) := by
  by_cases hp : m.primitive? = some (.object (.invoke .hash))
  · have hcall : ∀ x : Machine, (Primitive.object (.invoke .hash)).run x =
        thenNext (ObjectWord.call .hash) x := fun _ => rfl
    have hrun : (Primitive.object (.invoke .hash)).run (m.located f) =
        alter (·.located f) ((Primitive.object (.invoke .hash)).run m) := by
      have hc := ObjectWord.call_hash_located (h hp)
      simp only [hcall, thenNext]
      cases hm : ObjectWord.call .hash m with
      | ok _ m₁ =>
        rw [hm] at hc
        rw [M.bind_ok hm, M.bind_ok hc]
        rfl
      | error e m₁ =>
        rw [hm] at hc
        rw [M.bind_error hm, M.bind_error hc]
        rfl
    rw [step_of_primitive hp, step_of_primitive ((primitive?_located m f).trans hp), hrun]
    exact settle_amid (K := .butAddresses) (s := { m.surroundings with addresses := f }) rfl _
  · refine step_amid (K := .butAddresses) (s := { m.surroundings with addresses := f })
      (.butAddresses rfl) fun p hq => .butAddresses (Primitive.addresses_uses ?_)
    rintro rfl
    exact hp hq

/-- What a run comes to where the objects are at other addresses, it comes to anyway. -/
theorem goes_located (h : ∀ n x, Goes n m x → x.HashesAlike f) {n : Nat} {y : Machine}
    (hg : Goes n (m.located f) y) : ∃ x, Goes n m x ∧ y = x.located f := by
  induction n generalizing m with
  | zero =>
    cases hg
    exact ⟨m, .refl m, rfl⟩
  | succ n ih =>
    cases hg with
    | step hs hg =>
      rw [step_located (h 0 m (.refl m))] at hs
      cases hm : m.step with
      | running m₁ =>
        rw [hm] at hs
        cases hs
        obtain ⟨x, hx, rfl⟩ := ih (fun n x hx => h (n + 1) x (.step hm hx)) hg
        exact ⟨x, .step hm hx, rfl⟩
      | ended | failed =>
        rw [hm] at hs
        cases hs

/-! ## Runs and lines -/

/-- **A run is the same run when the objects are at other addresses.** -/
theorem steps_located {fuel : Nat} (h : ∀ x ∈ trail fuel m, x.HashesAlike f) :
    steps fuel (m.located f) = (steps fuel m).map (alter (·.located f)) := by
  induction fuel generalizing m with
  | zero => rfl
  | succ fuel ih =>
    rw [trail] at h
    have hs := step_located (h m List.mem_cons_self)
    simp only [steps]
    cases hm : m.step with
    | running m₁ =>
      rw [hm] at hs h
      rw [hs]
      exact ih fun x hx => h x (List.mem_cons_of_mem _ hx)
    | ended m₁ | failed e m₁ =>
      rw [hm] at hs
      rw [hs]
      rfl

theorem execute_located {fuel : Nat} {w : WordId}
    (h : ∀ x ∈ trail fuel (m.startRun w .outside), x.HashesAlike f) :
    execute fuel w (m.located f) = (execute fuel w m).map (alter (·.located f)) :=
  steps_located h

theorem interpretToken_located {fuel : Nat} {token : String}
    (h : ∀ x ∈ tokenTrail fuel token m, x.HashesAlike f) :
    interpretToken fuel token (m.located f) =
      (interpretToken fuel token m).map (alter (·.located f)) := by
  have hw : (m.located f).wordToRun? token = m.wordToRun? token := rfl
  unfold tokenTrail at h
  rw [interpretToken_eq, interpretToken_eq, hw]
  cases hr : m.wordToRun? token with
  | some w =>
    rw [hr] at h
    exact execute_located h
  | none => exact congrArg some ((compileToken_uses rfl token).located m f)

theorem interpret_located {fuel n : Nat} (h : ∀ x ∈ lineTrail fuel n m, x.HashesAlike f) :
    interpret fuel n (m.located f) = (interpret fuel n m).map (alter (·.located f)) := by
  induction n generalizing m with
  | zero => rfl
  | succ n ih =>
    have hread := (nextSourceToken_uses (K := .butAddresses) rfl rfl).located m f
    rw [interpret_succ, interpret_succ, hread]
    rw [lineTrail] at h
    rcases hs : nextSourceToken m with ⟨_ | t, m₁⟩ | ⟨e, m₁⟩
    · rfl
    · rw [hs] at h
      dsimp only at h
      have ht := interpretToken_located fun x hx => h x (List.mem_append_left _ hx)
      simp only [alter]
      rw [ht]
      cases hr : interpretToken fuel t m₁ with
      | none => rfl
      | some r =>
        cases r with
        | ok _ m₂ =>
          rw [hr] at h
          exact ih fun x hx => h x (List.mem_append_right _ hx)
        | error e m₂ => rfl
    · rfl

theorem closeLine_located (r : EStateM.Result Error Machine Unit) (f : ObjId → UInt64) :
    closeLine (alter (·.located f) r) = alter (·.located f) (closeLine r) := by
  cases r with
  | ok _ m => exact (M.put_uses (K := .butAddresses) rfl m.prompt).located m f
  | error e m => rfl

/-- **A line does the same when the objects are at other addresses.** -/
theorem processLine_located {fuel : Nat}
    (h : ∀ x ∈ lineTrail fuel (m.line.text.length + 2) m, x.HashesAlike f) :
    processLine fuel (m.located f) = (processLine fuel m).map (alter (·.located f)) := by
  have hi := interpret_located h
  rw [processLine_eq, processLine_eq]
  show (interpret fuel (m.line.text.length + 2) (m.located f)).map closeLine = _
  rw [hi, Option.map_map, Option.map_map]
  exact congrArg (fun g => (interpret fuel _ m).map g) (funext fun r => closeLine_located r f)

/-! ## Sessions -/

theorem step_addresses (m : Machine) : m.step.machine.addresses = m.addresses := by
  have hm : m.step = m.step.alter (·.located m.addresses) := step_located fun _ => rfl
  cases hs : m.step <;> rw [hs] at hm
  · exact congrArg (fun s => s.machine.addresses) hm
  · exact congrArg (fun s => s.machine.addresses) hm
  · exact congrArg (fun s => s.machine.addresses) hm

/-- What happens next in a session moves no object. -/
theorem Next.addresses {ph ph' : Phase} {m m' : Machine} (hn : Next ph m ph' m') :
    m'.addresses = m.addresses := by
  have hread : ∀ {r}, nextSourceToken m = r → (after r).addresses = m.addresses := by
    rintro _ rfl
    exact (nextSourceToken_uses (K := .butAddresses) rfl rfl).addresses m
  have hcompile : ∀ {t x r}, compileToken t x = r → (after r).addresses = x.addresses := by
    rintro t x _ rfl
    exact (compileToken_uses (K := .butAddresses) rfl t).addresses x
  have hput : ∀ s x, (after (M.put s x)).addresses = x.addresses :=
    fun s => (M.put_uses (K := .butAddresses) rfl s).addresses
  have hstep : ∀ {s}, m.step = s → s.machine.addresses = m.addresses := by
    rintro _ rfl
    exact step_addresses m
  cases hn with
  | add => rfl
  | interrupt => rfl
  | fill text =>
    unfold Machine.fill
    cases m.line.fill text <;> rfl
  | start => rfl
  | run => rfl
  | token ht _ => exact (hread ht :)
  | compile ht _ hc => exact (hcompile hc).trans (hread ht)
  | badToken ht _ hc => exact (hcompile hc).trans (hread ht)
  | noToken ht => exact (hread ht :)
  | finish ht => exact (hput _ _).trans (hread ht)
  | exhaust => exact hput _ _
  | step hs => exact hstep hs
  | ended hs => exact hstep hs
  | failed hs => exact hstep hs
  | failedLine hs => exact (hstep hs :)

/-- **The objects of a session stay where they are.** -/
theorem Leads.addresses {ph ph' : Phase} {m m' : Machine} (hl : Leads ph m ph' m') :
    m'.addresses = m.addresses := by
  induction hl with
  | refl => rfl
  | tail _ hn ih => exact hn.addresses.trans ih

end Machine
end ThreadedForth
