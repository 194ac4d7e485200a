/-
  What a machine is made with.

  The sizes of its stacks and buffers can be set.  The addresses of its objects
  are up to the allocator, and nothing is known about them.
-/
import ThreadedForth.Value

namespace ThreadedForth

/-- How much the stacks and buffers of a machine hold, and where its objects will be. -/
structure Params where
  dataStack : Nat := 256
  returnStack : Nat := 256
  tempStack : Nat := 256
  selfStack : Nat := 64
  inputBuffer : Nat := 256
  outputBuffer : Nat := 4096
  /-- The addresses that the allocator gives to the objects. -/
  addresses : ObjId → UInt64 := fun o => UInt64.ofNat o.index
deriving Inhabited

namespace Params

/-- The settings by the names under which a configuration gives them. -/
def keys : List String :=
  ["data_stack_elems", "return_stack_elems", "temp_stack_elems", "self_stack_elems",
    "input_buf_elems", "output_buf_elems"]

/-- The sizes with one setting changed; `none` if there is no setting of that name. -/
def set? (p : Params) (key : String) (n : Nat) : Option Params :=
  match key with
  | "data_stack_elems" => some { p with dataStack := n }
  | "return_stack_elems" => some { p with returnStack := n }
  | "temp_stack_elems" => some { p with tempStack := n }
  | "self_stack_elems" => some { p with selfStack := n }
  | "input_buf_elems" => some { p with inputBuffer := n }
  | "output_buf_elems" => some { p with outputBuffer := n }
  | _ => none

/-- Whether stacks and buffers of these sizes can exist: a value takes 32 bytes and an integer
    eight, and no block of memory has 2 ^ 63 bytes. -/
def isAllocatable (p : Params) : Bool :=
  [32 * p.dataStack, 8 * p.returnStack, 32 * p.tempStack, 32 * p.selfStack, p.inputBuffer,
    p.outputBuffer].all (· < Nat.pow 2 63)

end Params
end ThreadedForth
