/-
  Configurations.

  A configuration is a document of settings.  The sizes of a machine are the
  natural numbers under their names; settings of other names are passed over,
  but have to be well formed.
-/
import ThreadedForth.Config.Document
import ThreadedForth.Params

namespace ThreadedForth.Config

/-- The sizes with a setting of the configuration applied, if it has it. -/
def applySetting (t : Table) (p : Params) (key : String) : Option Params :=
  match t.lookup key with
  | none => some p
  | some (.value (.int n)) => if 0 ≤ n then p.set? key n.toNat else none
  | some _ => none

/-- The sizes that a configuration text gives; `none` if it is not well formed. -/
def parse? (text : String) : Option Params := do
  let t ← document? text
  Params.keys.foldlM (applySetting t) {}

end ThreadedForth.Config
