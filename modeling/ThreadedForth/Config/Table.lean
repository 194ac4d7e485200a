/-
  Tables of settings.

  A table holds values, tables and lists of tables under keys.  A table comes
  about by a header with its path, by a header further down, or by a dotted
  key.  Each is written once: a header may open a table that was only implied
  so far, and a dotted key may add to tables that have no header of their own.
  A table in braces is a value: nothing is added to it from outside of its
  braces.  Between them dotted keys add to the tables in braces further in.

  * `Table.assign`: a value under a dotted key;
  * `Table.addMember`: the same between braces;
  * `Table.openTable`, `Table.openList`: the headers;
  * `Table.update`: a change at the path of a header.
-/
import ThreadedForth.Config.Scalar

namespace ThreadedForth.Config

/-- How a table came about. -/
inductive Origin where
  /-- By a header with its path. -/
  | header
  /-- By a header further down. -/
  | implied
  /-- By a dotted key. -/
  | dotted
  /-- Between braces. -/
  | braces
deriving DecidableEq, Repr

/-- What stands under a key. -/
inductive Node where
  /-- A value. -/
  | value (v : Setting)
  /-- A table. -/
  | table (origin : Origin) (entries : List (String × Node))
  /-- A list of tables, by the entries of the latest, to which alone can be added. -/
  | tables (entries : List (String × Node))

/-- The entries of a table, each key once. -/
abbrev Table := List (String × Node)

namespace Table

/-- The table in which a key has the given node. -/
def put (t : Table) (key : String) (n : Node) : Table :=
  (key, n) :: t.filter fun e => e.1 != key

/-- The table with a value under a dotted key.  `mayHold` says whether the table itself may take
    it: all tables above it must be without a header, and the last one made by dotted keys. -/
def assign (v : Node) (mayHold : Bool) : List String → Table → Option Table
  | [], _ => none
  | [key], t => if mayHold && (t.lookup key).isNone then some (t.put key v) else none
  | key :: path, t =>
    match t.lookup key with
    | none => (assign v true path []).map fun es => t.put key (.table .dotted es)
    | some (.table .implied es) =>
      (assign v false path es).map fun es => t.put key (.table .implied es)
    | some (.table .dotted es) =>
      (assign v true path es).map fun es => t.put key (.table .dotted es)
    | some (.tables es) => (assign v false path es).map fun es => t.put key (.tables es)
    | some (.table .header _) | some (.table .braces _) | some (.value _) => none

/-- The table in braces with a value under a dotted key. -/
def addMember (v : Node) : List String → Table → Option Table
  | [], _ => none
  | [key], t => if (t.lookup key).isNone then some (t.put key v) else none
  | key :: path, t =>
    match t.lookup key with
    | none => (addMember v path []).map fun es => t.put key (.table .braces es)
    | some (.table .braces es) =>
      (addMember v path es).map fun es => t.put key (.table .braces es)
    | some _ => none

/-- A change inside the table under a key, which is implied if there is none yet. -/
def descend (f : Table → Option Table) (key : String) (t : Table) : Option Table :=
  match t.lookup key with
  | none => (f []).map fun es => t.put key (.table .implied es)
  | some (.table .braces _) | some (.value _) => none
  | some (.table origin es) => (f es).map fun es => t.put key (.table origin es)
  | some (.tables es) => (f es).map fun es => t.put key (.tables es)

/-- The table after the header of a table. -/
def openTable : List String → Table → Option Table
  | [], _ => none
  | [key], t =>
    match t.lookup key with
    | none => some (t.put key (.table .header []))
    | some (.table .implied es) => some (t.put key (.table .header es))
    | some _ => none
  | key :: path, t => descend (openTable path) key t

/-- The table after the header of one more table of a list. -/
def openList : List String → Table → Option Table
  | [], _ => none
  | [key], t =>
    match t.lookup key with
    | none | some (.tables _) => some (t.put key (.tables []))
    | some _ => none
  | key :: path, t => descend (openList path) key t

/-- The table with a change at a path. -/
def update (f : Table → Option Table) : List String → Table → Option Table
  | [], t => f t
  | key :: path, t => descend (update f path) key t

end Table
end ThreadedForth.Config
