/-
  The command line.

  The arguments name script files and may set two options: `-c` or `--config`
  with the path of a configuration, and `-t` or `--trace` with a filter for
  traces, of which this program writes none.  The value of a long option may
  stand behind an equals sign, and everything after `--` is a file.
-/
namespace ThreadedForth

/-- The arguments of the program. -/
structure Arguments where
  /-- The scripts, in order. -/
  scripts : List String := []
  /-- The path of the configuration. -/
  config? : Option String := none
deriving DecidableEq, Repr, Inhabited

namespace Arguments

/-- The options, all of which take a value. -/
inductive Key where
  | config | trace
deriving DecidableEq, Repr

/-- The option that a text names. -/
def Key.ofString? (s : String) : Option Key :=
  if s == "-c" || s == "--config" then some .config
  else if s == "-t" || s == "--trace" then some .trace
  else none

/-- The arguments with an option set. -/
def set (a : Arguments) (key : Key) (v : String) : Arguments :=
  match key with
  | .config => { a with config? := some v }
  | .trace => a

/-- The arguments with another script behind those that there are. -/
def addScript (a : Arguments) (path : String) : Arguments :=
  { a with scripts := a.scripts ++ [path] }

/-- An option with its value behind an equals sign. -/
def assigned? (s : String) : Option (Key × String) :=
  let cs := s.toList
  match cs.dropWhile (· != '=') with
  | [] => none
  | _ :: v => (Key.ofString? (String.ofList (cs.takeWhile (· != '=')))).map (·, String.ofList v)

/-- Reads arguments one after the other; `none` if one is an unknown option, or an option has no
    value. -/
def read? (a : Arguments) : List String → Option Arguments
  | [] => some a
  | s :: rest =>
    if s == "--" then some (rest.foldl addScript a)
    else
      match Key.ofString? s, rest with
      | some key, v :: rest => read? (a.set key v) rest
      | some _, [] => none
      | none, rest =>
        match assigned? s with
        | some (key, v) => read? (a.set key v) rest
        | none => if s.startsWith "-" && s != "-" then none else read? (a.addScript s) rest

/-- The arguments that a list of texts gives. -/
def ofList? (texts : List String) : Option Arguments :=
  read? {} texts

end Arguments
end ThreadedForth
