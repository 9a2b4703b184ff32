import Tcos.Shell.Parser

/-! `getopt.getopt`: the options of an argument vector.

A long option may be shortened as long as it is the only one. Its value stands behind an equals
sign, or is the next word; `getopt_source` says where the values of an option come from. -/
namespace Tcos.Python
open Shell (Text lit)

/-! ### Long options -/

/-- Name and value, if there is an equals sign. -/
def cutEquals (opt : Text) : Text × Option Text :=
  if '=' ∈ opt then (opt.takeWhile (· != '='), some ((opt.dropWhile (· != '=')).drop 1)) else (opt, none)

/-- Whether a value is needed, and the whole name; `none` for a name that is not known or not the
only one. -/
def longHasArgs (longopts : List Text) (opt : Text) : Option (Bool × Text) :=
  let possibilities := longopts.filter fun o => decide (opt <+: o)
  if possibilities.contains opt then some (false, opt)
  else if possibilities.contains (opt ++ ['=']) then some (true, opt)
  else match possibilities with
    | [m] => some (if m.getLast? = some '=' then (true, m.dropLast) else (false, m))
    | _ => none

/-- What a word is to `getopt`. -/
inductive Reading where
  /-- No option: the options end here. -/
  | stop
  | error
  | options (opts : List (Text × Text))
  /-- The next word is its value. -/
  | awaits (opt : Text)

section Getopt
variable (short : List Char) (longopts : List Text)

/-- Short options take no values. -/
def readWord : Text → Reading
  | '-' :: '-' :: opt =>
    if opt = [] then .stop
    else match longHasArgs longopts (cutEquals opt).1, (cutEquals opt).2 with
      | some (true, name), some v => .options [('-' :: '-' :: name, v)]
      | some (true, name), none => .awaits ('-' :: '-' :: name)
      | some (false, name), none => .options [('-' :: '-' :: name, [])]
      | _, _ => .error
  | '-' :: opt =>
    if opt = [] then .stop
    else if opt.all fun c => c ∈ short then .options (opt.map fun c => (['-', c], []))
    else .error
  | _ => .stop

/-- Options and values, of an option that waits for its value and the words; `none` is an error. -/
def getopt : Option Text → List Text → Option (List (Text × Text))
  | none, [] => some []
  | some _, [] => none
  | some opt, v :: args => (getopt none args).map fun opts => (opt, v) :: opts
  | none, w :: args =>
    match readWord short longopts w with
    | .stop => some []
    | .error => none
    | .options opts => (getopt none args).map fun more => opts ++ more
    | .awaits opt => getopt (some opt) args

end Getopt

end Tcos.Python
