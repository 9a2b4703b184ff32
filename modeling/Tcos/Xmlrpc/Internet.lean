import Tcos.Shell.Landing
import Tcos.Xmlrpc.Whole

/-! The command line between `tcos_tnc` and tcos-net-controller.

One format puts the ports options and the user name into the line of every action. `main` counts
the arguments it gets and has a place for other ones in each of its branches. `agree_iff` says for
which requests the shell hands `main` just the arguments of the branch that was asked for. -/
namespace Tcos.Xmlrpc
open Shell (Text lit command Entry Lands isLastLiteral)
open Libc

/-! ### main of tcos-net-controller.c -/

/-- What `check_user` looks at. -/
structure Caller where
  uid : Nat
  euid : Nat
  groups : List Text

/-- The server. -/
def Caller.root : Caller := ⟨0, 0, []⟩

def checkUser (c : Caller) : Bool :=
  (c.uid == 0 && c.euid == 0) || (c.groups.any (fun g => g = lit "tcos") && c.euid == 0)

/-- The branch that is taken, with the arguments it reads. -/
inductive Branch where
  /-- Returns without a word. -/
  | missing
  | denied
  | disableInternet (onlyports ports iface username : Text)
  | enableInternet (onlyports username : Text)
  | status (username : Text)
  | routeAdd (address netmask iface : Text)
  | routeDel (address netmask iface : Text)
  | ip (iface : Text)
  | usage
  deriving DecidableEq, Repr

def main (c : Caller) (argv : List Text) : Branch :=
  if argv.length < 2 then .missing
  else if checkUser c = false then .denied
  else match argv with
    | [_, action, arg2, arg3, arg4, arg5] =>
      if action = lit "disable-internet" then .disableInternet arg2 arg3 arg4 arg5 else .usage
    | [_, action, arg2, arg3] =>
      if action = lit "enable-internet" then .enableInternet arg2 arg3 else .usage
    | [_, action, arg2] =>
      if action = lit "status" then .status arg2 else if action = lit "ip" then .ip arg2 else .usage
    | [_, action, arg2, arg3, arg4] =>
      if action = lit "route-add" then .routeAdd arg2 arg3 arg4
      else if action = lit "route-del" then .routeDel arg2 arg3 arg4
      else .usage
    | _ => .usage

/-! ### What the server asks for -/

inductive Action where
  | disableInternet
  | enableInternet
  | status
  deriving DecidableEq, Repr

def Action.name : Action → Text
  | .disableInternet => lit "disable-internet"
  | .enableInternet => lit "enable-internet"
  | .status => lit "status"

section Request
variable (b : Build) (e : Env) (user pass : Text) (a : Action) (onlyports ports iface username : Text)

/-- The branch of the action, with what was requested. -/
def Action.branch : Branch :=
  match a with
  | .disableInternet => .disableInternet onlyports ports iface username
  | .enableInternet => .enableInternet onlyports username
  | .status => .status username

/-- The fields of the line before the user name; the branch reads those that are marked. -/
def Action.fields : List (Entry Char) :=
  match a with
  | .disableInternet => [⟨onlyports, true⟩, ⟨ports, true⟩, ⟨iface, true⟩]
  | .enableInternet => [⟨onlyports, true⟩, ⟨ports, false⟩]
  | .status => [⟨onlyports, false⟩, ⟨ports, false⟩]

/-- The line up to its fields. -/
def tncProgram : Text := b.tcosPath ++ lit "/tnc"

def lineStart : Text := tncProgram b ++ lit "  " ++ a.name ++ [' ']

/-- The line as it is formatted. -/
def Action.line : Line :=
  match a with
  | .disableInternet => tncDisable b a.name onlyports ports iface username
  | _ => tncStart b a.name onlyports ports ++ req username

/-- The interface of the line, if the line has one. -/
def Action.Asks : Prop := a = .disableInternet → ifaceRead b e = some iface

/-- The last command that is run calls `main` for the action and with what was requested. -/
structure Reaches (o : Outcome) (line : Line) (argv : List Text) : Prop where
  goes : (Accepted.tnc a.name onlyports ports username).go .c b e user pass = some o
  ran : o.ran.getLast? = some line
  asked : a.Asks b e iface
  args : command line.text = some { args := argv }
  branch : main .root argv = a.branch onlyports ports iface username

/-- The program is reached, and each argument is read where the line has its field. -/
def Agree : Prop := ∃ iface o line argv,
  Reaches b e user pass a onlyports ports iface username o line argv ∧
    Lands id (Shell.Parser.run id {} (lineStart b a)) { args := [tncProgram b, a.name] } ' '
      (a.fields onlyports ports iface) username

/-- The line fits in its buffer, the shell reads the fields of the branch as they stand, and the
fields it has no place for are blank. -/
def Clear : Prop := ∃ iface, a.Asks b e iface ∧
  (a.line b onlyports ports iface username).length < bigBuffer ∧
    (∀ f ∈ a.fields onlyports ports iface, f.sits id = true) ∧ isLastLiteral username = true

/-- The commands before the line. -/
def Action.before : List Line :=
  match a with
  | .disableInternet => [own (networkIface b)]
  | _ => []

end Request

/-! ### A request of the panel -/

end Tcos.Xmlrpc
