import Tcos.Python.Getopt
import Tcos.Shell.Echo
import Tcos.Shell.Landing
import Tcos.Xmlrpc.Whole

/-! The credentials of a vnc request, from the server to D-Bus.

tcos_vnc puts user and password into its command line as one word, vnc-controller.sh hands the word
on as `--auth=`, and tcos-dbus.py cuts it at the colon. `delivered_iff` says for which logins the
pair arrives as it was sent. -/
namespace Tcos.Xmlrpc.Vnc
open Shell (Text lit Sh command isLiteral isLastLiteral isInert isIfs isPattern)
open Python

/-! ### tcos-dbus.py -/

def longopts : List Text :=
  [lit "help", lit "debug", lit "auth=", lit "username=", lit "type=", lit "text="]

/-- The variables that the options set. -/
structure Vars where
  username : Option Text := none
  type : Option Text := none
  text : Option Text := none
  auth : Option (Text × Text) := none

/-- One option; `none` is an exit. -/
def option (st : Vars) (o : Text × Text) : Option Vars :=
  if o.1 = lit "--username" then some { st with username := some o.2 }
  else if o.1 = lit "--type" then some { st with type := some o.2 }
  else if o.1 = lit "--text" then some { st with text := some o.2 }
  else if o.1 = lit "--auth" then
    match o.2.splitOn ':' with
    | [admin, passwd] => some { st with auth := some (admin, passwd) }
    | _ => none
  else some st

/-- The message of `GotSignal`. -/
structure Signal where
  auth : Text × Text
  username : Text
  type : Text
  text : Text
  deriving DecidableEq

def signal (st : Vars) : Option Signal := do
  let username ← st.username
  let type ← st.type
  let text ← st.text
  let auth ← st.auth
  if username ≠ [] ∧ [lit "mess", lit "exec", lit "kill", lit "killall",
    lit "sendfiles"].contains type ∧ text ≠ [] then
    some ⟨auth, username, type, text⟩
  else none

/-- The signal that is sent, if one is. -/
def tcosDbus (argv : List Text) : Option Signal :=
  (getopt ['h', 'd'] longopts none argv).bind fun opts => (opts.foldlM option {}).bind signal

/-! ### vnc-controller.sh -/

/-- Where the standalone server runs. -/
structure Session where
  /-- `STANDALONE_USER`. -/
  standaloneUser : Text
  /-- Empty, or ` -reopen `. -/
  reopen : Text
  /-- `[ -f ... ]`. -/
  isFile : Text → Bool
  some : standaloneUser ≠ []
  named : ∀ c ∈ standaloneUser, isInert c = true ∧ c ≠ ':'

section Controller
variable (S : Session) (sh : Sh)

end Controller

/-! ### Requests -/

/-- A word that stands for itself. -/
abbrev Literal := { t : Text // isLiteral t = true }

/-- The actions that pass the credentials on, with their arguments. -/
inductive Action where
  | startserver (authfile : Literal)
  | startscale (authfile scale : Literal)
  | stopserver
  | startclient (ip authfile : Literal)
  | stopclient

def Action.name : Action → Text
  | .startserver _ => lit "startserver"
  | .startscale .. => lit "startscale"
  | .stopserver => lit "stopserver"
  | .startclient .. => lit "startclient"
  | .stopclient => lit "stopclient"

def Action.words : Action → List Literal
  | .startserver authfile => [authfile]
  | .startscale authfile scale => [authfile, scale]
  | .stopserver => []
  | .startclient ip authfile => [ip, authfile]
  | .stopclient => []

def Action.args (a : Action) : Text := Shell.unwords (a.words.map Subtype.val)

section Delivery
variable (S : Session) (e : Env) (a : Action) (user pass : Text)

def controller : Text := Build.standalone.tcosPath ++ lit "/vnc-controller.sh"

def line : Line := sessionCommand controller a.name a.args user pass

end Delivery

/-! ### The command line -/

section Line
variable {a : Action} {user pass : Text}

end Line

/-! ### The controller -/

section Controller
variable (S : Session) (sh : Sh)

/-- What each run of the handler is to execute. -/
def Action.texts : Action → List Text
  | .startserver authfile =>
    [lit "killall -s KILL " ++ lit "x11vnc",
      lit "x11vnc " ++ (lit " -shared -noshm -forever " ++ S.reopen ++ lit " -rfbauth " ++ authfile.val)]
  | .startscale authfile scale =>
    [lit "killall -s KILL " ++ lit "x11vnc",
      lit "x11vnc " ++ (lit " -shared -noshm -forever " ++ S.reopen ++ lit " -rfbauth " ++
      authfile.val ++
        lit " -scale " ++ scale.val)]
  | .stopserver => [lit "killall -s KILL " ++ lit "x11vnc"]
  | .startclient ip authfile =>
    [lit "xtightvncviewer " ++ ip.val ++ lit " -viewonly -fullscreen -passwd " ++ authfile.val]
  | .stopclient => [lit "killall -s KILL " ++ lit "xtightvncviewer"]

end Controller

/-! ### The handler -/

section Handler
variable {S : Session} {user pass : Text}

end Handler

/-! ### From the server to D-Bus -/

section Delivery
variable {S : Session} {e : Env} {a : Action} {user pass : Text}

end Delivery

end Tcos.Xmlrpc.Vnc
