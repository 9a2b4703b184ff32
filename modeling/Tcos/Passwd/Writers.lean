import Tcos.Passwd.Login
import Tcos.Shell.Argument

/-! The writers of the password file: update-tcospasswd.sh and tcos-standalone.

The script passes the password through unquoted words and `read`, and echoes the line
unquoted; tcos-standalone puts the password into a command line. `logs_in_iff` says for which
user names, passwords and hashes what they write lets the user in. -/
namespace Tcos.Passwd
open Shell
open Libc

/-- What else a run depends on. -/
structure World where
  glob : Glob
  /-- `[ -z … ]` with more words than one after the operator. -/
  manyWords : List Text → Bool
  /-- What is typed at the prompt of `getpass`. -/
  tty : Text
  /-- The directory of the file is missing. -/
  noDir : Text → Bool
  etc : noDir (lit "/etc/tcospasswd") = false
  /-- A command line that is not one command of fixed words: the lines it prints, and
  whether another command than `tcospasswd` runs. -/
  sh : Text → List Text × Bool
  /-- How Python prints a list of lines. -/
  repr : List Text → Text

/-- What is written to which file. -/
structure Written where
  file : Text
  content : Text
  /-- Another command ran. -/
  others : Bool

/-- The key that `tcospasswd` encrypts, called with these arguments. -/
def World.key (w : World) : List Text → Text
  | [key] => key
  | _ => w.tty

/-- The file `tcospasswd` and `tcosxmlrpc` share. -/
def tcospasswdFile : Text := lit "/etc/tcospasswd"

/-! ### The script -/

structure Options where
  arq : Text := []
  username : Text := []
  passwd : Text := []
  fpass : Text := []
  silent : Bool := false
  noencrypted : Bool := false
  secret : Bool := false

/-- The value of `x` after the option's name. -/
def valueOf (option x : Text) : Option Text := if option <+: x then some (x.drop option.length) else none

/-- One round of the option loop. -/
def Options.read (o : Options) (x : Text) : Options :=
  match valueOf (lit "--user=") x with
  | some v => { o with username := v }
  | none =>
  match valueOf (lit "--passwd=") x with
  | some v => { o with passwd := v }
  | none =>
  match valueOf (lit "--arq=") x with
  | some v => { o with arq := v }
  | none =>
  match valueOf (lit "--file=") x with
  | some v => { o with fpass := v }
  | none =>
  if x = lit "--silent" then { o with silent := true }
  else if x = lit "--noencrypted" then { o with noencrypted := true }
  else if x = lit "--tcosmonitor-secret" then { o with secret := true }
  else o

/-- `for x in $@`. -/
def World.options (w : World) (args : List Text) : Options :=
  (args.flatMap w.glob.expand).foldl Options.read {}

/-- `[ -z $value ]`. -/
def World.isEmpty (w : World) (value : Text) : Bool :=
  match w.glob.expand value with
  | [] => true
  | [x] => decide (x = [])
  | xs => w.manyWords xs

/-- The file for the architecture that was typed. -/
def World.fileFor (w : World) (arq : Text) : Option Text :=
  if arq = lit "LTSP" then some (lit "/opt/ltsp/i386/etc/tcospasswd")
  else if arq = lit "PXES" then
    some (unwords (w.glob.expand (lit "/opt/pxes*")) ++ lit "/stock/dist/etc/tcospasswd")
  else if arq = lit "TCOS" then some tcospasswdFile
  else if arq = lit "STANDALONE" then some tcospasswdFile
  else none

/-- What the script knows before it encrypts. -/
structure Asked where
  options : Options
  fpass : Text
  username : Text
  passwd : Text
  /-- What is left to be read. -/
  stdin : Text

/-- The file, if it is not given as an option. -/
def World.askFile (w : World) (o : Options) (stdin : Text) : Option (Text × Text) :=
  if w.isEmpty o.arq && w.isEmpty o.fpass && !o.secret then
    (w.fileFor (readVar stdin).1).map fun file => (file, (readVar stdin).2)
  else some (o.fpass, stdin)

/-- A value, if it is not given as an option. -/
def World.askValue (w : World) (value stdin : Text) : Text × Text :=
  if w.isEmpty value then readVar stdin else (value, stdin)

def World.ask (w : World) (args : List Text) (stdin : Text) : Option Asked :=
  let o := w.options args
  (w.askFile o stdin).map fun (fpass, stdin) =>
    let (username, stdin) := w.askValue o.username stdin
    let (passwd, stdin) := w.askValue o.passwd stdin
    ⟨o, fpass, username, passwd, stdin⟩

/-- The key of `$(make_passwd $_passwd)`, whose body is `$(which tcospasswd) $1`. -/
def World.makePasswd (w : World) (passwd : Text) : Text :=
  w.key (w.glob.expand ((w.glob.expand passwd).headD []))

/-- `echo … > ${_fpass}`; more words than one are an ambiguous redirect. -/
def World.echoTo (w : World) (fpass line : Text) : Option Written :=
  match w.glob.expand fpass with
  | [file] => some ⟨file, line ++ ['\n'], false⟩
  | _ => none

/-- The file `--tcosmonitor-secret` writes. -/
def secretFile : Text := lit "/etc/tcos/secrets/tcosmonitor-secret"

/-- The rest of the script, where `hash` is what `make_passwd` prints. -/
def World.write (w : World) (a : Asked) (hash : Text) : Option Written :=
  if a.options.secret then
    if w.noDir secretFile then none else w.echoTo secretFile (a.username ++ ':' :: a.passwd)
  else
    let passwd := if a.options.noencrypted then a.passwd else hash
    let line := unwords (w.glob.expand (a.username ++ ':' :: passwd))
    if a.options.silent then w.echoTo a.fpass line
    else if w.noDir a.fpass then none
    else if (readVar a.stdin).1 = lit "n" then none
    else w.echoTo a.fpass line

def World.updateTcospasswd (w : World) (crypt : Crypt) (args : List Text) (stdin : Text) :
    Option Written :=
  (w.ask args stdin).bind fun a => w.write a (crypt (w.makePasswd a.passwd)).text

/-! ### tcos-standalone -/

/-- The program that is called. -/
def tcospasswdProgram : Text := lit "/usr/sbin/tcospasswd"

/-- `exe_cmd`: the lines that are printed, without their newlines and without empty ones. -/
def World.exeCmd (w : World) (crypt : Crypt) (cmd : Text) : List Text × Bool :=
  match command cmd with
  | some ⟨[], prog :: args, []⟩ =>
    if prog = tcospasswdProgram then ([(crypt (w.key args)).text], false) else w.sh cmd
  | _ => w.sh cmd

/-- `"%s" %` of what `exe_cmd` returns: a line, or a list of lines. -/
def World.percentS (w : World) : List Text → Text
  | [line] => line
  | lines => w.repr lines

/-- `apply_changes`, where a new password was typed. -/
def World.applyChanges (w : World) (crypt : Crypt) (username password : Text) : Written :=
  let output := w.exeCmd crypt (tcospasswdProgram ++ ' ' :: password)
  ⟨tcospasswdFile, username ++ ':' :: w.percentS output.1 ++ ['\n'], output.2⟩

/-! ### Calls -/

/-- How the script learns the file. -/
inductive Target where
  | option
  | tcos
  | standalone
  deriving DecidableEq

/-- A call of the script: what is given as an option, and what is typed. -/
structure Call where
  target : Target
  userOption : Bool
  passwdOption : Bool
  silent : Bool

def Call.args (c : Call) (u : UserName) (p : Password) : List Text :=
  (if c.userOption then [lit "--user=" ++ u.name] else []) ++
    (if c.passwdOption then [lit "--passwd=" ++ p.text] else []) ++
    (if c.target = .option then [lit "--file=" ++ tcospasswdFile] else []) ++
    (if c.silent then [lit "--silent"] else [])

/-- The line in which the password is typed. -/
def Call.passwdLine (c : Call) (p : Password) : Text := if c.passwdOption then [] else p.text ++ ['\n']

/-- What is typed: the architecture, the user, the password, and what else. -/
def Call.stdin (c : Call) (u : UserName) (p : Password) (rest : Text) : Text :=
  (match c.target with
    | .option => []
    | .tcos => lit "TCOS" ++ ['\n']
    | .standalone => lit "STANDALONE" ++ ['\n']) ++
  ((if c.userOption then [] else u.name ++ ['\n']) ++
  (c.passwdLine p ++ rest))

inductive Writer where
  | script (call : Call)
  | standalone

def Writer.run (crypt : Crypt) (w : World) (u : UserName) (p : Password) (rest : Text) :
    Writer → Option Written
  | .script c => w.updateTcospasswd crypt (c.args u p) (c.stdin u p rest)
  | .standalone => some (w.applyChanges crypt u.name p.text)

/-- The question whether the file is to be written is not answered with `n`. -/
def Writer.Agreed (rest : Text) : Writer → Prop
  | .script c => c.silent = false → (readVar rest).1 ≠ lit "n"
  | .standalone => True

/-- **Whatever else holds, the password file is written so that it lets this user in with this
password, and no other command runs.** -/
def Writer.Sound (hashes : Set Hash) (u : UserName) (p : Password) (x : Writer) : Prop :=
  ∀ crypt : Crypt, (∀ key, crypt key ∈ hashes) → ∀ (w : World) (rest : Text), x.Agreed rest →
    ∃ content, x.run crypt w u p rest = some ⟨tcospasswdFile, content, false⟩ ∧ LogsIn crypt content u p

/-! ### When they are sound -/

/-- The line of the user and the hash is read whole. -/
def Fits (u : UserName) (h : Hash) : Prop := u.name.length + h.text.length + 2 < Xmlrpc.bsize

/-- What passes through the script as it is. -/
structure Call.Keeps (c : Call) (hashes : Set Hash) (u : UserName) (p : Password) : Prop where
  user : ∀ b ∈ u.name, isPattern b = false ∧ (c.userOption = false → b ≠ '\\')
  passwd : ∀ b ∈ p.text, isInert b = true ∧ (c.passwdOption = false → b ≠ '\\')
  hash : ∀ h ∈ hashes, (∀ b ∈ h.text, isPattern b = false) ∧ isSpaced h.text = true ∧ Fits u h

def Writer.Keeps (hashes : Set Hash) (u : UserName) (p : Password) : Writer → Prop
  | .script c => c.Keeps hashes u p
  | .standalone => isLastLiteral p.text = true ∧ ∀ h ∈ hashes, Fits u h

/-! ### Options -/

theorem valueOf_own (option v : Text) : valueOf option (option ++ v) = some v := by
  simp [valueOf]

theorem valueOf_other (option other : Text) (h : ¬ option <+: other ∧ ¬ other <+: option) (v : Text) :
    valueOf option (other ++ v) = none := by
  rw [valueOf, if_neg]
  intro hpre
  rcases List.prefix_or_prefix_of_prefix hpre (List.prefix_append other v) with hp | hp
  · exact h.1 hp
  · exact h.2 hp

theorem read_user (o : Options) (v : Text) : o.read (lit "--user=" ++ v) = { o with username := v } := by
  simp [Options.read, valueOf_own]

theorem read_passwd (o : Options) (v : Text) :
    o.read (lit "--passwd=" ++ v) = { o with passwd := v } := by
  have huser := valueOf_other (lit "--user=") (lit "--passwd=")
    (by with_unfolding_all decide) v
  simp [Options.read, valueOf_own, huser]

theorem read_file (o : Options) (v : Text) : o.read (lit "--file=" ++ v) = { o with fpass := v } := by
  have huser := valueOf_other (lit "--user=") (lit "--file=")
    (by with_unfolding_all decide) v
  have hpasswd := valueOf_other (lit "--passwd=") (lit "--file=")
    (by with_unfolding_all decide) v
  have harq := valueOf_other (lit "--arq=") (lit "--file=")
    (by with_unfolding_all decide) v
  simp [Options.read, valueOf_own, huser, hpasswd, harq]

theorem read_silent (o : Options) : o.read (lit "--silent") = { o with silent := true } := by
  have hnone : valueOf (lit "--user=") (lit "--silent") = none ∧
      valueOf (lit "--passwd=") (lit "--silent") = none ∧ valueOf (lit "--arq=")
      (lit "--silent") = none ∧
      valueOf (lit "--file=") (lit "--silent") = none := by with_unfolding_all decide
  simp [Options.read, hnone]

theorem options_inert (option : Text) {v : Text} (hne : option ≠ [])
    (ho : ∀ c ∈ option, isInert c = true) (hv : ∀ c ∈ v, isInert c = true) (glob : Glob) :
    glob.expand (option ++ v) = [option ++ v] :=
  expand_word glob (by simp [hne]) fun c hc => (List.mem_append.mp hc).elim (ho c) (hv c)

theorem tcospasswdFile_inert : tcospasswdFile ≠ [] ∧ ∀ c ∈ tcospasswdFile, isInert c = true :=
  ⟨by with_unfolding_all decide, each (by with_unfolding_all decide)⟩

/-- The words of a call are its arguments. -/
theorem expand_args (c : Call) {u : UserName} {p : Password} (hu : ∀ b ∈ u.name, isInert b = true)
    (hp : ∀ b ∈ p.text, isInert b = true) (glob : Glob) :
    (c.args u p).flatMap glob.expand = c.args u p := by
  have huser := options_inert (lit "--user=") (by with_unfolding_all decide)
    (each (by with_unfolding_all decide)) hu glob
  have hpasswd := options_inert (lit "--passwd=") (by with_unfolding_all decide)
    (each (by with_unfolding_all decide)) hp glob
  have hfile := options_inert (lit "--file=") (by with_unfolding_all decide)
    (each (by with_unfolding_all decide)) tcospasswdFile_inert.2 glob
  have hsilent := expand_word glob (t := lit "--silent") (by with_unfolding_all decide)
    (each (by with_unfolding_all decide))
  unfold Call.args
  cases c.userOption <;> cases c.passwdOption <;> cases c.silent <;> by_cases ht : c.target = .option <;>
    simp [ht, huser, hpasswd, hfile, hsilent]

theorem options_call (w : World) (c : Call) {u : UserName} {p : Password}
    (hu : ∀ b ∈ u.name, isInert b = true) (hp : ∀ b ∈ p.text, isInert b = true) :
    w.options (c.args u p) =
      { username := if c.userOption then u.name else []
        passwd := if c.passwdOption then p.text else []
        fpass := if c.target = .option then tcospasswdFile else []
        silent := c.silent } := by
  rw [World.options, expand_args c hu hp, Call.args]
  cases c.userOption <;> cases c.passwdOption <;> cases c.silent <;> by_cases ht : c.target = .option <;>
    simp [ht, read_user, read_passwd, read_file, read_silent]

/-! ### What is asked -/

theorem isEmpty_nil (w : World) : w.isEmpty [] = true := rfl

theorem isEmpty_word (w : World) {v : Text} (hne : v ≠ []) (hv : ∀ c ∈ v, isInert c = true) :
    w.isEmpty v = false := by
  simp [World.isEmpty, expand_word w.glob hne hv, hne]

/-- A value, given as an option or typed. -/
def entered (option : Bool) (v rest : Text) : Text × Text :=
  if option then (v, rest) else readVar (v ++ '\n' :: rest)

theorem askValue_entered (w : World) (option : Bool) {v : Text} (hne : v ≠ [])
    (hv : ∀ c ∈ v, isInert c = true) (rest : Text) :
    w.askValue (if option then v else []) ((if option then [] else v ++ ['\n']) ++ rest) =
      entered option v rest := by
  cases option
  · simp [World.askValue, isEmpty_nil, entered]
  · simp [World.askValue, isEmpty_word w hne hv, entered]

theorem askFile_call (w : World) (c : Call) (o : Options) (harq : o.arq = [])
    (hsecret : o.secret = false) (hfile : o.fpass = if c.target = .option then tcospasswdFile else [])
    (s : Text) : w.askFile o ((match c.target with
      | .option => []
      | .tcos => lit "TCOS" ++ ['\n']
      | .standalone => lit "STANDALONE" ++ ['\n']) ++ s) = some (tcospasswdFile, s) := by
  obtain ⟨hne, hinert⟩ := tcospasswdFile_inert
  cases ht : c.target with
  | option =>
    rw [ht] at hfile
    simp [World.askFile, harq, hfile, isEmpty_nil, isEmpty_word w hne hinert]
  | tcos =>
    have hread := readVar_word (t := lit "TCOS") (each (by with_unfolding_all decide)) s
    have hname : lit "TCOS" ≠ lit "LTSP" ∧ lit "TCOS" ≠ lit "PXES" := by with_unfolding_all decide
    rw [ht] at hfile
    simp [World.askFile, harq, hfile, hsecret, isEmpty_nil, hread, World.fileFor, hname]
  | standalone =>
    have hread := readVar_word (t := lit "STANDALONE") (each (by with_unfolding_all decide)) s
    have hname : lit "STANDALONE" ≠ lit "LTSP" ∧ lit "STANDALONE" ≠ lit "PXES" ∧
      lit "STANDALONE" ≠ lit "TCOS" := by with_unfolding_all decide
    rw [ht] at hfile
    simp [World.askFile, harq, hfile, hsecret, isEmpty_nil, hread, World.fileFor, hname]

/-- What the script comes to know in a call. -/
theorem ask_call (w : World) (c : Call) {u : UserName} {p : Password}
    (hu : ∀ b ∈ u.name, isInert b = true) (hp : ∀ b ∈ p.text, isInert b = true) (rest : Text) :
    let user := entered c.userOption u.name (c.passwdLine p ++ rest)
    let passwd := w.askValue (if c.passwdOption then p.text else []) user.2
    w.ask (c.args u p) (c.stdin u p rest) =
      some ⟨w.options (c.args u p), tcospasswdFile, user.1, passwd.1, passwd.2⟩ := by
  have hoptions := options_call w c hu hp
  have hfile := askFile_call w c (w.options (c.args u p)) (by rw [hoptions]) (by rw [hoptions])
    (by rw [hoptions])
  have huser := askValue_entered w c.userOption u.some hu (c.passwdLine p ++ rest)
  simp only [World.ask, Call.stdin, hfile, Option.map_some]
  simp only [hoptions, huser]

end Tcos.Passwd
