import Tcos.Tnc.Flush

/-! `add_iptables_user`.

After a flush the program appends its rules one command at a time: a DROP for each port
that is not refused and, unless only ports are to be blocked, an ACCEPT for the loopback
and a DROP for everything outside the interface's network. It counts the commands it
could start, not the rules iptables took. -/
namespace Tcos.Tnc
open Shell (Text lit isLiteral)
open Libc
open Numbered

/-! ### The rules -/

/-- A rule as the program gives it: owner and comment come last. -/
def ownRule (target prot destination : Field) (extra : List Match) (uid : UInt32) : Rule where
  target := some target
  prot := prot
  opt := noOptions
  source := anywhere
  destination := destination
  details := extra ++ [.owner uid, .comment [tag]]

/-- How `--dport` with one port is listed. -/
def dportField (n : Nat) : Field where
  text := lit "dpt:" ++ Nat.toDigits 10 n
  some := by simp
  solid c hc := by
    have hfix : ∀ c ∈ lit "dpt:", isSpace c = false := Shell.each (by with_unfolding_all decide)
    exact (List.mem_append.mp hc).elim (hfix c) fun hc => isSpace_of_isDigit (toDigits_digit _ c hc)

/-- How `! -d` is listed. -/
def Network.outside (net : Network) : Field where
  text := '!' :: net.text
  some := List.cons_ne_nil _ _
  solid c hc := by
    rcases List.mem_cons.mp hc with rfl | hc
    · decide
    · rcases net.chars c hc with h | rfl | rfl
      · exact isSpace_of_isDigit h
      · decide
      · decide

def portRule (n : Nat) : UInt32 → Rule := ownRule drop tcp anywhere [.other [tcp, dportField n]]

def allowRule : UInt32 → Rule := ownRule accept allProtocols loopback []

def blockRule (net : Network) : UInt32 → Rule := ownRule drop allProtocols net.outside []

/-! ### The commands -/

def routeLine (eth : Text) : Text :=
  lit "ip route 2>/dev/null | awk '/kernel/ \x7bif ($3 == \x22" ++ eth ++ lit "\x22) print $1\x7d'"

/-- The end of a command that appends a rule for a user. -/
def ownerTail (user target : Text) : Text :=
  lit " -m owner --uid-owner " ++ user ++ lit " -m comment --comment TCOS_TNC -j " ++ target ++
    lit " 2>/dev/null"

def allowLine (user : Text) : Text :=
  lit "/sbin/iptables -A OUTPUT -d 127.0.0.0/8" ++ ownerTail user (lit "ACCEPT")

def blockLine (dirred user : Text) : Text :=
  lit "/sbin/iptables -A OUTPUT ! -d " ++ dirred ++ ownerTail user (lit "DROP")

/-- What the world does during one call. -/
structure AddCall where
  flush : Call
  routeOpens : Bool
  /-- What the buffer of the network holds before. -/
  routeJunk : Text
  /-- `popen` gave a stream for the command of the port with this index. -/
  portOpens : Nat → Bool
  allowOpens : Bool
  blockOpens : Bool
  /-- iptables takes the rule of the port with this index. -/
  portTakes : Nat → Bool
  allowTakes : Bool
  blockTakes : Bool
  /-- What a command prints that is not read as it was meant, and what it does. -/
  prints : Text → Text
  strays : Text → Chain → Chain

def routeOutput (m : Machine) (call : AddCall) (eth : Text) : Text :=
  if isReadable (routeLine eth) eth then
    ((m.network (m.awk.literal eth)).map fun net => net.text ++ ['\n']).getD []
  else call.prints (routeLine eth)

/-- A command that appends one rule, run on the chain. `readable` says that shell and
iptables read in it what was meant; then the user is looked up, and the rule is taken or
not. -/
def append (m : Machine) (call : AddCall) (user line : Text) (readable takes : Bool)
    (rule : UInt32 → Rule) (c : Chain) : Chain :=
  match readable, m.passwd user with
  | true, some uid => if takes then c ++ [rule uid] else c
  | _, _ => call.strays line c

/-- The port is plain and the shell reads the one command (`portSafe_iff`). -/
def portReadable (token user : Text) : Bool :=
  isPlainPort token && isLiteral user && decide ((dropLine token user).length < bsize)

def appendPort (m : Machine) (call : AddCall) (user : Text) (c : Chain) (port : Text × Nat) : Chain :=
  if call.portOpens port.2 then
    append m call user (dropLine port.1 user) (portReadable port.1 user) (call.portTakes port.2)
      (portRule (Nat.ofDigitChars 10 port.1 0)) c
  else c

def hasPorts (arg3 : Text) : Bool := decide (lit "--ports=" <:+: arg3)

def appendAllow (m : Machine) (call : AddCall) (user : Text) (c : Chain) : Chain :=
  append m call user (allowLine user)
    (isLiteral user && decide ((allowLine user).length < bsize)) call.allowTakes allowRule c

/-- The rule's network is read from the text the route command left. -/
def appendBlock (m : Machine) (call : AddCall) (user dirred : Text) (c : Chain) : Chain :=
  if h : dirred ≠ [] ∧ (∀ c ∈ dirred, c.isDigit = true ∨ c = '.' ∨ c = '/') ∧ dirred.length ≤ 18 then
    append m call user (blockLine dirred user)
      (isLiteral user && decide ((blockLine dirred user).length < bsize)) call.blockTakes
      (blockRule ⟨dirred, h.1, h.2.1, h.2.2⟩) c
  else call.strays (blockLine dirred user) c

def addIptablesUser (m : Machine) (call : AddCall) (arg2 arg3 eth user : Text) (c : Chain) :
    Bool × Chain :=
  let flushed := (flushIptablesUser m call.flush user arg2 c).chain
  if !call.routeOpens then (false, flushed)
  else
    let dirred := readLine call.routeJunk (routeOutput m call eth)
    let ports := (blockedPorts arg3).zipIdx.foldl (appendPort m call user) flushed
    if onlyPorts arg2 = lit "no" then
      if !call.allowOpens then (false, ports)
      else
        let allowed := appendAllow m call user ports
        if !call.blockOpens then (false, allowed)
        else (true, appendBlock m call user dirred allowed)
    else (hasPorts arg3, ports)

/-! ### The own rules are recognized -/

theorem ownRule_tagged (target prot destination : Field) (extra : List Match) (uid : UInt32) :
    (ownRule target prot destination extra uid).tagged = true := by
  simp [Rule.tagged, ownRule]

theorem ownRule_ownedBy (target prot destination : Field) (extra : List Match) (uid : UInt32) :
    (ownRule target prot destination extra uid).ownedBy uid = true := by
  simp [Rule.ownedBy, ownRule]

theorem ownRule_ownerField (target prot destination : Field) (extra : List Match) (uid : UInt32) :
    (ownRule target prot destination extra uid).ownerField = Nat.toDigits 10 uid.toNat := by
  have hfields : (ownRule target prot destination extra uid).fields =
      ([target.text, prot.text, noOptions.text, anywhere.text, destination.text] ++
        extra.flatMap Match.fields ++ [lit "owner", lit "UID", lit "match"]) ++
        [Nat.toDigits 10 uid.toNat, lit "/*", tag.text, lit "*/"] := by
    simp [Rule.fields, ownRule, Match.fields]
  rw [Rule.ownerField, hfields, List.reverse_append]
  rfl

theorem ownRule_protField (target prot destination : Field) (extra : List Match) (uid : UInt32) :
    (ownRule target prot destination extra uid).protField = prot.text := by
  simp [Rule.protField, Rule.fields, ownRule]

end Tcos.Tnc
