import Tcos.Libc.Numbers
import Tcos.Libc.Text
import Tcos.Shell.Argument

/-! The port list of tcos-net-controller.c.

`add_iptables_user` cuts the text behind `--ports=` at its commas and blocks each
port that `check_port` lets pass. `check_port` reads a port with `atoi`; what goes
into the command is the text it read, and the shell and iptables read that text their
own way. `ports_safe_iff` says for which lists the three readings agree. -/
namespace Tcos.Tnc
open Shell (Text lit Simple Parser isLiteral command)
open Libc

/-- `BSIZE`, the size of the command and line buffers. -/
def bsize : Nat := 1024

/-- `sprintf` into such a buffer; `none` if it writes past the end. -/
def sprintf (s : Text) : Option Text := if s.length < bsize then some s else none

/-- `BLACKLIST_PORTS`. -/
def blacklistPorts : Text := lit "8998,8999"

/-- `check_port`: the port is refused. -/
def checkPort (port : Text) : Bool :=
  if atoi port > 65535 ∨ atoi port < 1 then true
  else (split (· == ',') blacklistPorts).any fun token => atoi port == atoi token

/-- The ports of `--ports=`: the argument holds the option anywhere, and its first
eight bytes are left out. -/
def portTokens (arg3 : Text) : List Text :=
  if lit "--ports=" <:+: arg3 then split (· == ',') (arg3.drop 8) else []

/-- The command that blocks a port, before it is put in its buffer. -/
def dropLine (token user : Text) : Text :=
  lit "/sbin/iptables -A OUTPUT -p tcp --dport " ++ token ++ lit " -m owner --uid-owner " ++ user ++
    lit " -m comment --comment TCOS_TNC -j DROP 2>/dev/null"

def dropCommand (token user : Text) : Option Text := sprintf (dropLine token user)

/-- The ports that are not refused, each given to `popen` in a command of its own. -/
def blockedPorts (arg3 : Text) : List Text := (portTokens arg3).filter fun t => !checkPort t

/-! ### How iptables reads a port -/

/-- What is used of iptables: the ports, both ends included, that a `--dport` argument
stands for. `none` is an argument it refuses. -/
structure Iptables where
  dport : Text → Option (Nat × Nat)
  decimal : ∀ n, dport (Nat.toDigits 10 n) = if n ≤ 65535 then some (n, n) else none

/-- `xtables_parse_port` on a number: a leading zero makes it octal. -/
def parsePort (s : Text) : Option Nat :=
  let base := if s.head? = some '0' then 8 else 10
  let value := Nat.ofDigitChars base s 0
  if s.isEmpty || s.any (fun c => !c.isDigit || (base == 8 && '8' ≤ c)) || 65535 < value then none
  else some value

/-- `parse_tcp_ports`: a port, or a range with either end left out. -/
def parseTcpPorts (s : Text) : Option (Nat × Nat) :=
  let low := s.takeWhile (· ≠ ':')
  match s.dropWhile (· ≠ ':') with
  | [] => (parsePort s).map fun n => (n, n)
  | _ :: high => do
    let min ← if low.isEmpty then some 0 else parsePort low
    let max ← if high.isEmpty then some 65535 else parsePort high
    if min ≤ max then some (min, max) else none

theorem parsePort_toDigits (n : Nat) :
    parsePort (Nat.toDigits 10 n) = if n ≤ 65535 then some n else none := by
  rcases Nat.eq_zero_or_pos n with rfl | hpos
  · decide
  · have hd := toDigits_digit n
    have hany : (Nat.toDigits 10 n).any (fun c => !c.isDigit) = false := by
      rw [List.any_eq_false]
      exact fun c hc => by simp [hd c hc]
    by_cases hn : n ≤ 65535
    · simp [parsePort, head_toDigits hpos, hany, hn]
    · simp [parsePort, head_toDigits hpos, hn]

/-- iptables without a services file. -/
def Iptables.linux : Iptables where
  dport := parseTcpPorts
  decimal n := by
    have hcolon : ∀ c ∈ Nat.toDigits 10 n, c ≠ ':' := fun c hc h =>
      not_mem_toDigits (by decide) n (h ▸ hc)
    have hdrop : (Nat.toDigits 10 n).dropWhile (· ≠ ':') = [] :=
      List.dropWhile_eq_nil_iff.mpr fun c hc => by simpa using hcolon c hc
    rw [parseTcpPorts, hdrop]
    simp only [parsePort_toDigits]
    split <;> rfl

/-! ### Safe ports -/

/-- The ports of the terminal's own services. -/
def managementPorts : List Nat := [8998, 8999]

/-- What the command for a port is meant to be. -/
def dropIntended (token user : Text) : Simple where
  args := [lit "/sbin/iptables", lit "-A", lit "OUTPUT", lit "-p", lit "tcp", lit "--dport", token,
    lit "-m", lit "owner", lit "--uid-owner", user, lit "-m", lit "comment", lit "--comment",
    lit "TCOS_TNC", lit "-j", lit "DROP"]
  redirects := [⟨some ['2'], ['>'], lit "/dev/null"⟩]

/-- The command for a port blocks one set of ports, none of them a management port;
the port is the decimal writing of a number; the shell reads the one command. -/
structure PortSafe (ipt : Iptables) (user token : Text) : Prop where
  decimal : ∃ n, token = Nat.toDigits 10 n
  dport : ∃ low high, ipt.dport token = some (low, high) ∧ 1 ≤ low ∧ low ≤ high ∧ high ≤ 65535 ∧
    ∀ n ∈ managementPorts, ¬ (low ≤ n ∧ n ≤ high)
  single : ∃ cmd, dropCommand token user = some cmd ∧ command cmd = some (dropIntended token user)

/-- One to five digits, the first of them no zero. -/
def isPlainPort (t : Text) : Bool :=
  !t.isEmpty && t.length ≤ 5 && t.head? != some '0' && t.all Char.isDigit

theorem isPlainPort_iff (t : Text) : isPlainPort t = true ↔
    t ≠ [] ∧ t.length ≤ 5 ∧ t.head? ≠ some '0' ∧ ∀ c ∈ t, c.isDigit = true := by
  simp [isPlainPort, and_assoc]

theorem checkPort_iff (t : Text) : checkPort t = false ↔
    1 ≤ atoi t ∧ atoi t ≤ 65535 ∧ atoi t ≠ 8998 ∧ atoi t ≠ 8999 := by
  have htokens : (split (· == ',') blacklistPorts).map atoi = [8998, 8999] := by
    with_unfolding_all decide
  have hany : (split (· == ',') blacklistPorts).any (fun token => atoi t == atoi token) =
      ([8998, 8999] : List Int).any (atoi t == ·) := by
    rw [← htokens, List.any_map]
    rfl
  rw [checkPort, hany]
  split
  · simp only [Bool.true_eq_false, false_iff]
    omega
  · simp only [List.any_cons, List.any_nil, Bool.or_false, Bool.or_eq_false_iff, beq_eq_false_iff_ne,
      ne_eq]
    omega

/-- The plain ports that pass the check are the decimal ones that `iptables` can block. -/
theorem plainPort_value {t : Text} (ht : isPlainPort t = true) (hc : checkPort t = false) :
    ∃ n : Nat, t = Nat.toDigits 10 n ∧ 1 ≤ n ∧ n ≤ 65535 ∧ n ≠ 8998 ∧ n ≠ 8999 := by
  obtain ⟨hne, hlen, hhead, hd⟩ := (isPlainPort_iff t).mp ht
  obtain ⟨hdigits, _⟩ := toDigits_ofDigitChars t hne hd hhead
  have hsmall : Nat.ofDigitChars 10 t 0 < 10 ^ 5 :=
    (Nat.length_toDigits_le_iff (by decide) (by decide)).mp (by rw [hdigits]; exact hlen)
  have hatoi := atoi_digits hne hd (by omega)
  rw [checkPort_iff, hatoi] at hc
  exact ⟨Nat.ofDigitChars 10 t 0, hdigits.symm, by omega, by omega, by omega, by omega⟩

theorem toDigits_plain {n : Nat} (hpos : 1 ≤ n) (hn : n ≤ 65535) :
    isPlainPort (Nat.toDigits 10 n) = true := by
  rw [isPlainPort_iff]
  refine ⟨Nat.toDigits_ne_nil, ?_, head_toDigits hpos, fun c hc => ?_⟩
  · rw [Nat.length_toDigits_le_iff (by decide) (by decide)]
    omega
  · exact toDigits_digit _ c hc

theorem isLiteral_toDigits (n : Nat) : isLiteral (Nat.toDigits 10 n) = true :=
  Shell.isLiteral_of_plain Nat.toDigits_ne_nil fun c hc => by
    have := toDigits_digit n c hc
    simp [Shell.isPlain, Char.isAlphanum, this]

/-! ### The command -/

/-- Up to the user the command is as meant, whatever the port. -/
theorem drop_awaits (n : Nat) :
    (Parser.run id {} (lit "/sbin/iptables -A OUTPUT -p tcp --dport " ++ Nat.toDigits 10 n ++
        lit " -m owner --uid-owner ")).Awaits id
      { args := [lit "/sbin/iptables", lit "-A", lit "OUTPUT", lit "-p", lit "tcp", lit "--dport",
          Nat.toDigits 10 n, lit "-m", lit "owner", lit "--uid-owner"] } := by
  have h0 : (Parser.run id {} (lit "/sbin/iptables -A OUTPUT -p tcp --dport ")).Awaits id
      { args := [lit "/sbin/iptables", lit "-A", lit "OUTPUT", lit "-p", lit "tcp", lit "--dport"] } :=
    ⟨by with_unfolding_all decide, by with_unfolding_all decide, by with_unfolding_all decide,
      by with_unfolding_all decide, by with_unfolding_all decide⟩
  have h1 := h0.argument id (t := Nat.toDigits 10 n) (by simpa using isLiteral_toDigits n) (b := ' ') rfl
  have h2 := h1.argument id (t := lit "-m") (by with_unfolding_all decide) (b := ' ') rfl
  have h3 := h2.argument id (t := lit "owner") (by with_unfolding_all decide) (b := ' ') rfl
  have h4 := h3.argument id (t := lit "--uid-owner") (by with_unfolding_all decide) (b := ' ') rfl
  have howner : lit " -m owner --uid-owner " =
      ' ' :: (lit "-m" ++ ' ' :: (lit "owner" ++ ' ' :: (lit "--uid-owner" ++ [' ']))) := by
    with_unfolding_all decide
  simp only [← Shell.run_append] at h4
  simpa [Simple.append, howner] using h4

theorem drop_follows : Shell.Follows id (lit "-m comment --comment TCOS_TNC -j DROP 2>/dev/null")
    { args := [lit "-m", lit "comment", lit "--comment", lit "TCOS_TNC", lit "-j", lit "DROP"]
      redirects := [⟨some ['2'], ['>'], lit "/dev/null"⟩] } :=
  ⟨Shell.each (by with_unfolding_all decide), by with_unfolding_all decide, by with_unfolding_all decide,
    by with_unfolding_all decide⟩

/-- For a decimal port the shell reads the one command exactly when the user is a word
that stands for itself. -/
theorem dropLine_command_iff (n : Nat) (user : Text) :
    command (dropLine (Nat.toDigits 10 n) user) = some (dropIntended (Nat.toDigits 10 n) user) ↔
      isLiteral user = true := by
  have h := Shell.argument_iff id (drop_awaits n) (b := ' ') rfl drop_follows user
  have hline : dropLine (Nat.toDigits 10 n) user =
      (lit "/sbin/iptables -A OUTPUT -p tcp --dport " ++ Nat.toDigits 10 n ++
        lit " -m owner --uid-owner ") ++
        (user ++ ' ' :: lit "-m comment --comment TCOS_TNC -j DROP 2>/dev/null") := by
    have hend : lit " -m comment --comment TCOS_TNC -j DROP 2>/dev/null" =
        ' ' :: lit "-m comment --comment TCOS_TNC -j DROP 2>/dev/null" := by with_unfolding_all decide
    simp only [dropLine, List.append_assoc, hend]
  rw [← Shell.run_append, ← hline, List.map_id] at h
  exact h

theorem dropLine_length (token user : Text) :
    (dropLine token user).length = token.length + user.length + 112 := by
  have h1 : (lit "/sbin/iptables -A OUTPUT -p tcp --dport ").length = 40 := by with_unfolding_all decide
  have h2 : (lit " -m owner --uid-owner ").length = 22 := by with_unfolding_all decide
  have h3 : (lit " -m comment --comment TCOS_TNC -j DROP 2>/dev/null").length = 50 := by
    with_unfolding_all decide
  simp only [dropLine, List.length_append, h1, h2, h3]
  omega

theorem dropCommand_iff (token user cmd : Text) :
    dropCommand token user = some cmd ↔
      token.length + user.length ≤ 911 ∧ cmd = dropLine token user := by
  have hlen := dropLine_length token user
  rw [dropCommand, sprintf, bsize]
  split
  · simp only [Option.some.injEq]
    exact ⟨fun h => ⟨by omega, h.symm⟩, fun h => h.2.symm⟩
  · simp only [reduceCtorEq, false_iff]
    omega

/-- A port that passes the check is safe exactly when it is plain and its command is
one that fits and keeps the user whole. -/
theorem portSafe_iff (ipt : Iptables) (user : Text) {t : Text} (hc : checkPort t = false) :
    PortSafe ipt user t ↔
      isPlainPort t = true ∧ isLiteral user = true ∧ t.length + user.length ≤ 911 := by
  constructor
  · rintro ⟨⟨n, rfl⟩, ⟨low, high, hd, hlow, hle, hhigh, _⟩, ⟨cmd, hcmd, hread⟩⟩
    obtain ⟨hfits, rfl⟩ := (dropCommand_iff _ _ _).mp hcmd
    rw [ipt.decimal] at hd
    split at hd
    case isFalse => exact absurd hd (by simp)
    case isTrue hn =>
      have hpos : 1 ≤ n := by
        have := (checkPort_iff _).mp hc
        rw [atoi_toDigits (by omega)] at this
        omega
      exact ⟨toDigits_plain hpos hn, (dropLine_command_iff n user).mp hread, hfits⟩
  · rintro ⟨hplain, huser, hfits⟩
    obtain ⟨n, rfl, hpos, hmax, h8, h9⟩ := plainPort_value hplain hc
    refine ⟨⟨n, rfl⟩, ⟨n, n, by rw [ipt.decimal, if_pos hmax], hpos, Nat.le_refl _, hmax, ?_⟩,
      ⟨_, (dropCommand_iff _ _ _).mpr ⟨hfits, rfl⟩, (dropLine_command_iff n user).mpr huser⟩⟩
    intro m hm
    simp only [managementPorts, List.mem_cons, List.not_mem_nil, or_false] at hm
    omega

/-- **Every port that is blocked is one safe port exactly when every port that `atoi` reads
as a number in range and off the blacklist is plain, and leaves room for a user without
special characters.** -/
theorem ports_safe_iff (ipt : Iptables) (arg3 user : Text) :
    (∀ t ∈ blockedPorts arg3, PortSafe ipt user t) ↔
      ∀ t ∈ portTokens arg3, 1 ≤ atoi t → atoi t ≤ 65535 → atoi t ≠ 8998 → atoi t ≠ 8999 →
        isPlainPort t = true ∧ isLiteral user = true ∧ t.length + user.length ≤ 911 := by
  simp only [blockedPorts, List.mem_filter, Bool.not_eq_true', and_imp]
  constructor
  · intro h t ht hpos hmax h8 h9
    have hc := (checkPort_iff t).mpr ⟨hpos, hmax, h8, h9⟩
    exact (portSafe_iff ipt user hc).mp (h t ht hc)
  · intro h t ht hc
    obtain ⟨hpos, hmax, h8, h9⟩ := (checkPort_iff t).mp hc
    exact (portSafe_iff ipt user hc).mpr (h t ht hpos hmax h8 h9)

/-- A range that starts at a harmless port passes the check and blocks both management
ports. -/
theorem port_range_accepted :
    ¬ ∀ arg3 user, ∀ t ∈ blockedPorts arg3, PortSafe Iptables.linux user t := by
  intro h
  have hsafe := h (lit "--ports=80,1:65535") (lit "alumno") (lit "1:65535")
    (by with_unfolding_all decide)
  obtain ⟨low, high, hd, _, _, _, hno⟩ := hsafe.dport
  have hread : Iptables.linux.dport (lit "1:65535") = some (1, 65535) := by with_unfolding_all decide
  obtain ⟨rfl, rfl⟩ := Prod.mk.inj (Option.some.inj (hread.symm.trans hd))
  exact hno 8998 (by decide) ⟨by decide, by decide⟩

end Tcos.Tnc
