import Tcos.Shell.Argument
import Tcos.Xmlrpc.Common

/-! The cookie check of xauth.c.

`handleXauth` puts the request's cookie into an authority file with the `xauth`
command and tries to open the display with it. The cookie goes into that command
unquoted: `xauth_command_iff` says for which cookies the command is the one that was
meant. -/
namespace Tcos.Xmlrpc
open Shell (Text lit Simple Parser isLiteral command)
open Libc

inductive XauthCode where
  | ok
  | error
  | badHostname
  | badFdtemp
  deriving DecidableEq, Repr

/-- A call of `handle_xauth`: what it returns, the command it gave to `popen` and the
display it tried to open. -/
structure XauthRun where
  code : XauthCode
  cmd : Option Text := none
  display : Option Text := none
  deriving DecidableEq, Repr

def xauthFile (s : TempSuffix) : Text := lit "/tmp/.tmpxauth" ++ s.text

/-- The command before it is cut to its buffer. -/
def xauthLine (file host cookie : Text) : Text :=
  lit "xauth -q -f " ++ file ++ lit " add " ++ host ++ lit ":0 MIT-MAGIC-COOKIE-1 " ++
    cookie ++ lit " >/dev/null 2>&1"

def handleXauth (e : Env) (cookie servername : Text) : XauthRun :=
  let ip := checkIpAddress e.xauthStack servername
  if !ip.isIp && servername != e.hostname.name then { code := .badHostname }
  else
    let host := if ip.isIp then cut bsize ip.ipstr else e.hostname.name
    match e.mkstemp with
    | none => { code := .badFdtemp }
    | some s =>
      let displayname := cut bsize (host ++ lit ":0")
      { code := if e.opens displayname cookie then .ok else .error
        cmd := some (cut bsize (xauthLine (xauthFile s) host cookie))
        display := some displayname }

/-! ### The host that is asked -/

/-- The servername is an address or the own name. -/
def Named (e : Env) (servername : Text) : Prop :=
  (checkIpAddress e.xauthStack servername).isIp = true ∨ servername = e.hostname.name

theorem Named.plain {e : Env} {servername : Text} (h : Named e servername) :
    servername ≠ [] ∧ servername.length ≤ 64 ∧ ∀ c ∈ servername, isHostChar c = true := by
  rcases h with h | rfl
  · obtain ⟨_, hlen, hne, hchars⟩ := isIp_spec h
    refine ⟨hne, by omega, fun c hc => ?_⟩
    rcases hchars c hc with h | h | h
    · simp [isHostChar, Char.isAlphanum, h]
    · simp [isHostChar, h]
    · simp [isHostChar, h]
  · exact ⟨e.hostname.some, e.hostname.short, e.hostname.chars⟩

/-- **Past the name check, the host in the command is the servername itself.** -/
theorem handleXauth_named {e : Env} {cookie servername : Text} (h : Named e servername) :
    handleXauth e cookie servername =
      match e.mkstemp with
      | none => { code := .badFdtemp }
      | some s =>
        { code := if e.opens (servername ++ lit ":0") cookie then .ok else .error
          cmd := some (cut bsize (xauthLine (xauthFile s) servername cookie))
          display := some (servername ++ lit ":0") } := by
  obtain ⟨_, hlen, _⟩ := h.plain
  have hhost : (if (checkIpAddress e.xauthStack servername).isIp then
      cut bsize (checkIpAddress e.xauthStack servername).ipstr else e.hostname.name) = servername := by
    split
    case isTrue hip =>
      rw [(isIp_spec hip).1]
      exact cut_of_fits (by unfold bsize; omega)
    case isFalse hip => exact (h.resolve_left hip).symm
  have hguard : (!(checkIpAddress e.xauthStack servername).isIp && servername != e.hostname.name) =
      false := by
    rcases h with h | h <;> simp [h]
  have hcut : cut bsize (servername ++ lit ":0") = servername ++ lit ":0" :=
    cut_of_fits (by
      have h0 : (lit ":0").length = 2 := by with_unfolding_all decide
      rw [List.length_append, h0, bsize]
      omega)
  simp only [handleXauth, hguard, hhost, hcut]
  rfl

theorem handleXauth_unnamed {e : Env} {cookie servername : Text} (h : ¬ Named e servername) :
    handleXauth e cookie servername = { code := .badHostname } := by
  unfold Named at h
  rw [not_or] at h
  simp [handleXauth, h]

/-! ### The command -/

end Tcos.Xmlrpc
