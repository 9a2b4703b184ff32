import Tcos.Xmlrpc.Handlers

/-! Commands that are formatted into buffers.

Seven handlers format a command with `sprintf` into `BIG_BUFFER` bytes, with `snprintf` into
`BUFF_SIZE` bytes, or with the one after the other. Here they are again, over what the two
functions do (`Printf`); `serve_go` ties them to the handlers. `whole_iff` says for which
accepted requests every command is run as it was formatted. -/
namespace Tcos.Xmlrpc
open Shell (Text lit)
open Libc

/-! ### Formatting -/

structure Printf where
  /-- What `sprintf` leaves in a buffer of this size. -/
  sprintf : Nat → Line → Option Line
  snprintf : Nat → Line → Line
  /-- The text of a buffer that was never written. -/
  unset : Line → Option Line

/-- The C library. A write past the end of a buffer is no value. -/
def Printf.c : Printf where
  sprintf size t := if t.length < size then some t else none
  snprintf size t := cut size t
  unset t := some t

/-- Buffers of any length, all of them written. -/
def Printf.unbounded : Printf where
  sprintf _ t := some t
  snprintf _ t := t
  unset _ := none

/-! ### The handlers, after the login -/

/-- A request whose login is accepted. -/
inductive Accepted where
  | tnc (action onlyports ports username : Text)
  | vnc (action args : Text)
  | rtp (action broadcast : Text)
  | vlc (volume lock : Text)
  | rebootPoweroff (option timeout : Text)
  | lockcontroller (action : Text)
  | exe (s : Text)

def Accepted.request (user pass : Text) : Accepted → Request
  | .tnc action onlyports ports username => .tnc action onlyports ports username user pass
  | .vnc action args => .vnc action args user pass
  | .rtp action broadcast => .rtp action broadcast user pass
  | .vlc volume lock => .vlc volume lock user pass
  | .rebootPoweroff option timeout => .rebootpoweroff option timeout user pass
  | .lockcontroller action => .lockcontroller action user pass
  | .exe s => .exe s user pass

/-- The job of `job_exe`. -/
def jobLine (b : Build) (cmd : Line) : Line := own (cmdWrapper b ++ lit " ") ++ cmd

/-- `sprintf` of the program, then `job_exe`. -/
def lockJob (io : Printf) (b : Build) (action : Line) : Option Line :=
  (io.sprintf bigBuffer (program b action)).map fun cmd => io.snprintf buffSize (jobLine b cmd)

/-- Up to the last field of the command. -/
def tncStart (b : Build) (action onlyports ports : Text) : Line :=
  own (b.tcosPath ++ lit "/tnc  ") ++ req action ++ own (lit " ") ++ req onlyports ++ own (lit " ") ++
    req ports ++ own (lit " ")

def tncDisable (b : Build) (action onlyports ports iface username : Text) : Line :=
  tncStart b action onlyports ports ++ own iface ++ own (lit " ") ++ req username

def vlcCommand (b : Build) (volume : Text) : Line :=
  own (b.tcosPath ++ lit "/vlc-controller.sh ") ++ req volume

def downCommand (option timeout : Text) : Line :=
  own (lit "down-controller ") ++ req option ++ own (lit " ") ++ req timeout

/-- The interface, if it could be asked for. -/
def ifaceRead (b : Build) (e : Env) : Option Text :=
  reading bigBuffer e.leftover (e.popen (networkIface b))

def tncError : Text := lit "error: tnc command error"

def vncError : Text := lit "error: vnc command error"

def rtpError : Text := lit "error: rtp command error"

/-- What the handler does once the login is accepted; none if it writes past a buffer. -/
def Accepted.go (io : Printf) (b : Build) (e : Env) (user pass : Text) : Accepted → Option Outcome
  | .tnc action onlyports ports username =>
    if action = lit "disable-internet" then
      (match ifaceRead b e with
        | none => io.unset (own e.leftover)
        | some iface => io.sprintf bigBuffer (tncDisable b action onlyports ports iface username)).map
            fun cmd =>
          { answerLine e bigBuffer tncError none cmd with ran := [own (networkIface b), cmd] }
    else
      (io.sprintf bigBuffer (tncStart b action onlyports ports ++ req username)).map fun cmd =>
        answerLine e bigBuffer tncError none cmd
  | .vnc action args =>
    (io.sprintf bigBuffer (sessionCommand
      (b.tcosPath ++ lit "/vnc-controller.sh") action args user pass)).bind
      fun cmd =>
        (if action = lit "startclient" then (lockJob io b (own (lit "lockvnc"))).map fun job => [job]
        else if action = lit "stopclient" then
          some [io.snprintf buffSize (own (lit "killall ") ++ own (lit "lockvnc"))]
        else some []).map fun jobs =>
          { answerLine e bigBuffer vncError none cmd with ran := reached e (cmd :: jobs) }
  | .rtp action broadcast =>
    (io.sprintf bigBuffer
      (sessionCommand (b.tcosPath ++ lit "/rtp-controller.sh") action broadcast user pass)).map
        fun cmd =>
        answerLine e bigBuffer rtpError none cmd
  | .vlc volume lock =>
    (io.sprintf bigBuffer (vlcCommand b volume)).bind fun cmd =>
      (if lock = lit "enable" then (lockJob io b (own (lit "lockvlc"))).map fun job => [job]
      else some []).map fun jobs => answerAfter e (cmd :: jobs) (lit "OK")
  | .rebootPoweroff option timeout =>
    -- the command is formatted before the option is looked at
    (io.sprintf bigBuffer (downCommand option timeout)).map fun cmd =>
      if option = lit "reboot" ∨ option = lit "poweroff" then
        answerAfter e [io.snprintf buffSize (jobLine b cmd)] (lit "ok: reboot_poweroff action done.")
      else answer (lit "error: unknow option passed.")
  | .lockcontroller action =>
    (lockJob io b (req action)).map fun job => answerAfter e [job] (lit "OK")
  | .exe s => some (answerAfter e [io.snprintf buffSize (jobLine b (req s))] s)

/-- The commands are run as they were formatted, or the answer is an error and none is run. -/
def Whole (b : Build) (e : Env) (user pass : Text) (r : Accepted) : Prop :=
  (∃ o, r.go .c b e user pass = some o ∧ r.go .unbounded b e user pass = some o) ∨
    ∃ o t, r.go .c b e user pass = some o ∧ o.reply = some [t] ∧ isError t = true ∧ o.ran = [] ∧
    o.wrote = []

/-! ### The handlers -/

/-- A command that comes before the login. -/
def Accepted.asked (b : Build) : Accepted → List Line
  | .rebootPoweroff .. => [own (myIpAddress b)]
  | _ => []

/-- Up to the check and the commands of the check. -/
structure Outcome.Does (o : Outcome) (asked : List Line) (go : Outcome) : Prop where
  ran : o.ran = asked ++ go.ran
  reply : o.reply = go.reply
  wrote : o.wrote = go.wrote

theorem Outcome.Does.of_eq {o go go' : Outcome} {asked : List Line} (h : o.Does asked go)
    (heq : go = go') : o.Does asked go' := heq ▸ h

theorem needLogin_does {e : Env} {user pass : Text} {refused : Text → List Text} {go : Outcome}
    (h : (needLogin e user pass refused go).authenticated = true) :
    (needLogin e user pass refused go).Does [] go := by
  by_cases hok : e.validateLogin user pass = loginOk
  · exact ⟨by simp [needLogin, hok], by simp [needLogin, hok], by simp [needLogin, hok]⟩
  · simp [needLogin, hok, Outcome.authenticated, Check.passed] at h

theorem needXauth_does {e : Env} {cookie hostname refused : Text} {go : Outcome}
    (h : (needXauth e cookie hostname refused go).authenticated = true) :
    (needXauth e cookie hostname refused go).Does [] go := by
  by_cases hok : (handleXauth e cookie hostname).code = .ok
  · exact ⟨by simp [needXauth, hok], by simp [needXauth, hok], by simp [needXauth, hok]⟩
  · simp [needXauth, hok, Outcome.authenticated, Check.passed] at h

theorem needOwnXauthOrLogin_does {b : Build} {e : Env} {user pass : Text} {go : Outcome}
    (h : (needOwnXauthOrLogin b e user pass go).authenticated = true) :
    (needOwnXauthOrLogin b e user pass go).Does [own (myIpAddress b)] go := by
  by_cases hname : pass = e.hostname.name ∨ pass = (checkIpAddress e.ownStack e.ipString).ipstr
  · simp only [needOwnXauthOrLogin, if_pos hname] at h ⊢
    obtain ⟨hran, hreply, hwrote⟩ := needXauth_does h
    exact ⟨by simp [hran], hreply, hwrote⟩
  · simp only [needOwnXauthOrLogin, if_neg hname] at h ⊢
    obtain ⟨hran, hreply, hwrote⟩ := needLogin_does h
    exact ⟨by simp [hran], hreply, hwrote⟩

theorem sprintf_eq {size : Nat} {t cmd : Line} (h : Printf.c.sprintf size t = some cmd) : cmd = t := by
  obtain ⟨-, ht⟩ := Option.ite_none_right_eq_some.mp h
  exact (Option.some.inj ht).symm

theorem lockJob_eq {b : Build} {action job : Line} (h : lockJob .c b action = some job) :
    job = jobExe b (program b action) := by
  obtain ⟨cmd, hcmd, rfl⟩ := Option.map_eq_some_iff.mp h
  rw [sprintf_eq hcmd]
  rfl

/-- **The handler of an accepted request does what `go` says of it.** -/
theorem serve_go {b : Build} {e : Env} {user pass : Text} {r : Accepted} {o : Outcome}
    (h : r.go .c b e user pass = some o) (hok : (serve b e (r.request user pass)).authenticated = true) :
    (serve b e (r.request user pass)).Does (r.asked b) o := by
  cases r with
  | tnc action onlyports ports username =>
    simp only [Accepted.go] at h
    refine (needLogin_does hok).of_eq ?_
    split at h
    case isTrue hdisable =>
      rw [if_pos hdisable]
      cases hiface : ifaceRead b e with
      | none =>
        rw [hiface] at h
        rw [show reading bigBuffer e.leftover (e.popen (networkIface b)) = none from hiface]
        exact Option.some.inj h
      | some iface =>
        rw [hiface] at h
        obtain ⟨cmd, hcmd, rfl⟩ := Option.map_eq_some_iff.mp h
        obtain rfl := sprintf_eq hcmd
        rw [show reading bigBuffer e.leftover (e.popen (networkIface b)) = some iface from hiface]
        rfl
    case isFalse hother =>
      obtain ⟨cmd, hcmd, rfl⟩ := Option.map_eq_some_iff.mp h
      obtain rfl := sprintf_eq hcmd
      rw [if_neg hother]
      rfl
  | vnc action args =>
    obtain ⟨cmd, hcmd, hrest⟩ := Option.bind_eq_some_iff.mp h
    clear h
    obtain ⟨jobs, hjobs, rfl⟩ := Option.map_eq_some_iff.mp hrest
    clear hrest
    obtain rfl := sprintf_eq hcmd
    obtain rfl : jobs = if action = lit "startclient" then [lockcontrollerExe b (own (lit "lockvnc"))]
        else if action = lit "stopclient" then [lockcontrollerKill (own (lit "lockvnc"))] else [] := by
      split at hjobs
      case isTrue hstart =>
        obtain ⟨job, hjob, rfl⟩ := Option.map_eq_some_iff.mp hjobs
        rw [if_pos hstart, lockJob_eq hjob]
        rfl
      case isFalse hstart =>
        rw [if_neg hstart]
        split at hjobs
        case isTrue hstop => rw [if_pos hstop, ← Option.some.inj hjobs]; rfl
        case isFalse hstop => rw [if_neg hstop, ← Option.some.inj hjobs]
    exact needLogin_does hok
  | rtp action broadcast =>
    obtain ⟨cmd, hcmd, rfl⟩ := Option.map_eq_some_iff.mp h
    obtain rfl := sprintf_eq hcmd
    exact needLogin_does hok
  | vlc volume lock =>
    obtain ⟨cmd, hcmd, hrest⟩ := Option.bind_eq_some_iff.mp h
    clear h
    obtain ⟨jobs, hjobs, rfl⟩ := Option.map_eq_some_iff.mp hrest
    clear hrest
    obtain rfl := sprintf_eq hcmd
    obtain rfl : jobs = if lock = lit "enable" then [lockcontrollerExe b (own (lit "lockvlc"))]
      else [] := by
      split at hjobs
      case isTrue henable =>
        obtain ⟨job, hjob, rfl⟩ := Option.map_eq_some_iff.mp hjobs
        rw [if_pos henable, lockJob_eq hjob]
        rfl
      case isFalse henable => rw [if_neg henable, ← Option.some.inj hjobs]
    exact needLogin_does hok
  | rebootPoweroff option timeout =>
    obtain ⟨cmd, hcmd, rfl⟩ := Option.map_eq_some_iff.mp h
    obtain rfl := sprintf_eq hcmd
    exact needOwnXauthOrLogin_does hok
  | lockcontroller action =>
    obtain ⟨job, hjob, rfl⟩ := Option.map_eq_some_iff.mp h
    obtain rfl := lockJob_eq hjob
    exact needLogin_does hok
  | exe s =>
    obtain rfl := Option.some.inj h
    exact needLogin_does hok

/-! ### When they are whole -/

/-- Every text is shorter than the buffer it is formatted into. -/
def Accepted.Fits (b : Build) (e : Env) (user pass : Text) : Accepted → Prop
  | .tnc action onlyports ports username =>
    if action = lit "disable-internet" then
      ∃ iface, ifaceRead b e = some iface ∧
        (tncDisable b action onlyports ports iface username).length < bigBuffer
    else (tncStart b action onlyports ports ++ req username).length < bigBuffer
  | .vnc action args =>
    (sessionCommand (b.tcosPath ++ lit "/vnc-controller.sh") action args user pass).length < bigBuffer
  | .rtp action broadcast =>
    (sessionCommand (b.tcosPath ++ lit "/rtp-controller.sh") action broadcast user pass).length <
      bigBuffer
  | .vlc volume _ => (vlcCommand b volume).length < bigBuffer
  | .rebootPoweroff option timeout =>
    if option = lit "reboot" ∨ option = lit "poweroff" then
      (jobLine b (downCommand option timeout)).length < buffSize
    else (downCommand option timeout).length < bigBuffer
  | .lockcontroller action => (jobLine b (program b (req action))).length < buffSize
  | .exe s => (jobLine b (req s)).length < buffSize

theorem whole_of_eq {b : Build} {e : Env} {user pass : Text} {r : Accepted} {o : Outcome}
    (h : r.go .c b e user pass = some o) (h' : r.go .unbounded b e user pass = some o) :
    Whole b e user pass r :=
  .inl ⟨o, h, h'⟩

theorem not_whole_of_overrun {b : Build} {e : Env} {user pass : Text} {r : Accepted}
    (h : r.go .c b e user pass = none) : ¬ Whole b e user pass r := by
  rintro (⟨o, ho, -⟩ | ⟨o, t, ho, -⟩)
  · rw [h] at ho
    exact absurd ho (by simp)
  · rw [h] at ho
    exact absurd ho (by simp)

/-- Commands that are not those that were formatted. -/
theorem not_whole_of_ran {b : Build} {e : Env} {user pass : Text} {r : Accepted} {o o' : Outcome}
    (h : r.go .c b e user pass = some o) (h' : r.go .unbounded b e user pass = some o')
    (hne : o.ran ≠ o'.ran) (hran : o.ran ≠ []) : ¬ Whole b e user pass r := by
  rintro (⟨x, hx, hx'⟩ | ⟨x, t, hx, -, -, hnone, -⟩)
  · rw [h, Option.some.injEq] at hx
    rw [h', Option.some.injEq] at hx'
    exact hne (by rw [hx, hx'])
  · rw [h, Option.some.injEq] at hx
    exact hran (by rw [hx, hnone])

theorem sprintf_fits {size : Nat} {t : Line} (h : t.length < size) :
    Printf.c.sprintf size t = some t := if_pos h

theorem sprintf_overrun {size : Nat} {t : Line} (h : ¬ t.length < size) :
    Printf.c.sprintf size t = none :=
  if_neg h

theorem snprintf_fits {size : Nat} {t : Line} (h : t.length < size) : Printf.c.snprintf size t = t :=
  cut_of_fits h

theorem snprintf_truncates {size : Nat} {t : Line} (hsize : 0 < size) (h : ¬ t.length < size) :
    Printf.c.snprintf size t ≠ t := by
  intro heq
  have hlen := cut_length size t
  rw [show cut size t = t from heq] at hlen
  omega

theorem jobLine_length (b : Build) (cmd : Line) : cmd.length ≤ (jobLine b cmd).length ∧
    (jobLine b cmd).length ≤ cmd.length + 100 := by
  have hwrapper : (cmdWrapper b ++ lit " ").length ≤ 100 := by cases b <;> with_unfolding_all decide
  rw [jobLine, List.length_append, own_length]
  omega

theorem program_length (b : Build) (action : Line) : (program b action).length ≤ action.length + 20 := by
  have hpath : (b.tcosPath ++ lit "/").length ≤ 20 := by cases b <;> with_unfolding_all decide
  unfold program
  split
  · omega
  · rw [List.length_append, own_length]
    omega

/-- The job of a short program is whole. -/
theorem lockJob_short (b : Build) {action : Line} (h : action.length < 800) :
    lockJob .c b action = lockJob .unbounded b action := by
  have hprogram := program_length b action
  have hjob := (jobLine_length b (program b action)).2
  rw [lockJob, lockJob, sprintf_fits (by unfold bigBuffer; omega), Option.map_some,
    snprintf_fits (by unfold buffSize; omega)]
  rfl

theorem lock_lengths : (own (lit "lockvnc")).length < 800 ∧ (own (lit "lockvlc")).length < 800 ∧
    (own (lit "killall ") ++ own (lit "lockvnc")).length < buffSize := by with_unfolding_all decide

/-- The jobs a session starts or stops are the same with either. -/
theorem vncJobs_eq (b : Build) (action : Text) :
    (if action = lit "startclient" then (lockJob .c b (own (lit "lockvnc"))).map fun job => [job]
      else if action = lit "stopclient" then
        some [Printf.c.snprintf buffSize (own (lit "killall ") ++ own (lit "lockvnc"))]
      else some []) =
    if action = lit "startclient" then (lockJob .unbounded b (own (lit "lockvnc"))).map fun job => [job]
      else if action = lit "stopclient" then
        some [Printf.unbounded.snprintf buffSize (own (lit "killall ") ++ own (lit "lockvnc"))]
      else some [] := by
  obtain ⟨hvnc, -, hkill⟩ := lock_lengths
  rw [lockJob_short b hvnc, snprintf_fits hkill]
  rfl

/-! ### The cases -/

section Cases
variable (b : Build) (e : Env) (user pass : Text)

theorem vnc_iff (action args : Text) :
    Whole b e user pass (.vnc action args) ↔ (Accepted.vnc action args).Fits b e user pass := by
  by_cases h : (Accepted.vnc action args).Fits b e user pass
  · refine iff_of_true ?_ h
    have hgo : (Accepted.vnc action args).go .c b e user pass =
        (Accepted.vnc action args).go .unbounded b e user pass := by
      simp only [Accepted.go, vncJobs_eq]
      rw [sprintf_fits h]
      rfl
    have hsome : ((Accepted.vnc action args).go .unbounded b e user pass).isSome = true := by
      simp only [Accepted.go, Printf.unbounded, lockJob, Option.map_some, Option.bind_some]
      split
      · rfl
      · split <;> rfl
    obtain ⟨o, ho⟩ := Option.isSome_iff_exists.mp hsome
    exact whole_of_eq (hgo.trans ho) ho
  · refine iff_of_false (not_whole_of_overrun ?_) h
    simp only [Accepted.go]
    rw [sprintf_overrun h]
    rfl

theorem rtp_iff (action broadcast : Text) :
    Whole b e user pass (.rtp action broadcast) ↔
    (Accepted.rtp action broadcast).Fits b e user pass := by
  by_cases h : (Accepted.rtp action broadcast).Fits b e user pass
  · refine iff_of_true (whole_of_eq ?_ rfl) h
    simp only [Accepted.go]
    rw [sprintf_fits h]
    rfl
  · refine iff_of_false (not_whole_of_overrun ?_) h
    simp only [Accepted.go]
    rw [sprintf_overrun h]
    rfl

theorem vlc_iff (volume lock : Text) :
    Whole b e user pass (.vlc volume lock) ↔ (Accepted.vlc volume lock).Fits b e user pass := by
  obtain ⟨-, hvlc, -⟩ := lock_lengths
  by_cases h : (Accepted.vlc volume lock).Fits b e user pass
  · refine iff_of_true ?_ h
    have hgo : (Accepted.vlc volume lock).go .c b e user pass =
        (Accepted.vlc volume lock).go .unbounded b e user pass := by
      simp only [Accepted.go, lockJob_short b hvlc]
      rw [sprintf_fits h]
      rfl
    have hsome : ((Accepted.vlc volume lock).go .unbounded b e user pass).isSome = true := by
      simp only [Accepted.go, Printf.unbounded, lockJob, Option.map_some, Option.bind_some]
      split <;> rfl
    obtain ⟨o, ho⟩ := Option.isSome_iff_exists.mp hsome
    exact whole_of_eq (hgo.trans ho) ho
  · refine iff_of_false (not_whole_of_overrun ?_) h
    simp only [Accepted.go]
    rw [sprintf_overrun h]
    rfl

theorem tnc_iff (action onlyports ports username : Text) :
    Whole b e user pass (.tnc action onlyports ports username) ↔
      (Accepted.tnc action onlyports ports username).Fits b e user pass := by
  simp only [Accepted.Fits]
  split
  case isTrue hdisable =>
    cases hiface : ifaceRead b e with
    | none =>
      refine iff_of_false ?_ (by simp)
      rintro (⟨o, -, ho⟩ | ⟨o, t, ho, -, -, hran, -⟩)
      · simp [Accepted.go, hdisable, hiface, Printf.unbounded] at ho
      · simp only [Accepted.go, if_pos hdisable, hiface, Printf.c, Option.map_some,
          Option.some.injEq] at ho
        rw [← ho] at hran
        exact absurd hran (by simp)
    | some iface =>
      simp only [Option.some.injEq, exists_eq_left']
      by_cases h : (tncDisable b action onlyports ports iface username).length < bigBuffer
      · refine iff_of_true ?_ h
        have hgo : ∀ io : Printf, io.sprintf bigBuffer
          (tncDisable b action onlyports ports iface username) =
            some (tncDisable b action onlyports ports iface username) →
            (Accepted.tnc action onlyports ports username).go io b e user pass =
              some { answerLine e bigBuffer tncError none
                (tncDisable b action onlyports ports iface username) with
                ran := [own (networkIface b), tncDisable b action onlyports ports iface username] } := by
          intro io hio
          simp only [Accepted.go, if_pos hdisable, hiface, hio, Option.map_some]
        exact whole_of_eq (hgo .c (sprintf_fits h)) (hgo .unbounded rfl)
      · refine iff_of_false (not_whole_of_overrun ?_) h
        simp only [Accepted.go, if_pos hdisable, hiface]
        rw [sprintf_overrun h]
        rfl
  case isFalse hother =>
    by_cases h : (tncStart b action onlyports ports ++ req username).length < bigBuffer
    · refine iff_of_true ?_ h
      have hgo : ∀ io : Printf, io.sprintf bigBuffer
        (tncStart b action onlyports ports ++ req username) =
          some (tncStart b action onlyports ports ++ req username) →
          (Accepted.tnc action onlyports ports username).go io b e user pass =
            some (answerLine e bigBuffer tncError none
              (tncStart b action onlyports ports ++ req username)) := by
        intro io hio
        simp only [Accepted.go, if_neg hother, hio, Option.map_some]
      exact whole_of_eq (hgo .c (sprintf_fits h)) (hgo .unbounded rfl)
    · refine iff_of_false (not_whole_of_overrun ?_) h
      simp only [Accepted.go, if_neg hother]
      rw [sprintf_overrun h]
      rfl

theorem exe_iff (s : Text) : Whole b e user pass (.exe s) ↔ (Accepted.exe s).Fits b e user pass := by
  by_cases h : (Accepted.exe s).Fits b e user pass
  · refine iff_of_true (whole_of_eq ?_ rfl) h
    simp only [Accepted.go]
    rw [snprintf_fits h]
    rfl
  · refine iff_of_false (not_whole_of_ran rfl rfl ?_ (by simp [answerAfter, reached])) h
    intro heq
    exact snprintf_truncates (by decide) h (List.cons.inj heq).1

theorem lockcontroller_iff (action : Text) :
    Whole b e user pass (.lockcontroller action) ↔
    (Accepted.lockcontroller action).Fits b e user pass := by
  have hle := (jobLine_length b (program b (req action))).1
  by_cases h : (Accepted.lockcontroller action).Fits b e user pass
  · refine iff_of_true (whole_of_eq ?_ rfl) h
    have hprogram : (program b (req action)).length < bigBuffer :=
      lt_of_le_of_lt hle (lt_trans h (by decide))
    simp only [Accepted.go, lockJob]
    rw [sprintf_fits hprogram, Option.map_some, snprintf_fits h]
    rfl
  · refine iff_of_false ?_ h
    by_cases hprogram : (program b (req action)).length < bigBuffer
    · have hgo : (Accepted.lockcontroller action).go .c b e user pass =
          some (answerAfter e [Printf.c.snprintf buffSize (jobLine b (program b (req action)))]
            (lit "OK")) := by
        simp only [Accepted.go, lockJob]
        rw [sprintf_fits hprogram]
        rfl
      refine not_whole_of_ran hgo rfl ?_ (by simp [answerAfter, reached])
      intro heq
      exact snprintf_truncates (by decide) h (List.cons.inj heq).1
    · refine not_whole_of_overrun ?_
      simp only [Accepted.go, lockJob]
      rw [sprintf_overrun hprogram]
      rfl

theorem rebootPoweroff_iff (option timeout : Text) :
    Whole b e user pass (.rebootPoweroff option timeout) ↔
      (Accepted.rebootPoweroff option timeout).Fits b e user pass := by
  have hle := (jobLine_length b (downCommand option timeout)).1
  have hunknow : isError (lit "error: unknow option passed.") = true := by with_unfolding_all decide
  by_cases hcmd : (downCommand option timeout).length < bigBuffer
  · by_cases hknown : option = lit "reboot" ∨ option = lit "poweroff"
    · have hgo : ∀ io : Printf, io.sprintf bigBuffer (downCommand option timeout) =
          some (downCommand option timeout) →
          (Accepted.rebootPoweroff option timeout).go io b e user pass =
            some (answerAfter e [io.snprintf buffSize (jobLine b (downCommand option timeout))]
              (lit "ok: reboot_poweroff action done.")) := by
        intro io hio
        simp only [Accepted.go, hio, Option.map_some, if_pos hknown]
      simp only [Accepted.Fits, if_pos hknown]
      by_cases h : (jobLine b (downCommand option timeout)).length < buffSize
      · refine iff_of_true (whole_of_eq (hgo .c (sprintf_fits hcmd)) ?_) h
        rw [hgo .unbounded rfl, snprintf_fits h]
        rfl
      · refine iff_of_false (not_whole_of_ran (hgo .c (sprintf_fits hcmd)) (hgo .unbounded rfl) ?_
          (by simp [answerAfter, reached])) h
        intro heq
        exact snprintf_truncates (by decide) h (List.cons.inj heq).1
    · simp only [Accepted.Fits, if_neg hknown]
      refine iff_of_true (.inr ⟨answer (lit "error: unknow option passed."), _, ?_, rfl, hunknow, rfl,
        rfl⟩) hcmd
      simp only [Accepted.go]
      rw [sprintf_fits hcmd, Option.map_some, if_neg hknown]
  · refine iff_of_false (not_whole_of_overrun ?_) ?_
    · simp only [Accepted.go]
      rw [sprintf_overrun hcmd]
      rfl
    · simp only [Accepted.Fits]
      split
      · exact fun h => hcmd (lt_of_le_of_lt hle (lt_trans h (by decide)))
      · exact hcmd

end Cases

/-- **An accepted request runs its commands whole, or answers an error and runs none, exactly if
every text is shorter than its buffer.** -/
theorem whole_iff (b : Build) (e : Env) (user pass : Text) (r : Accepted) :
    Whole b e user pass r ↔ r.Fits b e user pass := by
  cases r with
  | tnc action onlyports ports username => exact tnc_iff b e user pass action onlyports ports username
  | vnc action args => exact vnc_iff b e user pass action args
  | rtp action broadcast => exact rtp_iff b e user pass action broadcast
  | vlc volume lock => exact vlc_iff b e user pass volume lock
  | rebootPoweroff option timeout => exact rebootPoweroff_iff b e user pass option timeout
  | lockcontroller action => exact lockcontroller_iff b e user pass action
  | exe s => exact exe_iff b e user pass s

/-- A client that knows its teacher. -/
def Env.trusting : Env := { Env.client with validateLogin := fun _ _ => loginOk }

theorem trusting_accepts (s : Text) :
    (serve .thinClient .trusting ((Accepted.exe s).request [] [])).authenticated =
    true := by
  simp [serve, Accepted.request, tcosExe, needLogin, Env.trusting, Outcome.authenticated, Check.passed]

/-- A program name of a thousand bytes: what is run is the start of the name. -/
theorem long_name_cut : ¬ ∀ (b : Build) (e : Env) (user pass : Text) (r : Accepted),
    (serve b e (r.request user pass)).authenticated = true → Whole b e user pass r := by
  intro hall
  have hwhole := hall .thinClient .trusting [] [] (.exe (List.replicate 1000 'a')) (trusting_accepts _)
  have hlen : (jobLine .thinClient (req (List.replicate 1000 'a'))).length < buffSize :=
    (exe_iff ..).mp hwhole
  have hle := (jobLine_length .thinClient (req (List.replicate 1000 'a'))).1
  rw [req_length, List.length_replicate] at hle
  exact absurd (lt_of_le_of_lt hle hlen) (by decide)

end Tcos.Xmlrpc
