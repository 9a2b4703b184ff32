import Tcos.Lists.Overwrite
import Tcos.Scripts.Autologin
import Tcos.Systems.Run
import Tcos.Xmlrpc.Last

/-! Whose session tcos-last reports.

`GetLast` looks for the newest record of a host whose process is still there, in wtmp and its nine rotated
files. `getLast_newest` says that over any run of logins, logouts and rotations this is the session that
was opened last and is still open, and `getLast_reused_iff` what a process number that is used again does
to the answer. -/
namespace Tcos.Xmlrpc.Wtmp
open Shell (Text lit)
open Libc (decimal tokens)
open Last (Parsers matchesHost)
open Overwrite (last last_append last_singleton last_eq_some last_filter)
open Scripts.Autologin (int readExeOutput)
open Systems (run Every)

/-! ### The program -/

structure Record where
  utType : Nat
  utHost : Text
  utLine : Text
  utUser : Text
  utPid : Int
  /-- `ut_tv[0]`. -/
  utTv : Int
  deriving DecidableEq, Repr

def userProcess : Nat := 7

/-- A session as GDM tells it. -/
structure Session where
  user : Text
  remoteHostName : Text
  diff : Text

structure Data where
  pid : Int
  user : Text
  /-- A session of GDM has none. -/
  userid : Option Int
  timelogged : Text

structure System where
  getIpAddress : Text → Option Text
  getHostname : Text → Option Text
  /-- `tcosmonitor.Sessions`; `none` is an exception. -/
  sessions : Option (List Session)
  /-- The records of wtmp, `wtmp.1`, ...; `none` is no file. -/
  wtmp : Nat → Option (List Record)
  /-- `/proc/PID` is a directory. -/
  alive : Int → Bool
  getpwnam : Text → Option Int
  time : ℚ
  /-- What `groups USER 2>/dev/null` prints. -/
  groups : Text → Text
  getgrnam : Text → Option (List Text)

def ipValid (ip : Text) : Bool :=
  let xip := ip.splitOn '.'
  xip.length == 4 && xip.all fun block => (int block).any fun n => !(n < 0 || n ≥ 255)

/-- `"%s"`. -/
def shown (t : Option Text) : Text := t.getD (lit "None")

/-- `int` of a number. -/
def truncated (q : ℚ) : Int := if 0 ≤ q then ⌊q⌋ else ⌈q⌉

/-- `%02d`. -/
def twoDigits (n : Int) : Text := if (decimal n).length < 2 then '0' :: decimal n else decimal n

def timelogged (diff : ℚ) : Text :=
  let days := truncated (diff / (3600 * 24))
  let diff := diff - days * 3600 * 24
  let hours := truncated (diff / 3600)
  let diff := diff - hours * 3600
  let minutes := truncated (diff / 60)
  let clock := twoDigits hours ++ lit "h:" ++ twoDigits minutes ++ ['m']
  if days = 0 then clock else decimal days ++ lit "d " ++ clock

section GetLast
variable {α : Type} (A : Parsers α) (s : System)

/-- The record is of this host, and of a display. -/
def Record.isOf (ip hostname : Option Text) (b : Record) : Bool :=
  b.utType == userProcess && matchesHost A (shown ip) (shown hostname) b.utHost b.utLine &&
    !(lit "pts/").isPrefixOf b.utLine

/-- The loop over the records of a file. -/
def readFile (found : Record → Bool) (file : List Record) (last : Option Record) : Option Record :=
  file.foldl (fun last b => if found b then some b else last) last

/-- The loop over the files. -/
def search (found : Record → Bool) : List Nat → Option Record → Option Record
  | [], last => last
  | i :: is, last =>
    match s.wtmp i with
    | none => search found is last
    | some file =>
      let last := readFile found file last
      if last.any fun b => s.alive b.utPid then last else search found is last

/-- The record that `GetLast` comes to. -/
def lastRecord (ip hostname : Option Text) : Option Record :=
  (search s (fun b => b.isOf A ip hostname && s.alive b.utPid) (List.range 10) none).filter fun b =>
    s.alive b.utPid

def address (ip : Text) : Option Text := if ip ≠ [] ∧ ipValid ip = false then s.getIpAddress ip else some ip

/-- `data`, empty where nothing was found; `none` is an exception. -/
def dataOf : Option Record → Option (Option Data)
  | none => some none
  | some b => (s.getpwnam b.utUser).map fun uid =>
    some ⟨b.utPid, b.utUser, some uid, timelogged (s.time - b.utTv)⟩

def getLast (host : Text) : Option (Option Data) :=
  let ip := address s host
  match (s.sessions.getD []).find? fun session => some session.remoteHostName == ip with
  | some session => some (some ⟨0, session.user, none, session.diff⟩)
  | none => dataOf s (lastRecord A s ip (ip.bind s.getHostname))

def usersingroup (user ingroup : Text) : List Text :=
  let ofUser := ((readExeOutput (s.groups user)).head?.map (tokens Libc.isSpace)).getD []
  if ofUser = [] then (s.getgrnam ingroup).getD [] else ofUser

inductive Action where
  | user | userid | time | pid
  | ingroup (group : Text)

/-- What the program prints, `none` where it fails. -/
def Action.prints (data : Data) : Action → Option Text
  | .user => some data.user
  | .userid => data.userid.map decimal
  | .time => some data.timelogged
  | .pid => some (decimal data.pid)
  | .ingroup group =>
    some (if (usersingroup s data.user group).contains group then lit "exclude" else lit "noexclude")

def tcosLast (host : Text) (action : Option Action) : Option Text := do
  let data ← (← getLast A s host)
  (← action).prints s data

end GetLast

/-! ### The files as one log -/

section Log
variable {s : System} {found : Record → Bool}

theorem readFile_last (file : List Record) (v : Option Record) :
    readFile found file v = (last (Option.guard found) file).or v := by
  rw [← Overwrite.foldl_overwrite]
  refine List.foldl_ext _ _ v fun v b _ => ?_
  cases h : found b <;> simp [Option.guard, h]

theorem last_guard {l : List Record} {b : Record} (h : last (Option.guard found) l = some b) :
    b ∈ l ∧ found b = true := by
  obtain ⟨before, c, after, rfl, hc, -⟩ := last_eq_some.mp h
  simp only [Option.guard, Option.ite_none_right_eq_some, Option.some.injEq] at hc
  exact ⟨by simp [hc.2], hc.2 ▸ hc.1⟩

/-- **The newest record of all files, although the newest file is searched first.** -/
theorem search_last (halive : ∀ b, found b = true → s.alive b.utPid = true) (is : List Nat) :
    search s found is none = last (Option.guard found) (is.filterMap s.wtmp).reverse.flatten := by
  induction is with
  | nil => rfl
  | cons i is ih =>
    rw [search]
    cases hfile : s.wtmp i with
    | none => rw [List.filterMap_cons_none hfile, ← ih]
    | some file =>
      rw [List.filterMap_cons_some hfile, List.reverse_cons, List.flatten_append, last_append,
        List.flatten_singleton]
      simp only [readFile_last, Option.or_none]
      cases hlast : last (Option.guard found) file with
      | none => simpa using ih
      | some b => simp [halive b (last_guard hlast).2]

end Log

/-! ### Sessions -/

/-- The log files, the newest first, and the processes. -/
structure World where
  wtmp : List Record
  rotated : List (List Record)
  procs : List Int

inductive Event where
  /-- A session starts. -/
  | login (b : Record)
  /-- Any other record, such as that of a logout. -/
  | write (b : Record)
  | spawn (pid : Int)
  | exit (pid : Int)
  | rotate

def World.step (w : World) : Event → World
  | .login b => { w with wtmp := w.wtmp ++ [b], procs := b.utPid :: w.procs }
  | .write b => { w with wtmp := w.wtmp ++ [b] }
  | .spawn pid => { w with procs := pid :: w.procs }
  | .exit pid => { w with procs := w.procs.filter (· ≠ pid) }
  | .rotate => { w with wtmp := [], rotated := w.wtmp :: w.rotated }

/-- The sessions that are open, in the order of their logins. -/
def openStep (opens : List Record) : Event → List Record
  | .login b => opens ++ [b]
  | .exit pid => opens.filter (·.utPid ≠ pid)
  | _ => opens

/-- The system in this world. -/
def World.on (w : World) (s : System) : System :=
  { s with wtmp := fun i => (w.wtmp :: w.rotated)[i]?, alive := fun pid => decide (pid ∈ w.procs) }

/-- The records of wtmp to `wtmp.9` by age. -/
def World.log (w : World) : List Record := (w.rotated.take 9).reverse.flatten ++ w.wtmp

/-- No login in the log had the process number. -/
def World.Unused (w : World) (pid : Int) : Prop := ∀ b ∈ w.log, b.utType = userProcess → b.utPid ≠ pid

def Admissible (w : World) : Event → Prop
  | .login b => b.utType = userProcess ∧ w.Unused b.utPid
  | .write b => b.utType ≠ userProcess
  | .spawn pid => w.Unused pid
  | .exit _ => True
  -- the oldest file goes
  | .rotate => ∀ b ∈ (w.rotated[8]?).getD [], b.utType = userProcess → b.utPid ∉ w.procs

def Record.isOpen (procs : List Int) (b : Record) : Bool := b.utType == userProcess && decide (b.utPid ∈ procs)

/-- The open sessions are the logins of the log whose process is there. -/
def World.Shows (w : World) (opens : List Record) : Prop := w.log.filter (·.isOpen w.procs) = opens

section Sessions
variable {w : World} {opens : List Record}

theorem filterMap_files (l : List (List Record)) (n : Nat) :
    (List.range n).filterMap (fun i => l[i]?) = l.take n := by
  induction n with
  | zero => rfl
  | succ n ih =>
    rw [List.range_succ, List.filterMap_append, ih, List.take_add_one]
    cases h : l[n]? <;> simp [h]

theorem log_files (w : World) (s : System) :
    (List.range 10).filterMap (w.on s).wtmp = w.wtmp :: w.rotated.take 9 := by
  simpa [World.on] using filterMap_files (w.wtmp :: w.rotated) 10

/-- Processes that are no sessions. -/
theorem isOpen_unused {pid : Int} (h : w.Unused pid) :
    w.log.filter (·.isOpen (pid :: w.procs)) = w.log.filter (·.isOpen w.procs) := by
  refine List.filter_congr fun b hb => ?_
  rw [Record.isOpen, Record.isOpen]
  by_cases htype : b.utType = userProcess
  · simp [h b hb htype]
  · rw [beq_eq_false_iff_ne.mpr htype, Bool.false_and, Bool.false_and]

theorem isOpen_exit (pid : Int) (l : List Record) :
    l.filter (·.isOpen (w.procs.filter (· ≠ pid))) = (l.filter (·.isOpen w.procs)).filter (·.utPid ≠ pid) := by
  rw [List.filter_filter]
  refine List.filter_congr fun b _ => ?_
  by_cases h : b.utPid = pid <;> simp [Record.isOpen, h]

theorem log_rotate (w : World) : w.log = (w.rotated[8]?).getD [] ++ (w.step .rotate).log := by
  have htake : w.rotated.take 9 = w.rotated.take 8 ++ (w.rotated[8]?).toList := List.take_add_one
  rw [World.log, World.log, htake]
  cases w.rotated[8]? <;> simp [World.step]

/-- **One event.** -/
theorem step_shows (h : w.Shows opens) {e : Event} (he : Admissible w e) :
    (w.step e).Shows (openStep opens e) := by
  cases e with
  | login b =>
    have hold := isOpen_unused he.2
    rw [World.Shows] at h
    simp only [World.Shows, World.log, World.step, openStep, ← List.append_assoc, List.filter_append] at hold h ⊢
    rw [hold, h]
    simp [Record.isOpen, he.1]
  | write b =>
    have hb : b.isOpen w.procs = false := by simp [Record.isOpen, show b.utType ≠ userProcess from he]
    rw [World.Shows] at h
    simp only [World.Shows, World.log, World.step, openStep, ← List.append_assoc, List.filter_append] at h ⊢
    rw [h]
    simp [hb]
  | spawn pid => exact (isOpen_unused he).trans h
  | exit pid => exact (isOpen_exit pid w.log).trans (congrArg _ h)
  | rotate =>
    have hgone : ((w.rotated[8]?).getD []).filter (·.isOpen w.procs) = [] := by
      rw [List.filter_eq_nil_iff]
      intro b hb hopen
      simp only [Record.isOpen, Bool.and_eq_true, beq_iff_eq, decide_eq_true_eq] at hopen
      exact he b hb hopen.1 hopen.2
    rw [World.Shows, log_rotate w, List.filter_append, hgone] at h
    exact h

/-- **Every run.** -/
theorem run_shows (h : w.Shows opens) {es : List Event} (hes : Every World.step Admissible w es) :
    (run World.step w es).Shows (run openStep opens es) := by
  induction es generalizing w opens with
  | nil => exact h
  | cons e es ih => exact ih (step_shows h hes.1) hes.2

end Sessions

section Answers
variable {α : Type} {A : Parsers α} {s : System} {w : World} {opens : List Record} {ip hostname : Option Text}

theorem last_getLast (found : Record → Bool) (l : List Record) :
    last (Option.guard found) l = (l.filter found).getLast? := by
  rw [last, List.filterMap_eq_filter]

theorem lastRecord_log (w : World) : lastRecord A (w.on s) ip hostname =
    (w.log.filter fun b => b.isOf A ip hostname && decide (b.utPid ∈ w.procs)).getLast? := by
  have hsearch : search (w.on s) (fun b => b.isOf A ip hostname && (w.on s).alive b.utPid) (List.range 10) none =
      (w.log.filter fun b => b.isOf A ip hostname && decide (b.utPid ∈ w.procs)).getLast? := by
    rw [search_last (fun b hb => (Bool.and_eq_true_iff.mp hb).2), log_files, List.reverse_cons,
      List.flatten_append, List.flatten_singleton, last_getLast]
    rfl
  rw [lastRecord, hsearch]
  cases hlast : (w.log.filter fun b => b.isOf A ip hostname && decide (b.utPid ∈ w.procs)).getLast? with
  | none => rfl
  | some b =>
    have hfound := (List.mem_filter.mp (List.mem_of_getLast? hlast)).2
    exact Option.filter_some_pos (Bool.and_eq_true_iff.mp hfound).2

/-- A login of this host that is open. -/
theorem isOf_open (b : Record) (procs : List Int) : (b.isOf A ip hostname && decide (b.utPid ∈ procs)) =
    (b.isOf A ip hostname && b.isOpen procs) := by
  cases htype : b.utType == userProcess <;> simp [Record.isOf, Record.isOpen, htype]

/-- **What a world that shows its sessions answers.** -/
theorem lastRecord_open (h : w.Shows opens) :
    lastRecord A (w.on s) ip hostname = (opens.filter (·.isOf A ip hostname)).getLast? := by
  rw [lastRecord_log, ← h, List.filter_filter]
  simp only [isOf_open]

/-- **After any logins, logouts and rotations tcos-last reports the session of the host that was opened last
and is still open.** -/
theorem getLast_newest (s : System) (hw : w.Shows opens) {es : List Event}
    (hes : Every World.step Admissible w es) (host : Text)
    (hgdm : ∀ session ∈ s.sessions.getD [], some session.remoteHostName ≠ address s host) :
    getLast A ((run World.step w es).on s) host = dataOf s (((run openStep opens es).filter
      (·.isOf A (address s host) ((address s host).bind s.getHostname))).getLast?) := by
  have hnone : (s.sessions.getD []).find? (fun session => some session.remoteHostName == address s host) =
      none := by
    rw [List.find?_eq_none]
    intro session hsession heq
    exact hgdm session hsession (beq_iff_eq.mp heq)
  rw [← lastRecord_open (s := s) (run_shows hw hes)]
  simp only [getLast, World.on, address] at hnone ⊢
  rw [hnone]
  rfl

/-- **A process number that is used again: the answer stays right exactly if every ended session of the host
that had the number was followed by one that is open; else it is a session of the host that had the number
and has ended.** -/
theorem getLast_reused_iff (s : System) (hw : w.Shows opens) {es : List Event}
    (hes : Every World.step Admissible w es) (pid : Int) (ip hostname : Option Text) :
    (lastRecord A (((run World.step w es).step (.spawn pid)).on s) ip hostname =
          ((run openStep opens es).filter (·.isOf A ip hostname)).getLast? ↔
        ∀ before b after, (run World.step w es).log = before ++ b :: after → b.isOf A ip hostname = true →
          b.utPid = pid → b ∉ run openStep opens es →
          ∃ c ∈ after, c.isOf A ip hostname = true ∧ c ∈ run openStep opens es) ∧
      (lastRecord A (((run World.step w es).step (.spawn pid)).on s) ip hostname ≠
          ((run openStep opens es).filter (·.isOf A ip hostname)).getLast? →
        ∃ b ∈ (run World.step w es).log,
          lastRecord A (((run World.step w es).step (.spawn pid)).on s) ip hostname = some b ∧
            b.isOf A ip hostname = true ∧ b.utPid = pid ∧ b ∉ run openStep opens es) := by
  have hshows := run_shows hw hes
  generalize run World.step w es = w at hshows
  generalize run openStep opens es = opens at hshows
  have hopen : ∀ b ∈ w.log, ((b.isOf A ip hostname && b.isOpen w.procs) = true ↔
      b.isOf A ip hostname = true ∧ b ∈ opens) := by
    intro b hb
    rw [← hshows, List.mem_filter, Bool.and_eq_true]
    simp [hb]
  have hwider : (fun b => Record.isOf A ip hostname b && decide (b.utPid ∈ (w.step (.spawn pid)).procs)) =
      fun b => (b.isOf A ip hostname && b.isOpen w.procs) || (b.isOf A ip hostname && decide (b.utPid = pid)) := by
    funext b
    rw [← isOf_open, ← Bool.and_or_distrib_left]
    simp [World.step, Bool.or_comm]
  have hright : opens.filter (·.isOf A ip hostname) =
      w.log.filter fun b => b.isOf A ip hostname && b.isOpen w.procs := by
    rw [← hshows, List.filter_filter]
  rw [lastRecord_log, hwider, hright, show (w.step (.spawn pid)).log = w.log from rfl]
  constructor
  · rw [Overwrite.getLast?_or_iff]
    refine forall_congr' fun before => forall_congr' fun b => forall_congr' fun after =>
      forall_congr' fun hlog => ?_
    have hafter : (∃ c ∈ after, (c.isOf A ip hostname && c.isOpen w.procs) = true) ↔
        ∃ c ∈ after, c.isOf A ip hostname = true ∧ c ∈ opens :=
      exists_congr fun c => and_congr_right fun hc => hopen c (by simp [hlog, hc])
    rw [hafter, Bool.and_eq_true, decide_eq_true_eq, Bool.eq_false_iff, ne_eq, hopen b (by simp [hlog])]
    tauto
  · intro hne
    obtain ⟨b, hmem, hlast, hpid, hended⟩ := Overwrite.getLast?_or_ne hne
    rw [Bool.and_eq_true, decide_eq_true_eq] at hpid
    refine ⟨b, hmem, hlast, hpid.1, hpid.2, fun hb => ?_⟩
    rw [(hopen b hmem).mpr ⟨hpid.1, hb⟩] at hended
    exact absurd hended (by simp)

/-! ### Two clients -/

/-- A login at the display of a client. -/
def atDisplay (host user : Text) (pid : Int) : Record := ⟨userProcess, host, host ++ lit ":0", user, pid, 0⟩

def firstLogin : Record := atDisplay (lit "10.0.2.15") (lit "mario") 100

def secondLogin : Record := atDisplay (lit "10.0.2.15") (lit "ana") 200

/-- One user after the other, and the log is rotated in between. -/
def twoUsers : List Event := [.login firstLogin, .exit 100, .rotate, .login secondLogin]

def plainSystem : System where
  getIpAddress _ := none
  getHostname _ := none
  sessions := none
  wtmp _ := none
  alive _ := false
  getpwnam _ := some 1000
  time := 90
  groups _ := []
  getgrnam _ := none

theorem twoUsers_admissible : Every World.step Admissible ⟨[], [], []⟩ twoUsers := by
  refine ⟨⟨rfl, by simp [World.Unused, World.log]⟩, trivial, by simp [Admissible, World.step], ⟨rfl, ?_⟩, trivial⟩
  simp [World.Unused, World.log, World.step, firstLogin, secondLogin, atDisplay]

theorem getLast_newest_ana :
    getLast Last.quadParsers ((run World.step ⟨[], [], []⟩ twoUsers).on plainSystem) (lit "10.0.2.15") =
      dataOf plainSystem (((run openStep [] twoUsers).filter (·.isOf Last.quadParsers
        (address plainSystem (lit "10.0.2.15"))
        ((address plainSystem (lit "10.0.2.15")).bind plainSystem.getHostname))).getLast?) :=
  getLast_newest plainSystem rfl twoUsers_admissible (lit "10.0.2.15") (by simp [plainSystem])

theorem getLast_reused_mario :
    lastRecord Last.quadParsers (((run World.step ⟨[], [], []⟩ twoUsers).step (.spawn 100)).on plainSystem)
        (some (lit "10.0.2.15")) none =
          ((run openStep [] twoUsers).filter (·.isOf Last.quadParsers (some (lit "10.0.2.15")) none)).getLast? ↔
      ∀ before b after, (run World.step ⟨[], [], []⟩ twoUsers).log = before ++ b :: after →
        b.isOf Last.quadParsers (some (lit "10.0.2.15")) none = true → b.utPid = 100 →
        b ∉ run openStep [] twoUsers → ∃ c ∈ after,
          c.isOf Last.quadParsers (some (lit "10.0.2.15")) none = true ∧ c ∈ run openStep [] twoUsers :=
  (getLast_reused_iff plainSystem rfl twoUsers_admissible 100 _ _).1

/-- The second user is found. -/
example : tcosLast Last.quadParsers ((run World.step ⟨[], [], []⟩ twoUsers).on plainSystem) (lit "10.0.2.15")
    (some .user) = some (lit "ana") := by with_unfolding_all decide

end Answers

/-! ### Times -/

section Times

theorem truncated_nonneg {q : ℚ} (h : 0 ≤ q) : truncated q = ⌊q⌋ := if_pos h

/-- What remains of a time after its whole units. -/
theorem rest_of_units {diff : ℚ} (unit : ℚ) (hunit : 0 < unit) (h : 0 ≤ diff) :
    0 ≤ truncated (diff / unit) ∧ 0 ≤ diff - truncated (diff / unit) * unit ∧
      diff - truncated (diff / unit) * unit < unit := by
  have hquot : 0 ≤ diff / unit := div_nonneg h hunit.le
  rw [truncated_nonneg hquot]
  have hle := (le_div_iff₀ hunit).mp (Int.floor_le (diff / unit))
  have hlt := (div_lt_iff₀ hunit).mp (Int.lt_floor_add_one (diff / unit))
  exact ⟨Int.floor_nonneg.mpr hquot, by linarith, by linarith⟩

/-- **The time that is printed is the time logged in, in whole minutes.** -/
theorem timelogged_minutes {diff : ℚ} (h : 0 ≤ diff) : ∃ days hours minutes : Int,
    0 ≤ days ∧ 0 ≤ hours ∧ hours < 24 ∧ 0 ≤ minutes ∧ minutes < 60 ∧
      days * 86400 + hours * 3600 + minutes * 60 ≤ diff ∧
      diff < days * 86400 + hours * 3600 + minutes * 60 + 60 ∧
      timelogged diff = (if days = 0 then [] else decimal days ++ lit "d ") ++
        (twoDigits hours ++ lit "h:" ++ twoDigits minutes ++ ['m']) := by
  obtain ⟨hdays, hrest, hday⟩ := rest_of_units (3600 * 24) (by norm_num) h
  rw [timelogged, mul_assoc]
  generalize truncated (diff / (3600 * 24)) = days at hdays hrest hday
  obtain ⟨hhours, hrest', hhour⟩ := rest_of_units 3600 (by norm_num) hrest
  generalize truncated ((diff - days * (3600 * 24)) / 3600) = hours at hhours hrest' hhour
  obtain ⟨hminutes, hrest'', hminute⟩ := rest_of_units 60 (by norm_num) hrest'
  generalize truncated ((diff - days * (3600 * 24) - hours * 3600) / 60) = minutes at hminutes hrest'' hminute
  have hhours24 : (hours : ℚ) < 24 := by linarith
  have hminutes60 : (minutes : ℚ) < 60 := by linarith
  refine ⟨days, hours, minutes, hdays, hhours, by exact_mod_cast hhours24, hminutes,
    by exact_mod_cast hminutes60, by linarith, by linarith, ?_⟩
  split_ifs with hzero <;> simp

end Times

end Tcos.Xmlrpc.Wtmp
