import Tcos.Lists.Overwrite
import Tcos.Scripts.Daemonize
import Tcos.Shell.Landing
import Tcos.Systems.Run
import Tcos.Xmlrpc.Handlers

/-! Locks of a thin client, from the request to the program that runs.

A lock is a program that the server starts through daemonize.sh; it is taken off by its name, with killall.
`locks_run` says that after any requests of any clients a lock is on exactly if the last accepted request
that named it was to put it on, and that it is never on twice.

What start-stop-daemon and killall do is not the server's: they are `Tools`, and `Documented` is what is
asked of them. A running program is recognised by the file that it was started from, so this holds for
compiled programs only: of a script the file is that of its interpreter, and it is started again. A killed
program is taken to end before the next request, and the machine, with its programs and its PATH, stays as
it is. A lock's name is plain, without slash, at most fifteen bytes long, and no file in the directory
where the server runs. -/
namespace Tcos.Xmlrpc.Locks
open Shell (Text lit isPlain)
open Overwrite (last last_cons)
open Scripts.Daemonize (Machine daemonize which cmd path)
open Systems (run)

/-! ### Programs that run -/

/-- The name of a process: the file of its program. -/
def baseName (program : Text) : Text := (program.reverse.takeWhile (· != '/')).reverse

/-- The programs that start and end others. -/
structure Tools where
  /-- The arguments, and the programs that run. -/
  startStopDaemon : List Text → List Text → List Text
  killall : List Text → List Text → List Text
  /-- A program that runs from its own file, not through an interpreter. -/
  compiled : Text → Bool

/-- What daemonize.sh calls start-stop-daemon with, for a program without arguments. -/
def startArgs (program : Text) : List Text :=
  [lit "/sbin/start-stop-daemon", lit "--quiet", lit "--background", lit "--start", lit "--exec", program,
    lit "--"]

/-- The manuals of the two programs. -/
structure Documented (t : Tools) (m : Machine) : Prop where
  /-- A program that does not run yet is started. -/
  started : ∀ program procs, m.executable program = true → t.compiled program = true →
    program ∉ procs → t.startStopDaemon (startArgs program) procs = procs ++ [program]
  /-- `--exec` finds the program's own file. -/
  running : ∀ program procs, t.compiled program = true → program ∈ procs →
    t.startStopDaemon (startArgs program) procs = procs
  /-- All programs of this name end. -/
  killed : ∀ name procs, name ≠ [] → '/' ∉ name → name.head? ≠ some '-' → name.length ≤ 15 →
    t.killall [name] procs = procs.filter fun p => baseName p ≠ name

section Machine
variable (t : Tools) (m : Machine)

/-- The programs after a command line of the server. -/
def execute (procs : List Text) (line : Text) : List Text :=
  match (Shell.command line).map Shell.Simple.args with
  | some (program :: args) =>
    if program = lit "/sbin/daemonize.sh" then
      match args with
      | [] => procs
      | name :: rest => t.startStopDaemon (daemonize m name rest) procs
    else if program = lit "killall" then t.killall args procs
    else procs
  | _ => procs

end Machine

/-! ### Requests -/

inductive Lock where
  | lockscreen
  | unlockscreen
  | lockcontroller (action : Text)
  | unlockcontroller (action : Text)

def Lock.request (user pass : Text) : Lock → Request
  | .lockscreen => .lockscreen user pass
  | .unlockscreen => .unlockscreen user pass
  | .lockcontroller action => .lockcontroller action user pass
  | .unlockcontroller action => .unlockcontroller action user pass

def Lock.name : Lock → Text
  | .lockscreen | .unlockscreen => lit "lockscreen"
  | .lockcontroller action | .unlockcontroller action => action

/-- It puts the lock on. -/
def Lock.locks : Lock → Bool
  | .lockscreen | .lockcontroller _ => true
  | .unlockscreen | .unlockcontroller _ => false

inductive Event where
  /-- A request, as it finds the machine. -/
  | request (e : Env) (user pass : Text) (lock : Lock)
  /-- A program ends by itself. -/
  | exit (program : Text)

/-- The command lines that run. -/
def executed (e : Env) (r : Request) : List Text :=
  ((serve .thinClient e r).ran.map Line.text).filter fun l => e.popen l ≠ .failed

def step (t : Tools) (m : Machine) (procs : List Text) : Event → List Text
  | .request e user pass lock => (executed e (lock.request user pass)).foldl (execute t m) procs
  | .exit program => procs.filter (· ≠ program)

/-- A compiled program of the path, with a plain name that a process can have. -/
structure Lockable (t : Tools) (m : Machine) (name : Text) : Prop where
  nonempty : name ≠ []
  plain : ∀ c ∈ name, isPlain c = true ∧ c ≠ '/'
  option : name.head? ≠ some '-'
  /-- The kernel keeps fifteen bytes of a name. -/
  short : name.length ≤ 15
  absent : m.present name = false
  found : (which m name).isSome = true
  compiled : t.compiled (cmd m name) = true

/-- What an event says of a lock. -/
def setting (m : Machine) (name : Text) : Event → Option Bool
  | .request e user pass lock =>
    if e.validateLogin user pass = loginOk ∧ lock.name = name then some lock.locks else none
  | .exit program => if program = cmd m name then some false else none

/-- Its commands run, and it names a lock. -/
def Event.Usable (t : Tools) (m : Machine) : Event → Prop
  | .request e _ _ lock => Lockable t m lock.name ∧ ∀ l, e.popen l ≠ .failed
  | .exit _ => True

/-! ### Names -/

section Names
variable {t : Tools} {m : Machine} {name : Text}

theorem cmd_found (h : Lockable t m name) :
    ∃ d, cmd m name = d ++ '/' :: name ∧ m.executable (cmd m name) = true := by
  have hslash : '/' ∉ name := fun hc => (h.plain '/' hc).2 rfl
  obtain ⟨p, hp⟩ := Option.isSome_iff_exists.mp h.found
  have hcmd : cmd m name = p := by
    rw [cmd, if_neg (by simp [h.absent]), hp]
    rfl
  rw [which, if_neg hslash] at hp
  obtain ⟨d, -, rfl⟩ := List.mem_map.mp (List.mem_of_find?_eq_some hp)
  exact ⟨d, hcmd, hcmd ▸ List.find?_some hp⟩

theorem baseName_slash (d : Text) (h : '/' ∉ name) : baseName (d ++ '/' :: name) = name := by
  have hrest : ∀ c ∈ name.reverse, (c != '/') = true := by
    intro c hc
    simpa using fun heq : c = '/' => h (heq ▸ List.mem_reverse.mp hc)
  rw [baseName, List.reverse_append, List.reverse_cons, List.append_assoc,
    List.takeWhile_append_of_pos hrest]
  simp

theorem baseName_cmd (h : Lockable t m name) : baseName (cmd m name) = name := by
  obtain ⟨d, hcmd, -⟩ := cmd_found h
  rw [hcmd, baseName_slash d fun hc => (h.plain '/' hc).2 rfl]

theorem cmd_injective {name' : Text} (h : Lockable t m name) (h' : Lockable t m name')
    (heq : cmd m name = cmd m name') : name = name' := by
  rw [← baseName_cmd h, heq, baseName_cmd h']

theorem plain_ne (h : Lockable t m name) {c d : Char} (hc : c ∈ name) (hd : isPlain d = false) : c ≠ d := by
  rintro rfl
  exact absurd (h.plain c hc).1 (by simp [hd])

/-- The name, as daemonize.sh takes it. -/
def Lockable.command (h : Lockable t m name) : Scripts.Daemonize.Command m where
  name := name
  some := h.nonempty
  inert c hc := by
    have hpattern := (Shell.isPlain_facts (h.plain c hc).1).2.1
    have hblank : c ≠ ' ' ∧ c ≠ '\t' ∧ c ≠ '\n' :=
      ⟨plain_ne h hc (by decide), plain_ne h hc (by decide), plain_ne h hc (by decide)⟩
    simp [Shell.isInert, Shell.isIfs, hpattern, hblank]
  found := .inr h.found

theorem lock_words (h : Lockable t m name) : Scripts.Daemonize.Words h.command.name [] where
  solid _ hw := absurd hw (by simp)
  backslash := ⟨fun hc => plain_ne h hc (d := '\\') (by decide) rfl, fun _ hw => absurd hw (by simp)⟩
  option := h.option
  bars := by
    have hnone : name.count '|' = 0 := List.count_eq_zero.mpr fun hc => plain_ne h hc (d := '|') (by decide) rfl
    exact hnone.trans_le (Nat.zero_le 1)

theorem daemonize_lock (h : Lockable t m name) : daemonize m name [] =
    startArgs (cmd m name) := by
  have hbar : '|' ∉ h.command.name := fun hc => plain_ne h hc (by decide) rfl
  have hanchor : ∀ d, isPlain d = false → name.head? ≠ some d ∧ name.getLast? ≠ some d := fun d hd =>
    ⟨fun heq => plain_ne h (List.mem_of_head? heq) hd rfl, fun heq => plain_ne h (List.mem_of_getLast? heq) hd rfl⟩
  have hdots : Grep.Dotted h.command.name := ⟨Scripts.Daemonize.name_simple _ (lock_words h),
    (hanchor '^' (by decide)).1, (hanchor '$' (by decide)).2⟩
  -- nothing is left for the pattern to match
  have hnothing : ([] : Text).tails.any (Grep.fits name) = false := by
    obtain ⟨c, t, hname⟩ := List.exists_cons_of_ne_nil h.nonempty
    simp [hname, Grep.fits]
  have hstarted := (Scripts.Daemonize.started_iff h.command (lock_words h)).mpr
    ((Scripts.Daemonize.dotted_iff h.command (lock_words h) hbar hdots).mpr hnothing)
  exact (hstarted [] rfl).trans (List.append_nil _)

/-- **What daemonize.sh does with a name.** -/
theorem execute_daemonize (ht : Documented t m) (h : Lockable t m name) (procs : List Text) :
    t.startStopDaemon (daemonize m name []) procs =
      if cmd m name ∈ procs then procs else procs ++ [cmd m name] := by
  obtain ⟨-, -, hexecutable⟩ := cmd_found h
  rw [daemonize_lock h]
  split
  case isTrue hmem => exact ht.running _ _ h.compiled hmem
  case isFalse hmem => exact ht.started _ _ hexecutable h.compiled hmem

/-! ### Command lines -/

/-- What stands before the name of a lock. -/
def startLine : Text := cmdWrapper .thinClient ++ lit " "

theorem startLine_awaits : (Shell.Parser.run id {} startLine).Awaits id
    { assigns := [lit "DISPLAY=:0", lit "XAUTHORITY=/root/.Xauthority"], args := [lit "/sbin/daemonize.sh"] } :=
  ⟨by with_unfolding_all decide, by with_unfolding_all decide, by with_unfolding_all decide,
    by with_unfolding_all decide, by with_unfolding_all decide⟩

theorem killLine_awaits : (Shell.Parser.run id {} (lit "killall ")).Awaits id { args := [lit "killall"] } :=
  ⟨by with_unfolding_all decide, by with_unfolding_all decide, by with_unfolding_all decide,
    by with_unfolding_all decide, by with_unfolding_all decide⟩

/-- The shell hands the name over as the last argument. -/
theorem command_name {start : Text} {s : Shell.Simple} (hs : (Shell.Parser.run id {} start).Awaits id s)
    (h : Lockable t m name) : Shell.command (start ++ name) = some (s.append { args := [name] }) := by
  have hliteral : Shell.isLastLiteral name = true := by
    rw [Shell.isLastLiteral, Shell.isLiteral_of_plain h.nonempty fun c hc => (h.plain c hc).1, Bool.true_or]
  have hlands := (Shell.lands_iff id hs (b := ' ') rfl [] name).mpr
    ⟨fun _ hf => absurd hf (by simp), by rwa [List.map_id]⟩
  have hwhole := hlands.whole
  rw [← Shell.run_append, List.map_id] at hwhole
  exact hwhole

theorem startLine_name (h : Lockable t m name) (line : Line) (hline : line.text = name) :
    (jobExe .thinClient (program .thinClient line)).text = startLine ++ name := by
  have hstart : startLine.length ≤ 100 := by with_unfolding_all decide
  have hpath : program .thinClient line = line := if_pos (by with_unfolding_all rfl)
  have hlen : line.length = name.length := by rw [← hline, Line.text, List.length_map]
  have hshort := h.short
  rw [hpath, jobExe, Libc.cut_of_fits]
  · rw [append_text, own_text, hline, startLine]
  · rw [List.length_append, own_length, hlen, ← startLine]
    simp only [buffSize]
    omega

theorem killLine_name (h : Lockable t m name) (line : Line) (hline : line.text = name) :
    (killExe line).text = lit "killall " ++ name := by
  have hstart : (lit "killall ").length ≤ 100 := by with_unfolding_all decide
  have hlen : line.length = name.length := by rw [← hline, Line.text, List.length_map]
  have hshort := h.short
  rw [killExe, Libc.cut_of_fits]
  · rw [append_text, own_text, hline]
  · rw [List.length_append, own_length, hlen]
    simp only [buffSize]
    omega

theorem execute_start (ht : Documented t m) (h : Lockable t m name) (procs : List Text) :
    execute t m procs (startLine ++ name) =
      if cmd m name ∈ procs then procs else procs ++ [cmd m name] := by
  rw [execute, command_name startLine_awaits h]
  exact (if_pos rfl).trans (execute_daemonize ht h procs)

theorem execute_kill (ht : Documented t m) (h : Lockable t m name) (procs : List Text) :
    execute t m procs (lit "killall " ++ name) = procs.filter fun p => baseName p ≠ name := by
  have hother : lit "killall" ≠ lit "/sbin/daemonize.sh" := by with_unfolding_all decide
  rw [execute, command_name killLine_awaits h]
  refine ((if_neg hother).trans (if_pos rfl)).trans ?_
  exact ht.killed name procs h.nonempty (fun hc => (h.plain '/' hc).2 rfl) h.option h.short

/-- The line of an accepted request. -/
def Lock.line (lock : Lock) : Text := if lock.locks then startLine ++ lock.name else lit "killall " ++ lock.name

/-- **An accepted request runs its line, a refused one nothing.** -/
theorem executed_lock {e : Env} (hpopen : ∀ l, e.popen l ≠ .failed) (user pass : Text) {lock : Lock}
    (h : Lockable t m lock.name) : executed e (lock.request user pass) =
      if e.validateLogin user pass = loginOk then [lock.line] else [] := by
  have hgo : ∀ l : Line, (reached e [l]).map Line.text = [l.text] := by
    intro l
    rw [reached, if_neg (hpopen l.text)]
    rfl
  have hran : (serve .thinClient e (lock.request user pass)).ran.map Line.text =
      if e.validateLogin user pass = loginOk then [lock.line] else [] := by
    cases lock with
    | lockscreen | lockcontroller action =>
      simp only [Lock.request, serve, tcosLockscreen, tcosLockcontroller, needLogin]
      split
      · exact (hgo _).trans (congrArg (fun l => [l]) (startLine_name h _ (by simp [Lock.name])))
      · rfl
    | unlockscreen | unlockcontroller action =>
      simp only [Lock.request, serve, tcosUnlockscreen, tcosUnlockcontroller, needLogin]
      split
      · exact (hgo _).trans (congrArg (fun l => [l]) (killLine_name h _ (by simp [Lock.name])))
      · rfl
  rw [executed, hran]
  split <;> simp [hpopen]

/-! ### Runs -/

/-- The programs after a request. -/
theorem step_request (ht : Documented t m) {e : Env} (hpopen : ∀ l, e.popen l ≠ .failed)
    (user pass : Text) {lock : Lock} (h : Lockable t m lock.name) (procs : List Text) :
    step t m procs (.request e user pass lock) =
      if e.validateLogin user pass = loginOk then
        if lock.locks then if cmd m lock.name ∈ procs then procs else procs ++ [cmd m lock.name]
        else procs.filter fun p => baseName p ≠ lock.name
      else procs := by
  rw [step, executed_lock hpopen user pass h]
  cases hlocks : lock.locks with
  | true => split <;> simp [Lock.line, hlocks, execute_start ht h]
  | false => split <;> simp [Lock.line, hlocks, execute_kill ht h]

/-- **One event.** -/
theorem mem_step (ht : Documented t m) {procs : List Text} {ev : Event} (h : Lockable t m name)
    (hev : ev.Usable t m) : cmd m name ∈ step t m procs ev ↔ (setting m name ev).getD (decide (cmd m name ∈ procs)) = true := by
  cases ev with
  | exit program => by_cases heq : program = cmd m name <;> simp [step, setting, heq, eq_comm]
  | request e user pass lock =>
    rw [step_request ht hev.2 user pass hev.1, setting]
    by_cases hlogin : e.validateLogin user pass = loginOk
    · by_cases hname : lock.name = name
      · cases hlocks : lock.locks with
        | true =>
          by_cases hmem : cmd m name ∈ procs <;> simp [hlogin, hname, hmem]
        | false => simp [hlogin, hname, baseName_cmd h]
      · have hother : cmd m name ≠ cmd m lock.name := fun heq => hname (cmd_injective h hev.1 heq).symm
        cases hlocks : lock.locks with
        | true => by_cases hmem : cmd m lock.name ∈ procs <;> simp [hlogin, hname, hmem, hother]
        | false => simp [hlogin, hname, baseName_cmd h, Ne.symm hname]
    · simp [hlogin]

theorem step_nodup (ht : Documented t m) {procs : List Text} {ev : Event} (hev : ev.Usable t m)
    (h : procs.Nodup) : (step t m procs ev).Nodup := by
  cases ev with
  | exit program => exact h.filter _
  | request e user pass lock =>
    rw [step_request ht hev.2 user pass hev.1]
    split_ifs with hlogin hlocks hmem
    · exact h
    · exact List.nodup_append.mpr ⟨h, List.nodup_singleton _, fun a ha b hb => by
        rintro rfl
        exact hmem (List.mem_singleton.mp hb ▸ ha)⟩
    · exact h.filter _
    · exact h

/-- **After any requests a lock is on exactly if the last accepted one that named it was to put it on and
it did not end since; and it is on once.** -/
theorem locks_run (ht : Documented t m) (h : Lockable t m name) {es : List Event}
    (hes : ∀ ev ∈ es, ev.Usable t m) {procs : List Text} (hprocs : procs.Nodup) :
    (run (step t m) procs es).Nodup ∧
      (cmd m name ∈ run (step t m) procs es ↔
        (last (setting m name) es).getD (decide (cmd m name ∈ procs)) = true) := by
  induction es generalizing procs with
  | nil => exact ⟨hprocs, by simp [run]⟩
  | cons ev es ih =>
    obtain ⟨hev, hes⟩ := List.forall_mem_cons.mp hes
    obtain ⟨hnodup, hrun⟩ := ih hes (step_nodup ht hev hprocs)
    refine ⟨hnodup, hrun.trans ?_⟩
    rw [last_cons]
    cases last (setting m name) es with
    | some v => rfl
    | none => simpa using mem_step ht h hev

end Names

/-- The two programs on a machine without scripts. -/
def plainTools : Tools where
  startStopDaemon argv procs :=
    match argv.dropWhile (· ≠ lit "--exec") with
    | _ :: program :: _ =>
      if procs.contains program || !Scripts.Daemonize.plainMachine.executable program then procs
      else procs ++ [program]
    | _ => procs
  killall names procs := procs.filter fun p => !names.contains (baseName p)
  compiled _ := true

theorem plainTools_documented : Documented plainTools Scripts.Daemonize.plainMachine := by
  have hargs : ∀ program, (startArgs program).dropWhile (· ≠ lit "--exec") =
      [lit "--exec", program, lit "--"] := by
    intro program
    have hoptions : ∀ w ∈ [lit "/sbin/start-stop-daemon", lit "--quiet", lit "--background", lit "--start"],
        decide (w ≠ lit "--exec") = true := by with_unfolding_all decide
    exact (List.dropWhile_append_of_pos hoptions).trans (List.dropWhile_cons_of_neg (by simp))
  refine ⟨fun program procs hexecutable _ hmem => ?_, fun program procs _ hmem => ?_,
    fun name procs _ _ _ _ => ?_⟩
  · dsimp only [plainTools]
    rw [hargs]
    simp [hexecutable, hmem]
  · dsimp only [plainTools]
    rw [hargs]
    simp [hmem]
  · simp [plainTools]

theorem x11vnc_lockable : Lockable plainTools Scripts.Daemonize.plainMachine (lit "x11vnc") where
  nonempty := by with_unfolding_all decide
  plain := Shell.each (by with_unfolding_all decide)
  option := by with_unfolding_all decide
  short := by with_unfolding_all decide
  absent := rfl
  found := by with_unfolding_all decide
  compiled := rfl

/-- A request that is accepted, and one of a client that is not. -/
def twoRequests : List Event :=
  [.request { Env.client with validateLogin := fun _ _ => loginOk } [] [] (.lockcontroller (lit "x11vnc")),
    .request Env.client [] [] (.unlockcontroller (lit "x11vnc"))]

theorem locks_run_x11vnc :
    (run (step plainTools Scripts.Daemonize.plainMachine) [] twoRequests).Nodup ∧
      (cmd Scripts.Daemonize.plainMachine (lit "x11vnc") ∈
          run (step plainTools Scripts.Daemonize.plainMachine) [] twoRequests ↔
        (last (setting Scripts.Daemonize.plainMachine (lit "x11vnc")) twoRequests).getD
          (decide (cmd Scripts.Daemonize.plainMachine (lit "x11vnc") ∈ ([] : List Text))) = true) :=
  locks_run plainTools_documented x11vnc_lockable (fun ev hev => by
    simp only [twoRequests, List.mem_cons, List.not_mem_nil, or_false] at hev
    rcases hev with rfl | rfl <;> exact ⟨x11vnc_lockable, fun _ => by simp [Env.client]⟩) List.nodup_nil

end Tcos.Xmlrpc.Locks
