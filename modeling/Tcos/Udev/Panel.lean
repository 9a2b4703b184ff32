import Tcos.Scripts.Answers
import Tcos.Systems.Run
import Tcos.Udev.Udevd

/-! From the mount table to a panel that asks for the events.

The listener runs save-udev.sh for each mount that came or went, udev runs tcos-udevd.sh for each device, and
each request for `--getudev` empties the log into its answer, which goes through the buffer of tcos_devices. A
panel replays the answers. `panel_follows` says that it then shows what the listener's reports amount to, so
the devices of the table if the listener is faithful.

What is assumed of a run stands in `Admissible`. The listener reports devices of plain bytes in commands that
fit its buffer, and udev tells the truth about them; an event of udev is no mount of a disc; other programs
append whole lines with a `#`; and no more is pending when the panel asks than bin/seq counts and the buffer
holds. One poll, one event or one request is a single step here: the steps in between, and calls at the same
time, are those of Interleaved.lean and of devicesctl.sh. -/
namespace Tcos.Udev.Panel
open SaveUdev
open Scripts.Answers (Answer devicesctl tcosDevices)
open Shell (Text lit unlines captured Sh)
open Systems (Every run)

/-! ### The system -/

structure State where
  /-- `/tmp/proc_mounts`. -/
  saved : Text
  /-- `/tmp/tcos-udevd.log`. -/
  log : Text
  /-- What the panel shows. -/
  devices : Multiset Text

inductive Move where
  /-- The listener compares the table with its copy. -/
  | poll (m : Machine) (table : Table)
  /-- A device comes or goes. -/
  | udev (m : Machine) (filesystem : Text → Text) (env : List Property)
  /-- cdrom-mount appends a line. -/
  | other (record : Text)
  /-- The panel asks; `old` is what the temporary file held. -/
  | request (old : Text)

/-- The lines of an answer end in bars. -/
def update (devices : Multiset Text) (answer : Text) : Multiset Text :=
  ((answer.splitOn '|').filterMap readRecord).foldl apply devices

section System
variable (sh : Sh)

/-- What the command of an event appends, run by a shell. -/
def execute (m : Machine) (command : Text) : Text :=
  match (Shell.command command).map Shell.Simple.args with
  | some (program :: params) =>
    if program = saveUdev then appended sh m (params.getD 0 []) (params.getD 1 []) else []
  | _ => []

def step (s : State) : Move → State
  | .poll m table =>
    let r := compare (fileOf table.mounts) s.saved
    { s with saved := r.saved, log := s.log ++ r.commands.flatMap (execute sh m) }
  | .udev m filesystem env => { s with log := s.log ++ Udevd.appended sh m filesystem env }
  | .other record => { s with log := s.log ++ (record ++ ['\n']) }
  | .request old =>
    { s with
      log := []
      devices := update s.devices ((tcosDevices (devicesctl sh (captured s.log) old).flatten).getD []) }

/-- The listener and the panel both begin with this table. -/
def start (first : Table) : State := ⟨fileOf first.mounts, [], devicesOf first.mounts⟩

/-! ### What is asked of a move -/

/-- The whole command is for a device whose properties are its own. -/
structure Reported (m : Machine) (command : Text) (l : Mount) (a : Action) : Prop where
  text : command = eventCommand l.device a
  device : IsDevice l.device
  honest : Honest sh m l.device

/-- A disc in the drive is no mount, and an answer has room for the log. -/
def Admissible (s : State) : Move → Prop
  | .poll m table => ∀ c ∈ (compare (fileOf table.mounts) s.saved).commands, ∃ l a, Reported sh m c l a
  | .udev m filesystem env => Udevd.IsEvent m filesystem env
  | .other record => IsClean record ∧ '#' ∈ record ∧ readRecord record = none
  | .request _ => s.log.count '\n' ≤ 100 ∧ s.log.length < Xmlrpc.bsize

/-- The tables that the listener saw. -/
def tables : List Move → List Table
  | [] => []
  | .poll _ table :: moves => table :: tables moves
  | _ :: moves => tables moves

end System

/-! ### The log -/

/-- The log has these lines, and what they say is still to come. -/
structure Follows (s : State) (l : Listener) : Prop where
  saved : s.saved = l.saved
  pending : ∃ records : List Text, s.log = unlines records ∧ (∀ r ∈ records, IsClean r ∧ '#' ∈ r) ∧
    (records.filterMap readRecord).foldl apply s.devices = l.devices

section Steps
variable {sh : Sh} (other : Others) {s : State} {l : Listener}

/-- What a command appends says what its event is. -/
theorem execute_reported {m : Machine} {command : Text} {l : Mount} {a : Action}
    (h : Reported sh m command l a) :
    ∃ record, execute sh m command = record ++ ['\n'] ∧ (IsClean record ∧ '#' ∈ record) ∧
      ∃ e, readRecord record = some e ∧ eventsOf other command = [e] := by
  obtain ⟨record, happended, hclean, hhash, hread⟩ := reads_record h.device h.honest a
  have hliteral := Shell.isLiteral_of_plain h.device.some h.device.plain
  have hlast : Shell.isLastLiteral a.text = true := by cases a <;> with_unfolding_all decide
  refine ⟨record, ?_, ⟨hclean, hhash⟩, (l.device, a), hread, ?_⟩
  · rw [execute, h.text, eventCommand, command_args hliteral hlast, Option.map_some, ← happended]
    exact if_pos rfl
  · rw [h.text, eventsOf_whole other hliteral]

theorem execute_all {m : Machine} {commands : List Text} (h : ∀ c ∈ commands, ∃ l a, Reported sh m c l a) :
    ∃ records, commands.flatMap (execute sh m) = unlines records ∧ (∀ r ∈ records, IsClean r ∧ '#' ∈ r) ∧
      ∀ devices, (records.filterMap readRecord).foldl apply devices =
        commands.foldl (replay other) devices := by
  induction commands with
  | nil => exact ⟨[], rfl, by simp, fun _ => rfl⟩
  | cons c commands ih =>
    rw [List.forall_mem_cons] at h
    obtain ⟨l, a, hc⟩ := h.1
    obtain ⟨record, hexecute, hclean, e, hread, hevent⟩ := execute_reported other hc
    obtain ⟨records, hall, hrecords, hdevices⟩ := ih h.2
    refine ⟨record :: records, ?_, List.forall_mem_cons.mpr ⟨hclean, hrecords⟩, fun devices => ?_⟩
    · rw [List.flatMap_cons, hexecute, hall]
      simp [unlines]
    · rw [List.filterMap_cons_some hread, List.foldl_cons, List.foldl_cons, hdevices, replay, hevent]
      rfl

/-! ### The answer -/

theorem captured_lines {ls : List Text} (h : ∀ r ∈ ls, IsClean r ∧ '#' ∈ r) :
    captured (unlines ls) = ['\n'].intercalate ls := by
  have hlast : ls.getLast? ≠ some [] := fun hempty =>
    absurd (h [] (List.mem_of_getLast? hempty)).2 (by simp)
  rw [Scripts.Answers.captured_unlines fun l hl => (h l hl).1.oneLine,
    Scripts.Answers.rdropWhile_of_last hlast]

/-- The lines come back with their bars. -/
theorem answered {ls : List Text} (hne : ls ≠ []) (h : ∀ r ∈ ls, IsClean r)
    (hsingle : ∀ w, ls = [w] → w ≠ [] ∧ w ≠ lit "tmp_file" ∧ sh.isOption w = false) (hcount : ls.length ≤ 100)
    (hsize : (ls.flatMap (· ++ ['|'])).length < Xmlrpc.bsize) (old : Text) :
    tcosDevices (devicesctl sh (['\n'].intercalate ls) old).flatten = some (ls.flatMap (· ++ ['|'])) := by
  let a : Answer := ⟨ls, hne, fun l hl => (h l hl).oneLine⟩
  have hraw : sh.xsi = true → ∀ l ∈ a.lines, Shell.isRaw sh.more l = true := fun _ l hl =>
    Shell.isRaw_of_not_mem fun hslash => (h l hl _ hslash).2.2 rfl
  have houtput := Scripts.Answers.devicesctl_lines sh a hcount hraw hsingle old
  have hmarked : (a.marked '|').flatten = ls.flatMap (· ++ ['|']) := List.flatMap_def.symm
  have hreply := (Scripts.Answers.reply_iff (Scripts.Answers.marked_flatten a).1
    (Scripts.Answers.marked_flatten a).2).mpr (by rw [hmarked]; exact hsize)
  rw [← hmarked, ← hreply, ← houtput]

theorem splitOn_bars {ls : List Text} (h : ∀ r ∈ ls, IsClean r) :
    (ls.flatMap (· ++ ['|'])).splitOn '|' = ls ++ [[]] := by
  induction ls with
  | nil => rfl
  | cons r ls ih =>
    rw [List.forall_mem_cons] at h
    have hbar : '|' ∉ r := fun hmem => (h.1 _ hmem).2.1 rfl
    rw [List.flatMap_cons, List.append_assoc, List.singleton_append, Shell.splitOn_field hbar, ih h.2]
    rfl

theorem update_bars (devices : Multiset Text) {ls : List Text} (h : ∀ r ∈ ls, IsClean r) :
    update devices (ls.flatMap (· ++ ['|'])) = (ls.filterMap readRecord).foldl apply devices := by
  have hnone : readRecord [] = none := by with_unfolding_all decide
  rw [update, splitOn_bars h, List.filterMap_append, List.filterMap_cons_none hnone, List.filterMap_nil,
    List.append_nil]

theorem unlines_size (ls : List Text) : (unlines ls).length = (ls.flatMap (· ++ ['|'])).length := by
  simp [unlines]

/-- **A request gives the panel all that is pending.** -/
theorem update_log {records : List Text} (hrecords : ∀ r ∈ records, IsClean r ∧ '#' ∈ r)
    (hcount : (unlines records).count '\n' ≤ 100) (hsize : (unlines records).length < Xmlrpc.bsize) (old : Text)
    (devices : Multiset Text) :
    update devices ((tcosDevices (devicesctl sh (captured (unlines records)) old).flatten).getD []) =
      (records.filterMap readRecord).foldl apply devices := by
  have hclean : ∀ r ∈ records, IsClean r := fun r hr => (hrecords r hr).1
  rw [Scripts.Answers.count_unlines fun r hr => (hclean r hr).oneLine] at hcount
  rw [unlines_size] at hsize
  by_cases hne : records = []
  · subst hne
    have hword : IsClean (lit "unknow") := isClean_lit _ (by with_unfolding_all decide)
    have hnone : readRecord (lit "unknow") = none := by with_unfolding_all decide
    -- an empty log is answered by a word
    have hsame : devicesctl sh (captured (unlines [])) old =
        devicesctl sh (['\n'].intercalate [lit "unknow"]) old := by
      have hne : lit "unknow" ≠ [] := by with_unfolding_all decide
      have hempty : captured (unlines []) = [] := rfl
      rw [hempty, List.intercalate_singleton, devicesctl, devicesctl, if_pos rfl, if_neg hne]
    have hsingle : ∀ w, [lit "unknow"] = [w] → w ≠ [] ∧ w ≠ lit "tmp_file" ∧ sh.isOption w = false := by
      intro w hw
      obtain rfl := List.singleton_inj.mp hw
      refine ⟨by with_unfolding_all decide, by with_unfolding_all decide, ?_⟩
      unfold Sh.isOption
      split <;> with_unfolding_all rfl
    rw [hsame, answered (by simp) (by simpa using hword) hsingle (by simp) (by with_unfolding_all decide),
      Option.getD_some, update_bars devices (by simpa using hword), List.filterMap_cons_none hnone]
  · have hsingle : ∀ w, records = [w] → w ≠ [] ∧ w ≠ lit "tmp_file" ∧ sh.isOption w = false := by
      intro w hw
      obtain ⟨-, hhash⟩ := hrecords w (by simp [hw])
      refine ⟨List.ne_nil_of_mem hhash, ?_, sh.isOption_of_mem (by decide) hhash⟩
      rintro rfl
      exact absurd hhash (by with_unfolding_all decide)
    rw [captured_lines hrecords, answered hne hclean hsingle hcount hsize, Option.getD_some,
      update_bars devices hclean]

/-! ### Runs -/

/-- What the listener does at a move. -/
def listen (other : Others) (l : Listener) : Move → Listener
  | .poll _ table => l.step other table
  | _ => l

/-- **A move keeps the log and the panel with the listener.** -/
theorem step_follows (h : Follows s l) {move : Move} (hok : Admissible sh s move) :
    Follows (step sh s move) (listen other l move) := by
  obtain ⟨hsaved, records, hlog, hrecords, hdevices⟩ := h
  cases move with
  | poll m table =>
    obtain ⟨more, hmore, hclean, hreplay⟩ := execute_all other hok
    refine ⟨by simp only [step, listen, Listener.step, hsaved], records ++ more, ?_, ?_, ?_⟩
    · simp only [step, hlog, hmore]
      simp [unlines]
    · exact fun r hr => (List.mem_append.mp hr).elim (hrecords r) (hclean r)
    · simp only [step, listen, Listener.step]
      rw [List.filterMap_append, List.foldl_append, hdevices, hreplay, hsaved]
  | udev m filesystem env =>
    obtain ⟨more, hmore, hnone⟩ := Udevd.reads_none sh hok
    have hread : more.filterMap readRecord = [] := List.filterMap_eq_nil_iff.mpr fun r hr => (hnone r hr).2
    refine ⟨hsaved, records ++ more, ?_, ?_, ?_⟩
    · simp only [step, hlog, hmore]
      simp [unlines]
    · exact fun r hr => (List.mem_append.mp hr).elim (hrecords r) fun hr => (hnone r hr).1
    · rw [List.filterMap_append, hread, List.append_nil]
      exact hdevices
  | other record =>
    obtain ⟨hclean, hhash, hnone⟩ := hok
    refine ⟨hsaved, records ++ [record], ?_, ?_, ?_⟩
    · simp only [step, hlog]
      simp [unlines]
    · intro r hr
      rcases List.mem_append.mp hr with hr | hr
      · exact hrecords r hr
      · rw [List.mem_singleton.mp hr]
        exact ⟨hclean, hhash⟩
    · rw [List.filterMap_append, List.filterMap_cons_none hnone, List.filterMap_nil, List.append_nil]
      exact hdevices
  | request old =>
    obtain ⟨hcount, hsize⟩ := hok
    refine ⟨hsaved, [], rfl, by simp, ?_⟩
    simp only [step, listen, hlog] at hcount hsize ⊢
    rw [update_log hrecords hcount hsize]
    exact hdevices

theorem run_follows (h : Follows s l) {moves : List Move} (hok : Every (step sh) (Admissible sh) s moves) :
    Follows (run (step sh) s moves) (run (Listener.step other) l (tables moves)) := by
  induction moves generalizing s l with
  | nil => exact h
  | cons move moves ih =>
    have hrest := ih (step_follows other h hok.1) hok.2
    cases move <;> exact hrest

theorem start_follows (first : Table) : Follows (start first) (.start first) :=
  ⟨rfl, [], rfl, by simp, rfl⟩

/-- The devices of a command that is reported are those of its line. -/
theorem handed_of_reported {m : Machine} {before now : Table}
    (h : ∀ c ∈ (compare (fileOf now.mounts) (fileOf before.mounts)).commands, ∃ l a, Reported sh m c l a) :
    Handed before now := by
  have hline : ∀ (lines : List Mount) (a : Action),
      (∀ c ∈ lines.filterMap (report a), ∃ l a, Reported sh m c l a) → ∀ l ∈ lines, l.Literal := by
    intro lines a hall l hl hdisk
    have hreport : report a l = some (Libc.cut msgBuff (eventCommand l.device a)) := by simp [report, hdisk]
    obtain ⟨k, b, hk⟩ := hall _ (List.mem_filterMap.mpr ⟨l, hl, hreport⟩)
    obtain ⟨rest, hrest⟩ : eventCommand k.device b <+: eventCommand l.device a :=
      hk.text ▸ List.take_prefix _ _
    have htail : k.device ++ ' ' :: (b.text ++ rest) = l.device ++ ' ' :: a.text := by
      simp only [eventCommand, List.append_assoc, List.cons_append, List.append_cancel_left_eq,
        List.cons.injEq, true_and] at hrest
      exact hrest
    obtain ⟨hdevice, -⟩ := Shell.cut_unique (fun hc => (k.solid _ hc).1 rfl) (fun hc => (l.solid _ hc).1 rfl) htail
    rw [← hdevice]
    exact Shell.isLiteral_of_plain hk.device.some hk.device.plain
  rw [compare_files] at h
  unfold Handed reportedLines
  split_ifs at h ⊢
  · exact fun l hl => absurd hl (by simp)
  · exact hline _ _ h
  · exact hline _ _ h

/-- While all changes go one way the listener has the table before. -/
theorem run_tracked {first : Table} (h : Follows s (.start first)) {moves : List Move}
    (hok : Every (step sh) (Admissible sh) s moves) (hchain : (first :: tables moves).IsChain Tracked) :
    run (Listener.step other) (.start first) (tables moves) = .start ((tables moves).getLastD first) := by
  induction moves generalizing s first with
  | nil => rfl
  | cons move moves ih =>
    have hnext := step_follows other h hok.1
    cases move with
    | poll m table =>
      rw [tables, List.isChain_cons_cons] at hchain
      have hreported := hok.1
      rw [Admissible, h.saved] at hreported
      have hstep := step_of_faithful ((faithful_iff other (handed_of_reported hreported)).mpr hchain.1)
      rw [listen, hstep] at hnext
      rw [tables, List.getLastD_cons, ← ih hnext hok.2 hchain.2]
      exact congrArg (run (Listener.step other) · (tables moves)) hstep
    | udev => exact ih hnext hok.2 hchain
    | other => exact ih hnext hok.2 hchain
    | request => exact ih hnext hok.2 hchain

theorem request_devices (s : State) (old : Text) : (run (step sh) s [.request old]).devices =
    update s.devices ((tcosDevices (devicesctl sh (captured s.log) old).flatten).getD []) := by
  simp only [run, List.foldl_cons, List.foldl_nil, step]

/-- **After a request the panel shows what the listener's reports amount to, which are the devices of the last
table if from each table to the next all changes go one way.** -/
theorem panel_follows (sh : Sh) (other : Others) (first : Table) (moves : List Move) (old : Text)
    (h : Every (step sh) (Admissible sh) (start first) (moves ++ [.request old])) :
    (run (step sh) (start first) (moves ++ [.request old])).devices =
        (run (Listener.step other) (.start first) (tables moves)).devices ∧
      ((first :: tables moves).IsChain Tracked →
        (run (step sh) (start first) (moves ++ [.request old])).devices =
          devicesOf ((tables moves).getLastD first).mounts) := by
  obtain ⟨hmoves, hrequest, -⟩ := Systems.every_append.mp h
  obtain ⟨-, records, hlog, hrecords, hdevices⟩ := run_follows other (start_follows first) hmoves
  obtain ⟨hcount, hsize⟩ := hrequest
  rw [hlog] at hcount hsize
  have hpanel : (run (step sh) (start first) (moves ++ [.request old])).devices =
      (run (Listener.step other) (.start first) (tables moves)).devices := by
    rw [Systems.run_append, request_devices, hlog, update_log hrecords hcount hsize, hdevices]
  refine ⟨hpanel, fun hchain => ?_⟩
  rw [hpanel, run_tracked other (start_follows first) hmoves hchain]
  rfl

end Steps

/-! ### A disc -/

/-- A machine on which udev knows nothing. -/
def bareMachine : Machine := ⟨fun _ => false, fun _ => [], none, fun _ => false, fun _ => [], fun _ => []⟩

def plainSh : Sh := ⟨false, .standard, fun w => [w], Shell.names_self⟩

theorem disc_reported : Reported plainSh bareMachine (eventCommand disc.device .mount) disc .mount where
  text := rfl
  device := ⟨disc.named, Shell.each (by with_unfolding_all decide)⟩
  honest := ⟨fun h => absurd h (by simp [bareMachine]),
    fun _ => ⟨fun _ h => absurd h (by simp [bareMachine, blankless, captured]),
      fun _ h => absurd h (by simp [bareMachine, blankless, captured])⟩⟩

/-- A disc is mounted, and the panel asks. -/
theorem panel_follows_disc :
    (run (step plainSh) (start ⟨[], List.nodup_nil⟩)
      ([.poll bareMachine ⟨[disc], List.nodup_singleton _⟩] ++ [.request []])).devices = devicesOf [disc] := by
  have hcommands : (compare (fileOf [disc]) (fileOf [])).commands = [eventCommand disc.device .mount] := by
    with_unfolding_all decide
  refine (panel_follows plainSh (fun _ => []) ⟨[], List.nodup_nil⟩
    [.poll bareMachine ⟨[disc], List.nodup_singleton _⟩] [] ⟨?_, ⟨?_, ?_⟩, trivial⟩).2 ?_
  · intro c hc
    have hcommand : c = eventCommand disc.device .mount := by
      rw [← List.mem_singleton, ← hcommands]
      exact hc
    exact ⟨disc, .mount, hcommand ▸ disc_reported⟩
  · with_unfolding_all decide
  · with_unfolding_all decide
  · refine List.isChain_pair.mpr ?_
    have htracked : devicesOf (without [] [disc]) = lostDevices .mount (without [disc] []) := by
      with_unfolding_all decide
    exact htracked

end Tcos.Udev.Panel
