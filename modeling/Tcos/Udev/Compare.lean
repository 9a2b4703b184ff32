import Tcos.Libc.Text
import Tcos.Shell.Argument
import Tcos.Systems.Run

/-! `compare` of mount_listener.c.

The listener keeps a copy of the mount table and compares the two at each poll. The
numbers of lines decide the direction, the lines of the longer file that the shorter one
does not have are reported, and the copy is made anew. A report is a command line for a shell,
with the device in it as the table has it. `listener_faithful_iff` says for which sequences of
tables the reports, replayed, always give the devices that are mounted, if the shell hands over
each reported device as it is. -/
namespace Tcos.Udev
open Shell (Text lit isLiteral)
open Libc
open Systems (Every run)

/-- `MSG_BUFF`. -/
def msgBuff : Nat := 4096

/-! ### Tables -/

/-- A line of `/proc/mounts`: the device, a blank and the rest. -/
@[ext] structure Mount where
  device : Text
  rest : Text
  named : device ≠ []
  solid : ∀ c ∈ device, c ≠ ' ' ∧ c ≠ '\n'
  oneLine : '\n' ∉ rest
  /-- With its newline the line is shorter than `MSG_BUFF`. -/
  short : device.length + rest.length + 2 < msgBuff

instance : DecidableEq Mount := fun _ _ => decidable_of_iff' _ Mount.ext_iff

/-- The line without its newline. -/
def Mount.text (l : Mount) : Text := l.device ++ ' ' :: l.rest

def Mount.line (l : Mount) : Text := l.text ++ ['\n']

/-- A table never has the same line twice. -/
structure Table where
  mounts : List Mount
  nodup : mounts.Nodup

/-- The bytes of the file. -/
def fileOf (mounts : List Mount) : Text := mounts.flatMap Mount.line

/-! ### The program -/

inductive Action where
  | mount
  | umount
  deriving DecidableEq, Repr

def Action.text : Action → Text
  | .mount => lit "mount"
  | .umount => lit "umount"

/-- `SAVE_UDEV`. -/
def saveUdev : Text := lit "/usr/sbin/save-udev.sh"

def eventCommand (device : Text) (action : Action) : Text :=
  saveUdev ++ ' ' :: device ++ ' ' :: action.text

/-- `print_dev`: the command it runs where the script is installed. -/
def printDev (txt : Text) (action : Action) : Option Text :=
  match (tokens (· == ' ') txt).head? with
  | none => none
  | some output =>
    if lit "/dev/disk/" <+: output then none else some (cut msgBuff (eventCommand output action))

structure Compared where
  code : Int
  commands : List Text
  /-- The saved file afterwards. -/
  saved : Text
  deriving DecidableEq

/-- `compare(fname1, fname2)`: the table and the saved copy by their bytes. `strcmp` of the
lines that `fgets` reads finds equal lines, and `sync_files` copies byte for byte. -/
def compare (table saved : Text) : Compared :=
  let n1 := (readLines msgBuff [] table).length
  let n2 := (readLines msgBuff [] saved).length
  if n1 = n2 then ⟨1, [], saved⟩
  else
    let (old, new, action) :=
      if n2 < n1 then (table, saved, Action.mount) else (saved, table, Action.umount)
    let extra := (readLines msgBuff [] old).filter fun l => l ∉ readLines msgBuff [] new
    ⟨0, extra.filterMap fun l => printDev l action, table⟩

/-! ### Events -/

def readAction (t : Text) : Option Action :=
  if t = lit "mount" then some .mount else if t = lit "umount" then some .umount else none

/-- What the script is called with by commands that the shell does not read as one simple command,
or in which it expands or redirects something. -/
abbrev Others := Text → List (Text × Action)

section Replay
variable (other : Others)

/-- The devices and actions that the script is called with by a command, run by a shell. -/
def eventsOf (command : Text) : List (Text × Action) :=
  match Shell.command command with
  | some ⟨[], program :: params, []⟩ =>
    if program = saveUdev then
      ((readAction (params.getD 1 [])).map fun action => (params.getD 0 [], action)).toList
    else []
  | _ => other command

def apply (devices : Multiset Text) : Text × Action → Multiset Text
  | (device, .mount) => device ::ₘ devices
  | (device, .umount) => devices.erase device

/-- The events of a command, replayed on the mounted devices. -/
def replay (devices : Multiset Text) (command : Text) : Multiset Text :=
  (eventsOf other command).foldl apply devices

/-- The listener, and the devices its reports amount to. -/
structure Listener where
  saved : Text
  devices : Multiset Text

def Listener.step (s : Listener) (table : Table) : Listener :=
  let r := compare (fileOf table.mounts) s.saved
  ⟨r.saved, r.commands.foldl (replay other) s.devices⟩

end Replay

/-- The device is a `/dev/disk` link, which pam-usb takes care of. -/
def Mount.isDisk (l : Mount) : Bool := decide (lit "/dev/disk/" <+: l.device)

/-- The devices of the lines that count. -/
def devicesOf (mounts : List Mount) : Multiset Text :=
  ↑((mounts.filter fun l => !l.isDisk).map Mount.device)

/-- `sync_files` at the start. -/
def Listener.start (table : Table) : Listener := ⟨fileOf table.mounts, devicesOf table.mounts⟩

/-- After the call the reports amount to the devices of the table, and the copy is the
table. -/
def Faithful (other : Others) (s : Listener) (table : Table) : Prop :=
  (s.step other table).devices = devicesOf table.mounts ∧
    (s.step other table).saved = fileOf table.mounts

/-! ### When it is faithful -/

/-- The command for the device is longer than its buffer. -/
def Mount.overlong (action : Action) (l : Mount) : Bool :=
  decide (msgBuff ≤ (eventCommand l.device action).length)

/-- The lines of `a` that `b` does not have. -/
def without (a b : List Mount) : List Mount := a.filter fun l => l ∉ b

/-- The devices among them whose report is cut off. -/
def lostDevices (action : Action) (mounts : List Mount) : Multiset Text :=
  devicesOf (mounts.filter fun l => l.overlong action)

/-- What one call needs of the table before and the table now: with equally many lines
nothing has changed; else the change goes one way, up to lines whose devices are too long
to be reported. -/
def Tracked (before now : Table) : Prop :=
  if now.mounts.length = before.mounts.length then now.mounts = before.mounts
  else if before.mounts.length < now.mounts.length then
    devicesOf (without before.mounts now.mounts) =
      lostDevices .mount (without now.mounts before.mounts)
  else
    devicesOf (without now.mounts before.mounts) =
      lostDevices .umount (without before.mounts now.mounts)

/-- The lines of which the devices are reported. -/
def reportedLines (before now : Table) : List Mount :=
  if now.mounts.length = before.mounts.length then []
  else if before.mounts.length < now.mounts.length then without now.mounts before.mounts
  else without before.mounts now.mounts

/-- The shell hands over a device as it is in the table. -/
def Mount.Literal (l : Mount) : Prop := l.isDisk = false → isLiteral l.device = true

/-- What one call needs of the devices that it reports. -/
def Handed (before now : Table) : Prop := ∀ l ∈ reportedLines before now, l.Literal

/-! ### Lines -/

theorem Mount.text_oneLine (l : Mount) : '\n' ∉ l.text := by
  intro h
  rcases List.mem_append.mp h with h | h
  · exact (l.solid _ h).2 rfl
  · rcases List.mem_cons.mp h with h | h
    · exact absurd h (by decide)
    · exact l.oneLine h

theorem readLines_fileOf (mounts : List Mount) :
    readLines msgBuff [] (fileOf mounts) = mounts.map Mount.line := by
  have h := readLines_file msgBuff (mounts.map Mount.text) fun t ht => by
    obtain ⟨l, _, rfl⟩ := List.mem_map.mp ht
    have := l.short
    refine ⟨l.text_oneLine, ?_⟩
    simp only [Mount.text, List.length_append, List.length_cons]
    omega
  rw [List.flatMap_map, List.map_map] at h
  exact h

theorem Mount.device_ne_blank (l : Mount) : ∀ c ∈ l.device, (c == ' ') = false := fun c hc =>
  beq_false_of_ne (l.solid c hc).1

theorem Mount.line_injective : Function.Injective Mount.line := by
  intro l k h
  have htext : l.text = k.text := List.append_cancel_right h
  have hcut : ∀ m : Mount, m.text.takeWhile (fun c => !(c == ' ')) = m.device := fun m => by
    have hd : ∀ c ∈ m.device, (!(c == ' ')) = true := fun c hc => by simp [m.device_ne_blank c hc]
    rw [Mount.text, List.takeWhile_append_of_pos hd]
    simp
  have hdevice : l.device = k.device := by rw [← hcut l, ← hcut k, htext]
  have hrest : l.rest = k.rest := by
    rw [Mount.text, Mount.text, hdevice] at htext
    exact (List.cons.inj (List.append_cancel_left htext)).2
  cases l
  cases k
  simp_all

/-! ### Reports -/

/-- What is run for a line. -/
def report (action : Action) (l : Mount) : Option Text :=
  if l.isDisk then none else some (cut msgBuff (eventCommand l.device action))

theorem printDev_line (l : Mount) (action : Action) : printDev l.line action = report action l := by
  have hline : l.line = l.device ++ ' ' :: (l.rest ++ ['\n']) := by simp [Mount.line, Mount.text]
  have hhead : (tokens (· == ' ') l.line).head? = some l.device := by
    rw [hline, tokens_append l.device_ne_blank rfl, if_neg l.named]
    rfl
  simp only [printDev, hhead, report, Mount.isDisk, decide_eq_true_eq]

theorem saveUdev_awaits : (Shell.Parser.run id {} (saveUdev ++ [' '])).Awaits id { args := [saveUdev] } :=
  ⟨by with_unfolding_all decide, by with_unfolding_all decide, by with_unfolding_all decide,
    by with_unfolding_all decide, by with_unfolding_all decide⟩

/-- A device and a text behind it, as the arguments of the script. -/
theorem command_args {device t : Text} (h : isLiteral device = true) (ht : Shell.isLastLiteral t = true) :
    Shell.command (saveUdev ++ ' ' :: device ++ ' ' :: t) = some { args := [saveUdev, device, t] } := by
  have hargs := saveUdev_awaits.argument (b := ' ') (t := device) id (by rw [List.map_id]; exact h) rfl
  have hrun := (Shell.last_argument_iff id hargs t).mpr (by rw [List.map_id]; exact ht)
  rw [← Shell.run_append, ← Shell.run_append] at hrun
  have htext : saveUdev ++ ' ' :: device ++ ' ' :: t = saveUdev ++ [' '] ++ (device ++ [' '] ++ t) := by simp
  rw [Shell.command, Shell.parse, htext, hrun]
  simp [Shell.Simple.append]

/-- The device alone. -/
theorem command_device {t : Text} (h : isLiteral t = true) :
    Shell.command (saveUdev ++ ' ' :: t) = some { args := [saveUdev, t] } ∧
      Shell.command (saveUdev ++ ' ' :: t ++ [' ']) = some { args := [saveUdev, t] } := by
  constructor
  · have hrun := (Shell.last_argument_iff id saveUdev_awaits t).mpr (by
      rw [List.map_id, Shell.isLastLiteral, h]
      rfl)
    rw [← Shell.run_append] at hrun
    have htext : saveUdev ++ ' ' :: t = saveUdev ++ [' '] ++ t := by simp
    rw [Shell.command, Shell.parse, htext, hrun]
    simp [Shell.Simple.append]
  · have hargs := saveUdev_awaits.argument (b := ' ') (t := t) id (by rw [List.map_id]; exact h) rfl
    rw [← Shell.run_append] at hargs
    have htext : saveUdev ++ ' ' :: t ++ [' '] = saveUdev ++ [' '] ++ (t ++ [' ']) := by simp
    have hgathered := hargs.gathered
    rw [Shell.command, Shell.parse, htext, Shell.Parser.finish, hargs.gap, Shell.Parse.simple, if_pos rfl,
      hgathered]
    simp [Shell.Simple.append]

theorem readAction_text (action : Action) : readAction action.text = some action := by
  cases action <;> with_unfolding_all decide

/-- A whole command says which device and action it is for. -/
theorem eventsOf_whole (other : Others) {device : Text} (h : isLiteral device = true)
    (action : Action) : eventsOf other (eventCommand device action) = [(device, action)] := by
  have hlast : Shell.isLastLiteral action.text = true := by cases action <;> with_unfolding_all decide
  rw [eventsOf, eventCommand, command_args h hlast]
  simp [readAction_text]

/-- Of an action some letters are no action. -/
theorem cut_action (action : Action) {i : Nat} (hi : i < action.text.length) :
    action.text.take i ≠ lit "mount" ∧ action.text.take i ≠ lit "umount" := by
  have hm : (lit "mount").length = 5 := by with_unfolding_all decide
  have hu : (lit "umount").length = 6 := by with_unfolding_all decide
  have hshort : ∀ t : Text, i < t.length → (action.text.take i).length = i := fun t _ => by
    rw [List.length_take]
    omega
  have hnot : ∀ t : Text, i < t.length → action.text.take i ≠ t := fun t ht h => by
    have := hshort t ht
    rw [h] at this
    omega
  have hnone : ∀ i < 6, (lit "umount").take i ≠ lit "mount" := by with_unfolding_all decide
  cases action with
  | mount =>
    have hi' : i < (lit "mount").length := hi
    exact ⟨hnot _ hi', hnot _ (by omega)⟩
  | umount =>
    have hi' : i < (lit "umount").length := hi
    exact ⟨hnone i (by omega), hnot _ hi'⟩

theorem isLiteral_prefix {s t : Text} (hs : s ≠ []) (h : isLiteral (s ++ t) = true) : isLiteral s = true := by
  obtain ⟨-, hhash, htilde, hsolid, hpattern, hidle⟩ := (Shell.isLiteral_iff _).mp h
  have hhead : (s ++ t).head? = s.head? := List.head?_append_of_ne_nil _ hs
  have hstart : ∀ s : Text, Shell.idle (s ++ t) = true → Shell.idle s = true := by
    intro s hs
    induction s with
    | nil => rfl
    | cons c s ih =>
      simp only [List.cons_append, Shell.idle, Bool.and_eq_true] at hs ⊢
      refine ⟨⟨hs.1.1, ?_⟩, ih hs.2⟩
      cases s with
      | nil => simp
      | cons d s => exact hs.1.2
  rw [hhead] at hhash htilde
  exact (Shell.isLiteral_iff s).mpr ⟨hs, hhash, htilde, fun c hc => hsolid c (List.mem_append_left t hc),
    fun c hc => hpattern c (List.mem_append_left t hc), hstart s hidle⟩

/-- A command that is cut reports nothing. -/
theorem eventsOf_cut (other : Others) {l : Mount} {action : Action}
    (h : l.overlong action = true) (hliteral : isLiteral l.device = true) :
    eventsOf other (cut msgBuff (eventCommand l.device action)) = [] := by
  have hlen : saveUdev.length = 22 := by with_unfolding_all decide
  have hlong : msgBuff ≤ (eventCommand l.device action).length := of_decide_eq_true h
  have hcut : cut msgBuff (eventCommand l.device action) =
      saveUdev ++ ' ' :: (l.device ++ ' ' :: action.text).take 4072 := by
    rw [eventCommand, List.append_assoc, List.cons_append, cut_append (by rw [hlen, msgBuff]; decide),
      hlen]
    rfl
  have htotal : 4072 < l.device.length + 1 + action.text.length := by
    simp only [eventCommand, List.length_append, List.length_cons, hlen, msgBuff] at hlong
    omega
  have hnone : readAction [] = none := by with_unfolding_all decide
  rw [hcut, List.take_append]
  by_cases hdev : 4072 ≤ l.device.length
  · -- the device does not end
    have hpart : isLiteral (l.device.take 4072) = true := by
      refine isLiteral_prefix (t := l.device.drop 4072) ?_ (by rw [List.take_append_drop]; exact hliteral)
      rw [Ne, List.take_eq_nil_iff]
      exact not_or.mpr ⟨by decide, l.named⟩
    have hzero : 4072 - l.device.length = 0 := by omega
    rw [hzero, List.take_zero, List.append_nil, eventsOf, (command_device hpart).1]
    simp [hnone]
  · obtain ⟨i, hi⟩ : ∃ i, 4072 - l.device.length = i + 1 := Nat.exists_eq_add_one.mpr (by omega)
    have hwhole : saveUdev ++ ' ' :: (l.device ++ ' ' :: action.text.take i) =
        saveUdev ++ ' ' :: l.device ++ ' ' :: action.text.take i := by simp
    rw [hi, List.take_succ_cons, List.take_of_length_le (by omega), hwhole]
    by_cases hnil : action.text.take i = []
    · rw [hnil, eventsOf, (command_device hliteral).2]
      simp [hnone]
    · obtain ⟨hm, hu⟩ := cut_action action (i := i) (by omega)
      have hplain : Shell.isLastLiteral (action.text.take i) = true := by
        have hliteral : isLiteral action.text = true := by cases action <;> with_unfolding_all decide
        rw [Shell.isLastLiteral, isLiteral_prefix (t := action.text.drop i) hnil
          (by rw [List.take_append_drop]; exact hliteral)]
        rfl
      have hread : readAction (action.text.take i) = none := by rw [readAction, if_neg hm, if_neg hu]
      rw [eventsOf, command_args hliteral hplain]
      simp [hread]

/-- **What the report of a line calls the script with.** -/
theorem eventsOf_report (other : Others) {l : Mount} (h : l.Literal)
    (action : Action) : (report action l).toList.flatMap (eventsOf other) =
      if l.isDisk || l.overlong action then [] else [(l.device, action)] := by
  unfold report
  cases hd : l.isDisk
  · cases ho : l.overlong action
    · have hfits : (eventCommand l.device action).length < msgBuff := by
        simpa [Mount.overlong] using ho
      simp [cut_of_fits hfits, eventsOf_whole other (h hd)]
    · simp [eventsOf_cut other ho (h hd)]
  · rfl

/-! ### One call -/

theorem compare_files (now before : List Mount) :
    compare (fileOf now) (fileOf before) =
      if now.length = before.length then ⟨1, [], fileOf before⟩
      else if before.length < now.length then
        ⟨0, (without now before).filterMap (report .mount), fileOf now⟩
      else ⟨0, (without before now).filterMap (report .umount), fileOf now⟩ := by
  have hextra : ∀ (a b : List Mount) (action : Action),
      ((a.map Mount.line).filter fun l => l ∉ b.map Mount.line).filterMap (fun l => printDev l action) =
        (without a b).filterMap (report action) := by
    intro a b action
    have hmem : ∀ l : Mount, l.line ∈ b.map Mount.line ↔ l ∈ b := fun l =>
      List.mem_map_of_injective Mount.line_injective
    rw [List.filter_map, List.filterMap_map]
    have hfun : (fun l => printDev l action) ∘ Mount.line = report action := by
      funext l
      exact printDev_line l action
    rw [hfun, without]
    congr 1
    exact List.filter_congr fun l _ => decide_eq_decide.mpr (not_congr (hmem l))
  simp only [compare, readLines_fileOf, List.length_map]
  split
  · rfl
  · split
    · simp only [readLines_fileOf, hextra]
    · simp only [readLines_fileOf, hextra]

theorem devicesOf_append (a b : List Mount) : devicesOf (a ++ b) = devicesOf a + devicesOf b := by
  simp [devicesOf]

theorem devicesOf_perm {a b : List Mount} (h : a.Perm b) : devicesOf a = devicesOf b :=
  Multiset.coe_eq_coe.mpr ((h.filter _).map _)

theorem devicesOf_split (p : Mount → Bool) (mounts : List Mount) :
    devicesOf mounts = devicesOf (mounts.filter p) + devicesOf (mounts.filter fun l => !p l) := by
  rw [← devicesOf_append, devicesOf_perm (List.filter_append_perm p mounts)]

/-- The lines of both tables, and those of one alone. -/
theorem devicesOf_common (a b : Table) :
    ∃ common, devicesOf a.mounts = common + devicesOf (without a.mounts b.mounts) ∧
      devicesOf b.mounts = common + devicesOf (without b.mounts a.mounts) := by
  refine ⟨devicesOf (a.mounts.filter fun l => l ∈ b.mounts), ?_, ?_⟩
  · rw [devicesOf_split (fun l => decide (l ∈ b.mounts)) a.mounts]
    simp [without]
  · have hperm : (a.mounts.filter fun l => l ∈ b.mounts).Perm
      (b.mounts.filter fun l => l ∈ a.mounts) := by
      refine (List.perm_ext_iff_of_nodup (a.nodup.filter _) (b.nodup.filter _)).mpr fun l => ?_
      simp [and_comm]
    rw [devicesOf_perm hperm, devicesOf_split (fun l => decide (l ∈ a.mounts)) b.mounts]
    simp [without]

/-- The devices of the lines that are reported in full. -/
def reportedDevices (action : Action) (mounts : List Mount) : Multiset Text :=
  devicesOf (mounts.filter fun l => !l.overlong action)

theorem reported_add_lost (action : Action) (mounts : List Mount) :
    devicesOf mounts = lostDevices action mounts + reportedDevices action mounts :=
  devicesOf_split _ mounts

section Reports
variable (other : Others)

theorem replay_report (devices : Multiset Text) {l : Mount} (h : l.Literal) (action : Action) :
    ((report action l).toList.foldl (replay other) devices) =
      if l.isDisk || l.overlong action then devices
      else match action with
        | .mount => l.device ::ₘ devices
        | .umount => devices.erase l.device := by
  have hevents : (report action l).toList.foldl (replay other) devices =
      ((report action l).toList.flatMap (eventsOf other)).foldl apply devices := by
    cases report action l <;> simp [replay]
  rw [hevents, eventsOf_report other h]
  split
  · rfl
  · cases action <;> rfl

theorem replay_mounts {mounts : List Mount} (h : ∀ l ∈ mounts, l.Literal) (devices : Multiset Text) :
    ((mounts.filterMap (report .mount)).foldl (replay other) devices) = devices +
      reportedDevices .mount mounts := by
  induction mounts generalizing devices with
  | nil => exact (add_zero devices).symm
  | cons l mounts ih =>
    rw [List.forall_mem_cons] at h
    have hstep : (((l :: mounts).filterMap (report .mount)).foldl (replay other) devices) =
        ((mounts.filterMap (report .mount)).foldl (replay other)
          ((report .mount l).toList.foldl (replay other) devices)) := by
      cases hr : report .mount l <;> simp [hr]
    rw [hstep, ih h.2, replay_report other _ h.1]
    cases hd : l.isDisk <;> cases ho : l.overlong .mount <;>
      simp [reportedDevices, devicesOf, hd, ho, ← Multiset.cons_coe, Multiset.cons_add]

theorem replay_umounts {mounts : List Mount} (h : ∀ l ∈ mounts, l.Literal) (devices : Multiset Text) :
    ((mounts.filterMap (report .umount)).foldl (replay other) devices) =
      devices - reportedDevices .umount mounts := by
  induction mounts generalizing devices with
  | nil => exact (Multiset.sub_zero devices).symm
  | cons l mounts ih =>
    rw [List.forall_mem_cons] at h
    have hstep : (((l :: mounts).filterMap (report .umount)).foldl (replay other) devices) =
        ((mounts.filterMap (report .umount)).foldl (replay other)
          ((report .umount l).toList.foldl (replay other) devices)) := by
      cases hr : report .umount l <;> simp [hr]
    rw [hstep, ih h.2, replay_report other _ h.1]
    cases hd : l.isDisk <;> cases ho : l.overlong .umount <;>
      simp [reportedDevices, devicesOf, hd, ho, ← Multiset.cons_coe, Multiset.sub_cons]

/-! ### Runs -/

theorem fileOf_injective {a b : List Mount} (h : fileOf a = fileOf b) : a = b := by
  have hlines := congrArg (readLines msgBuff []) h
  rw [readLines_fileOf, readLines_fileOf] at hlines
  exact List.map_injective_iff.mpr Mount.line_injective hlines

/-- **One call, from the copy of the table before.** -/
theorem faithful_iff {before now : Table} (hhanded : Handed before now) :
    Faithful other (Listener.start before) now ↔ Tracked before now := by
  obtain ⟨common, hnow, hbefore⟩ := devicesOf_common now before
  have hcompare := compare_files now.mounts before.mounts
  by_cases heq : now.mounts.length = before.mounts.length
  · rw [if_pos heq] at hcompare
    simp only [Faithful, Listener.step, Listener.start, Tracked, hcompare, if_pos heq, List.foldl_nil]
    constructor
    · exact fun h => (fileOf_injective h.2).symm
    · exact fun h => by rw [h]; exact ⟨rfl, rfl⟩
  · rw [if_neg heq] at hcompare
    by_cases hgrown : before.mounts.length < now.mounts.length
    · rw [if_pos hgrown] at hcompare
      have hliteral : ∀ l ∈ without now.mounts before.mounts, l.Literal := by
        simpa only [Handed, reportedLines, if_neg heq, if_pos hgrown] using hhanded
      have hnew := reported_add_lost .mount (without now.mounts before.mounts)
      simp only [Faithful, Listener.step, Listener.start, Tracked, hcompare, if_neg heq, if_pos hgrown,
        replay_mounts other hliteral, and_true]
      rw [hbefore, hnow, hnew, add_assoc, add_left_cancel_iff, add_left_inj]
    · rw [if_neg hgrown] at hcompare
      have hliteral : ∀ l ∈ without before.mounts now.mounts, l.Literal := by
        simpa only [Handed, reportedLines, if_neg heq, if_neg hgrown] using hhanded
      have hgone := reported_add_lost .umount (without before.mounts now.mounts)
      simp only [Faithful, Listener.step, Listener.start, Tracked, hcompare, if_neg heq, if_neg hgrown,
        replay_umounts other hliteral, and_true]
      rw [hbefore, hnow, hgone, ← add_assoc, Multiset.add_sub_cancel_right, add_left_cancel_iff]
      exact eq_comm

variable {other}

/-- After a faithful call the listener is where it would be had it started there. -/
theorem step_of_faithful {before now : Table} (h : Faithful other (Listener.start before) now) :
    (Listener.start before).step other now = Listener.start now := by
  obtain ⟨hdevices, hsaved⟩ := h
  calc (Listener.start before).step other now
      = ⟨((Listener.start before).step other now).saved,
          ((Listener.start before).step other now).devices⟩ := rfl
    _ = Listener.start now := by rw [hdevices, hsaved, Listener.start]

/-- **Replayed from the first table, the reports give the devices of each table in turn, and
the copy is that table, exactly when from each table to the next all changes go one way.** -/
theorem listener_faithful_iff {first : Table} {tables : List Table}
    (hhanded : (first :: tables).IsChain Handed) :
    Every (Listener.step other) (Faithful other) (.start first) tables ↔
      (first :: tables).IsChain Tracked := by
  induction tables generalizing first with
  | nil => simp [Every]
  | cons now tables ih =>
    rw [List.isChain_cons_cons] at hhanded
    rw [List.isChain_cons_cons, ← faithful_iff other hhanded.1, ← ih hhanded.2]
    constructor
    · rintro ⟨h, hrest⟩
      exact ⟨h, step_of_faithful h ▸ hrest⟩
    · rintro ⟨h, hrest⟩
      exact ⟨h, (step_of_faithful h).symm ▸ hrest⟩

end Reports

/-! ### A swap between two polls -/

def stick : Mount where
  device := lit "/dev/sdb1"
  rest := lit "/media/sdb1 vfat rw 0 0"
  named := by with_unfolding_all decide
  solid := Shell.each (by with_unfolding_all decide)
  oneLine := by with_unfolding_all decide
  short := by with_unfolding_all decide

def disc : Mount where
  device := lit "/dev/hdc"
  rest := lit "/media/cdrom iso9660 ro 0 0"
  named := by with_unfolding_all decide
  solid := Shell.each (by with_unfolding_all decide)
  oneLine := by with_unfolding_all decide
  short := by with_unfolding_all decide

/-- The disc is mounted while the stick stays. -/
theorem disc_faithful :
    Every (Listener.step fun _ => []) (Faithful fun _ => []) (.start ⟨[stick], List.nodup_singleton _⟩)
      [⟨[stick, disc], by with_unfolding_all decide⟩] := by
  refine (listener_faithful_iff (List.isChain_pair.mpr fun l hl _ => ?_)).mpr (List.isChain_pair.mpr ?_)
  · have hreported : reportedLines ⟨[stick], List.nodup_singleton _⟩
        ⟨[stick, disc], by with_unfolding_all decide⟩ = [disc] := by with_unfolding_all decide
    rw [hreported, List.mem_singleton] at hl
    rw [hl]
    with_unfolding_all decide
  · have htracked : devicesOf (without [stick] [stick, disc]) =
        lostDevices .mount (without [stick, disc] [stick]) := by
      with_unfolding_all decide
    exact htracked

/-- A stick is removed and a disc mounted between two polls, and nothing is reported. -/
theorem swap_unreported :
    ¬ ∀ (other : Others) (first : Table) (tables : List Table),
      Every (Listener.step other) (Faithful other) (.start first) tables := by
  intro h
  have hfaithful := (h (fun _ => []) ⟨[stick], List.nodup_singleton _⟩ [⟨[disc], List.nodup_singleton _⟩]).1
  have hnone : reportedLines ⟨[stick], List.nodup_singleton _⟩ ⟨[disc], List.nodup_singleton _⟩ = [] := rfl
  have htracked := (faithful_iff _ fun l hl => absurd hl (by simp [hnone])).mp hfaithful
  have hsame : [disc] = [stick] := htracked
  have hdevice : disc.device = stick.device := congrArg Mount.device (List.cons.inj hsame).1
  exact absurd hdevice (by with_unfolding_all decide)

end Tcos.Udev
