import Tcos.Libc.Getopt
import Tcos.Libc.Numbers

/-! tmixer-oss.

A level is a word with the left channel in its low byte and the right channel in the next. `sset`
writes a number from 0 to 100 as the word, and `sget` reads the low byte. A level that begins with a dash is
an option to main, which then sets nothing. `sset_iff` says when both channels end with the level. -/
namespace Tcos.Tmixer.Oss
open Shell (Text lit)
open Libc (atoi decimal isSwitch getoptLong Switches)

/-! ### The mixer -/

/-- `tmp & 0xFF`. -/
def left (word : Int) : Int := word % 256

def right (word : Int) : Int := word / 256 % 256

/-- A level that the driver keeps as it is. -/
def IsLevel (n : Int) : Prop := 0 ≤ n ∧ n ≤ 100

/-- What the driver does with a state of its own; `none` is an error. -/
structure Driver (σ : Type) where
  /-- `devmask | recmask`. -/
  mask : Nat → Bool
  /-- `SOUND_MIXER_READ_STEREODEVS`. -/
  stereo : Nat → Bool
  /-- `MIXER_READ`. -/
  read : σ → Nat → Option Int
  /-- `MIXER_WRITE`. -/
  write : σ → Nat → Int → Option σ
  stored : ∀ m dev word, (read m dev).isSome = true → IsLevel (left word) → IsLevel (right word) →
    ∃ m' word', write m dev word = some m' ∧ read m' dev = some word' ∧ left word' = left word ∧
      (stereo dev = true → right word' = right word)
  others : ∀ m dev word m', write m dev word = some m' → ∀ d, d ≠ dev → read m' d = read m d

/-! ### tmixer-oss.c -/

def ossMaxLevel : Int := 100

def ossUnmuteLevel : Int := 85

def devName : List Text :=
  [lit "Master", lit "Bass", lit "Treble", lit "Synth", lit "PCM", lit "Speaker", lit "Line",
    lit "Mic", lit "CD", lit "Mix", lit "PCM2", lit "Record", lit "Input", lit "Output", lit "Line 1",
    lit "Line 2", lit "Line 3", lit "Digital1", lit "Digital2", lit "Digital3", lit "Phone In",
    lit "PhoneOut", lit "Video", lit "Radio", lit "Monitor"]

def errorlist : List Text :=
  [lit "tmixer-oss:  error opening mixer", lit "tmixer-oss:  no device found",
    lit "tmixer-oss:  SOUND_MIXER_READ_DEVMASK", lit "tmixer-oss:  SOUND_MIXER_READ_RECMASK",
    lit "tmixer-oss:  SOUND_MIXER_READ_RECSRC", lit "tmixer-oss:  SOUND_MIXER_READ_STEREODEVS",
    lit "tmixer-oss:  SOUND_MIXER_WRITE_RECSRC", lit "tmixer-oss:  MIXER_READ",
    lit "tmixer-oss:  MIXER_WRITE", lit "tmixer-oss:  mixer not open",
    lit "tmixer-oss:  unable to open settings file", lit "tmixer-oss:  unknow commandline action"]

def eReadMix : Nat := 8

def eWriteMix : Nat := 9

/-- The message of `ErrorExitWarn`, for an error. -/
def errorExitWarn (error : Nat) : Text :=
  (if error > 12 then lit "tmixer-oss:  unknown error " ++ decimal error
    else errorlist.getD (error - 1) []) ++ ['\n']

def nrDevices : Nat := 25

/-- `long_option`, and the string of the short ones. -/
def longOption : Switches where
  short c :=
    if c ∈ ['c', 'D', 'a'] then some true
    else if c ∈ ['h', 'q', 'i', 'd', 'n', 'v', 's'] then some false
    else none
  long := [(lit "help", false, 'h'), (lit "card", true, 'c'), (lit "device", true, 'D'),
    (lit "quiet", false, 'q'), (lit "inactive", false, 'i'), (lit "debug", false, 'd'),
    (lit "nocheck", false, 'n'), (lit "version", false, 'v'), (lit "abstract", true, 'a'),
    (lit "stdin", false, 's')]

/-- The first option that ends main; the others do nothing, but for two warnings. -/
def ending (codes : List Char) : Option Char := codes.find? fun c => c == 'h' || c == 'v' || c == '?'

/-- How main ends: what is printed on the two outputs. -/
inductive Exit where
  | success (out : Text)
  | failure (out err : Text)
  | crash

def help : Text := lit (
  "Usage: tmixer-oss [command]\n\nAvailable commands:\n" ++
  "  scontrols       show all mixer simple controls\n" ++
  "  scontents\t  show contents of all mixer simple controls (default command)\n" ++
  "  sset sID P      set contents for one mixer simple control\n" ++
  "  sget sID        get contents for one mixer simple control\n\ntmixer-oss output format:\n" ++
  "  ChannelName,   ChannelType [volume|switch] , Volume in %% , SwitchStatus [on|off] \n\n")

/-- The number of the version comes from the Makefile. -/
def version : Text := lit "tmixer-oss version (TCOS) "

/-- The line of a channel. -/
def contents (name : Text) (level : Int) : Text :=
  name ++ lit ",volume|switch|," ++ decimal level ++ lit "," ++
  (if level > 0 then lit "on" else lit "off") ++ lit "\n"

/-- The number of a level; `environment` is `TMIXER_OSSMUTELEVEL`. -/
def requested (environment : Option Text) (level : Text) : Int :=
  if level = lit "mute" ∨ level = lit "off" then 0
  else if level = lit "unmute" ∨ level = lit "on" then (environment.map atoi).getD ossUnmuteLevel
  else atoi level

def clamped (tmp : Int) : Int :=
  let tmp := if tmp > ossMaxLevel then ossMaxLevel else tmp
  if tmp < 0 then 0 else tmp

section Program
variable {σ : Type} (D : Driver σ) (environment : Option Text)

def showContents (m : σ) (dev : Nat) : Except Text Text :=
  match D.read m dev with
  | none => .error (errorExitWarn eReadMix)
  | some tmp => .ok (contents (devName.getD dev []) (left tmp))

/-- `SetShowNoninter`: the mixer, and what is printed. -/
def setShowNoninter (m : σ) (dev : Nat) (action level : Text) : σ × Except Text Text :=
  if action = lit "scontents" ∨ action = lit "sget" then (m, showContents D m dev)
  else if action = lit "scontrols" then
    (m, match D.read m dev with
      | none => .error (errorExitWarn eReadMix)
      | some _ => .ok (devName.getD dev [] ++ lit "|"))
  else if action = lit "sset" then
    match D.write m dev (clamped (requested environment level)) with
    | none => (m, .error (errorExitWarn eWriteMix))
    | some m' => (m', showContents D m' dev)
  else (m, .error (errorExitWarn 12))

/-- What is printed of these devices, and the error that ends it. -/
def listing (m : σ) (action : Text) : List Nat → Text × Option Text
  | [] => ([], none)
  | dev :: devs =>
    match (setShowNoninter D environment m dev action []).2 with
    | .error e => ([], some e)
    | .ok t => (t ++ (listing m action devs).1, (listing m action devs).2)

/-- The loop over the devices. -/
def allDevices (m : σ) (action : Text) : Exit :=
  match listing D environment m action ((List.range nrDevices).filter D.mask) with
  | (out, none) => .success out
  | (out, some e) => .failure out e

/-- The end of `main`, with the operands. -/
def command (m : σ) : List Text → σ × Exit
  | [] => (m, allDevices D environment m (lit "scontents"))
  | action :: words =>
    if action = lit "help" then (m, .success help)
    else if action = lit "scontrols" ∨ action = lit "simple" then
      (m, allDevices D environment m (lit "scontrols"))
    else if action = lit "scontents" then (m, allDevices D environment m (lit "scontents"))
    else if action = lit "sset" ∨ action = lit "sget" then
      if action ≠ lit "sget" ∧ words.length < 2 then
        (m, .failure [] (lit "tmixer-oss: ERROR: need value to change channel '" ++
          words.headD (lit "(null)") ++ lit "'\n"))
      else
        match words with
        -- a name that is not there is compared
        | [] => (m, .crash)
        | name :: level =>
          match devName.findIdx? (· = name) with
          -- an unknown channel is a message only
          | none => (m, .success [])
          | some index =>
            let r := setShowNoninter D environment m index action (level.headD [])
            (r.1, match r.2 with
              | .error e => .failure [] e
              | .ok out => .success out)
    else
      (m, .failure [] (lit "tmixer-oss: ERROR: Unknown command '" ++ action ++ lit "'...\n" ++
        errorExitWarn 12))

/-- `main`, with the words behind the name of the program. -/
def tmixerOss (m : σ) (argv : List Text) : σ × Exit :=
  match ending (getoptLong longOption argv).1 with
  | some 'h' => (m, .success help)
  | some 'v' => (m, .failure version [])
  | some _ => (m, .failure [] (lit "tmixer-oss: Invalid switch or option needs an argument.\n"))
  | none => command D environment m (getoptLong longOption argv).2

/-- `tmixer-oss sset name level`. -/
def afterSset (m : σ) (name level : Text) : σ := (tmixerOss D environment m [lit "sset", name, level]).1

/-- The channel has the level. -/
def HasLevel (m : σ) (dev : Nat) (n : Int) : Prop :=
  ∃ word, D.read m dev = some word ∧ left word = n ∧ (D.stereo dev = true → right word = n)

/-- The channel has the level, no other device changed, and `sget` prints the level. -/
structure Leaves (m m' : σ) (dev : Nat) (name : Text) (n : Int) : Prop where
  level : HasLevel D m' dev n
  others : ∀ d, d ≠ dev → D.read m' d = D.read m d
  prints : tmixerOss D environment m' [lit "sget", name] = (m', .success (contents name n))

/-- `sset` does so with the level, clamped. -/
def Sets (m : σ) (dev : Nat) (name level : Text) : Prop :=
  Leaves D environment m (afterSset D environment m name level) dev name (clamped (requested environment level))

end Program

/-- The string stands for no number above 0. -/
def IsSilent (environment : Option Text) (level : Text) : Prop :=
  level = lit "mute" ∨ level = lit "off" ∨
    ((level = lit "unmute" ∨ level = lit "on") ∧ ∃ v, environment = some v ∧ atoi v ≤ 0) ∨
      (level ∉ [lit "unmute", lit "on"] ∧ atoi level ≤ 0)

/-! ### Levels -/

theorem clamped_level (n : Int) : IsLevel (clamped n) := by
  simp only [clamped, ossMaxLevel, IsLevel]
  split_ifs <;> omega

/-- A level that is written as it is is the left channel's. -/
theorem word_level {n : Int} (h : IsLevel n) : left n = n ∧ right n = 0 := by
  obtain ⟨h0, h1⟩ := h
  unfold left right
  omega

theorem clamped_zero (n : Int) : clamped n = 0 ↔ n ≤ 0 := by
  simp only [clamped, ossMaxLevel]
  split_ifs <;> omega

theorem isSilent_iff (environment : Option Text) (level : Text) :
    IsSilent environment level ↔ requested environment level ≤ 0 := by
  have hwords : lit "mute" ≠ lit "unmute" ∧ lit "mute" ≠ lit "on" ∧ lit "off" ≠ lit "unmute" ∧
    lit "off" ≠ lit "on" := by
    with_unfolding_all decide
  unfold IsSilent requested
  by_cases hoff : level = lit "mute" ∨ level = lit "off"
  · rw [if_pos hoff, ← or_assoc]
    exact iff_of_true (.inl hoff) (Int.le_refl 0)
  · rw [if_neg hoff, ← or_assoc, or_iff_right hoff]
    by_cases hon : level = lit "unmute" ∨ level = lit "on"
    · rw [if_pos hon]
      cases environment with
      | none => simp [hon, ossUnmuteLevel]
      | some v => simp [hon]
    · rw [if_neg hon]
      have hnot : level ∉ [lit "unmute", lit "on"] := by simpa using hon
      simp [hon, hnot]

/-! ### sset -/

section Sset
variable {σ : Type} {D : Driver σ} {environment : Option Text} {m : σ} {dev : Nat} {name : Text}

theorem find_name (h : devName[dev]? = some name) : devName.findIdx? (· = name) = some dev := by
  have hall : ((List.range devName.length).all fun i =>
    devName.findIdx? (· = devName.getD i []) = some i) = true := by
    with_unfolding_all decide
  obtain ⟨hlt, hget⟩ := List.getElem?_eq_some_iff.mp h
  have := List.all_eq_true.mp hall dev (List.mem_range.mpr hlt)
  rw [List.getD_eq_getElem?_getD, h] at this
  simpa using this

theorem action_names : lit "sset" ≠ lit "sget" ∧ lit "sset" ≠ lit "scontents" ∧
    lit "sset" ≠ lit "scontrols" := by
  with_unfolding_all decide

/-- What is printed of a channel. -/
theorem showContents_read {word : Int} (hname : devName[dev]? = some name)
    (hread : D.read m dev = some word) : showContents D m dev = .ok (contents name (left word)) := by
  rw [showContents, hread, List.getD_eq_getElem?_getD, hname]
  rfl

/-- A name of a device is no option. -/
theorem name_operand (hname : devName[dev]? = some name) : isSwitch name = false := by
  have hall : devName.all (fun n => !isSwitch n) = true := by with_unfolding_all decide
  simpa using List.all_eq_true.mp hall name (List.mem_of_getElem? hname)

theorem actions_operand : isSwitch (lit "sset") = false ∧ isSwitch (lit "sget") = false ∧
    isSwitch (lit "scontents") = false := by
  with_unfolding_all decide

/-- Words without options are a command. -/
theorem main_operands (environment : Option Text) (m : σ) {argv : List Text} (h : ∀ w ∈ argv, isSwitch w = false) :
    tmixerOss D environment m argv = command D environment m argv := by
  rw [tmixerOss, Libc.getoptLong_operands _ h]
  rfl

/-- What `sset` leaves of the mixer. -/
def written (D : Driver σ) (environment : Option Text) (m : σ) (name level : Text) : σ :=
  match devName.findIdx? (· = name) with
  | none => m
  | some index => (setShowNoninter D environment m index (lit "sset") level).1

/-- `sset` with a level. -/
theorem command_sset (environment : Option Text) (m : σ) (name level : Text) (more : List Text) :
    (command D environment m (lit "sset" :: name :: level :: more)).1 = written D environment m name level := by
  have hactions : lit "sset" ≠ lit "help" ∧ lit "sset" ≠ lit "scontrols" ∧ lit "sset" ≠ lit "simple" ∧
      lit "sset" ≠ lit "scontents" := by
    with_unfolding_all decide
  simp only [command, hactions, or_self, if_false, List.length_cons, List.headD_cons]
  rw [if_pos (.inl trivial), if_neg (by simp), written]
  cases devName.findIdx? (· = name) <;> rfl

theorem sget_prints (environment : Option Text) {word : Int} (hname : devName[dev]? = some name)
    (hread : D.read m dev = some word) :
    tmixerOss D environment m [lit "sget", name] = (m, .success (contents name (left word))) := by
  have hactions : lit "sget" ≠ lit "help" ∧ lit "sget" ≠ lit "scontrols" ∧ lit "sget" ≠ lit "simple" ∧
      lit "sget" ≠ lit "scontents" := by
    with_unfolding_all decide
  rw [main_operands environment m (by simp [actions_operand, name_operand hname])]
  simp [command, hactions, find_name hname, setShowNoninter, showContents_read hname hread]

/-- **The level goes to the left channel; the right channel of a stereo device is off.** -/
theorem written_level (environment : Option Text) (hname : devName[dev]? = some name)
    (hread : (D.read m dev).isSome = true) (level : Text) :
    ∃ word, D.read (written D environment m name level) dev = some word ∧
      left word = clamped (requested environment level) ∧ (D.stereo dev = true → right word = 0) ∧
      ∀ d, d ≠ dev → D.read (written D environment m name level) d = D.read m d := by
  have hbounds := clamped_level (requested environment level)
  obtain ⟨hleft, hright⟩ := word_level hbounds
  have hzero : IsLevel (right (clamped (requested environment level))) := by
    rw [hright]
    exact ⟨by decide, by decide⟩
  obtain ⟨m', word, hwrite, hword, hleft', hright'⟩ := D.stored m dev _ hread (by rwa [hleft]) hzero
  rw [hleft] at hleft'
  rw [hright] at hright'
  have hafter : written D environment m name level = m' := by
    rw [written, find_name hname]
    simp [setShowNoninter, action_names, hwrite]
  rw [hafter]
  exact ⟨word, hword, hleft', hright', D.others _ _ _ _ hwrite⟩

/-- Another device. -/
theorem written_other (environment : Option Text) (hname : devName[dev]? = some name) {n : Text} (hne : n ≠ name)
    (level : Text) : D.read (written D environment m n level) dev = D.read m dev := by
  unfold written
  split
  · rfl
  case h_2 index hindex =>
    have hnot : dev ≠ index := by
      rintro rfl
      obtain ⟨hlt, hfound, -⟩ := List.findIdx?_eq_some_iff_getElem.mp hindex
      have hsame := of_decide_eq_true hfound
      rw [List.getElem?_eq_getElem hlt, Option.some.injEq] at hname
      exact hne (hsame.symm.trans hname)
    obtain ⟨hsget, hscontents, hscontrols⟩ := action_names
    simp only [setShowNoninter, hsget, hscontents, hscontrols, or_self, if_false, if_true]
    cases hwrite : D.write m index (clamped (requested environment level)) with
    | none => rfl
    | some m' => exact D.others _ _ _ _ hwrite dev hnot

theorem afterSset_written (environment : Option Text) (hname : devName[dev]? = some name) {level : Text}
    (hlevel : isSwitch level = false) : afterSset D environment m name level = written D environment m name level := by
  rw [afterSset, main_operands environment m (by simp [actions_operand, name_operand hname, hlevel]),
    command_sset]

theorem setShowNoninter_keeps (environment : Option Text) (m : σ) (dev : Nat) {action : Text}
    (h : action ≠ lit "sset") (level : Text) : (setShowNoninter D environment m dev action level).1 = m := by
  unfold setShowNoninter
  split_ifs <;> rfl

/-- Every other command leaves the mixer. -/
theorem command_idle (environment : Option Text) (m : σ) {operands : List Text}
    (h : ∀ name level more, operands ≠ lit "sset" :: name :: level :: more) :
    (command D environment m operands).1 = m := by
  cases operands with
  | nil => rfl
  | cons action words =>
    rw [command.eq_def]
    simp only
    split_ifs with _ _ _ _ hneed
    all_goals try rfl
    have hsset : action ≠ lit "sset" := by
      rintro rfl
      rcases words with - | ⟨name, - | ⟨level, more⟩⟩
      · exact hneed ⟨action_names.1, by decide⟩
      · exact hneed ⟨action_names.1, Nat.lt_succ_self 1⟩
      · exact h name level more rfl
    cases words with
    | nil => rfl
    | cons name level =>
      cases hindex : devName.findIdx? (· = name) with
      | none => simp [hindex]
      | some index => simpa [hindex] using setShowNoninter_keeps environment m index hsset _

/-- A level can only be set with three operands. -/
theorem main_idle (environment : Option Text) (m : σ) {argv : List Text}
    (h : (getoptLong longOption argv).2.length < 3) : (tmixerOss D environment m argv).1 = m := by
  unfold tmixerOss
  split
  case h_4 =>
    refine command_idle environment m fun name level more hoperands => ?_
    rw [hoperands, List.length_cons, List.length_cons, List.length_cons] at h
    omega
  all_goals rfl

/-- An option where the level should be. -/
theorem sset_switch (environment : Option Text) (m : σ) (name : Text) {level : Text}
    (hlevel : isSwitch level = true) : afterSset D environment m name level = m :=
  main_idle environment m (Libc.operands_fewer longOption ⟨level, by simp, hlevel⟩)

theorem silent_of_sets (environment : Option Text) (hname : devName[dev]? = some name)
    (hread : (D.read m dev).isSome = true) {level : Text} (hlevel : isSwitch level = false)
    (h : HasLevel D (afterSset D environment m name level) dev (clamped (requested environment level)))
    (hstereo : D.stereo dev = true) : IsSilent environment level := by
  obtain ⟨word, hword, -, hright, -⟩ := written_level environment hname hread level
  rw [afterSset_written environment hname hlevel] at h
  obtain ⟨word', hword', -, hright'⟩ := h
  obtain rfl := Option.some.inj (hword.symm.trans hword')
  rw [isSilent_iff, ← clamped_zero, ← hright' hstereo, hright hstereo]

/-- **Both channels end with the level if there is one channel only or the level is 0; where an option stands
for the level, if they have it already.** -/
theorem sset_iff (environment : Option Text) (hname : devName[dev]? = some name)
    (hread : (D.read m dev).isSome = true) (level : Text) :
    Sets D environment m dev name level ↔
      if isSwitch level = true then HasLevel D m dev (clamped (requested environment level))
      else D.stereo dev = true → IsSilent environment level := by
  have hsets : Sets D environment m dev name level ↔
      HasLevel D (afterSset D environment m name level) dev (clamped (requested environment level)) ∧
        ∀ d, d ≠ dev → D.read (afterSset D environment m name level) d = D.read m d := by
    refine ⟨fun h => ⟨h.level, h.others⟩, fun ⟨hlevel, hothers⟩ => ⟨hlevel, hothers, ?_⟩⟩
    obtain ⟨word, hword, hleft, -⟩ := hlevel
    rw [sget_prints environment hname hword, hleft]
  rw [hsets]
  split
  case isTrue hswitch => simp [sset_switch environment m name hswitch]
  case isFalse hswitch =>
    rw [Bool.not_eq_true] at hswitch
    refine ⟨fun h => silent_of_sets environment hname hread hswitch h.1, fun hsilent => ?_⟩
    rw [isSilent_iff, ← clamped_zero] at hsilent
    obtain ⟨word, hword, hleft, hright, hothers⟩ := written_level environment hname hread level
    rw [afterSset_written environment hname hswitch]
    refine ⟨⟨word, hword, hleft, fun hstereo => ?_⟩, hothers⟩
    rw [hright hstereo, hsilent hstereo]

end Sset

/-! ### A driver -/

def pack (l r : Int) : Int := l + 256 * r

theorem left_pack {l : Int} (h : IsLevel l) (r : Int) : left (pack l r) = l := by
  obtain ⟨h0, h1⟩ := h
  unfold left pack
  omega

theorem right_pack {l r : Int} (hl : IsLevel l) (hr : IsLevel r) : right (pack l r) = r := by
  obtain ⟨h0, h1⟩ := hl
  obtain ⟨h2, h3⟩ := hr
  unfold right pack
  omega

/-- A driver that keeps a word for each device, of a device with one channel twice its level. -/
def words (stereo : Nat → Bool) : Driver (Nat → Int) where
  mask dev := dev == 0 || dev == 4
  stereo := stereo
  read m dev := if dev < devName.length then some (m dev) else none
  write m dev word :=
    if dev < devName.length then
      some (Function.update m dev
        (pack (min 100 (left word)) (min 100 (if stereo dev then right word else left word))))
    else none
  stored m dev word hread hl hr := by
    have hlt : dev < devName.length := by
      by_contra hnot
      simp [hnot] at hread
    have hmin : ∀ n, IsLevel n → min 100 n = n := fun n h => min_eq_right h.2
    refine ⟨_, _, if_pos hlt, by rw [if_pos hlt, Function.update_self], ?_, fun hstereo => ?_⟩
    · rw [hmin _ hl, left_pack hl]
    · rw [if_pos hstereo, hmin _ hl, hmin _ hr, right_pack hl hr]
  others m dev word m' h d hne := by
    obtain ⟨-, hupdate⟩ := Option.ite_none_right_eq_some.mp h
    rw [← Option.some.inj hupdate, Function.update_of_ne hne]

/-- All devices at 0, both channels. -/
def quiet : Nat → Int := fun _ => 0

theorem sset_iff_mute : Sets (words fun _ => true) none quiet 4 (lit "PCM") (lit "mute") :=
  (sset_iff none (by with_unfolding_all decide) (by with_unfolding_all decide) (lit "mute")).mpr
    (by rw [if_neg (by with_unfolding_all decide)]; exact fun _ => .inl rfl)

/-- The right channel of a stereo device stays off. -/
theorem right_silenced : ¬ Sets (words fun _ => true) none quiet 4 (lit "PCM") (lit "50") := by
  intro h
  have hsilent := silent_of_sets none (by with_unfolding_all decide) (by with_unfolding_all decide)
    (by with_unfolding_all decide) h.level rfl
  rw [isSilent_iff] at hsilent
  exact absurd hsilent (by with_unfolding_all decide)

end Tcos.Tmixer.Oss
