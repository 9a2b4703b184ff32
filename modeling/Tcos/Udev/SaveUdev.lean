import Tcos.Grep.Regex
import Tcos.Shell.Echo
import Tcos.Udev.Compare

/-! save-udev.sh: the record of a mount.

The script asks udev for the properties of the device, exports them all and appends one line to the log. A
property that has the name of one of its variables replaces the variable. `reads_record` says when the line
still names the device and the action that the script was called with. -/
namespace Tcos.Udev.SaveUdev
open Grep (selects)
open Shell (Text lit lines unlines captured awk isBlank isPattern Sh)

/-! ### The machine -/

/-- A line of `udevadm info --query=env`. -/
structure Property where
  name : Text
  value : Text
  some : name ≠ []
  letter : ∀ c ∈ name.head?, c.isDigit = false
  named : ∀ c ∈ name, c.isAlphanum = true ∨ c = '_'
  /-- Neither the shell nor the name of the log is at stake. -/
  foreign : name ∉ [lit "IFS", lit "PATH", lit "output_file"]
  oneLine : '\n' ∉ value

def Property.line (p : Property) : Text := p.name ++ '=' :: p.value

structure Machine where
  /-- `[ -e ... ]`. -/
  isThere : Text → Bool
  udevinfo : Text → List Property
  /-- The names of the CD-ROM drives, where there is a list. -/
  cdroms : Option Text
  /-- There are audio tracks in the drive. -/
  audio : Text → Bool
  /-- The files of a SCSI disk, empty where there is none. -/
  vendor : Text → Text
  model : Text → Text

/-! ### The script -/

abbrev Vars := Text → Text

/-- `NAME=value`, also by `export`. -/
def Vars.set (v : Vars) (name value : Text) : Vars := Function.update v name value

/-- One word of `export`. -/
def exportWord (v : Vars) (w : Text) : Vars :=
  if '=' ∈ w then v.set (w.takeWhile (· != '=')) (w.dropWhile (· != '=')).tail else v

/-- `grep -v "^DEVLINKS" | sed 's/[[:blank:]]/_/g'`. -/
def unblanked (file : Text) : Text :=
  unlines (((lines file).filter fun l => !(lit "DEVLINKS").isPrefixOf l).map fun l =>
    l.map fun c => if isBlank c then '_' else c)

/-- What follows the first `sep`. -/
def behind (sep : Text) : Text → Text
  | [] => []
  | c :: s => if sep.isPrefixOf (c :: s) then (c :: s).drop sep.length else behind sep s

/-- What stands before the first `sep`. -/
def before (sep : Text) : Text → Text
  | [] => []
  | c :: s => if sep.isPrefixOf (c :: s) then [] else c :: before sep s

section Script
variable (sh : Sh) (m : Machine)

def exportAll (v : Vars) : Vars :=
  (sh.expand (captured (unblanked (unlines ((m.udevinfo (lit "/sys" ++ v (lit "DEVPATH"))).map
    Property.line))))).foldl exportWord v

/-- `[ -e $DEVNAME ]`; without a word it asks for a text, with two it fails. -/
def isPresent (devname : Text) : Bool :=
  match sh.expand devname with
  | [] => true
  | [file] => m.isThere file
  | _ => false

/-- The variables up to the question whether there is such a device; the listener hands down none of those
that the script reads. -/
def initialVars (devname action : Text) : Vars :=
  let part := captured (awk '/' 3 (sh.echo [devname]))
  let disk := captured (unlines ((lines (sh.echo [part])).map (List.take 3)))
  let devpath := if part ≠ disk then lit "/block/" ++ disk ++ '/' :: part else lit "/block/" ++ disk
  ((((Vars.set (fun _ => []) (lit "DEVNAME") devname).set (lit "ACTION") action).set
    (lit "PART") part).set (lit "DISK") disk).set (lit "DEVPATH") devpath

/-- `awk -F"/block" '{print "/block"$2}'`. -/
def blockPath (devpath : Text) : Text :=
  captured (unlines ((lines (sh.echo [devpath])).map fun l =>
    lit "/block" ++ before (lit "/block") (behind (lit "/block") l)))

def translated (v : Vars) : Vars :=
  if (lines (sh.echo (sh.expand (v (lit "DEVPATH"))))).any (selects (lit "/devices/")) then
    v.set (lit "DEVPATH") (blockPath sh (v (lit "DEVPATH")))
  else v

def labelled (v : Vars) : Vars :=
  if v (lit "ID_FS_LABEL_SAFE") ≠ [] then v.set (lit "ID_FS_LABEL") (v (lit "ID_FS_LABEL_SAFE")) else v

/-- `is_cdrom $PART`; the words of an unquoted variable are arguments, and none is an empty pattern. -/
def isCdrom (part : Text) : Bool := m.cdroms.any (selects ((sh.expand part).headD []))

def cdType (device : Text) : Text := if m.audio device then lit "cdfs" else lit "iso9660"

def typed (v : Vars) : Vars :=
  if isCdrom sh m (v (lit "PART")) then
    v.set (lit "ID_FS_TYPE") (cdType m ((sh.expand (v (lit "DEVNAME"))).headD []))
  else v

/-- `cat ... | sed 's/ //g'`. -/
def blankless (file : Text) : Text := captured (file.filter (· ≠ ' '))

/-- `[ -z $name ]`, and else the file of the disk. -/
def filled (name : Text) (file : Text → Text) (v : Vars) : Vars :=
  if sh.expand (v name) = [] then v.set name (blankless (file (v (lit "DISK")))) else v

def environment (devname action : Text) : Vars :=
  let v := initialVars sh devname action
  let v := if devname ≠ [] && isPresent sh m devname then exportAll sh m v else v
  filled sh (lit "ID_MODEL") m.model (filled sh (lit "ID_VENDOR") m.vendor (typed sh m (labelled
    (translated sh v))))

/-- The line, without its newline. -/
def recordOf (v : Vars) : Text :=
  lit "ID_BUS=" ++ v (lit "ID_BUS") ++ '#' :: (lit "DEVNAME=" ++ v (lit "DEVNAME") ++
    '#' :: (lit "ACTION=" ++ v (lit "ACTION") ++
    '#' :: (lit "ID_FS_LABEL=" ++ v (lit "ID_FS_LABEL") ++
    '#' :: (lit "ID_FS_TYPE=" ++ v (lit "ID_FS_TYPE") ++ '#' :: (lit "ID_VENDOR=" ++ v (lit "ID_VENDOR") ++
    '#' :: (lit "ID_MODEL=" ++ v (lit "ID_MODEL") ++ '#' :: (lit "DEVPATH=" ++ v (lit "DEVPATH"))))))))

/-- What is appended to the log. -/
def appended (devname action : Text) : Text := sh.echo [recordOf (environment sh m devname action)]

end Script

/-! ### What a record says -/

/-- Its second and third field. -/
def readRecord (record : Text) : Option (Text × Action) :=
  match record.splitOn '#' with
  | _ :: devname :: action :: _ =>
    if lit "DEVNAME=" <+: devname then
      if action = lit "ACTION=mount" then some (devname.drop 8, .mount)
      else if action = lit "ACTION=umount" then some (devname.drop 8, .umount)
      else none
    else none
  | _ => none

/-- Bytes that nothing on the way to the panel takes for its own. -/
def IsClean (t : Text) : Prop := ∀ c ∈ t, c ≠ '\n' ∧ c ≠ '|' ∧ c ≠ '\\'

/-- The path that udev is asked for. -/
def sysPath (sh : Sh) (device : Text) : Text := lit "/sys" ++ initialVars sh device [] (lit "DEVPATH")

/-- A property that speaks of no other device and of no action. -/
structure Property.Own (p : Property) (device : Text) : Prop where
  devname : p.name = lit "DEVNAME" → p.value = device
  action : p.name ≠ lit "ACTION"
  bus : p.name = lit "ID_BUS" → '#' ∉ p.value
  clean : ∀ c ∈ p.value, isPattern c = false ∧ c ≠ '|' ∧ c ≠ '\\'

/-- So are the properties that udev has of a device that is there. -/
structure Honest (sh : Sh) (m : Machine) (device : Text) : Prop where
  own : m.isThere device = true → ∀ p ∈ m.udevinfo (sysPath sh device), p.Own device
  files : ∀ disk, IsClean (blankless (m.vendor disk)) ∧ IsClean (blankless (m.model disk))

/-- A name in /dev or of a share, with bytes that the shell leaves alone. -/
structure IsDevice (device : Text) : Prop where
  some : device ≠ []
  plain : ∀ c ∈ device, Shell.isPlain c = true

/-! ### Lines of clean texts -/

theorem isClean_of_subset {t s : Text} (hs : IsClean s) (h : ∀ c ∈ t, c ∈ s) : IsClean t := fun c hc =>
  hs c (h c hc)

theorem isClean_append {s t : Text} (hs : IsClean s) (ht : IsClean t) : IsClean (s ++ t) := fun c hc =>
  (List.mem_append.mp hc).elim (hs c) (ht c)

theorem isClean_field {s t : Text} (hs : IsClean s) (ht : IsClean t) : IsClean (s ++ '#' :: t) := by
  refine isClean_append hs fun c hc => ?_
  rcases List.mem_cons.mp hc with rfl | hc
  · decide
  · exact ht c hc

theorem isClean_lit (t : Text) (h : (t.all fun c => decide (c ≠ '\n' ∧ c ≠ '|' ∧ c ≠ '\\')) = true) :
    IsClean t :=
  Shell.each h

theorem IsClean.oneLine {t : Text} (h : IsClean t) : '\n' ∉ t := fun hn => (h _ hn).1 rfl

/-- A line that does not end. -/
theorem lines_whole {t : Text} (hne : t ≠ []) (h : '\n' ∉ t) : lines t = [t] := by
  induction t with
  | nil => exact absurd rfl hne
  | cons c t ih =>
    obtain ⟨hc, ht⟩ := not_or.mp (List.mem_cons.not.mp h)
    rw [lines, if_neg (Ne.symm hc)]
    cases t with
    | nil => rfl
    | cons d t => rw [ih (by simp) ht]

/-- What `echo` prints of clean words, up to the end of the line; an option is not printed. -/
theorem echo_clean (sh : Sh) {ws : List Text} (h : ∀ w ∈ ws, IsClean w) :
    ∃ t, (sh.echo ws = t ∨ sh.echo ws = t ++ ['\n']) ∧ ∀ c ∈ t, c = ' ' ∨ ∃ w ∈ ws, c ∈ w := by
  have hmem : ∀ c ∈ Shell.unwords (ws.drop (sh.options ws).length), c = ' ' ∨ ∃ w ∈ ws, c ∈ w := by
    intro c hc
    by_cases hblank : c = ' '
    · exact .inl hblank
    · obtain ⟨w, hw, hcw⟩ := Shell.mem_intercalate hc hblank
      exact .inr ⟨w, List.mem_of_mem_drop hw, hcw⟩
  have hraw : ∀ ending : Text, '\\' ∉ ending →
      Shell.unescape sh.more 0 (Shell.unwords (ws.drop (sh.options ws).length) ++ ending) =
        Shell.unwords (ws.drop (sh.options ws).length) ++ ending := by
    intro ending hending
    refine Shell.unescape_raw (Shell.isRaw_of_not_mem fun hslash => ?_)
    rcases List.mem_append.mp hslash with hslash | hslash
    · rcases hmem _ hslash with hno | ⟨w, hw, hslash⟩
      · exact absurd hno (by decide)
      · exact (h w hw _ hslash).2.2 rfl
    · exact hending hslash
  refine ⟨_, ?_, hmem⟩
  by_cases hquiet : (sh.options ws).any (fun w => 'n' ∈ w) = true
  · left
    simp only [Sh.echo, hquiet, if_true]
    rw [hraw [] (by simp), ite_self, List.append_nil]
  · right
    simp only [Sh.echo, hquiet, Bool.false_eq_true, if_false]
    rw [hraw ['\n'] (by decide), ite_self]

theorem isClean_echoed {ws : List Text} (h : ∀ w ∈ ws, IsClean w) {t : Text}
    (ht : ∀ c ∈ t, c = ' ' ∨ ∃ w ∈ ws, c ∈ w) : IsClean t := by
  intro c hc
  rcases ht c hc with rfl | ⟨w, hw, hcw⟩
  · decide
  · exact h w hw c hcw

theorem mem_captured_echo (sh : Sh) {ws : List Text} (h : ∀ w ∈ ws, IsClean w) :
    ∀ c ∈ captured (sh.echo ws), c = ' ' ∨ ∃ w ∈ ws, c ∈ w := by
  obtain ⟨t, hecho, hmem⟩ := echo_clean sh h
  intro c hc
  rcases hecho with hecho | hecho
  · rw [hecho] at hc
    exact hmem c (Shell.mem_captured hc)
  · rw [hecho, Shell.captured_line (isClean_echoed h hmem).oneLine] at hc
    exact hmem c hc

theorem lines_echo (sh : Sh) {ws : List Text} (h : ∀ w ∈ ws, IsClean w) :
    lines (sh.echo ws) = [] ∨ ∃ l, IsClean l ∧ lines (sh.echo ws) = [l] := by
  obtain ⟨t, hecho, hmem⟩ := echo_clean sh h
  have ht := isClean_echoed h hmem
  have hline : lines (t ++ ['\n']) = [t] := Shell.lines_cons ht.oneLine []
  rcases hecho with hecho | hecho
  · rw [hecho]
    by_cases hnone : t = []
    · exact .inl (by rw [hnone]; rfl)
    · exact .inr ⟨t, ht, lines_whole hnone ht.oneLine⟩
  · exact .inr ⟨t, ht, hecho ▸ hline⟩

/-- `$(echo "..." | ...)`, of a command that goes line by line. -/
theorem isClean_captured (sh : Sh) {ws : List Text} (h : ∀ w ∈ ws, IsClean w) {f : Text → Text}
    (hf : ∀ l, IsClean l → IsClean (f l)) : IsClean (captured (unlines ((lines (sh.echo ws)).map f))) := by
  rcases lines_echo sh h with hnone | ⟨l, hl, hline⟩
  · rw [hnone]
    exact fun c hc => absurd hc (by simp [unlines, captured])
  · have hfile : unlines ([l].map f) = f l ++ ['\n'] := by simp [unlines]
    rw [hline, hfile, Shell.captured_line (hf l hl).oneLine]
    exact hf l hl

/-- A record is printed as it is. -/
theorem IsClean.echo {t : Text} (h : IsClean t) (hhash : '#' ∈ t) (sh : Sh) : sh.echo [t] = t ++ ['\n'] := by
  have hraw : '\\' ∉ Shell.unwords [t] ++ ['\n'] := by
    have hslash : '\\' ∉ t := fun hslash => (h _ hslash).2.2 rfl
    simpa [Shell.unwords] using hslash
  rw [Shell.echo_words sh (by simpa using sh.isOption_of_mem (by decide) hhash),
    (Shell.print_iff ..).mpr fun _ => Shell.isRaw_of_not_mem hraw]
  simp [Shell.unwords]

theorem mem_awkField {sep : Char} {n : Nat} {l : Text} : ∀ c ∈ Shell.awkField sep n l, c ∈ l := by
  intro c hc
  unfold Shell.awkField at hc
  cases hget : (l.splitOn sep)[n - 1]? with
  | none => simp [hget] at hc
  | some t =>
    rw [hget, Option.getD_some] at hc
    exact (Libc.mem_splitOnP (List.mem_of_getElem? hget)).2.subset hc

theorem mem_behind {sep t : Text} : ∀ c ∈ behind sep t, c ∈ t := by
  induction t with
  | nil => simp [behind]
  | cons d s ih =>
    rw [behind]
    split
    · exact fun c hc => List.mem_of_mem_drop hc
    · exact fun c hc => List.mem_cons_of_mem d (ih c hc)

theorem mem_before {sep t : Text} : ∀ c ∈ before sep t, c ∈ t := by
  induction t with
  | nil => simp [before]
  | cons d s ih =>
    rw [before]
    split
    · simp
    · exact fun c hc => (List.mem_cons.mp hc).elim (fun h => h ▸ List.mem_cons_self ..) fun hc =>
        List.mem_cons_of_mem d (ih c hc)

theorem cdType_clean (m : Machine) (device : Text) : IsClean (cdType m device) := by
  unfold cdType
  split
  · exact isClean_lit _ (by with_unfolding_all decide)
  · exact isClean_lit _ (by with_unfolding_all decide)

/-! ### What stays true of the variables -/

/-- The record of the variables is about this device and action. -/
structure Says (v : Vars) (device action : Text) : Prop where
  devname : v (lit "DEVNAME") = device
  action : v (lit "ACTION") = action
  bus : '#' ∉ v (lit "ID_BUS")
  clean : ∀ name, IsClean (v name)

section Says
variable {sh : Sh} {m : Machine} {v : Vars} {device action name value : Text}

theorem Says.set (h : Says v device action) (hclean : IsClean value)
    (hdevname : name = lit "DEVNAME" → value = device) (haction : name ≠ lit "ACTION")
    (hbus : name = lit "ID_BUS" → '#' ∉ value) : Says (v.set name value) device action where
  devname := by
    by_cases hname : name = lit "DEVNAME"
    · rw [hname, Vars.set, Function.update_self, hdevname hname]
    · rw [Vars.set, Function.update_of_ne (Ne.symm hname), h.devname]
  action := by rw [Vars.set, Function.update_of_ne haction.symm, h.action]
  bus := by
    by_cases hname : name = lit "ID_BUS"
    · rw [hname, Vars.set, Function.update_self]
      exact hbus hname
    · rw [Vars.set, Function.update_of_ne (Ne.symm hname)]
      exact h.bus
  clean other := by
    by_cases hname : other = name
    · rw [hname, Vars.set, Function.update_self]
      exact hclean
    · rw [Vars.set, Function.update_of_ne hname]
      exact h.clean other

/-- Another variable. -/
theorem Says.setOther (h : Says v device action)
    (hother : name ∉ [lit "DEVNAME", lit "ACTION", lit "ID_BUS"]) (hclean : IsClean value) :
    Says (v.set name value) device action := by
  simp only [List.mem_cons, List.not_mem_nil, or_false, not_or] at hother
  exact h.set hclean (fun hname => absurd hname hother.1) hother.2.1 fun hname => absurd hname hother.2.2

/-- One word, and itself. -/
theorem IsDevice.present (hd : IsDevice device) : isPresent sh m device = m.isThere device := by
  rw [isPresent, Sh.expand, Shell.expand_word _ hd.some fun c hc => (Shell.isPlain_inert (hd.plain c hc)).2]

theorem isPlain_clean (h : ∀ c ∈ device, Shell.isPlain c = true) : IsClean device := by
  intro c hc
  have hno : ∀ d : Char, Shell.isPlain d = false → c ≠ d := by
    rintro d hd rfl
    exact absurd (h c hc) (by simp [hd])
  exact ⟨hno _ (by decide), hno _ (by decide), hno _ (by decide)⟩

theorem initialVars_says (sh : Sh) (hdevice : IsClean device) (haction : IsClean action) :
    Says (initialVars sh device action) device action := by
  have hstart : Says ((Vars.set (fun _ => []) (lit "DEVNAME") device).set (lit "ACTION") action)
      device action := by
    have hne : lit "DEVNAME" ≠ lit "ACTION" ∧ lit "ID_BUS" ≠ lit "ACTION" ∧ lit "ID_BUS" ≠ lit "DEVNAME" := by
      with_unfolding_all decide
    refine ⟨?_, Function.update_self .., ?_, fun name => ?_⟩
    · rw [Vars.set, Function.update_of_ne hne.1, Vars.set, Function.update_self]
    · rw [Vars.set, Function.update_of_ne hne.2.1, Vars.set, Function.update_of_ne hne.2.2]
      simp
    · unfold Vars.set
      simp only [Function.update_apply]
      split_ifs
      · exact haction
      · exact hdevice
      · simp [IsClean]
  have hpart : IsClean (captured (awk '/' 3 (sh.echo [device]))) := by
    have hlines : awk '/' 3 (sh.echo [device]) =
        unlines ((lines (sh.echo [device])).map (Shell.awkField '/' 3)) := by
      rw [awk, unlines, List.flatMap_map]
    rw [hlines]
    exact isClean_captured sh (by simpa using hdevice) fun l hl => isClean_of_subset hl mem_awkField
  have hdisk := isClean_captured sh (List.forall_mem_singleton.mpr hpart) (f := List.take 3) fun l hl =>
    isClean_of_subset hl fun c hc => List.mem_of_mem_take hc
  refine ((hstart.setOther (by with_unfolding_all decide) hpart).setOther (by with_unfolding_all decide)
    hdisk).setOther (by with_unfolding_all decide) ?_
  have hblock : IsClean (lit "/block/") := isClean_lit _ (by with_unfolding_all decide)
  split
  · refine isClean_append (isClean_append hblock hdisk) fun c hc => ?_
    rcases List.mem_cons.mp hc with rfl | hc
    · decide
    · exact hpart c hc
  · exact isClean_append hblock hdisk

/-! ### The properties -/

theorem Property.not_mem_name (p : Property) {c : Char} (hc : c.isAlphanum = false) (hne : c ≠ '_') :
    c ∉ p.name := by
  intro hmem
  rcases p.named c hmem with h | h
  · exact absurd (hc.symm.trans h) (by simp)
  · exact hne h

theorem Property.name_clean (p : Property) :
    '=' ∉ p.name ∧ '\n' ∉ p.name ∧ ∀ c ∈ p.name, isBlank c = false ∧ isPattern c = false := by
  refine ⟨p.not_mem_name (by decide) (by decide), p.not_mem_name (by decide) (by decide), fun c hc => ?_⟩
  have hne : ∀ d : Char, d.isAlphanum = false → d ≠ '_' → c ≠ d := fun d hd hd' h =>
    p.not_mem_name hd hd' (h ▸ hc)
  simp [isBlank, isPattern, hne ' ' (by decide) (by decide), hne '\t' (by decide) (by decide),
    hne '*' (by decide) (by decide), hne '?' (by decide) (by decide), hne '[' (by decide) (by decide)]

/-- Blanks as `sed` leaves them. -/
def spaceless (t : Text) : Text := t.map fun c => if isBlank c then '_' else c

theorem mem_spaceless {t : Text} {c : Char} (h : c ∈ spaceless t) : c = '_' ∨ c ∈ t ∧ isBlank c = false := by
  obtain ⟨d, hd, rfl⟩ := List.mem_map.mp h
  by_cases hb : isBlank d = true
  · simp [hb]
  · simp [hb, hd]

/-- A property as `export` gets it. -/
def Property.word (p : Property) : Text := p.name ++ '=' :: spaceless p.value

theorem Property.line_spaceless (p : Property) : spaceless p.line = p.word := by
  have hname : spaceless p.name = p.name := by
    refine (List.map_congr_left fun c hc => ?_).trans (List.map_id _)
    simp [(p.name_clean.2.2 c hc).1]
  rw [Property.line, spaceless, List.map_append, List.map_cons]
  exact congrArg₂ (· ++ ·) hname rfl

theorem Property.line_oneLine (p : Property) : '\n' ∉ p.line := by
  intro hn
  rcases List.mem_append.mp hn with hn | hn
  · exact p.name_clean.2.1 hn
  · exact (List.mem_cons.mp hn).elim (by decide) p.oneLine

/-- The shell leaves the word as it is. -/
theorem Property.word_inert (p : Property) (h : ∀ c ∈ p.value, isPattern c = false) :
    ∀ c ∈ p.word, Shell.isInert c = true := by
  intro c hc
  rcases List.mem_append.mp hc with hc | hc
  · obtain ⟨hblank, hpattern⟩ := p.name_clean.2.2 c hc
    exact Shell.isInert_of hblank (fun hn => p.name_clean.2.1 (hn ▸ hc)) hpattern
  · rcases List.mem_cons.mp hc with rfl | hc
    · decide
    · rcases mem_spaceless hc with rfl | ⟨hc, hblank⟩
      · decide
      · exact Shell.isInert_of hblank (fun hn => p.oneLine (hn ▸ hc)) (h c hc)

theorem exportWord_property (v : Vars) (p : Property) :
    exportWord v p.word = v.set p.name (spaceless p.value) := by
  have hname : ∀ c ∈ p.name, (c != '=') = true := by
    intro c hc
    rw [bne_iff_ne]
    rintro rfl
    exact p.name_clean.1 hc
  rw [exportWord, Property.word, if_pos (by simp), List.takeWhile_append_of_pos hname,
    List.dropWhile_append_of_pos hname]
  simp

/-- `grep` drops a property and `sed` makes each of the others a word. -/
theorem unblanked_properties (ps : List Property) : unblanked (unlines (ps.map Property.line)) =
    unlines ((ps.filter fun p => !(lit "DEVLINKS").isPrefixOf p.line).map Property.word) := by
  have hlines : lines (unlines (ps.map Property.line)) = ps.map Property.line := by
    refine Shell.lines_unlines fun l hl => ?_
    obtain ⟨p, -, rfl⟩ := List.mem_map.mp hl
    exact p.line_oneLine
  rw [unblanked, hlines, List.filter_map, List.map_map]
  exact congrArg unlines (List.map_congr_left fun p _ => p.line_spaceless)

/-- The words of `export` are the properties. -/
theorem exported_words (sh : Sh) {path : Text} (hown : ∀ p ∈ m.udevinfo path, p.Own device) :
    ∃ ps : List Property, (∀ p ∈ ps, p.Own device) ∧
      sh.expand (captured (unblanked (unlines ((m.udevinfo path).map Property.line)))) =
        ps.map Property.word := by
  refine ⟨(m.udevinfo path).filter fun p => !(lit "DEVLINKS").isPrefixOf p.line, fun p hp =>
    hown p (List.mem_of_mem_filter hp), ?_⟩
  rw [unblanked_properties, Sh.expand, Shell.expand_captured]
  intro w hw
  obtain ⟨p, hp, rfl⟩ := List.mem_map.mp hw
  have hclean := (hown p (List.mem_of_mem_filter hp)).clean
  exact ⟨by simp [Property.word], p.word_inert fun c hc => (hclean c hc).1⟩

theorem Says.exportAll (h : Says v device action) (hm : Honest sh m device) (hthere : m.isThere device = true)
    (hpath : lit "/sys" ++ v (lit "DEVPATH") = sysPath sh device) (hdevice : ∀ c ∈ device, isBlank c = false) :
    Says (exportAll sh m v) device action := by
  obtain ⟨ps, hps, hwords⟩ := exported_words sh (hm.own hthere)
  rw [SaveUdev.exportAll, hpath, hwords]
  clear hwords hpath
  induction ps generalizing v with
  | nil => exact h
  | cons p ps ih =>
    obtain ⟨hp, hps⟩ := List.forall_mem_cons.mp hps
    rw [List.map_cons, List.foldl_cons, exportWord_property]
    refine ih (h.set (fun c hc => ?_) (fun hname => ?_) hp.action fun hname hhash => ?_) hps
    · rcases mem_spaceless hc with rfl | ⟨hc, -⟩
      · decide
      · obtain ⟨-, hbar, hslash⟩ := hp.clean c hc
        exact ⟨fun hn => p.oneLine (hn ▸ hc), hbar, hslash⟩
    · rw [hp.devname hname]
      refine (List.map_congr_left fun c hc => ?_).trans (List.map_id _)
      simp [hdevice c hc]
    · rcases mem_spaceless hhash with hno | ⟨hhash, -⟩
      · exact absurd hno (by decide)
      · exact hp.bus hname hhash

theorem initialVars_path (sh : Sh) (device action : Text) :
    lit "/sys" ++ initialVars sh device action (lit "DEVPATH") = sysPath sh device := by
  rw [sysPath, initialVars, initialVars, Vars.set, Function.update_self, Vars.set, Function.update_self]

/-! ### The record -/

theorem environment_says (hd : IsDevice device) (ha : IsClean action) (hm : Honest sh m device) :
    Says (environment sh m device action) device action := by
  have hblank : ∀ c ∈ device, isBlank c = false := fun c hc => (Shell.isPlain_inert (hd.plain c hc)).1
  have hexported : Says (if device ≠ [] && isPresent sh m device then
      exportAll sh m (initialVars sh device action) else initialVars sh device action) device action := by
    have hinit := initialVars_says sh (isPlain_clean hd.plain) ha
    split
    case isTrue h =>
      have hthere := hd.present.symm.trans ((Bool.and_eq_true _ _).mp h).2
      exact hinit.exportAll hm hthere (initialVars_path sh device action) hblank
    case isFalse => exact hinit
  have htranslated : ∀ v, Says v device action → Says (translated sh v) device action := by
    intro v h
    unfold translated
    split
    · refine h.setOther (by with_unfolding_all decide) (isClean_captured sh
        (List.forall_mem_singleton.mpr (h.clean _)) fun l hl => ?_)
      exact isClean_append (isClean_lit _ (by with_unfolding_all decide))
        (isClean_of_subset hl fun c hc => mem_behind c (mem_before c hc))
    · exact h
  have hlabelled : ∀ v, Says v device action → Says (labelled v) device action := by
    intro v h
    unfold labelled
    split
    · exact h.setOther (by with_unfolding_all decide) (h.clean _)
    · exact h
  have htyped : ∀ v, Says v device action → Says (typed sh m v) device action := by
    intro v h
    unfold typed
    split
    · exact h.setOther (by with_unfolding_all decide) (cdType_clean m _)
    · exact h
  have hfilled : ∀ (name : Text) (file : Text → Text) (v : Vars),
      name ∉ [lit "DEVNAME", lit "ACTION", lit "ID_BUS"] → (∀ disk, IsClean (blankless (file disk))) →
      Says v device action → Says (filled sh name file v) device action := by
    intro name file v hname hfile h
    unfold filled
    split
    · exact h.setOther hname (hfile _)
    · exact h
  exact hfilled _ _ _ (by with_unfolding_all decide) (fun disk => (hm.files disk).2)
    (hfilled _ _ _ (by with_unfolding_all decide) (fun disk => (hm.files disk).1)
      (htyped _ (hlabelled _ (htranslated _ hexported))))

/-- A record that says so is read so. -/
theorem Says.read {a : Action} (h : Says v device a.text) (hdevice : '#' ∉ device) :
    readRecord (recordOf v) = some (device, a) := by
  have hbus : '#' ∉ lit "ID_BUS=" ++ v (lit "ID_BUS") := fun hmem => (List.mem_append.mp hmem).elim
    (by with_unfolding_all decide) h.bus
  have hdevname : '#' ∉ lit "DEVNAME=" ++ v (lit "DEVNAME") := by
    rw [h.devname]
    exact fun hmem => (List.mem_append.mp hmem).elim (by with_unfolding_all decide) hdevice
  have haction : '#' ∉ lit "ACTION=" ++ v (lit "ACTION") := by
    rw [h.action]
    cases a <;> with_unfolding_all decide
  have hlen : (lit "DEVNAME=").length = 8 := by with_unfolding_all decide
  have hother : lit "ACTION=umount" ≠ lit "ACTION=mount" := by with_unfolding_all decide
  have htext : lit "ACTION=" ++ lit "mount" = lit "ACTION=mount" ∧
      lit "ACTION=" ++ lit "umount" = lit "ACTION=umount" := by
    with_unfolding_all decide
  rw [readRecord, recordOf, Shell.splitOn_field hbus, Shell.splitOn_field hdevname, Shell.splitOn_field haction]
  simp only [h.devname, h.action, List.prefix_append, if_true]
  rw [← hlen, List.drop_left]
  cases a with
  | mount => exact if_pos htext.1
  | umount => exact (if_neg (htext.2 ▸ hother)).trans (if_pos htext.2)

theorem Says.record (h : Says v device action) : IsClean (recordOf v) ∧ '#' ∈ recordOf v := by
  have hlit : ∀ t ∈ [lit "ID_BUS=", lit "DEVNAME=", lit "ACTION=", lit "ID_FS_LABEL=", lit "ID_FS_TYPE=",
      lit "ID_VENDOR=", lit "ID_MODEL=", lit "DEVPATH="], IsClean t := by
    intro t ht
    refine isClean_lit t ?_
    revert t
    with_unfolding_all decide
  have hfield : ∀ name ∈ [lit "ID_BUS=", lit "DEVNAME=", lit "ACTION=", lit "ID_FS_LABEL=", lit "ID_FS_TYPE=",
      lit "ID_VENDOR=", lit "ID_MODEL=", lit "DEVPATH="], ∀ key, IsClean (name ++ v key) :=
    fun name hname key => isClean_append (hlit name hname) (h.clean key)
  refine ⟨?_, by simp [recordOf]⟩
  unfold recordOf
  refine isClean_field (hfield _ (by simp) _) (isClean_field (hfield _ (by simp) _) ?_)
  refine isClean_field (hfield _ (by simp) _) (isClean_field (hfield _ (by simp) _) ?_)
  refine isClean_field (hfield _ (by simp) _) (isClean_field (hfield _ (by simp) _) ?_)
  exact isClean_field (hfield _ (by simp) _) (hfield _ (by simp) _)

/-- **The line that is appended names the device and the action.** -/
theorem reads_record (hd : IsDevice device) (hm : Honest sh m device) (a : Action) :
    ∃ record : Text, appended sh m device a.text = record ++ ['\n'] ∧ IsClean record ∧ '#' ∈ record ∧
      readRecord record = some (device, a) := by
  have haction : IsClean a.text := by cases a <;> exact isClean_lit _ (by with_unfolding_all decide)
  have hhash : '#' ∉ device := fun hmem => (Shell.isPlain_facts (hd.plain _ hmem)).2.2.1 rfl
  have hsays := environment_says hd haction hm
  obtain ⟨hclean, hmem⟩ := hsays.record
  exact ⟨_, hclean.echo hmem sh, hclean, hmem, hsays.read hhash⟩

end Says
end Tcos.Udev.SaveUdev
