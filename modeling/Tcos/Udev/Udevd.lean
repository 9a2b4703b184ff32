import Tcos.Udev.SaveUdev

/-! tcos-udevd.sh: the record of a block device that comes or goes.

udev runs the script with the properties of the device in its environment. Mounts are left to save-udev.sh, and
`reads_none` says that a line of this script is never read as one. -/
namespace Tcos.Udev.Udevd
open Grep (selects)
open SaveUdev (Property Machine IsClean blankless isCdrom cdType before behind readRecord isClean_append
  isClean_field isClean_lit isClean_of_subset isClean_captured isClean_echoed mem_captured_echo)
open Shell (Text lit lines unlines captured awk isPattern Sh)

/-! ### The script -/

section Script
variable (sh : Sh) (m : Machine)
  -- what get_filesystem prints of a device
  (filesystem : Text → Text)
  (env : List Property)

/-- `env | grep ^NAME=`. -/
def grepEnv (name : Text) : Text := unlines ((env.map Property.line).filter (name ++ ['=']).isPrefixOf)

/-- What get_env_var prints. -/
def printEnvVar (name : Text) : Text := sh.echo (sh.expand (captured (grepEnv env name)))

/-- `$(get_env_var NAME)`. -/
def getEnvVar (name : Text) : Text := captured (printEnvVar sh env name)

/-- The variable itself. -/
def value (name : Text) : Text := ((env.find? fun p => p.name = name).map Property.value).getD []

/-- The device is of a loop or of the memory. -/
def isIgnored : Bool :=
  (lines (sh.echo (sh.expand (value env (lit "DEVNAME"))))).any fun l =>
    selects (lit "/dev/loop") l || selects (lit "/dev/ram") l

def translated (devpath : Text) : Text :=
  if (lines (sh.echo (sh.expand devpath))).any (selects (lit "/devices/")) then
    captured (unlines ((lines (sh.echo [devpath])).map fun l =>
      lit "DEVPATH=/block" ++ before (lit "/block") (behind (lit "/block") l)))
  else devpath

def label : Text := lit "ID_FS_LABEL=" ++ captured (awk '=' 2 (printEnvVar sh env (lit "ID_FS_LABEL_SAFE")))

/-- `${device#DEVNAME=}`. -/
def devname (device : Text) : Text :=
  if lit "DEVNAME=" <+: device then device.drop (lit "DEVNAME=").length else device

/-- What get_filesystem says of a device that it cannot tell. -/
def isUnknown (fs : Text) : Bool := [lit "auto", [], lit "unknow", lit "error, need device"].contains fs

/-- The field of a disc has no key. -/
def fsType (device part : Text) : Text :=
  let given := getEnvVar sh env (lit "ID_FS_TYPE")
  let fs := captured (filesystem (devname device))
  let found :=
    if (given = lit "ID_FS_TYPE=" || given = []) && !isUnknown fs then lit "ID_FS_TYPE=" ++ fs else given
  if isCdrom sh m part then cdType m (devname device) else found

/-- `ID_VENDOR` and `ID_MODEL`, and else the file of the disk. -/
def orFile (name file : Text) : Text :=
  let given := getEnvVar sh env name
  if given = name ++ ['='] ∨ given = [] then name ++ '=' :: blankless file else given

/-- The line without its newline, where the script comes to it. -/
def record : Option Text :=
  let action := getEnvVar sh env (lit "ACTION")
  -- nothing is recorded during the boot
  if !m.isThere (lit "/var/run/tcos-udev.run") then none
  else if action = lit "ACTION=mount" ∨ action = lit "ACTION=umount" then none
  else if isIgnored sh env then none
  else
    let device := getEnvVar sh env (lit "DEVNAME")
    let devpath := translated sh (getEnvVar sh env (lit "DEVPATH"))
    let blockname := captured (awk '/' 3 (sh.echo (sh.expand devpath)))
    let part := captured (awk '/' 3 (sh.echo (sh.expand device)))
    some (getEnvVar sh env (lit "ID_BUS") ++ '#' :: (device ++ '#' :: (action ++ '#' :: (label sh env ++
      '#' :: (fsType sh m filesystem env device part ++
      '#' :: (orFile sh env (lit "ID_VENDOR") (m.vendor blockname) ++
      '#' :: (orFile sh env (lit "ID_MODEL") (m.model blockname) ++ '#' :: devpath)))))))

/-- What is appended to the log. -/
def appended : Text := ((record sh m filesystem env).map fun r => sh.echo [r]).getD []

end Script

/-! ### The environment -/

/-- No value splits one of the first fields, and all texts are clean. -/
structure IsEvent (m : Machine) (filesystem : Text → Text) (env : List Property) : Prop where
  clean : ∀ p ∈ env, ∀ c ∈ p.value, isPattern c = false ∧ c ≠ '|' ∧ c ≠ '\\'
  whole : ∀ p ∈ env, p.name ∈ [lit "ID_BUS", lit "DEVNAME", lit "ACTION"] → '#' ∉ p.value
  filesystem : ∀ device, IsClean (captured (filesystem device))
  files : ∀ disk, IsClean (blankless (m.vendor disk)) ∧ IsClean (blankless (m.model disk))

section Event
variable {sh : Sh} {m : Machine} {filesystem : Text → Text} {env : List Property} {name : Text}

theorem line_clean (p : Property) (h : ∀ c ∈ p.value, isPattern c = false ∧ c ≠ '|' ∧ c ≠ '\\') :
    IsClean p.line ∧ ∀ c ∈ p.line, isPattern c = false := by
  have hline : ∀ c ∈ p.line, c ∈ p.name ∨ c = '=' ∨ c ∈ p.value := by simp [Property.line]
  refine ⟨fun c hc => ?_, fun c hc => ?_⟩
  · rcases hline c hc with hc | rfl | hc
    · refine ⟨?_, ?_, ?_⟩ <;> rintro rfl <;> exact p.not_mem_name (by decide) (by decide) hc
    · decide
    · exact ⟨fun hn => p.oneLine (hn ▸ hc), (h c hc).2⟩
  · rcases hline c hc with hc | rfl | hc
    · exact (p.name_clean.2.2 c hc).2
    · decide
    · exact (h c hc).1

/-- The lines that grep selects are those of the variable. -/
theorem name_of_prefix {p : Property} (hname : '=' ∉ name) (h : (name ++ ['=']).isPrefixOf p.line = true) :
    p.name = name := by
  obtain ⟨s, hs⟩ := List.isPrefixOf_iff_prefix.mp h
  have hcut : p.name ++ '=' :: p.value = name ++ '=' :: s := by
    rw [← Property.line, ← hs]
    simp
  exact (Shell.cut_unique p.name_clean.1 hname hcut).1

theorem mem_grepEnv (hname : '=' ∉ name) {c : Char} (hc : c ∈ captured (grepEnv env name)) :
    c = '\n' ∨ ∃ p ∈ env, p.name = name ∧ c ∈ p.line := by
  obtain ⟨l, hl, hcl⟩ := List.mem_flatMap.mp (Shell.mem_captured hc)
  obtain ⟨hl, hselected⟩ := List.mem_filter.mp hl
  obtain ⟨p, hp, rfl⟩ := List.mem_map.mp hl
  rcases List.mem_append.mp hcl with hcl | hcl
  · exact .inr ⟨p, hp, name_of_prefix hname hselected, hcl⟩
  · exact .inl (List.mem_singleton.mp hcl)

/-- The bytes of the words are those of the variable's line. -/
theorem mem_words (he : IsEvent m filesystem env) (hname : '=' ∉ name) {w : Text}
    (hw : w ∈ sh.expand (captured (grepEnv env name))) {c : Char} (hc : c ∈ w) :
    ∃ p ∈ env, p.name = name ∧ c ∈ p.line := by
  have hpattern : ∀ c ∈ captured (grepEnv env name), isPattern c = false := by
    intro c hc
    rcases mem_grepEnv hname hc with rfl | ⟨p, hp, -, hc⟩
    · decide
    · exact (line_clean p (he.clean p hp)).2 c hc
  rw [Sh.expand, Shell.expand_fields _ hpattern] at hw
  obtain ⟨-, hifs, hsub⟩ := Shell.mem_fields hw
  rcases mem_grepEnv hname (hsub.subset hc) with rfl | hline
  · exact absurd (hifs _ hc) (by decide)
  · exact hline

theorem words_clean (he : IsEvent m filesystem env) (hname : '=' ∉ name) :
    ∀ w ∈ sh.expand (captured (grepEnv env name)), IsClean w := by
  intro w hw c hc
  obtain ⟨p, hp, -, hline⟩ := mem_words he hname hw hc
  exact (line_clean p (he.clean p hp)).1 c hline

theorem mem_getEnvVar (he : IsEvent m filesystem env) (hname : '=' ∉ name) :
    ∀ c ∈ getEnvVar sh env name, c = ' ' ∨ ∃ p ∈ env, p.name = name ∧ c ∈ p.line := by
  intro c hc
  rcases mem_captured_echo sh (words_clean he hname) c hc with hblank | ⟨w, hw, hcw⟩
  · exact .inl hblank
  · exact .inr (mem_words he hname hw hcw)

theorem getEnvVar_clean (sh : Sh) (he : IsEvent m filesystem env) (hname : '=' ∉ name) :
    IsClean (getEnvVar sh env name) :=
  isClean_echoed (words_clean he hname) (mem_captured_echo sh (words_clean he hname))

/-- The first fields are one each. -/
theorem getEnvVar_whole (sh : Sh) (he : IsEvent m filesystem env)
    (hname : name ∈ [lit "ID_BUS", lit "DEVNAME", lit "ACTION"]) : '#' ∉ getEnvVar sh env name := by
  have hequals : '=' ∉ name := by
    revert name
    with_unfolding_all decide
  intro hhash
  rcases mem_getEnvVar he hequals _ hhash with hno | ⟨p, hp, rfl, hline⟩
  · exact absurd hno (by decide)
  · rcases List.mem_append.mp hline with hhash | hhash
    · exact p.not_mem_name (by decide) (by decide) hhash
    · exact (List.mem_cons.mp hhash).elim (by decide) (he.whole p hp hname)

/-! ### The fields -/

theorem translated_clean {devpath : Text} (h : IsClean devpath) : IsClean (translated sh devpath) := by
  unfold translated
  split
  · refine isClean_captured sh (List.forall_mem_singleton.mpr h) fun l hl => ?_
    exact isClean_append (isClean_lit _ (by with_unfolding_all decide))
      (isClean_of_subset hl fun c hc => SaveUdev.mem_behind c (SaveUdev.mem_before c hc))
  · exact h

theorem label_clean (sh : Sh) (he : IsEvent m filesystem env) : IsClean (label sh env) := by
  have hname : '=' ∉ lit "ID_FS_LABEL_SAFE" := by with_unfolding_all decide
  have hawk : awk '=' 2 (printEnvVar sh env (lit "ID_FS_LABEL_SAFE")) =
      unlines ((lines (printEnvVar sh env (lit "ID_FS_LABEL_SAFE"))).map (Shell.awkField '=' 2)) := by
    rw [awk, unlines, List.flatMap_map]
  rw [label, hawk]
  exact isClean_append (isClean_lit _ (by with_unfolding_all decide)) (isClean_captured sh
    (words_clean he hname) fun l hl => isClean_of_subset hl SaveUdev.mem_awkField)

theorem fsType_clean (he : IsEvent m filesystem env) (device part : Text) :
    IsClean (fsType sh m filesystem env device part) := by
  have hgiven : IsClean (getEnvVar sh env (lit "ID_FS_TYPE")) :=
    getEnvVar_clean sh he (by with_unfolding_all decide)
  have hkey : IsClean (lit "ID_FS_TYPE=") := isClean_lit _ (by with_unfolding_all decide)
  simp only [fsType]
  split
  · exact SaveUdev.cdType_clean m _
  · split
    · exact isClean_append hkey (he.filesystem _)
    · exact hgiven

theorem orFile_clean (he : IsEvent m filesystem env) {file : Text} (hfile : IsClean (blankless file))
    (hname : '=' ∉ name) (hclean : IsClean name) : IsClean (orFile sh env name file) := by
  simp only [orFile]
  split
  · refine isClean_append hclean fun c hc => ?_
    rcases List.mem_cons.mp hc with rfl | hc
    · decide
    · exact hfile c hc
  · exact getEnvVar_clean sh he hname

/-! ### The record -/

theorem record_none (he : IsEvent m filesystem env) {r : Text} (h : record sh m filesystem env = some r) :
    IsClean r ∧ '#' ∈ r ∧ readRecord r = none := by
  have hwhole : ∀ name ∈ [lit "ID_BUS", lit "DEVNAME", lit "ACTION"], '#' ∉ getEnvVar sh env name :=
    fun name hname => getEnvVar_whole sh he hname
  have hbus : IsClean (getEnvVar sh env (lit "ID_BUS")) := getEnvVar_clean sh he (by with_unfolding_all decide)
  have hdevname : IsClean (getEnvVar sh env (lit "DEVNAME")) :=
    getEnvVar_clean sh he (by with_unfolding_all decide)
  have hthird : IsClean (getEnvVar sh env (lit "ACTION")) :=
    getEnvVar_clean sh he (by with_unfolding_all decide)
  have hvendor : ∀ disk, IsClean (orFile sh env (lit "ID_VENDOR") (m.vendor disk)) := fun disk =>
    orFile_clean he (he.files disk).1 (by with_unfolding_all decide)
      (isClean_lit _ (by with_unfolding_all decide))
  have hmodel : ∀ disk, IsClean (orFile sh env (lit "ID_MODEL") (m.model disk)) := fun disk =>
    orFile_clean he (he.files disk).2 (by with_unfolding_all decide)
      (isClean_lit _ (by with_unfolding_all decide))
  have hdevpath : IsClean (translated sh (getEnvVar sh env (lit "DEVPATH"))) :=
    translated_clean (getEnvVar_clean sh he (by with_unfolding_all decide))
  simp only [record] at h
  split at h
  · exact absurd h (by simp)
  split at h
  · exact absurd h (by simp)
  case isFalse haction =>
    split at h
    · exact absurd h (by simp)
    · obtain rfl := Option.some.inj h
      refine ⟨?_, by simp, ?_⟩
      · refine isClean_field hbus (isClean_field hdevname (isClean_field hthird ?_))
        refine isClean_field (label_clean sh he) (isClean_field (fsType_clean he _ _) ?_)
        exact isClean_field (hvendor _) (isClean_field (hmodel _) hdevpath)
      · -- the third field is the action that the script has looked at
        rw [not_or] at haction
        rw [readRecord, Shell.splitOn_field (hwhole _ (by simp)), Shell.splitOn_field (hwhole _ (by simp)),
          Shell.splitOn_field (hwhole _ (by simp))]
        simp only [haction.1, haction.2, if_false, ite_self]

/-- **What the script appends is no mount.** -/
theorem reads_none (sh : Sh) (he : IsEvent m filesystem env) : ∃ records : List Text,
    appended sh m filesystem env = unlines records ∧
      ∀ r ∈ records, (IsClean r ∧ '#' ∈ r) ∧ readRecord r = none := by
  cases hrecord : record sh m filesystem env with
  | none => exact ⟨[], by simp [appended, hrecord, unlines], by simp⟩
  | some r =>
    obtain ⟨hclean, hhash, hread⟩ := record_none he hrecord
    refine ⟨[r], ?_, by simp [hclean, hhash, hread]⟩
    rw [appended, hrecord, Option.map_some, Option.getD_some, hclean.echo hhash]
    simp [unlines]

end Event
end Tcos.Udev.Udevd
