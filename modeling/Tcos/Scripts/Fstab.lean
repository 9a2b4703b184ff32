import Tcos.Shell.Commands
import Tcos.Shell.Echo
import Tcos.Systems.Run

/-! 50fstab: a line of `/etc/fstab` for each partition.

The options of a line stand in a variable that an ntfs partition overwrites. `own_iff` says of which
lists of partitions each line is that of its partition alone, and `orders_iff` of which the lines
are the same in every order. -/
namespace Tcos.Scripts.Fstab
open Shell (Text lit lines captured fields unwords isIfs isPattern isInert Sh)

/-! ### get_filesystem -/

/-- The type that fdisk's number is taken for. -/
def fdiskType (ntfsMode type : Text) : Text :=
  if lit "83" <:+: type then lit "ext3"
  else if type = lit "82" then lit "swap"
  else if type = lit "b" ∨ type = lit "c" ∨ type = lit "e" then lit "vfat"
  else if type = lit "f" ∨ type = lit "5" then lit "extended"
  else if type = lit "7" then ntfsMode
  else lit "auto"

/-- A partition and its type, as they are reported: single words for the shell. -/
structure Partition where
  dev : Text
  fs : Text
  rooted : dev.head? = some '/'
  named : fs ≠ []
  plain : ∀ c ∈ dev ++ fs, isInert c = true ∧ c ≠ '\\'

/-- `echo_fs`. -/
def Partition.entry (p : Partition) : Text := captured (p.dev ++ ' ' :: p.fs ++ ['\n'])

/-! ### create_fstab -/

def defaults : Text := lit "    defaults,noauto        0       2"

def readOnly : Text := lit "    defaults,ro,noauto        0       2"

/-- `echo $entry | awk '{print $n}'`. -/
def word (sh : Sh) (n : Nat) (entry : Text) : Text :=
  captured ((lines (sh.echo (sh.expand entry))).flatMap fun l => ((fields l)[n - 1]?).getD [] ++ ['\n'])

/-- `${dev#/dev/}`. -/
def afterDev (dev : Text) : Text := if lit "/dev/" <+: dev then dev.drop 5 else dev

/-- The line for a device, and the options afterwards. -/
def entryOf (options dev fs : Text) : Option Text × Text :=
  if fs = lit "swap" then (some (dev ++ lit "\tnone\tswap    sw              0       0"), options)
  else if fs = lit "extended" then (none, options)
  else
    let mntpoint := lit "/mnt/" ++ afterDev dev
    let options := if fs = lit "ntfs" then readOnly else options
    (some (dev ++ '\t' :: (mntpoint ++ '\t' :: (fs ++ '\t' :: options))), options)

/-- `echo $entry >> /etc/fstab`. -/
def written (sh : Sh) (entry : Option Text) : Text := (entry.map fun e => sh.echo (sh.expand e)).getD []

/-- What is written, and the options afterwards. -/
def turn (sh : Sh) (options : Text) (p : Partition) : Text × Text :=
  let e := entryOf options (word sh 1 p.entry) (word sh 2 p.entry)
  (written sh e.1, e.2)

/-- The loop. -/
def createFrom (sh : Sh) (options : Text) : List Partition → List Text
  | [] => []
  | p :: ps => (turn sh options p).1 :: createFrom sh (turn sh options p).2 ps

/-- What each partition adds to the file. -/
def createFstab (sh : Sh) (ps : List Partition) : List Text := createFrom sh defaults ps

/-! ### A partition alone -/

def Partition.isNtfs (p : Partition) : Bool := p.fs = lit "ntfs"

/-- Neither swap, extended nor ntfs. -/
def Partition.isOther (p : Partition) : Bool :=
  p.fs ≠ lit "swap" && p.fs ≠ lit "extended" && p.fs ≠ lit "ntfs"

/-- The words of a line, with the options of ntfs partitions or the default ones. -/
def Partition.words (readOnly : Bool) (p : Partition) : List Text :=
  if p.fs = lit "swap" then [p.dev, lit "none", lit "swap", lit "sw", lit "0", lit "0"]
  else
    [p.dev, lit "/mnt/" ++ afterDev p.dev, p.fs, if readOnly then lit "defaults,ro,noauto"
      else lit "defaults,noauto", lit "0", lit "2"]

def Partition.line (readOnly : Bool) (p : Partition) : Text :=
  if p.fs = lit "extended" then [] else unwords (p.words readOnly) ++ ['\n']

/-- The line that is due to a partition. -/
def Partition.own (p : Partition) : Text := p.line p.isNtfs

/-! ### Words -/

section Words
variable {sh : Sh} {e : Text}

/-- An entry of plain words is written as it is, but for the blanks. -/
theorem echo_entry (h : ∀ c ∈ e, isPattern c = false ∧ c ≠ '\\')
    (hroot : ∀ w, (fields e).head? = some w → w.head? = some '/') :
    sh.echo (sh.expand e) = unwords (fields e) ++ ['\n'] := by
  rw [Sh.expand, Shell.expand_fields _ fun c hc => (h c hc).1]
  refine Shell.echo_raw sh (fun w hw hslash => ?_) fun w hw => ?_
  · exact (h '\\' ((Shell.mem_fields hw).2.2.subset hslash)).2 rfl
  · rw [hroot w hw]
    decide

/-- A word and a blank before the rest. -/
theorem fields_word_append {w : Text} (hne : w ≠ []) (h : ∀ c ∈ w, isIfs c = false) {c : Char}
    (hc : isIfs c = true) (t : Text) : fields (w ++ c :: t) = w :: fields t := by
  rw [fields, Libc.tokens_append h hc, if_neg hne]
  rfl

end Words

section Turn
variable (sh : Sh) (p : Partition)

theorem Partition.inert {c : Char} (h : c ∈ p.dev ++ p.fs) : isIfs c = false ∧ isPattern c = false ∧
    c ≠ '\\' := by
  obtain ⟨hinert, hslash⟩ := p.plain c h
  rw [isInert, Bool.and_eq_true, Bool.not_eq_true', Bool.not_eq_true'] at hinert
  exact ⟨hinert.1, hinert.2, hslash⟩

theorem Partition.dev_word : p.dev ≠ [] ∧ ∀ c ∈ p.dev, isIfs c = false := by
  refine ⟨fun h => ?_, fun c hc => (p.inert (List.mem_append_left _ hc)).1⟩
  have := p.rooted
  rw [h] at this
  exact absurd this (by simp)

theorem Partition.fs_word : p.fs ≠ [] ∧ ∀ c ∈ p.fs, isIfs c = false :=
  ⟨p.named, fun _ hc => (p.inert (List.mem_append_right _ hc)).1⟩

theorem afterDev_subset (dev : Text) : ∀ c ∈ afterDev dev, c ∈ dev := by
  intro c hc
  unfold afterDev at hc
  split at hc
  · exact List.mem_of_mem_drop hc
  · exact hc

theorem Partition.point_word : lit "/mnt/" ++ afterDev p.dev ≠ [] ∧
    ∀ c ∈ lit "/mnt/" ++ afterDev p.dev, isIfs c = false := by
  refine ⟨fun h => absurd (List.append_eq_nil_iff.mp h).1 (by with_unfolding_all decide), fun c hc => ?_⟩
  rcases List.mem_append.mp hc with hc | hc
  · have hlit : ((lit "/mnt/").all fun c => !isIfs c) = true := by with_unfolding_all decide
    simpa using List.all_eq_true.mp hlit c hc
  · exact p.dev_word.2 c (afterDev_subset _ c hc)

/-- The two words that get_filesystem reports. -/
theorem fields_entry : fields p.entry = [p.dev, p.fs] := by
  have hline : '\n' ∉ p.dev ++ ' ' :: p.fs := fun h => by
    rw [List.mem_append, List.mem_cons] at h
    rcases h with h | h | h
    · exact absurd (p.dev_word.2 _ h) (by decide)
    · exact absurd h (by decide)
    · exact absurd (p.fs_word.2 _ h) (by decide)
  rw [Partition.entry, Shell.captured_line hline, fields_word_append p.dev_word.1 p.dev_word.2 rfl,
    Shell.fields_word p.fs_word.1 p.fs_word.2]

theorem word_entry : word sh 1 p.entry = p.dev ∧ word sh 2 p.entry = p.fs := by
  have hplain : ∀ c ∈ p.entry, isPattern c = false ∧ c ≠ '\\' := by
    intro c hc
    have hmem : c ∈ p.dev ++ ' ' :: p.fs ++ ['\n'] := Shell.mem_captured hc
    simp only [List.mem_append, List.mem_cons, List.not_mem_nil, or_false] at hmem
    rcases hmem with (hmem | rfl | hmem) | rfl
    · exact (p.inert (List.mem_append_left _ hmem)).2
    · decide
    · exact (p.inert (List.mem_append_right _ hmem)).2
    · decide
  have hecho : sh.echo (sh.expand p.entry) = unwords [p.dev, p.fs] ++ ['\n'] := by
    rw [echo_entry hplain, fields_entry]
    intro w hw
    rw [fields_entry] at hw
    obtain rfl : p.dev = w := by simpa using hw
    exact p.rooted
  have hwords : ∀ w ∈ [p.dev, p.fs], w ≠ [] ∧ ∀ c ∈ w, isIfs c = false := by
    simpa using ⟨p.dev_word, p.fs_word⟩
  have hclean : ∀ w ∈ [p.dev, p.fs], '\n' ∉ w := fun w hw h => absurd ((hwords w hw).2 _ h) (by decide)
  have hlines : lines (unwords [p.dev, p.fs] ++ ['\n']) = [unwords [p.dev, p.fs]] := by
    have hno : '\n' ∉ unwords [p.dev, p.fs] := fun h => by
      obtain ⟨w, hw, hmem⟩ := Shell.mem_intercalate h (by decide)
      exact hclean w hw hmem
    simpa [lines] using Shell.lines_cons hno []
  unfold word
  rw [hecho, hlines]
  simp only [List.flatMap_cons, List.flatMap_nil, List.append_nil, Shell.fields_unwords hwords]
  exact ⟨Shell.captured_line (hclean p.dev (by simp)), Shell.captured_line (hclean p.fs (by simp))⟩

/-- The two values of the variable. -/
def optionsOf (readOnly' : Bool) : Text := if readOnly' then readOnly else defaults

theorem fields_options (r : Bool) :
    fields (optionsOf r) = [if r then lit "defaults,ro,noauto" else lit "defaults,noauto", lit "0",
    lit "2"] := by
  cases r <;> with_unfolding_all decide

theorem options_plain (r : Bool) : ∀ c ∈ optionsOf r, isPattern c = false ∧ c ≠ '\\' := by
  cases r
  · exact Shell.each (by with_unfolding_all decide)
  · exact Shell.each (by with_unfolding_all decide)

theorem point_plain : ∀ c ∈ lit "/mnt/" ++ afterDev p.dev, isPattern c = false ∧ c ≠ '\\' := by
  have h : ∀ c ∈ lit "/mnt/", isPattern c = false ∧ c ≠ '\\' :=
    Shell.each (by with_unfolding_all decide)
  intro c hc
  rcases List.mem_append.mp hc with hc | hc
  · exact h c hc
  · exact (p.inert (List.mem_append_left _ (afterDev_subset _ c hc))).2

theorem dev_plain : ∀ c ∈ p.dev, isPattern c = false ∧ c ≠ '\\' :=
  fun _ hc => (p.inert (List.mem_append_left _ hc)).2

/-- An entry that begins with the device is printed as its words. -/
theorem written_entry {e rest : Text} {ws : List Text} (he : e = p.dev ++ rest)
    (hrest : ∀ c ∈ rest, isPattern c = false ∧ c ≠ '\\') (hfields : fields e = p.dev :: ws) :
    written sh (some e) = unwords (p.dev :: ws) ++ ['\n'] := by
  have hplain : ∀ c ∈ e, isPattern c = false ∧ c ≠ '\\' := by
    intro c hc
    rw [he] at hc
    exact (List.mem_append.mp hc).elim (dev_plain p c) (hrest c)
  have hroot : ∀ w, (fields e).head? = some w → w.head? = some '/' := by
    intro w hw
    obtain rfl : p.dev = w := by simpa [hfields] using hw
    exact p.rooted
  dsimp only [written, Option.map_some, Option.getD_some]
  rw [echo_entry hplain hroot, hfields]

theorem swap_fields : fields (p.dev ++ lit "\tnone\tswap    sw              0       0") =
    [p.dev, lit "none", lit "swap", lit "sw", lit "0", lit "0"] := by
  have htext : lit "\tnone\tswap    sw              0       0" = '\t' ::
    lit "none\tswap    sw              0       0" := by
    with_unfolding_all rfl
  rw [htext, fields_word_append p.dev_word.1 p.dev_word.2 rfl]
  congr 1
  with_unfolding_all decide

theorem swap_plain : ∀ c ∈ lit "\tnone\tswap    sw              0       0",
    isPattern c = false ∧ c ≠ '\\' :=
  Shell.each (by with_unfolding_all decide)

theorem mount_fields (r : Bool) : fields (p.dev ++ '\t' ::
    (lit "/mnt/" ++ afterDev p.dev ++ '\t' :: (p.fs ++ '\t' :: optionsOf r))) =
      [p.dev, lit "/mnt/" ++ afterDev p.dev, p.fs,
        if r then lit "defaults,ro,noauto" else lit "defaults,noauto", lit "0", lit "2"] := by
  rw [fields_word_append p.dev_word.1 p.dev_word.2 rfl,
    fields_word_append p.point_word.1 p.point_word.2 rfl,
    fields_word_append p.fs_word.1 p.fs_word.2 rfl, fields_options]

theorem mount_plain (r : Bool) : ∀ c ∈ '\t' ::
    (lit "/mnt/" ++ afterDev p.dev ++ '\t' :: (p.fs ++ '\t' :: optionsOf r)),
      isPattern c = false ∧ c ≠ '\\' := by
  intro c hc
  simp only [List.mem_append, List.mem_cons] at hc
  rcases hc with rfl | hc | rfl | hc | rfl | hc
  · decide
  · exact point_plain p c (List.mem_append.mpr hc)
  · decide
  · exact (p.inert (List.mem_append_right _ hc)).2
  · decide
  · exact options_plain _ c hc

/-- **What a turn writes, and what it leaves in the variable.** -/
theorem turn_eq (r : Bool) :
    turn sh (optionsOf r) p = (p.line (r || p.isNtfs), optionsOf (r || p.isNtfs)) := by
  obtain ⟨hdev, hfs⟩ := word_entry sh p
  unfold turn
  rw [hdev, hfs, entryOf, Partition.line, Partition.words]
  by_cases hswap : p.fs = lit "swap"
  · have hext : ¬ p.fs = lit "extended" := by rw [hswap]; with_unfolding_all decide
    have hntfs : p.isNtfs = false := by rw [Partition.isNtfs, hswap]; with_unfolding_all decide
    rw [if_pos hswap, if_neg hext, if_pos hswap, hntfs, Bool.or_false]
    dsimp only
    rw [written_entry sh p rfl swap_plain (swap_fields p)]
  · rw [if_neg hswap, if_neg hswap]
    by_cases hext : p.fs = lit "extended"
    · have hntfs : p.isNtfs = false := by rw [Partition.isNtfs, hext]; with_unfolding_all decide
      rw [if_pos hext, if_pos hext, hntfs, Bool.or_false]
      rfl
    · have hoptions : (if p.fs = lit "ntfs" then readOnly else optionsOf r) = optionsOf
        (r || p.isNtfs) := by
        by_cases hntfs : p.fs = lit "ntfs"
        · simp [Partition.isNtfs, hntfs, optionsOf]
        · simp [Partition.isNtfs, hntfs]
      rw [if_neg hext, if_neg hext, hoptions]
      dsimp only
      rw [written_entry sh p rfl (mount_plain p _) (mount_fields p _)]

end Turn

/-! ### All partitions -/

section Partitions
variable (sh : Sh)

theorem createFrom_cons (r : Bool) (p : Partition) (ps : List Partition) :
    createFrom sh (optionsOf r) (p :: ps) = p.line (r || p.isNtfs) :: createFrom sh
    (optionsOf (r || p.isNtfs)) ps := by
  rw [createFrom, turn_eq]

/-- The options in a line. -/
def mark (line : Text) : Option Text := (fields line)[3]?

theorem words_solid (r : Bool) (p : Partition) : ∀ w ∈ p.words r, w ≠ [] ∧ ∀ c ∈ w, isIfs c = false := by
  have hlit : ([lit "none", lit "swap", lit "sw", lit "0", lit "2", lit "defaults,ro,noauto",
    lit "defaults,noauto"].all
      fun w => !w.isEmpty && w.all fun c => !isIfs c) = true := by with_unfolding_all decide
  have hconst : ∀ w ∈ [lit "none", lit "swap", lit "sw", lit "0", lit "2", lit "defaults,ro,noauto",
    lit "defaults,noauto"],
      w ≠ [] ∧ ∀ c ∈ w, isIfs c = false := fun w hw => by
    simpa using List.all_eq_true.mp hlit w hw
  intro w hw
  unfold Partition.words at hw
  split at hw
  · rw [List.mem_cons] at hw
    rcases hw with rfl | hw
    · exact p.dev_word
    · refine hconst w ?_
      simp only [List.mem_cons, List.not_mem_nil, or_false] at hw ⊢
      tauto
  · rw [List.mem_cons, List.mem_cons, List.mem_cons] at hw
    rcases hw with rfl | rfl | rfl | hw
    · exact p.dev_word
    · exact p.point_word
    · exact p.fs_word
    · refine hconst w ?_
      cases r <;> simp only [List.mem_cons, List.not_mem_nil, or_false, if_true, Bool.false_eq_true,
        if_false] at hw ⊢ <;> tauto

theorem mark_line (r : Bool) (p : Partition) : mark (p.line r) =
    if p.fs = lit "extended" then none
    else if p.fs = lit "swap" then some (lit "sw")
    else some (if r then lit "defaults,ro,noauto" else lit "defaults,noauto") := by
  unfold mark Partition.line
  split_ifs with hext hswap
  · rfl
  all_goals
    rw [fields, Libc.tokens_append_delim rfl, ← fields, Shell.fields_unwords (words_solid r p),
      Partition.words]
    simp_all

/-- **The line of a partition is its own exactly when the variable is as it was, or does not matter.** -/
theorem line_iff (r : Bool) (p : Partition) : p.line (r || p.isNtfs) = p.own ↔
    (p.isOther = true → r = false) := by
  constructor
  · intro h hother
    have hmark := congrArg mark h
    rw [Partition.own, mark_line, mark_line] at hmark
    simp only [Partition.isOther, Bool.and_eq_true, decide_eq_true_eq] at hother
    obtain ⟨⟨hswap, hext⟩, hntfs⟩ := hother
    have hno : p.isNtfs = false := decide_eq_false hntfs
    rw [if_neg hext, if_neg hext, if_neg hswap, if_neg hswap, hno, Bool.or_false] at hmark
    cases r with
    | false => rfl
    | true => exact absurd hmark (by with_unfolding_all decide)
  · intro h
    cases r with
    | false => rfl
    | true =>
      have hother : p.isOther = false := by
        rw [← Bool.not_eq_true]
        exact fun hother => absurd (h hother) (by simp)
      by_cases hntfs : p.isNtfs = true
      · rw [Partition.own, hntfs]
        rfl
      · have hkind : p.fs = lit "swap" ∨ p.fs = lit "extended" := by
          have hntfs' : p.fs ≠ lit "ntfs" := fun heq => hntfs (decide_eq_true heq)
          by_contra hnot
          rw [not_or] at hnot
          simp [Partition.isOther, hnot.1, hnot.2, hntfs'] at hother
        rw [Partition.own, Partition.line, Partition.line, Partition.words, Partition.words]
        rcases hkind with hkind | hkind
        · rw [if_pos hkind, if_pos hkind]
        · rw [if_pos hkind, if_pos hkind]

theorem createFrom_iff (r : Bool) (ps : List Partition) : createFrom sh
    (optionsOf r) ps = ps.map Partition.own ↔ ∀ before p after, ps = before ++ p :: after →
    p.isOther = true → r = false ∧ ∀ q ∈ before, q.isNtfs = false := by
  induction ps generalizing r with
  | nil => simp [createFrom]
  | cons p ps ih =>
    rw [createFrom_cons, List.map_cons, List.cons.injEq, line_iff, ih]
    constructor
    · rintro ⟨hfirst, hrest⟩ before q after hsplit hother
      rcases List.cons_eq_append_iff.mp hsplit with ⟨rfl, h⟩ | ⟨before, rfl, h⟩
      · obtain ⟨rfl, -⟩ := List.cons.inj h
        exact ⟨hfirst hother, by simp⟩
      · obtain ⟨hr, hbefore⟩ := hrest before q after h hother
        rw [Bool.or_eq_false_iff] at hr
        exact ⟨hr.1, List.forall_mem_cons.mpr ⟨hr.2, hbefore⟩⟩
    · intro h
      refine ⟨fun hother => (h [] p ps rfl hother).1, fun before q after hsplit hother => ?_⟩
      obtain ⟨hr, hbefore⟩ := h (p :: before) q after (by rw [hsplit, List.cons_append]) hother
      rw [List.forall_mem_cons] at hbefore
      exact ⟨by rw [hr, hbefore.1]; rfl, hbefore.2⟩

/-- Behind an ntfs partition. -/
theorem createFrom_readOnly (ps : List Partition) :
    createFrom sh (optionsOf true) ps = ps.map (Partition.line true) := by
  induction ps with
  | nil => rfl
  | cons p ps ih => rw [createFrom_cons, Bool.true_or, ih, List.map_cons]

theorem mark_other {p : Partition} (h : p.isOther = true) : mark p.own = some
    (lit "defaults,noauto") := by
  simp only [Partition.isOther, Bool.and_eq_true, decide_eq_true_eq] at h
  have hno : p.isNtfs = false := decide_eq_false h.2
  rw [Partition.own, mark_line, if_neg h.1.2, if_neg h.1.1, hno]
  rfl

theorem mark_readOnly (p : Partition) : mark (p.line true) ≠ some (lit "defaults,noauto") := by
  rw [mark_line]
  simp only [if_true]
  split_ifs <;> with_unfolding_all decide

/-- Each line is that of its partition alone when no partition with the default options comes after
an ntfs partition. -/
theorem own_lines_iff (ps : List Partition) : createFstab sh ps = ps.map Partition.own ↔
    ∀ before p after, ps = before ++ p :: after → p.isOther = true → ∀ q ∈ before, q.isNtfs = false := by
  have h := createFrom_iff sh false ps
  simp only [true_and] at h
  exact h

/-- In every order, when there are not both. -/
theorem orders_iff (ps : List Partition) :
    (∀ qs, qs.Perm ps → (createFstab sh qs).Perm (createFstab sh ps)) ↔
    ¬ ((∃ p ∈ ps, p.isOther = true) ∧ ∃ q ∈ ps, q.isNtfs = true) := by
  constructor
  · rintro h ⟨⟨p, hp, hother⟩, q, hq, hntfs⟩
    obtain ⟨a, b, hab⟩ := List.append_of_mem hp
    obtain ⟨c, d, hcd⟩ := List.append_of_mem hq
    -- the one comes first in one order and the other in another
    have hfirst := h (p :: (a ++ b)) (hab ▸ List.perm_middle.symm)
    have hlast := h (q :: (c ++ d)) (hcd ▸ List.perm_middle.symm)
    have hmem : p.own ∈ createFstab sh (p :: (a ++ b)) := by
      change p.own ∈ createFrom sh (optionsOf false) (p :: (a ++ b))
      rw [createFrom_cons]
      exact List.mem_cons_self ..
    have hmem' : p.own ∈ createFstab sh (q :: (c ++ d)) := (hfirst.trans hlast.symm).subset hmem
    have hlines : createFstab sh (q :: (c ++ d)) = (q :: (c ++ d)).map (Partition.line true) := by
      change createFrom sh (optionsOf false) (q :: (c ++ d)) = _
      rw [createFrom_cons, hntfs, Bool.false_or, createFrom_readOnly, List.map_cons]
    rw [hlines, List.mem_map] at hmem'
    obtain ⟨x, -, hx⟩ := hmem'
    exact mark_readOnly x (hx ▸ mark_other hother)
  · intro hnot qs hperm
    have hown : ∀ rs : List Partition, rs.Perm ps → createFstab sh rs = rs.map Partition.own := by
      intro rs hrs
      rw [own_lines_iff]
      rintro before p after rfl hother q hq
      rw [← Bool.not_eq_true]
      intro hntfs
      exact hnot ⟨⟨p, hrs.subset (by simp), hother⟩, q, hrs.subset (by simp [hq]), hntfs⟩
    rw [hown qs hperm, hown ps (List.Perm.refl _)]
    exact hperm.map _

/-- **Each line is that of its partition alone exactly when no partition with the default options
comes after an ntfs partition, and the lines are the same in every order exactly when there are not
both.** -/
theorem own_iff (ps : List Partition) :
    (createFstab sh ps = ps.map Partition.own ↔
      ∀ before p after, ps = before ++ p :: after → p.isOther = true → ∀ q ∈ before, q.isNtfs = false) ∧
    ((∀ qs, qs.Perm ps → (createFstab sh qs).Perm (createFstab sh ps)) ↔
      ¬ ((∃ p ∈ ps, p.isOther = true) ∧ ∃ q ∈ ps, q.isNtfs = true)) :=
  ⟨own_lines_iff sh ps, orders_iff sh ps⟩

end Partitions

/-! ### Types of fdisk -/

theorem fdiskType_cases (ntfsMode type : Text) : fdiskType ntfsMode type = ntfsMode ∨
    fdiskType ntfsMode type ∈ [lit "ext3", lit "swap", lit "vfat", lit "extended", lit "auto"] := by
  unfold fdiskType
  split_ifs <;> simp

/-- A partition with the type that fdisk's number is taken for. -/
def Partition.ofFdisk (dev ntfsMode type : Text) (rooted : dev.head? = some '/')
    (plain : ∀ c ∈ dev, isInert c = true ∧ c ≠ '\\')
    (mode : ntfsMode = lit "ntfs" ∨ ntfsMode = lit "ntfs-3g") : Partition where
  dev := dev
  fs := fdiskType ntfsMode type
  rooted := rooted
  named := by
    rcases fdiskType_cases ntfsMode type with h | h
    · rw [h]
      rcases mode with rfl | rfl <;> with_unfolding_all decide
    · intro hnil
      rw [hnil] at h
      exact absurd h (by with_unfolding_all decide)
  plain := by
    have hwords : ([lit "ext3", lit "swap", lit "vfat", lit "extended", lit "auto", lit "ntfs",
      lit "ntfs-3g"].all fun w =>
        w.all fun c => isInert c && c != '\\') = true := by with_unfolding_all decide
    have hmem : fdiskType ntfsMode type ∈
        [lit "ext3", lit "swap", lit "vfat", lit "extended", lit "auto", lit "ntfs", lit "ntfs-3g"] := by
      rcases fdiskType_cases ntfsMode type with h | h
      · rw [h]
        rcases mode with rfl | rfl <;> simp
      · simp only [List.mem_cons, List.not_mem_nil, or_false] at h ⊢
        tauto
    intro c hc
    rcases List.mem_append.mp hc with hc | hc
    · exact plain c hc
    · simpa using List.all_eq_true.mp (List.all_eq_true.mp hwords _ hmem) c hc

/-- Of another file system behind an ntfs partition. -/
def windowsFirst : List Partition :=
  [⟨lit "/dev/sda1", lit "ntfs", by with_unfolding_all decide, by with_unfolding_all decide, by
      have h : ((lit "/dev/sda1" ++ lit "ntfs").all fun c => isInert c && c != '\\') = true := by
        with_unfolding_all decide
      simpa using List.all_eq_true.mp h⟩,
    ⟨lit "/dev/sda2", lit "ext3", by with_unfolding_all decide, by with_unfolding_all decide, by
      have h : ((lit "/dev/sda2" ++ lit "ext3").all fun c => isInert c && c != '\\') = true := by
        with_unfolding_all decide
      simpa using List.all_eq_true.mp h⟩]

def plainSh : Sh := ⟨false, .standard, fun w => [w], Shell.names_self⟩

/-- Behind the ntfs partition the next one gets its options. -/
theorem options_kept : createFstab plainSh windowsFirst ≠ windowsFirst.map Partition.own := by
  with_unfolding_all decide

end Tcos.Scripts.Fstab
