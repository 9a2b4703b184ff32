import Tcos.Grep.Regex
import Tcos.Shell.Commands
import Tcos.Systems.Run

/-! 15uselocal: a local partition for the thin client.

Each partition of `/etc/fstab` is mounted on `/mnt/tmp` until one has enough space. Whether a mount
worked is judged by the number of lines of `/proc/mounts` that the device is found in; `left_iff`
says of which turns what is left on `/mnt/tmp` is the partition that is used, or nothing. -/
namespace Tcos.Scripts.Uselocal
open Shell (Text lit lines unlines captured fields Glob)
open Grep (selects compile)
open Systems (run Every run_append every_iff)

/-! ### The system -/

/-- A line of `/proc/mounts`. -/
structure Mount where
  device : Text
  point : Text
  /-- The type, the options and two numbers. -/
  rest : Text
  /-- The script mounted it. -/
  own : Bool

def Mount.line (m : Mount) : Text := m.device ++ ' ' :: (m.point ++ ' ' :: m.rest)

/-- What the commands of a turn do. -/
structure Outcome where
  mounted : Bool
  /-- As the kernel writes them. -/
  options : Text
  /-- The fourth field of `df`, where it is a number; of another file system if the device is not
  mounted. -/
  df : Option Nat
  umounted : Bool

/-- A device of the loop; the names under /dev have no pattern bytes. -/
structure Turn where
  fs : Text
  dev : Text
  outcome : Outcome

structure State where
  table : List Mount
  /-- The script has left with this device. -/
  used : Option Text

/-! ### The script -/

def needFreeSpace : Nat := 131072

def parts (fstab fs : Text) : List Text :=
  ((lines fstab).filter fun l => selects (lit "^/dev") l).filter fun l => selects fs l

def partsNum (fstab fs : Text) : Nat := (parts fstab fs).length

/-- The words of `parts_devs`. -/
def partsDevs (glob : Glob) (fstab fs : Text) : List Text :=
  glob.expand (captured (unlines ((parts fstab fs).map fun l => (fields l).head?.getD [])))

/-- `grep -c dev /proc/mounts`; `none` where the device is no pattern. -/
def grepCount (dev : Text) (table : List Mount) : Option Nat :=
  if (compile dev).isSome then some (table.countP fun m => selects dev m.line) else none

/-- `free` says how many kilobytes are free on a device. -/
def dfFree (free : Text → Nat) (t : Turn) (table : List Mount) : Option Nat :=
  if table.any fun m => m.device == t.dev then t.outcome.df.map fun _ => free t.dev else t.outcome.df

/-- `mount -t fs -o rw dev /mnt/tmp`. -/
def mount (t : Turn) (table : List Mount) : List Mount :=
  if t.outcome.mounted then table ++ [⟨t.dev, lit "/mnt/tmp", t.fs ++ ' ' :: t.outcome.options, true⟩]
    else table

/-- `umount dev`: the last mount of the device. -/
def umount (t : Turn) (table : List Mount) : List Mount :=
  if t.outcome.umounted then (table.reverse.eraseP fun m => m.device == t.dev).reverse else table

/-- A turn of either loop. -/
def step (free : Text → Nat) (st : State) (t : Turn) : State :=
  if st.used.isSome then st
  else
    let table := mount t st.table
    -- without a number the test fails, and the other branch is taken
    if (grepCount t.dev table).any (· != 1) then { st with table := table }
    else if (dfFree free t table).any (needFreeSpace ≤ ·) then { table := table, used := some t.dev }
    else { st with table := umount t table }

/-- The turns of both loops; the first is not entered if there is nothing in it. -/
def turns (glob : Glob) (fstab : Text) (outcome : Nat → Outcome) : List Turn :=
  let devs (fs : Text) : List (Text × Text) := if partsNum fstab fs = 0 then []
    else (partsDevs glob fstab fs).map fun d => (fs, d)
  (devs (lit "ext3") ++ devs (lit "vfat")).mapIdx fun i x => ⟨x.1, x.2, outcome i⟩

def uselocal (glob : Glob) (free : Text → Nat) (fstab : Text) (outcome : Nat → Outcome)
    (table : List Mount) : State :=
  run (step free) ⟨table, none⟩ (turns glob fstab outcome)

/-! ### What is left -/

/-- At most one file system of the script's is mounted, it is the one that is used, and it has the
space. -/
structure Left (free : Text → Nat) (st : State) : Prop where
  one : (st.table.filter Mount.own).length ≤ 1
  used : ∀ m ∈ st.table, m.own = true → st.used = some m.device
  space : ∀ m ∈ st.table, m.own = true → needFreeSpace ≤ free m.device

/-- What is mounted is the only line that the device is found in, and it has the space or can be
unmounted. -/
def Fits (free : Text → Nat) (st : State) (t : Turn) : Prop := st.used.isSome = true ∨
    t.outcome.mounted = false ∨
  (grepCount t.dev (mount t st.table)).any (· != 1) = false ∧
    ((dfFree free t (mount t st.table)).any (needFreeSpace ≤ ·) = true ∨ t.outcome.umounted = true)

section Turn
variable {free : Text → Nat} {st : State} {t : Turn}

theorem step_used (h : st.used.isSome = true) : step free st t = st := if_pos h

/-- The last mount of a device is the one just made. -/
theorem umount_mount (h : t.outcome.mounted = true) (hu : t.outcome.umounted = true)
    (table : List Mount) : umount t (mount t table) = table := by
  rw [mount, if_pos h, umount, if_pos hu, List.reverse_append, List.reverse_singleton,
    List.singleton_append, List.eraseP_cons_of_pos (by simp), List.reverse_reverse]

theorem umount_sublist (t : Turn) (table : List Mount) : (umount t table).Sublist table := by
  unfold umount
  split
  · have h := (List.eraseP_sublist (p := fun m : Mount => m.device == t.dev)
      (l := table.reverse)).reverse
    rwa [List.reverse_reverse] at h
  · exact List.Sublist.refl _

theorem dfFree_mounted (h : t.outcome.mounted = true) (table : List Mount)
    (hfree : (dfFree free t (mount t table)).any (needFreeSpace ≤ ·) = true) :
    needFreeSpace ≤ free t.dev := by
  have hany : ((mount t table).any fun m => m.device == t.dev) = true := by
    rw [mount, if_pos h]
    simp
  rw [dfFree, if_pos hany] at hfree
  cases hdf : t.outcome.df with
  | none => simp [hdf] at hfree
  | some n => simpa [hdf] using hfree

/-- Nothing of the script's is in the table. -/
def Clear (table : List Mount) : Prop := ∀ m ∈ table, m.own = false

theorem Left.clear (h : Left free st) (hst : st.used = none) : Clear st.table := fun m hm => by
  rw [← Bool.not_eq_true]
  intro hown
  have := h.used m hm hown
  rw [hst] at this
  exact absurd this (by simp)

theorem Clear.left {table : List Mount} (h : Clear table) (used : Option Text) :
    Left free ⟨table, used⟩ := by
  have hno : ∀ m ∈ table, ¬ m.own = true := fun m hm hown => by
    rw [h m hm] at hown
    exact absurd hown (by simp)
  refine ⟨?_, fun m hm hown => absurd hown (hno m hm), fun m hm hown => absurd hown (hno m hm)⟩
  rw [List.filter_eq_nil_iff.mpr hno]
  exact Nat.zero_le 1

/-- What was not mounted is not left. -/
theorem step_unmounted (hclear : Clear st.table) (hnot : ¬ t.outcome.mounted = true) :
    Left free (step free st t) := by
  have htable : mount t st.table = st.table := by rw [mount, if_neg hnot]
  rw [step, htable]
  dsimp only
  split_ifs
  · exact hclear.left _
  · exact hclear.left _
  · exact hclear.left _
  · exact Clear.left (fun m hm => hclear m ((umount_sublist t st.table).subset hm)) _

theorem mount_own (hclear : Clear st.table) (hmounted : t.outcome.mounted = true) :
    ((mount t st.table).filter Mount.own).length = 1 ∧ ∀ m ∈ mount t st.table, m.own = true →
      m.device = t.dev := by
  have hfilter : st.table.filter Mount.own = [] := List.filter_eq_nil_iff.mpr fun m hm => by
    simp [hclear m hm]
  rw [mount, if_pos hmounted, List.filter_append, hfilter]
  refine ⟨rfl, fun m hm hown => ?_⟩
  rw [List.mem_append, List.mem_singleton] at hm
  rcases hm with hm | rfl
  · rw [hclear m hm] at hown
    exact absurd hown (by simp)
  · rfl

/-- What was mounted is left only for use. -/
theorem step_mounted (hclear : Clear st.table) (hst : st.used = none)
    (hmounted : t.outcome.mounted = true) : Left free (step free st t) ↔
    (grepCount t.dev (mount t st.table)).any (· != 1) = false ∧
      ((dfFree free t (mount t st.table)).any (needFreeSpace ≤ ·) = true ∨
        t.outcome.umounted = true) := by
  obtain ⟨hone, hown⟩ := mount_own hclear hmounted
  -- the mount stays in the table while nothing is used
  have hstays : ¬ Left free { st with table := mount t st.table } := fun h => by
    obtain ⟨m, hm⟩ := List.length_eq_one_iff.mp hone
    obtain ⟨hmem, hm'⟩ := List.mem_filter.mp (hm ▸ List.mem_singleton_self m)
    have := h.used m hmem hm'
    rw [hst] at this
    exact absurd this (by simp)
  have hused : ¬ st.used.isSome = true := by simp [hst]
  rw [step, if_neg hused]
  dsimp only
  cases hcount : (grepCount t.dev (mount t st.table)).any (· != 1) with
  | true => exact iff_of_false hstays fun h => absurd h.1 (by simp)
  | false =>
    rw [if_neg Bool.false_ne_true]
    by_cases hfree : (dfFree free t (mount t st.table)).any (needFreeSpace ≤ ·) = true
    · rw [if_pos hfree]
      refine iff_of_true ⟨hone.le, fun m hm hm' => by rw [hown m hm hm'], fun m hm hm' => ?_⟩
        ⟨rfl, .inl hfree⟩
      rw [hown m hm hm']
      exact dfFree_mounted hmounted st.table hfree
    · rw [if_neg hfree]
      by_cases humounted : t.outcome.umounted = true
      · rw [umount_mount hmounted humounted]
        exact iff_of_true (hclear.left _) ⟨rfl, .inr humounted⟩
      · have htable : umount t (mount t st.table) = mount t st.table := by rw [umount, if_neg humounted]
        rw [htable]
        exact iff_of_false hstays fun h => h.2.elim hfree humounted

/-- **One turn.** -/
theorem step_left (h : Left free st) : Left free (step free st t) ↔ Fits free st t := by
  unfold Fits
  cases hst : st.used with
  | some dev =>
    rw [step_used (by rw [hst]; rfl)]
    exact iff_of_true h (.inl rfl)
  | none =>
    have hclear := h.clear hst
    by_cases hmounted : t.outcome.mounted = true
    · rw [step_mounted hclear hst hmounted]
      simp [hmounted]
    · exact iff_of_true (step_unmounted hclear hmounted) (.inr (.inl (by simpa using hmounted)))

end Turn

/-! ### All turns -/

/-- **Nothing but the partition that is used is left after each turn, exactly when each turn fits.** -/
theorem left_run_iff (free : Text → Nat) {st : State} (h : Left free st) (ts : List Turn) :
    (∀ before after, ts = before ++ after → Left free (run (step free) st before)) ↔ Every (step free)
      (Fits free) st ts := by
  induction ts generalizing st with
  | nil =>
    refine iff_of_true (fun before after hsplit => ?_) trivial
    obtain ⟨rfl, -⟩ := List.append_eq_nil_iff.mp hsplit.symm
    exact h
  | cons t ts ih =>
    constructor
    · intro hall
      have hstep : Left free (step free st t) := hall [t] ts rfl
      refine ⟨(step_left h).mp hstep, (ih hstep).mp fun before after hsplit => ?_⟩
      exact hall (t :: before) after (by rw [hsplit, List.cons_append])
    · rintro ⟨hfits, hrest⟩ before after hsplit
      have hstep := (step_left h).mpr hfits
      rcases List.cons_eq_append_iff.mp hsplit with ⟨rfl, -⟩ | ⟨before, rfl, hmore⟩
      · exact h
      · exact (ih hstep).mpr hrest before after hmore

/-- When it ends. -/
theorem uselocal_left (glob : Glob) (free : Text → Nat) (fstab : Text) (outcome : Nat → Outcome)
    (table : List Mount) (hclear : ∀ m ∈ table, m.own = false)
    (h : Every (step free) (Fits free) ⟨table, none⟩ (turns glob fstab outcome)) :
    Left free (uselocal glob free fstab outcome table) :=
  (left_run_iff free (Clear.left hclear none) _).mpr h _ [] (List.append_nil _).symm

/-- **15uselocal leaves what it should, after each turn and when it ends, exactly when each turn
fits.** -/
theorem left_iff (glob : Glob) (free : Text → Nat) (fstab : Text) (outcome : Nat → Outcome)
    (table : List Mount) (hclear : ∀ m ∈ table, m.own = false) :
    (∀ before after, turns glob fstab outcome = before ++ after →
      Left free (run (step free) ⟨table, none⟩ before)) ↔ Every (step free) (Fits free) ⟨table, none⟩
      (turns glob fstab outcome) :=
  left_run_iff free (Clear.left hclear none) _

/-! ### Runs -/

def homeMount : Mount := ⟨lit "/dev/sda10", lit "/home", lit "ext3 rw 0 0", false⟩

/-- Every mount works, and every file system has space. -/
def works : Outcome := ⟨true, lit "rw 0 0", some 200000, true⟩

theorem left_iff_home :
    (∀ before after, turns (fun w => [w]) (lit "/dev/sda1 /mnt/sda1 ext3 defaults 0 2\n")
      (fun _ => works) = before ++ after → Left (fun _ => 200000)
      (run (step fun _ => 200000) ⟨[homeMount], none⟩ before)) ↔
        Every (step fun _ => 200000) (Fits fun _ => 200000) ⟨[homeMount], none⟩
          (turns (fun w => [w]) (lit "/dev/sda1 /mnt/sda1 ext3 defaults 0 2\n") fun _ => works) :=
  left_iff (fun w => [w]) (fun _ => 200000) _ (fun _ => works) [homeMount] (by simp [homeMount])

/-- The partition is mounted, found in another's line too, and left. -/
theorem skipped_left : ¬ ∀ before after,
    turns (fun w => [w]) (lit "/dev/sda1 /mnt/sda1 ext3 defaults 0 2\n")
    (fun _ => works) = before ++ after →
      Left (fun _ => 200000) (run (step fun _ => 200000) ⟨[homeMount], none⟩ before) := fun h => by
  have hleft := h (turns (fun w => [w]) (lit "/dev/sda1 /mnt/sda1 ext3 defaults 0 2\n") fun _ =>
    works) [] (List.append_nil _).symm
  have hstate : (run (step fun _ => 200000) ⟨[homeMount], none⟩
      (turns (fun w => [w]) (lit "/dev/sda1 /mnt/sda1 ext3 defaults 0 2\n") fun _ => works)).used =
        none ∧ ((run (step fun _ => 200000) ⟨[homeMount], none⟩
          (turns (fun w => [w]) (lit "/dev/sda1 /mnt/sda1 ext3 defaults 0 2\n") fun _ =>
            works)).table.any Mount.own) = true := by
    with_unfolding_all decide
  obtain ⟨m, hm, hown⟩ := List.any_eq_true.mp hstate.2
  have := hleft.used m hm hown
  rw [hstate.1] at this
  exact absurd this (by simp)

end Tcos.Scripts.Uselocal
