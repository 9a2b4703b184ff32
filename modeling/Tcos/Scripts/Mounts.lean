import Tcos.Grep.Dots
import Tcos.Systems.Run

/-! Mounting and unmounting with devicesctl.sh.

Whether a device is mounted is looked up in /proc/mounts by its name, with nothing that says where the
name ends. `requests_refine` is about all sequences of requests: every device is mounted at most once,
and the answers are those of a set of devices. `mount_true_iff` says exactly when the answer to `--mount`
is true. -/
namespace Tcos.Scripts.Mounts
open Shell (Text lit)
open Grep (selects isSimple Dotted)
open Systems (run)

/-! ### The system -/

/-- A device node in /dev; `basename` of it is the name. -/
@[ext] structure Device where
  name : Text
  some : name ≠ []
  plain : ∀ c ∈ name, c.isAlphanum = true ∨ c = '-' ∨ c = '_'

instance : DecidableEq Device := fun _ _ => decidable_of_iff' _ Device.ext_iff

def Device.node (d : Device) : Text := lit "/dev/" ++ d.name

def Device.point (d : Device) : Text := lit "/mnt/" ++ d.name

/-- The type, the options and two numbers of a line of /proc/mounts. -/
structure Options where
  text : Text
  plain : '/' ∉ text

/-- A line of /proc/mounts. -/
structure Mount where
  device : Text
  point : Text
  rest : Text

def Mount.line (m : Mount) : Text := m.device ++ ' ' :: (m.point ++ ' ' :: m.rest)

/-- What the commands find and do when a device is mounted. -/
structure Outcome where
  /-- The names of /proc/sys/dev/cdrom/info, from the first. -/
  cdroms : Text
  /-- What get_filesystem prints is ntfs-3g. -/
  ntfs : Bool
  /-- The mount command works. -/
  works : Bool
  /-- After how many seconds the second mount of ntfs-3g works, where the first did not: the device is
  held exclusively. -/
  later : Option Nat
  options : Options

inductive Request where
  | mount (d : Device) (o : Outcome)
  /-- The file system is in use or not. -/
  | umount (d : Device) (busy : Bool)
  | getstatus (d : Device)

/-! ### The script -/

def mountError : Text := lit "error: mounting device"

def umountError : Text := lit "error: umounting device"

def isCdrom (d : Device) (o : Outcome) : Bool := selects d.name o.cdroms

def mountOf (d : Device) (options : Options) : Mount := ⟨d.node, d.point, options.text⟩

/-- The mounts so many seconds after the first command of ntfs-3g. -/
def seen (t : List Mount) (d : Device) (o : Outcome) (seconds : Nat) : List Mount :=
  if o.works || o.later.any (· ≤ seconds) then t ++ [mountOf d o.options] else t

/-- How often the loop of ntfs-3g sleeps. -/
def count (t : List Mount) (d : Device) (o : Outcome) : Nat :=
  ((List.range 5).find? fun k => (seen t d o k).any fun m => selects ('^' :: d.node) m.line).getD 5

def mount (t : List Mount) (d : Device) (o : Outcome) : List Mount × Text :=
  if t.any fun m => selects d.point m.line then (t, d.point)
  else if o.ntfs && !isCdrom d o then
    (if o.works || o.later.isSome then t ++ [mountOf d o.options] else t,
      -- the exit status is that of the loop
      if count t d o ≠ 5 then d.point else mountError)
  else if o.works then (t ++ [mountOf d o.options], d.point)
  else (t, mountError)

/-- The last mount of the directory. -/
def umount (t : List Mount) (d : Device) (busy : Bool) : List Mount × Text :=
  if (t.any fun m => m.point == d.point) && !busy then
    ((t.reverse.eraseP fun m => m.point == d.point).reverse, d.point)
  else (t, umountError)

def getstatus (t : List Mount) (d : Device) : Text :=
  Nat.toDigits 10 (t.countP fun m => selects ('^' :: d.node ++ [' ']) m.line)

def answer (t : List Mount) : Request → List Mount × Text
  | .mount d o => mount t d o
  | .umount d busy => umount t d busy
  | .getstatus d => (t, getstatus t d)

/-- The table and all answers, after a request. -/
def step (s : List Mount × List Text) (r : Request) : List Mount × List Text :=
  ((answer s.1 r).1, s.2 ++ [(answer s.1 r).2])

/-! ### The set of devices -/

/-- A device is mounted whose name begins with this one. -/
def Covers (s : List (Device × Options)) (d : Device) : Prop := ∃ x ∈ s, d.name <+: x.1.name

instance (s : List (Device × Options)) (d : Device) : Decidable (Covers s d) :=
  inferInstanceAs (Decidable (∃ x ∈ s, d.name <+: x.1.name))

/-- What is mounted is there after so many seconds. -/
def Outcome.within (o : Outcome) (seconds : Nat) : Bool := o.works || o.later.any (· < seconds)

section Devices
variable (base : List Mount)

/-- The lines of the table that begin with the node, whatever comes after. -/
def begun (d : Device) : Bool := base.any fun m => decide (d.node <+: m.line)

def Spec.answer (s : List (Device × Options)) : Request → List (Device × Options) × Text
  | .mount d o =>
    if Covers s d then (s, d.point)
    else if o.ntfs && !isCdrom d o then
      (if o.works || o.later.isSome then s ++ [(d, o.options)] else s,
        if begun base d || o.within 5 then d.point else mountError)
    else if o.works then (s ++ [(d, o.options)], d.point)
    else (s, mountError)
  | .umount d busy =>
    if d ∈ s.map Prod.fst ∧ busy = false then (s.eraseP fun x => x.1 = d, d.point) else (s, umountError)
  | .getstatus d => (s, Nat.toDigits 10
      ((base.countP fun m => decide (d.node ++ [' '] <+: m.line)) + if d ∈ s.map Prod.fst then 1 else 0))

def Spec.step (s : List (Device × Options) × List Text) (r : Request) : List (Device × Options) × List Text :=
  ((Spec.answer base s.1 r).1, s.2 ++ [(Spec.answer base s.1 r).2])

/-- Nothing is mounted under /mnt, and no line speaks of it. -/
def Clear : Prop := ∀ m ∈ base, ¬ lit "/mnt/" <:+: m.line

/-- The table is what was mounted before, and each device once. -/
structure Refines (t : List Mount) (s : List (Device × Options)) : Prop where
  table : t = base ++ s.map fun x => mountOf x.1 x.2
  once : (s.map Prod.fst).Nodup

end Devices

/-! ### What grep finds -/

section Names
variable (d y : Device) (options : Options)

theorem name_char {c : Char} (h : c.isAlphanum = true ∨ c = '-' ∨ c = '_') :
    isSimple c = true ∧ c ≠ '/' ∧ c ≠ ' ' ∧ c ≠ '.' ∧ c ≠ '^' ∧ c ≠ '$' := by
  have hother : ∀ d ∈ ['/', ' ', '.', '^', '$', '\\', '[', '*', '\n'], c ≠ d := by
    intro d hd
    rintro rfl
    fin_cases hd <;> exact absurd h (by decide)
  simp only [List.forall_mem_cons] at hother
  obtain ⟨h1, h2, h3, h4, h5, h6, h7, h8, h9, -⟩ := hother
  exact ⟨by simp [isSimple, h6, h7, h8, h9], h1, h2, h3, h4, h5⟩

theorem Device.no_slash : '/' ∉ d.name := fun h => (name_char (d.plain _ h)).2.1 rfl

theorem Device.no_blank : ' ' ∉ d.name := fun h => (name_char (d.plain _ h)).2.2.1 rfl

/-- A text that begins with a slash starts at one. -/
theorem infix_slash {t a s : Text} (ha : '/' ∉ a) : '/' :: t <:+: a ++ s ↔ '/' :: t <:+: s := by
  induction a with
  | nil => rfl
  | cons c a ih =>
    obtain ⟨hc, ha⟩ := not_or.mp (List.mem_cons.not.mp ha)
    rw [List.cons_append, List.infix_cons_iff, ih ha, List.cons_prefix_cons]
    exact or_iff_right fun h => hc h.1

/-- What has no blank ends before it. -/
theorem prefix_blank {x n r : Text} (hx : ' ' ∉ x) : x <+: n ++ ' ' :: r ↔ x <+: n := by
  refine ⟨fun h => ?_, fun h => h.trans (List.prefix_append ..)⟩
  rcases List.prefix_or_prefix_of_prefix h (List.prefix_append ..) with hp | ⟨u, rfl⟩
  · exact hp
  · have hrest := (List.prefix_append_right_inj n).mp h
    cases u with
    | nil => simp
    | cons c u =>
      obtain ⟨rfl, -⟩ := List.cons_prefix_cons.mp hrest
      exact absurd (by simp) hx

theorem prefix_field {x n r : Text} (hx : ' ' ∉ x) (hn : ' ' ∉ n) :
    x ++ [' '] <+: n ++ ' ' :: r ↔ x = n := by
  refine ⟨fun h => ?_, ?_⟩
  · obtain ⟨u, rfl⟩ := (prefix_blank hx).mp ((List.prefix_append ..).trans h)
    rw [List.append_assoc] at h
    have hrest := (List.prefix_append_right_inj x).mp h
    cases u with
    | nil => simp
    | cons c u =>
      obtain ⟨rfl, -⟩ := List.cons_prefix_cons.mp hrest
      exact absurd (by simp) hn
  · rintro rfl
    exact ⟨r, by simp⟩

theorem dev_mnt : lit "/dev/" = ['/', 'd', 'e', 'v', '/'] ∧ lit "/mnt/" = ['/', 'm', 'n', 't', '/'] := by
  with_unfolding_all decide

/-- `mnt/` and a name begin no name. -/
theorem mnt_no_name (r : Text) : ¬ ['m', 'n', 't', '/'] ++ d.name <+: y.name ++ ' ' :: r := by
  intro h
  have hname := (prefix_blank (by simp [d.no_blank])).mp h
  exact y.no_slash (hname.subset (by simp))

/-- **The directory of a device is found in the line of another one that begins with its name.** -/
theorem point_line : d.point <:+: (mountOf y options).line ↔ d.name <+: y.name := by
  obtain ⟨hdev, hmnt⟩ := dev_mnt
  have hpoint : d.point = '/' :: (['m', 'n', 't', '/'] ++ d.name) := by simp [Device.point, hmnt]
  have hline : (mountOf y options).line = '/' :: (['d', 'e', 'v'] ++ '/' :: (y.name ++ ' ' ::
      (y.point ++ ' ' :: options.text))) := by
    simp [Mount.line, mountOf, Device.node, hdev]
  -- the four slashes of the line
  have hfirst : ¬ d.point <+: (mountOf y options).line := by
    simp [hpoint, hline]
  have hlast : ¬ d.point <:+: '/' :: (y.name ++ ' ' :: options.text) := by
    rw [hpoint, List.infix_cons_iff, List.cons_prefix_cons]
    rintro (⟨-, h⟩ | h)
    · exact mnt_no_name d y _ h
    · have hslash := h.subset (List.mem_cons_self ..)
      simp [y.no_slash, options.plain] at hslash
  have hthird : d.point <:+: y.point ++ ' ' :: options.text ↔ d.name <+: y.name := by
    have hyline : y.point ++ ' ' :: options.text = '/' :: (['m', 'n', 't'] ++
        '/' :: (y.name ++ ' ' :: options.text)) := by simp [Device.point, hmnt]
    have hbegin : ['m', 'n', 't', '/'] ++ d.name <+: ['m', 'n', 't'] ++ '/' :: (y.name ++ ' ' :: options.text) ↔
        d.name <+: y.name := by
      simpa using prefix_blank d.no_blank
    rw [hpoint] at hlast ⊢
    rw [hyline, List.infix_cons_iff, List.cons_prefix_cons, hbegin, infix_slash (by decide)]
    exact (or_iff_left hlast).trans (and_iff_right rfl)
  rw [hline] at hfirst ⊢
  rw [List.infix_cons_iff, or_iff_right hfirst, ← hthird]
  have hsecond := mnt_no_name d y (y.point ++ ' ' :: options.text)
  have hskip : d.point <:+: y.name ++ ' ' :: (y.point ++ ' ' :: options.text) ↔
      d.point <:+: y.point ++ ' ' :: options.text := by
    rw [hpoint, List.append_cons, infix_slash (by simp [y.no_slash])]
  rw [← hskip, hpoint, infix_slash (by decide), List.infix_cons_iff, List.cons_prefix_cons]
  exact or_iff_right fun h => hsecond h.2

theorem node_line : d.node <+: (mountOf y options).line ↔ d.name <+: y.name := by
  rw [Mount.line, mountOf, Device.node, Device.node, List.append_assoc, List.prefix_append_right_inj]
  exact prefix_blank d.no_blank

theorem node_field : d.node ++ [' '] <+: (mountOf y options).line ↔ d = y := by
  rw [Mount.line, mountOf, Device.node, Device.node, List.append_assoc, List.append_assoc,
    List.prefix_append_right_inj, prefix_field d.no_blank y.no_blank, Device.mk.injEq]

/-- The names are no patterns. -/
theorem selects_point (line : Text) : selects d.point line = decide (d.point <:+: line) := by
  obtain ⟨-, hmnt⟩ := dev_mnt
  have hlast : d.point.getLast? = d.name.getLast? := by
    rw [Device.point, List.getLast?_append_of_ne_nil _ d.some]
  have hdotted : Dotted d.point := by
    refine ⟨fun c hc => ?_, by simp [Device.point, hmnt], fun h => ?_⟩
    · rcases List.mem_append.mp hc with hc | hc
      · rw [hmnt] at hc
        fin_cases hc <;> rfl
      · exact (name_char (d.plain c hc)).1
    · rw [hlast] at h
      exact (name_char (d.plain _ (List.mem_of_getLast? h))).2.2.2.2.2 rfl
  refine Grep.selects_contained hdotted (fun h => ?_) line
  rcases List.mem_append.mp h with h | h
  · rw [hmnt] at h
    exact absurd h (by decide)
  · exact (name_char (d.plain _ h)).2.2.2.1 rfl

theorem node_ordinary : ∀ c ∈ d.node ++ [' '], Grep.isOrdinary c = true := by
  intro c hc
  rw [Device.node, dev_mnt.1] at hc
  have hname : c ∈ d.name → Grep.isOrdinary c = true := by
    intro h
    obtain ⟨hsimple, -, -, hdot, hcaret, hdollar⟩ := name_char (d.plain c h)
    simp only [isSimple, Bool.and_eq_true, bne_iff_ne] at hsimple
    simp [Grep.isOrdinary, hsimple, hdot, hcaret, hdollar]
  simp only [List.mem_append, List.mem_singleton] at hc
  rcases hc with (hc | hc) | rfl
  · fin_cases hc <;> rfl
  · exact hname hc
  · rfl

theorem selects_node (line : Text) : selects ('^' :: d.node) line = decide (d.node <+: line) :=
  Grep.selects_ordinary (fun c hc => node_ordinary d c (List.mem_append_left _ hc)) line

theorem selects_field (line : Text) : selects ('^' :: d.node ++ [' ']) line =
    decide (d.node ++ [' '] <+: line) :=
  Grep.selects_ordinary (node_ordinary d) line

end Names

/-! ### One request -/

section Step
variable {base t : List Mount} {s : List (Device × Options)}

theorem any_point (hbase : Clear base) (h : Refines base t s) (d : Device) :
    (t.any fun m => selects d.point m.line) = decide (Covers s d) := by
  have hclear : ∀ m ∈ base, ¬ d.point <:+: m.line := fun m hm hin =>
    hbase m hm ((List.prefix_append ..).isInfix.trans hin)
  rw [h.table, Bool.eq_iff_iff, List.any_eq_true, decide_eq_true_iff, Covers]
  simp only [selects_point, decide_eq_true_iff, List.mem_append, List.mem_map]
  constructor
  · rintro ⟨m, hm | ⟨x, hx, rfl⟩, hin⟩
    · exact absurd hin (hclear m hm)
    · exact ⟨x, hx, (point_line d x.1 x.2).mp hin⟩
  · rintro ⟨x, hx, hpre⟩
    exact ⟨_, .inr ⟨x, hx, rfl⟩, (point_line d x.1 x.2).mpr hpre⟩

theorem any_node (h : Refines base t s) (d : Device) :
    (t.any fun m => selects ('^' :: d.node) m.line) = (begun base d || decide (Covers s d)) := by
  rw [h.table, List.any_append, begun, Bool.eq_iff_iff, Bool.or_eq_true, Bool.or_eq_true,
    decide_eq_true_iff, Covers]
  simp only [selects_node, List.any_map, decide_eq_true_iff, List.any_eq_true, Function.comp_def, node_line]

theorem countP_field (h : Refines base t s) (d : Device) :
    (t.countP fun m => selects ('^' :: d.node ++ [' ']) m.line) =
      (base.countP fun m => decide (d.node ++ [' '] <+: m.line)) + if d ∈ s.map Prod.fst then 1 else 0 := by
  have hlines : (s.map fun x => mountOf x.1 x.2).countP (fun m => decide (d.node ++ [' '] <+: m.line)) =
      (s.map Prod.fst).count d := by
    rw [List.countP_map, List.count, List.countP_map]
    refine List.countP_congr fun x _ => ?_
    rw [Function.comp_apply, Function.comp_apply, decide_eq_true_iff, node_field, beq_iff_eq, eq_comm]
  simp only [h.table, List.countP_append, selects_field, hlines, h.once.count]

/-- What comes is there for good. -/
theorem refines_mount (h : Refines base t s) {d : Device} (hd : ¬ Covers s d) (options : Options) :
    Refines base (t ++ [mountOf d options]) (s ++ [(d, options)]) := by
  refine ⟨by simp [h.table], ?_⟩
  rw [List.map_append, List.map_singleton, List.nodup_append]
  refine ⟨h.once, by simp, fun y hy z hz => ?_⟩
  rintro rfl
  obtain ⟨x, hx, rfl⟩ := List.mem_map.mp hy
  have hsame : x.1 = d := by simpa using hz
  exact hd ⟨x, hx, by rw [hsame]⟩

/-- The loop ends in time where the device is seen. -/
theorem count_ne (h : Refines base t s) {d : Device} (hd : ¬ Covers s d) (o : Outcome) :
    count t d o ≠ 5 ↔ (begun base d || o.within 5) = true := by
  have hseen : ∀ k, ((seen t d o k).any fun m => selects ('^' :: d.node) m.line) =
      (begun base d || (o.works || o.later.any (· ≤ k))) := by
    intro k
    have hold := any_node h d
    have hself : d.node <+: (mountOf d o.options).line := (node_line d d o.options).mpr List.prefix_rfl
    rw [decide_eq_false hd, Bool.or_false] at hold
    unfold seen
    split
    case isTrue hcomes =>
      rw [List.any_append, hold, hcomes]
      simp [selects_node, hself]
    case isFalse hnot =>
      rw [hold, Bool.eq_false_iff.mpr hnot, Bool.or_false]
  simp only [count, hseen]
  cases hfind : (List.range 5).find? fun k => begun base d || (o.works || o.later.any (· ≤ k)) with
  | some k =>
    have hlt := List.mem_range.mp (List.mem_of_find?_eq_some hfind)
    have hholds := List.find?_some hfind
    refine iff_of_true (by rw [Option.getD_some]; omega) ?_
    simp only [Bool.or_eq_true, Outcome.within] at hholds ⊢
    refine hholds.imp_right (Or.imp_right fun hlater => ?_)
    obtain ⟨j, hj, hle⟩ := (Option.any_eq_true _ _).mp hlater
    simp only [hj, decide_eq_true_iff, Option.any_some] at hle ⊢
    omega
  | none =>
    have hnot := List.find?_eq_none.mp hfind
    refine iff_of_false (by simp) fun hholds => hnot 4 (List.mem_range.mpr (by decide)) ?_
    simp only [Bool.or_eq_true, Outcome.within] at hholds ⊢
    refine hholds.imp_right (Or.imp_right fun hlater => ?_)
    obtain ⟨j, hj, hlt⟩ := (Option.any_eq_true _ _).mp hlater
    simp only [hj, decide_eq_true_iff, Option.any_some] at hlt ⊢
    omega

theorem mount_refines (hbase : Clear base) (h : Refines base t s) (d : Device) (o : Outcome) :
    Refines base (mount t d o).1 (Spec.answer base s (.mount d o)).1 ∧
      (mount t d o).2 = (Spec.answer base s (.mount d o)).2 := by
  have hpoint := any_point hbase h d
  by_cases hd : Covers s d
  · rw [decide_eq_true hd] at hpoint
    simp only [mount, hpoint, if_true, Spec.answer, hd]
    exact ⟨h, trivial⟩
  · rw [decide_eq_false hd] at hpoint
    have hcount := count_ne h hd o
    simp only [mount, hpoint, Bool.false_eq_true, if_false, Spec.answer, hd, hcount]
    split_ifs <;> first | exact ⟨h, rfl⟩ | exact ⟨refines_mount h hd o.options, rfl⟩

/-- What there is once at most is the first and the last. -/
theorem eraseP_once {α : Type} {p : α → Bool} {l : List α} (h : l.countP p ≤ 1) :
    l.eraseP p = l.filter (!p ·) := by
  induction l with
  | nil => rfl
  | cons a l ih =>
    cases ha : p a with
    | true =>
      rw [List.countP_cons_of_pos ha] at h
      have hnone := List.countP_eq_zero.mp (by omega : l.countP p = 0)
      rw [List.eraseP_cons_of_pos ha, List.filter_cons_of_neg (by simp [ha])]
      exact (List.filter_eq_self.mpr fun x hx => by simpa using hnone x hx).symm
    | false =>
      rw [List.countP_cons_of_neg (by simp [ha])] at h
      rw [List.eraseP_cons_of_neg (by simp [ha]), List.filter_cons_of_pos (by simp [ha]), ih h]

theorem point_inj {d y : Device} : y.point = d.point ↔ y = d := by
  rw [Device.point, Device.point, List.append_cancel_left_eq, Device.mk.injEq]

theorem base_point (hbase : Clear base) (d : Device) : ∀ m ∈ base, (m.point == d.point) = false := by
  intro m hm
  rw [beq_eq_false_iff_ne]
  intro heq
  refine hbase m hm ⟨m.device ++ [' '], d.name ++ ' ' :: m.rest, ?_⟩
  simp [Mount.line, heq, Device.point]

theorem umount_refines (hbase : Clear base) (h : Refines base t s) (d : Device) (busy : Bool) :
    Refines base (umount t d busy).1 (Spec.answer base s (.umount d busy)).1 ∧
      (umount t d busy).2 = (Spec.answer base s (.umount d busy)).2 := by
  have hnone := base_point hbase d
  have hmap : ∀ x : Device × Options, ((mountOf x.1 x.2).point == d.point) = decide (x.1 = d) := by
    intro x
    rw [mountOf, Bool.eq_iff_iff, beq_iff_eq, decide_eq_true_iff, point_inj]
  have hany : (t.any fun m => m.point == d.point) = decide (d ∈ s.map Prod.fst) := by
    rw [h.table, List.any_append, List.any_eq_false.mpr fun m hm => by simp [hnone m hm], Bool.false_or,
      List.any_map, Bool.eq_iff_iff, List.any_eq_true, decide_eq_true_iff, List.mem_map]
    simp only [Function.comp_apply, hmap, decide_eq_true_iff]
  have hcount : (s.countP fun x => decide (x.1 = d)) ≤ 1 := by
    have hle := List.nodup_iff_count_le_one.mp h.once d
    rw [List.count, List.countP_map] at hle
    exact (List.countP_congr fun x _ => by simp).trans_le hle
  have hcount' : (t.reverse.countP fun m => m.point == d.point) ≤ 1 := by
    rw [List.countP_reverse, h.table, List.countP_append, List.countP_eq_zero.mpr fun m hm => by
      simp [hnone m hm], List.countP_map, Nat.zero_add]
    exact (List.countP_congr fun x _ => by rw [Function.comp_apply, hmap]).trans_le hcount
  have hkept : (t.reverse.eraseP fun m => m.point == d.point).reverse =
      base ++ (s.eraseP fun x => x.1 = d).map fun x => mountOf x.1 x.2 := by
    rw [eraseP_once hcount', eraseP_once hcount, List.filter_reverse, List.reverse_reverse, h.table,
      List.filter_append, List.filter_eq_self.mpr fun m hm => by simp [hnone m hm], List.filter_map]
    simp only [Function.comp_def, hmap]
  simp only [umount, Spec.answer, hany]
  by_cases hd : d ∈ s.map Prod.fst ∧ busy = false
  · rw [if_pos hd, if_pos (by simpa using hd)]
    exact ⟨⟨hkept, (List.eraseP_sublist.map Prod.fst).nodup h.once⟩, rfl⟩
  · rw [if_neg hd, if_neg (by simpa using hd)]
    exact ⟨h, rfl⟩

/-- **One request.** -/
theorem answer_refines (hbase : Clear base) (h : Refines base t s) (r : Request) :
    Refines base (answer t r).1 (Spec.answer base s r).1 ∧ (answer t r).2 = (Spec.answer base s r).2 := by
  cases r with
  | mount d o => exact mount_refines hbase h d o
  | umount d busy => exact umount_refines hbase h d busy
  | getstatus d => exact ⟨h, congrArg (Nat.toDigits 10) (countP_field h d)⟩

end Step

/-! ### All requests -/

section Runs
variable {base : List Mount}

theorem run_refines (hbase : Clear base) {t : List Mount} {s : List (Device × Options)} (h : Refines base t s)
    (said : List Text) (rs : List Request) :
    Refines base (run step (t, said) rs).1 (run (Spec.step base) (s, said) rs).1 ∧
      (run step (t, said) rs).2 = (run (Spec.step base) (s, said) rs).2 := by
  induction rs generalizing t s said with
  | nil => exact ⟨h, rfl⟩
  | cons r rs ih =>
    obtain ⟨hstep, hsaid⟩ := answer_refines hbase h r
    have hfirst : step (t, said) r = ((answer t r).1, said ++ [(Spec.answer base s r).2]) := by
      rw [step, hsaid]
    simp only [run, List.foldl_cons, hfirst]
    exact ih hstep _

theorem refines_nil : Refines base base [] := ⟨by simp, by simp⟩

/-- **The table and the answers after any requests.** -/
theorem requests_refine (hbase : Clear base) (rs : List Request) :
    Refines base (run step (base, []) rs).1 (run (Spec.step base) ([], []) rs).1 ∧
      (run step (base, []) rs).2 = (run (Spec.step base) ([], []) rs).2 :=
  run_refines hbase refines_nil [] rs

/-- The directory of the device is in the table. -/
def Mounted (t : List Mount) (d : Device) : Prop := ∃ m ∈ t, m.point = d.point

theorem mounted_iff (hbase : Clear base) {t : List Mount} {s : List (Device × Options)}
    (h : Refines base t s) (d : Device) : Mounted t d ↔ d ∈ s.map Prod.fst := by
  rw [Mounted, h.table, List.mem_map]
  constructor
  · rintro ⟨m, hm, hpoint⟩
    rcases List.mem_append.mp hm with hm | hm
    · exact absurd (base_point hbase d m hm) (by simp [hpoint])
    · obtain ⟨x, hx, rfl⟩ := List.mem_map.mp hm
      exact ⟨x, hx, point_inj.mp hpoint⟩
  · rintro ⟨x, hx, rfl⟩
    exact ⟨_, List.mem_append_right _ (List.mem_map_of_mem hx), rfl⟩

theorem point_no_error (d : Device) : d.point ≠ mountError := by
  have herror : mountError.head? = some 'e' := by with_unfolding_all decide
  intro h
  rw [← h, Device.point, dev_mnt.2] at herror
  exact absurd herror (by simp)

/-- **The answer to `--mount` says what is mounted then, exactly if the device was mounted already, or
no other name begins with its name and, for ntfs-3g, the loop sees the device where it comes.** -/
theorem mount_true_iff (hbase : Clear base) (rs : List Request) (d : Device) (o : Outcome) :
    ((mount (run step (base, []) rs).1 d o).2 = d.point ↔ Mounted (mount (run step (base, []) rs).1 d o).1 d) ↔
      (Mounted (run step (base, []) rs).1 d ∨
        (∀ m ∈ (run step (base, []) rs).1, ¬ d.point <:+: m.line) ∧
          ((o.ntfs && !isCdrom d o) = true →
            (begun base d || o.within 5) = (o.works || o.later.isSome))) := by
  have href := (run_refines hbase refines_nil [] rs).1
  generalize (run step (base, []) rs).1 = t at href
  generalize (run (Spec.step base) ([], []) rs).1 = s at href
  obtain ⟨hafter, hsaid⟩ := mount_refines hbase href d o
  have herror := (point_no_error d).symm
  have hcovers : (∀ m ∈ t, ¬ d.point <:+: m.line) ↔ ¬ Covers s d := by
    have hpoint := any_point hbase href d
    rw [Bool.eq_iff_iff, List.any_eq_true, decide_eq_true_iff] at hpoint
    simp only [← hpoint, selects_point, decide_eq_true_iff, not_exists, not_and]
  have hself : d ∈ s.map Prod.fst → Covers s d := by
    intro hd
    obtain ⟨x, hx, rfl⟩ := List.mem_map.mp hd
    exact ⟨x, hx, List.prefix_rfl⟩
  rw [hsaid, mounted_iff hbase hafter, mounted_iff hbase href, hcovers]
  by_cases hd : Covers s d
  · simp [Spec.answer, hd]
  · have hout : d ∉ s.map Prod.fst := mt hself hd
    simp only [Spec.answer, hd, if_false, hout, false_or, not_false_eq_true, true_and]
    cases hntfs : o.ntfs && !isCdrom d o with
    | true =>
      cases hseen : begun base d || o.within 5 <;> cases hcomes : o.works || o.later.isSome <;>
        simp [hout, herror]
    | false => cases o.works <;> simp [hout, herror]

end Runs

/-! ### Two disks -/

def sda1 : Device := ⟨lit "sda1", by with_unfolding_all decide, Shell.each (by with_unfolding_all decide)⟩

def sda10 : Device := ⟨lit "sda10", by with_unfolding_all decide, Shell.each (by with_unfolding_all decide)⟩

def vfat : Outcome := ⟨[], false, true, none, ⟨lit "vfat rw 0 0", by with_unfolding_all decide⟩⟩

def rootOnly : List Mount := [⟨lit "/dev/root", lit "/", lit "squashfs ro 0 0"⟩]

theorem rootOnly_clear : Clear rootOnly := by
  intro m hm
  rw [rootOnly, List.mem_singleton] at hm
  rw [hm]
  with_unfolding_all decide

theorem requests_refine_disks : Refines rootOnly
    (run step (rootOnly, []) [.mount sda10 vfat, .mount sda1 vfat, .getstatus sda1, .umount sda1 false]).1
    (run (Spec.step rootOnly) ([], [])
      [.mount sda10 vfat, .mount sda1 vfat, .getstatus sda1, .umount sda1 false]).1 ∧
    (run step (rootOnly, []) [.mount sda10 vfat, .mount sda1 vfat, .getstatus sda1, .umount sda1 false]).2 =
      (run (Spec.step rootOnly) ([], [])
        [.mount sda10 vfat, .mount sda1 vfat, .getstatus sda1, .umount sda1 false]).2 :=
  requests_refine rootOnly_clear _

/-- With sda10 mounted, sda1 is said to be. -/
theorem mount_true_disks : ((mount (run step (rootOnly, []) [.mount sda10 vfat]).1 sda1 vfat).2 = sda1.point ↔
    Mounted (mount (run step (rootOnly, []) [.mount sda10 vfat]).1 sda1 vfat).1 sda1) ↔
      (Mounted (run step (rootOnly, []) [.mount sda10 vfat]).1 sda1 ∨
        (∀ m ∈ (run step (rootOnly, []) [.mount sda10 vfat]).1, ¬ sda1.point <:+: m.line) ∧
          ((vfat.ntfs && !isCdrom sda1 vfat) = true →
            (begun rootOnly sda1 || vfat.within 5) = (vfat.works || vfat.later.isSome))) :=
  mount_true_iff rootOnly_clear _ _ _

end Tcos.Scripts.Mounts
