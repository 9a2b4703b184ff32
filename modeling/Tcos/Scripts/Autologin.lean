import Tcos.Grep.Dots
import Tcos.Libc.Numbers
import Tcos.Shell.Digits
import Tcos.Shell.Inert

/-! tcos-gdm-autologin: `restore_home`.

The mounts below a home directory are the lines of the mount table that grep finds the path in, and
each point is put in a command line as the table writes it. `restore_exact_iff` says for which
tables these are the calls that are due before the directory is removed. -/
namespace Tcos.Scripts.Autologin
open Shell (Text lit lines unlines fields command isIfs isDull isLiteral)
open Libc (tokens decimal)
open Grep (selects compile)

/-! ### The mount table -/

/-- Bytes of a name that the table has in octal. -/
def isOctal (c : Char) : Bool := c == ' ' || c == '\t' || c == '\n' || c == '\\'

def octal (c : Char) : Text :=
  if c = ' ' then ['\\', '0', '4', '0']
  else if c = '\t' then ['\\', '0', '1', '1']
  else if c = '\n' then ['\\', '0', '1', '2']
  else if c = '\\' then ['\\', '1', '3', '4']
  else [c]

/-- A name as the table writes it. -/
def escape (name : Text) : Text := name.flatMap octal

/-- A line of /proc/mounts. -/
structure Mount where
  /-- As the table writes it. -/
  device : Text
  point : Text
  /-- The type, the options and two numbers. -/
  rest : Text
  some : device ≠ []
  solid : ∀ c ∈ device, isIfs c = false
  root : point.head? = Option.some '/'
  inLine : '\n' ∉ rest

def Mount.line (e : Mount) : Text := e.device ++ ' ' :: (escape e.point ++ ' ' :: e.rest)

def procMounts (table : List Mount) : Text := unlines (table.map Mount.line)

/-- The point is the directory or lies below it. -/
def Below (home point : Text) : Prop := tokens (· == '/') home <+: tokens (· == '/') point

instance (home point : Text) : Decidable (Below home point) :=
  inferInstanceAs (Decidable (tokens (· == '/') home <+: tokens (· == '/') point))

/-! ### The script -/

/-- A home directory that a shell leaves as it is between double quotes. -/
structure Home where
  path : Text
  root : path.head? = some '/'
  quotable : ∀ c ∈ path, isDull c = true

def countMounts (home : Text) : Text := lit "grep -c \"" ++ home ++ lit "\" /proc/mounts"

def listMounts (home : Text) : Text :=
  lit "grep \"" ++ home ++ lit "\" /proc/mounts | awk '\x7bprint $2\x7d'"

/-- The lines that `read_exe_output` keeps. -/
def readExeOutput (output : Text) : List Text := (lines output).filter (· ≠ [])

/-- Python's `int` of a text; `none` is an exception. -/
def int (t : Text) : Option Int :=
  let body := ((t.dropWhile Libc.isSpace).reverse.dropWhile Libc.isSpace).reverse
  let negative := body.head? == some '-'
  let digits := if negative || body.head? == some '+' then body.tail else body
  let value := (Nat.ofDigitChars 10 digits 0 : Int)
  if digits = [] ∨ digits.any (fun c => !c.isDigit) then none
    else some (if negative then -value else value)

/-- `{print $2}`. -/
def second (line : Text) : Text := ((fields line)[1]?).getD []

structure Machine where
  table : List Mount
  /-- What a command prints, its errors included. -/
  prints : Text → Text
  counts : ∀ home : Home, (compile home.path).isSome → prints (countMounts home.path) =
    decimal ((lines (procMounts table)).filter (selects home.path)).length ++ ['\n']
  lists : ∀ home : Home, (compile home.path).isSome → prints (listMounts home.path) =
    unlines (((lines (procMounts table)).filter (selects home.path)).map second)
  /-- What is no pattern is not counted: there is a message instead. -/
  fails : ∀ home : Home, compile home.path = none →
    (readExeOutput (prints (countMounts home.path))).head?.bind int = none

inductive Action where
  | system (cmd : Text)
  | mkdir (path : Text)
  deriving DecidableEq, Repr

def umount (dev : Text) : Action := .system (lit "fusermount -u " ++ dev)

def remove (home : Text) : Action := .system (lit "rm -rf " ++ home ++ lit " 2>/dev/null")

/-- What is done after the mounts are gone. -/
def unpack (home username : Text) : List Action :=
  [.mkdir home, .system (lit "tar -zxf /root/skel.tar.gz -C " ++ home ++ lit " 2>/dev/null"),
    .system (lit "chown -R " ++ username ++ ':' :: username ++ ' ' :: home ++ lit " 2>/dev/null")]

/-- `template` says that the file `HOME_TEMPLATE` is there. -/
def restoreHome (m : Machine) (noaction template : Bool) (home username : Text) : List Action :=
  if noaction then []
  else if !template then []
  else
    match (readExeOutput (m.prints (countMounts home))).head?.bind int with
    | none => []
    | some n =>
      (if n > 0 then (readExeOutput (m.prints (listMounts home))).map umount else []) ++
        remove home :: unpack home username

/-! ### What is asked of it -/

/-- The command for a mount. -/
def Mount.umount (e : Mount) : Text := lit "fusermount -u " ++ escape e.point

def Action.isUmount : Action → Bool
  | .system cmd => (lit "fusermount").isPrefixOf cmd
  | .mkdir _ => false

/-- The calls of a run. -/
structure Exact (m : Machine) (home : Home) (username : Text) : Prop where
  /-- One for each mount of the home directory, and no other. -/
  calls : (restoreHome m false true home.path username).filter Action.isUmount =
    (m.table.filter fun e => Below home.path e.point).map fun e => .system e.umount
  /-- All of them before the directory is removed. -/
  order : ∀ e ∈ m.table, Below home.path e.point → .system e.umount ∈
    (restoreHome m false true home.path username).takeWhile (· ≠ remove home.path)
  /-- The shell reads them as calls for these points. -/
  read : ∀ e ∈ m.table, Below home.path e.point →
    command e.umount = some { args := [lit "fusermount", lit "-u", e.point] }

/-- Taken as a pattern, the path matches the line of each mount below the directory and of no
other, and the shell takes their points for themselves. -/
def Apart (home : Text) (table : List Mount) : Prop :=
  ∀ e ∈ table, if Below home e.point then selects home e.line = true ∧ isLiteral e.point = true
    else selects home e.line = false

instance (home : Text) (table : List Mount) : Decidable (Apart home table) :=
  inferInstanceAs (Decidable (∀ e ∈ table, if Below home e.point then
    selects home e.line = true ∧ isLiteral e.point = true else selects home e.line = false))

/-! ### Names in octal -/

theorem octal_plain {c : Char} (h : isOctal c = false) : octal c = [c] := by
  simp only [isOctal, Bool.or_eq_false_iff, beq_eq_false_iff_ne] at h
  simp [octal, h]

theorem octal_ne_nil (c : Char) : octal c ≠ [] := by
  unfold octal
  split_ifs <;> simp

theorem octal_solid (c : Char) : ∀ d ∈ octal c, isIfs d = false := by
  unfold octal
  split_ifs <;> simp_all [isIfs]

theorem octal_append {c d : Char} {s t : Text} (h : octal c ++ s = octal d ++ t) : c = d ∧ s = t := by
  unfold octal at h
  split_ifs at h <;> simp_all
  all_goals exact absurd h.1.symm ‹_›

theorem escape_cons (c : Char) (name : Text) : escape (c :: name) = octal c ++ escape name := rfl

theorem escape_solid (name : Text) : ∀ c ∈ escape name, isIfs c = false := by
  intro c hc
  obtain ⟨d, -, hd⟩ := List.mem_flatMap.mp hc
  exact octal_solid d c hd

/-- **The table tells the points apart.** -/
theorem escape_injective : Function.Injective escape := by
  intro s t h
  induction s generalizing t with
  | nil =>
    cases t with
    | nil => rfl
    | cons d t => simp [escape, octal_ne_nil] at h
  | cons c s ih =>
    cases t with
    | nil => simp [escape, octal_ne_nil] at h
    | cons d t =>
      obtain ⟨rfl, hrest⟩ := octal_append h
      rw [ih hrest]

theorem octal_digits (c : Char) :
    (octal c).countP Char.isDigit = (if c.isDigit then 1 else 0) + 3 * if isOctal c then 1 else 0 := by
  unfold octal
  split_ifs with h1 h2 h3 h4 <;> simp_all [isOctal]

/-- An octal number has three digits. -/
theorem escape_digits (name : Text) :
    (escape name).countP Char.isDigit = name.countP Char.isDigit + 3 * name.countP isOctal := by
  induction name with
  | nil => rfl
  | cons c s ih =>
    rw [escape_cons, List.countP_append, ih, octal_digits, List.countP_cons, List.countP_cons]
    omega

theorem escape_plain {name : Text} (h : name.countP isOctal = 0) : escape name = name := by
  induction name with
  | nil => rfl
  | cons c s ih =>
    rw [List.countP_cons] at h
    have hc : isOctal c = false := by
      by_contra hyes
      simp [hyes] at h
    rw [escape_cons, octal_plain hc, ih (by omega)]
    rfl

/-! ### What the commands print -/

/-- The point begins with a slash, also in the table. -/
theorem Mount.written (e : Mount) : ∃ t, e.point = '/' :: t ∧ escape e.point = '/' :: escape t := by
  have hroot := e.root
  cases h : e.point with
  | nil => simp [h] at hroot
  | cons c t =>
    obtain rfl : c = '/' := by simpa [h] using hroot
    exact ⟨t, rfl, rfl⟩

theorem Mount.line_facts (e : Mount) : '\n' ∉ e.line ∧ second e.line = escape e.point := by
  have hbreak : ∀ t : Text, (∀ c ∈ t, isIfs c = false) → '\n' ∉ t := fun t ht hn =>
    absurd (ht _ hn) (by decide)
  have hdevice := hbreak _ e.solid
  have hpoint := hbreak _ (escape_solid e.point)
  refine ⟨by simp [Mount.line, hdevice, hpoint, e.inLine], ?_⟩
  have hne : escape e.point ≠ [] := by
    obtain ⟨t, -, hescape⟩ := e.written
    simp [hescape]
  rw [second, fields, Mount.line, Libc.tokens_append e.solid rfl, if_neg e.some,
    Libc.tokens_append (escape_solid e.point) rfl, if_neg hne]
  rfl

theorem lines_procMounts (table : List Mount) : lines (procMounts table) = table.map Mount.line := by
  refine Shell.lines_unlines fun l hl => ?_
  obtain ⟨e, -, rfl⟩ := List.mem_map.mp hl
  exact e.line_facts.1

theorem int_decimal (n : Nat) : int (decimal n) = some (n : Int) := by
  have hdigits := Libc.toDigits_digit n
  have htrim : ∀ t : Text, (∀ c ∈ t, c.isDigit = true) → t.dropWhile Libc.isSpace = t := by
    intro t ht
    cases t with
    | nil => rfl
    | cons c t => simp [Libc.isSpace_of_isDigit (ht c (by simp))]
  have hsign : ∀ c : Char, c.isDigit = false → (Nat.toDigits 10 n).head? ≠ some c := fun c hc hhead =>
    Libc.not_mem_toDigits hc n (List.mem_of_mem_head? hhead)
  have hbody : (((Nat.toDigits 10 n).dropWhile Libc.isSpace).reverse.dropWhile Libc.isSpace).reverse =
      Nat.toDigits 10 n := by
    rw [htrim _ hdigits, htrim _ fun c hc => hdigits c (List.mem_reverse.mp hc), List.reverse_reverse]
  rw [int, Libc.decimal_nat, hbody]
  have hall : (Nat.toDigits 10 n).any (fun c => !c.isDigit) = false := by simpa using hdigits
  simp [hsign '-' (by decide), hsign '+' (by decide), hall, Nat.ofDigitChars_ten_toDigits,
    Nat.toDigits_ne_nil]

section Run
variable (m : Machine) (home : Home) (username : Text)

/-- The mounts whose lines grep prints. -/
def Machine.selected (m : Machine) (home : Home) : List Mount := m.table.filter fun e =>
    selects home.path e.line

theorem selected_lines : (lines (procMounts m.table)).filter
    (selects home.path) = (m.selected home).map Mount.line := by
  rw [lines_procMounts, List.filter_map]
  rfl

theorem counted (h : (compile home.path).isSome) :
    (readExeOutput (m.prints (countMounts home.path))).head?.bind int = some
      ((m.selected home).length : Int) := by
  have hne := Libc.decimal_ne_nil (m.selected home).length
  have hbreak : '\n' ∉ decimal (m.selected home).length := by
    rw [Libc.decimal_nat]
    exact Libc.not_mem_toDigits (by decide) _
  rw [m.counts home h, selected_lines, List.length_map, readExeOutput, Shell.lines_cons hbreak]
  simp [lines, hne, int_decimal]

theorem listed (h : (compile home.path).isSome) :
    (readExeOutput (m.prints (listMounts home.path))).map umount =
      (m.selected home).map fun e => .system e.umount := by
  have hseconds : ((m.selected home).map Mount.line).map second = (m.selected home).map fun e =>
    escape e.point := by
    simp [List.map_map, Function.comp_def, Mount.line_facts]
  have hbreak : ∀ l ∈ (m.selected home).map fun e => escape e.point, '\n' ∉ l ∧ l ≠ [] := by
    intro l hl
    obtain ⟨e, -, rfl⟩ := List.mem_map.mp hl
    obtain ⟨t, -, hescape⟩ := e.written
    exact ⟨fun hn => absurd (escape_solid _ _ hn) (by decide), by simp [hescape]⟩
  rw [m.lists home h, selected_lines, hseconds, readExeOutput, Shell.lines_unlines fun l hl =>
    (hbreak l hl).1, List.filter_eq_self.mpr fun l hl => by simpa using (hbreak l hl).2]
  simp [umount, Mount.umount]

/-- **A run.** What is no pattern ends it at once. -/
theorem restoreHome_actions : restoreHome m false true home.path username =
    if (compile home.path).isSome then
      ((m.selected home).map fun e => .system e.umount) ++ remove home.path :: unpack home.path username
    else [] := by
  rw [restoreHome, if_neg (by simp), if_neg (by simp)]
  by_cases hsome : (compile home.path).isSome
  · rw [counted m home hsome, listed m home hsome, if_pos hsome]
    rcases List.eq_nil_or_concat (m.selected home) with hnil | ⟨es, e, hes⟩
    · simp [hnil]
    · simp [hes]
  · rw [m.fails home (by simpa using hsome), if_neg hsome]

theorem selected_none (h : ¬ (compile home.path).isSome) : m.selected home = [] := by
  have hnone : compile home.path = none := by simpa using h
  simp [Machine.selected, selects, hnone]

theorem isUmount_command (e : Mount) : (Action.system e.umount).isUmount = true := by
  have hstart : lit "fusermount" ++ lit " -u " = lit "fusermount -u " := by with_unfolding_all decide
  rw [Action.isUmount, List.isPrefixOf_iff_prefix, Mount.umount, ← hstart, List.append_assoc]
  exact List.prefix_append ..

theorem isUmount_rest : ∀ a ∈ remove home.path :: unpack home.path username, a.isUmount = false := by
  have hother : ∀ t s : Text, t.head? ≠ some 'f' → t ≠ [] → (lit "fusermount").isPrefixOf
    (t ++ s) = false := by
    intro t s hhead hne
    obtain ⟨c, t, rfl⟩ := List.exists_cons_of_ne_nil hne
    have hlit : lit "fusermount" = 'f' :: lit "usermount" := by with_unfolding_all decide
    have hc : ('f' == c) = false := by
      rw [beq_eq_false_iff_ne]
      rintro rfl
      exact hhead rfl
    rw [hlit, List.cons_append, List.isPrefixOf, hc, Bool.false_and]
  intro a ha
  simp only [unpack, List.mem_cons, List.not_mem_nil, or_false] at ha
  rcases ha with rfl | rfl | rfl | rfl
  · rw [remove, Action.isUmount, List.append_assoc]
    exact hother _ _ (by with_unfolding_all decide) (by with_unfolding_all decide)
  · rfl
  · rw [Action.isUmount, List.append_assoc]
    exact hother _ _ (by with_unfolding_all decide) (by with_unfolding_all decide)
  · rw [Action.isUmount, List.append_assoc, List.append_assoc, List.append_assoc]
    exact hother _ _ (by with_unfolding_all decide) (by with_unfolding_all decide)

/-- The calls are those for the lines that grep prints. -/
theorem calls_selected : (restoreHome m false true home.path username).filter Action.isUmount =
    (m.selected home).map fun e => .system e.umount := by
  rw [restoreHome_actions]
  split
  case isTrue =>
    have hcalls : ((m.selected home).map fun e => Action.system e.umount).filter Action.isUmount =
        (m.selected home).map fun e => Action.system e.umount := by
      rw [List.filter_eq_self]
      intro a ha
      obtain ⟨e, -, rfl⟩ := List.mem_map.mp ha
      exact isUmount_command e
    rw [List.filter_append, hcalls, List.filter_eq_nil_iff.mpr fun a ha => by
      simp [isUmount_rest home username a ha], List.append_nil]
  case isFalse hnone => simp [selected_none m home hnone]

end Run

/-- Two choices from a list that name the same things are the same. -/
theorem filter_map_inj {α β : Type} {f : α → β} {p q : α → Bool} (l : List α)
    (hq : ∀ x ∈ l, ∀ y ∈ l, f x = f y → q x = q y) (h : (l.filter p).map f = (l.filter q).map f) :
    ∀ x ∈ l, p x = q x := by
  have hsub : ∀ x ∈ l.filter p, q x = true := by
    intro x hx
    have himage : f x ∈ (l.filter q).map f := h ▸ List.mem_map_of_mem hx
    obtain ⟨y, hy, hyx⟩ := List.mem_map.mp himage
    rw [List.mem_filter] at hx hy
    rw [← hq y hy.1 x hx.1 hyx, hy.2]
  have hpq : l.filter p = (l.filter q).filter p := by
    rw [List.filter_filter, List.filter_congr fun x hx => ?_]
    cases hpx : p x with
    | false => rfl
    | true => rw [hsub x (List.mem_filter.mpr ⟨hx, hpx⟩)]; rfl
  have hlen : ((l.filter q).filter p).length = (l.filter q).length := by
    rw [← hpq, ← List.length_map (f := f), h, List.length_map]
  have hsame : (l.filter q).filter p = l.filter q := (List.filter_sublist).eq_of_length hlen
  intro x hx
  rw [Bool.eq_iff_iff]
  constructor
  · exact fun hpx => hsub x (List.mem_filter.mpr ⟨hx, hpx⟩)
  · intro hqx
    have hmem : x ∈ (l.filter q).filter p := by
      rw [hsame]
      exact List.mem_filter.mpr ⟨hx, hqx⟩
    rw [List.mem_filter] at hmem
    exact hmem.2

theorem umount_awaits : (Shell.Parser.run id {} (lit "fusermount -u ")).Awaits id
    { args := [lit "fusermount", lit "-u"] } :=
  ⟨by with_unfolding_all decide, by with_unfolding_all decide, by with_unfolding_all decide,
    by with_unfolding_all decide, by with_unfolding_all decide⟩

/-- **Only these points are the argument of their command.** -/
theorem umount_read_iff (e : Mount) :
    command e.umount = some { args := [lit "fusermount", lit "-u", e.point] } ↔
    isLiteral e.point = true := by
  obtain ⟨t, hpoint, hescape⟩ := e.written
  have hrun : command e.umount =
    (((Shell.Parser.run id {} (lit "fusermount -u ")).run id (escape e.point)).finish
      id).simple id := by
    rw [Shell.command, Shell.parse, Mount.umount, Shell.run_append]
  have hplain : escape e.point = e.point → (command e.umount =
      some { args := [lit "fusermount", lit "-u", e.point] } ↔ Shell.isLastLiteral e.point = true) := by
    intro hsame
    have hlast := Shell.last_argument_iff id umount_awaits e.point
    rw [List.map_id] at hlast
    rw [hrun, hsame]
    exact hlast
  constructor
  · intro h
    -- with a number in octal there would be too many digits
    have hdigits := Shell.argument_digits id umount_awaits (b := '/') (by decide) (by decide)
      (t := escape t) (fun c hc => by
        have hsolid := escape_solid t c hc
        simp only [isIfs, Bool.or_eq_false_iff, beq_eq_false_iff_ne] at hsolid
        simp [Shell.isBlank, hsolid]) (v := e.point) rfl (by rw [← hescape, ← hrun]; exact h)
    rw [List.map_id, ← hescape, escape_digits] at hdigits
    have hnone : e.point.countP isOctal = 0 := by omega
    have hlast := (hplain (escape_plain hnone)).mp h
    rw [Shell.isLastLiteral, Bool.or_eq_true] at hlast
    refine hlast.resolve_right fun hslash => ?_
    rw [Bool.and_eq_true, beq_iff_eq] at hslash
    have hmem := List.countP_eq_zero.mp hnone _ (List.mem_of_getLast? hslash.1)
    exact absurd hmem (by decide)
  · intro h
    have hsolid := ((Shell.isLiteral_iff _).mp h).2.2.2.1
    have hnone : e.point.countP isOctal = 0 := by
      rw [List.countP_eq_zero]
      intro c hc hoctal
      have hs := hsolid c hc
      simp only [isOctal, Bool.or_eq_true, beq_iff_eq] at hoctal
      rcases hoctal with ((rfl | rfl) | rfl) | rfl <;> exact absurd hs (by decide)
    exact (hplain (escape_plain hnone)).mpr (by rw [Shell.isLastLiteral, h]; rfl)

/-- **Before the directory is removed exactly its own mounts are due, for these tables.** -/
theorem restore_exact_iff (m : Machine) (home : Home) (username : Text) :
    Exact m home username ↔ Apart home.path m.table := by
  constructor
  · intro h
    have hcalls := h.calls
    rw [calls_selected] at hcalls
    have hsame := filter_map_inj m.table (f := fun e => Action.system e.umount) (fun e _ e' _ hcmd => by
      have hpoint : e.point = e'.point := by
        simpa [Mount.umount, escape_injective.eq_iff] using hcmd
      rw [hpoint]) hcalls
    intro e he
    have hsel := hsame e he
    split
    case isTrue hbelow => exact
      ⟨by simpa [hbelow] using hsel, (umount_read_iff e).mp (h.read e he hbelow)⟩
    case isFalse hbelow => simpa [hbelow] using hsel
  · intro h
    have hselected : m.selected home = m.table.filter fun e => Below home.path e.point := by
      refine List.filter_congr fun e he => ?_
      have hone := h e he
      split at hone
      case isTrue hbelow => simp [hbelow, hone.1]
      case isFalse hbelow => simp [hbelow, hone]
    have hread : ∀ e ∈ m.table, Below home.path e.point →
        command e.umount = some { args := [lit "fusermount", lit "-u", e.point] } := by
      intro e he hbelow
      have hone := h e he
      rw [if_pos hbelow] at hone
      exact (umount_read_iff e).mpr hone.2
    refine ⟨by rw [calls_selected, hselected], fun e he hbelow => ?_, hread⟩
    have hmem : e ∈ m.selected home := by
      rw [hselected]
      simp [he, hbelow]
    have hsome : (compile home.path).isSome := by
      by_contra hno
      rw [selected_none m home hno] at hmem
      exact absurd hmem (by simp)
    have hbefore : ∀ a ∈ (m.selected home).map fun e => Action.system e.umount,
      a ≠ remove home.path := by
      rintro a ha rfl
      obtain ⟨e', -, heq⟩ := List.mem_map.mp ha
      have hcall := isUmount_command e'
      rw [heq, isUmount_rest home username _ (by simp)] at hcall
      exact absurd hcall (by simp)
    rw [restoreHome_actions, if_pos hsome, List.takeWhile_append_of_pos fun a ha => by
      simpa using hbefore a ha]
    exact List.mem_append_left _ (List.mem_map_of_mem hmem)

/-! ### A machine -/

/-- What stands between two texts. -/
def between (a b cmd : Text) : Text := (cmd.drop a.length).take (cmd.length - a.length - b.length)

theorem between_append (a b t : Text) : between a b (a ++ t ++ b) = t := by
  rw [between, List.append_assoc, List.drop_left]
  exact List.take_left' (by simp)

/-- What a shell prints for the commands with grep. -/
def plainPrints (table : List Mount) (cmd : Text) : Text :=
  if cmd.take 6 = lit "grep \"" then
    let home := between (lit "grep \"") (lit "\" /proc/mounts | awk '\x7bprint $2\x7d'") cmd
    unlines (((lines (procMounts table)).filter (selects home)).map second)
  else
    let home := between (lit "grep -c \"") (lit "\" /proc/mounts") cmd
    if (compile home).isSome then decimal ((lines (procMounts table)).filter (selects home)).length ++
      ['\n']
    else lit "grep: Unmatched [\n"

theorem take_countMounts (home : Text) : (countMounts home).take 6 ≠ lit "grep \"" := by
  have hlen : 6 ≤ (lit "grep -c \"").length := by with_unfolding_all decide
  rw [countMounts, List.append_assoc, List.take_append_of_le_length hlen]
  with_unfolding_all decide

def plainMachine (table : List Mount) : Machine where
  table := table
  prints := plainPrints table
  counts home h := by
    rw [plainPrints, if_neg (take_countMounts home.path), countMounts, between_append]
    simp [h]
  lists home _ := by
    have hlen : 6 = (lit "grep \"").length := by with_unfolding_all decide
    have htake : (listMounts home.path).take 6 = lit "grep \"" := by
      rw [listMounts, List.append_assoc, hlen, List.take_left]
    rw [plainPrints, if_pos htake, listMounts, between_append]
  fails home h := by
    rw [plainPrints, if_neg (take_countMounts home.path), countMounts, between_append]
    dsimp only
    rw [h, if_neg (by simp)]
    with_unfolding_all decide

/-- A stick of host10. -/
def stick : Mount where
  device := lit "ltspfs"
  point := lit "/home/host10/Desktop/usb"
  rest := lit "fuse rw 0 0"
  some := by with_unfolding_all decide
  solid := Shell.each (by with_unfolding_all decide)
  root := by with_unfolding_all decide
  inLine := by with_unfolding_all decide

def host1 : Home := ⟨lit "/home/host1", by with_unfolding_all decide,
    Shell.each (by with_unfolding_all decide)⟩

/-- With the home of host1 the stick of host10 goes. -/
theorem neighbour_unmounted : ¬ Exact (plainMachine [stick]) host1 (lit "host1") := by
  intro h
  have hcalls := h.calls
  rw [calls_selected] at hcalls
  exact absurd hcalls (by with_unfolding_all decide)

end Tcos.Scripts.Autologin
