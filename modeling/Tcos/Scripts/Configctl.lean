import Tcos.Grep.Regex
import Tcos.Shell.Commands

/-! configctl.sh: the values of /conf/tcos.conf.

A name is refused if it is that of the root password, and else looked up as a pattern. `kept_iff`
says for which names the answer tells nothing of the password; those without special bytes are
among them (`name_kept`). -/
namespace Tcos.Scripts.Configctl
open Shell (Text lit lines unlines captured awkSecond Host Echo)
open Grep (selects)

/-! ### The script -/

def rootName : Text := lit "TCOS_ROOT_PASSWD"

/-- `"^${1}="`. -/
def pattern (name : Text) : Text := '^' :: (name ++ ['='])

/-- The last line that `grep` prints. -/
def lookUp (file name : Text) : Option Text := ((lines file).filter (selects (pattern name))).getLast?

section Script
variable (h : Host) (self : Text)

/-- What `get_varname` prints once `line` is read. -/
def printValue (line : Text) : Text :=
  if line ≠ [] then awkSecond (h.echo.print (h.glob.expand line)) else h.echo.print [lit "-1"]

/-- What it prints, of a file that may not exist. -/
def getVarname (conf : Option Text) (name : Text) : Text :=
  match conf with
  | none => []
  | some file =>
    if name = rootName then h.echo.print [lit "*secret*"]
    else printValue h (captured (((lookUp file name).map fun l => l ++ ['\n']).getD []))

def usage : Text :=
  h.echo.print [lit "Usage:"] ++
    h.echo.print [lit "       " ++ self ++ lit "  --help                  ( this help text )"] ++
    h.echo.print [lit "       " ++ self ++ lit "  --get [VARNAME]         ( return 0/1 if found )"]

/-- The words of the first argument; none if one of them is `--help`. -/
def readOptions (conf : Option Text) (name output : Text) : List Text → Option Text
  | [] => some output
  | x :: xs =>
    if x = lit "--get" then readOptions conf name (captured (getVarname h conf name)) xs
    else if x = lit "--help" then none
    else readOptions conf name output xs

/-- `echo -n $output`, with `0` for nothing. -/
def finish (output : Text) : Text :=
  h.echo.print (lit "-n" :: h.glob.expand (if output = [] then lit "0" else output))

/-- What the script prints, called with these two arguments. -/
def configctl (conf : Option Text) (option name : Text) : Text :=
  match readOptions h conf name [] (h.glob.expand option) with
  | none => usage h self
  | some output => if option = [] then usage h self else finish h output

/-! ### What should be kept -/

def rootKey : Text := rootName ++ ['=']

/-- A line of a text; `grep` prints no lines of other files. -/
def IsLine (l : Text) : Prop := '\n' ∉ l ∧ '\x00' ∉ l

/-- The same lines up to the password. -/
structure SameBut (f g : Text) : Prop where
  text : '\x00' ∉ f ∧ '\x00' ∉ g
  lines : List.Forall₂ (fun l m => l = m ∨ (rootKey <+: l ∧ rootKey <+: m)) (lines f) (lines g)

/-- The answer tells nothing of the password. -/
def Kept (name : Text) : Prop := ∀ f g, SameBut f g →
  configctl h self (some f) (lit "--get") name = configctl h self (some g) (lit "--get") name

/-- What is answered once `line` was found, or nothing was. -/
def reply (line : Option Text) : Text := finish h (captured (printValue h (line.getD [])))

/-- The value of a line: the second field of its words. -/
def value (line : Text) : Text := captured (awkSecond (h.echo.print (h.glob.expand line)))

/-- A line without a value, or with one that is echoed as `-1`. -/
def Unset (line : Text) : Prop :=
  line = [] ∨ h.echo.print (lit "-n" :: h.glob.expand (if value h line = [] then lit "0"
    else value h line)) = lit "-1"

/-- The name is refused, or selects no password, or only lines that are not set. -/
def Safe (name : Text) : Prop :=
  name = rootName ∨ (∀ value, IsLine value → selects (pattern name) (rootKey ++ value) = false) ∨
    ∀ line, IsLine line → selects (pattern name) line = true → Unset h line

/-! ### What is found -/

theorem configctl_get (file name : Text) :
    configctl h self (some file) (lit "--get") name =
      if name = rootName then finish h (captured (h.echo.print [lit "*secret*"]))
      else reply h (lookUp file name) := by
  have hget : h.glob.expand (lit "--get") = [lit "--get"] :=
    Shell.expand_printable h (by with_unfolding_all decide)
  have hline : captured (((lookUp file name).map fun l => l ++ ['\n']).getD []) =
    (lookUp file name).getD [] := by
    cases hl : lookUp file name with
    | none => rfl
    | some l =>
      have hmem := List.mem_of_mem_getLast? (Option.mem_def.mpr hl)
      exact Shell.captured_line (Shell.not_mem_lines file l (List.mem_filter.mp hmem).1)
  have hne : lit "--get" ≠ [] := by with_unfolding_all decide
  rw [configctl, hget, readOptions, if_pos rfl, readOptions]
  dsimp only
  rw [if_neg hne, getVarname, hline]
  split <;> rfl

theorem isLine_of_mem {file l : Text} (hfile : '\x00' ∉ file) (hl : l ∈ lines file) : IsLine l :=
  ⟨Shell.not_mem_lines file l hl, fun hmem => hfile (Shell.mem_of_mem_lines hl hmem)⟩

theorem printable_line {w : Text} (hw : Shell.isPrintable w = true) : '\n' ∉ w := by
  simp only [Shell.isPrintable, Bool.and_eq_true, List.all_eq_true] at hw
  exact fun hn => absurd (hw.1 _ hn) (by decide)

theorem printable_ne_nil {w : Text} (hw : Shell.isPrintable w = true) : w ≠ [] := by
  rintro rfl
  exact absurd hw (by decide)

theorem reply_none : reply h none = lit "-1" := by
  have hplain : Shell.isPrintable (lit "-1") = true := by with_unfolding_all decide
  have hprinted : printValue h [] = lit "-1" ++ ['\n'] := by
    rw [printValue, if_neg (by simp), h.echo.line _ hplain]
  rw [reply, Option.getD_none, hprinted, Shell.captured_line (printable_line hplain), finish,
    if_neg (printable_ne_nil hplain), Shell.expand_printable h hplain, h.echo.quiet _ hplain]

/-- **What is answered like nothing.** -/
theorem unset_iff (line : Text) : reply h (some line) = reply h none ↔ Unset h line := by
  by_cases hline : line = []
  · subst hline
    exact iff_of_true rfl (.inl rfl)
  · have hvalue : reply h (some line) = finish h (value h line) := by
      rw [reply, Option.getD_some, printValue, if_pos hline]
      rfl
    rw [hvalue, reply_none, Unset]
    exact (or_iff_right hline).symm

/-! ### What is kept -/

/-- If no password is selected, both files are searched alike. -/
theorem lookUp_same {name f g : Text} (hfg : SameBut f g)
    (hnone : ∀ value, IsLine value → selects (pattern name) (rootKey ++ value) = false) :
    lookUp f name = lookUp g name := by
  have hroot : ∀ l, IsLine l → rootKey <+: l → selects (pattern name) l = false := by
    rintro l hl ⟨v, rfl⟩
    exact hnone v ⟨fun hv => hl.1 (List.mem_append_right _ hv), fun hv => hl.2 (List.mem_append_right _ hv)⟩
  have hfilter : ∀ ls ms : List Text, (∀ l ∈ ls, IsLine l) → (∀ m ∈ ms, IsLine m) →
      List.Forall₂ (fun l m => l = m ∨ (rootKey <+: l ∧ rootKey <+: m)) ls ms →
      ls.filter (selects (pattern name)) = ms.filter (selects (pattern name)) := by
    intro ls ms hls hms hall
    induction hall with
    | nil => rfl
    | @cons l m ls ms hlm _ ih =>
      rw [List.forall_mem_cons] at hls hms
      have hrest := ih hls.2 hms.2
      rcases hlm with rfl | ⟨hl, hm⟩
      · rw [List.filter_cons, List.filter_cons, hrest]
      · rw [List.filter_cons_of_neg (by simp [hroot l hls.1 hl]),
          List.filter_cons_of_neg (by simp [hroot m hms.1 hm]), hrest]
  rw [lookUp, lookUp, hfilter _ _ (fun _ => isLine_of_mem hfg.text.1) (fun _ => isLine_of_mem hfg.text.2)
    hfg.lines]

theorem kept_of_safe {name : Text} (hsafe : Safe h name) : Kept h self name := by
  intro f g hfg
  rw [configctl_get, configctl_get]
  rcases hsafe with hroot | hnone | hlike
  · rw [if_pos hroot, if_pos hroot]
  · rw [lookUp_same hfg hnone]
  · have hall : ∀ file, '\x00' ∉ file → reply h (lookUp file name) = reply h none := by
      intro file hfile
      cases hl : lookUp file name with
      | none => rfl
      | some l =>
        obtain ⟨hmem, hsel⟩ := List.mem_filter.mp (List.mem_of_mem_getLast? (Option.mem_def.mpr hl))
        exact (unset_iff h l).mpr (hlike l (isLine_of_mem hfile hmem) hsel)
    rw [hall f hfg.text.1, hall g hfg.text.2]

/-- **A name without special bytes is safe.** -/
theorem name_kept {name : Text} (hname : ∀ c ∈ name, Grep.isOrdinary c = true) (heq : '=' ∉ name) :
    Kept h self name := by
  refine kept_of_safe h self ?_
  by_cases hroot : name = rootName
  · exact .inl hroot
  refine .inr (.inl fun value _ => ?_)
  have hordinary : ∀ c ∈ name ++ ['='], Grep.isOrdinary c = true := by
    simpa [or_imp, forall_and] using ⟨hname, rfl⟩
  have hrootEq : '=' ∉ rootName := by with_unfolding_all decide
  rw [pattern, Grep.selects_ordinary hordinary, decide_eq_false_iff_not]
  rintro ⟨rest, hrest⟩
  rw [rootKey, List.append_assoc, List.append_assoc, List.singleton_append,
    List.singleton_append] at hrest
  exact hroot (Shell.cut_unique heq hrootEq hrest).1

end Script

end Tcos.Scripts.Configctl
