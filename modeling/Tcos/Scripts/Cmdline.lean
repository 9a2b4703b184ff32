import Tcos.Lists.Overwrite
import Tcos.Shell.Echo

/-! tcos-run-functions.sh: `read_cmdline_var`, by which the boot scripts read the kernel command line.

`readCmdlineVar_settings` reads a command line of settings back: the last one of a name counts, a
bare name is 1, and a name without a value is as good as none. -/
namespace Tcos.Scripts.Cmdline
open Shell (Text lit Sh captured fields unwords isInert isIfs isPattern)
open Overwrite (last)

/-! ### The function -/

/-- What `case` makes of a word, for a name that stands for itself in a pattern (`IsVar`). -/
def caseOf (name x : Text) : Option Text :=
  if (name ++ ['=']).isPrefixOf x then some (x.drop (name.length + 1))
  else if x == name then some ['1'] else none

/-- `[ ! -z ${var} ]` of these words; several are an error. -/
def isSet : List Text → Bool
  | [w] => !w.isEmpty
  | _ => false

section Script
variable (sh : Sh)

/-- The loop; a variable that is not set expands to nothing. -/
def varOf (name cmdline : Text) : Text :=
  ((sh.expand (captured cmdline)).foldl (fun var x => (caseOf name x).or var) none).getD []

def readCmdlineVar (name default cmdline : Text) : Text :=
  let var := varOf sh name cmdline
  if isSet (sh.expand var) then sh.echo [var] else sh.echo [default]

end Script

/-! ### Settings -/

/-- A name to ask for: `case` and `${x#$1=}` take it for a pattern, and it is only itself. -/
structure IsVar (name : Text) : Prop where
  equals : '=' ∉ name
  plain : ∀ c ∈ name, isPattern c = false ∧ c ≠ '\\'

/-- A setting on the command line: a bare name, or a name with a value. -/
structure Setting where
  name : Text
  value : Option Text
  named : name ≠ [] ∧ ∀ c ∈ name, isInert c = true ∧ c ≠ '='
  inert : ∀ v, value = some v → ∀ c ∈ v, isInert c = true

namespace Setting

def text (s : Setting) : Text := s.name ++ s.value.elim [] ('=' :: ·)

/-- What it sets its name to. -/
def content (s : Setting) : Text := s.value.getD ['1']

def sets (name : Text) (s : Setting) : Option Text := if s.name = name then some s.content else none

theorem text_ne_nil (s : Setting) : s.text ≠ [] := by
  simp [text, s.named.1]

theorem text_inert (s : Setting) : ∀ c ∈ s.text, isInert c = true := by
  intro c hc
  rcases List.mem_append.mp hc with hc | hc
  · exact (s.named.2 c hc).1
  · cases hv : s.value with
    | none => simp [hv] at hc
    | some v =>
      rw [hv, Option.elim_some, List.mem_cons] at hc
      rcases hc with rfl | hc
      · decide
      · exact s.inert v hv c hc

theorem equals (s : Setting) : '=' ∉ s.name := fun h => (s.named.2 _ h).2 rfl

/-- **A word is taken for what it is.** -/
theorem caseOf_text {name : Text} (hname : IsVar name) (s : Setting) :
    caseOf name s.text = s.sets name := by
  unfold caseOf sets content text
  cases hv : s.value with
  | none =>
    have hno : ¬ name ++ ['='] <+: s.name := fun h => s.equals (h.subset (by simp))
    rw [Option.elim_none, List.append_nil, if_neg (by rwa [List.isPrefixOf_iff_prefix])]
    simp
  | some v =>
    rw [Option.elim_some]
    by_cases heq : s.name = name
    · have hpre : (name ++ ['=']).isPrefixOf (s.name ++ '=' :: v) = true := by
        rw [List.isPrefixOf_iff_prefix, heq]
        exact ⟨v, by simp⟩
      rw [if_pos hpre, if_pos heq, heq, Option.getD_some]
      congr 1
      simp
    · have hno : ¬ name ++ ['='] <+: s.name ++ '=' :: v := by
        rintro ⟨t, ht⟩
        rw [List.append_assoc, List.singleton_append] at ht
        exact heq (Shell.cut_unique hname.equals s.equals ht).1.symm
      have hne : (s.name ++ '=' :: v == name) = false := by
        rw [beq_eq_false_iff_ne]
        rintro rfl
        exact hname.equals (by simp)
      rw [if_neg (by rwa [List.isPrefixOf_iff_prefix]), if_neg heq, hne]
      rfl

end Setting

/-- /proc/cmdline. -/
def cmdline (settings : List Setting) : Text := unwords (settings.map Setting.text) ++ ['\n']

/-- What the settings make of a name. -/
def effective (settings : List Setting) (name default : Text) : Text :=
  let value := (last (Setting.sets name) settings).getD []
  if value = [] then default else value

/-! ### Reading them back -/

section Reading
variable (sh : Sh) (settings : List Setting)

theorem expand_cmdline : sh.expand (captured (cmdline settings)) = settings.map Setting.text := by
  have hwords : ∀ w ∈ settings.map Setting.text, w ≠ [] ∧ ∀ c ∈ w, isInert c = true := by
    intro w hw
    obtain ⟨s, -, rfl⟩ := List.mem_map.mp hw
    exact ⟨s.text_ne_nil, s.text_inert⟩
  have hbyte : ∀ c ∈ unwords (settings.map Setting.text), c = ' ' ∨ isInert c = true := by
    intro c hc
    by_cases hblank : c = ' '
    · exact .inl hblank
    · obtain ⟨w, hw, hmem⟩ := Shell.mem_intercalate hc hblank
      exact .inr ((hwords w hw).2 c hmem)
  have hline : '\n' ∉ unwords (settings.map Setting.text) := fun h =>
    (hbyte _ h).elim (by decide) (by decide)
  have hpattern : ∀ c ∈ unwords (settings.map Setting.text), isPattern c = false := by
    intro c hc
    rcases hbyte c hc with rfl | h
    · rfl
    · exact (Shell.isInert_facts h).2
  rw [cmdline, Shell.captured_line hline, Sh.expand, Shell.expand_fields _ hpattern]
  exact Shell.fields_unwords fun w hw =>
    ⟨(hwords w hw).1, fun c hc => (Shell.isInert_facts ((hwords w hw).2 c hc)).1⟩

theorem varOf_settings {name : Text} (hname : IsVar name) :
    varOf sh name (cmdline settings) = (last (Setting.sets name) settings).getD [] := by
  have hword : ∀ s ∈ settings, caseOf name s.text = s.sets name := fun s _ => s.caseOf_text hname
  rw [varOf, expand_cmdline, Overwrite.foldl_overwrite, Overwrite.last_map, Option.or_none,
    Overwrite.last_congr hword]

theorem content_inert (s : Setting) : ∀ c ∈ s.content, isInert c = true := by
  intro c hc
  unfold Setting.content at hc
  cases hv : s.value with
  | none =>
    rw [hv, Option.getD_none, List.mem_singleton] at hc
    rw [hc]
    decide
  | some v =>
    rw [hv] at hc
    exact s.inert v hv c hc

theorem last_inert (name : Text) : ∀ c ∈ (last (Setting.sets name) settings).getD [], isInert c = true := by
  cases h : last (Setting.sets name) settings with
  | none => simp
  | some v =>
    obtain ⟨before, s, after, -, hs, -⟩ := Overwrite.last_eq_some.mp h
    unfold Setting.sets at hs
    split at hs
    · cases hs
      exact content_inert s
    · exact absurd hs (by simp)

/-- **What is printed.** -/
theorem readCmdlineVar_cmdline {name : Text} (hname : IsVar name) (default : Text) :
    readCmdlineVar sh name default (cmdline settings) =
      sh.echo [effective settings name default] := by
  rw [readCmdlineVar, varOf_settings sh settings hname, effective]
  generalize hvar : (last (Setting.sets name) settings).getD [] = var
  have hinert : ∀ c ∈ var, isInert c = true := hvar ▸ last_inert settings name
  by_cases hnil : var = []
  · rw [hnil]
    rfl
  · rw [Sh.expand, Shell.expand_word _ hnil hinert]
    simp [isSet, hnil]

end Reading

/-- A value that every `echo` prints as it is. -/
structure IsClear (t : Text) : Prop where
  slash : '\\' ∉ t
  dash : t.head? ≠ some '-'
  line : '\n' ∉ t

theorem captured_settings (sh : Sh) (settings : List Setting) {name default : Text} (hname : IsVar name)
    (hclear : IsClear (effective settings name default)) :
    captured (readCmdlineVar sh name default (cmdline settings)) = effective settings name default := by
  rw [readCmdlineVar_cmdline sh settings hname, Shell.echo_plain sh hclear.slash hclear.dash,
    Shell.captured_line hclear.line]

/-- Settings of other names do not count. -/
theorem effective_own {settings others : List Setting} {name : Text}
    (h : settings.filter (·.name = name) = others.filter (·.name = name)) (default : Text) :
    effective settings name default = effective others name default := by
  have hown : ∀ ss : List Setting, last (Setting.sets name) (ss.filter (·.name = name)) =
      last (Setting.sets name) ss :=
    fun ss => Overwrite.last_filter (fun s hs => if_neg (of_decide_eq_false hs)) ss
  rw [effective, effective, ← hown settings, h, hown]

/-- **A command line is read as the settings it was written from, and only those of the name count.** -/
theorem readCmdlineVar_settings (sh : Sh) (settings : List Setting) {name : Text} (hname : IsVar name)
    (default : Text) :
    (IsClear (effective settings name default) →
      captured (readCmdlineVar sh name default (cmdline settings)) = effective settings name default) ∧
    ∀ others : List Setting, settings.filter (·.name = name) = others.filter (·.name = name) →
      readCmdlineVar sh name default (cmdline others) =
        readCmdlineVar sh name default (cmdline settings) := by
  refine ⟨captured_settings sh settings hname, fun others h => ?_⟩
  rw [readCmdlineVar_cmdline sh others hname, readCmdlineVar_cmdline sh settings hname,
    effective_own h]

/-- `s=a q s=b`. -/
def threeSettings : List Setting :=
  [⟨['s'], some ['a'], ⟨by simp, Shell.each (by decide)⟩, by rintro v ⟨⟩; exact Shell.each (by decide)⟩,
    ⟨['q'], none, ⟨by simp, Shell.each (by decide)⟩, by rintro v ⟨⟩⟩,
    ⟨['s'], some ['b'], ⟨by simp, Shell.each (by decide)⟩, by rintro v ⟨⟩; exact Shell.each (by decide)⟩]

theorem readCmdlineVar_last :
    captured (readCmdlineVar ⟨true, .dash, fun w => [w], Shell.names_self⟩ ['s'] [] (cmdline threeSettings)) =
      ['b'] :=
  (readCmdlineVar_settings _ threeSettings ⟨by decide, Shell.each (by decide)⟩ []).1
    ⟨by decide, by decide, by decide⟩

end Tcos.Scripts.Cmdline
