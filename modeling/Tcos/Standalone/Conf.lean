import Tcos.Python.Lines

/-! The settings file of tcos-standalone.

A line is taken for a variable's when it starts with the name. `saved_iff` says of which files a
value that is saved is read back and all other lines stay. -/
namespace Tcos.Standalone
open Shell (Text lit)
open Python

inductive IndexError where
  | outOfRange
  deriving DecidableEq, Repr

/-- `none` where there is no file, or no line. -/
def readConf (file : Option Text) (fvar : Text) (item : Nat) (sep : Char) : Except IndexError
    (Option Text) :=
  match file.bind fun data => (readlines data).find? fun line => fvar.isPrefixOf line with
  | none => .ok none
  | some line =>
    match ((chomp line).splitOn sep)[item]? with
    | some v => .ok (some v)
    | none => .error .outOfRange

def saveLine (fvar value : Text) (sep : Char) (line : Text) : Text :=
  if fvar.isPrefixOf line then fvar ++ sep :: value ++ ['\n'] else line

/-- The file afterwards. -/
def saveConf (file : Option Text) (fvar value : Text) (sep : Char) : Option Text :=
  file.map fun data => ((readlines data).map (saveLine fvar value sep)).flatten

/-- What stands before the first separator. -/
def key (line : Text) : Text := (chomp line).takeWhile (· != '=')

/-- The value is read back, and each line of another key is where it was. -/
structure Saved (data fvar value : Text) : Prop where
  read : readConf (saveConf (some data) fvar value '=') fvar 1 '=' = .ok (some value)
  others : ∃ data', saveConf (some data) fvar value '=' = some data' ∧
    (readlines data').length = (readlines data).length ∧
      ∀ (i : Nat) (l : Text), (readlines data)[i]? = some l → key l ≠ fvar →
      (readlines data')[i]? = some l

/-- A line starts with the name, and no line of another key does. -/
structure Fits (data fvar : Text) : Prop where
  present : ∃ line ∈ readlines data, fvar <+: line
  only : ∀ line ∈ readlines data, fvar <+: line → key line = fvar

section Save
variable {fvar value : Text}

theorem saveLine_isLine (hv : '\n' ∉ fvar) (hx : '\n' ∉ value) (line : Text) :
    saveLine fvar value '=' line = line ∨ IsLine (saveLine fvar value '=' line) := by
  unfold saveLine
  split
  · exact .inr ⟨fvar ++ '=' :: value, by simp [hv, hx], rfl⟩
  · exact .inl rfl

/-- **The lines of the file afterwards.** -/
theorem readlines_saved (hv : '\n' ∉ fvar) (hx : '\n' ∉ value) (data : Text) :
    readlines ((readlines data).map (saveLine fvar value '=')).flatten = (readlines data).map
    (saveLine fvar value '=') :=
  readlines_flatten ((areLines_readlines data).map fun line _ => saveLine_isLine hv hx line)

/-- The line that is written, in parts. -/
theorem split_saved (hv : '\n' ∉ fvar) (hv' : '=' ∉ fvar) (hx : '\n' ∉ value) (hx' : '=' ∉ value) :
    (chomp (fvar ++ '=' :: value ++ ['\n'])).splitOn '=' = [fvar, value] := by
  have hchomp : chomp (fvar ++ '=' :: value ++ ['\n']) = ['='].intercalate [fvar, value] := by
    rw [chomp_line (by simp [hv, hx])]
    simp [List.intercalate_cons_cons]
  rw [hchomp]
  exact List.splitOn_intercalate '=' (by simp [hv', hx']) (by simp)

theorem key_saved (hv : '\n' ∉ fvar) (hv' : '=' ∉ fvar) (hx : '\n' ∉ value) :
    key (fvar ++ '=' :: value ++ ['\n']) = fvar := by
  rw [key, chomp_line (by simp [hv, hx]), List.takeWhile_append_of_pos fun c hc => by
    simpa using fun h : c = '=' => hv' (h ▸ hc)]
  simp

/-- **The first line that starts with the name is the one that was written.** -/
theorem read_saved (hv : '\n' ∉ fvar) (hv' : '=' ∉ fvar) (hx : '\n' ∉ value) (hx' : '=' ∉ value)
    (data : Text) : readConf (saveConf (some data) fvar value '=') fvar 1 '=' =
      if ∃ line ∈ readlines data, fvar <+: line then .ok (some value) else .ok none := by
  have hfind : ((readlines data).map (saveLine fvar value '=')).find?
    (fun line => fvar.isPrefixOf line) =
      if ∃ line ∈ readlines data, fvar <+: line then some (fvar ++ '=' :: value ++ ['\n'])
        else none := by
    generalize readlines data = ls
    induction ls with
    | nil => simp
    | cons l ls ih =>
      by_cases hl : fvar <+: l
      · have hsave : saveLine fvar value '=' l = fvar ++ '=' :: value ++ ['\n'] :=
          if_pos (List.isPrefixOf_iff_prefix.mpr hl)
        have hpre : fvar.isPrefixOf (fvar ++ '=' :: value ++ ['\n']) = true :=
          List.isPrefixOf_iff_prefix.mpr ⟨'=' :: value ++ ['\n'], by simp⟩
        rw [List.map_cons, hsave, List.find?_cons_of_pos hpre, if_pos ⟨l, List.mem_cons_self .., hl⟩]
      · have hsave : saveLine fvar value '=' l = l :=
          if_neg fun h => hl (List.isPrefixOf_iff_prefix.mp h)
        rw [List.map_cons, hsave, List.find?_cons_of_neg fun h =>
          hl (List.isPrefixOf_iff_prefix.mp h), ih]
        simp [hl]
  rw [readConf, saveConf, Option.map_some, Option.bind_some, readlines_saved hv hx, hfind]
  split_ifs
  · simp only [split_saved hv hv' hx hx']
    rfl
  · rfl

/-- **A setting is saved exactly when a line starts with the name, and every such line is of that
key.** -/
theorem saved_iff (hv : '\n' ∉ fvar) (hv' : '=' ∉ fvar) (hx : '\n' ∉ value) (hx' : '=' ∉ value)
    (data : Text) : Saved data fvar value ↔ Fits data fvar := by
  constructor
  · rintro ⟨hread, data', hdata, -, hothers⟩
    refine ⟨?_, fun line hline hpre => ?_⟩
    · rw [read_saved hv hv' hx hx'] at hread
      by_contra hnone
      rw [if_neg hnone] at hread
      exact absurd hread (by simp)
    · by_contra hkey
      obtain ⟨i, hi⟩ := List.getElem?_of_mem hline
      have hsame := hothers i line hi hkey
      rw [saveConf, Option.map_some] at hdata
      rw [← Option.some.inj hdata, readlines_saved hv hx, List.getElem?_map, hi, Option.map_some,
        saveLine, if_pos (List.isPrefixOf_iff_prefix.mpr hpre)] at hsame
      exact hkey (Option.some.inj hsame ▸ key_saved hv hv' hx)
  · rintro ⟨hpresent, honly⟩
    refine ⟨by rw [read_saved hv hv' hx hx', if_pos hpresent], _, rfl, ?_, fun i l hi hkey => ?_⟩
    · rw [readlines_saved hv hx, List.length_map]
    · have hline := List.mem_of_getElem? hi
      have hno : ¬ fvar.isPrefixOf l = true :=
        fun h => hkey (honly l hline (List.isPrefixOf_iff_prefix.mp h))
      rw [readlines_saved hv hx, List.getElem?_map, hi, Option.map_some, saveLine, if_neg hno]

end Save

theorem saved_ssl : Saved (lit "TCOS_STANDALONE_START=1\nTCOS_XMLRPC_SSL=0\n") (lit "TCOS_XMLRPC_SSL")
    (lit "1") ↔ Fits (lit "TCOS_STANDALONE_START=1\nTCOS_XMLRPC_SSL=0\n") (lit "TCOS_XMLRPC_SSL") :=
  saved_iff (by with_unfolding_all decide) (by with_unfolding_all decide) (by with_unfolding_all decide)
    (by with_unfolding_all decide) _

/-- A file without the variable does not get it. -/
theorem absent_lost : ¬ Saved (lit "TCOS_STANDALONE_START=1\n") (lit "TCOS_XMLRPC_SSL") (lit "1") :=
  fun h => by
  have hread : readConf (saveConf (some (lit "TCOS_STANDALONE_START=1\n")) (lit "TCOS_XMLRPC_SSL")
    (lit "1") '=')
      (lit "TCOS_XMLRPC_SSL") 1 '=' = .ok none := by with_unfolding_all rfl
  rw [h.read] at hread
  exact absurd hread (by simp)

end Tcos.Standalone
