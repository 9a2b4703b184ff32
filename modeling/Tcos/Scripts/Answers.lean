import Tcos.Libc.Numbers
import Tcos.Shell.Echo
import Tcos.Xmlrpc.Common

/-! Answers of several lines: the loops of devicesctl.sh, soundctl.sh and getinfo.sh.

Each loop asks bin/seq for the numbers of the lines, reads the lines one by one and echoes each with
a separator behind it; tcos_devices returns what fits in its buffer. `lossless_iff` says which
answers get through all of them as they are. -/
namespace Tcos.Scripts.Answers
open Shell (Text lit lines unlines captured fields unwords isIfs isPattern isRaw isRaw_of_not_mem unescape
  echo_plain Sh)
open Libc (decimal)

/-! ### bin/seq -/

/-- `while [ $NUM -le $MAX ]`, for so many turns. -/
def count (sh : Sh) (inc max : Nat) : Nat → Nat → Text
  | 0, _ => []
  | turns + 1, num => if num ≤ max then sh.echo [decimal num] ++ count sh inc max turns (num + inc)
      else []

def countTo (sh : Sh) (num inc max : Nat) : Text :=
  if max > 100 ∨ max < 1 then sh.echo [lit "ERROR: Max number must be in 1-100"]
  else if inc < 1 then sh.echo [lit "ERROR: Increment must be big than 1"]
  else count sh inc max (max + 1 - num) num

def seq (sh : Sh) : List Nat → Text
  | [] => sh.echo [lit "TCOS seq number generator"] ++ sh.echo [[]] ++
      sh.echo [lit "Print numbers from FIRST to LAST, in steps of INCREMENT."] ++
      sh.echo [lit "Usage: seq LAST"] ++ sh.echo [lit "  or:  seq FIRST LAST"] ++
      sh.echo [lit "  or:  seq FIRST INCREMENT LAST"]
  | [num, max] => countTo sh num 1 max
  | [num, inc, max] => countTo sh num inc max
  | max :: _ => countTo sh 1 1 max

/-! ### The loops -/

/-- A text of digits. -/
def number (t : Text) : Option Nat :=
  if t = [] ∨ t.any (fun c => !c.isDigit) then none else some (Nat.ofDigitChars 10 t 0)

/-- `head -$1 $tmp_file | tail -1`. What is no number is no option of `head`. -/
def readLine (file i : Text) : Text := ((number i).bind fun n => ((lines file).take n).getLast?).getD []

/-- `$(seq 1 $num_lines)`, with `$num_lines` from `wc -l`. -/
def items (sh : Sh) (file : Text) : List Text := sh.expand (captured (seq sh [1, file.count '\n']))

/-- What each turn of the loop of devicesctl.sh prints. -/
def devicesctl (sh : Sh) (output tmpFile : Text) : List Text :=
  let output := if output = [] then lit "unknow" else output
  let tmpFile := if output = lit "tmp_file" then tmpFile else sh.echo [output]
  (items sh tmpFile).map fun i => sh.echo [lit "-n", readLine tmpFile i ++ ['|']]

/-- `get_contents` of soundctl.sh, of what the mixer printed. -/
def getContents (sh : Sh) (tmpfile : Text) : List Text :=
  (items sh tmpfile).map fun i => sh.echo [lit "-n", readLine tmpfile i ++ ['#']]

/-- `get_line` of getinfo.sh. -/
def getLine (sh : Sh) (psAux i : Text) : Text := sh.echo (sh.expand (readLine psAux i))

/-- The loop of `get_process`, of what ps printed. -/
def getProcess (sh : Sh) (psAux : Text) : List Text :=
  (items sh psAux).map fun i => sh.echo [lit "-n", captured (getLine sh psAux i) ++ ['|']]

/-- What tcos_devices returns of the output of devicesctl.sh. -/
def tcosDevices (stdout : Text) : Option Text :=
  Xmlrpc.reading Xmlrpc.bsize (lit "error: device action error.")
  (if stdout = [] then .silent else .line stdout)

/-! ### What is asked of them -/

structure Answer where
  lines : List Text
  some : lines ≠ []
  inLine : ∀ l ∈ lines, '\n' ∉ l

/-- `output=$(...)`, which drops empty lines at the end. -/
def Answer.output (a : Answer) : Text := captured (unlines a.lines)

/-- Each line and a separator behind it. -/
def Answer.marked (a : Answer) (separator : Char) : List Text := a.lines.map (· ++ [separator])

/-- No line is dropped, repeated or altered. -/
structure Lossless (sh : Sh) (a : Answer) : Prop where
  /-- From the temporary file. -/
  file : devicesctl sh (lit "tmp_file") (unlines a.lines) = a.marked '|'
  /-- From `$output`, whatever file was there before. -/
  output : ∀ old, devicesctl sh a.output old = a.marked '|'
  sound : getContents sh (unlines a.lines) = a.marked '#'
  process : getProcess sh (unlines a.lines) = a.marked '|'
  reply : tcosDevices (devicesctl sh (lit "tmp_file") (unlines a.lines)).flatten = some
    (a.marked '|').flatten

/-- The words of `echo $line` that are printed: files for the patterns they match, no options. -/
def printedWords (sh : Sh) (line : Text) : List Text :=
  (sh.expand line).drop (sh.options (sh.expand line)).length

/-- `echo $line` replaces backslash sequences. -/
def escapes (sh : Sh) (line : Text) : Bool := sh.escapes (sh.options (sh.expand line))

/-- No more lines than seq counts and no more bytes than the buffer has room for; no backslash
sequences where they are replaced; lines with single blanks between the words, which match no files
and are no options of `echo`; something on the last line, and no single line that is an option
or the name of the temporary file. -/
structure Plain (sh : Sh) (a : Answer) : Prop where
  count : a.lines.length ≤ 100
  size : (a.marked '|').flatten.length < Xmlrpc.bsize
  raw : ∀ l ∈ a.lines, escapes sh l = true → isRaw sh.more l = true
  blanks : ∀ l ∈ a.lines, unwords (fields l) = l
  words : ∀ l ∈ a.lines, printedWords sh l = fields l
  last : a.lines.getLast? ≠ some []
  single : ∀ w, a.lines = [w] → w ≠ lit "tmp_file" ∧ sh.isOption w = false

/-! ### Numbers -/

theorem number_decimal (n : Nat) : number (decimal n) = some n := by
  have hall : (Nat.toDigits 10 n).any (fun c => !c.isDigit) = false := by
    simpa using Libc.toDigits_digit n
  simp [number, Libc.decimal_nat, hall, Nat.toDigits_ne_nil, Nat.ofDigitChars_ten_toDigits]

theorem decimal_plain (n : Nat) : decimal n ≠ [] ∧ ∀ c ∈ decimal n, c.isDigit = true := by
  rw [Libc.decimal_nat]
  exact ⟨Nat.toDigits_ne_nil, Libc.toDigits_digit n⟩

theorem echo_decimal (sh : Sh) (n : Nat) : sh.echo [decimal n] = decimal n ++ ['\n'] := by
  have hno : ∀ c : Char, c.isDigit = false → c ∉ decimal n := by
    intro c hc
    rw [Libc.decimal_nat]
    exact Libc.not_mem_toDigits hc n
  exact echo_plain sh (hno _ (by decide)) fun h => hno '-' (by decide) (List.mem_of_mem_head? h)

theorem count_numbers (sh : Sh) (max turns num : Nat) (h : num + turns = max + 1) :
    count sh 1 max turns num = unlines ((List.range' num turns).map fun n : Nat => decimal n) := by
  induction turns generalizing num with
  | zero => rfl
  | succ turns ih =>
    rw [count, if_pos (by omega), echo_decimal, ih (num + 1) (by omega), List.range'_succ]
    simp [unlines]

/-! ### The turns of a loop -/

/-- The words of the error message. -/
def errorWords : List Text :=
  [lit "ERROR:", lit "Max", lit "number", lit "must", lit "be", lit "in", lit "1-100"]

theorem items_range (sh : Sh) (file : Text) : items sh file =
    if 1 ≤ file.count '\n' ∧ file.count '\n' ≤ 100 then (List.range' 1 (file.count '\n')).map fun n :
      Nat => decimal n
    else errorWords := by
  have hseq : seq sh [1, file.count '\n'] =
      if 1 ≤ file.count '\n' ∧ file.count '\n' ≤ 100 then
        unlines ((List.range' 1 (file.count '\n')).map fun n : Nat => decimal n)
      else lit "ERROR: Max number must be in 1-100" ++ ['\n'] := by
    rw [seq, countTo]
    by_cases h : 1 ≤ file.count '\n' ∧ file.count '\n' ≤ 100
    · rw [if_pos h, if_neg (by omega), if_neg (by omega)]
      exact count_numbers sh _ _ _ (by omega)
    · rw [if_neg h, if_pos (by omega)]
      exact echo_plain sh (by with_unfolding_all decide) (by with_unfolding_all decide)
  have hexpand : ∀ t : Text, (∀ c ∈ t, isPattern c = false) → sh.expand (captured t) = fields t := by
    intro t ht
    obtain ⟨k, hk⟩ := Shell.captured_newlines t
    rw [Sh.expand, Shell.expand_fields, Shell.fields_captured]
    exact fun c hc => ht c (by rw [hk]; exact List.mem_append_left _ hc)
  rw [items, hseq]
  split
  case isTrue =>
    have hdigits : ∀ w ∈ (List.range' 1 (file.count '\n')).map fun n : Nat => decimal n,
        w ≠ [] ∧ ∀ c ∈ w, c.isDigit = true := by
      intro w hw
      obtain ⟨n, -, rfl⟩ := List.mem_map.mp hw
      exact decimal_plain n
    have hno : ∀ c : Char, c.isDigit = true → isIfs c = false ∧ isPattern c = false := by
      intro c hc
      have hne : ∀ d : Char, d.isDigit = false → c ≠ d := by
        rintro d hd rfl
        rw [hc] at hd
        exact absurd hd (by simp)
      simp [isIfs, isPattern, hne ' ' (by decide), hne '\t' (by decide), hne '\n' (by decide),
        hne '*' (by decide), hne '?' (by decide), hne '[' (by decide)]
    rw [hexpand, Shell.fields_unlines fun w hw =>
      ⟨(hdigits w hw).1, fun c hc => (hno c ((hdigits w hw).2 c hc)).1⟩]
    intro c hc
    obtain ⟨w, hw, hcw⟩ := List.mem_flatMap.mp hc
    rcases List.mem_append.mp hcw with hcw | hcw
    · exact (hno c ((hdigits w hw).2 c hcw)).2
    · rw [List.mem_singleton.mp hcw]
      rfl
  case isFalse =>
    rw [hexpand _ (Shell.each (by with_unfolding_all decide))]
    with_unfolding_all decide

theorem take_lines {α : Type} (l : List α) (d : α) {n : Nat} (hn : n ≤ l.length) :
    (List.range' 1 n).map (fun i => ((l.take i).getLast?).getD d) = l.take n := by
  refine List.ext_getElem (by simp [hn]) fun i h1 h2 => ?_
  have hi : i < n := by simpa using h1
  have hlast : (l.take (1 + i)).getLast? = l[i]? := by
    rw [List.getLast?_take, if_neg (by omega)]
    simp [show i < l.length by omega]
  simp [hlast, show i < l.length by omega]

theorem readLine_decimal (file : Text) (n : Nat) :
    readLine file (decimal n) = (((lines file).take n).getLast?).getD [] := by
  rw [readLine, number_decimal]
  rfl

theorem count_unlines {ls : List Text} (h : ∀ l ∈ ls, '\n' ∉ l) : (unlines ls).count '\n' = ls.length := by
  induction ls with
  | nil => rfl
  | cons l ls ih =>
    rw [List.forall_mem_cons] at h
    have hform : unlines (l :: ls) = l ++ '\n' :: unlines ls := by simp [unlines]
    rw [hform, List.count_append, List.count_cons_self, ih h.2, List.count_eq_zero.mpr h.1]
    simp

/-- **The lines that the turns of a loop read.** -/
theorem looped (sh : Sh) (file : Text) : (items sh file).map (readLine file) =
    if 1 ≤ file.count '\n' ∧ file.count '\n' ≤ 100 then (lines file).take (file.count '\n')
    else List.replicate 7 [] := by
  rw [items_range]
  split
  case isTrue =>
    rw [List.map_map, ← take_lines (lines file) [] (Shell.lines_length file)]
    exact List.map_congr_left fun n _ => readLine_decimal file n
  case isFalse =>
    have hwords : ∀ w ∈ errorWords, number w = none := by with_unfolding_all decide
    have hread : ∀ w ∈ errorWords, readLine file w = [] := by
      intro w hw
      rw [readLine, hwords w hw]
      rfl
    rw [List.map_congr_left hread]
    rfl

theorem looped_answer (sh : Sh) (a : Answer) : (items sh (unlines a.lines)).map
    (readLine (unlines a.lines)) =
    if a.lines.length ≤ 100 then a.lines else List.replicate 7 [] := by
  have hpos := List.length_pos_iff.mpr a.some
  rw [looped, count_unlines a.inLine, Shell.lines_unlines a.inLine]
  by_cases h : a.lines.length ≤ 100
  · rw [if_pos ⟨hpos, h⟩, if_pos h, List.take_length]
  · rw [if_neg (by omega), if_neg h]

/-- A loop that prints `say` of each line. -/
theorem turns_iff (sh : Sh) (a : Answer) (separator : Char) (say : Text → Text) :
    ((items sh (unlines a.lines)).map fun i => say (readLine (unlines a.lines) i)) = a.marked separator ↔
      a.lines.length ≤ 100 ∧ ∀ l ∈ a.lines, say l = l ++ [separator] := by
  have hturns : ((items sh (unlines a.lines)).map fun i => say (readLine (unlines a.lines) i)) =
      (if a.lines.length ≤ 100 then a.lines else List.replicate 7 []).map say := by
    rw [← looped_answer, List.map_map]
    rfl
  rw [hturns, Answer.marked]
  split
  case isTrue h => simp [h, List.map_inj_left]
  case isFalse h =>
    refine iff_of_false (fun heq => h ?_) fun hno => h hno.1
    have hlen := congrArg List.length heq
    simp only [List.length_map, List.length_replicate] at hlen
    omega

/-! ### Lines -/

theorem isOption_marked {c : Char} (hc : c ≠ 'n' ∧ c ≠ 'e' ∧ c ≠ 'E') (l : Text) : Shell.isOption
    (l ++ [c]) = false := by
  cases l with
  | nil =>
    unfold Shell.isOption
    split <;> simp_all
  | cons d l =>
    unfold Shell.isOption
    split
    case h_1 t heq =>
      obtain ⟨-, rfl⟩ := List.cons.inj heq
      simp [hc]
    case h_2 => rfl

theorem marker_plain :
    Char.isAlphanum '|' = false ∧ '|' ≠ '\\' ∧ '|' ≠ 'n' ∧ '|' ≠ 'e' ∧ '|' ≠ 'E' := by
  decide

/-- **A line and its separator, after `-n`.** -/
theorem echo_marked_iff (sh : Sh) {c : Char}
    (hc : c.isAlphanum = false ∧ c ≠ '\\' ∧ c ≠ 'n' ∧ c ≠ 'e' ∧ c ≠ 'E')
    (l : Text) : sh.echo [lit "-n", l ++ [c]] = l ++ [c] ↔ (sh.xsi = true → isRaw sh.more l = true) := by
  rw [Shell.echo_quiet sh (isOption_marked hc.2.2 l), Shell.print_iff, Shell.isRaw_append hc.1 hc.2.1]
  simp [isRaw]

section Raw
variable {E : Shell.Escapes}

theorem isRaw_pieces {s : Text} (h : isRaw E s = true) : ∀ w ∈ s.splitOnP isIfs, isRaw E w = true := by
  suffices (∀ w ∈ s.splitOnP isIfs, isRaw E w = true) ∧
      ∀ u us, s.splitOnP isIfs = u :: us → u <+: s from this.1
  induction s with
  | nil => simp [isRaw]
  | cons c s ih =>
    have hrest : isRaw E s = true := by
      rw [isRaw, Bool.and_eq_true] at h
      exact h.2
    obtain ⟨hpieces, hfirst⟩ := ih hrest
    rw [List.splitOnP_cons_eq_if_modifyHead]
    split
    case isTrue =>
      refine ⟨List.forall_mem_cons.mpr ⟨rfl, hpieces⟩, fun u us hu => ?_⟩
      rw [← (List.cons.inj hu).1]
      exact List.nil_prefix
    case isFalse =>
      cases hs : s.splitOnP isIfs with
      | nil => exact absurd hs (List.splitOnP_ne_nil _ _)
      | cons u us =>
        have hprefix : c :: u <+: c :: s := (List.prefix_cons_inj c).mpr (hfirst u us hs)
        rw [hs, List.forall_mem_cons] at hpieces
        rw [List.modifyHead_cons]
        refine ⟨List.forall_mem_cons.mpr ⟨?_, hpieces.2⟩, fun v vs hv => ?_⟩
        · obtain ⟨t, ht⟩ := hprefix
          rw [← ht] at h
          exact Shell.isRaw_left h
        · rwa [← (List.cons.inj hv).1]

theorem isRaw_unwords {ws : List Text} (h : ∀ w ∈ ws, isRaw E w = true) : isRaw E (unwords ws) = true := by
  induction ws with
  | nil => rfl
  | cons w ws ih =>
    rw [List.forall_mem_cons] at h
    rw [Shell.unwords_cons]
    split
    case isTrue => simpa using h.1
    case isFalse => rw [Shell.isRaw_append (by decide) (by decide), h.1, ih h.2]; rfl

end Raw

/-- The words of a line without sequences have none. -/
theorem isRaw_expand (sh : Sh) {l : Text} (h : isRaw sh.more l = true) :
    ∀ w ∈ sh.expand l, isRaw sh.more w = true := by
  have hfields : ∀ w ∈ fields l, isRaw sh.more w = true :=
    fun w hw => isRaw_pieces h w (List.mem_filter.mp hw).1
  intro w hw
  rcases Shell.mem_expand hw with ⟨hw, -⟩ | ⟨v, hv, hw⟩
  · exact hfields w hw
  · rcases sh.names v w hw with rfl | ⟨hname, -⟩
    · exact hfields w hv
    · exact isRaw_of_not_mem fun hslash => (hname _ hslash).2 rfl

/-- **`echo -n "$(echo $line)|"`.** -/
theorem echo_twice_iff (sh : Sh) {l : Text} (h : sh.xsi = true → isRaw sh.more l = true) :
    sh.echo [lit "-n", captured (sh.echo (sh.expand l)) ++ ['|']] = l ++ ['|'] ↔
      captured (sh.echo (sh.expand l)) = l := by
  have hsame : sh.echo [lit "-n", captured (sh.echo (sh.expand l)) ++ ['|']] =
      captured (sh.echo (sh.expand l)) ++ ['|'] := by
    refine (echo_marked_iff sh marker_plain _).mpr fun hxsi => ?_
    have hwords : isRaw sh.more (unwords ((sh.expand l).drop (sh.options (sh.expand l)).length)) = true :=
      isRaw_unwords fun w hw => isRaw_expand sh (h hxsi) w (List.mem_of_mem_drop hw)
    have hecho : isRaw sh.more (sh.echo (sh.expand l)) = true := by
      have hbreak : ∀ t : Text, isRaw sh.more t = true → isRaw sh.more (t ++ ['\n']) = true := by
        intro t ht
        rw [Shell.isRaw_append (by decide) (by decide), ht]
        rfl
      rw [Sh.echo]
      generalize unwords ((sh.expand l).drop (sh.options (sh.expand l)).length) = t at hwords
      have hline : isRaw sh.more (t ++ if (sh.options (sh.expand l)).any fun w => 'n' ∈ w then []
        else ['\n']) = true := by
        split
        · simpa using hwords
        · exact hbreak t hwords
      rw [Shell.unescape_raw hline, ite_self]
      exact hline
    obtain ⟨k, hk⟩ := Shell.captured_newlines (sh.echo (sh.expand l))
    rw [hk] at hecho
    exact Shell.isRaw_left hecho
  rw [hsame]
  simp

/-! ### The answer in a variable -/

theorem output_unlines {ls : List Text} (hne : ls ≠ []) :
    ['\n'].intercalate ls ++ ['\n'] = unlines ls := by
  induction ls with
  | nil => exact absurd rfl hne
  | cons l ls ih =>
    cases ls with
    | nil => simp [unlines]
    | cons k ls =>
      rw [List.intercalate_cons_cons, List.append_assoc, ih (by simp)]
      simp [unlines]

/-- Empty lines at the end are lost, and nothing else. -/
theorem captured_unlines {ls : List Text} (h : ∀ l ∈ ls, '\n' ∉ l) :
    captured (unlines ls) = ['\n'].intercalate (ls.rdropWhile List.isEmpty) := by
  induction ls using List.reverseRecOn with
  | nil => rfl
  | append_singleton ls l ih =>
    have hform : unlines (ls ++ [l]) = unlines ls ++ (l ++ ['\n']) := by simp [unlines]
    cases l with
    | nil =>
      have hdrop : captured (unlines ls ++ ['\n']) = captured (unlines ls) := by simp [captured]
      rw [hform, List.nil_append, hdrop, ih fun l hl => h l (List.mem_append_left _ hl),
        List.rdropWhile_concat_pos _ _ _ rfl]
    | cons c l =>
      have hlines := output_unlines (by simp : ls ++ [c :: l] ≠ [])
      rw [hform, ← List.append_assoc] at hlines
      rw [hform, Shell.captured_append _ (by simp) (h _ (by simp)), ← List.append_cancel_right hlines,
        List.rdropWhile_concat_neg _ _ _ (by simp)]

theorem rdropWhile_of_last {ls : List Text} (h : ls.getLast? ≠ some []) :
    ls.rdropWhile List.isEmpty = ls := by
  rw [List.rdropWhile_eq_self_iff]
  intro hne hempty
  rw [List.getLast?_eq_some_getLast hne, List.isEmpty_iff.mp hempty] at h
  exact h rfl

/-- A text without newlines is the answer of this one line. -/
theorem intercalate_eq_iff {ls : List Text} (hne : ls ≠ []) (hline : ∀ l ∈ ls, '\n' ∉ l) {w : Text}
    (hw : '\n' ∉ w) : ['\n'].intercalate ls = w ↔ ls = [w] := by
  constructor
  · intro h
    have hlines : lines (['\n'].intercalate ls ++ ['\n']) = ls := by
      rw [output_unlines hne, Shell.lines_unlines hline]
    rw [← hlines, h]
    exact Shell.lines_cons hw []
  · intro h
    simp [h]

/-- An option alone is not printed. -/
theorem echo_option (sh : Sh) {w : Text} (h : sh.isOption w = true) : sh.echo [w] = [] ∨
    sh.echo [w] = ['\n'] := by
  have hoptions : sh.options [w] = [w] := by
    unfold Sh.isOption at h
    unfold Sh.options
    split at h <;> simp_all
  have hnone : unwords ([w].drop [w].length) = [] := rfl
  rw [Sh.echo, hoptions, hnone]
  split <;> split <;> simp [Shell.unescape, Shell.Escapes.opens]

/-- The turns of the loop of devicesctl.sh, of a variable that is not empty. -/
theorem devicesctl_turns (sh : Sh) (output old : Text) (hne : output ≠ []) {file : Text}
    (hfile : (if output = lit "tmp_file" then old else sh.echo [output]) = file) :
    devicesctl sh output old =
      ((items sh file).map (readLine file)).map fun line => sh.echo [lit "-n", line ++ ['|']] := by
  rw [devicesctl, if_neg hne, hfile, List.map_map]
  rfl

theorem isRaw_unlines {E : Shell.Escapes} {ls : List Text} (h : ∀ l ∈ ls, isRaw E l = true) :
    isRaw E (unlines ls) = true := by
  induction ls with
  | nil => rfl
  | cons l ls ih =>
    rw [List.forall_mem_cons] at h
    have hform : unlines (l :: ls) = l ++ '\n' :: unlines ls := by simp [unlines]
    rw [hform, Shell.isRaw_append (by decide) (by decide), h.1, ih h.2]
    rfl

/-- No output at all is answered as one line. -/
theorem devicesctl_none (sh : Sh) : devicesctl sh [] [] = [lit "unknow" ++ ['|']] := by
  have hlit : lit "unknow" ≠ [] ∧ lit "unknow" ≠ lit "tmp_file" := by with_unfolding_all decide
  have hunknow : devicesctl sh [] [] = devicesctl sh (lit "unknow") [] := by
    rw [devicesctl, devicesctl, if_pos rfl, if_neg hlit.1]
  have hecho : sh.echo [lit "unknow"] = lit "unknow" ++ ['\n'] :=
    echo_plain sh (by with_unfolding_all decide) (by with_unfolding_all decide)
  have hread : (items sh (lit "unknow" ++ ['\n'])).map (readLine (lit "unknow" ++ ['\n'])) =
    [lit "unknow"] := by
    rw [looped]
    with_unfolding_all decide
  have hsay := (echo_marked_iff sh marker_plain (lit "unknow")).mpr fun _ =>
    isRaw_of_not_mem (by with_unfolding_all decide)
  rw [hunknow, devicesctl_turns sh (lit "unknow") [] hlit.1 ((if_neg hlit.2).trans hecho), hread,
    List.map_singleton, hsay]

/-- A single line that is answered as it is first. -/
theorem single_of_head (sh : Sh) {w : Text}
    (h : ∀ old, (devicesctl sh w old).head? = some (w ++ ['|'])) :
    w ≠ [] ∧ w ≠ lit "tmp_file" ∧ sh.isOption w = false := by
  have hnone : (items sh []).map (readLine []) = List.replicate 7 [] := by rw [looped, if_neg (by simp)]
  have hsay := (echo_marked_iff sh marker_plain []).mpr fun _ => rfl
  have hone := h []
  have hsome : w ≠ [] := by
    rintro rfl
    rw [devicesctl_none] at hone
    exact absurd hone (by with_unfolding_all decide)
  -- every turn prints a separator alone
  have hsilent : ∀ ls : List Text, ls.head? = some [] →
      (ls.map fun line => sh.echo [lit "-n", line ++ ['|']]).head? ≠ some (w ++ ['|']) := by
    intro ls hls heq
    rw [List.head?_map, hls, Option.map_some, hsay, Option.some_inj] at heq
    exact hsome (by simpa using heq.symm)
  have htmp : w ≠ lit "tmp_file" := by
    intro heq
    rw [devicesctl_turns sh w [] hsome (if_pos heq), hnone] at hone
    exact hsilent _ (by simp) hone
  refine ⟨hsome, htmp, ?_⟩
  by_contra hopt
  rw [Bool.not_eq_false] at hopt
  rw [devicesctl_turns sh w [] hsome (if_neg htmp)] at hone
  -- an option prints nothing, or the line break alone
  rcases echo_option sh hopt with hnil | hline
  · rw [hnil, hnone] at hone
    exact hsilent _ (by simp) hone
  · have hread : (items sh ['\n']).map (readLine ['\n']) = [[]] := by
      rw [looped]
      decide
    rw [hline, hread] at hone
    exact hsilent _ rfl hone

/-- **From a variable.** -/
theorem devicesctl_lines (sh : Sh) (a : Answer) (hcount : a.lines.length ≤ 100)
    (hraw : sh.xsi = true → ∀ l ∈ a.lines, isRaw sh.more l = true)
    (hsingle : ∀ w, a.lines = [w] → w ≠ [] ∧ w ≠ lit "tmp_file" ∧ sh.isOption w = false) (old : Text) :
    devicesctl sh (['\n'].intercalate a.lines) old = a.marked '|' := by
  have hword : ∀ w, '\n' ∉ w → ['\n'].intercalate a.lines = w →
      w ≠ [] ∧ w ≠ lit "tmp_file" ∧ sh.isOption w = false :=
    fun w hw heq => hsingle w ((intercalate_eq_iff a.some a.inLine hw).mp heq)
  have hsome : ['\n'].intercalate a.lines ≠ [] := fun hnil => (hword [] (by simp) hnil).1 rfl
  have htmp : ['\n'].intercalate a.lines ≠ lit "tmp_file" :=
    fun heq => (hword _ (by with_unfolding_all decide) heq).2.1 rfl
  have hopt : ∀ w, [['\n'].intercalate a.lines].head? = some w → sh.isOption w = false := by
    rintro w hw
    obtain rfl : ['\n'].intercalate a.lines = w := by simpa using hw
    by_cases hbreak : '\n' ∈ ['\n'].intercalate a.lines
    · exact sh.isOption_of_mem (by decide) hbreak
    · exact (hword _ hbreak rfl).2.2
  have hfile : sh.echo [['\n'].intercalate a.lines] = unlines a.lines := by
    have hline : unwords [['\n'].intercalate a.lines] ++ ['\n'] = unlines a.lines := by
      rw [← output_unlines a.some]
      simp [unwords]
    rw [Shell.echo_words sh hopt, hline, Shell.print_iff]
    exact fun hxsi => isRaw_unlines (hraw hxsi)
  rw [devicesctl_turns sh _ old hsome ((if_neg htmp).trans hfile), List.map_map]
  exact (turns_iff sh a '|' fun line => sh.echo [lit "-n", line ++ ['|']]).mpr
    ⟨hcount, fun l hl => (echo_marked_iff sh marker_plain l).mpr fun hxsi => hraw hxsi l hl⟩

/-- **From a variable, if the lines come through from the file.** -/
theorem output_iff (sh : Sh) (a : Answer) (hcount : a.lines.length ≤ 100)
    (hraw : sh.xsi = true → ∀ l ∈ a.lines, isRaw sh.more l = true) :
    (∀ old, devicesctl sh a.output old = a.marked '|') ↔
      a.lines.getLast? ≠ some [] ∧ ∀ w, a.lines = [w] → w ≠ lit "tmp_file" ∧ sh.isOption w = false := by
  have houtput : a.output = ['\n'].intercalate (a.lines.rdropWhile List.isEmpty) :=
    captured_unlines a.inLine
  constructor
  · intro h
    have hpart : a.lines.rdropWhile List.isEmpty <+: a.lines := List.rdropWhile_prefix _ _
    obtain ⟨w, ls, hls⟩ := List.exists_cons_of_ne_nil a.some
    have hhead : ∀ old, (devicesctl sh a.output old).head? = some (w ++ ['|']) := by
      intro old
      rw [h old, Answer.marked, hls]
      rfl
    have hsome : a.lines.rdropWhile List.isEmpty ≠ [] := by
      intro hnil
      obtain rfl : w = [] := by simpa using List.rdropWhile_eq_nil_iff.mp hnil w (by simp [hls])
      rw [houtput, hnil] at hhead
      exact (single_of_head sh hhead).1 rfl
    let kept : Answer := ⟨_, hsome, fun l hl => a.inLine l (hpart.subset hl)⟩
    have hsingle : ∀ v, kept.lines = [v] → v ≠ [] ∧ v ≠ lit "tmp_file" ∧ sh.isOption v = false := by
      intro v hv
      obtain rfl : v = w := by
        obtain ⟨t, ht⟩ := hpart
        have hcons : [v] ++ t = w :: ls := by rw [← hls, ← ht, ← hv]
        exact (List.cons.inj hcons).1
      rw [houtput, show a.lines.rdropWhile List.isEmpty = [v] from hv] at hhead
      exact single_of_head sh (by simpa using hhead)
    have hkept : kept.lines = a.lines := by
      have hmarked : kept.marked '|' = a.marked '|' := by
        rw [← h [], houtput]
        exact (devicesctl_lines sh kept (hpart.length_le.trans hcount)
          (fun hxsi l hl => hraw hxsi l (hpart.subset hl)) hsingle []).symm
      exact hpart.eq_of_length (by simpa [Answer.marked] using congrArg List.length hmarked)
    refine ⟨fun hlast => ?_, fun v hv => (hsingle v (hkept.trans hv)).2⟩
    obtain ⟨init, hinit⟩ := List.getLast?_eq_some_iff.mp hlast
    have hfewer := congrArg List.length hkept
    rw [show kept.lines = a.lines.rdropWhile List.isEmpty from rfl, hinit,
      List.rdropWhile_concat_pos _ _ _ rfl] at hfewer
    have hle := (List.rdropWhile_prefix List.isEmpty init).length_le
    simp only [List.length_append, List.length_singleton] at hfewer
    omega
  · rintro ⟨hlast, hsingle⟩ old
    rw [houtput, rdropWhile_of_last hlast]
    refine devicesctl_lines sh a hcount hraw (fun w hw => ⟨?_, hsingle w hw⟩) old
    rintro rfl
    exact hlast (by simp [hw])

/-! ### The reply -/

theorem reply_iff {stdout : Text} (hne : stdout ≠ []) (hbreak : '\n' ∉ stdout) :
    tcosDevices stdout = some stdout ↔ stdout.length < Xmlrpc.bsize := by
  have hfirst : Libc.firstLine stdout = stdout := by
    have hstart := Libc.firstLine_starts stdout
    have hwhole : ∀ s : Text, '\n' ∉ s → (Libc.firstLine s).length = s.length := by
      intro s hs
      induction s with
      | nil => rfl
      | cons c s ih =>
        obtain ⟨hc, hs⟩ := not_or.mp (List.mem_cons.not.mp hs)
        rw [Libc.firstLine, if_neg (Ne.symm hc), List.length_cons, ih hs, List.length_cons]
    exact hstart.eq_of_length (hwhole stdout hbreak)
  have hkept : Libc.removeLineBreak (Libc.cut Xmlrpc.bsize stdout) = Libc.cut Xmlrpc.bsize stdout := by
    rw [Libc.removeLineBreak, List.takeWhile_eq_self_iff]
    intro c hc
    have hmem : c ∈ stdout := List.mem_of_mem_take hc
    rw [decide_eq_true_eq]
    rintro rfl
    exact hbreak hmem
  rw [tcosDevices, if_neg hne, Xmlrpc.reading, Libc.fgets, hfirst, hkept, Option.some_inj]
  refine ⟨fun h => ?_, Libc.cut_of_fits⟩
  have hlen := Libc.cut_length Xmlrpc.bsize stdout
  rw [h] at hlen
  have hpos : 0 < Xmlrpc.bsize := by decide
  omega

/-- The reply is one line, and not empty. -/
theorem marked_flatten (a : Answer) : (a.marked '|').flatten ≠ [] ∧ '\n' ∉ (a.marked '|').flatten := by
  constructor
  · obtain ⟨l, ls, hls⟩ := List.exists_cons_of_ne_nil a.some
    simp [Answer.marked, hls]
  · intro h
    obtain ⟨t, ht, hn⟩ := List.mem_flatten.mp h
    obtain ⟨l, hl, rfl⟩ := List.mem_map.mp ht
    exact a.inLine l hl (by simpa using hn)

/-! ### Lines that `echo` keeps -/

/-- The words of a line are words. -/
theorem expand_solid (sh : Sh) (l : Text) : ∀ w ∈ sh.expand l, w ≠ [] ∧ ∀ c ∈ w, isIfs c = false := by
  intro w hw
  rcases Shell.mem_expand hw with ⟨hw, -⟩ | ⟨v, hv, hw⟩
  · exact ⟨(Shell.mem_fields hw).1, (Shell.mem_fields hw).2.1⟩
  · rcases sh.names v w hw with rfl | ⟨hname, hne⟩
    · exact ⟨(Shell.mem_fields hv).1, (Shell.mem_fields hv).2.1⟩
    · exact ⟨hne, fun c hc => (hname c hc).1⟩

theorem unwords_inLine {ws : List Text} (h : ∀ w ∈ ws, w ≠ [] ∧ ∀ c ∈ w, isIfs c = false) :
    '\n' ∉ unwords ws := by
  intro hmem
  obtain ⟨w, hw, hbreak⟩ := Shell.mem_intercalate hmem (by decide)
  exact absurd ((h w hw).2 _ hbreak) (by decide)

theorem not_isRaw_mem {E : Shell.Escapes} {w : Text} (h : isRaw E w = false) : '\\' ∈ w := by
  by_contra hno
  rw [isRaw_of_not_mem hno] at h
  exact absurd h (by simp)

/-- A field of replaced words is one of a word that was replaced. -/
theorem fields_unescape {E : Shell.Escapes} {ws : List Text} {f : Text}
    (hf : f ∈ fields (unescape E 0 (unwords ws))) : ∃ w ∈ ws, f ∈ fields (unescape E 0 w) := by
  induction ws with
  | nil => exact absurd hf (by simp [unwords, unescape, fields])
  | cons w ws ih =>
    rw [Shell.unwords_cons] at hf
    split at hf
    case isTrue => exact ⟨w, by simp, by simpa using hf⟩
    case isFalse =>
      rcases Shell.unescape_append (c := ' ') (by decide) (by decide) 0 w (unwords ws)
        (Nat.zero_le _) with h | h
      · rw [h] at hf
        exact ⟨w, by simp, hf⟩
      · rw [h, Shell.fields_split (by decide), List.mem_append] at hf
        rcases hf with hf | hf
        · exact ⟨w, by simp, hf⟩
        · obtain ⟨v, hv, hfv⟩ := ih hf
          exact ⟨v, List.mem_cons_of_mem _ hv, hfv⟩

/-- A line that is read back as it was printed had no sequences: the longest of its fields with one
would come from a longer one. -/
theorem isRaw_of_fields (sh : Sh) {l : Text}
    (h : ∀ f ∈ fields l, f ∈ fields (unescape sh.more 0 (unwords (printedWords sh l)))) :
    ∀ w ∈ printedWords sh l, isRaw sh.more w = true := by
  have hfields : ∀ w ∈ printedWords sh l, isRaw sh.more w = false → w ∈ fields l := by
    intro w hw hseq
    rcases Shell.mem_expand (List.mem_of_mem_drop hw) with ⟨hw, -⟩ | ⟨v, hv, hw⟩
    · exact hw
    · rcases sh.names v w hw with rfl | ⟨hname, -⟩
      · exact hv
      · exact absurd rfl (hname _ (not_isRaw_mem hseq)).2
  have hlonger : ∀ f ∈ fields l, isRaw sh.more f = false → ∃ w ∈ fields l, isRaw sh.more w = false ∧ f.length < w.length := by
    intro f hf hseq
    obtain ⟨w, hw, hfw⟩ := fields_unescape (h f hf)
    have hwseq : isRaw sh.more w = false := by
      by_contra hraw
      rw [Bool.not_eq_false] at hraw
      rw [Shell.unescape_raw hraw] at hfw
      rw [isRaw_pieces hraw f (List.mem_filter.mp hfw).1] at hseq
      exact absurd hseq (by simp)
    exact ⟨w, hfields w hw hwseq, hwseq,
      (Shell.mem_fields hfw).2.2.length_le.trans_lt (Shell.unescape_shorter hwseq)⟩
  intro w hw
  by_contra hseq
  rw [Bool.not_eq_true] at hseq
  have hever : ∀ n, ∃ f ∈ fields l, isRaw sh.more f = false ∧ n ≤ f.length := by
    intro n
    induction n with
    | zero => exact ⟨w, hfields w hw hseq, hseq, Nat.zero_le _⟩
    | succ n ih =>
      obtain ⟨f, hf, hfseq, hlen⟩ := ih
      obtain ⟨v, hv, hvseq, hmore⟩ := hlonger f hf hfseq
      exact ⟨v, hv, hvseq, by omega⟩
  obtain ⟨f, hf, -, hlen⟩ := hever (l.length + 1)
  have hle := (Shell.mem_fields hf).2.2.length_le
  omega

/-- The line break, if it is printed. -/
theorem captured_break {t e : Text} (ht : '\n' ∉ t) (he : e = [] ∨ e = ['\n']) : captured (t ++ e) = t := by
  rcases he with rfl | rfl
  · rw [List.append_nil]
    exact List.rdropWhile_eq_self_iff.mpr fun hne hlast =>
      ht (beq_iff_eq.mp hlast ▸ List.getLast_mem hne)
  · exact Shell.captured_line ht

/-- **Lines that are printed as they are: single blanks between the words, and the words printed
are theirs.** -/
theorem same_iff (sh : Sh) (l : Text) : captured (sh.echo (sh.expand l)) = l ↔
    unwords (fields l) = l ∧ printedWords sh l = fields l ∧ (escapes sh l = true → isRaw sh.more l = true) := by
  have hsolid : ∀ w ∈ printedWords sh l, w ≠ [] ∧ ∀ c ∈ w, isIfs c = false :=
    fun w hw => expand_solid sh l w (List.mem_of_mem_drop hw)
  obtain ⟨e, he, hecho⟩ : ∃ e : Text, (e = [] ∨ e = ['\n']) ∧ sh.echo (sh.expand l) =
      if escapes sh l then unescape sh.more 0 (unwords (printedWords sh l) ++ e)
      else unwords (printedWords sh l) ++ e := by
    refine ⟨_, ?_, rfl⟩
    split
    · exact .inl rfl
    · exact .inr rfl
  have hcaptured : captured (unwords (printedWords sh l) ++ e) = unwords (printedWords sh l) :=
    captured_break (unwords_inLine hsolid) he
  have hsay : escapes sh l = false ∨ isRaw sh.more (unwords (printedWords sh l)) = true →
      captured (sh.echo (sh.expand l)) = unwords (printedWords sh l) := by
    intro h
    rw [hecho]
    split
    case isTrue hescapes =>
      have hwords := h.resolve_left (by simp [hescapes])
      have hline : isRaw sh.more (unwords (printedWords sh l) ++ e) = true := by
        rcases he with rfl | rfl
        · simpa using hwords
        · rw [Shell.isRaw_append (by decide) (by decide), hwords]
          rfl
      rw [Shell.unescape_raw hline, hcaptured]
    case isFalse => exact hcaptured
  constructor
  · intro h
    have hwords : escapes sh l = false ∨ isRaw sh.more (unwords (printedWords sh l)) = true := by
      refine or_iff_not_imp_left.mpr fun hescapes => isRaw_unwords (isRaw_of_fields sh fun f hf => ?_)
      rw [Bool.not_eq_false] at hescapes
      rw [hecho, hescapes, if_pos rfl] at h
      rw [← h, Shell.fields_captured] at hf
      rcases he with rfl | rfl
      · simpa using hf
      · rcases Shell.unescape_append (c := '\n') (by decide) (by decide) 0
          (unwords (printedWords sh l)) [] (Nat.zero_le _) with hend | hend
        · rwa [hend] at hf
        · rw [hend, Shell.fields_split (by decide)] at hf
          have hnil : fields [] = [] := rfl
          simpa [unescape, hnil] using hf
    have hline : unwords (printedWords sh l) = l := (hsay hwords).symm.trans h
    have hfields : fields l = printedWords sh l := by
      conv_lhs => rw [← hline]
      exact Shell.fields_unwords hsolid
    refine ⟨by rw [hfields, hline], hfields.symm, fun hescapes => ?_⟩
    rw [← hline]
    exact hwords.resolve_left (by simp [hescapes])
  · rintro ⟨hblanks, hwords, hseq⟩
    have hline : unwords (printedWords sh l) = l := by rw [hwords, hblanks]
    rw [hsay, hline]
    rw [hline]
    cases hescapes : escapes sh l with
    | false => exact .inl rfl
    | true => exact .inr (hseq hescapes)

/-- **Exactly these answers get through as they are.** -/
theorem lossless_iff (sh : Sh) (a : Answer) : Lossless sh a ↔ Plain sh a := by
  have hhash : Char.isAlphanum '#' = false ∧ '#' ≠ '\\' ∧ '#' ≠ 'n' ∧ '#' ≠ 'e' ∧ '#' ≠ 'E' := by decide
  have hfile : devicesctl sh (lit "tmp_file") (unlines a.lines) = a.marked '|' ↔
      a.lines.length ≤ 100 ∧ (sh.xsi = true → ∀ l ∈ a.lines, isRaw sh.more l = true) := by
    have hlit : lit "tmp_file" ≠ [] := by with_unfolding_all decide
    rw [devicesctl, if_neg hlit, if_pos rfl]
    refine (turns_iff sh a '|' fun line => sh.echo [lit "-n", line ++ ['|']]).trans
      (and_congr_right fun _ => ?_)
    exact ⟨fun h hxsi l hl => (echo_marked_iff sh marker_plain l).mp (h l hl) hxsi,
      fun h l hl => (echo_marked_iff sh marker_plain l).mpr fun hxsi => h hxsi l hl⟩
  constructor
  · intro h
    obtain ⟨hcount, hraw⟩ := hfile.mp h.file
    have hprocess := ((turns_iff sh a '|' fun line =>
      sh.echo [lit "-n", captured (sh.echo (sh.expand line)) ++ ['|']]).mp h.process).2
    have hsame := fun l hl => (same_iff sh l).mp
      ((echo_twice_iff sh fun hxsi => hraw hxsi l hl).mp (hprocess l hl))
    obtain ⟨hlast, hsingle⟩ := (output_iff sh a hcount hraw).mp h.output
    refine ⟨hcount, ?_, fun l hl => (hsame l hl).2.2, fun l hl => (hsame l hl).1,
      fun l hl => (hsame l hl).2.1, hlast, hsingle⟩
    have hreply := h.reply
    rw [h.file] at hreply
    exact (reply_iff (marked_flatten a).1 (marked_flatten a).2).mp hreply
  · intro h
    have hraw : sh.xsi = true → ∀ l ∈ a.lines, isRaw sh.more l = true := fun hxsi l hl =>
      h.raw l hl (by simp [escapes, Sh.escapes, hxsi])
    have hsaid := hfile.mpr ⟨h.count, hraw⟩
    refine ⟨hsaid, (output_iff sh a h.count hraw).mpr ⟨h.last, h.single⟩, ?_, ?_, ?_⟩
    · exact (turns_iff sh a '#' fun line => sh.echo [lit "-n", line ++ ['#']]).mpr
        ⟨h.count, fun l hl => (echo_marked_iff sh hhash l).mpr fun hxsi => hraw hxsi l hl⟩
    · exact (turns_iff sh a '|' fun line =>
        sh.echo [lit "-n", captured (sh.echo (sh.expand line)) ++ ['|']]).mpr
        ⟨h.count, fun l hl => (echo_twice_iff sh fun hxsi => hraw hxsi l hl).mpr
          ((same_iff sh l).mpr ⟨h.blanks l hl, h.words l hl, h.raw l hl⟩)⟩
    · rw [hsaid]
      exact (reply_iff (marked_flatten a).1 (marked_flatten a).2).mpr h.size

/-! ### A shell -/

/-- In a directory without files. -/
def plainSh : Sh where
  xsi := true
  more := .dash
  glob w := [w]
  names _ _ hv := .inl (List.mem_singleton.mp hv)

/-- One line more than seq counts. -/
def events : Answer where
  lines := List.replicate 101 (lit "sda1")
  some := by simp
  inLine l hl := by
    rw [List.eq_of_mem_replicate hl]
    with_unfolding_all decide

/-- Of so many lines none is left. -/
theorem long_answer_lost : ¬ Lossless plainSh events := by
  intro h
  have hturns := (turns_iff plainSh events '#' fun line =>
    plainSh.echo [lit "-n", line ++ ['#']]).mp h.sound
  exact absurd hturns.1 (by simp [events])

end Tcos.Scripts.Answers
