import Tcos.Scripts.Answers
import Tcos.Systems.Run

/-! `devicesctl.sh --getudev`: draining the log of events.

Producers append lines to the log. A call reads the log, empties it, writes what it read to a
temporary file, prints that file line by line and removes it. The name of the file is the same in
every call, and any of these steps can be followed by a step of another call or by an append. Both
the file and the answer are written by `echo`, which in some shells replaces backslash sequences.
`drained_once`: each line that was appended is returned whole by exactly one call, or still in the
log, in a run in which no line comes between the two steps on the log, no two calls use the file, no
call has more lines than bin/seq counts and no line that is written has a sequence that `echo`
replaces. -/
namespace Tcos.Scripts.Devicesctl
open Shell (Text lit lines unlines captured isRaw Sh)
open Libc (decimal)
open Systems (Shared Every run)

/-! ### The files -/

/-- What a producer prints. -/
@[ext] structure Record where
  text : Text
  fields : '#' ∈ text
  oneLine : '\n' ∉ text

instance : DecidableEq Record := fun _ _ => decidable_of_iff' _ Record.ext_iff

/-- A line that was appended. -/
structure Event where
  /-- The lines that were appended before it. -/
  number : Nat
  record : Record
  deriving DecidableEq

/-- The temporary file. -/
structure TmpFile where
  text : Text
  /-- Of each line the event that was written there. -/
  sources : List Event

structure Files where
  /-- `/tmp/tcos-udevd.log`. -/
  log : List Event := []
  /-- `/tmp/devicesctl`. -/
  tmpFile : Option TmpFile := none
  /-- Every line that was appended. -/
  appended : List Event := []

/-! ### A call -/

/-- What a call does next. -/
inductive Phase where
  /-- `output=$(cat /tmp/tcos-udevd.log)`. -/
  | cat
  /-- `cat /dev/null > /tmp/tcos-udevd.log`. -/
  | empty
  /-- `echo "$output" > $tmp_file`. -/
  | write
  /-- `$(seq 1 $num_lines)`, with `num_lines=$(cat $tmp_file | wc -l)`. -/
  | count
  /-- The turn of `i`, before those of `items`. -/
  | readLine (i : Text) (items : List Text)
  /-- `rm $tmp_file`. -/
  | rm
  | done

/-- What a turn of the loop prints, and the event of the line it read. -/
structure Printed where
  text : Text
  source : Option Event

structure Call where
  phase : Phase := .cat
  output : List Event := []
  /-- What is printed so far. -/
  answer : List Printed := []

/-- The text of `$(cat /tmp/tcos-udevd.log)`. -/
def outputText (output : List Event) : Text := captured (unlines (output.map fun e => e.record.text))

/-- What `echo "$output"` writes. A sequence may make several lines of a record. -/
def written (sh : Sh) (output : List Event) : TmpFile where
  text := sh.echo [if outputText output = [] then lit "unknow" else outputText output]
  sources := output.flatMap fun e => List.replicate ((sh.print e.record.text).count '\n' + 1) e

/-- `line=$(read_line $i)` and `echo -n "$line|"`. -/
def turn (sh : Sh) (tmpFile : Option TmpFile) (i : Text) : Printed :=
  let f := tmpFile.getD ⟨[], []⟩
  { text := sh.echo [lit "-n", Answers.readLine f.text i ++ ['|']]
    source := (Answers.number i).bind fun n => ((f.sources.take (lines f.text).length).take n).getLast? }

/-- The loop, before its next turn. -/
def Phase.loop : List Text → Phase
  | [] => .rm
  | i :: items => .readLine i items

def Call.advance (sh : Sh) (c : Call) (f : Files) : Call × Files :=
  match c.phase with
  | .cat => ({ c with phase := .empty, output := f.log }, f)
  | .empty => ({ c with phase := .write }, { f with log := [] })
  | .write =>
    ({ c with phase := .count },
      if outputText c.output = lit "tmp_file" then f
      else { f with tmpFile := some (written sh c.output) })
  | .count =>
    ({ c with phase := .loop (Answers.items sh ((f.tmpFile.map TmpFile.text).getD [])) }, f)
  | .readLine i items =>
    ({ c with phase := .loop items, answer := c.answer ++ [turn sh f.tmpFile i] }, f)
  | .rm => ({ c with phase := .done }, { f with tmpFile := none })
  | .done => (c, f)

def Call.stdout (c : Call) : Text := c.answer.flatMap Printed.text

/-! ### A file without sequences -/

section Written
variable {sh : Sh} {output : List Event}

/-- No line has a sequence that `echo` replaces. -/
def Raw (sh : Sh) (output : List Event) : Prop :=
  sh.xsi = true → ∀ e ∈ output, isRaw sh.more e.record.text = true

/-- The lines of what a call read: those of the log, or that there were none. -/
def content (output : List Event) : List Text :=
  if output = [] then [lit "unknow"] else output.map fun e => e.record.text

/-- The numbers of the lines after the first `k`. -/
def numbers (k length : Nat) : List Text := (List.range' (k + 1) (length - k)).map fun n : Nat => decimal n

/-- What the call is to print of them. -/
def pieces (output : List Event) : List Printed :=
  if output = [] then [⟨lit "unknow" ++ ['|'], none⟩]
  else output.map fun e => ⟨e.record.text ++ ['|'], some e⟩

theorem pieces_length (output : List Event) : (pieces output).length = (content output).length ∧
    0 < (content output).length := by
  unfold pieces content
  split
  case isTrue => exact ⟨rfl, Nat.one_pos⟩
  case isFalse hne => simpa [List.length_pos_iff] using hne

theorem content_inLine (output : List Event) : ∀ l ∈ content output, '\n' ∉ l := by
  unfold content
  split
  case isTrue => simpa using (by with_unfolding_all decide : '\n' ∉ lit "unknow")
  case isFalse =>
    intro l hl
    obtain ⟨e, -, rfl⟩ := List.mem_map.mp hl
    exact e.record.oneLine

theorem outputText_concat (output : List Event) (e : Event) : outputText (output ++ [e]) ++ ['\n'] =
    unlines (content (output ++ [e])) ∧ '#' ∈ outputText (output ++ [e]) := by
  have hne : e.record.text ≠ [] := List.ne_nil_of_mem e.record.fields
  have htext : outputText (output ++ [e]) = unlines (output.map fun e => e.record.text) ++
    e.record.text := by
    rw [outputText, List.map_append, unlines, List.flatMap_append]
    exact (congrArg captured (by simp [unlines])).trans (Shell.captured_append _ hne e.record.oneLine)
  rw [htext]
  exact ⟨by simp [content, unlines], List.mem_append_right _ e.record.fields⟩

/-- The text is none of the two words the script compares it with, unless nothing was read. -/
theorem outputText_word (output : List Event) : outputText output ≠ lit "tmp_file" ∧
    (outputText output = [] ↔ output = []) := by
  rcases List.eq_nil_or_concat output with rfl | ⟨init, e, rfl⟩
  · exact ⟨by with_unfolding_all decide, by with_unfolding_all decide⟩
  · rw [List.concat_eq_append]
    obtain ⟨-, hhash⟩ := outputText_concat init e
    refine ⟨fun heq => ?_, by simp [List.ne_nil_of_mem hhash]⟩
    rw [heq] at hhash
    exact absurd hhash (by with_unfolding_all decide)

theorem content_raw (h : Raw sh output) (hxsi : sh.xsi = true) :
    ∀ l ∈ content output, isRaw sh.more l = true := by
  unfold content
  split
  case isTrue =>
    have hslash : '\\' ∉ lit "unknow" := by with_unfolding_all decide
    simpa using Shell.isRaw_of_not_mem hslash
  case isFalse =>
    intro l hl
    obtain ⟨e, he, rfl⟩ := List.mem_map.mp hl
    exact h hxsi e he

/-- **The file has the lines that were read.** -/
theorem written_text (h : Raw sh output) : (written sh output).text = unlines (content output) := by
  have hprint : ∀ t : Text, sh.isOption t = false → t ++ ['\n'] = unlines (content output) →
      sh.echo [t] = unlines (content output) := by
    intro t hopt ht
    have hopts : ∀ w, [t].head? = some w → sh.isOption w = false := by simpa using hopt
    have hecho := Shell.echo_words sh hopts
    rw [hecho, show Shell.unwords [t] = t by simp [Shell.unwords], ht, Shell.print_iff]
    exact fun hxsi => Answers.isRaw_unlines (content_raw h hxsi)
  rcases List.eq_nil_or_concat output with rfl | ⟨init, e, rfl⟩
  · rw [written, (outputText_word []).2.mpr rfl, if_pos rfl]
    exact hprint _ (sh.isOption_of_mem (c := 'u') (by decide) (by with_unfolding_all decide))
      (by simp [content, unlines])
  · rw [List.concat_eq_append] at hprint ⊢
    obtain ⟨hfile, hhash⟩ := outputText_concat init e
    rw [written, if_neg (List.ne_nil_of_mem hhash)]
    exact hprint _ (sh.isOption_of_mem (by decide) hhash) hfile

theorem written_sources (h : Raw sh output) : (written sh output).sources = output := by
  have hone : ∀ e ∈ output, List.replicate ((sh.print e.record.text).count '\n' + 1) e = [e] := by
    intro e he
    rw [(Shell.print_iff ..).mpr fun hxsi => h hxsi e he, List.count_eq_zero.mpr e.record.oneLine]
    rfl
  rw [written, List.flatMap_congr hone, List.flatMap_singleton']

theorem written_lines (h : Raw sh output) : lines (written sh output).text = content output := by
  rw [written_text h, Shell.lines_unlines (content_inLine output)]

theorem items_written (h : Raw sh output) (hlen : (content output).length ≤ 100) :
    Answers.items sh (written sh output).text = numbers 0 (pieces output).length := by
  rw [Answers.items_range, written_text h, Answers.count_unlines (content_inLine output),
    if_pos ⟨(pieces_length output).2, hlen⟩, (pieces_length output).1]
  rfl

/-- **A turn prints the next line.** -/
theorem turn_written (h : Raw sh output) {k : Nat} (hk : k < (pieces output).length) :
    turn sh (some (written sh output)) (decimal (k + 1 : Nat)) = (pieces output)[k] := by
  have hlen : k < (content output).length := (pieces_length output).1 ▸ hk
  have hlast : ∀ {α : Type} (l : List α), k < l.length → (l.take (k + 1)).getLast? = l[k]? := by
    intro α l hl
    rw [List.getLast?_take, if_neg (by omega)]
    simp [hl]
  have hline : Answers.readLine (written sh output).text (decimal (k + 1 : Nat)) = (content output)[k] := by
    rw [Answers.readLine_decimal, written_lines h, hlast _ hlen]
    simp [hlen]
  have hsay := (Answers.echo_marked_iff sh Answers.marker_plain _).mpr fun hxsi =>
    content_raw h hxsi _ (List.getElem_mem hlen)
  simp only [turn, Option.getD_some, hline, hsay, Answers.number_decimal, Option.bind_some,
    written_sources h, written_lines h]
  unfold pieces content at *
  split
  case isTrue hnil =>
    subst hnil
    obtain rfl : k = 0 := by simpa using hk
    rfl
  case isFalse hne =>
    rw [if_neg hne] at hlen
    have hsource : k < output.length := by simpa using hlen
    simp [List.take_of_length_le, hlast _ hsource, hsource]

end Written

/-! ### Calls and producers -/

section Runs
variable {ι : Type} [DecidableEq ι] {sh : Sh}

abbrev State (ι : Type) := Shared ι Files Call

inductive Move (ι : Type) where
  | append (record : Record)
  | call (i : ι)

def Files.append (f : Files) (record : Record) : Files :=
  { f with
    log := f.log ++ [⟨f.appended.length, record⟩]
    appended := f.appended ++ [⟨f.appended.length, record⟩] }

def State.step (sh : Sh) (s : State ι) : Move ι → State ι
  | .append record => { s with state := s.state.append record }
  | .call i => Shared.step (fun _ : Unit => Call.advance sh) s (i, ())

/-- Before any line and any call. -/
def start : State ι := ⟨{}, fun _ => {}⟩

/-! ### What should hold -/

/-- The events of the lines that a call printed. -/
def Call.returned (c : Call) : List Event := c.answer.filterMap Printed.source

/-- The call printed the line. -/
def Returned (s : State ι) (i : ι) (e : Event) : Prop := e ∈ (s.procs i).returned

/-- Every call has ended or not yet begun. -/
def Quiet (s : State ι) : Prop := ∀ i, (s.procs i).phase = .cat ∨ (s.procs i).phase = .done

structure Drained (s : State ι) : Prop where
  /-- No call returns a line twice, or one that is still in the log. -/
  once : ∀ i e, Returned s i e → (s.procs i).returned.count e = 1 ∧ e ∉ s.state.log
  /-- No two calls return the same line. -/
  apart : ∀ i j e, Returned s i e → Returned s j e → i = j
  /-- What is returned was appended. -/
  real : ∀ i e, Returned s i e → e ∈ s.state.appended
  /-- No line is lost. -/
  kept : Quiet s → ∀ e ∈ s.state.appended, e ∈ s.state.log ∨ ∃ i, Returned s i e
  /-- What is printed is each line whole, or that there was none. -/
  whole : ∀ i, (s.procs i).phase = .done → (s.procs i).stdout =
    if (s.procs i).returned = [] then lit "unknow" ++ ['|']
    else (s.procs i).returned.flatMap fun e => e.record.text ++ ['|']

/-- Between its write and its `rm`. -/
def Phase.usesFile : Phase → Bool
  | .count | .readLine .. | .rm => true
  | _ => false

/-- No line comes between reading and emptying the log, none that is read is read again before it
is removed; the temporary file is not in use when it is written, the lines written there have no
sequence that `echo` replaces, and there are at most 100 of them. -/
def Exclusive (sh : Sh) (s : State ι) : Move ι → Prop
  | .append _ => True
  | .call i =>
    match (s.procs i).phase with
    | .cat => ∀ j, (s.procs j).phase = .empty → (s.procs j).output = []
    | .empty => ∀ e ∈ s.state.log, e ∈ (s.procs i).output
    | .write => (∀ j, (s.procs j).phase.usesFile = false) ∧ Raw sh (s.procs i).output
    | .count => ((s.state.tmpFile.map TmpFile.text).getD []).count '\n' ≤ 100
    | _ => True

/-! ### Where each line is -/

/-- What a call has done with the log. -/
inductive Stage where
  | before
  /-- It has read the log. -/
  | reads
  /-- It has emptied the log, too. -/
  | holds
  deriving DecidableEq, Repr

/-- Each line is in the log or in the output of one of the calls that have emptied it. -/
structure Partitioned (log appended : List Event) (calls : ι → Stage × List Event) : Prop where
  logged : log.Nodup ∧ log ⊆ appended
  output : ∀ i, (calls i).1 ≠ .before → (calls i).2.Nodup ∧ (calls i).2 ⊆ appended
  reading : ∀ i, (calls i).1 = .reads → (calls i).2 ⊆ log
  readers : ∀ i j, (calls i).1 = .reads → (calls j).1 = .reads → i = j ∨ (calls i).2 = [] ∨
    (calls j).2 = []
  taken : ∀ i e, (calls i).1 = .holds → e ∈ (calls i).2 → e ∉ log
  apart : ∀ i j e, (calls i).1 = .holds → (calls j).1 = .holds → e ∈ (calls i).2 → e ∈ (calls j).2 →
    i = j
  covered : ∀ e ∈ appended, e ∈ log ∨ ∃ i, (calls i).1 = .holds ∧ e ∈ (calls i).2

section Partition
variable {log appended : List Event} {calls : ι → Stage × List Event}

omit [DecidableEq ι] in
theorem Partitioned.append (h : Partitioned log appended calls) {e : Event} (he : e ∉ appended) :
    Partitioned (log ++ [e]) (appended ++ [e]) calls where
  logged := by
    obtain ⟨hnodup, hsub⟩ := h.logged
    refine ⟨List.nodup_append.mpr ⟨hnodup, by simp, ?_⟩, by grind⟩
    grind
  output i hi := ⟨(h.output i hi).1, fun x hx => List.mem_append_left _ ((h.output i hi).2 hx)⟩
  reading i hi := fun x hx => List.mem_append_left _ (h.reading i hi hx)
  readers := h.readers
  taken i x hi hx := by
    have hmem := (h.output i (by simp [hi])).2 hx
    have hlog := h.taken i x hi hx
    grind
  apart := h.apart
  covered x hx := by
    rcases List.mem_append.mp hx with hx | hx
    · exact (h.covered x hx).imp_left (List.mem_append_left _)
    · exact .inl (List.mem_append_right _ hx)

/-- A call reads the log while no other call holds lines it has read. -/
theorem Partitioned.read (h : Partitioned log appended calls) {i : ι} (hi : (calls i).1 = .before)
    (halone : ∀ j, (calls j).1 = .reads → (calls j).2 = []) :
    Partitioned log appended (Function.update calls i (.reads, log)) where
  logged := h.logged
  output j := by
    by_cases hj : j = i
    · subst hj
      simpa using h.logged
    · simpa [hj] using h.output j
  reading j := by
    by_cases hj : j = i
    · subst hj
      simp
    · simpa [hj] using h.reading j
  readers j k := by
    by_cases hj : j = i <;> by_cases hk : k = i <;> simp_all [Function.update]
  taken j e := by
    by_cases hj : j = i
    · subst hj
      simp
    · simpa [hj] using h.taken j e
  apart j k e := by
    by_cases hj : j = i
    · subst hj
      simp
    · by_cases hk : k = i
      · subst hk
        simp
      · simpa [hj, hk] using h.apart j k e
  covered e he := by
    refine (h.covered e he).imp_right ?_
    rintro ⟨j, hj, hmem⟩
    have hne : j ≠ i := by
      rintro rfl
      rw [hi] at hj
      exact absurd hj (by simp)
    exact ⟨j, by simpa [hne] using ⟨hj, hmem⟩⟩

/-- It empties the log while it has all of its lines. -/
theorem Partitioned.take (h : Partitioned log appended calls) {i : ι} (hi : (calls i).1 = .reads)
    (hall : ∀ e ∈ log, e ∈ (calls i).2) :
    Partitioned [] appended (Function.update calls i (.holds, (calls i).2)) where
  logged := by simp
  output j := by
    by_cases hj : j = i
    · subst hj
      simpa using h.output j (by simp [hi])
    · simpa [hj] using h.output j
  reading j hj := by
    by_cases hne : j = i
    · subst hne
      simp at hj
    · simp only [Function.update_of_ne hne] at hj ⊢
      rcases h.readers i j hi hj with rfl | hnil | hnil
      · exact absurd rfl hne
      · intro e he
        have := hall e (h.reading j hj he)
        rw [hnil] at this
        exact this
      · simp [hnil]
  readers j k := by
    by_cases hj : j = i
    · subst hj
      simp
    · by_cases hk : k = i
      · subst hk
        simp
      · simpa [hj, hk] using h.readers j k
  taken := by simp
  apart j k e hj hk := by
    have hheld : ∀ l, l ≠ i → (calls l).1 = .holds → e ∈ (calls i).2 → e ∉ (calls l).2 :=
      fun l _ hl hmem hmem' => h.taken l e hl hmem' (h.reading i hi hmem)
    by_cases hji : j = i <;> by_cases hki : k = i
    · exact fun _ _ => hji.trans hki.symm
    · subst hji
      simp only [Function.update_of_ne hki] at hk ⊢
      intro hmem hmem'
      exact absurd hmem' (hheld k hki hk (by simpa using hmem))
    · subst hki
      simp only [Function.update_of_ne hji] at hj ⊢
      intro hmem hmem'
      exact absurd hmem (hheld j hji hj (by simpa using hmem'))
    · simp only [Function.update_of_ne hji, Function.update_of_ne hki] at hj hk ⊢
      exact h.apart j k e hj hk
  covered e he := by
    right
    rcases h.covered e he with hlog | ⟨j, hj, hmem⟩
    · exact ⟨i, by simpa using hall e hlog⟩
    · have hne : j ≠ i := by
        rintro rfl
        rw [hi] at hj
        exact absurd hj (by simp)
      exact ⟨j, by simpa [hne] using ⟨hj, hmem⟩⟩

end Partition

/-! ### The invariant -/

def Phase.stage : Phase → Stage
  | .cat => .before
  | .empty => .reads
  | _ => .holds

def Call.view (c : Call) : Stage × List Event := (c.phase.stage, c.output)

/-- What is printed is what was read. -/
def Call.Steady (sh : Sh) (c : Call) : Prop :=
  match c.phase with
  | .cat | .empty | .write => c.answer = []
  | .count => c.answer = [] ∧ Raw sh c.output
  | .readLine i items => Raw sh c.output ∧ ∃ k, c.answer = (pieces c.output).take k ∧
    i :: items = numbers k (pieces c.output).length
  | .rm | .done => c.answer = pieces c.output

structure Inv (sh : Sh) (s : State ι) : Prop where
  lines : Partitioned s.state.log s.state.appended fun i => (s.procs i).view
  fresh : ∀ e ∈ s.state.appended, e.number < s.state.appended.length
  file : ∀ i, (s.procs i).phase.usesFile = true →
    s.state.tmpFile = some (written sh (s.procs i).output)
  users : ∀ i j, (s.procs i).phase.usesFile = true → (s.procs j).phase.usesFile = true → i = j
  steady : ∀ i, (s.procs i).Steady sh

theorem step_call {s : State ι} {i : ι} {c : Call} {f : Files}
    (h : (s.procs i).advance sh s.state = (c, f)) :
    s.step sh (.call i) = ⟨f, Function.update s.procs i c⟩ := by
  simp [State.step, Shared.step, h]

theorem view_update (procs : ι → Call) (i : ι) (c : Call) :
    (fun j => (Function.update procs i c j).view) = Function.update
      (fun j => (procs j).view) i c.view := by
  funext j
  by_cases hj : j = i
  · subst hj
    simp
  · simp [hj]

/-- The calls other than `i` are as before. -/
theorem forall_update {procs : ι → Call} {i : ι} {c : Call} {P : Call → Prop} (hc : P c)
    (h : ∀ j, P (procs j)) : ∀ j, P (Function.update procs i c j) := by
  intro j
  by_cases hj : j = i
  · subst hj
    simpa using hc
  · simpa [hj] using h j

/-- A step of call `i` on the file or on its own, that leaves the log. -/
theorem Inv.next {s : State ι} (h : Inv sh s) {i : ι} {c : Call} (tmpFile : Option TmpFile)
    (hview : c.view = (s.procs i).view) (hsteady : c.Steady sh)
    (hfile : c.phase.usesFile = true → tmpFile = some (written sh c.output))
    (hother : ∀ j, j ≠ i → (s.procs j).phase.usesFile = true →
      tmpFile = s.state.tmpFile ∧ c.phase.usesFile = false) :
    Inv sh ⟨{ s.state with tmpFile }, Function.update s.procs i c⟩ where
  lines := by
    have hsame : (fun j => (Function.update s.procs i c j).view) = fun j => (s.procs j).view := by
      rw [view_update, hview, Function.update_eq_self]
    rw [hsame]
    exact h.lines
  fresh := h.fresh
  file j := by
    by_cases hj : j = i
    · subst hj
      simpa using hfile
    · simp only [Function.update_of_ne hj]
      intro huses
      rw [(hother j hj huses).1]
      exact h.file j huses
  users j k := by
    have hnot : ∀ l, l ≠ i → (s.procs l).phase.usesFile = true → c.phase.usesFile = true → False := by
      intro l hl huses hc
      rw [(hother l hl huses).2] at hc
      exact absurd hc (by simp)
    by_cases hj : j = i <;> by_cases hk : k = i
    · exact fun _ _ => hj.trans hk.symm
    · subst hj
      simp only [Function.update_self, Function.update_of_ne hk]
      exact fun hc huses => (hnot k hk huses hc).elim
    · subst hk
      simp only [Function.update_self, Function.update_of_ne hj]
      exact fun huses hc => (hnot j hj huses hc).elim
    · simp only [Function.update_of_ne hj, Function.update_of_ne hk]
      exact h.users j k
  steady := forall_update hsteady h.steady

/-- A step of a call that has not yet come to the file. -/
theorem Inv.early {s : State ι} (h : Inv sh s) {i : ι} {c : Call} (log : List Event)
    (hlines : Partitioned log s.state.appended (Function.update (fun j => (s.procs j).view) i c.view))
    (hsteady : c.Steady sh) (huses : c.phase.usesFile = false) :
    Inv sh ⟨{ s.state with log }, Function.update s.procs i c⟩ where
  lines := by
    rw [view_update]
    exact hlines
  fresh := h.fresh
  file j := by
    by_cases hj : j = i
    · subst hj
      simp [huses]
    · simpa [hj] using h.file j
  users j k := by
    by_cases hj : j = i
    · subst hj
      simp [huses]
    · by_cases hk : k = i
      · subst hk
        simp [huses]
      · simpa [hj, hk] using h.users j k
  steady := forall_update hsteady h.steady

omit [DecidableEq ι] in
theorem start_inv : Inv sh (start : State ι) where
  lines := ⟨by simp [start], by simp [start, Call.view, Phase.stage],
  by simp [start, Call.view, Phase.stage],
    by simp [start, Call.view, Phase.stage], by simp [start, Call.view, Phase.stage],
    by simp [start, Call.view, Phase.stage], by simp [start]⟩
  fresh := by simp [start]
  file := by simp [start, Phase.usesFile]
  users := by simp [start, Phase.usesFile]
  steady := by simp [start, Call.Steady]

theorem stage_reads {p : Phase} : p.stage = .reads ↔ p = .empty := by
  cases p <;> simp [Phase.stage]

theorem stage_loop (items : List Text) : (Phase.loop items).stage = .holds := by
  cases items <;> rfl

/-- The loop after the first `k` lines. -/
theorem steady_loop {c : Call} {k : Nat} (hraw : Raw sh c.output)
    (hanswer : c.answer = (pieces c.output).take k) :
    Call.Steady sh { c with phase := .loop (numbers k (pieces c.output).length) } := by
  cases hitems : numbers k (pieces c.output).length with
  | nil =>
    have hlen := congrArg List.length hitems
    simp only [numbers, List.length_map, List.length_range', List.length_nil] at hlen
    exact hanswer.trans (List.take_of_length_le (by omega))
  | cons i items => exact ⟨hraw, k, hanswer, hitems.symm⟩

theorem numbers_cons {k length : Nat} {i : Text} {items : List Text} (h : i :: items = numbers k length) :
    k < length ∧ i = decimal (k + 1 : Nat) ∧ items = numbers (k + 1) length := by
  have hk : k < length := by
    have hlen := congrArg List.length h
    simp only [numbers, List.length_cons, List.length_map, List.length_range'] at hlen
    omega
  have hsucc : length - k = length - (k + 1) + 1 := by omega
  rw [numbers, hsucc, List.range'_succ, List.map_cons] at h
  obtain ⟨hi, hitems⟩ := List.cons.inj h
  exact ⟨hk, hi, hitems⟩

/-- **Steps under the condition keep the invariant.** -/
theorem step_inv (s : State ι) (m : Move ι) (h : Inv sh s) (hok : Exclusive sh s m) :
    Inv sh (s.step sh m) := by
  cases m with
  | append record =>
    refine ⟨h.lines.append ?_, ?_, h.file, h.users, h.steady⟩
    · intro hmem
      exact absurd (h.fresh _ hmem) (by simp)
    · intro e he
      rcases List.mem_append.mp he with he | he
      · have := h.fresh e he
        simp [State.step, Files.append]
        omega
      · simp [State.step, Files.append, List.mem_singleton.mp he]
  | call i =>
    have hsteady := h.steady i
    simp only [Exclusive] at hok
    -- a call that uses the file is the only one
    have halone : (s.procs i).phase.usesFile = true → ∀ j, j ≠ i → (s.procs j).phase.usesFile = true →
      False :=
      fun hi j hj huses => hj (h.users j i huses hi)
    cases hphase : (s.procs i).phase with
    | cat =>
      simp only [hphase] at hok
      rw [step_call (c := { s.procs i with phase := .empty, output := s.state.log }) (f := s.state)
        (by simp [Call.advance, hphase])]
      simp only [Call.Steady, hphase] at hsteady
      refine h.early s.state.log (h.lines.read ?_ ?_) hsteady rfl
      · simp [Call.view, hphase, Phase.stage]
      · exact fun j hj => hok j (stage_reads.mp hj)
    | empty =>
      simp only [hphase] at hok
      rw [step_call (c := { s.procs i with phase := .write }) (f := { s.state with log := [] })
        (by simp [Call.advance, hphase])]
      simp only [Call.Steady, hphase] at hsteady
      exact h.early _ (h.lines.take (by simp [Call.view, hphase, Phase.stage]) hok) hsteady rfl
    | write =>
      simp only [hphase] at hok
      rw [step_call (c := { s.procs i with phase := .count })
        (f := { s.state with tmpFile := some (written sh (s.procs i).output) })
          (by simp [Call.advance, hphase, (outputText_word _).1])]
      simp only [Call.Steady, hphase] at hsteady
      refine h.next _ (by simp [Call.view, hphase, Phase.stage]) ⟨hsteady, hok.2⟩ (fun _ => rfl)
        fun j _ huses => ?_
      rw [hok.1 j] at huses
      exact absurd huses (by simp)
    | count =>
      simp only [hphase] at hok
      have huses : (s.procs i).phase.usesFile = true := by rw [hphase]; rfl
      simp only [Call.Steady, hphase] at hsteady
      obtain ⟨hanswer, hraw⟩ := hsteady
      have hitems : Answers.items sh ((s.state.tmpFile.map TmpFile.text).getD []) =
          numbers 0 (pieces (s.procs i).output).length := by
        rw [h.file i huses, Option.map_some, Option.getD_some] at hok ⊢
        rw [written_text hraw, Answers.count_unlines (content_inLine _)] at hok
        exact items_written hraw hok
      rw [step_call (c := { s.procs i with phase := .loop (numbers 0 (pieces (s.procs i).output).length) })
        (f := s.state) (by rw [Call.advance, hphase]; dsimp only; rw [hitems])]
      refine h.next s.state.tmpFile ?_ (steady_loop hraw hanswer) (fun _ => h.file i huses)
        fun j hj hju => ?_
      · simp only [Call.view, hphase, stage_loop]
        rfl
      · exact (halone huses j hj hju).elim
    | readLine item items =>
      have huses : (s.procs i).phase.usesFile = true := by rw [hphase]; rfl
      simp only [Call.Steady, hphase] at hsteady
      obtain ⟨hraw, k, hanswer, hitems⟩ := hsteady
      obtain ⟨hk, rfl, rfl⟩ := numbers_cons hitems
      have hturn : (s.procs i).answer ++ [turn sh s.state.tmpFile (decimal (k + 1 : Nat))] =
          (pieces (s.procs i).output).take (k + 1) := by
        rw [h.file i huses, turn_written hraw hk, hanswer, List.take_append_getElem hk]
      rw [step_call (c := ⟨.loop (numbers (k + 1) (pieces (s.procs i).output).length), (s.procs i).output,
        (pieces (s.procs i).output).take (k + 1)⟩) (f := s.state)
        (by rw [← hturn, Call.advance, hphase])]
      refine h.next s.state.tmpFile ?_ ?_ (fun _ => h.file i huses) fun j hj hju => ?_
      · simp only [Call.view, hphase, stage_loop]
        rfl
      · exact steady_loop (c :=
          ⟨.done, (s.procs i).output, (pieces (s.procs i).output).take (k + 1)⟩) hraw rfl
      · exact (halone huses j hj hju).elim
    | rm =>
      have huses : (s.procs i).phase.usesFile = true := by rw [hphase]; rfl
      rw [step_call (c := { s.procs i with phase := .done }) (f := { s.state with tmpFile := none })
        (by simp [Call.advance, hphase])]
      simp only [Call.Steady, hphase] at hsteady
      refine h.next _ (by simp [Call.view, hphase, Phase.stage]) hsteady (by simp [Phase.usesFile])
        fun j hj hju => ?_
      exact (halone huses j hj hju).elim
    | done =>
      rw [step_call (c := s.procs i) (f := s.state) (by simp [Call.advance, hphase]),
        Function.update_eq_self]
      exact h

/-! ### What is returned -/

/-- The events of what is printed are those that were read. -/
theorem pieces_sources (output : List Event) (k : Nat) :
    ((pieces output).take k).filterMap Printed.source = output.take k := by
  unfold pieces
  split
  case isTrue h =>
    subst h
    cases k <;> simp
  case isFalse =>
    rw [← List.map_take, List.filterMap_map]
    exact List.filterMap_some

theorem Call.Steady.returned {c : Call} (h : c.Steady sh) :
    c.returned = [] ∨ c.phase.stage = .holds ∧ ∃ k, c.returned = c.output.take k := by
  have hall : (pieces c.output).filterMap Printed.source = c.output.take (pieces c.output).length := by
    rw [← pieces_sources, List.take_length]
  unfold Call.Steady at h
  unfold Call.returned
  split at h
  case h_4 => exact .inl (by rw [h.1]; rfl)
  case h_5 k items hphase =>
    obtain ⟨-, k, hanswer, -⟩ := h
    exact .inr ⟨by rw [hphase]; rfl, k, by rw [hanswer, pieces_sources]⟩
  case h_6 hphase => exact .inr ⟨by rw [hphase]; rfl, _, by rw [h, hall]⟩
  case h_7 hphase => exact .inr ⟨by rw [hphase]; rfl, _, by rw [h, hall]⟩
  all_goals exact .inl (by rw [h]; rfl)

omit [DecidableEq ι] in
/-- What a call printed it has taken from the log, and printed once. -/
theorem Inv.returned {s : State ι} (h : Inv sh s) {i : ι} {e : Event} (hr : Returned s i e) :
    (s.procs i).view.1 = .holds ∧ e ∈ (s.procs i).output ∧ (s.procs i).returned.count e = 1 := by
  unfold Returned at hr
  rcases (h.steady i).returned with hnil | ⟨hholds, k, hreturned⟩
  · rw [hnil] at hr
    exact absurd hr (by simp)
  · have hnodup : (s.procs i).returned.Nodup := by
      rw [hreturned]
      exact (h.lines.output i (by simp [Call.view, hholds])).1.sublist (List.take_sublist ..)
    refine ⟨hholds, ?_, List.count_eq_one_of_mem hnodup hr⟩
    rw [hreturned] at hr
    exact List.mem_of_mem_take hr

omit [DecidableEq ι] in
/-- A call that has ended returned all the lines it had read. -/
theorem Inv.ended {s : State ι} (h : Inv sh s) {i : ι} (hdone : (s.procs i).phase = .done) :
    (s.procs i).answer = pieces (s.procs i).output ∧ (s.procs i).returned = (s.procs i).output := by
  have hsteady := h.steady i
  simp only [Call.Steady, hdone] at hsteady
  refine ⟨hsteady, ?_⟩
  have hsources := pieces_sources (s.procs i).output (pieces (s.procs i).output).length
  have hlen : (s.procs i).output.length ≤ (pieces (s.procs i).output).length := by
    unfold pieces
    split
    case isTrue hnil => simp [hnil]
    case isFalse => simp
  rw [List.take_length, List.take_of_length_le hlen] at hsources
  rw [Call.returned, hsteady, hsources]

omit [DecidableEq ι] in
theorem Inv.drained {s : State ι} (h : Inv sh s) : Drained s where
  once i e hr := by
    obtain ⟨hholds, hmem, hcount⟩ := h.returned hr
    exact ⟨hcount, h.lines.taken i e hholds hmem⟩
  apart i j e hi hj := by
    obtain ⟨hholdsi, hmemi, -⟩ := h.returned hi
    obtain ⟨hholdsj, hmemj, -⟩ := h.returned hj
    exact h.lines.apart i j e hholdsi hholdsj hmemi hmemj
  real i e hr := by
    obtain ⟨hholds, hmem, -⟩ := h.returned hr
    exact (h.lines.output i (by rw [hholds]; simp)).2 hmem
  kept hquiet e he := by
    refine (h.lines.covered e he).imp_right ?_
    rintro ⟨i, hholds, hmem⟩
    refine ⟨i, ?_⟩
    rcases hquiet i with hphase | hphase
    · rw [Call.view, hphase] at hholds
      exact absurd hholds (by simp [Phase.stage])
    · unfold Returned
      rw [(h.ended hphase).2]
      exact hmem
  whole i hdone := by
    obtain ⟨hanswer, hreturned⟩ := h.ended hdone
    rw [Call.stdout, hanswer, hreturned, pieces]
    split
    case isTrue => simp
    case isFalse => rw [List.flatMap_map]

/-- **In a run under the condition each line is returned once or still in the log.** -/
theorem drained_once {moves : List (Move ι)} (h : Every (State.step sh) (Exclusive sh) start moves) :
    Drained (run (State.step sh) start moves) :=
  (Systems.invariant_of_every step_inv start_inv h).drained

end Runs

/-! ### Two events and the calls for them -/

def plugged : Record := ⟨['a', '#'], by decide, by decide⟩

def unplugged : Record := ⟨['b', '#'], by decide, by decide⟩

/-- The second call reads and empties the log while the first one prints. -/
theorem two_calls_drain : Drained (run (State.step Answers.plainSh) start [.append plugged, .call false,
    .call false, .append unplugged, .call false, .call true, .call false, .call true, .call false,
    .call false]) :=
  drained_once ⟨trivial, fun j h => absurd h (by cases j <;> exact nofun), fun _ he => he, trivial,
    ⟨fun j => by cases j <;> rfl, fun _ => by with_unfolding_all decide⟩,
    fun j h => absurd h (by cases j <;> exact nofun),
    by with_unfolding_all exact (by decide : 1 ≤ 100), fun _ he => he, by with_unfolding_all exact trivial,
    by with_unfolding_all exact trivial, trivial⟩

/-- A line that is appended between the two steps on the log. -/
theorem append_lost : ¬ ∀ moves : List (Move Unit),
    Drained (run (State.step Answers.plainSh) start moves) := by
  intro hall
  have hkept := (hall [.append plugged, .call (), .append unplugged, .call (), .call (), .call (),
    .call (), .call ()]).kept (fun _ => .inr (by with_unfolding_all rfl)) ⟨1, unplugged⟩
      (by with_unfolding_all decide)
  rcases hkept with hlog | ⟨i, hreturned⟩
  · exact absurd hlog (by with_unfolding_all decide)
  · exact absurd hreturned (by cases i; unfold Returned; with_unfolding_all decide)

end Tcos.Scripts.Devicesctl
