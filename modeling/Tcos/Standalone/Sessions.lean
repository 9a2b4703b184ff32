import Tcos.Passwd.Writers
import Tcos.Standalone.Conf
import Tcos.Systems.Run

/-! Sessions of tcos-standalone.

The window shows settings, changes them in boxes and fields, and writes them when it is told to; between
two sessions only the files remain. `sessions_refine` is about all runs: the settings file is the old one
with what was saved last in place of two settings, and the window is a panel of two boxes. Two things do
not get from the files into the next window: `ssl_forgotten` and `user_forgotten`. -/
namespace Tcos.Standalone
open Shell (Text lit)
open Python
open Systems (run)

/-! ### The program -/

def startVar : Text := lit "TCOS_STANDALONE_START"

def sslVar : Text := lit "TCOS_XMLRPC_SSL"

/-- What `%s` makes of 0 and 1. -/
def digit (b : Bool) : Text := if b then ['1'] else ['0']

inductive DaemonCmd where
  | start
  | stop
  deriving DecidableEq, Repr

structure Window where
  daemonEnabled : Option Text
  ckStandaloneStart : Bool
  ckEnableSsl : Bool
  txtUsername : Text
  txtPassword : Text
  newconfig : Bool
  newpass : Bool

structure Machine where
  standaloneFile : Option Text
  standalonePass : Option Text
  /-- What systemctl was asked to do with the daemon. -/
  asked : List DaemonCmd
  window : Option Window

inductive Event where
  | openApp
  | quitapp
  | toggleStart
  | toggleSsl
  | typeUsername (t : Text)
  | typePassword (t : Text)
  | apply
  | stopDaemon
  | startDaemon

/-- An error ends the program before there is a window. -/
def initWindow (m : Machine) : Except IndexError Window :=
  match readConf m.standaloneFile startVar 1 '=', readConf m.standaloneFile sslVar 0 '=',
    readConf m.standalonePass (lit "root") 0 ':' with
  | .ok daemonEnabled, .ok sslEnabled, .ok username =>
    .ok ⟨daemonEnabled, daemonEnabled == some (digit true), sslEnabled == some (digit true),
      username.getD [], [], false, false⟩
  | .error e, _, _ => .error e
  | _, .error e, _ => .error e
  | _, _, .error e => .error e

/-- The first half of `apply_changes`. -/
def applyConf (m : Machine) (x : Window) : Machine :=
  let ssl := saveConf m.standaloneFile sslVar (digit x.ckEnableSsl) '='
  let enabled := x.daemonEnabled != some (digit false)
  let asked := m.asked ++ if enabled then [.stop, .start] else []
  if enabled then
    if x.ckStandaloneStart = false then
      { m with
        standaloneFile := saveConf ssl startVar (digit false) '='
        asked := asked ++ [.stop]
        window := some { x with daemonEnabled := some (digit false), newconfig := false } }
    else { m with standaloneFile := ssl, asked := asked, window := some { x with newconfig := false } }
  else if x.ckStandaloneStart then
    { m with
      standaloneFile := saveConf ssl startVar (digit true) '='
      asked := asked ++ [.stop, .start]
      window := some { x with daemonEnabled := some (digit true), newconfig := false } }
  else { m with standaloneFile := ssl, asked := asked, window := some { x with newconfig := false } }

section Program
variable (w : Passwd.World) (crypt : Passwd.Crypt)

/-- The second half. -/
def applyPass (m : Machine) (x : Window) : Machine :=
  { m with
    standalonePass := some (w.applyChanges crypt x.txtUsername x.txtPassword).content
    window := some { x with newpass := false } }

def applyChanges (m : Machine) (x : Window) : Machine :=
  let m' := if x.newconfig then applyConf m x else m
  match m'.window with
  | none => m'
  | some x' => if x'.newpass then applyPass w crypt m' x' else m'

/-- Without a window there is nothing to do but to open one. -/
def step (m : Machine) (e : Event) : Machine :=
  match m.window with
  | none =>
    match e with
    | .openApp =>
      match initWindow m with
      | .ok x => { m with window := some x }
      | .error _ => m
    | _ => m
  | some x =>
    match e with
    | .openApp => m
    | .quitapp => { m with window := none }
    | .toggleStart =>
      { m with window := some { x with ckStandaloneStart := !x.ckStandaloneStart, newconfig := true } }
    | .toggleSsl => { m with window := some { x with ckEnableSsl := !x.ckEnableSsl, newconfig := true } }
    | .typeUsername t => { m with window := some { x with txtUsername := t, newpass := true } }
    | .typePassword t => { m with window := some { x with txtPassword := t, newpass := true } }
    | .apply => applyChanges w crypt m x
    | .stopDaemon => { m with asked := m.asked ++ [.stop] }
    | .startDaemon => { m with asked := m.asked ++ [.start] }

end Program

/-! ### The panel -/

structure Boxes where
  start : Bool
  ssl : Bool
  changed : Bool

/-- What was saved, what was asked of the daemon, and the boxes. -/
structure Panel where
  start : Option Bool := none
  ssl : Option Bool := none
  daemon : Option DaemonCmd := none
  boxes : Option Boxes := none

/-- The setting of the start, which was `v` before the first session. -/
def Panel.value (v : Text) (p : Panel) : Text := p.start.elim v digit

/-- Settings that are told: nothing is saved of a start that is as told. -/
def Panel.apply (v : Text) (p : Panel) (x : Boxes) : Panel where
  start := if x.start = (p.value v != digit false) then p.start else some x.start
  ssl := some x.ssl
  daemon := if x.start then some .start else if p.value v = digit false then p.daemon else some .stop
  boxes := some { x with changed := false }

def Panel.step (v : Text) (p : Panel) (e : Event) : Panel :=
  match p.boxes with
  | none =>
    match e with
    -- the box of SSL does not show the setting
    | .openApp => { p with boxes := some ⟨p.value v == digit true, false, false⟩ }
    | _ => p
  | some x =>
    match e with
    | .quitapp => { p with boxes := none }
    | .toggleStart => { p with boxes := some { x with start := !x.start, changed := true } }
    | .toggleSsl => { p with boxes := some { x with ssl := !x.ssl, changed := true } }
    | .apply => if x.changed then p.apply v x else p
    | .stopDaemon => { p with daemon := some .stop }
    | .startDaemon => { p with daemon := some .start }
    | .openApp | .typeUsername _ | .typePassword _ => p

/-- A line of the settings file, with what was saved. -/
def Panel.line (p : Panel) (line : Text) : Text :=
  if startVar.isPrefixOf line then p.start.elim line fun b => startVar ++ '=' :: digit b ++ ['\n']
  else if sslVar.isPrefixOf line then p.ssl.elim line fun b => sslVar ++ '=' :: digit b ++ ['\n']
  else line

/-- The file that was `data` before the first session. -/
def Panel.file (data : Text) (p : Panel) : Text := ((readlines data).map p.line).flatten

/-- The window shows the boxes, and knows the setting of the start. -/
structure Shows (value : Text) (x : Window) (b : Boxes) : Prop where
  enabled : x.daemonEnabled = some value
  start : x.ckStandaloneStart = b.start
  ssl : x.ckEnableSsl = b.ssl
  changed : x.newconfig = b.changed

structure Refines (data v : Text) (m : Machine) (p : Panel) : Prop where
  file : m.standaloneFile = some (p.file data)
  daemon : m.asked.getLast? = p.daemon
  window : match m.window, p.boxes with
    | none, none => True
    | some x, some b => Shows (p.value v) x b
    | _, _ => False

/-! ### Lines -/

theorem splitOn_head (sep : Char) (s : Text) : (s.splitOn sep)[0]? = some (s.takeWhile (· != sep)) := by
  induction s with
  | nil => rfl
  | cons c s ih =>
    rw [List.splitOn_cons_eq_if_modifyHead, List.takeWhile_cons]
    by_cases hc : c = sep
    · simp [hc]
    · simp [hc, ← List.head?_eq_getElem?, List.head?_modifyHead] at ih ⊢
      simpa using ih

/-- The first field is always there. -/
theorem readConf_first (file : Option Text) (fvar : Text) (sep : Char) :
    readConf file fvar 0 sep = .ok ((file.bind fun data => (readlines data).find? fun line =>
      fvar.isPrefixOf line).map fun line => (chomp line).takeWhile (· != sep)) := by
  rw [readConf]
  cases file.bind fun data => (readlines data).find? fun line => fvar.isPrefixOf line with
  | none => rfl
  | some line => simp only [splitOn_head, Option.map_some]

theorem vars_plain : ('\n' ∉ startVar ∧ '=' ∉ startVar) ∧ '\n' ∉ sslVar ∧ '=' ∉ sslVar := by
  with_unfolding_all decide

theorem digit_plain (b : Bool) : '\n' ∉ digit b ∧ '=' ∉ digit b := by
  cases b <;> decide

/-- No line is for both. -/
theorem not_both {line : Text} (h : startVar.isPrefixOf line = true) : sslVar.isPrefixOf line = false := by
  rw [Bool.eq_false_iff]
  intro hssl
  have hvars : ¬ startVar <+: sslVar ∧ ¬ sslVar <+: startVar := by with_unfolding_all decide
  rcases List.prefix_or_prefix_of_prefix (List.isPrefixOf_iff_prefix.mp h)
    (List.isPrefixOf_iff_prefix.mp hssl) with hp | hp
  · exact hvars.1 hp
  · exact hvars.2 hp

theorem isPrefixOf_own (fvar t : Text) : fvar.isPrefixOf (fvar ++ t) = true :=
  List.isPrefixOf_iff_prefix.mpr (List.prefix_append ..)

theorem start_of_ssl (t : Text) : startVar.isPrefixOf (sslVar ++ t) = false := by
  rw [Bool.eq_false_iff]
  intro h
  exact absurd (isPrefixOf_own sslVar t) (by simp [not_both h])

/-- The lines of a variable stay its lines. -/
theorem line_start (p : Panel) (line : Text) : startVar.isPrefixOf (p.line line) =
    startVar.isPrefixOf line := by
  unfold Panel.line
  split
  case isTrue h =>
    cases p.start with
    | none => rfl
    | some b => simp [h]
  case isFalse h =>
    rw [Bool.not_eq_true] at h
    split
    · cases p.ssl with
      | none => rfl
      | some b => simpa [h] using start_of_ssl ('=' :: digit b ++ ['\n'])
    · rfl

theorem line_ssl (p : Panel) (line : Text) : sslVar.isPrefixOf (p.line line) =
    sslVar.isPrefixOf line := by
  by_cases h : startVar.isPrefixOf line = true
  · rw [not_both h, not_both ((line_start p line).trans h)]
  · rw [Panel.line, if_neg h]
    split
    case isTrue hssl =>
      cases p.ssl with
      | none => rfl
      | some b => simp [hssl]
    case isFalse => rfl

theorem save_start (p : Panel) (b : Bool) (line : Text) : saveLine startVar (digit b) '=' (p.line line) =
    { p with start := some b }.line line := by
  rw [saveLine, line_start]
  split
  case isTrue h => simp [Panel.line, h]
  case isFalse h => simp [Panel.line, h]

theorem save_ssl (p : Panel) (b : Bool) (line : Text) : saveLine sslVar (digit b) '=' (p.line line) =
    { p with ssl := some b }.line line := by
  rw [saveLine, line_ssl]
  by_cases h : startVar.isPrefixOf line = true
  · simp [Panel.line, h, not_both h]
  · by_cases hssl : sslVar.isPrefixOf line = true <;> simp [Panel.line, h, hssl]

theorem line_isLine (p : Panel) (line : Text) : p.line line = line ∨ IsLine (p.line line) := by
  obtain ⟨⟨hstart, -⟩, hssl, -⟩ := vars_plain
  unfold Panel.line
  split_ifs
  · cases p.start with
    | none => exact .inl rfl
    | some b => exact .inr ⟨startVar ++ '=' :: digit b, by simp [hstart, digit_plain b], rfl⟩
  · cases p.ssl with
    | none => exact .inl rfl
    | some b => exact .inr ⟨sslVar ++ '=' :: digit b, by simp [hssl, digit_plain b], rfl⟩
  · exact .inl rfl

theorem readlines_file (data : Text) (p : Panel) : readlines (p.file data) = (readlines data).map p.line :=
  readlines_flatten ((areLines_readlines data).map fun line _ => line_isLine p line)

theorem file_start (data : Text) (p : Panel) (b : Bool) :
    saveConf (some (p.file data)) startVar (digit b) '=' = some ({ p with start := some b }.file data) := by
  rw [saveConf, Option.map_some, readlines_file, List.map_map, Panel.file]
  exact congrArg (some ·.flatten) (List.map_congr_left fun line _ => save_start p b line)

theorem file_ssl (data : Text) (p : Panel) (b : Bool) :
    saveConf (some (p.file data)) sslVar (digit b) '=' = some ({ p with ssl := some b }.file data) := by
  rw [saveConf, Option.map_some, readlines_file, List.map_map, Panel.file]
  exact congrArg (some ·.flatten) (List.map_congr_left fun line _ => save_ssl p b line)

/-! ### What is read -/

theorem find_start (data : Text) (p : Panel) :
    (readlines (p.file data)).find? (fun line => startVar.isPrefixOf line) =
      ((readlines data).find? fun line => startVar.isPrefixOf line).map p.line := by
  rw [readlines_file, List.find?_map]
  exact congrArg (Option.map p.line) (congrArg (List.find? · _) (funext fun line => line_start p line))

theorem find_ssl (data : Text) (p : Panel) :
    (readlines (p.file data)).find? (fun line => sslVar.isPrefixOf line) =
      ((readlines data).find? fun line => sslVar.isPrefixOf line).map p.line := by
  rw [readlines_file, List.find?_map]
  exact congrArg (Option.map p.line) (congrArg (List.find? · _) (funext fun line => line_ssl p line))

/-- **The start that is read is the one of the panel.** -/
theorem read_start {data v : Text} (hread : readConf (some data) startVar 1 '=' = .ok (some v)) (p : Panel) :
    readConf (some (p.file data)) startVar 1 '=' = .ok (some (p.value v)) := by
  rw [readConf, Option.bind_some] at hread ⊢
  rw [find_start]
  cases hfind : (readlines data).find? fun line => startVar.isPrefixOf line with
  | none => simp [hfind] at hread
  | some line =>
    have hline := List.find?_some hfind
    simp only [hfind] at hread
    cases hstart : p.start with
    | none =>
      have hsame : p.line line = line := by simp [Panel.line, hline, hstart]
      simpa only [Option.map_some, hsame, Panel.value, hstart, Option.elim_none] using hread
    | some b =>
      obtain ⟨⟨hv, hv'⟩, -⟩ := vars_plain
      have hsaved : p.line line = startVar ++ '=' :: digit b ++ ['\n'] := by
        simp [Panel.line, hline, hstart]
      simp only [Option.map_some, hsaved, split_saved hv hv' (digit_plain b).1 (digit_plain b).2,
        Panel.value, hstart]
      rfl

/-- **What is read for the box of SSL is the name of the variable.** -/
theorem read_ssl_name (file : Option Text) : ∃ k, readConf file sslVar 0 '=' = .ok k ∧
    (k == some (digit true)) = false := by
  refine ⟨_, readConf_first file sslVar '=', ?_⟩
  cases hfind : file.bind fun data => (readlines data).find? fun line => sslVar.isPrefixOf line with
  | none => rfl
  | some line =>
    obtain ⟨data, -, hfind⟩ := Option.bind_eq_some_iff.mp hfind
    have hline := List.find?_some hfind
    obtain ⟨t, rfl⟩ := List.isPrefixOf_iff_prefix.mp hline
    obtain ⟨-, hnl, heq⟩ := vars_plain
    have hkey : (chomp (sslVar ++ t)).takeWhile (· != '=') = sslVar ++ (chomp t).takeWhile (· != '=') := by
      rw [chomp, List.filter_append, ← chomp, chomp_of_notMem hnl, List.takeWhile_append_of_pos]
      · rfl
      · intro c hc
        simpa using fun h : c = '=' => heq (h ▸ hc)
    have hlong : 1 < sslVar.length := by with_unfolding_all decide
    rw [Option.map_some, hkey, beq_eq_false_iff_ne]
    intro h
    have := congrArg List.length (Option.some.inj h)
    simp [digit] at this
    omega

/-! ### One step -/

section Step
variable {data v : Text} {m : Machine} {p : Panel} {w : Passwd.World} {crypt : Passwd.Crypt}

/-- **A window that is opened shows the start, and no SSL.** -/
theorem open_refines (hread : readConf (some data) startVar 1 '=' = .ok (some v))
    (hfile : m.standaloneFile = some (p.file data)) :
    ∃ x, initWindow m = .ok x ∧ Shows (p.value v) x ⟨p.value v == digit true, false, false⟩ ∧
      x.newpass = false := by
  obtain ⟨k, hk, hssl⟩ := read_ssl_name m.standaloneFile
  have hstart := read_start hread p
  rw [← hfile] at hstart
  refine ⟨_, by simp only [initWindow, hstart, hk, readConf_first m.standalonePass]; rfl, ?_, rfl⟩
  exact ⟨rfl, by simp, hssl, rfl⟩

/-- **Settings that are applied are those of the panel.** -/
theorem applyConf_refines {x : Window} {b : Boxes} (hfile : m.standaloneFile = some (p.file data))
    (hdaemon : m.asked.getLast? = p.daemon) (hx : Shows (p.value v) x b) :
    ∃ x', (applyConf m x).window = some x' ∧ Shows ((p.apply v b).value v) x' { b with changed := false } ∧
      x'.newpass = x.newpass ∧ (applyConf m x).standaloneFile = some ((p.apply v b).file data) ∧
      (applyConf m x).asked.getLast? = (p.apply v b).daemon := by
  obtain ⟨henabled, hstart, hssl, hchanged⟩ := hx
  have hfile' := file_ssl data p b.ssl
  unfold applyConf
  rw [hfile, hssl, hfile', hstart, henabled]
  by_cases hzero : p.value v = digit false
  · have hoff : (some (p.value v) != some (digit false)) = false := by simp [hzero]
    cases hb : b.start with
    | false =>
      have happly : p.apply v b = ⟨p.start, some b.ssl, p.daemon, some { b with changed := false }⟩ := by
        simp [Panel.apply, hb, hzero]
      simp only [hoff, if_false, happly, Bool.false_eq_true, List.append_nil, hdaemon]
      exact ⟨_, rfl, ⟨rfl, rfl, rfl, rfl⟩, rfl, rfl, trivial⟩
    | true =>
      have happly : p.apply v b = ⟨some true, some b.ssl, some .start, some { b with changed := false }⟩ := by
        simp [Panel.apply, hb, hzero]
      simp only [hoff, if_false, if_true, happly, Bool.false_eq_true, file_start]
      exact ⟨_, rfl, ⟨rfl, rfl, rfl, rfl⟩, rfl, rfl, by simp⟩
  · have hon : (some (p.value v) != some (digit false)) = true := by simp [hzero]
    cases hb : b.start with
    | false =>
      have happly : p.apply v b = ⟨some false, some b.ssl, some .stop, some { b with changed := false }⟩ := by
        simp [Panel.apply, hb, hzero]
      simp only [hon, if_true, happly, file_start]
      exact ⟨_, rfl, ⟨rfl, rfl, rfl, rfl⟩, rfl, rfl, by simp⟩
    | true =>
      have happly : p.apply v b = ⟨p.start, some b.ssl, some .start, some { b with changed := false }⟩ := by
        simp [Panel.apply, hb, hzero]
      simp only [hon, if_true, happly, Bool.true_eq_false, if_false]
      exact ⟨_, rfl, ⟨rfl, rfl, rfl, rfl⟩, rfl, rfl, by simp⟩

/-- The password file is no part of the panel. -/
theorem applyPass_refines {x x' : Window} (h : Refines data v m p) (hx : m.window = some x)
    (hsame : x'.daemonEnabled = x.daemonEnabled ∧ x'.ckStandaloneStart = x.ckStandaloneStart ∧
      x'.ckEnableSsl = x.ckEnableSsl ∧ x'.newconfig = x.newconfig) (pass : Option Text) :
    Refines data v { m with standalonePass := pass, window := some x' } p := by
  refine ⟨h.file, h.daemon, ?_⟩
  have hwindow := h.window
  rw [hx] at hwindow
  cases hb : p.boxes with
  | none => simp [hb] at hwindow
  | some b =>
    simp only [hb] at hwindow
    obtain ⟨henabled, hstart, hssl, hchanged⟩ := hsame
    exact ⟨henabled.trans hwindow.enabled, hstart.trans hwindow.start, hssl.trans hwindow.ssl,
      hchanged.trans hwindow.changed⟩

theorem applyChanges_refines {x : Window} {b : Boxes} (h : Refines data v m p)
    (hwindow : m.window = some x) (hx : Shows (p.value v) x b) :
    Refines data v (applyChanges w crypt m x) (if b.changed then p.apply v b else p) := by
  have hconf : ∃ x', (if x.newconfig then applyConf m x else m).window = some x' ∧
      Refines data v (if x.newconfig then applyConf m x else m) (if b.changed then p.apply v b else p) := by
    rw [hx.changed]
    cases hb : b.changed with
    | false => exact ⟨x, hwindow, h⟩
    | true =>
      obtain ⟨x', hx', hshows, -, hfile, hdaemon⟩ := applyConf_refines h.file h.daemon hx
      refine ⟨x', hx', hfile, hdaemon, ?_⟩
      simp only [if_true, hx']
      exact hshows
  obtain ⟨x', hx', href⟩ := hconf
  simp only [applyChanges, hx']
  split
  · refine applyPass_refines href hx' ?_ _
    exact ⟨rfl, rfl, rfl, rfl⟩
  · exact href

/-- **One event.** -/
theorem step_refines (hread : readConf (some data) startVar 1 '=' = .ok (some v)) (h : Refines data v m p)
    (e : Event) : Refines data v (step w crypt m e) (p.step v e) := by
  have hwindow := h.window
  cases hm : m.window with
  | none =>
    cases hb : p.boxes with
    | some b => simp [hm, hb] at hwindow
    | none =>
      cases e with
      | openApp =>
        obtain ⟨x, hopen, hx, -⟩ := open_refines hread h.file
        simp only [step, Panel.step, hm, hb, hopen]
        exact ⟨h.file, h.daemon, hx⟩
      | _ => simpa only [step, Panel.step, hm, hb] using h
  | some x =>
    cases hb : p.boxes with
    | none => simp [hm, hb] at hwindow
    | some b =>
      simp only [hm, hb] at hwindow
      obtain ⟨henabled, hstart, hssl, hchanged⟩ := hwindow
      have hsame : ∀ x', x'.daemonEnabled = x.daemonEnabled ∧ x'.ckStandaloneStart = x.ckStandaloneStart ∧
          x'.ckEnableSsl = x.ckEnableSsl ∧ x'.newconfig = x.newconfig →
          Refines data v { m with window := some x' } p := fun x' hx' => applyPass_refines h hm hx' _
      cases e with
      | openApp => simpa only [step, Panel.step, hm, hb] using h
      | quitapp =>
        simp only [step, Panel.step, hm, hb]
        exact ⟨h.file, h.daemon, trivial⟩
      | toggleStart =>
        simp only [step, Panel.step, hm, hb]
        exact ⟨h.file, h.daemon, henabled, congrArg (!·) hstart, hssl, rfl⟩
      | toggleSsl =>
        simp only [step, Panel.step, hm, hb]
        exact ⟨h.file, h.daemon, henabled, hstart, congrArg (!·) hssl, rfl⟩
      | typeUsername t =>
        simp only [step, Panel.step, hm, hb]
        exact hsame _ ⟨rfl, rfl, rfl, rfl⟩
      | typePassword t =>
        simp only [step, Panel.step, hm, hb]
        exact hsame _ ⟨rfl, rfl, rfl, rfl⟩
      | apply =>
        simp only [step, Panel.step, hm, hb]
        exact applyChanges_refines h hm ⟨henabled, hstart, hssl, hchanged⟩
      | stopDaemon | startDaemon =>
        simp only [step, Panel.step, hm, hb]
        exact ⟨h.file, by simp, by simpa only [hm, hb] using ⟨henabled, hstart, hssl, hchanged⟩⟩

theorem run_refines (hread : readConf (some data) startVar 1 '=' = .ok (some v)) (h : Refines data v m p)
    (es : List Event) : Refines data v (run (step w crypt) m es) (run (Panel.step v) p es) := by
  induction es generalizing m p with
  | nil => exact h
  | cons e es ih => exact ih (step_refines hread h e)

/-- Nothing was saved or asked. -/
theorem untouched (pass : Option Text) : Refines data v ⟨some data, pass, [], none⟩ {} := by
  refine ⟨?_, rfl, trivial⟩
  have hline : Panel.line {} = id := by
    funext line
    simp [Panel.line]
  rw [Panel.file, hline, List.map_id, flatten_readlines]

end Step

section Sessions
variable {data v : Text} (w : Passwd.World) (crypt : Passwd.Crypt)

/-- **The settings file and the window after any events.** -/
theorem sessions_refine (hread : readConf (some data) startVar 1 '=' = .ok (some v)) (pass : Option Text)
    (es : List Event) : Refines data v (run (step w crypt) ⟨some data, pass, [], none⟩ es)
      (run (Panel.step v) {} es) :=
  run_refines hread (untouched pass) es

/-- What is not done in a session. -/
def Event.within : Event → Bool
  | .openApp | .quitapp => false
  | _ => true

/-! ### What a session does not know -/

/-- The box of SSL is as it was opened. -/
theorem unticked {p : Panel} (hp : ∀ b ∈ p.boxes, b.ssl = false) {es : List Event}
    (hes : ∀ e ∈ es, e.within = true ∧ e ≠ .toggleSsl) : ∀ b ∈ (run (Panel.step v) p es).boxes, b.ssl = false := by
  induction es generalizing p with
  | nil => exact hp
  | cons e es ih =>
    obtain ⟨⟨hwithin, hne⟩, hes⟩ := List.forall_mem_cons.mp hes
    refine ih ?_ hes
    cases hb : p.boxes with
    | none => cases e <;> simp_all [Panel.step, Event.within]
    | some x =>
      have hx := hp x (by simp [hb])
      cases e with
      | openApp | quitapp => exact absurd hwithin (by simp [Event.within])
      | toggleSsl => exact absurd rfl hne
      | apply =>
        simp only [Panel.step, hb]
        split
        · simpa [Panel.apply] using hx
        · simpa [hb] using hx
      | _ => simpa [Panel.step, hb] using hx

theorem quit_boxes (v : Text) (p : Panel) : (p.step v .quitapp).boxes = none := by
  cases hb : p.boxes with
  | none => simp [Panel.step, hb]
  | some b => simp [Panel.step, hb]

theorem open_boxes (v : Text) {p : Panel} (h : p.boxes = none) :
    (p.step v .openApp).boxes = some ⟨p.value v == digit true, false, false⟩ := by
  simp [Panel.step, h]

theorem read_ssl {p : Panel} {b : Bool} (hssl : ∃ line ∈ readlines data, sslVar <+: line)
    (hp : p.ssl = some b) : readConf (some (p.file data)) sslVar 1 '=' = .ok (some (digit b)) := by
  obtain ⟨line, hline, hpre⟩ := hssl
  obtain ⟨-, hv, hv'⟩ := vars_plain
  have hfound := List.find?_isSome.mpr ⟨line, hline, List.isPrefixOf_iff_prefix.mpr hpre⟩
  obtain ⟨l, hl⟩ := Option.isSome_iff_exists.mp hfound
  have hown := List.find?_some hl
  have hother : startVar.isPrefixOf l = false := by
    rw [Bool.eq_false_iff]
    intro h
    exact absurd hown (by simp [not_both h])
  have hsaved : p.line l = sslVar ++ '=' :: digit b ++ ['\n'] := by
    simp [Panel.line, hother, hown, hp]
  rw [readConf, Option.bind_some, find_ssl, hl]
  simp only [Option.map_some, hsaved, split_saved hv hv' (digit_plain b).1 (digit_plain b).2]
  rfl

/-- **Whatever the setting of SSL was: the first change of a session that leaves its box alone turns SSL
off.** -/
theorem ssl_forgotten (hread : readConf (some data) startVar 1 '=' = .ok (some v))
    (hssl : ∃ line ∈ readlines data, sslVar <+: line) (pass : Option Text) (before session : List Event)
    (hsession : ∀ e ∈ session, e.within = true ∧ e ≠ .toggleSsl)
    (hchanged : (run (step w crypt) ⟨some data, pass, [], none⟩
      (before ++ .quitapp :: .openApp :: session)).window.any (·.newconfig) = true) :
    readConf (run (step w crypt) ⟨some data, pass, [], none⟩
      (before ++ .quitapp :: .openApp :: session ++ [.apply])).standaloneFile sslVar 1 '=' =
        .ok (some (digit false)) := by
  have hrefines := @run_refines data v ⟨some data, pass, [], none⟩ {} w crypt hread (untouched pass)
  have hafter := hrefines (before ++ .quitapp :: .openApp :: session ++ [.apply])
  have hbefore := (hrefines (before ++ .quitapp :: .openApp :: session)).window
  rw [hafter.file]
  refine read_ssl hssl ?_
  obtain ⟨x, hx, hnew⟩ := (Option.any_eq_true _ _).mp hchanged
  have hboxes : ∀ b ∈ (run (Panel.step v) {} (before ++ .quitapp :: .openApp :: session)).boxes,
      b.ssl = false := by
    have hopened : ∀ b ∈ (((run (Panel.step v) {} before).step v .quitapp).step v .openApp).boxes,
        b.ssl = false := by
      rw [open_boxes v (quit_boxes v _)]
      simp
    rw [Systems.run_append]
    exact unticked hopened hsession
  rw [Systems.run_append]
  cases hb : (run (Panel.step v) {} (before ++ .quitapp :: .openApp :: session)).boxes with
  | none => simp [hx, hb] at hbefore
  | some b =>
    simp only [hx, hb] at hbefore
    have hchange : b.changed = true := hbefore.changed ▸ hnew
    have happly : Panel.step v (run (Panel.step v) {} (before ++ .quitapp :: .openApp :: session)) .apply =
        (run (Panel.step v) {} (before ++ .quitapp :: .openApp :: session)).apply v b := by
      simp only [Panel.step, hb, hchange, if_true]
    rw [run, List.foldl_cons, List.foldl_nil, happly, Panel.apply, hboxes b (by simp [hb])]

/-- Settings do not touch the password file, nor what is typed for it. -/
theorem applyConf_pass (m : Machine) (x : Window) : (applyConf m x).standalonePass = m.standalonePass ∧
    ∃ x', (applyConf m x).window = some x' ∧ x'.txtUsername = x.txtUsername ∧
      x'.txtPassword = x.txtPassword ∧ x'.newpass = x.newpass := by
  simp only [applyConf]
  cases x.daemonEnabled != some (digit false) <;> cases x.ckStandaloneStart <;>
    exact ⟨rfl, _, rfl, rfl, rfl, rfl⟩

theorem applyChanges_pass (m : Machine) {x : Window} (hm : m.window = some x) :
    (applyChanges w crypt m x).standalonePass = (if x.newpass then
      some (w.applyChanges crypt x.txtUsername x.txtPassword).content else m.standalonePass) ∧
    ∃ x', (applyChanges w crypt m x).window = some x' ∧ x'.txtUsername = x.txtUsername := by
  obtain ⟨hpass, hwindow⟩ := applyConf_pass m x
  have hconf : (if x.newconfig then applyConf m x else m).standalonePass = m.standalonePass ∧
      ∃ x', (if x.newconfig then applyConf m x else m).window = some x' ∧
        x'.txtUsername = x.txtUsername ∧ x'.txtPassword = x.txtPassword ∧ x'.newpass = x.newpass := by
    split
    · exact ⟨hpass, hwindow⟩
    · exact ⟨rfl, x, hm, rfl, rfl, rfl⟩
  obtain ⟨hsame, x', hx', huser, hpassword, hnew⟩ := hconf
  simp only [applyChanges, hx', hnew]
  split
  · exact ⟨by rw [applyPass, huser, hpassword], _, rfl, huser⟩
  · exact ⟨hsame, x', hx', huser⟩

/-- The user name stays in its field. -/
theorem step_user {m : Machine} {e : Event} (hwithin : e.within = true) (he : ∀ t, e ≠ .typeUsername t)
    {u : Text} (hu : ∀ x ∈ m.window, x.txtUsername = u) :
    ∀ x ∈ (step w crypt m e).window, x.txtUsername = u := by
  cases hm : m.window with
  | none => cases e <;> simp_all [step, Event.within]
  | some x =>
    have hx := hu x (by simp [hm])
    cases e with
    | openApp | quitapp => exact absurd hwithin (by simp [Event.within])
    | typeUsername t => exact absurd rfl (he t)
    | apply =>
      obtain ⟨-, x', hx', huser⟩ := applyChanges_pass w crypt m hm
      simp only [step, hm, hx', Option.mem_some_iff]
      rintro y rfl
      exact huser.trans hx
    | stopDaemon | startDaemon => simpa [step, hm] using hx
    | _ => simpa [step, hm] using hx

theorem run_user {m : Machine} {es : List Event}
    (hes : ∀ e ∈ es, e.within = true ∧ ∀ t, e ≠ .typeUsername t) {u : Text}
    (hu : ∀ x ∈ m.window, x.txtUsername = u) : ∀ x ∈ (run (step w crypt) m es).window, x.txtUsername = u := by
  induction es generalizing m with
  | nil => exact hu
  | cons e es ih =>
    obtain ⟨⟨hwithin, he⟩, hes⟩ := List.forall_mem_cons.mp hes
    exact ih hes (step_user w crypt hwithin he hu)

/-- The user who is shown is one whose name starts with `root`. -/
theorem read_user {u h : Text} (hu : '\n' ∉ u ∧ ':' ∉ u) (hh : '\n' ∉ h) :
    readConf (some (u ++ ':' :: h ++ ['\n'])) (lit "root") 0 ':' =
      .ok (if lit "root" <+: u then some u else none) := by
  have hlines : readlines (u ++ ':' :: h ++ ['\n']) = [u ++ ':' :: h ++ ['\n']] := by
    have hnl : '\n' ∉ u ++ ':' :: h := by simp [hu.1, hh]
    simpa [readlines] using readlines_line hnl []
  have hpre : (lit "root").isPrefixOf (u ++ ':' :: h ++ ['\n']) = true ↔ lit "root" <+: u := by
    rw [List.isPrefixOf_iff_prefix, List.append_assoc]
    refine ⟨fun hp => ?_, fun hp => hp.trans (List.prefix_append ..)⟩
    rcases List.prefix_or_prefix_of_prefix hp (List.prefix_append ..) with hroot | hroot
    · exact hroot
    · -- a name that ends within `root` is followed by the colon
      obtain ⟨t, ht⟩ := hroot
      rw [← ht] at hp
      have ht' := (List.prefix_append_right_inj u).mp hp
      cases t with
      | nil => rw [← ht, List.append_nil]
      | cons c t =>
        obtain ⟨rfl, -⟩ := List.cons_prefix_cons.mp ht'
        have hcolon : ':' ∉ lit "root" := by with_unfolding_all decide
        exact absurd (ht ▸ by simp) hcolon
  rw [readConf_first, Option.bind_some, hlines, List.find?_singleton]
  by_cases hroot : lit "root" <+: u
  · have hkey : (chomp (u ++ ':' :: h ++ ['\n'])).takeWhile (· != ':') = u := by
      rw [chomp_line (by simp [hu.1, hh]), List.takeWhile_append_of_pos fun c hc => by
        simpa using fun h : c = ':' => hu.2 (h ▸ hc)]
      simp
    rw [if_pos (hpre.mpr hroot), if_pos hroot, Option.map_some, hkey]
  · rw [if_neg (mt hpre.mp hroot), if_neg hroot]
    rfl

theorem initWindow_user {m : Machine} {user : Option Text} {x : Window}
    (huser : readConf m.standalonePass (lit "root") 0 ':' = .ok user) (hx : initWindow m = .ok x) :
    x.txtUsername = user.getD [] := by
  rw [initWindow, huser] at hx
  split at hx
  case h_1 =>
    obtain rfl := Except.ok.inj hx
    simp_all
  all_goals exact absurd hx (by simp)

/-- **The next session knows a user whose name starts with `root`, and no other.** -/
theorem user_forgotten {m : Machine} {x : Window} (hm : m.window = some x) (hnew : x.newpass = true)
    (hu : '\n' ∉ x.txtUsername ∧ ':' ∉ x.txtUsername)
    (hprinted : '\n' ∉ w.percentS (w.exeCmd crypt (Passwd.tcospasswdProgram ++ ' ' :: x.txtPassword)).1)
    (session : List Event) (hsession : ∀ e ∈ session, e.within = true ∧ ∀ t, e ≠ .typeUsername t)
    {y : Window} (hy : (run (step w crypt) m (.apply :: .quitapp :: .openApp :: session)).window = some y) :
    y.txtUsername = (if lit "root" <+: x.txtUsername then x.txtUsername else []) ∧
      (y.newpass = true → (run (step w crypt) m
        (.apply :: .quitapp :: .openApp :: session ++ [.apply])).standalonePass =
          some (w.applyChanges crypt (if lit "root" <+: x.txtUsername then x.txtUsername else [])
            y.txtPassword).content) := by
  obtain ⟨hpass, x', hx', -⟩ := applyChanges_pass w crypt m hm
  rw [hnew, if_pos rfl] at hpass
  have hopen : ∀ z ∈ (run (step w crypt) m [.apply, .quitapp, .openApp]).window,
      z.txtUsername = if lit "root" <+: x.txtUsername then x.txtUsername else [] := by
    have hread := read_user hu hprinted
    intro z hz
    simp only [run, List.foldl_cons, List.foldl_nil, step, hm, hx'] at hz
    split at hz
    case h_2 => simp at hz
    case h_1 z' hinit =>
      obtain rfl : z' = z := by simpa using hz
      have huser : readConf (applyChanges w crypt m x).standalonePass (lit "root") 0 ':' =
          .ok (if lit "root" <+: x.txtUsername then some x.txtUsername else none) := by
        rw [hpass]
        exact hread
      rw [initWindow_user huser hinit]
      split_ifs <;> rfl
  have hname := run_user w crypt hsession hopen y hy
  refine ⟨hname, fun hypass => ?_⟩
  obtain ⟨hfile, -⟩ := applyChanges_pass w crypt _ hy
  rw [hypass, if_pos rfl, hname] at hfile
  rw [← hfile, Systems.run_append]
  simp only [run, List.foldl_cons, List.foldl_nil, step] at hy ⊢
  rw [hy]

end Sessions

/-! ### Two sessions -/

/-- Nothing but what is shown happens, and the hash is always the same. -/
def bare : Passwd.World where
  glob v := [v]
  manyWords _ := false
  tty := []
  noDir _ := false
  etc := rfl
  sh _ := ([], false)
  repr _ := []

def sameHash : Passwd.Crypt := fun _ =>
  ⟨lit "x", by with_unfolding_all decide, Shell.each (by with_unfolding_all decide)⟩

def bothOn : Text := lit "TCOS_STANDALONE_START=1\nTCOS_DEBUG=0\nTCOS_XMLRPC_SSL=1\n"

/-- SSL is turned on, then the start off. -/
theorem sessions_refine_off : Refines bothOn (lit "1")
    (run (step bare sameHash) ⟨some bothOn, none, [], none⟩
      [.openApp, .toggleSsl, .apply, .quitapp, .openApp, .toggleStart, .apply])
    (run (Panel.step (lit "1")) {}
      [.openApp, .toggleSsl, .apply, .quitapp, .openApp, .toggleStart, .apply]) :=
  sessions_refine bare sameHash (by with_unfolding_all rfl) none _

theorem ssl_forgotten_start : readConf (run (step bare sameHash) ⟨some bothOn, none, [], none⟩
    ([] ++ .quitapp :: .openApp :: [.toggleStart] ++ [.apply])).standaloneFile sslVar 1 '=' =
      .ok (some (digit false)) :=
  ssl_forgotten bare sameHash (v := lit "1") (by with_unfolding_all rfl)
    ⟨lit "TCOS_XMLRPC_SSL=1\n", by with_unfolding_all decide, by with_unfolding_all decide⟩ none []
    [.toggleStart] (by simp [Event.within]) (by with_unfolding_all rfl)

/-- `mario` is not shown again; a new password is written for nobody. -/
theorem user_forgotten_mario : (run (step bare sameHash)
    ⟨none, none, [], some ⟨none, false, false, lit "mario", lit "a", false, true⟩⟩
    ([.apply, .quitapp, .openApp, .typePassword (lit "b")] ++ [.apply])).standalonePass = some (lit ":x\n") := by
  obtain ⟨-, h⟩ := user_forgotten bare sameHash (m := ⟨none, none, [], some
    ⟨none, false, false, lit "mario", lit "a", false, true⟩⟩) rfl rfl (by with_unfolding_all decide)
    (by with_unfolding_all decide) [.typePassword (lit "b")] (by simp [Event.within])
    (y := ⟨none, false, false, [], lit "b", false, true⟩) (by with_unfolding_all rfl)
  exact (h rfl).trans (by with_unfolding_all rfl)

end Tcos.Standalone
