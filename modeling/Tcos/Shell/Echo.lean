import Tcos.Shell.Commands

/-! `echo` as the shells have it.

Some shells (`xsi`) know only `-n`, as the first word, and replace backslash sequences in all the
others; the rest know `-n`, `-e` and `-E` and replace the sequences after an `-e` only. All know the
sequences of the standard, and which ones a shell has beyond them (`Escapes`) is left open. A text
without sequences is printed as it is, and a text with one comes out shorter (`unescape_iff`). -/
namespace Tcos.Shell

/-! ### Backslashes -/

/-- The sequences of a shell beyond those of the standard. -/
structure Escapes where
  /-- Of the byte behind the backslash and the text behind it: what is printed, and how much of the
  text belongs to the sequence. -/
  read : Char → Text → Option (Text × Nat)
  letter : ∀ d s, d.isAlphanum = false → read d s = none
  shorter : ∀ d s t k, read d s = some (t, k) → k ≤ s.length ∧ t.length ≤ k + 1
  ends : ∀ d s c t, c.isAlphanum = false → read d (s ++ c :: t) = read d s
  grows : ∀ d s t, (read d s).isSome = true → (read d (s ++ t)).isSome = true

def isOctalDigit (c : Char) : Bool := '0' ≤ c && c ≤ '7'

/-- The octal number at the start of a text, of a few digits at most. -/
def octalDigits (few : Nat) (s : Text) : Text := (s.take few).takeWhile isOctalDigit

def octalValue (digits : Text) : Char :=
  Char.ofNat (digits.foldl (fun n d => 8 * n + (d.toNat - 48)) 0 % 256)

def control : Char → Option Char
  | 'a' => some '\x07'
  | 'b' => some '\x08'
  | 'f' => some '\x0c'
  | 'n' => some '\n'
  | 'r' => some '\r'
  | 't' => some '\t'
  | 'v' => some '\x0b'
  | '\\' => some '\\'
  | _ => none

section Sequences
variable (E : Escapes)

/-- The sequence of a byte behind a backslash. -/
def Escapes.sequence (d : Char) (s : Text) : Option (Text × Nat) :=
  -- `\c` ends the output
  if d = 'c' then some ([], s.length)
  else if d = '0' then some ([octalValue (octalDigits 3 s)], (octalDigits 3 s).length)
  else
    match control d with
    | some c => some ([c], 0)
    | none => E.read d s

/-- The sequence that a byte begins. -/
def Escapes.opens (c : Char) (s : Text) : Option (Text × Nat) :=
  if c = '\\' then s.head?.bind fun d => E.sequence d s.tail else none

/-- The text with its sequences replaced; `skip` bytes belong to the last one. -/
def unescape : Nat → Text → Text
  | _, [] => []
  | skip + 1, _ :: s => unescape skip s
  | 0, c :: s =>
    match E.opens c s with
    | none => c :: unescape 0 s
    | some (t, k) => t ++ unescape (k + 1) s

/-- Nothing in the text is replaced. -/
def isRaw : Text → Bool
  | [] => true
  | c :: s => (E.opens c s).isNone && isRaw s

variable {E}

theorem octalDigits_length (few : Nat) (s : Text) : (octalDigits few s).length ≤ s.length :=
  (List.takeWhile_prefix _).length_le.trans (by simp)

theorem octalDigits_append {c : Char} (hc : isOctalDigit c = false) (few : Nat) (s t : Text) :
    octalDigits few (s ++ c :: t) = octalDigits few s := by
  induction s generalizing few with
  | nil => cases few <;> simp [octalDigits, hc]
  | cons d s ih =>
    cases few with
    | zero => rfl
    | succ few =>
      have hrest := ih few
      unfold octalDigits at hrest ⊢
      simp only [List.cons_append, List.take_succ_cons, List.takeWhile_cons, hrest]

/-- A letter or digit is no other byte. -/
theorem ne_of_alphanum {c d : Char} (hc : c.isAlphanum = false) (hd : d.isAlphanum = true) : d ≠ c := by
  rintro rfl
  exact absurd (hd.symm.trans hc) (by simp)

theorem not_octal {c : Char} (hc : c.isAlphanum = false) : isOctalDigit c = false := by
  rw [← Bool.not_eq_true]
  intro h
  rw [isOctalDigit, Bool.and_eq_true, decide_eq_true_eq, decide_eq_true_eq] at h
  have hdigit : c.isDigit = true := by
    rw [Char.isDigit, Bool.and_eq_true, decide_eq_true_eq, decide_eq_true_eq]
    exact ⟨h.1, h.2.trans (by decide)⟩
  rw [Char.isAlphanum, hdigit, Bool.or_true] at hc
  exact absurd hc (by simp)

/-- No sequences but those of the standard. -/
def Escapes.standard : Escapes where
  read _ _ := none
  letter _ _ _ := rfl
  shorter _ _ _ _ h := absurd h (by simp)
  ends _ _ _ _ _ := rfl
  grows _ _ _ h := absurd h (by simp)

/-- `\e`, and octal numbers without the `0`. -/
def Escapes.dash : Escapes where
  read d s :=
    if d = 'e' then some (['\x1b'], 0)
    else if isOctalDigit d then some ([octalValue (d :: octalDigits 2 s)], (octalDigits 2 s).length)
    else none
  letter d s hd := by
    rw [if_neg (ne_of_alphanum hd (by decide)).symm, not_octal hd]
    rfl
  shorter d s t k h := by
    split_ifs at h
    all_goals
      obtain ⟨rfl, rfl⟩ := Prod.mk.inj (Option.some.inj h)
      first | exact ⟨octalDigits_length 2 s, by simp⟩ | simp
  ends d s c t hc := by rw [octalDigits_append (not_octal hc)]
  grows d s t h := by split_ifs at * <;> simp_all

theorem control_letter {d c : Char} (h : control d = some c) : d.isAlphanum = true ∨ d = '\\' := by
  unfold control at h
  split at h <;> simp_all

theorem Escapes.sequence_shorter {d : Char} {s t : Text} {k : Nat} (h : E.sequence d s = some (t, k)) :
    k ≤ s.length ∧ t.length ≤ k + 1 := by
  unfold Escapes.sequence at h
  split at h
  case isTrue =>
    obtain ⟨rfl, rfl⟩ := Prod.mk.inj (Option.some.inj h)
    simp
  case isFalse =>
    split at h
    case isTrue =>
      obtain ⟨rfl, rfl⟩ := Prod.mk.inj (Option.some.inj h)
      exact ⟨octalDigits_length 3 s, by simp⟩
    case isFalse =>
      split at h
      case h_1 =>
        obtain ⟨rfl, rfl⟩ := Prod.mk.inj (Option.some.inj h)
        simp
      case h_2 => exact E.shorter _ _ _ _ h

/-- A byte that is no letter, digit or backslash belongs to no sequence. -/
theorem Escapes.sequence_other {d : Char} (hd : d.isAlphanum = false) (hslash : d ≠ '\\') (s : Text) :
    E.sequence d s = none := by
  have hcontrol : control d = none := by
    cases h : control d with
    | none => rfl
    | some c =>
      rcases control_letter h with hyes | hyes
      · exact absurd (hyes.symm.trans hd) (by simp)
      · exact absurd hyes hslash
  have hc : d ≠ 'c' := (ne_of_alphanum hd (by decide)).symm
  have hzero : d ≠ '0' := (ne_of_alphanum hd (by decide)).symm
  rw [Escapes.sequence, if_neg hc, if_neg hzero, hcontrol]
  exact E.letter d s hd

theorem Escapes.sequence_ends {c : Char} (hc : c.isAlphanum = false) {d : Char} (hd : d ≠ 'c') (s t : Text) :
    E.sequence d (s ++ c :: t) = E.sequence d s := by
  unfold Escapes.sequence
  rw [if_neg hd, if_neg hd, octalDigits_append (not_octal hc), E.ends d s c t hc]

theorem Escapes.sequence_grows {d : Char} {s : Text} (t : Text) (h : (E.sequence d s).isSome = true) :
    (E.sequence d (s ++ t)).isSome = true := by
  unfold Escapes.sequence at *
  split_ifs at * with hc hzero
  · rfl
  · rfl
  · cases hcontrol : control d with
    | some c => rfl
    | none =>
      simp only [hcontrol] at h
      exact E.grows d s t h

theorem Escapes.opens_shorter {c : Char} {s t : Text} {k : Nat} (h : E.opens c s = some (t, k)) :
    k + 1 ≤ s.length ∧ t.length ≤ k + 1 := by
  unfold Escapes.opens at h
  split at h
  case isTrue =>
    cases s with
    | nil => exact absurd h (by simp)
    | cons d s =>
      obtain ⟨hk, ht⟩ := Escapes.sequence_shorter h
      exact ⟨Nat.succ_le_succ hk, ht⟩
  case isFalse => exact absurd h (by simp)

theorem Escapes.opens_other {c : Char} (hc : c ≠ '\\') (s : Text) : E.opens c s = none := if_neg hc

variable (E)

theorem unescape_length (skip : Nat) (s : Text) : (unescape E skip s).length ≤ s.length - skip := by
  induction s generalizing skip with
  | nil => simp [unescape]
  | cons c s ih =>
    cases skip with
    | succ skip => simpa [unescape] using ih skip
    | zero =>
      rw [unescape]
      split
      case h_1 =>
        have hrest := ih 0
        simpa using hrest
      case h_2 t k h =>
        obtain ⟨hk, ht⟩ := Escapes.opens_shorter h
        have hrest := ih (k + 1)
        simp only [List.length_append, List.length_cons]
        omega

variable {E}

theorem unescape_raw {s : Text} (h : isRaw E s = true) : unescape E 0 s = s := by
  induction s with
  | nil => rfl
  | cons c s ih =>
    rw [isRaw, Bool.and_eq_true, Option.isNone_iff_eq_none] at h
    rw [unescape, h.1]
    dsimp only
    rw [ih h.2]

/-- **What is replaced is longer than what it is replaced with.** -/
theorem unescape_shorter {s : Text} (h : isRaw E s = false) : (unescape E 0 s).length < s.length := by
  induction s with
  | nil => exact absurd h (by simp [isRaw])
  | cons c s ih =>
    rw [unescape]
    split
    case h_1 hnone =>
      rw [isRaw, hnone, Option.isNone_none, Bool.true_and] at h
      simpa using ih h
    case h_2 t k hsome =>
      obtain ⟨hk, ht⟩ := Escapes.opens_shorter hsome
      have hrest := unescape_length E (k + 1) s
      simp only [List.length_append, List.length_cons]
      omega

theorem unescape_iff (s : Text) : unescape E 0 s = s ↔ isRaw E s = true := by
  refine ⟨fun h => ?_, unescape_raw⟩
  by_contra hno
  have hlt := unescape_shorter (by simpa using hno)
  rw [h] at hlt
  exact absurd hlt (Nat.lt_irrefl _)

theorem Escapes.opens_grows {c : Char} {s : Text} (t : Text) (h : (E.opens c s).isSome = true) :
    (E.opens c (s ++ t)).isSome = true := by
  unfold Escapes.opens at *
  split_ifs at * with hc
  · cases s with
    | nil => exact absurd h (by simp)
    | cons d s => exact Escapes.sequence_grows t h
  · exact h

theorem isRaw_left {s t : Text} (h : isRaw E (s ++ t) = true) : isRaw E s = true := by
  induction s with
  | nil => rfl
  | cons c s ih =>
    rw [List.cons_append, isRaw, Bool.and_eq_true, Option.isNone_iff_eq_none] at h
    rw [isRaw, ih h.2, Bool.and_true, ← Option.not_isSome, Bool.not_eq_true', ← Bool.not_eq_true]
    intro hsome
    have hmore := Escapes.opens_grows t hsome
    rw [h.1] at hmore
    exact absurd hmore (by simp)

theorem unescape_other {c : Char} (hslash : c ≠ '\\') (t : Text) :
    unescape E 0 (c :: t) = c :: unescape E 0 t := by
  rw [unescape, Escapes.opens_other hslash]

/-- `\c` leaves out what follows. -/
theorem unescape_cut {s : Text} (h : s.head? = some 'c') : unescape E 0 ('\\' :: s) = [] := by
  have hopens : E.opens '\\' s = some ([], s.tail.length) := by
    rw [Escapes.opens, if_pos rfl, h]
    rfl
  have hlength := unescape_length E (s.tail.length + 1) s
  rw [unescape, hopens]
  have hnone : (unescape E (s.tail.length + 1) s).length = 0 := by
    rw [List.length_tail] at hlength ⊢
    omega
  exact List.length_eq_zero_iff.mp hnone

theorem Escapes.opens_append {c : Char} (hc : c.isAlphanum = false) (hslash : c ≠ '\\') (d : Char) (s t : Text) :
    E.opens d (s ++ c :: t) = E.opens d s ∨ d = '\\' ∧ s.head? = some 'c' := by
  unfold Escapes.opens
  split
  case isFalse => exact .inl rfl
  case isTrue hd =>
    cases s with
    | nil => exact .inl (Escapes.sequence_other hc hslash t)
    | cons e s =>
      by_cases he : e = 'c'
      · exact .inr ⟨hd, congrArg some he⟩
      · exact .inl (Escapes.sequence_ends hc he s t)

/-- Two texts and a byte between them that no backslash is read with. -/
theorem isRaw_append {c : Char} (hc : c.isAlphanum = false) (hslash : c ≠ '\\') (s t : Text) :
    isRaw E (s ++ c :: t) = (isRaw E s && isRaw E t) := by
  induction s with
  | nil => simp [isRaw, Escapes.opens_other hslash]
  | cons d s ih =>
    have hopens : (E.opens d (s ++ c :: t)).isNone = (E.opens d s).isNone := by
      rcases Escapes.opens_append hc hslash d s t with h | ⟨rfl, h⟩
      · rw [h]
      · simp [Escapes.opens, List.head?_append, h, Escapes.sequence]
    rw [List.cons_append, isRaw, isRaw, hopens, ih, Bool.and_assoc]

/-- The sequences of a text end before a byte that belongs to none; `\c` leaves the rest out. -/
theorem unescape_append {c : Char} (hc : c.isAlphanum = false) (hslash : c ≠ '\\') (skip : Nat)
    (s t : Text) (hskip : skip ≤ s.length) :
    unescape E skip (s ++ c :: t) = unescape E skip s ∨
      unescape E skip (s ++ c :: t) = unescape E skip s ++ c :: unescape E 0 t := by
  induction s generalizing skip with
  | nil =>
    obtain rfl : skip = 0 := by simpa using hskip
    exact .inr (unescape_other hslash t)
  | cons d s ih =>
    cases skip with
    | succ skip => exact ih skip (by simpa using hskip)
    | zero =>
      have hmore : ∀ (u : Text) (k : Nat), k ≤ s.length →
          u ++ unescape E k (s ++ c :: t) = u ++ unescape E k s ∨
            u ++ unescape E k (s ++ c :: t) = u ++ unescape E k s ++ c :: unescape E 0 t := by
        intro u k hk
        rcases ih k hk with h | h <;> simp [h]
      rcases Escapes.opens_append hc hslash d s t with hopens | ⟨rfl, hcut⟩
      case inl =>
        rw [List.cons_append, unescape, unescape, hopens]
        cases h : E.opens d s with
        | none => exact hmore [d] 0 (Nat.zero_le _)
        | some u => exact hmore u.1 (u.2 + 1) (Escapes.opens_shorter h).1
      case inr =>
        have hcut' : (s ++ c :: t).head? = some 'c' := by simp [List.head?_append, hcut]
        left
        rw [List.cons_append, unescape_cut hcut', unescape_cut hcut]

theorem isRaw_of_not_mem {t : Text} (h : '\\' ∉ t) : isRaw E t = true := by
  induction t with
  | nil => rfl
  | cons c t ih =>
    obtain ⟨hc, ht⟩ := not_or.mp (List.mem_cons.not.mp h)
    rw [isRaw, Escapes.opens_other (Ne.symm hc), ih ht]
    rfl

end Sequences

/-! ### Options and words -/

/-- `-n`, `-e`, `-E` and several in one. -/
def isOption : Text → Bool
  | '-' :: t => !t.isEmpty && t.all fun c => c == 'n' || c == 'e' || c == 'E'
  | _ => false

/-- The shell of a script. -/
structure Sh where
  xsi : Bool
  more : Escapes
  glob : Glob
  /-- The files of the directory have names of one word, without backslashes. -/
  names : ∀ w, ∀ v ∈ glob w, v = w ∨ ((∀ c ∈ v, isIfs c = false ∧ c ≠ '\\') ∧ v ≠ [])

theorem names_self (w : Text) : ∀ v ∈ [w], v = w ∨ ((∀ c ∈ v, isIfs c = false ∧ c ≠ '\\') ∧ v ≠ []) :=
  fun _ h => .inl (List.mem_singleton.mp h)

/-- A word that `echo` does not print. -/
def Sh.isOption (sh : Sh) (w : Text) : Bool := if sh.xsi then w == lit "-n" else Shell.isOption w

/-- Options have a dash and these letters. -/
theorem Sh.isOption_of_mem (sh : Sh) {w : Text} {c : Char} (hc : c ∉ ['-', 'n', 'e', 'E']) (h : c ∈ w) :
    sh.isOption w = false := by
  unfold Sh.isOption
  split
  case isTrue =>
    have hlit : lit "-n" = ['-', 'n'] := by with_unfolding_all decide
    rw [beq_eq_false_iff_ne, hlit]
    rintro rfl
    exact hc (List.mem_append_left ['e', 'E'] h)
  case isFalse =>
    unfold Shell.isOption
    split
    case h_1 t =>
      rw [Bool.and_eq_false_iff, List.all_eq_false]
      refine .inr ⟨c, (List.mem_cons.mp h).resolve_left (by grind), ?_⟩
      simp_all
    case h_2 => rfl

def Sh.options (sh : Sh) (ws : List Text) : List Text :=
  if sh.xsi then (ws.take 1).filter (· = lit "-n") else ws.takeWhile Shell.isOption

/-- The sequences are replaced. -/
def Sh.escapes (sh : Sh) (options : List Text) : Bool :=
  sh.xsi || (options.flatten.filter fun c => c == 'e' || c == 'E').getLast? == some 'e'

def Sh.echo (sh : Sh) (ws : List Text) : Text :=
  let options := sh.options ws
  let line := unwords (ws.drop options.length) ++ if options.any fun w => 'n' ∈ w then [] else ['\n']
  if sh.escapes options then unescape sh.more 0 line else line

/-- The words of an unquoted expansion. -/
def Sh.expand (sh : Sh) (t : Text) : List Text := sh.glob.expand t

/-- What a shell prints that replaces sequences if it is `xsi` only. -/
def Sh.print (sh : Sh) (t : Text) : Text := if sh.xsi then unescape sh.more 0 t else t

theorem isOption_quiet : isOption (lit "-n") = true := by with_unfolding_all decide

/-- **Words after `-n`.** -/
theorem echo_quiet (sh : Sh) {w : Text} (hw : isOption w = false) :
    sh.echo [lit "-n", w] = sh.print w := by
  have hn : ([lit "-n"] : List Text).any (fun w => 'n' ∈ w) = true := by with_unfolding_all decide
  have hoptions : sh.options [lit "-n", w] = [lit "-n"] := by
    unfold Sh.options
    split
    · simp
    · simp [isOption_quiet, hw]
  have hescapes : sh.escapes [lit "-n"] = sh.xsi := by
    have hnone : (([lit "-n"] : List Text).flatten.filter fun c => c == 'e' || c == 'E').getLast? =
      none := by
      with_unfolding_all decide
    rw [Sh.escapes, hnone]
    simp
  rw [Sh.echo, hoptions, hescapes, hn, Sh.print]
  simp [unwords]

/-- Words of which the first is no option. -/
theorem echo_words (sh : Sh) {ws : List Text} (hws : ∀ w, ws.head? = some w → sh.isOption w = false) :
    sh.echo ws = sh.print (unwords ws ++ ['\n']) := by
  have hoptions : sh.options ws = [] := by
    cases ws with
    | nil => simp [Sh.options]
    | cons w ws =>
      have hw := hws w rfl
      unfold Sh.isOption at hw
      unfold Sh.options
      split at hw <;> simp_all
  have hescapes : sh.escapes [] = sh.xsi := by simp [Sh.escapes]
  rw [Sh.echo, hoptions, hescapes, Sh.print]
  simp

/-- **What is printed as it is.** -/
theorem print_iff (sh : Sh) (t : Text) : sh.print t = t ↔ (sh.xsi = true → isRaw sh.more t = true) := by
  unfold Sh.print
  split
  case isTrue h => simp [unescape_iff, h]
  case isFalse h => simp [h]

/-- Words without backslashes, the first without a dash. -/
theorem echo_raw (sh : Sh) {ws : List Text} (hslash : ∀ w ∈ ws, '\\' ∉ w)
    (hdash : ∀ w, ws.head? = some w → w.head? ≠ some '-') : sh.echo ws = unwords ws ++ ['\n'] := by
  have hoption : ∀ w, ws.head? = some w → sh.isOption w = false := by
    intro w hw
    unfold Sh.isOption
    split
    · rw [beq_eq_false_iff_ne]
      rintro rfl
      exact hdash _ hw (by with_unfolding_all decide)
    · unfold isOption
      split
      · exact absurd rfl (hdash _ hw)
      · rfl
  have hraw : '\\' ∉ unwords ws ++ ['\n'] := fun h => by
    rcases List.mem_append.mp h with h | h
    · obtain ⟨w, hw, hmem⟩ := mem_intercalate h (by decide)
      exact hslash w hw hmem
    · exact absurd h (by decide)
  rw [echo_words sh hoption, (print_iff ..).mpr fun _ => isRaw_of_not_mem hraw]

/-- A text without backslashes that begins with no dash. -/
theorem echo_plain (sh : Sh) {t : Text} (hslash : '\\' ∉ t) (hdash : t.head? ≠ some '-') :
    sh.echo [t] = t ++ ['\n'] := by
  rw [echo_raw sh (by simpa using hslash) (by simpa using hdash)]
  simp [unwords]

end Tcos.Shell
