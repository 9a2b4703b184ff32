import Tcos.Libc.Numbers
import Tcos.Libc.Strtok
import Tcos.Shell.Fields

/-! Commands of tmixer on its standard input.

`split_line` cuts a line into words where it stands: quotes and backslashes go, the bytes after them
move up, and each word gets its terminator in front of what is still to be read. `splitLine_words` says
that the words in memory are those of the text, and `execStdin_script` that a script of quoted words
is executed as the commands it was written from. -/
namespace Tcos.Tmixer.Stdin
open Shell (Text lit unwords)
open Libc (nul byte write cstr cstr_bytes cstr_eq cstr_step cstr_add cstr_congr byte_write byte_cstr
  length_write isSpace readLines overlay)

/-! ### split_line -/

def isQuote (c : Char) : Bool := c == '\'' || c == '"'

def isComment (c : Char) : Bool := c == '#' || c == '!'

/-- The inner loop: the memory, `buf` and `dst` in the end. Outside of quotes `quote` is zero. -/
def copyWord : Nat → Text → Nat → Nat → Bool → Char → Option (Text × Nat × Nat)
  | 0, _, _, _, _, _ => none
  | fuel + 1, mem, buf, dst, esc, quote =>
    let c := byte mem buf
    if c = nul ∨ c = '\n' then some (mem, buf, dst)
    else if esc then copyWord fuel (write mem dst c) (buf + 1) (dst + 1) false quote
    else if isSpace c ∧ quote = nul then some (mem, buf + 1, dst)
    else if c = '\\' then copyWord fuel mem (buf + 1) dst true quote
    else if isQuote c ∧ quote = nul then copyWord fuel mem (buf + 1) dst false c
    else if isQuote c ∧ c = quote then copyWord fuel mem (buf + 1) dst false nul
    else copyWord fuel (write mem dst c) (buf + 1) (dst + 1) false quote

/-- The tokens and the memory after `split_line`, for so many tokens more. -/
def splitLine (fuel : Nat) : Nat → Text → Nat → Option (List Nat × Text)
  | 0, mem, _ => some ([], mem)
  | maxToken + 1, mem, p =>
    let buf := p + ((cstr mem p).takeWhile isSpace).length
    let c := byte mem buf
    if c = nul ∨ c = '\n' ∨ isComment c then some ([], mem)
    else (copyWord fuel mem buf buf false nul).bind fun (mem, next, dst) =>
      (splitLine fuel maxToken (write mem dst nul) next).map fun r => (buf :: r.1, r.2)

/-! ### exec_stdin -/

def maxArgs : Nat := 32
def bufferSize : Nat := 256

section Script
variable {σ : Type} (sset cset : σ → List Text → σ × Int)

/-- What the words of a line do; other words leave the last answer. -/
def command (st : σ × Int) : List Text → σ × Int
  | [] => st
  | name :: args =>
    if name = lit "sset" ∨ name = lit "set" then sset st.1 args
    else if name = lit "cset" then cset st.1 args
    else st

/-- The loop over the lines that `fgets` reads: the mixer and what is returned. -/
def execLines : List Text → Text → σ × Int → Option (σ × Nat)
  | [], _, st => some (st.1, 0)
  | line :: lines, buf, st =>
    (splitLine (line.length + 1) maxArgs (overlay buf 0 (line ++ [nul])) 0).bind fun r =>
      let st := command sset cset st (r.1.map (cstr r.2))
      if r.1 ≠ [] ∧ st.2 < 0 then some (st.1, 1) else execLines lines r.2 st

/-- `junk` stands in the buffer before the first line. -/
def execStdin (junk stdin : Text) (mixer : σ) : Option (σ × Nat) :=
  execLines sset cset (readLines bufferSize [] stdin) junk (mixer, 0)

end Script

/-! ### The words of a text -/

/-- A word and what follows it. -/
def wordOf : Text → Bool → Char → Text × Text
  | [], _, _ => ([], [])
  | c :: s, esc, quote =>
    if c = '\n' then ([], c :: s)
    else if esc then (c :: (wordOf s false quote).1, (wordOf s false quote).2)
    else if isSpace c ∧ quote = nul then ([], s)
    else if c = '\\' then wordOf s true quote
    else if isQuote c ∧ quote = nul then wordOf s false c
    else if isQuote c ∧ c = quote then wordOf s false nul
    else (c :: (wordOf s false quote).1, (wordOf s false quote).2)

def words : Nat → Text → List Text
  | 0, _ => []
  | maxToken + 1, s =>
    match s.dropWhile isSpace with
    | [] => []
    | c :: t =>
      if isComment c then []
      else (wordOf (c :: t) false nul).1 :: words maxToken (wordOf (c :: t) false nul).2

/-! ### The words in memory -/

/-- A word was copied to `dst` on, and what follows it is still to be read. -/
structure Copied (mem : Text) (buf dst : Nat) (s : Text) (word : Text × Text) (mem' : Text)
    (buf' dst' : Nat) : Prop where
  stop : dst' = dst + word.1.length
  behind : dst' ≤ buf'
  /-- Only at the end of a line there may be no byte for the terminator. -/
  room : word.2 = [] ∨ word.2.head? = some '\n' ∨ dst' < buf'
  rest : cstr mem' buf' = word.2
  place : buf' + word.2.length = buf + s.length
  text : ∀ i, ∀ c ∈ word.1[i]?, byte mem' (dst + i) = c
  same : ∀ i, ¬ (dst ≤ i ∧ i < dst + word.1.length) → byte mem' i = byte mem i
  length : mem'.length = mem.length

section Copy
variable {mem mem' : Text} {buf dst buf' dst' : Nat} {s : Text} {word : Text × Text} {c : Char}

/-- A byte that goes. -/
theorem Copied.skip (h : Copied mem (buf + 1) dst s word mem' buf' dst') (c : Char) :
    Copied mem buf dst (c :: s) word mem' buf' dst' := by
  refine ⟨h.stop, h.behind, h.room, h.rest, ?_, h.text, h.same, h.length⟩
  have hplace := h.place
  rw [List.length_cons]
  omega

/-- A byte that moves up. -/
theorem Copied.push (h : Copied (write mem dst c) (buf + 1) (dst + 1) s word mem' buf' dst')
    (hdst : dst < mem.length) : Copied mem buf dst (c :: s) (c :: word.1, word.2) mem' buf' dst' := by
  have hplace := h.place
  have hstop := h.stop
  refine ⟨?_, h.behind, h.room, h.rest, ?_, fun i d hd => ?_, fun i hi => ?_, ?_⟩
  · rw [hstop, List.length_cons]
    omega
  · show buf' + word.2.length = buf + (c :: s).length
    rw [List.length_cons]
    omega
  · cases i with
    | zero =>
      rw [h.same _ (by omega), Nat.add_zero, byte_write, if_pos rfl]
      simpa using hd
    | succ i =>
      rw [← h.text i d (by simpa using hd)]
      congr 1
      omega
  · rw [List.length_cons] at hi
    rw [h.same i (by omega), byte_write, if_neg (by omega)]
  · rw [h.length, length_write hdst]

/-- **The inner loop copies the word of the text, and ends.** -/
theorem copyWord_copied {fuel : Nat} {esc : Bool} {quote : Char} (hread : cstr mem buf = s)
    (hdst : dst ≤ buf) (hend : buf + s.length < mem.length) (hfuel : s.length < fuel) :
    ∃ mem' buf' dst', copyWord fuel mem buf dst esc quote = some (mem', buf', dst') ∧
      Copied mem buf dst s (wordOf s esc quote) mem' buf' dst' := by
  obtain ⟨fuel, rfl⟩ : ∃ k, fuel = k + 1 := Nat.exists_eq_add_one.mpr (by omega)
  induction s generalizing mem buf dst esc quote fuel with
  | nil =>
    have hnul := byte_cstr.mpr hread
    refine ⟨mem, buf, dst, by simp [copyWord, hnul], ?_⟩
    exact ⟨rfl, hdst, .inl rfl, hread, rfl, by simp [wordOf], fun _ _ => rfl, rfl⟩
  | cons c s ih =>
    rw [List.length_cons] at hend hfuel
    obtain ⟨fuel, rfl⟩ : ∃ k, fuel = k + 1 := Nat.exists_eq_add_one.mpr (by omega)
    have hstep := cstr_step mem buf
    rw [hread] at hstep
    split at hstep
    case isTrue => exact absurd hstep (by simp)
    case isFalse hc =>
      obtain ⟨hbyte, hrest⟩ := List.cons.inj hstep
      rw [← hbyte] at hc
      -- the byte is read before anything is written in its place
      have hmoved : cstr (write mem dst c) (buf + 1) = s := by
        rw [hrest]
        exact cstr_congr fun i hi => by rw [byte_write, if_neg (by omega)]
      have hlen := length_write (show dst < mem.length by omega) c
      have hpush : ∀ esc quote, ∃ mem' buf' dst',
          copyWord (fuel + 1) (write mem dst c) (buf + 1) (dst + 1) esc quote = some (mem', buf', dst') ∧
            Copied (write mem dst c) (buf + 1) (dst + 1) s (wordOf s esc quote) mem' buf' dst' :=
        fun esc quote => ih hmoved (by omega) (by rw [hlen]; omega) fuel (by omega)
      have hskip : ∀ esc quote, ∃ mem' buf' dst',
          copyWord (fuel + 1) mem (buf + 1) dst esc quote = some (mem', buf', dst') ∧
            Copied mem (buf + 1) dst s (wordOf s esc quote) mem' buf' dst' :=
        fun esc quote => ih hrest.symm (by omega) (by omega) fuel (by omega)
      rw [copyWord, wordOf, ← hbyte]
      simp only [hc, false_or]
      by_cases hline : c = '\n'
      · refine ⟨mem, buf, dst, by simp [hline], ?_⟩
        rw [if_pos hline]
        exact ⟨rfl, hdst, .inr (.inl (by simp [hline])), hread, rfl, by simp, fun _ _ => rfl, rfl⟩
      rw [if_neg hline, if_neg hline]
      by_cases hesc : esc = true
      · obtain ⟨mem', buf', dst', hrun, hcopied⟩ := hpush false quote
        rw [if_pos hesc, if_pos hesc]
        exact ⟨mem', buf', dst', hrun, hcopied.push (by omega)⟩
      rw [if_neg hesc, if_neg hesc]
      by_cases hspace : isSpace c = true ∧ quote = nul
      · refine ⟨mem, buf + 1, dst, by simp [hspace], ?_⟩
        rw [if_pos hspace]
        refine ⟨rfl, by omega, .inr (.inr (by omega)), hrest.symm, ?_, by simp, fun _ _ => rfl, rfl⟩
        show buf + 1 + s.length = buf + (c :: s).length
        rw [List.length_cons]
        omega
      rw [if_neg hspace, if_neg hspace]
      split_ifs
      · obtain ⟨mem', buf', dst', hrun, hcopied⟩ := hskip true quote
        exact ⟨mem', buf', dst', hrun, hcopied.skip c⟩
      · obtain ⟨mem', buf', dst', hrun, hcopied⟩ := hskip false c
        exact ⟨mem', buf', dst', hrun, hcopied.skip c⟩
      · obtain ⟨mem', buf', dst', hrun, hcopied⟩ := hskip false nul
        exact ⟨mem', buf', dst', hrun, hcopied.skip c⟩
      · obtain ⟨mem', buf', dst', hrun, hcopied⟩ := hpush false quote
        exact ⟨mem', buf', dst', hrun, hcopied.push (by omega)⟩

end Copy

/-! ### The line -/

/-- A text with a newline at its end only. -/
def IsLine (s : Text) : Prop := ∀ t, '\n' :: t <:+ s → t = []

theorem wordOf_suffix (s : Text) (esc : Bool) (quote : Char) : (wordOf s esc quote).2 <:+ s := by
  induction s generalizing esc quote with
  | nil => exact List.suffix_rfl
  | cons c s ih =>
    have hrest : ∀ esc quote, (wordOf s esc quote).2 <:+ c :: s :=
      fun esc quote => (ih esc quote).trans (List.suffix_cons c s)
    rw [wordOf]
    split_ifs
    · exact List.suffix_rfl
    · exact hrest _ _
    · exact List.suffix_cons c s
    all_goals exact hrest _ _

theorem wordOf_sublist (s : Text) (esc : Bool) (quote : Char) : (wordOf s esc quote).1.Sublist s := by
  induction s generalizing esc quote with
  | nil => exact List.Sublist.refl _
  | cons c s ih =>
    rw [wordOf]
    split_ifs
    · exact List.nil_sublist _
    · exact (ih _ _).cons_cons c
    · exact List.nil_sublist _
    · exact (ih _ _).cons c
    · exact (ih _ _).cons c
    · exact (ih _ _).cons c
    · exact (ih _ _).cons_cons c

theorem IsLine.suffix {s t : Text} (h : IsLine s) (ht : t <:+ s) : IsLine t :=
  fun u hu => h u (hu.trans ht)

theorem words_blank {s : Text} (h : s.dropWhile isSpace = []) (k : Nat) : words k s = [] := by
  cases k with
  | zero => rfl
  | succ k => rw [words, h]

/-- At the end nothing is written. -/
theorem splitLine_end {mem : Text} {p : Nat} (h : byte mem p = nul) (fuel k : Nat) :
    splitLine fuel k mem p = some ([], mem) := by
  cases k with
  | zero => rfl
  | succ k =>
    have hread := byte_cstr.mp h
    simp [splitLine, hread, h]

/-- The words stand in memory, and only the bytes of the line have changed. -/
structure Cut (mem : Text) (p : Nat) (s : Text) (k : Nat) (ps : List Nat) (mem' : Text) : Prop where
  words : ps.map (cstr mem') = words k s
  same : ∀ i, ¬ (p ≤ i ∧ i ≤ p + s.length) → byte mem' i = byte mem i
  length : mem'.length = mem.length

/-- The word before the rest, when the rest is cut. -/
theorem Copied.cut {mem mem' mem'' : Text} {buf next dst k fuel : Nat} {s : Text} {word : Text × Text}
    (h : Copied mem buf buf s word mem' next dst) (hnul : nul ∉ word.1) (hline : IsLine word.2)
    (hend : buf + s.length < mem.length) (hmem : mem'' = write mem' dst nul)
    (hrest : ∀ mem, cstr mem next = word.2 → next + word.2.length < mem.length →
      ∃ ps mem', splitLine fuel k mem next = some (ps, mem') ∧ Cut mem next word.2 k ps mem') :
    ∃ ps mem3, splitLine fuel k mem'' next = some (ps, mem3) ∧
      (buf :: ps).map (cstr mem3) = word.1 :: words k word.2 ∧
      (∀ i, ¬ (buf ≤ i ∧ i ≤ buf + s.length) → byte mem3 i = byte mem i) ∧
      mem3.length = mem.length := by
  obtain ⟨hstop, hbehind, hroom, hread, hplace, htext, hsame, hlength⟩ := h
  have hfits : dst < mem'.length := by omega
  have hwrote : ∀ i, ¬ (buf ≤ i ∧ i ≤ buf + s.length) → byte mem'' i = byte mem i := by
    intro i hi
    rw [hmem, byte_write, if_neg (by omega), hsame i (by omega)]
  have hlen : mem''.length = mem.length := by rw [hmem, length_write hfits, hlength]
  -- the word is there as long as nothing before the rest changes
  have hword : ∀ mem3 : Text, (∀ i, i ≤ dst → byte mem3 i = byte mem'' i) → cstr mem3 buf = word.1 := by
    intro mem3 h3
    refine cstr_eq hnul (fun i c hc => ?_) ?_
    · have hi := (List.getElem?_eq_some_iff.mp hc).1
      rw [h3 _ (by omega), hmem, byte_write, if_neg (by omega)]
      exact htext i c hc
    · rw [h3 _ (by omega), hmem, byte_write, if_pos hstop.symm]
  by_cases hlt : dst < next
  · have hkept : cstr mem'' next = word.2 := by
      rw [← hread, hmem]
      exact cstr_congr fun i hi => by rw [byte_write, if_neg (by omega)]
    obtain ⟨ps, mem3, hrun, hwords, hsame3, hlength3⟩ := hrest mem'' hkept (by omega)
    refine ⟨ps, mem3, hrun, ?_, fun i hi => ?_, hlength3.trans hlen⟩
    · rw [List.map_cons, hword mem3 fun i hi => hsame3 i (by omega), hwords]
    · rw [hsame3 i (by omega), hwrote i hi]
  · -- the terminator took the place of the newline
    have hnext : byte mem'' next = nul := by rw [hmem, byte_write, if_pos (by omega)]
    have hblank : word.2.dropWhile isSpace = [] := by
      rcases hroom with hnil | hhead | hlt'
      · rw [hnil]
        rfl
      · obtain ⟨t, ht⟩ := List.head?_eq_some_iff.mp hhead
        rw [ht, hline t (by rw [ht])]
        rfl
      · exact absurd hlt' hlt
    refine ⟨[], mem'', splitLine_end hnext fuel k, ?_, hwrote, hlen⟩
    rw [words_blank hblank, List.map_cons, hword mem'' fun _ _ => rfl]
    rfl

/-- **`split_line` cuts a line into its words, and writes nowhere else.** -/
theorem splitLine_cut {fuel k : Nat} {mem : Text} {p : Nat} {s : Text} (hread : cstr mem p = s)
    (hline : IsLine s) (hend : p + s.length < mem.length) (hfuel : s.length < fuel) :
    ∃ ps mem', splitLine fuel k mem p = some (ps, mem') ∧ Cut mem p s k ps mem' := by
  induction k generalizing mem p s with
  | zero => exact ⟨[], mem, rfl, rfl, fun _ _ => rfl, rfl⟩
  | succ k ih =>
    have hskip : cstr mem (p + (s.takeWhile isSpace).length) = s.dropWhile isSpace := by
      rw [← Libc.drop_takeWhile, ← hread]
      exact cstr_add (List.takeWhile_prefix _).length_le
    have hcut := congrArg List.length (List.takeWhile_append_dropWhile (p := isSpace) (l := s))
    have hsuffix : s.dropWhile isSpace <:+ s := List.dropWhile_suffix _
    have hhead := List.head?_dropWhile_not isSpace s
    have hwords := words.eq_2 s k
    rw [List.length_append] at hcut
    rw [splitLine, hread]
    generalize s.takeWhile isSpace = gap, s.dropWhile isSpace = u at hskip hcut hsuffix hhead hwords ⊢
    cases u with
    | nil =>
      refine ⟨[], mem, by simp [byte_cstr.mpr hskip], ?_, fun _ _ => rfl, rfl⟩
      rw [hwords]
      rfl
    | cons c t =>
      obtain ⟨hnul, hbytes, -⟩ := cstr_bytes hskip
      have hbyte : byte mem (p + gap.length) = c := hbytes 0 c (by simp)
      have hc : c ≠ nul := fun h => hnul (by simp [h])
      have hspace : isSpace c = false := by simpa using hhead
      have hbreak : c ≠ '\n' := by
        rintro rfl
        exact absurd hspace (by decide)
      simp only [hbyte, hc, hbreak, false_or]
      by_cases hcomment : isComment c = true
      · refine ⟨[], mem, by rw [if_pos hcomment], ?_, fun _ _ => rfl, rfl⟩
        rw [hwords]
        simp [hcomment]
      · obtain ⟨mem1, next, dst, hrun, hcopied⟩ := @copyWord_copied _ _ _ _ fuel false nul hskip
          (Nat.le_refl _) (by omega) (by omega)
        have hword : nul ∉ (wordOf (c :: t) false nul).1 := fun h =>
          hnul ((wordOf_sublist _ _ _).subset h)
        have hrest := hline.suffix ((wordOf_suffix (c :: t) false nul).trans hsuffix)
        have hshort := (wordOf_suffix (c :: t) false nul).length_le
        obtain ⟨ps, mem3, hrun3, hall, hsame, hlength⟩ := hcopied.cut hword hrest (by omega) rfl
          fun mem2 hread2 hend2 => ih hread2 hrest hend2 (by omega)
        refine ⟨(p + gap.length) :: ps, mem3, ?_, ?_, fun i hi => hsame i (by omega), hlength⟩
        · rw [if_neg hcomment, hrun, Option.bind_some, hrun3]
          rfl
        · rw [hall, hwords]
          simp [hcomment]

/-! ### Scripts -/

def escaped (w : Text) : Text := w.flatMap fun c => if c = '"' ∨ c = '\\' then ['\\', c] else [c]

/-- A word in quotes. -/
def quoted (w : Text) : Text := '"' :: (escaped w ++ ['"'])

/-- The line of a command. -/
def scriptLine (ws : List Text) : Text := unwords (ws.map quoted)

def script (cs : List (List Text)) : Text := (cs.map scriptLine).flatMap fun l => l ++ ['\n']

section Quotes
variable {w : Text}

/-- **A quoted word is read as it was.** -/
theorem wordOf_quoted (hw : '\n' ∉ w) (s : Text) :
    wordOf (quoted w ++ s) false nul = (w ++ (wordOf s false nul).1, (wordOf s false nul).2) := by
  have hopen : ∀ t, wordOf ('"' :: t) false nul = wordOf t false '"' := fun t => by
    rw [wordOf]
    simp [isQuote, isSpace]
  have hclose : ∀ t, wordOf ('"' :: t) false '"' = wordOf t false nul := fun t => by
    rw [wordOf]
    simp [isQuote, nul]
  have hinside : wordOf (escaped w ++ '"' :: s) false '"' =
      (w ++ (wordOf s false nul).1, (wordOf s false nul).2) := by
    induction w with
    | nil => simp [escaped, hclose]
    | cons c w ih =>
      obtain ⟨hc, hw⟩ := not_or.mp (List.mem_cons.not.mp hw)
      have hstep : wordOf (escaped (c :: w) ++ '"' :: s) false '"' =
          (c :: (wordOf (escaped w ++ '"' :: s) false '"').1,
            (wordOf (escaped w ++ '"' :: s) false '"').2) := by
        have hnul : ('"' : Char) ≠ nul := by decide
        rw [escaped, List.flatMap_cons, List.append_assoc, ← escaped]
        by_cases hslash : c = '"' ∨ c = '\\'
        · rw [if_pos hslash, List.cons_append, List.singleton_append, wordOf, if_neg (by decide),
            if_neg (by simp), if_neg (by simp [hnul]), if_pos rfl, wordOf, if_neg (Ne.symm hc),
            if_pos rfl]
        · obtain ⟨hquote, hback⟩ := not_or.mp hslash
          rw [if_neg hslash, List.singleton_append, wordOf, if_neg (Ne.symm hc), if_neg (by simp),
            if_neg (by simp [hnul]), if_neg hback, if_neg (by simp [hnul]), if_neg (by simp [hquote])]
      rw [hstep, ih hw, List.cons_append]
  rw [quoted, List.cons_append, List.append_assoc, List.singleton_append, hopen, hinside]

theorem words_scriptLine {ws : List Text} (hws : ∀ w ∈ ws, '\n' ∉ w) (k : Nat) :
    words k (scriptLine ws ++ ['\n']) = ws.take k := by
  have hstart : ∀ (k : Nat) (w s : Text), words (k + 1) (quoted w ++ s) =
      (wordOf (quoted w ++ s) false nul).1 :: words k (wordOf (quoted w ++ s) false nul).2 := by
    intro k w s
    have hdrop : (quoted w ++ s).dropWhile isSpace = '"' :: (escaped w ++ ['"'] ++ s) := by
      rw [quoted, List.cons_append, List.dropWhile_cons, if_neg (by decide)]
    rw [words, hdrop]
    simp only [quoted, List.cons_append]
    rw [if_neg (by decide)]
  induction ws generalizing k with
  | nil =>
    rw [List.take_nil]
    exact words_blank (by decide) k
  | cons w ws ih =>
    rw [List.forall_mem_cons] at hws
    have hline : scriptLine (w :: ws) ++ ['\n'] =
        quoted w ++ if ws = [] then ['\n'] else ' ' :: (scriptLine ws ++ ['\n']) := by
      rw [scriptLine, List.map_cons, Shell.unwords_cons, List.append_assoc]
      congr 1
      by_cases hnil : ws = [] <;> simp [hnil, scriptLine]
    cases k with
    | zero => rfl
    | succ k =>
      rw [hline, hstart, wordOf_quoted hws.1, List.take_succ_cons]
      by_cases hnil : ws = []
      · have hblank : words k ['\n'] = [] := words_blank (by decide) k
        rw [if_pos hnil, hnil, List.take_nil, wordOf, if_pos rfl, List.append_nil, hblank]
      · rw [if_neg hnil, wordOf, if_neg (by decide), if_neg (by simp), if_pos (by decide),
          List.append_nil, ih hws.2]

end Quotes

/-! ### The commands of a script -/

section Run
variable {σ : Type} (sset cset : σ → List Text → σ × Int)

/-- The commands, one after the other, up to the first that fails. -/
def runCommands : List (List Text) → σ × Int → σ × Nat
  | [], st => (st.1, 0)
  | ws :: cs, st =>
    let st := command sset cset st ws
    if ws ≠ [] ∧ st.2 < 0 then (st.1, 1) else runCommands cs st

theorem isLine_concat {t : Text} (h : '\n' ∉ t) (c : Char) : IsLine (t ++ [c]) := by
  rintro v ⟨u, hu⟩
  rcases List.eq_nil_or_concat v with rfl | ⟨v, d, rfl⟩
  · rfl
  · have hsplit : (u ++ '\n' :: v) ++ [d] = t ++ [c] := by simpa using hu
    have hmem : '\n' ∈ t := (List.append_inj' hsplit rfl).1 ▸ by simp
    exact absurd hmem h

theorem IsLine.starts {s t : Text} (h : IsLine s) (ht : t <+: s) : IsLine t := by
  obtain ⟨u, rfl⟩ := ht
  rintro v ⟨w, rfl⟩
  exact (List.append_eq_nil_iff.mp (h (v ++ u) ⟨w, by simp⟩)).1

/-- What `fgets` reads. -/
theorem mem_readLines {size : Nat} {read s : Text} (hread : '\n' ∉ read) (hsize : read.length + 1 < size)
    {l : Text} (h : l ∈ readLines size read s) : IsLine l ∧ l.length < size := by
  induction s generalizing read with
  | nil =>
    rw [readLines] at h
    split at h
    · exact absurd h List.not_mem_nil
    · rw [List.mem_singleton] at h
      rw [h]
      exact ⟨fun t ht => absurd (ht.subset (List.mem_cons_self ..)) hread, by omega⟩
  | cons c s ih =>
    have hlen : (read ++ [c]).length = read.length + 1 := by simp
    rw [readLines] at h
    split at h
    · rcases List.mem_cons.mp h with rfl | h
      · exact ⟨isLine_concat hread c, by omega⟩
      · exact ih (by simp) (by simp; omega) h
    · rename_i hgo
      obtain ⟨hc, hfull⟩ := not_or.mp hgo
      exact ih (by simp [hread, Ne.symm hc]) (by omega) h

/-- What a line is cut into, up to a zero byte. -/
def lineWords (l : Text) : List Text := words maxArgs (l.takeWhile (· != nul))

/-- **The words of one line, whatever stood in the buffer.** -/
theorem splitLine_read {l : Text} (hline : IsLine l) (hfits : l.length < bufferSize) {buf : Text}
    (hbuf : buf.length = bufferSize) :
    ∃ ps mem, splitLine (l.length + 1) maxArgs (overlay buf 0 (l ++ [nul])) 0 = some (ps, mem) ∧
      ps.map (cstr mem) = lineWords l ∧ mem.length = bufferSize := by
  have hlen : (l ++ [nul]).length = l.length + 1 := by simp
  have hover := @Libc.length_overlay buf 0 (l ++ [nul]) (by omega)
  have hread : cstr (overlay buf 0 (l ++ [nul])) 0 = l.takeWhile (· != nul) := by
    rw [cstr, overlay, List.take_zero, List.nil_append, List.drop_zero, List.append_assoc,
      List.takeWhile_append]
    split
    case isTrue h => rw [(List.takeWhile_prefix _).eq_of_length h]; simp
    case isFalse => rfl
  have hstarts : l.takeWhile (· != nul) <+: l := List.takeWhile_prefix _
  have hshort := hstarts.length_le
  obtain ⟨ps, mem, hrun, hcut⟩ := splitLine_cut (k := maxArgs) hread (hline.starts hstarts)
    (by rw [hover]; omega) (Nat.lt_succ_of_le hshort)
  exact ⟨ps, mem, hrun, hcut.words, by rw [hcut.length, hover, hbuf]⟩

theorem execLines_words {ls : List Text} (hls : ∀ l ∈ ls, IsLine l ∧ l.length < bufferSize) {buf : Text}
    (hbuf : buf.length = bufferSize) (st : σ × Int) :
    execLines sset cset ls buf st = some (runCommands sset cset (ls.map lineWords) st) := by
  induction ls generalizing buf st with
  | nil => rfl
  | cons l ls ih =>
    obtain ⟨⟨hline, hfits⟩, hls⟩ := List.forall_mem_cons.mp hls
    obtain ⟨ps, mem, hrun, hwords, hmem⟩ := splitLine_read hline hfits hbuf
    have hempty : ps = [] ↔ lineWords l = [] := by rw [← hwords, List.map_eq_nil_iff]
    rw [List.map_cons, execLines, hrun, Option.bind_some, runCommands]
    simp only [hwords, ne_eq, hempty]
    split
    · rfl
    · exact ih hls hmem _

/-- A line is cut into its words in the buffer, whatever stood there; a byte written outside would make it
longer. -/
def CutsWithin (l : Text) : Prop :=
  ∀ buf : Text, buf.length = bufferSize →
    ∃ ps mem, splitLine (l.length + 1) maxArgs (overlay buf 0 (l ++ [nul])) 0 = some (ps, mem) ∧
      ps.map (cstr mem) = lineWords l ∧ mem.length = bufferSize

/-- **Any input is executed as the words of its lines, in place and within the buffer.** -/
theorem execStdin_words (junk : Text) (hjunk : junk.length = bufferSize) (stdin : Text) (mixer : σ) :
    execStdin sset cset junk stdin mixer =
        some (runCommands sset cset ((readLines bufferSize [] stdin).map lineWords) (mixer, 0)) ∧
      ∀ l ∈ readLines bufferSize [] stdin, CutsWithin l := by
  have hread : ∀ l ∈ readLines bufferSize [] stdin, IsLine l ∧ l.length < bufferSize :=
    fun _ hl => mem_readLines List.not_mem_nil (by decide) hl
  exact ⟨execLines_words sset cset hread hjunk (mixer, 0),
    fun l hl _ hbuf => splitLine_read (hread l hl).1 (hread l hl).2 hbuf⟩

/-- A mixer that keeps its calls. -/
def noted (mixer : List (List Text)) (args : List Text) : List (List Text) × Int := (mixer ++ [args], 0)

/-- `set 'a b' \#1 # c`: the comment is no word. -/
theorem execStdin_words_comment :
    execStdin noted noted (List.replicate bufferSize 'x') (lit "set 'a b' \\#1 # c\n") [] =
      some ([[lit "a b", lit "#1"]], 0) :=
  (execStdin_words noted noted _ (List.length_replicate ..) _ []).1.trans (by with_unfolding_all decide)

/-- A command that a line of a script holds. -/
structure IsCommand (ws : List Text) : Prop where
  plain : ∀ w ∈ ws, '\n' ∉ w ∧ nul ∉ w
  fits : (scriptLine ws).length + 1 < bufferSize

theorem mem_scriptLine {ws : List Text} {c : Char} (h : c ∈ scriptLine ws) :
    c = ' ' ∨ c = '"' ∨ c = '\\' ∨ ∃ w ∈ ws, c ∈ w := by
  by_cases hblank : c = ' '
  · exact .inl hblank
  · obtain ⟨q, hq, hc⟩ := Shell.mem_intercalate h hblank
    obtain ⟨w, hw, rfl⟩ := List.mem_map.mp hq
    rcases List.mem_cons.mp hc with rfl | hc
    · exact .inr (.inl rfl)
    · rcases List.mem_append.mp hc with hc | hc
      · obtain ⟨d, hd, hc⟩ := List.mem_flatMap.mp hc
        split at hc
        · rcases List.mem_cons.mp hc with rfl | hc
          · exact .inr (.inr (.inl rfl))
          · exact .inr (.inr (.inr ⟨w, hw, List.mem_singleton.mp hc ▸ hd⟩))
        · exact .inr (.inr (.inr ⟨w, hw, List.mem_singleton.mp hc ▸ hd⟩))
      · exact .inr (.inl (List.mem_singleton.mp hc))

theorem IsCommand.bytes {ws : List Text} (h : IsCommand ws) : '\n' ∉ scriptLine ws ∧ nul ∉ scriptLine ws := by
  constructor
  · intro hmem
    rcases mem_scriptLine hmem with hc | hc | hc | ⟨w, hw, hc⟩
    · exact absurd hc (by decide)
    · exact absurd hc (by decide)
    · exact absurd hc (by decide)
    · exact (h.plain w hw).1 hc
  · intro hmem
    rcases mem_scriptLine hmem with hc | hc | hc | ⟨w, hw, hc⟩
    · exact absurd hc (by decide)
    · exact absurd hc (by decide)
    · exact absurd hc (by decide)
    · exact (h.plain w hw).2 hc

/-- **A script is executed as the commands it was written from.** -/
theorem execStdin_script {cs : List (List Text)} (hcs : ∀ ws ∈ cs, IsCommand ws) (junk : Text)
    (hjunk : junk.length = bufferSize) (mixer : σ) :
    execStdin sset cset junk (script cs) mixer =
      some (runCommands sset cset (cs.map (·.take maxArgs)) (mixer, 0)) := by
  have hlines : ∀ l ∈ cs.map scriptLine, '\n' ∉ l ∧ l.length + 1 < bufferSize := by
    intro l hl
    obtain ⟨ws, hws, rfl⟩ := List.mem_map.mp hl
    exact ⟨(hcs ws hws).bytes.1, (hcs ws hws).fits⟩
  have hread : ∀ ws ∈ cs, lineWords (scriptLine ws ++ ['\n']) = ws.take maxArgs := by
    intro ws hws
    have hall : (scriptLine ws ++ ['\n']).takeWhile (· != nul) = scriptLine ws ++ ['\n'] := by
      refine List.takeWhile_eq_self_iff.mpr fun c hc => ?_
      rw [bne_iff_ne]
      rintro rfl
      rcases List.mem_append.mp hc with hc | hc
      · exact (hcs ws hws).bytes.2 hc
      · exact absurd hc (by decide)
    rw [lineWords, hall, words_scriptLine fun w hw => ((hcs ws hws).plain w hw).1]
  have hfile := Libc.readLines_file bufferSize _ hlines
  have hexec := execLines_words sset cset (fun l hl => mem_readLines (s := script cs) List.not_mem_nil
    (by decide) hl) hjunk (mixer, 0)
  rw [execStdin, hexec, script, hfile, List.map_map, List.map_map]
  exact congrArg (fun ls => some (runCommands sset cset ls (mixer, 0)))
    (List.map_congr_left fun ws hws => hread ws hws)

theorem execStdin_script_pcm :
    execStdin noted noted (List.replicate bufferSize 'x') (script [[lit "cset", lit "a\"b"], [], [lit "x"]])
      [] = some ([[lit "a\"b"]], 0) := by
  have hcs : ∀ ws ∈ [[lit "cset", lit "a\"b"], [], [lit "x"]], IsCommand ws := by
    intro ws hws
    have hall : ([[lit "cset", lit "a\"b"], [], [lit "x"]].all fun ws =>
        (ws.all fun w => decide ('\n' ∉ w ∧ nul ∉ w)) && decide ((scriptLine ws).length + 1 < bufferSize)) =
          true := by
      with_unfolding_all decide
    have := List.all_eq_true.mp hall ws hws
    simp only [Bool.and_eq_true, List.all_eq_true, decide_eq_true_iff] at this
    exact ⟨this.1, this.2⟩
  exact (execStdin_script noted noted hcs _ (List.length_replicate ..) []).trans
    (by with_unfolding_all decide)

end Run

end Tcos.Tmixer.Stdin
