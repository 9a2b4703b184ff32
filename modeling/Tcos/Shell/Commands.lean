import Tcos.Shell.Argument
import Tcos.Shell.Fields

/-! What the scripts run: `echo`, command substitution, lines of a file, awk fields. -/
namespace Tcos.Shell

/-! ### Lines -/

/-- The lines of a file. -/
def lines : Text → List Text
  | [] => []
  | c :: s =>
    if c = '\n' then [] :: lines s
    else match lines s with
      | [] => [[c]]
      | l :: ls => (c :: l) :: ls

/-- A file of these lines. -/
def unlines (ls : List Text) : Text := ls.flatMap fun l => l ++ ['\n']

theorem lines_cons {l : Text} (h : '\n' ∉ l) (s : Text) : lines (l ++ '\n' :: s) = l :: lines s := by
  induction l with
  | nil => simp [lines]
  | cons c l ih =>
    obtain ⟨hc, hl⟩ := not_or.mp (List.mem_cons.not.mp h)
    rw [List.cons_append, lines, if_neg (Ne.symm hc), ih hl]

/-- **A file is read as the lines it was written from.** -/
theorem lines_unlines {ls : List Text} (h : ∀ l ∈ ls, '\n' ∉ l) : lines (unlines ls) = ls := by
  induction ls with
  | nil => rfl
  | cons l ls ih =>
    have hfile : unlines (l :: ls) = l ++ '\n' :: unlines ls := by simp [unlines]
    rw [hfile, lines_cons (h l (List.mem_cons_self ..)), ih fun k hk => h k (List.mem_cons_of_mem l hk)]

theorem not_mem_lines (t : Text) : ∀ l ∈ lines t, '\n' ∉ l := by
  induction t with
  | nil => simp [lines]
  | cons c s ih =>
    rw [lines]
    split
    case isTrue => simpa using ih
    case isFalse hc =>
      cases hs : lines s with
      | nil => simpa using Ne.symm hc
      | cons l ls =>
        rw [hs] at ih
        simp only [List.forall_mem_cons] at ih ⊢
        exact ⟨by simp [Ne.symm hc, ih.1], ih.2⟩

theorem mem_of_mem_lines {t l : Text} {c : Char} (hl : l ∈ lines t) (hc : c ∈ l) : c ∈ t := by
  induction t generalizing l with
  | nil => exact absurd hl (by simp [lines])
  | cons d s ih =>
    rw [lines] at hl
    split at hl
    case isTrue =>
      rcases List.mem_cons.mp hl with rfl | hl
      · exact absurd hc (by simp)
      · exact List.mem_cons_of_mem d (ih hl hc)
    case isFalse =>
      cases hs : lines s with
      | nil =>
        rw [hs, List.mem_singleton] at hl
        rw [hl] at hc
        exact List.mem_cons.mpr (.inl (List.mem_singleton.mp hc))
      | cons k ks =>
        rw [hs] at ih hl
        rcases List.mem_cons.mp hl with rfl | hl
        · exact (List.mem_cons.mp hc).elim (fun h => List.mem_cons.mpr (.inl h))
            fun h => List.mem_cons_of_mem d (ih (by simp) h)
        · exact List.mem_cons_of_mem d (ih (List.mem_cons_of_mem k hl) hc)

/-- `$(…)`: the newlines at the end go. -/
def captured (t : Text) : Text := (t.reverse.dropWhile (· == '\n')).reverse

theorem captured_line {l : Text} (h : '\n' ∉ l) : captured (l ++ ['\n']) = l := by
  have hkeep : l.reverse.dropWhile (· == '\n') = l.reverse := by
    cases hl : l.reverse with
    | nil => rfl
    | cons c s =>
      have hc : c ∈ l := List.mem_reverse.mp (hl ▸ List.mem_cons_self ..)
      have hne : (c == '\n') = false := by
        rw [beq_eq_false_iff_ne]
        rintro rfl
        exact h hc
      simp [hne]
  simp [captured, hkeep]

/-- Only the last newline of a file goes if its last line is not empty. -/
theorem captured_append (t : Text) {l : Text} (hne : l ≠ []) (h : '\n' ∉ l) :
    captured (t ++ (l ++ ['\n'])) = t ++ l := by
  obtain ⟨k, c, rfl⟩ : ∃ k c, l = k ++ [c] := by
    rcases List.eq_nil_or_concat l with rfl | ⟨k, c, rfl⟩
    · exact absurd rfl hne
    · exact ⟨k, c, by simp⟩
  have hc : (c == '\n') = false := by
    rw [beq_eq_false_iff_ne]
    rintro rfl
    exact h (by simp)
  simp [captured, hc]

theorem captured_newlines (t : Text) : ∃ k, t = captured t ++ List.replicate k '\n' := by
  have hsplit := List.takeWhile_append_dropWhile (p := (· == '\n')) (l := t.reverse)
  refine ⟨(t.reverse.takeWhile (· == '\n')).length, ?_⟩
  have hall : t.reverse.takeWhile (· == '\n') =
      List.replicate (t.reverse.takeWhile (· == '\n')).length '\n' := by
    refine List.eq_replicate_iff.mpr ⟨rfl, fun c hc => ?_⟩
    simpa using List.mem_takeWhile_imp hc
  calc t = t.reverse.reverse := (List.reverse_reverse t).symm
    _ = captured t ++ (t.reverse.takeWhile (· == '\n')).reverse := by
        rw [captured, ← List.reverse_append, hsplit]
    _ = _ := by
        conv_lhs => rw [hall, List.reverse_replicate]

theorem mem_captured {t : Text} {c : Char} (h : c ∈ captured t) : c ∈ t := by
  obtain ⟨k, hk⟩ := captured_newlines t
  rw [hk]
  exact List.mem_append_left _ h

theorem fields_captured (t : Text) : fields (captured t) = fields t := by
  obtain ⟨k, hk⟩ := captured_newlines t
  have hmore : ∀ (k : Nat) (s : Text), fields (s ++ List.replicate k '\n') = fields s := by
    intro k s
    induction k with
    | zero => simp
    | succ k ih =>
      rw [List.replicate_succ', ← List.append_assoc, fields, Libc.tokens_append_delim rfl]
      exact ih
  rw [← hmore k, ← hk]

theorem fields_unlines {ws : List Text} (h : ∀ w ∈ ws, w ≠ [] ∧ ∀ c ∈ w, isIfs c = false) :
    fields (unlines ws) = ws := by
  induction ws with
  | nil => rfl
  | cons w ws ih =>
    rw [List.forall_mem_cons] at h
    have hfile : unlines (w :: ws) = w ++ '\n' :: unlines ws := by simp [unlines]
    rw [hfile, fields, Libc.tokens_append h.1.2 rfl, if_neg h.1.1]
    exact congrArg (w :: ·) (ih h.2)

theorem isInert_facts {c : Char} (h : isInert c = true) : isIfs c = false ∧ isPattern c = false := by
  simpa [isInert] using h

theorem isInert_of {c : Char} (hblank : isBlank c = false) (hbreak : c ≠ '\n') (hpattern : isPattern c = false) :
    isInert c = true := by
  simp only [isBlank, Bool.or_eq_false_iff] at hblank
  simp [isInert, isIfs, hblank, hbreak, hpattern]

/-- **Names that are printed one a line are the words of an unquoted substitution.** -/
theorem expand_captured (glob : Glob) {ws : List Text} (h : ∀ w ∈ ws, w ≠ [] ∧ ∀ c ∈ w, isInert c = true) :
    glob.expand (captured (unlines ws)) = ws := by
  have hpattern : ∀ c ∈ captured (unlines ws), isPattern c = false := by
    intro c hc
    obtain ⟨w, hw, hcw⟩ := List.mem_flatMap.mp (mem_captured hc)
    rcases List.mem_append.mp hcw with hcw | hcw
    · exact (isInert_facts ((h w hw).2 c hcw)).2
    · rw [List.mem_singleton.mp hcw]
      rfl
  rw [expand_fields glob hpattern, fields_captured, fields_unlines fun w hw =>
    ⟨(h w hw).1, fun c hc => (isInert_facts ((h w hw).2 c hc)).1⟩]

/-! ### awk -/

/-- Two texts are cut alike at their first `c`. -/
theorem cut_unique {c : Char} {a b s t : Text} (ha : c ∉ a) (hb : c ∉ b)
    (h : a ++ c :: s = b ++ c :: t) : a = b ∧ s = t := by
  induction a generalizing b with
  | nil =>
    cases b with
    | nil => exact ⟨rfl, (List.cons.inj h).2⟩
    | cons d b => exact absurd (List.cons.inj h).1 fun hc => hb (by simp [hc])
  | cons d a ih =>
    cases b with
    | nil => exact absurd (List.cons.inj h).1 fun hc => ha (by simp [hc])
    | cons e b =>
      obtain ⟨rfl, hrest⟩ := List.cons.inj h
      obtain ⟨rfl, rfl⟩ := ih (fun hc => ha (by simp [hc])) (fun hc => hb (by simp [hc])) hrest
      exact ⟨rfl, rfl⟩

/-- `awk -F"=" '{print $2}'`. -/
def awkSecond (t : Text) : Text := (lines t).flatMap fun l => ((l.splitOn '=')[1]?).getD [] ++ ['\n']

/-- A field of one line, as `awk -F` counts them. -/
def awkField (sep : Char) (n : Nat) (l : Text) : Text := ((l.splitOn sep)[n - 1]?).getD []

/-- `awk -F"c" '{print $n}'`. -/
def awk (sep : Char) (n : Nat) (t : Text) : Text := (lines t).flatMap fun l => awkField sep n l ++ ['\n']

theorem splitOn_field {sep : Char} {l : Text} (h : sep ∉ l) (s : Text) :
    (l ++ sep :: s).splitOn sep = l :: s.splitOn sep := by
  refine List.splitOnP_append_cons_of_forall_mem (fun c hc => ?_) sep (by simp) s
  rw [beq_eq_false_iff_ne]
  rintro rfl
  exact h hc

theorem splitOn_whole {sep : Char} {l : Text} (h : sep ∉ l) : l.splitOn sep = [l] := by
  refine List.splitOnP_eq_singleton fun c hc => ?_
  rw [beq_eq_false_iff_ne]
  rintro rfl
  exact h hc

/-- The field before the first separator. -/
theorem awkField_first {sep : Char} {l : Text} (h : sep ∉ l) (s : Text) : awkField sep 1
    (l ++ sep :: s) = l := by
  rw [awkField, splitOn_field h]
  rfl

theorem awkField_next {sep : Char} {l : Text} (h : sep ∉ l) (n : Nat) (s : Text) :
    awkField sep (n + 2) (l ++ sep :: s) = awkField sep (n + 1) s := by
  rw [awkField, splitOn_field h]
  rfl

theorem awkField_whole {sep : Char} {l : Text} (h : sep ∉ l) : awkField sep 1 l = l ∧
    awkField sep 2 l = [] := by
  rw [awkField, awkField, splitOn_whole h]
  exact ⟨rfl, rfl⟩

/-- A text without separators goes into the first field whole. -/
theorem awkField_append {sep : Char} {l : Text} (h : sep ∉ l) (s : Text) :
    awkField sep 1 (l ++ s) = l ++ awkField sep 1 s := by
  by_cases hs : sep ∈ s
  · obtain ⟨a, b, rfl, ha⟩ := List.eq_append_cons_of_mem hs
    have hla : sep ∉ l ++ a := fun hmem => (List.mem_append.mp hmem).elim h ha
    rw [awkField_first ha, ← List.append_assoc, awkField_first hla]
  · have hls : sep ∉ l ++ s := fun hmem => (List.mem_append.mp hmem).elim h hs
    rw [(awkField_whole hs).1, (awkField_whole hls).1]

theorem awk_line (sep : Char) (n : Nat) {l : Text} (h : '\n' ∉ l) :
    awk sep n (l ++ ['\n']) = awkField sep n l ++ ['\n'] := by
  rw [awk, lines_cons h]
  simp [lines]

theorem lines_length (t : Text) : t.count '\n' ≤ (lines t).length := by
  induction t with
  | nil => simp
  | cons c s ih =>
    rw [lines]
    by_cases hc : c = '\n'
    · rw [if_pos hc, hc, List.count_cons_self, List.length_cons]
      omega
    · rw [if_neg hc, List.count_cons_of_ne hc]
      cases hs : lines s with
      | nil =>
        rw [hs] at ih
        exact Nat.le_succ_of_le ih
      | cons l ls => simpa [hs] using ih

/-- Of several lines, several are printed. -/
theorem awk_lines (sep : Char) (n : Nat) {l w : Text} (h : '\n' ∈ l)
    (hw : awk sep n (l ++ ['\n']) = w ++ ['\n']) : '\n' ∈ w := by
  have hmany : ∀ ls : List Text,
    ls.length ≤ (ls.flatMap fun l => awkField sep n l ++ ['\n']).count '\n' := by
    intro ls
    induction ls with
    | nil => simp
    | cons k ls ih =>
      rw [List.flatMap_cons, List.count_append, List.count_append, List.count_singleton_self,
        List.length_cons]
      omega
  have hlines := lines_length (l ++ ['\n'])
  have hprinted := hmany (lines (l ++ ['\n']))
  have hone : 0 < l.count '\n' := List.count_pos_iff.mpr h
  rw [← awk, hw] at hprinted
  rw [List.count_append, List.count_singleton_self] at hlines hprinted
  exact List.count_pos_iff.mp (by omega)

/-! ### echo -/

theorem isPlain_inert {c : Char} (h : isPlain c = true) : isBlank c = false ∧ isInert c = true := by
  obtain ⟨hsolid, hpattern, -⟩ := isPlain_facts h
  have hbreak : c ≠ '\n' := by
    rintro rfl
    exact absurd h (by decide)
  simp only [isSolid, Bool.and_eq_true, Bool.not_eq_true'] at hsolid
  exact ⟨hsolid.1.1, isInert_of hsolid.1.1 hbreak hpattern⟩

/-- Words that every `echo` takes for text. -/
def isPrintable (w : Text) : Bool := w.all isPlain && w.any fun c => c ∉ ['-', 'n', 'e', 'E']

/-- The `echo` of a shell. Shells differ in backslashes and options. -/
structure Echo where
  print : List Text → Text
  line : ∀ w, isPrintable w = true → print [w] = w ++ ['\n']
  quiet : ∀ w, isPrintable w = true → print [lit "-n", w] = w

/-- An `echo` that knows `-n` and no backslashes. -/
def Echo.simple : Echo where
  print ws :=
    match ws with
    | [] => ['\n']
    | w :: ws => if w = lit "-n" then unwords ws else unwords (w :: ws) ++ ['\n']
  line w hw := by
    have hne : w ≠ lit "-n" := by
      rintro rfl
      exact absurd hw (by with_unfolding_all decide)
    simp [hne, unwords]
  quiet w _ := by simp [unwords]

/-- The shell a script runs in. -/
structure Host where
  glob : Glob
  echo : Echo

/-- A shell in a directory without files. -/
def Host.bare : Host := ⟨fun w => [w], .simple⟩

/-- A word that is left unquoted and echoed. -/
theorem expand_printable (h : Host) {w : Text} (hw : isPrintable w = true) : h.glob.expand w = [w] := by
  simp only [isPrintable, Bool.and_eq_true, List.all_eq_true] at hw
  refine expand_word h.glob ?_ fun c hc => ?_
  · rintro rfl
    exact absurd hw.2 (by simp)
  · exact (isPlain_inert (hw.1 c hc)).2

end Tcos.Shell
