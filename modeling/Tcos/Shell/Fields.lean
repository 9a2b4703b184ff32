import Tcos.Libc.Text

/-! Values that a script leaves unquoted, and lines that it reads.

An unquoted expansion is cut at blanks, and each piece that looks like a pattern is matched
against the files; `echo` puts single blanks between what comes out. `respaced` is that, byte
by byte, for the text after a word. `readVar` is `read` without `-r`. -/
namespace Tcos.Shell
open Libc

/-! ### Fields -/

/-- The bytes of `IFS`. -/
def isIfs (c : Char) : Bool := c == ' ' || c == '\t' || c == '\n'

/-- Field splitting. -/
def fields (t : Text) : List Text := tokens isIfs t

/-- What `echo` prints of its words, before the newline. -/
def unwords (ws : List Text) : Text := [' '].intercalate ws

/-- What the files make of a pattern: the names that match, or the pattern itself. -/
abbrev Glob := Text → List Text

/-- The words of an unquoted expansion. -/
def Glob.expand (glob : Glob) (t : Text) : List Text :=
  (fields t).flatMap fun w => if w.any isPattern then glob w else [w]

/-- Bytes that an unquoted expansion leaves as they are. -/
def isInert (c : Char) : Bool := !isIfs c && !isPattern c

/-- A byte of texts with a separator between. -/
theorem mem_intercalate {parts : List Text} {c sep : Char} (hc : c ∈ [sep].intercalate parts)
    (hsep : c ≠ sep) : ∃ p ∈ parts, c ∈ p := by
  induction parts with
  | nil => simp at hc
  | cons p parts ih =>
    cases parts with
    | nil => exact ⟨p, by simp, by simpa using hc⟩
    | cons p' parts =>
      rw [List.intercalate_cons_cons, List.append_assoc, List.mem_append, List.mem_append,
        List.mem_singleton] at hc
      rcases hc with hc | hc | hc
      · exact ⟨p, by simp, hc⟩
      · exact absurd hc hsep
      · obtain ⟨p, hp, hcp⟩ := ih hc
        exact ⟨p, List.mem_cons_of_mem _ hp, hcp⟩

theorem fields_word {t : Text} (hne : t ≠ []) (h : ∀ c ∈ t, isIfs c = false) : fields t = [t] :=
  tokens_single h hne

theorem mem_fields {t w : Text} (h : w ∈ fields t) :
    w ≠ [] ∧ (∀ c ∈ w, isIfs c = false) ∧ w.Sublist t :=
  mem_tokens h

theorem fields_split {c : Char} (hc : isIfs c = true) (s t : Text) :
    fields (s ++ c :: t) = fields s ++ fields t := by
  rw [fields, tokens, List.splitOnP_append_cons s t hc, List.filter_append]
  rfl

theorem expand_word (glob : Glob) {t : Text} (hne : t ≠ []) (h : ∀ c ∈ t, isInert c = true) :
    glob.expand t = [t] := by
  have hifs : ∀ c ∈ t, isIfs c = false := fun c hc => by
    have := h c hc
    simp_all [isInert]
  have hpat : t.any isPattern = false := by
    rw [List.any_eq_false]
    intro c hc
    have := h c hc
    simp_all [isInert]
  rw [Glob.expand, fields_word hne hifs, List.flatMap_singleton, hpat]
  rfl

/-- An unquoted text without pattern bytes. -/
theorem expand_fields (glob : Glob) {t : Text} (h : ∀ c ∈ t, isPattern c = false) :
    glob.expand t = fields t := by
  have hpat : ∀ w ∈ fields t, w.any isPattern = false := by
    intro w hw
    rw [List.any_eq_false]
    intro c hc
    simp [h c ((mem_fields hw).2.2.subset hc)]
  rw [Glob.expand]
  generalize fields t = ws at hpat
  induction ws with
  | nil => rfl
  | cons w ws ih =>
    rw [List.forall_mem_cons] at hpat
    rw [List.flatMap_cons, hpat.1, ih hpat.2]
    rfl

@[simp] theorem expand_nil (glob : Glob) : glob.expand [] = [] := rfl

/-- Where no pattern matches a file, the words are the fields. -/
theorem expand_unmatched (t : Text) : Glob.expand (fun w => [w]) t = fields t := by
  simp [Glob.expand]

/-- A word is a field without patterns, or a name that a pattern matched. -/
theorem mem_expand {glob : Glob} {t w : Text} (h : w ∈ glob.expand t) :
    (w ∈ fields t ∧ ∀ c ∈ w, isPattern c = false) ∨ ∃ v ∈ fields t, w ∈ glob v := by
  obtain ⟨v, hv, hw⟩ := List.mem_flatMap.mp h
  split at hw
  · exact .inr ⟨v, hv, hw⟩
  · rename_i hplain
    rw [List.mem_singleton] at hw
    subst hw
    exact .inl ⟨hv, by simpa using hplain⟩

/-! ### Blanks -/

/-- What unquoted expansion and `echo` make of the text after a word; `gap` says that blanks
were read. -/
def respaced (gap : Bool) : Text → Text
  | [] => []
  | c :: s =>
    if isIfs c then respaced true s else (if gap then [' ', c] else [c]) ++ respaced false s

/-- The blanks are single spaces, and not at the end. -/
def isSpaced (t : Text) : Bool := decide (respaced false t = t)

theorem unwords_cons (w : Text) (ws : List Text) :
    unwords (w :: ws) = w ++ if ws = [] then [] else ' ' :: unwords ws := by
  cases ws with
  | nil => simp [unwords]
  | cons v ws => simp [unwords, List.intercalate_cons_cons]

theorem fields_unwords {ws : List Text} (h : ∀ w ∈ ws, w ≠ [] ∧ ∀ c ∈ w, isIfs c = false) :
    fields (unwords ws) = ws :=
  tokens_intercalate rfl h

theorem respaced_fields (t : Text) :
    (∀ w : Text, w ≠ [] → (∀ c ∈ w, isIfs c = false) →
      fields (w ++ t) ≠ [] ∧ unwords (fields (w ++ t)) = w ++ respaced false t) ∧
    respaced true t = if fields t = [] then [] else ' ' :: unwords (fields t) := by
  induction t with
  | nil =>
    refine ⟨fun w hne hw => ?_, rfl⟩
    rw [List.append_nil, fields_word hne hw]
    simp [unwords_cons, respaced]
  | cons c t ih =>
    by_cases hc : isIfs c = true
    · have hskip : fields (c :: t) = fields t := tokens_delim hc t
      refine ⟨fun w hne hw => ?_, ?_⟩
      · have hcut : fields (w ++ c :: t) = w :: fields t := by
          rw [fields, tokens_append hw hc, if_neg hne]
          rfl
        rw [hcut, unwords_cons, ← ih.2]
        simp [respaced, hc]
      · rw [hskip, ← ih.2]
        simp [respaced, hc]
    · have hword : ∀ d ∈ [c], isIfs d = false := by simpa using hc
      refine ⟨fun w hne hw => ?_, ?_⟩
      · have hgrown : ∀ d ∈ w ++ [c], isIfs d = false := fun d hd =>
          (List.mem_append.mp hd).elim (hw d) (hword d)
        obtain ⟨hsome, htext⟩ := ih.1 (w ++ [c]) (by simp) hgrown
        rw [List.append_assoc, List.singleton_append] at hsome htext
        exact ⟨hsome, by simp [htext, respaced, hc]⟩
      · obtain ⟨hsome, htext⟩ := ih.1 [c] (by simp) hword
        rw [List.singleton_append] at hsome htext
        simp [respaced, hc, hsome, htext]

/-- **A word and the text after it, expanded and echoed.** -/
theorem unwords_fields {w : Text} (hne : w ≠ []) (hw : ∀ c ∈ w, isIfs c = false) (t : Text) :
    unwords (fields (w ++ t)) = w ++ respaced false t :=
  ((respaced_fields t).1 w hne hw).2

theorem mem_respaced {gap : Bool} {t : Text} {c : Char} (h : c ∈ respaced gap t) : c = ' ' ∨ c ∈ t := by
  induction t generalizing gap with
  | nil => exact absurd h (by simp [respaced])
  | cons d t ih =>
    rw [respaced] at h
    split at h
    · exact (ih h).imp_right (List.mem_cons_of_mem d)
    · rcases List.mem_append.mp h with h | h
      · cases gap <;> simp at h
        all_goals grind
      · exact (ih h).imp_right (List.mem_cons_of_mem d)

theorem respaced_length (gap : Bool) (t : Text) :
    (respaced gap t).length ≤ t.length + if gap then 1 else 0 := by
  induction t generalizing gap with
  | nil => simp [respaced]
  | cons c t ih =>
    have hgap := ih true
    have hword := ih false
    rw [respaced]
    cases hc : isIfs c <;> cases gap <;> simp at * <;> omega

/-- The bytes of a line as `read` without `-r` takes it, and what follows the line. A
backslash quotes the next byte, and goes together with a newline; the flags say which bytes
were quoted. -/
def readLine : Text → List (Char × Bool) × Text
  | [] => ([], [])
  | ['\\'] => ([], [])
  | '\\' :: c :: s =>
    if c = '\n' then readLine s else ((c, true) :: (readLine s).1, (readLine s).2)
  | c :: s =>
    if c = '\n' then ([], s) else ((c, false) :: (readLine s).1, (readLine s).2)

/-- An unquoted blank. -/
def isGap (x : Char × Bool) : Bool := !x.2 && isIfs x.1

/-- `read` of one variable: its value, and what is left to be read. -/
def readVar (stdin : Text) : Text × Text :=
  (((((readLine stdin).1.dropWhile isGap).reverse.dropWhile isGap).reverse).map Prod.fst,
    (readLine stdin).2)

theorem readLine_cons {c : Char} (hc : c ≠ '\\') (hn : c ≠ '\n') (s : Text) :
    readLine (c :: s) = ((c, false) :: (readLine s).1, (readLine s).2) := by
  rw [readLine.eq_def]
  split
  · exact absurd ‹_› (by simp)
  · rename_i h
    exact absurd (List.cons.inj h).1 hc
  · rename_i h
    exact absurd (List.cons.inj h).1 hc
  · rename_i h
    obtain ⟨rfl, rfl⟩ := List.cons.inj h
    rw [if_neg hn]

/-- What `read` makes of a line of input: backslashes go, and one at its end takes the next
line along. -/
theorem readLine_line (t s : Text) (ht : '\n' ∉ t) :
    ∃ l, (∀ x ∈ l, x.1 ∈ t) ∧ (l.length ≤ t.length ∧ ('\\' ∈ t → l.length < t.length)) ∧
      (readLine (t ++ '\n' :: s) = (l, s) ∧ (t ≠ [] → l ≠ []) ∨
        '\\' ∈ t ∧ readLine (t ++ '\n' :: s) = (l ++ (readLine s).1, (readLine s).2)) := by
  fun_induction readLine t with
  | case1 => exact ⟨[], by simp, by simp, .inl ⟨by simp [readLine], by simp⟩⟩
  | case2 => exact ⟨[], by simp, by simp, .inr ⟨by simp, by simp [readLine]⟩⟩
  | case3 t ih => exact absurd ht (by simp)
  | case4 c t hc ih =>
    obtain ⟨l, hmem, ⟨hle, -⟩, h⟩ := ih fun h => ht (by simp [h])
    refine ⟨(c, true) :: l, ?_, by simp; omega, ?_⟩
    · intro x hx
      rcases List.mem_cons.mp hx with rfl | hx
      · simp
      · simp [hmem x hx]
    · rcases h with ⟨h, -⟩ | ⟨hb, h⟩
      · exact .inl ⟨by simp [readLine, hc, h], by simp⟩
      · exact .inr ⟨by simp, by simp [readLine, hc, h]⟩
  | case5 t _ _ => exact absurd ht (by simp)
  | case6 c t hlast hslash hc ih =>
    have hb : c ≠ '\\' := fun h => by
      subst h
      cases t with
      | nil => exact hlast rfl rfl
      | cons d t => exact hslash d t rfl rfl
    obtain ⟨l, hmem, ⟨hle, hlt⟩, h⟩ := ih fun h => ht (by simp [h])
    refine ⟨(c, false) :: l, ?_, ⟨by simp; omega, fun h => ?_⟩, ?_⟩
    · intro x hx
      rcases List.mem_cons.mp hx with rfl | hx
      · simp
      · simp [hmem x hx]
    · have hrest : '\\' ∈ t := (List.mem_cons.mp h).resolve_left hb.symm
      have := hlt hrest
      simp
      omega
    · rw [List.cons_append, readLine_cons hb hc]
      rcases h with ⟨h, -⟩ | ⟨hrest, h⟩
      · exact .inl ⟨by simp [h], by simp⟩
      · exact .inr ⟨by simp [hrest], by simp [h]⟩

theorem dropWhile_gap {l : List (Char × Bool)} (h : ∀ x ∈ l, isIfs x.1 = false) :
    ((l.dropWhile isGap).reverse.dropWhile isGap).reverse = l := by
  have hkeep : ∀ l : List (Char × Bool), (∀ x ∈ l, isIfs x.1 = false) → l.dropWhile isGap = l := by
    intro l hl
    cases l with
    | nil => rfl
    | cons x l => simp [isGap, hl x (List.mem_cons_self ..)]
  rw [hkeep l h, hkeep l.reverse fun x hx => h x (List.mem_reverse.mp hx), List.reverse_reverse]

theorem readVar_length (stdin : Text) : (readVar stdin).1.length ≤ (readLine stdin).1.length := by
  have h1 := (List.dropWhile_sublist (l := (readLine stdin).1) isGap).length_le
  have h2 := (List.dropWhile_sublist (l := ((readLine stdin).1.dropWhile isGap).reverse) isGap).length_le
  simp only [readVar, List.length_map, List.length_reverse] at *
  omega

theorem mem_readVar {stdin : Text} {c : Char} (h : c ∈ (readVar stdin).1) :
    ∃ x ∈ (readLine stdin).1, x.1 = c := by
  obtain ⟨x, hx, rfl⟩ := List.mem_map.mp h
  have hinner := (List.dropWhile_sublist isGap).subset (List.mem_reverse.mp hx)
  exact ⟨x, (List.dropWhile_sublist isGap).subset (List.mem_reverse.mp hinner), rfl⟩

/-- A line without blanks and backslashes is read as it is. -/
theorem readVar_word {t : Text} (h : ∀ c ∈ t, isIfs c = false ∧ c ≠ '\\') (s : Text) :
    readVar (t ++ '\n' :: s) = (t, s) := by
  have hline : readLine (t ++ '\n' :: s) = (t.map fun c => (c, false), s) := by
    induction t with
    | nil => simp [readLine]
    | cons c t ih =>
      obtain ⟨hifs, hb⟩ := h c (List.mem_cons_self ..)
      have hn : c ≠ '\n' := fun hc => by simp [hc, isIfs] at hifs
      rw [List.cons_append, readLine_cons hb hn, ih fun d hd => h d (List.mem_cons_of_mem c hd)]
      rfl
  have hgap : ∀ x ∈ t.map fun c => (c, false), isIfs x.1 = false := by
    intro x hx
    obtain ⟨c, hc, rfl⟩ := List.mem_map.mp hx
    exact (h c hc).1
  simp [readVar, hline, dropWhile_gap hgap, Function.comp_def]

@[simp] theorem readVar_nil : readVar [] = ([], []) := by simp [readVar, readLine]

end Tcos.Shell
