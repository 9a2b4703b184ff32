import Tcos.Shell.Bytes

/-! Reading without loss.

A text that loses no byte to the shell is read as one word, byte for byte
(`run_tight`), or as such a word with an open backslash behind it (`run_escaped`).
*Calm* bytes, those of a handler's own text around an argument, add what they hold
and no more, and close neither quotes nor comments. -/
namespace Tcos.Shell

/-- Bytes that keep an unquoted word going. -/
def isSolid (c : Char) : Bool := !isBlank c && !isOperator c && !isQuoting c

/-- No `$` or backquote starts a substitution. -/
def idle : Text → Bool
  | [] => true
  | c :: rest => c != '\x60' && !(c == '$' && (rest.head?.map isExpansionStart).getD false) && idle rest

/-- Texts the shell reads as one word that stands for itself. -/
def isLiteral (t : Text) : Bool :=
  !t.isEmpty && t.head? != some '#' && t.head? != some '~' &&
    t.all (fun c => isSolid c && !isPattern c) && idle t

section Bytes
variable {α : Type} (ch : α → Char)

def marks (s : List α) : Word α := s.map fun b => (b, markOf (ch b))

@[simp] theorem marks_nil : marks ch ([] : List α) = [] := rfl

@[simp] theorem marks_cons (b : α) (s : List α) :
    marks ch (b :: s) = (b, markOf (ch b)) :: marks ch s := rfl

theorem markOf_ne (c : Char) : markOf c ≠ .quote ∧ markOf c ≠ .slash ∧ markOf c ≠ .quoted := by
  unfold markOf
  split
  · decide
  split <;> decide

theorem value_marks (s : List α) : (marks ch s).value ch = s := by
  induction s with
  | nil => rfl
  | cons b s ih =>
    obtain ⟨hq, hs, _⟩ := markOf_ne (ch b)
    cases s with
    | nil => simp [Word.value, hq]
    | cons c s =>
      rw [marks_cons] at ih ⊢
      simp [Word.value, hq, hs, ih]

theorem active_marks (s : List α) : (marks ch s).active ch = !idle (s.map ch) := by
  induction s with
  | nil => rfl
  | cons b s ih =>
    have he : Word.expands ch (marks ch s) = ((s.map ch).head?.map isExpansionStart).getD false := by
      cases s <;> rfl
    have hb : (markOf (ch b) == Mark.backquote) = (ch b == '\x60') := by
      unfold markOf
      by_cases h1 : ch b = '$'
      · simp [h1]
      by_cases h2 : ch b = '\x60' <;> simp [h1, h2]
    have hd : (markOf (ch b) == Mark.dollar) = (ch b == '$') := by
      unfold markOf
      by_cases h1 : ch b = '$'
      · simp [h1]
      by_cases h2 : ch b = '\x60' <;> simp [h1, h2]
    simp only [marks_cons, Word.active, ih, he, hb, hd, List.map_cons, idle, bne, Bool.not_and,
      Bool.not_or, Bool.not_not, Bool.or_assoc]

/-- The word made of the bytes of `s`, all unquoted, stands for `s` exactly when
nothing in it is expanded. -/
theorem fixed_marks (s : List α) :
    (marks ch s).fixed ch =
      if idle (s.map ch) && (s.map ch).all (fun c => !isPattern c) && (s.map ch).head? != some '~'
      then some (s.map ch) else none := by
  have hp : (marks ch s).any (fun x => x.2 == .text && isPattern (ch x.1)) =
      !(s.map ch).all (fun c => !isPattern c) := by
    induction s with
    | nil => rfl
    | cons b s ih =>
      have hb : (markOf (ch b) == Mark.text && isPattern (ch b)) = isPattern (ch b) := by
        cases h : isPattern (ch b)
        · simp
        · have : markOf (ch b) = .text := by
            unfold markOf
            rw [if_neg (by rintro h'; rw [h'] at h; exact absurd h (by decide)),
              if_neg (by rintro h'; rw [h'] at h; exact absurd h (by decide))]
          simp [this]
      simp only [marks_cons, List.any_cons, ih, List.map_cons, List.all_cons, hb]
      cases isPattern (ch b) <;> simp
  have ht : ((marks ch s).head?.map fun x => x.2 == .text && ch x.1 == '~').getD false =
      ((s.map ch).head? == some '~') := by
    cases s with
    | nil => rfl
    | cons b s =>
      by_cases h : ch b = '~'
      · simp [markOf, h]
      · simp [h]
  unfold Word.fixed
  rw [active_marks, hp, ht, value_marks, bne]
  generalize idle (s.map ch) = i, (s.map ch).all (fun c => !isPattern c) = p,
    ((s.map ch).head? == some '~') = h
  cases i <;> cases p <;> cases h <;> rfl

/-! ### Reading without loss -/

/-- The reader is between tokens, or in the word `w` outside quotes. -/
def Parser.At (p : Parser α) (w : Word α) : Prop :=
  (p.reading = .gap ∧ w = []) ∨ p.reading = .word .bare w

theorem Parser.At.bytes_eq {p : Parser α} {w : Word α} (h : p.At w) :
    p.bytes = itemBytes p.items + Word.bytes w := by
  rcases h with ⟨h, rfl⟩ | h <;> simp [Parser.bytes, h]

/-- The reader after an unquoted byte of the word. -/
def Parser.reads (p : Parser α) (w : Word α) : Parser α := { p with reading := .word .bare w }

theorem solid_start {c : Char} (hb : isBlank c = false) (ho : isOperator c = false)
    (hq : isQuoting c = false) : isSolid c = true := by
  simp [isSolid, hb, ho, hq]

theorem not_breaks {w : Word α} {c : Char} (h : breaks w c = false) (hq : isQuoting c = false) :
    isSolid c = true ∨ (c = '(' ∧ w.endsInDollar = true) := by
  by_cases hd : c = '(' ∧ w.endsInDollar = true
  · exact .inr hd
  · left
    have hs : (c == '(' && w.endsInDollar) = false := by simpa using hd
    simp only [breaks, hs, Bool.not_false, Bool.and_true, Bool.or_eq_false_iff] at h
    exact solid_start h.1 h.2 hq

/-- A byte that is not lost is read as itself. Only `$(` lets an operator through. -/
theorem step_tight {p : Parser α} {w : Word α} {b : α} (hp : p.At w)
    (h : p.bytes + 1 ≤ (p.step ch b).bytes) :
    p.step ch b = p.reads (w ++ [(b, markOf (ch b))]) ∧
      (isSolid (ch b) = true ∨ (ch b = '(' ∧ w.endsInDollar = true)) ∧
      (p.reading = .gap → ch b ≠ '#') := by
  rw [hp.bytes_eq] at h
  rcases hp with ⟨hr, rfl⟩ | hr
  · simp only [Parser.step, hr, Parser.start] at h ⊢
    split_ifs at h ⊢ with hb ho hc
    · simp [Parser.bytes] at h
    · simp [Parser.bytes] at h
    · simp [Parser.bytes] at h
    · rcases readBare_bytes ch [] b with ⟨hq, he, _⟩ | ⟨_, he⟩
      · exact ⟨by rw [he]; rfl, .inl (solid_start (by simpa using hb) (by simpa using ho) hq),
          fun _ => by simpa using hc⟩
      · simp [Parser.bytes, he] at h
  · have hgap : p.reading = .gap → ch b ≠ '#' := fun hg => by rw [hr] at hg; exact absurd hg (by simp)
    simp only [Parser.step, hr] at h ⊢
    split at h
    case isTrue hbr =>
      -- the word was closed, and a blank or an operator adds nothing
      have hc := closeWord_bytes ch p (isRedirect (ch b)) w
      have hg : (p.closeWord ch (isRedirect (ch b)) w).reading = .gap := rfl
      simp only [Parser.bytes, hg, gap_bytes, Nat.add_zero] at hc
      simp only [breaks, Bool.and_eq_true, Bool.or_eq_true] at hbr
      simp only [Parser.start] at h
      split_ifs at h with hb ho
      · simp only [Parser.bytes, gap_bytes, hc] at h; omega
      · simp only [Parser.bytes, operator_bytes, hc] at h; omega
      · exact absurd hbr.1 (by simp [hb, ho])
      · exact absurd hbr.1 (by simp [hb, ho])
    case isFalse hbr =>
      rw [if_neg hbr]
      rcases readBare_bytes ch w b with ⟨hq, he, _⟩ | ⟨_, he⟩
      · exact ⟨by rw [he]; rfl, not_breaks (by simpa using hbr) hq, fun hg => hgap (hr.trans hg)⟩
      · simp only [Parser.bytes, he] at h; omega

theorem active_of_open {w : Word α} (hw : w.endsInDollar = true) {b : α} (hb : ch b = '(') (m : Mark)
    (r : Word α) : Word.active ch (w ++ (b, m) :: r) = true := by
  induction w with
  | nil => exact absurd hw (by simp [Word.endsInDollar])
  | cons x w ih =>
    obtain ⟨c, n⟩ := x
    cases w with
    | nil =>
      have hn : n = .dollar := by simpa [Word.endsInDollar] using hw
      simp [Word.active, Word.expands, hn, hb, isExpansionStart]
    | cons y w =>
      have hw' : Word.endsInDollar (y :: w) = true := by simpa [Word.endsInDollar] using hw
      rw [List.cons_append, Word.active, ih hw', Bool.or_true]

/-- A text that loses no byte is read as one word. -/
theorem run_tight {p : Parser α} {w : Word α} {s : List α} (hp : p.At w) (hs : s ≠ [])
    (h : p.bytes + s.length ≤ (p.run ch s).bytes) :
    p.run ch s = p.reads (w ++ marks ch s) ∧
      (Word.active ch (w ++ marks ch s) = false → ∀ b ∈ s, isSolid (ch b) = true) ∧
      (p.reading = .gap → (s.map ch).head? ≠ some '#') := by
  induction s generalizing p w with
  | nil => exact absurd rfl hs
  | cons b s ih =>
    have h1 := run_bytes ch (p.step ch b) s
    have h2 := step_bytes ch p b
    rw [run_cons, List.length_cons] at h
    obtain ⟨hstep, hsolid, hhash⟩ := step_tight ch hp (b := b) (by omega)
    have hat : (p.step ch b).At (w ++ [(b, markOf (ch b))]) := .inr (by rw [hstep]; rfl)
    have hhead : p.reading = .gap → ((b :: s).map ch).head? ≠ some '#' := fun hg => by
      simpa using hhash hg
    have hb : Word.active ch (w ++ marks ch (b :: s)) = false → isSolid (ch b) = true := by
      intro ha
      rcases hsolid with hsolid | ⟨ho, hd⟩
      · exact hsolid
      · rw [marks_cons, active_of_open ch hd ho] at ha
        exact absurd ha (by simp)
    by_cases hs' : s = []
    · subst hs'
      refine ⟨by simpa using hstep, fun ha c hc => ?_, hhead⟩
      obtain rfl : c = b := by simpa using hc
      exact hb ha
    · obtain ⟨hrun, hrest, _⟩ := ih hat hs' (by omega)
      have happ : w ++ marks ch (b :: s) = w ++ [(b, markOf (ch b))] ++ marks ch s := by simp
      refine ⟨?_, fun ha c hc => ?_, hhead⟩
      · rw [run_cons, hrun, happ, hstep]
        rfl
      · rcases List.mem_cons.mp hc with rfl | hc
        · exact hb ha
        · exact hrest (by rw [← happ]; exact ha) c hc

/-! ### What surrounds the text -/

/-- Bytes that keep their meaning whatever was read before them: no quoting, no
comment, no substitution, no newline, no parenthesis. -/
def isCalm (c : Char) : Bool :=
  !isQuoting c && c != '#' && c != '$' && c != '\x60' && c != '\n' && c != '('

/-- The bytes of `s` that end up in words, whatever was read before them. -/
def solidBytes (s : List α) : Nat := (s.filter fun b => isSolid (ch b)).length

@[simp] theorem solidBytes_cons (b : α) (s : List α) :
    solidBytes ch (b :: s) = (if isSolid (ch b) then 1 else 0) + solidBytes ch s := by
  unfold solidBytes
  split <;> simp [*, Nat.add_comm]

/-- Outside quotes and comments. -/
def Parser.Open (p : Parser α) : Prop :=
  p.reading = .gap ∨ (∃ op, p.reading = .operator op) ∨ ∃ w, p.reading = .word .bare w

theorem calm_facts {c : Char} (h : isCalm c = true) :
    isQuoting c = false ∧ c ≠ '#' ∧ c ≠ '\n' ∧ c ≠ '(' := by
  simp only [isCalm, Bool.and_eq_true, Bool.not_eq_true', bne_iff_ne] at h
  exact ⟨h.1.1.1.1.1, h.1.1.1.1.2, h.1.2, h.2⟩

theorem readBare_calm (w : Word α) {b : α} (hb : isCalm (ch b) = true) :
    ∃ v, readBare ch w b = .word .bare v ∧ Word.bytes v = Word.bytes w + 1 := by
  rcases readBare_bytes ch w b with ⟨_, he, _⟩ | ⟨hq, _⟩
  · exact ⟨_, he, by simp [(markOf_ne (ch b)).1]⟩
  · rw [(calm_facts hb).1] at hq
    exact absurd hq (by simp)

theorem start_calm (p : Parser α) {b : α} (hb : isCalm (ch b) = true) :
    (p.start ch b).Open ∧ (p.start ch b).bytes ≤
      itemBytes p.items + (if isSolid (ch b) then 1 else 0) := by
  obtain ⟨hq, hh, _, _⟩ := calm_facts hb
  unfold Parser.start
  by_cases h1 : isBlank (ch b) = true
  · rw [if_pos h1]
    exact ⟨.inl rfl, by simp [Parser.bytes]⟩
  by_cases h2 : isOperator (ch b) = true
  · rw [if_neg h1, if_pos h2]
    exact ⟨.inr (.inl ⟨_, rfl⟩), by simp [Parser.bytes]⟩
  have hs : isSolid (ch b) = true := solid_start (by simpa using h1) (by simpa using h2) hq
  obtain ⟨v, hv, hn⟩ := readBare_calm ch [] hb
  rw [if_neg h1, if_neg h2, if_neg (by simpa using hh), hs]
  exact ⟨.inr (.inr ⟨v, hv⟩), by simp [Parser.bytes, hv, hn]⟩

theorem step_calm {p : Parser α} (hp : p.Open) {b : α} (hb : isCalm (ch b) = true) :
    (p.step ch b).Open ∧ (p.step ch b).bytes ≤ p.bytes + (if isSolid (ch b) then 1 else 0) := by
  rcases hp with hr | ⟨op, hr⟩ | ⟨w, hr⟩
  · simpa [Parser.step, hr, Parser.bytes] using start_calm ch p hb
  · simp only [Parser.step, hr]
    split
    · exact ⟨.inr (.inl ⟨_, rfl⟩), by simp [Parser.bytes, hr]⟩
    · have h1 := start_calm ch (p.closeOperator ch op) hb
      have h2 := closeOperator_bytes ch p op
      refine ⟨h1.1, ?_⟩
      simp only [Parser.bytes, hr, operator_bytes] at *
      omega
  · simp only [Parser.step, hr]
    split
    · have h1 := start_calm ch (p.closeWord ch (isRedirect (ch b)) w) hb
      have h2 := closeWord_bytes ch p (isRedirect (ch b)) w
      refine ⟨h1.1, ?_⟩
      simp only [Parser.bytes, hr, word_bytes] at *
      omega
    case isFalse hbr =>
      obtain ⟨hq, _, _, hpar⟩ := calm_facts hb
      have hs : isSolid (ch b) = true :=
        (not_breaks (by simpa using hbr) hq).resolve_right fun h => hpar h.1
      obtain ⟨v, hv, hn⟩ := readBare_calm ch w hb
      refine ⟨.inr (.inr ⟨v, hv⟩), ?_⟩
      simp only [Parser.bytes, hr, hv, hn, hs, word_bytes, if_true]
      omega

theorem run_calm {p : Parser α} (hp : p.Open) {s : List α} (hs : ∀ b ∈ s, isCalm (ch b) = true) :
    (p.run ch s).Open ∧ (p.run ch s).bytes ≤ p.bytes + solidBytes ch s := by
  induction s generalizing p with
  | nil => exact ⟨hp, Nat.le_refl _⟩
  | cons b s ih =>
    obtain ⟨h1, h2⟩ := step_calm ch hp (hs b (List.mem_cons_self ..))
    obtain ⟨h3, h4⟩ := ih h1 (fun c hc => hs c (List.mem_cons_of_mem b hc))
    refine ⟨h3, ?_⟩
    rw [run_cons, solidBytes_cons]
    omega

theorem Parser.Open.bare {p : Parser α} (hp : p.Open) (q : Quoting) (w : Word α)
    (h : p.reading = .word q w) : q = .bare := by
  rcases hp with hr | ⟨op, hr⟩ | ⟨v, hr⟩ <;> rw [hr] at h
  · exact absurd h (by simp)
  · exact absurd h (by simp)
  · simp only [Reading.word.injEq] at h
    exact h.1.symm

/-- A comment swallows what follows it. -/
theorem run_comment {p : Parser α} (hp : p.reading = .comment) {s : List α}
    (hs : ∀ b ∈ s, ch b ≠ '\n') : p.run ch s = p := by
  induction s with
  | nil => rfl
  | cons b s ih =>
    have hstep : p.step ch b = p := by simp [Parser.step, hp, hs b (List.mem_cons_self ..)]
    rw [run_cons, hstep, ih fun c hc => hs c (List.mem_cons_of_mem b hc)]

/-- Inside quotes, or after a backslash inside them. -/
def Parser.Quoted (p : Parser α) : Prop :=
  ∃ q w, p.reading = .word q w ∧ (q = .single ∨ q = .double ∨ q = .escapedDouble)

/-- A quote that calm bytes follow is never closed. -/
theorem run_quoted {p : Parser α} (hp : p.Quoted) {s : List α}
    (hs : ∀ b ∈ s, isCalm (ch b) = true) : (p.run ch s).Quoted := by
  induction s generalizing p with
  | nil => exact hp
  | cons b s ih =>
    have hq := (calm_facts (hs b (List.mem_cons_self ..))).1
    simp only [isQuoting, Bool.or_eq_false_iff, beq_eq_false_iff_ne] at hq
    refine ih (p := p.step ch b) ?_ fun c hc => hs c (List.mem_cons_of_mem b hc)
    obtain ⟨q, w, hr, rfl | rfl | rfl⟩ := hp
    · exact ⟨.single, w ++ [(b, .quoted)], by simp [Parser.step, hr, hq], .inl rfl⟩
    · simp only [Parser.Quoted, Parser.step, hr]
      unfold readDouble
      split
      · simp_all
      · simp_all
      all_goals exact ⟨.double, _, rfl, .inr (.inl rfl)⟩
    · have hn := (calm_facts (hs b (List.mem_cons_self ..))).2.2.1
      exact ⟨.double, w ++ [(b, .quoted)], by simp [Parser.step, hr, hn], .inr (.inl rfl)⟩

theorem finish_quoted {p : Parser α} (hp : p.Quoted) : (p.finish ch).complete = false := by
  obtain ⟨q, w, hr, rfl | rfl | rfl⟩ := hp <;> simp [Parser.finish, hr]

/-! ### A text that ends in an open backslash -/

theorem readBare_escaped {w v : Word α} {b : α} (h : readBare ch w b = .word .escaped v) :
    ch b = '\\' ∧ v = w ++ [(b, .quote)] := by
  unfold readBare at h
  split at h
  case h_1 hb => exact ⟨hb, by simpa using h.symm⟩
  all_goals exact absurd h (by simp)

theorem start_escaped {p : Parser α} {b : α} {v : Word α}
    (h : (p.start ch b).reading = .word .escaped v) : ch b = '\\' ∧ v = [(b, .quote)] := by
  unfold Parser.start at h
  split_ifs at h
  exact readBare_escaped ch h

/-- Only a backslash outside quotes leaves the next byte escaped, and it adds nothing. -/
theorem step_escaped {p : Parser α} {b : α} {v : Word α}
    (h : (p.step ch b).reading = .word .escaped v) :
    ch b = '\\' ∧ (p.step ch b).bytes ≤ p.bytes := by
  have hstart : ∀ q : Parser α, (q.start ch b).reading = .word .escaped v →
      ch b = '\\' ∧ (q.start ch b).bytes ≤ itemBytes q.items := by
    intro q hq
    obtain ⟨hb, hv⟩ := start_escaped ch hq
    refine ⟨hb, ?_⟩
    have hi : (q.start ch b).items = q.items := by
      unfold Parser.start
      split_ifs <;> rfl
    simp [Parser.bytes, hi, hq, hv]
  unfold Parser.step at h ⊢
  split at h
  case h_1 hr => simpa [Parser.bytes, hr] using hstart p h
  case h_2 hr =>
    split_ifs at h ⊢ with hn
    · simpa [Parser.bytes, hr] using hstart p h
    · rw [hr] at h
      exact absurd h (by simp)
  case h_3 op hr =>
    split_ifs at h ⊢ with hn
    have h1 := hstart _ h
    have h2 := closeOperator_bytes ch p op
    refine ⟨h1.1, ?_⟩
    simp only [Parser.bytes, hr, operator_bytes] at *
    omega
  case h_4 w hr =>
    split_ifs at h ⊢ with hn
    · have h1 := hstart _ h
      have h2 := closeWord_bytes ch p (isRedirect (ch b)) w
      refine ⟨h1.1, ?_⟩
      simp only [Parser.bytes, hr, word_bytes] at *
      omega
    · obtain ⟨hb, hv⟩ := readBare_escaped ch h
      have h' : readBare ch w b = .word .escaped (w ++ [(b, .quote)]) := by rw [← hv]; exact h
      exact ⟨hb, by simp [Parser.bytes, hr, h']⟩
  case h_5 w hr => split_ifs at h <;> exact absurd h (by simp)
  case h_6 w hr =>
    simp only [readDouble] at h
    split at h <;> exact absurd h (by simp)
  case h_7 w hr => split_ifs at h <;> exact absurd h (by simp)
  case h_8 w hr => split_ifs at h <;> exact absurd h (by simp)

/-- A text that ends in an open backslash and loses only that one byte. -/
theorem run_escaped {p : Parser α} (hp : p.reading = .gap) {t : List α} {v : Word α}
    (h : (p.run ch t).reading = .word .escaped v) (ht : p.bytes + t.length ≤ (p.run ch t).bytes + 1) :
    ∃ t' b, t = t' ++ [b] ∧ ch b = '\\' ∧ ((t'.map ch).head? ≠ some '#') ∧
      (Word.active ch (marks ch t') = false → ∀ c ∈ t', isSolid (ch c) = true) ∧
      p.run ch t = { p with reading := .word .escaped (marks ch t' ++ [(b, .quote)]) } := by
  rcases List.eq_nil_or_concat t with rfl | ⟨t', b, rfl⟩
  · rw [run_nil, hp] at h
    exact absurd h (by simp)
  rw [List.concat_eq_append] at *
  rw [run_append, run_cons, run_nil] at h ht
  obtain ⟨hb, hle⟩ := step_escaped ch h
  rw [List.length_append, List.length_singleton] at ht
  have hat : p.At [] := .inl ⟨hp, rfl⟩
  have hslash : ∀ (q : Parser α) (w : Word α), q.At w →
      q.step ch b = { q with reading := .word .escaped (w ++ [(b, .quote)]) } := by
    intro q w hq
    have hbare : readBare ch w b = .word .escaped (w ++ [(b, .quote)]) := by simp [readBare, hb]
    rcases hq with ⟨hr, rfl⟩ | hr
    · simp [Parser.step, hr, Parser.start, hb, isBlank, isOperator, isRedirect, hbare]
    · simp [Parser.step, hr, breaks, hb, isBlank, isOperator, isRedirect, hbare]
  refine ⟨t', b, rfl, hb, ?_⟩
  by_cases hnil : t' = []
  · subst hnil
    refine ⟨by simp, fun _ c hc => absurd hc (by simp), ?_⟩
    simpa using hslash p [] hat
  · obtain ⟨hrun, hsolid, hhash⟩ := run_tight ch hat hnil (by omega)
    rw [List.nil_append] at hrun hsolid
    refine ⟨hhash hp, hsolid, ?_⟩
    rw [run_append, run_cons, run_nil, hrun, hslash (p.reads (marks ch t')) (marks ch t') (.inr rfl)]
    rfl

end Bytes
end Tcos.Shell
