import Tcos.Shell.Reading

/-! Foreign bytes in a command line.

Some bytes of a line are not its author's: `foreign` says which. They are *inert*
when the shell makes nothing but argument words of them: no operator, no
substitution, no command name, no redirection. `scan` reads a foreign text the way
the shell would from where it stands and stops at the first byte that acts. Reader
and scan keep step over foreign text (`run_agrees`), and once a byte of it has acted
the line is never inert again (`doomed_finish`). -/
namespace Tcos.Shell

section Foreign
variable {α : Type} (ch : α → Char) (foreign : α → Bool)

/-- A foreign byte opens a substitution in the word. -/
def Word.opens : Word α → Bool
  | [] => false
  | (b, m) :: rest =>
    (foreign b && (m == .backquote || (m == .dollar && Word.expands ch rest))) || Word.opens rest

/-- Foreign bytes of the item stand in an argument and open nothing there. -/
def Item.inert : Item α → Bool
  | .word .argument w => !w.opens ch foreign
  | .word _ w => w.all fun x => !foreign x.1
  | .control op => op.all fun b => !foreign b
  | .redirect op => op.all fun b => !foreign b

def Parse.inert (p : Parse α) : Bool := p.items.all (Item.inert ch foreign)

/-- The word ends in a foreign `$`. -/
def Word.pending (w : Word α) : Bool :=
  (w.getLast?.map fun x => foreign x.1 && x.2 == .dollar).getD false

end Foreign

/-! ### Scanning -/

/-- Where in a line a byte is read. `dollar` says that an active `$` stands right before it. -/
inductive Mode where
  | gap
  | comment
  | word (dollar : Bool)
  | single
  | double (dollar : Bool)
  /-- After a backslash; `first` if the word begins with it. -/
  | escaped (first dollar : Bool)
  | escapedDouble (dollar : Bool)
  deriving DecidableEq, Repr

/-- The mode after an unquoted byte of a word. -/
def Mode.bare (first dollar : Bool) (c : Char) : Option Mode :=
  if c = '\\' then some (.escaped first dollar)
  else if c = '\x27' then some .single
  else if c = '\x22' then some (.double false)
  else if c = '\x60' then none
  else some (.word (c == '$'))

/-- The mode after a byte, unless the byte acts: an operator, a backquote, or what a
`$` before it lets start an expansion. -/
def Mode.next : Mode → Char → Option Mode
  | .gap, c =>
    if isBlank c then some .gap else if isOperator c then none
    else if c = '#' then some .comment else Mode.bare true false c
  | .comment, c => if c = '\n' then none else some .comment
  | .word d, c =>
    if d && isExpansionStart c then none
    else if isBlank c then some .gap else if isOperator c then none else Mode.bare false d c
  | .single, c => if c = '\x27' then some (.word false) else some .single
  | .double d, c =>
    if d && isExpansionStart c then none
    else if c = '\x22' then some (.word false)
    else if c = '\\' then some (.escapedDouble d)
    else if c = '\x60' then none
    else some (.double (c == '$'))
  | .escaped first d, c =>
    if c = '\n' then some (if first then .gap else .word d) else some (.word false)
  | .escapedDouble d, c => if c = '\n' then some (.double d) else some (.double false)

/-- The mode at the end of a text none of whose bytes acts. -/
def scan (m : Mode) (t : Text) : Option Mode := t.foldlM Mode.next m

example : scan .gap "mozilla -P 'a;b' 50$".toList = some (.word true) := by decide

example : scan .gap "x|reboot".toList = none := by decide

@[simp] theorem scan_nil (m : Mode) : scan m [] = some m := rfl

@[simp] theorem scan_cons (m : Mode) (c : Char) (t : Text) :
    scan m (c :: t) = (m.next c).bind fun m' => scan m' t := rfl

section Run
variable {α : Type} (ch : α → Char) (foreign : α → Bool)

theorem opens_append (w : Word α) (b : α) (m : Mark) :
    Word.opens ch foreign (w ++ [(b, m)]) =
      (w.opens ch foreign || (w.pending foreign && isExpansionStart (ch b)) ||
        (foreign b && m == .backquote)) := by
  induction w with
  | nil => simp [Word.opens, Word.pending, Word.expands]
  | cons x w ih =>
    rw [List.cons_append, Word.opens, ih]
    cases w with
    | nil =>
      simp only [Word.opens, Word.pending, Word.expands, List.nil_append, List.head?_cons,
        Option.map_some, Option.getD_some, List.head?_nil, Option.map_none, Option.getD_none,
        List.getLast?_singleton, List.getLast?_nil]
      cases foreign x.1 <;> cases x.2 == Mark.backquote <;> cases x.2 == Mark.dollar <;> simp
    | cons y w =>
      have h1 : Word.expands ch (y :: w ++ [(b, m)]) = Word.expands ch (y :: w) := rfl
      have h2 : Word.pending foreign (x :: y :: w) = Word.pending foreign (y :: w) := by
        simp [Word.pending]
      rw [h1, h2]
      simp only [Word.opens, Bool.or_assoc]

@[simp] theorem pending_append (w : Word α) (b : α) (m : Mark) :
    Word.pending foreign (w ++ [(b, m)]) = (foreign b && m == .dollar) := by
  simp [Word.pending]

@[simp] theorem endsInDollar_append (w : Word α) (b : α) (m : Mark) :
    Word.endsInDollar (w ++ [(b, m)]) = (m == .dollar) := by
  simp [Word.endsInDollar]

/-- Only a foreign byte opens. -/
theorem foreign_of_opens {w : Word α} (h : w.opens ch foreign = true) :
    (w.all fun x => !foreign x.1) = false := by
  induction w with
  | nil => exact absurd h (by simp [Word.opens])
  | cons x w ih =>
    rw [Word.opens, Bool.or_eq_true] at h
    rcases h with h | h
    · simp only [Bool.and_eq_true] at h
      simp [h.1]
    · simp [ih h]

theorem closeWord_inert {p : Parser α} (hn : p.named = true) (ht : p.target = false) {g : Bool}
    {w : Word α} (hw : w.opens ch foreign = false)
    (hd : g = true → w.digits ch = true → (w.all fun x => !foreign x.1) = true) :
    (Item.word (p.slot ch g w) w).inert ch foreign = true := by
  unfold Parser.slot
  split
  case isTrue h =>
    rw [Bool.and_eq_true] at h
    exact hd h.1 h.2
  case isFalse => simp [ht, Item.inert, hw]

/-! ### A line that is still quiet -/

/-- The word as it stands if an open backslash is taken back. -/
def Quoting.settled : Quoting → Word α → Word α
  | .escaped, w | .escapedDouble, w => w.dropLast
  | _, w => w

/-- A word in progress in which nothing foreign has acted. -/
structure Quoting.Quiet (q : Quoting) (w : Word α) : Prop where
  opens : w.opens ch foreign = false
  begun : q = .escaped ∨ q.settled w ≠ []
  dollar : Word.endsInDollar (q.settled w) = Word.pending foreign (q.settled w)
  closed : q = .bare ∨ q = .double ∨ w.pending foreign = false

/-- Nothing foreign has acted so far, and the next word is an argument. -/
structure Parser.Quiet (p : Parser α) : Prop where
  named : p.named = true
  target : p.target = false
  items : p.items.all (Item.inert ch foreign) = true
  operator : ∀ op, p.reading ≠ .operator op
  word : ∀ q w, p.reading = .word q w → q.Quiet ch foreign w

def Reading.mode : Reading α → Mode
  | .gap | .operator _ => .gap
  | .comment => .comment
  | .word .bare w => .word w.endsInDollar
  | .word .single _ => .single
  | .word .double w => .double w.endsInDollar
  | .word .escaped w => .escaped (decide (w.length ≤ 1)) (Word.endsInDollar w.dropLast)
  | .word .escapedDouble w => .escapedDouble (Word.endsInDollar w.dropLast)

/-- A foreign byte has acted, and nothing read later takes it back. -/
inductive Parser.Doomed (p : Parser α) : Prop where
  | item (h : p.items.all (Item.inert ch foreign) = false)
  | operator (op : List α) (hr : p.reading = .operator op) (h : (op.any fun b => foreign b) = true)
  | word (q : Quoting) (w : Word α) (hr : p.reading = .word q w)
      (h : Word.opens ch foreign (q.settled w) = true)

/-- What may stand among foreign bytes: the blanks and single quotes of the line's author. -/
def Filling (b : α) : Prop := foreign b = true ∨ ch b = ' ' ∨ ch b = '\x27'

theorem Filling.is_foreign {b : α} (h : Filling ch foreign b) (h1 : ch b ≠ ' ') (h2 : ch b ≠ '\x27') :
    foreign b = true := by
  rcases h with h | h | h
  · exact h
  · exact absurd h h1
  · exact absurd h h2

/-- A reader and what the scan says of it. -/
def Agrees (p : Parser α) : Option Mode → Prop
  | some m => p.Quiet ch foreign ∧ p.reading.mode = m
  | none => p.Doomed ch foreign

theorem Parser.Quiet.change {p : Parser α} (hp : p.Quiet ch foreign) {r : Reading α}
    (ho : ∀ op, r ≠ .operator op)
    (hw : ∀ q w, r = .word q w → q.Quiet ch foreign w) :
    Parser.Quiet ch foreign { p with reading := r } :=
  ⟨hp.named, hp.target, hp.items, ho, hw⟩

theorem Parser.Quiet.gap {p : Parser α} (hp : p.Quiet ch foreign) :
    Parser.Quiet ch foreign { p with reading := .gap } :=
  hp.change ch foreign (by simp) (by simp)

/-- A word goes on with one more byte. -/
theorem Parser.Quiet.grow {p : Parser α} (hp : p.Quiet ch foreign) {w : Word α} {b : α} {m : Mark}
    {q : Quoting} (hw : w.opens ch foreign = false)
    (hx : (w.pending foreign && isExpansionStart (ch b)) = false)
    (hm : m = .text ∨ m = .quoted ∨ m = .quote ∨ m = .slash ∨
      (m = .dollar ∧ foreign b = true ∧ (q = .bare ∨ q = .double)))
    (hs : q.settled (w ++ [(b, m)]) = w ++ [(b, m)] ∨
      (q = .escaped ∨ (q = .escapedDouble ∧ w ≠ [])) ∧ Word.endsInDollar w = Word.pending foreign w) :
    Parser.Quiet ch foreign { p with reading := .word q (w ++ [(b, m)]) } := by
  refine hp.change ch foreign (by simp) fun q' w' h => ?_
  simp only [Reading.word.injEq] at h
  obtain ⟨rfl, rfl⟩ := h
  have hb : (foreign b && m == .backquote) = false := by
    rcases hm with rfl | rfl | rfl | rfl | ⟨rfl, _⟩ <;> simp
  refine ⟨by rw [opens_append, hw, hx, hb]; rfl, ?_, ?_, ?_⟩
  · rcases hs with hs | ⟨rfl | ⟨rfl, hs⟩, _⟩
    · exact .inr (by simp [hs])
    · exact .inl rfl
    · exact .inr (by simpa [Quoting.settled] using hs)
  · rcases hs with hs | ⟨rfl | ⟨rfl, _⟩, hs⟩
    · rw [hs]
      rcases hm with rfl | rfl | rfl | rfl | ⟨rfl, hf, _⟩ <;> simp [*]
    · simpa [Quoting.settled] using hs
    · simpa [Quoting.settled] using hs
  · rcases hm with rfl | rfl | rfl | rfl | ⟨rfl, _, rfl | rfl⟩ <;> simp

theorem doomed_word {p : Parser α} {w : Word α} {b : α} {m : Mark} {q : Quoting}
    (hq : q.settled (w ++ [(b, m)]) = w ++ [(b, m)])
    (h : (w.pending foreign && isExpansionStart (ch b)) = true ∨ (foreign b && m == .backquote) = true) :
    Parser.Doomed ch foreign { p with reading := .word q (w ++ [(b, m)]) } := by
  refine .word q _ rfl ?_
  rw [hq, opens_append]
  rcases h with h | h <;> simp [h]

/-- One more byte of an unquoted word. -/
theorem bare_agrees {p : Parser α} (hp : p.Quiet ch foreign) {w : Word α}
    (hw : w.opens ch foreign = false) (hd : w.endsInDollar = w.pending foreign) {b : α}
    (hb : Filling ch foreign b) (hx : (w.pending foreign && isExpansionStart (ch b)) = false) :
    Agrees ch foreign { p with reading := readBare ch w b }
      (Mode.bare (decide (w.length = 0)) w.endsInDollar (ch b)) := by
  unfold readBare
  split
  case h_1 h =>
    rw [h, Mode.bare, if_pos rfl]
    exact ⟨hp.grow ch foreign hw hx (by simp) (.inr ⟨.inl rfl, hd⟩), by simp [Reading.mode]⟩
  case h_2 h =>
    rw [h, Mode.bare, if_neg (by decide), if_pos rfl]
    exact ⟨hp.grow ch foreign hw hx (by simp) (.inl rfl), rfl⟩
  case h_3 h =>
    rw [h, Mode.bare, if_neg (by decide), if_neg (by decide), if_pos rfl]
    exact ⟨hp.grow ch foreign hw hx (by simp) (.inl rfl), by simp [Reading.mode]⟩
  case h_4 h =>
    have hf := hb.is_foreign ch foreign (by simp [h]) (by simp [h])
    rw [h, Mode.bare, if_neg (by decide), if_neg (by decide), if_neg (by decide), if_neg (by decide)]
    exact ⟨hp.grow ch foreign hw hx (by simp [hf]) (.inl rfl), by simp [Reading.mode]⟩
  case h_5 h =>
    have hf := hb.is_foreign ch foreign (by simp [h]) (by simp [h])
    rw [h, Mode.bare, if_neg (by decide), if_neg (by decide), if_neg (by decide), if_pos rfl]
    exact doomed_word ch foreign rfl (.inr (by simp [hf]))
  case h_6 h1 h2 h3 h4 h5 =>
    rw [Mode.bare, if_neg h1, if_neg h2, if_neg h3, if_neg h5]
    have h4' : (ch b == '$') = false := by simpa using h4
    exact ⟨hp.grow ch foreign hw hx (by simp) (.inl rfl), by simp [Reading.mode, h4']⟩

/-- A byte between tokens. -/
theorem start_agrees {p : Parser α} (hp : p.Quiet ch foreign) {b : α} (hb : Filling ch foreign b) :
    Agrees ch foreign (p.start ch b) (Mode.next .gap (ch b)) := by
  simp only [Parser.start, Mode.next, beq_iff_eq]
  split_ifs with h1 h2 h3
  · exact ⟨hp.gap ch foreign, rfl⟩
  · have hf : foreign b = true := by
      refine hb.is_foreign ch foreign (fun h => ?_) (fun h => ?_) <;> rw [h] at h2 <;>
        exact absurd h2 (by decide)
    exact Parser.Doomed.operator [b] rfl (by simp [hf])
  · exact ⟨hp.change ch foreign (by simp) (by simp), rfl⟩
  · exact bare_agrees ch foreign hp (w := []) rfl rfl hb rfl

/-- The word before an operator or a blank is closed as an argument. -/
theorem Parser.Quiet.close {p : Parser α} (hp : p.Quiet ch foreign) {g : Bool} {w : Word α}
    (hw : w.opens ch foreign = false)
    (hd : g = true → w.digits ch = true → (w.all fun x => !foreign x.1) = true) :
    (p.closeWord ch g w).Quiet ch foreign := by
  refine ⟨by simp [Parser.closeWord, hp.named], by simp [Parser.closeWord, hp.target], ?_,
    by simp [Parser.closeWord], by simp [Parser.closeWord]⟩
  simp only [Parser.closeWord, List.all_append, hp.items, List.all_cons, List.all_nil, Bool.and_true,
    Bool.true_and]
  exact closeWord_inert ch foreign hp.named hp.target hw hd

/-- A foreign operator byte dooms the line, whatever the word before it was. -/
theorem start_operator (p : Parser α) {b : α} (hb : foreign b = true) (ho : isOperator (ch b) = true) :
    (p.start ch b).Doomed ch foreign := by
  have hblank : isBlank (ch b) = false := by
    by_contra h
    simp only [Bool.not_eq_false, isBlank, Bool.or_eq_true, beq_iff_eq] at h
    rcases h with h | h <;> rw [h] at ho <;> exact absurd ho (by decide)
  rw [Parser.start, if_neg (by simp [hblank]), if_pos ho]
  exact .operator [b] rfl (by simp [hb])

theorem expansionStart_facts {c : Char} (h : isExpansionStart c = true) :
    isQuoting c = false ∧ isBlank c = false ∧ (isOperator c = true → c = '(') := by
  refine ⟨?_, ?_, fun ho => ?_⟩
  · by_contra hc
    simp only [Bool.not_eq_false, isQuoting, Bool.or_eq_true, beq_iff_eq] at hc
    rcases hc with (rfl | rfl) | rfl <;> exact absurd h (by decide)
  · by_contra hc
    simp only [Bool.not_eq_false, isBlank, Bool.or_eq_true, beq_iff_eq] at hc
    rcases hc with rfl | rfl <;> exact absurd h (by decide)
  · simp only [isOperator, isRedirect, Bool.or_eq_true, beq_iff_eq] at ho
    rcases ho with (((((rfl | rfl) | rfl) | rfl) | rfl) | rfl) | rfl | rfl <;>
      first | rfl | exact absurd h (by decide)

theorem blank_facts {c : Char} (h : isBlank c = true) : c ≠ '(' ∧ isRedirect c = false := by
  simp only [isBlank, Bool.or_eq_true, beq_iff_eq] at h
  rcases h with rfl | rfl <;> decide

theorem step_agrees_bare {p : Parser α} (hp : p.Quiet ch foreign) {w : Word α}
    (hr : p.reading = .word .bare w) {b : α} (hb : Filling ch foreign b) :
    Agrees ch foreign (p.step ch b) (Mode.next (.word w.endsInDollar) (ch b)) := by
  obtain ⟨hw, hne, hd, _⟩ := hp.word _ _ hr
  replace hd : w.endsInDollar = w.pending foreign := hd
  replace hne : w ≠ [] := by simpa [Quoting.settled] using hne
  simp only [Parser.step, hr, Mode.next]
  by_cases hx : (w.endsInDollar && isExpansionStart (ch b)) = true
  · -- the byte makes the `$` before it start an expansion
    rw [if_pos hx]
    rw [Bool.and_eq_true] at hx
    obtain ⟨hq, hblank, hop⟩ := expansionStart_facts hx.2
    have hbr : breaks w (ch b) = false := by
      by_cases ho : isOperator (ch b) = true
      · simp [breaks, hx.1, hop ho]
      · simp [breaks, hblank, ho]
    rw [if_neg (by simp [hbr])]
    rcases readBare_bytes ch w b with ⟨_, he, _⟩ | ⟨h, _⟩
    · rw [he]
      exact doomed_word ch foreign rfl (.inl (by rw [← hd, hx.1, hx.2]; rfl))
    · rw [hq] at h
      exact absurd h (by simp)
  rw [if_neg hx]
  by_cases h1 : isBlank (ch b) = true
  · obtain ⟨hpar, hnr⟩ := blank_facts h1
    have hbr : breaks w (ch b) = true := by simp [breaks, h1, hpar]
    rw [if_pos hbr, if_pos h1, hnr, Parser.start, if_pos h1]
    exact ⟨(hp.close ch foreign hw (by simp)).gap ch foreign, rfl⟩
  rw [if_neg h1]
  by_cases h2 : isOperator (ch b) = true
  · have hf : foreign b = true := by
      refine hb.is_foreign ch foreign (fun h => ?_) (fun h => ?_) <;> rw [h] at h2 <;>
        exact absurd h2 (by decide)
    have hbr : breaks w (ch b) = true := by
      have hpar : (ch b == '(' && w.endsInDollar) = false := by
        by_contra h
        simp only [Bool.not_eq_false, Bool.and_eq_true, beq_iff_eq] at h
        exact hx (by rw [h.1, h.2]; decide)
      simp [breaks, h2, hpar]
    rw [if_pos h2, if_pos hbr]
    exact start_operator ch foreign _ hf h2
  · have hbr : ¬ breaks w (ch b) = true := by simp [breaks, h1, h2]
    have hlen : decide (w.length = 0) = false := by simpa using hne
    rw [if_neg h2, if_neg hbr, ← hlen]
    exact bare_agrees ch foreign hp hw hd hb (by rw [← hd]; simpa using hx)

theorem step_agrees_double {p : Parser α} (hp : p.Quiet ch foreign) {w : Word α}
    (hr : p.reading = .word .double w) {b : α} (hb : Filling ch foreign b) :
    Agrees ch foreign (p.step ch b) (Mode.next (.double w.endsInDollar) (ch b)) := by
  obtain ⟨hw, hne, hd, _⟩ := hp.word _ _ hr
  replace hd : w.endsInDollar = w.pending foreign := hd
  replace hne : w ≠ [] := by simpa [Quoting.settled] using hne
  simp only [Parser.step, hr, Mode.next]
  by_cases hx : (w.endsInDollar && isExpansionStart (ch b)) = true
  · rw [if_pos hx]
    rw [Bool.and_eq_true] at hx
    obtain ⟨hq, _, _⟩ := expansionStart_facts hx.2
    have hpend : (w.pending foreign && isExpansionStart (ch b)) = true := by
      rw [← hd, hx.1, hx.2]
      rfl
    simp only [isQuoting, Bool.or_eq_false_iff, beq_eq_false_iff_ne] at hq
    unfold readDouble
    split
    · exact absurd ‹ch b = '\x22'› hq.2
    · exact absurd ‹ch b = '\\'› hq.1.1
    all_goals exact doomed_word ch foreign rfl (.inl hpend)
  rw [if_neg hx]
  have hx' : (w.pending foreign && isExpansionStart (ch b)) = false := by
    rw [← hd]
    simpa using hx
  unfold readDouble
  split
  case h_1 h =>
    rw [h, if_pos rfl]
    exact ⟨hp.grow ch foreign hw hx' (by simp) (.inl rfl), by simp [Reading.mode]⟩
  case h_2 h =>
    rw [h, if_neg (by decide), if_pos rfl]
    exact ⟨hp.grow ch foreign hw hx' (by simp) (.inr ⟨.inr ⟨rfl, hne⟩, hd⟩), by simp [Reading.mode]⟩
  case h_3 h =>
    have hf := hb.is_foreign ch foreign (by simp [h]) (by simp [h])
    rw [h, if_neg (by decide), if_neg (by decide), if_neg (by decide)]
    exact ⟨hp.grow ch foreign hw hx' (by simp [hf]) (.inl rfl), by simp [Reading.mode]⟩
  case h_4 h =>
    have hf := hb.is_foreign ch foreign (by simp [h]) (by simp [h])
    rw [h, if_neg (by decide), if_neg (by decide), if_pos rfl]
    exact doomed_word ch foreign rfl (.inr (by simp [hf]))
  case h_5 h1 h2 h3 h4 =>
    have h3' : (ch b == '$') = false := by simpa using h3
    rw [if_neg h1, if_neg h2, if_neg h4]
    exact ⟨hp.grow ch foreign hw hx' (by simp) (.inl rfl), by simp [Reading.mode, h3']⟩

theorem opens_of_dropLast {w : Word α} (h : Word.opens ch foreign w.dropLast = true) :
    w.opens ch foreign = true := by
  rcases List.eq_nil_or_concat w with rfl | ⟨v, x, rfl⟩
  · exact h
  · simp only [List.concat_eq_append, List.dropLast_concat] at h ⊢
    rw [opens_append, h]
    rfl

theorem opens_dropLast {w : Word α} (h : w.opens ch foreign = false) :
    Word.opens ch foreign w.dropLast = false := by
  by_contra hc
  rw [opens_of_dropLast ch foreign (by simpa using hc)] at h
  exact absurd h (by simp)

/-- **One foreign byte is read as the scan says.** -/
theorem step_agrees {p : Parser α} (hp : p.Quiet ch foreign) {b : α} (hb : Filling ch foreign b) :
    Agrees ch foreign (p.step ch b) (p.reading.mode.next (ch b)) := by
  cases hr : p.reading with
  | gap =>
    have h := start_agrees ch foreign hp hb
    rwa [Parser.step, hr]
  | comment =>
    simp only [Parser.step, hr, Reading.mode, Mode.next, beq_iff_eq]
    split_ifs with h
    · have hf : foreign b = true := hb.is_foreign ch foreign (by simp [h]) (by simp [h])
      exact start_operator ch foreign p hf (by rw [h]; decide)
    · exact ⟨hp, by rw [hr]; rfl⟩
  | operator op => exact absurd hr (hp.operator op)
  | word q w =>
    obtain ⟨hw, hne, hd, hc⟩ := hp.word _ _ hr
    cases q with
    | bare => exact step_agrees_bare ch foreign hp hr hb
    | double => exact step_agrees_double ch foreign hp hr hb
    | single =>
      have hx : (w.pending foreign && isExpansionStart (ch b)) = false := by simp_all
      simp only [Parser.step, hr, Reading.mode, Mode.next, beq_iff_eq]
      split_ifs
      · exact ⟨hp.grow ch foreign hw hx (by simp) (.inl rfl), by simp [Reading.mode]⟩
      · exact ⟨hp.grow ch foreign hw hx (by simp) (.inl rfl), rfl⟩
    | escaped =>
      have hx : (w.pending foreign && isExpansionStart (ch b)) = false := by simp_all
      simp only [Parser.step, hr, Reading.mode, Mode.next, beq_iff_eq, decide_eq_true_eq]
      split_ifs with h1 h2
      · exact ⟨hp.gap ch foreign, rfl⟩
      · refine ⟨hp.change ch foreign (by simp) fun q' w' h => ?_, rfl⟩
        simp only [Reading.word.injEq] at h
        obtain ⟨rfl, rfl⟩ := h
        refine ⟨opens_dropLast ch foreign hw, .inr ?_, hd, .inl rfl⟩
        exact List.ne_nil_of_length_pos (by simp [Quoting.settled]; omega)
      · exact ⟨hp.grow ch foreign hw hx (by simp) (.inl rfl), by simp [Reading.mode]⟩
    | escapedDouble =>
      have hx : (w.pending foreign && isExpansionStart (ch b)) = false := by simp_all
      simp only [Parser.step, hr, Reading.mode, Mode.next, beq_iff_eq]
      split_ifs with h1
      · refine ⟨hp.change ch foreign (by simp) fun q' w' h => ?_, rfl⟩
        simp only [Reading.word.injEq] at h
        obtain ⟨rfl, rfl⟩ := h
        exact ⟨opens_dropLast ch foreign hw, .inr (by simpa [Quoting.settled] using hne), hd,
          .inr (.inl rfl)⟩
      · exact ⟨hp.grow ch foreign hw hx (by simp) (.inl rfl), by simp [Reading.mode]⟩

/-! ### What is done cannot be undone -/

theorem start_items (p : Parser α) (b : α) : (p.start ch b).items = p.items := by
  unfold Parser.start
  split_ifs <;> rfl

theorem doomed_start {p : Parser α} (h : p.items.all (Item.inert ch foreign) = false) (b : α) :
    (p.start ch b).Doomed ch foreign :=
  .item (by rw [start_items, h])

theorem doomed_closeWord {p : Parser α} {w : Word α} (h : w.opens ch foreign = true) (g : Bool) :
    (p.closeWord ch g w).items.all (Item.inert ch foreign) = false := by
  have hw : (Item.word (p.slot ch g w) w).inert ch foreign = false := by
    have hf := foreign_of_opens ch foreign h
    cases p.slot ch g w <;> simp [Item.inert, hf, h]
  simp [Parser.closeWord, hw]

theorem doomed_closeOperator {p : Parser α} {op : List α} (h : (op.any fun b => foreign b) = true) :
    (p.closeOperator ch op).items.all (Item.inert ch foreign) = false := by
  have hop : (op.all fun b => !foreign b) = false := by
    simpa using h
  unfold Parser.closeOperator
  split <;> simp [Item.inert, hop]

theorem step_items (p : Parser α) (b : α) : ∃ xs, (p.step ch b).items = p.items ++ xs := by
  unfold Parser.step
  split
  case h_1 => exact ⟨[], by simp [start_items]⟩
  case h_2 => split <;> exact ⟨[], by simp [start_items]⟩
  case h_3 op _ =>
    split
    · exact ⟨[], by simp⟩
    · rw [start_items]
      unfold Parser.closeOperator
      split <;> exact ⟨_, rfl⟩
  case h_4 w _ =>
    split
    · rw [start_items]
      exact ⟨_, rfl⟩
    · exact ⟨[], by simp⟩
  case h_5 => split <;> exact ⟨[], by simp⟩
  case h_6 => exact ⟨[], by simp⟩
  case h_7 => split <;> exact ⟨[], by simp⟩
  case h_8 => split <;> exact ⟨[], by simp⟩

/-- A word that opens a substitution still does with one more byte. -/
theorem opens_grow {w : Word α} (h : w.opens ch foreign = true) (x : α × Mark) :
    Word.opens ch foreign (w ++ [x]) = true := by
  rw [opens_append, h]
  rfl

theorem doomed_readBare {p : Parser α} {w : Word α} (h : w.opens ch foreign = true) (b : α) :
    Parser.Doomed ch foreign { p with reading := readBare ch w b } := by
  unfold readBare
  split
  case h_1 => exact .word .escaped _ rfl (by simpa [Quoting.settled] using h)
  all_goals exact .word _ _ rfl (opens_grow ch foreign h _)

theorem doomed_readDouble {p : Parser α} {w : Word α} (h : w.opens ch foreign = true) (b : α) :
    Parser.Doomed ch foreign { p with reading := readDouble ch w b } := by
  unfold readDouble
  split
  case h_2 => exact .word .escapedDouble _ rfl (by simpa [Quoting.settled] using h)
  all_goals exact .word _ _ rfl (opens_grow ch foreign h _)

theorem doomed_step {p : Parser α} (hp : p.Doomed ch foreign) (b : α) :
    (p.step ch b).Doomed ch foreign := by
  rcases hp with h | ⟨op, hr, h⟩ | ⟨q, w, hr, h⟩
  · obtain ⟨xs, hxs⟩ := step_items ch p b
    exact .item (by rw [hxs, List.all_append, h]; rfl)
  · simp only [Parser.step, hr]
    split
    · exact .operator _ rfl (by rw [List.any_append, h]; rfl)
    · exact doomed_start ch foreign (doomed_closeOperator ch foreign h) b
  · cases q with
    | bare =>
      simp only [Parser.step, hr]
      split
      · exact doomed_start ch foreign (doomed_closeWord ch foreign h _) b
      · exact doomed_readBare ch foreign h b
    | single =>
      simp only [Parser.step, hr]
      split <;> exact .word _ _ rfl (opens_grow ch foreign h _)
    | double =>
      simp only [Parser.step, hr]
      exact doomed_readDouble ch foreign h b
    | escaped =>
      simp only [Parser.step, hr]
      split_ifs with h1 h2
      · have hnil : w.dropLast = [] := List.eq_nil_of_length_eq_zero (by simp; omega)
        rw [Quoting.settled, hnil] at h
        exact absurd h (by simp [Word.opens])
      · exact .word _ _ rfl h
      · exact .word _ _ rfl (opens_grow ch foreign (opens_of_dropLast ch foreign h) _)
    | escapedDouble =>
      simp only [Parser.step, hr]
      split_ifs
      · exact .word _ _ rfl h
      · exact .word _ _ rfl (opens_grow ch foreign (opens_of_dropLast ch foreign h) _)

theorem doomed_run {p : Parser α} (hp : p.Doomed ch foreign) (s : List α) :
    (p.run ch s).Doomed ch foreign := by
  induction s generalizing p with
  | nil => exact hp
  | cons b s ih => exact ih (doomed_step ch foreign hp b)

theorem doomed_finish {p : Parser α} (hp : p.Doomed ch foreign) :
    (p.finish ch).inert ch foreign = false := by
  unfold Parse.inert
  rcases hp with h | ⟨op, hr, h⟩ | ⟨q, w, hr, h⟩
  · unfold Parser.finish
    split
    case h_1 | h_2 => exact h
    case h_3 op _ =>
      simp only [Parser.closeOperator]
      split <;> simp [h]
    all_goals simp [Parser.closeWord, h]
  · simpa [Parser.finish, hr] using doomed_closeOperator ch foreign (p := p) h
  · cases q with
    | bare | single | double =>
      simp only [Parser.finish, hr]
      exact doomed_closeWord ch foreign h false
    | escapedDouble =>
      simp only [Parser.finish, hr]
      exact doomed_closeWord ch foreign (opens_of_dropLast ch foreign h) false
    | escaped =>
      simp only [Parser.finish, hr]
      refine doomed_closeWord ch foreign ?_ false
      cases hl : w.getLast? with
      | none => simpa [Quoting.settled] using h
      | some x => exact opens_grow ch foreign h _

/-- **A run over foreign bytes goes as the scan says.** -/
theorem run_agrees {p : Parser α} (hp : p.Quiet ch foreign) {t : List α}
    (ht : ∀ b ∈ t, Filling ch foreign b) :
    Agrees ch foreign (p.run ch t) (scan p.reading.mode (t.map ch)) := by
  induction t generalizing p with
  | nil => exact ⟨hp, rfl⟩
  | cons b t ih =>
    have h := step_agrees ch foreign hp (ht b (List.mem_cons_self ..))
    rw [run_cons, List.map_cons, scan_cons]
    cases hm : p.reading.mode.next (ch b) with
    | none =>
      rw [hm] at h
      exact doomed_run ch foreign h t
    | some m =>
      rw [hm] at h
      obtain ⟨hq, rfl⟩ := h
      exact ih hq fun c hc => ht c (List.mem_cons_of_mem b hc)

end Run
end Tcos.Shell
