import Tcos.Shell.Inert
import Tcos.Shell.Erase

/-! What a line comes to without its foreign bytes.

The *outline* of a line is what its author wrote of it as the shell read it: operators,
redirections and command names as they are, of the arguments the author's own bytes one after
the other. Foreign text that scans leaves the outline alone (`run_outline`). Text of the
author's behind it is read as it would be behind any argument if the foreign text ends between
words or in an unquoted one (`behind_outline`); behind an open quote, an open backslash or a
comment it loses its place (`lost_outline`). -/
namespace Tcos.Shell

/-- Text that follows goes on where the author left off: nothing quotes its first byte. -/
def Mode.parted : Mode → Bool
  | .gap | .word _ => true
  | _ => false

/-- The line may end here. -/
def Mode.closed : Mode → Bool
  | .single | .double _ | .escapedDouble _ => false
  | _ => true

/-- A text that stands apart from what is before it: an operator, or a blank and a byte that is
only itself. -/
def Apart (s : Text) : Prop :=
  ∀ c, s.head? = some c → c = '|' ∨ (c = ' ' ∧ ∀ d, s[1]? = some d →
    isSolid d = true ∧ markOf d = .text)

section Outline
variable {α : Type} (ch : α → Char) (foreign : α → Bool)

/-- A byte of the author's that counts in an argument. Blanks and quotes do not: those among
foreign text belong to it. -/
def telling (b : α) : Bool := !foreign b && !isBlank (ch b) && !isQuoting (ch b)

def Item.outline : Item α → List (Item Char)
  | .word .argument w =>
    (w.filter fun x => telling ch foreign x.1).map fun x => .word .argument [(ch x.1, x.2)]
  | i => [i.erase ch]

def Item.isArgument : Item α → Bool
  | .word .argument _ => true
  | _ => false

def Parse.outline (p : Parse α) : List (Item Char) := p.items.flatMap (Item.outline ch foreign)

def Reading.outline : Reading α → List (Item Char)
  | .word _ w => Item.outline ch foreign (.word .argument w)
  | _ => []

/-- The outline so far, the word in progress taken for an argument. -/
def Parser.outline (p : Parser α) : List (Item Char) :=
  p.items.flatMap (Item.outline ch foreign) ++ p.reading.outline ch foreign

/-- Only a backslash leaves a backslash open. -/
def Parser.Slashed (p : Parser α) : Prop :=
  ∀ q w, p.reading = .word q w → q = .escaped ∨ q = .escapedDouble →
    ∃ v x, w = v ++ [x] ∧ ch x.1 = '\\'

/-! ### Words -/

theorem word_append (v w : Word α) : Item.outline ch foreign (.word .argument (v ++ w)) =
    Item.outline ch foreign (.word .argument v) ++ Item.outline ch foreign (.word .argument w) := by
  simp [Item.outline]

theorem word_untold {b : α} (h : telling ch foreign b = false) (w : Word α) (m : Mark) :
    Item.outline ch foreign (.word .argument (w ++ [(b, m)])) =
      Item.outline ch foreign (.word .argument w) := by
  simp [Item.outline, h]

theorem word_told {b : α} (h : telling ch foreign b = true) (w : Word α) (m : Mark) :
    Item.outline ch foreign (.word .argument (w ++ [(b, m)])) =
      Item.outline ch foreign (.word .argument w) ++ [.word .argument [(ch b, m)]] := by
  simp [Item.outline, h]

theorem untold_slash {b : α} (h : ch b = '\\') : telling ch foreign b = false := by
  simp [telling, h, isQuoting]

theorem Filling.untold {b : α} (h : Filling ch foreign b) : telling ch foreign b = false := by
  rcases h with h | h | h
  · simp [telling, h]
  · simp [telling, h, isBlank]
  · simp [telling, h, isQuoting]

/-- An open backslash counts for nothing in the word. -/
theorem word_dropLast {w : Word α} (h : ∃ v x, w = v ++ [x] ∧ ch x.1 = '\\') :
    Item.outline ch foreign (.word .argument w.dropLast) =
      Item.outline ch foreign (.word .argument w) := by
  obtain ⟨v, ⟨b, m⟩, rfl, hb⟩ := h
  rw [List.dropLast_concat, word_untold ch foreign (untold_slash ch foreign hb)]

theorem word_last {w : Word α} (h : ∃ v x, w = v ++ [x] ∧ ch x.1 = '\\') :
    Item.outline ch foreign (.word .argument
      (w.dropLast ++ (w.getLast?.map fun x => (x.1, Mark.quoted)).toList)) =
      Item.outline ch foreign (.word .argument w) := by
  obtain ⟨v, ⟨b, m⟩, rfl, hb⟩ := h
  have hun := untold_slash ch foreign hb
  simp [word_untold ch foreign hun]

theorem readBare_outline {b : α} (h : telling ch foreign b = false) (w : Word α) :
    (readBare ch w b).outline ch foreign = Item.outline ch foreign (.word .argument w) := by
  unfold readBare
  split <;> exact word_untold ch foreign h w _

theorem readDouble_outline {b : α} (h : telling ch foreign b = false) (w : Word α) :
    (readDouble ch w b).outline ch foreign = Item.outline ch foreign (.word .argument w) := by
  unfold readDouble
  split <;> exact word_untold ch foreign h w _

theorem closeWord_outline {p : Parser α} (hn : p.named = true) (ht : p.target = false) {g : Bool}
    {w : Word α} (hd : g = true → w.digits ch = false) :
    (p.closeWord ch g w).items.flatMap (Item.outline ch foreign) =
      p.items.flatMap (Item.outline ch foreign) ++ Item.outline ch foreign (.word .argument w) := by
  have hs : p.slot ch g w = .argument := by
    have hg : (g && w.digits ch) = false := by
      cases g
      · rfl
      · simp [hd rfl]
    simp [Parser.slot, hg, hn, ht]
  simp [Parser.closeWord, hs]

/-! ### Backslashes -/

theorem slashed_start (p : Parser α) (b : α) : (p.start ch b).Slashed ch := by
  intro q w hr hq
  unfold Parser.start at hr
  split_ifs at hr
  unfold readBare at hr
  split at hr <;> obtain ⟨rfl, rfl⟩ := Reading.word.inj hr <;> first
    | exact ⟨[], (b, .quote), rfl, ‹_›⟩
    | exact absurd hq (by simp)

theorem slashed_step (p : Parser α) (b : α) : (p.step ch b).Slashed ch := by
  unfold Parser.step
  split
  case h_1 => exact slashed_start ch p b
  case h_2 hr =>
    split
    · exact slashed_start ch p b
    · intro q w hw
      rw [hr] at hw
      exact absurd hw (by simp)
  case h_3 =>
    split
    · intro q w hw
      exact absurd hw (by simp)
    · exact slashed_start ch _ b
  case h_4 w _ =>
    split
    · exact slashed_start ch _ b
    · intro q v hw hq
      simp only [readBare] at hw
      split at hw <;> obtain ⟨rfl, rfl⟩ := Reading.word.inj hw <;> first
        | exact ⟨w, (b, .quote), rfl, ‹_›⟩
        | exact absurd hq (by simp)
  case h_6 w _ =>
    intro q v hw hq
    simp only [readDouble] at hw
    split at hw <;> obtain ⟨rfl, rfl⟩ := Reading.word.inj hw <;> first
      | exact ⟨w, (b, .slash), rfl, ‹_›⟩
      | exact absurd hq (by simp)
  case h_5 | h_7 | h_8 =>
    intro q v hw hq
    split_ifs at hw <;> obtain ⟨rfl, rfl⟩ := Reading.word.inj hw <;> exact absurd hq (by simp)

theorem slashed_run {p : Parser α} (hp : p.Slashed ch) (s : List α) : (p.run ch s).Slashed ch := by
  induction s generalizing p with
  | nil => exact hp
  | cons b s ih => exact ih (slashed_step ch p b)

/-! ### Foreign text -/

/-- **A foreign byte that does not act leaves the outline alone.** -/
theorem step_outline {p : Parser α} (hp : p.Quiet ch foreign) (hsl : p.Slashed ch) {b : α}
    (hb : Filling ch foreign b) (hm : (p.reading.mode.next (ch b)).isSome = true) :
    (p.step ch b).outline ch foreign = p.outline ch foreign := by
  have hun := hb.untold ch foreign
  unfold Parser.outline
  cases hr : p.reading with
  | gap =>
    simp only [Parser.step, hr, start_items]
    congr 1
    unfold Parser.start
    split_ifs <;> first | rfl | exact readBare_outline ch foreign hun []
  | comment =>
    simp only [hr, Reading.mode, Mode.next] at hm
    have hn : ch b ≠ '\n' := by rintro h; simp [h] at hm
    simp [Parser.step, hr, hn]
  | operator op => exact absurd hr (hp.operator op)
  | word q w =>
    rw [hr] at hm
    cases q <;> simp only [Parser.step, hr]
    · split
      case isTrue hbr =>
        have hblank : isBlank (ch b) = true := by
          simp only [breaks, Bool.and_eq_true, Bool.or_eq_true] at hbr
          simp only [Reading.mode, Mode.next] at hm
          rcases hbr.1 with h | h
          · exact h
          · split_ifs at hm <;> first | assumption | simp at hm
        rw [start_items, closeWord_outline ch foreign hp.named hp.target fun hg => by
          rw [(blank_facts hblank).2] at hg
          exact absurd hg (by simp)]
        simp [Parser.start, hblank, Reading.outline]
      · simp only [readBare_outline ch foreign hun]
        rfl
    · split <;> simp [Reading.outline, word_untold ch foreign hun]
    · simp only [readDouble_outline ch foreign hun]
      rfl
    · have hlast := hsl _ w hr (.inl rfl)
      split_ifs with h1 h2
      · obtain ⟨v, x, rfl, hx⟩ := hlast
        have hv : v = [] := by simpa using h2
        simp [hv, Reading.outline, Item.outline, untold_slash ch foreign hx]
      · simp only [Reading.outline, word_dropLast ch foreign hlast]
      · simp only [Reading.outline, word_untold ch foreign hun]
    · have hlast := hsl _ w hr (.inr rfl)
      split_ifs
      · simp only [Reading.outline, word_dropLast ch foreign hlast]
      · simp only [Reading.outline, word_untold ch foreign hun]

/-- **Foreign text that scans leaves the outline alone.** -/
theorem run_outline {p : Parser α} (hp : p.Quiet ch foreign) (hsl : p.Slashed ch) {t : List α}
    (ht : ∀ b ∈ t, Filling ch foreign b) {m : Mode} (hm : scan p.reading.mode (t.map ch) = some m) :
    (p.run ch t).Quiet ch foreign ∧ (p.run ch t).reading.mode = m ∧
      (p.run ch t).outline ch foreign = p.outline ch foreign := by
  induction t generalizing p with
  | nil => exact ⟨hp, by simpa using hm, rfl⟩
  | cons b t ih =>
    have hb := ht b (List.mem_cons_self ..)
    rw [List.map_cons, scan_cons, Option.bind_eq_some_iff] at hm
    obtain ⟨m₁, hm₁, hm⟩ := hm
    have hstep := step_agrees ch foreign hp hb
    rw [hm₁] at hstep
    obtain ⟨hq, rfl⟩ := hstep
    obtain ⟨h1, h2, h3⟩ := ih hq (slashed_step ch p b) (fun c hc => ht c (List.mem_cons_of_mem b hc)) hm
    exact ⟨h1, h2, h3.trans (step_outline ch foreign hp hsl hb (by rw [hm₁]; rfl))⟩

/-- The end of a line that is still quiet. -/
theorem finish_outline {p : Parser α} (hp : p.Quiet ch foreign) (hsl : p.Slashed ch) :
    (p.finish ch).outline ch foreign = p.outline ch foreign ∧
      (p.finish ch).complete = p.reading.mode.closed := by
  have hclose : ∀ w : Word α, (p.closeWord ch false w).items.flatMap (Item.outline ch foreign) =
      p.items.flatMap (Item.outline ch foreign) ++ Item.outline ch foreign (.word .argument w) :=
    fun w => closeWord_outline ch foreign hp.named hp.target (by simp)
  unfold Parser.outline Parse.outline Parser.finish
  cases hr : p.reading with
  | gap | comment => simp [Reading.outline, Reading.mode, Mode.closed]
  | operator op => exact absurd hr (hp.operator op)
  | word q w =>
    cases q <;> simp only [hclose, Reading.outline, Reading.mode, Mode.closed, and_self]
    exact ⟨by rw [word_last ch foreign (hsl _ w hr (.inl rfl))], trivial⟩

/-! ### The author's text behind it -/

/-- What is behind an argument, read by itself. -/
def behind (s : List α) : Parse α := (Parser.run ch { named := true } s).finish ch

/-- **Behind a gap or an unquoted word the author's text is read as behind any argument.** -/
theorem behind_outline {p : Parser α} (hp : p.Quiet ch foreign) (hm : p.reading.mode.parted = true)
    {b : α} (hb : ch b = ' ' ∨ ch b = '|') (s : List α) :
    ((p.run ch (b :: s)).finish ch).outline ch foreign =
        p.outline ch foreign ++ (behind ch (b :: s)).outline ch foreign ∧
      ((p.run ch (b :: s)).finish ch).complete = (behind ch (b :: s)).complete := by
  have hstep : ∃ xs : List (Item α), xs.flatMap (Item.outline ch foreign) = p.outline ch foreign ∧
      p.step ch b = Parser.after xs (Parser.step ch { named := true } b) := by
    cases hr : p.reading with
    | gap =>
      refine ⟨p.items, by simp [Parser.outline, hr, Reading.outline], ?_⟩
      have hpar : p = Parser.after p.items { named := true } := by
        obtain ⟨r, n, t, i⟩ := p
        obtain rfl : r = .gap := hr
        obtain rfl : n = true := hp.named
        obtain rfl : t = false := hp.target
        simp [Parser.after]
      conv_lhs => rw [hpar]
      exact step_after ch p.items _ b
    | comment =>
      rw [hr] at hm
      exact absurd hm (by simp [Reading.mode, Mode.parted])
    | operator op => exact absurd hr (hp.operator op)
    | word q w =>
      rw [hr] at hm
      cases q with
      | bare =>
        refine ⟨p.items ++ [.word .argument w], by
          simp [Parser.outline, hr, Reading.outline], ?_⟩
        have hbr : breaks w (ch b) = true := by
          rcases hb with h | h <;> simp [breaks, h, isBlank, isOperator]
        have hred : isRedirect (ch b) = false := by rcases hb with h | h <;> rw [h] <;> decide
        simp only [Parser.step, hr, if_pos hbr, hred]
        rw [← start_after]
        congr 1
        simp [Parser.closeWord, Parser.slot, Parser.after, hp.named, hp.target]
      | single | double | escaped | escapedDouble =>
        exact absurd hm (by simp [Reading.mode, Mode.parted])
  obtain ⟨xs, hxs, hstep⟩ := hstep
  rw [run_cons, hstep, run_after, finish_after, behind, run_cons]
  exact ⟨by simp [Parse.outline, hxs], rfl⟩

/-- The outline has come to `D`, and nothing read later takes it back. -/
def Parser.Keeps (D : List (Item Char)) (p : Parser α) : Prop :=
  D <+: p.items.flatMap (Item.outline ch foreign) ∨
    (p.named = true ∧ p.target = false ∧ D <+: p.outline ch foreign ∧
      ∃ q w, p.reading = .word q w ∧ (w.any fun x => x.2 != .text) = true)

theorem Parser.Keeps.grow {D : List (Item Char)} {p : Parser α} (hn : p.named = true)
    (ht : p.target = false) {w : Word α} (hw : (w.any fun x => x.2 != .text) = true)
    (hD : D <+: p.items.flatMap (Item.outline ch foreign) ++
      Item.outline ch foreign (.word .argument w)) (q : Quoting) (x : α × Mark) :
    Parser.Keeps ch foreign D { p with reading := .word q (w ++ [x]) } := by
  refine .inr ⟨hn, ht, hD.trans ?_, q, w ++ [x], rfl, by rw [List.any_append, hw]; rfl⟩
  simp only [Parser.outline, Reading.outline, word_append, ← List.append_assoc]
  exact List.prefix_append ..

theorem keeps_step {D : List (Item Char)} {p : Parser α} (hp : p.Keeps ch foreign D) {b : α}
    (hb : ch b ≠ '\n') : (p.step ch b).Keeps ch foreign D := by
  rcases hp with hp | ⟨hn, ht, hD, q, w, hr, hw⟩
  · obtain ⟨xs, hxs⟩ := step_items ch p b
    refine .inl (hp.trans ?_)
    rw [hxs, List.flatMap_append]
    exact List.prefix_append ..
  · have hD' : D <+: p.items.flatMap (Item.outline ch foreign) ++
        Item.outline ch foreign (.word .argument w) := by
      simpa [Parser.outline, hr, Reading.outline] using hD
    have hgrow := Parser.Keeps.grow ch foreign hn ht hw hD'
    cases q <;> simp only [Parser.step, hr, beq_iff_eq, if_neg hb]
    · split
      · refine .inl ?_
        rw [start_items, closeWord_outline ch foreign hn ht fun _ => not_digits ch hw]
        exact hD'
      · unfold readBare
        split <;> exact hgrow _ _
    · split <;> exact hgrow _ _
    · unfold readDouble
      split <;> exact hgrow _ _
    · exact hgrow _ _
    · exact hgrow _ _

theorem keeps_run {D : List (Item Char)} {p : Parser α} (hp : p.Keeps ch foreign D) {s : List α}
    (hs : ∀ b ∈ s, ch b ≠ '\n') : (p.run ch s).Keeps ch foreign D := by
  induction s generalizing p with
  | nil => exact hp
  | cons b s ih =>
    exact ih (keeps_step ch foreign hp (hs b (List.mem_cons_self ..)))
      fun c hc => hs c (List.mem_cons_of_mem b hc)

theorem keeps_finish {D : List (Item Char)} {p : Parser α} (hp : p.Keeps ch foreign D)
    (hsl : p.Slashed ch) : D <+: (p.finish ch).outline ch foreign := by
  rcases hp with hp | ⟨hn, ht, hD, q, w, hr, hw⟩
  · have hitems : ∃ xs, (p.finish ch).items = p.items ++ xs := by
      unfold Parser.finish
      split
      case h_1 | h_2 => exact ⟨[], by simp⟩
      case h_3 op _ =>
        simp only [Parser.closeOperator]
        split <;> exact ⟨_, rfl⟩
      all_goals exact ⟨_, rfl⟩
    obtain ⟨xs, hxs⟩ := hitems
    rw [Parse.outline, hxs, List.flatMap_append]
    exact hp.trans (List.prefix_append ..)
  · have hclose : ∀ v : Word α, (p.closeWord ch false v).items.flatMap (Item.outline ch foreign) =
        p.items.flatMap (Item.outline ch foreign) ++ Item.outline ch foreign (.word .argument v) :=
      fun v => closeWord_outline ch foreign hn ht (by simp)
    have hD' : D <+: p.items.flatMap (Item.outline ch foreign) ++
        Item.outline ch foreign (.word .argument w) := by
      simpa [Parser.outline, hr, Reading.outline] using hD
    unfold Parse.outline Parser.finish
    rw [hr]
    cases q <;> simp only [hclose]
    case escaped => rwa [word_last ch foreign (hsl _ w hr (.inl rfl))]
    all_goals exact hD'

theorem solid_facts {c : Char} (h : isSolid c = true) :
    isBlank c = false ∧ isOperator c = false ∧ isQuoting c = false := by
  simpa [isSolid, and_assoc] using h

/-- A byte that is only itself goes on with the word. -/
theorem step_plain {p : Parser α} {q : Quoting} (hq : q = .bare ∨ q = .single ∨ q = .double) {w : Word α}
    {b : α} (hb : isSolid (ch b) = true) (hm : markOf (ch b) = .text)
    (hr : p.reading = .word q w) :
    ∃ m, p.step ch b = { p with reading := .word q (w ++ [(b, m)]) } := by
  obtain ⟨hblank, hop, hquote⟩ := solid_facts hb
  have hne : ch b ≠ '\\' ∧ ch b ≠ '\x27' ∧ ch b ≠ '\x22' := by
    simpa [isQuoting, and_assoc] using hquote
  rcases hq with rfl | rfl | rfl
  · have hbr : breaks w (ch b) = false := by simp [breaks, hblank, hop]
    rcases readBare_bytes ch w b with ⟨_, h, _⟩ | ⟨h, _⟩
    · exact ⟨.text, by simp [Parser.step, hr, hbr, h, hm]⟩
    · rw [hquote] at h
      exact absurd h (by simp)
  · exact ⟨.quoted, by simp [Parser.step, hr, hne.2.1]⟩
  · refine ⟨.quoted, ?_⟩
    have hd : ch b ≠ '$' := by rintro h; rw [h] at hm; exact absurd hm (by decide)
    have hbq : ch b ≠ '\x60' := by rintro h; rw [h] at hm; exact absurd hm (by decide)
    have hread : readDouble ch w b = .word .double (w ++ [(b, .quoted)]) := by
      unfold readDouble
      split <;> simp_all
    simp only [Parser.step, hr, hread]

/-- In an open quote or behind a backslash a blank or a bar is quoted. -/
theorem step_quoted {p : Parser α} {q : Quoting} {w : Word α} (hr : p.reading = .word q w)
    (hm : p.reading.mode.parted = false) {b : α} (hb : ch b = '|' ∨ ch b = ' ') :
    ∃ q', (q' = .bare ∨ q' = .single ∨ q' = .double) ∧
      p.step ch b = { p with reading := .word q' (w ++ [(b, .quoted)]) } := by
  rw [hr] at hm
  cases q with
  | bare => exact absurd hm (by simp [Reading.mode, Mode.parted])
  | single =>
    refine ⟨.single, by simp, ?_⟩
    rcases hb with h | h <;> simp [Parser.step, hr, h]
  | double =>
    refine ⟨.double, by simp, ?_⟩
    rcases hb with h | h <;> simp [Parser.step, hr, readDouble, h]
  | escaped =>
    refine ⟨.bare, by simp, ?_⟩
    rcases hb with h | h <;> simp [Parser.step, hr, h]
  | escapedDouble =>
    refine ⟨.double, by simp, ?_⟩
    rcases hb with h | h <;> simp [Parser.step, hr, h]

/-- A byte that tells is there to stay, in a word with a quoted byte. -/
theorem keeps_told {p : Parser α} (hn : p.named = true) (ht : p.target = false) {q : Quoting}
    {w : Word α} (hr : p.reading = .word q w) {b : α} (hb : telling ch foreign b = true) {m : Mark}
    (hw : ((w ++ [(b, m)]).any fun x => x.2 != .text) = true) (q' : Quoting) :
    Parser.Keeps ch foreign (p.outline ch foreign ++ [.word .argument [(ch b, m)]])
      { p with reading := .word q' (w ++ [(b, m)]) } := by
  refine .inr ⟨hn, ht, ?_, q', _, rfl, hw⟩
  simp only [Parser.outline, Reading.outline, hr, word_told ch foreign hb, List.append_assoc]
  exact List.prefix_rfl

/-- What is read later cannot take it back. -/
theorem told_outline {p : Parser α} {D : List (Item Char)} {w : Word Char} (hsl : p.Slashed ch)
    (hk : p.Keeps ch foreign (D ++ [.word .argument w])) {s : List α} (hs : ∀ b ∈ s, ch b ≠ '\n') :
    ∃ w, D ++ [.word .argument w] <+: ((p.run ch s).finish ch).outline ch foreign :=
  ⟨w, keeps_finish ch foreign (keeps_run ch foreign hk hs) (slashed_run ch hsl s)⟩

/-- A blank in an open quote or behind a backslash is not seen at the end. -/
theorem blank_outline {p : Parser α} (hp : p.Quiet ch foreign) {q : Quoting} {w : Word α}
    (hr : p.reading = .word q w) {b : α} (hb : ch b = ' ') :
    ((p.step ch b).finish ch).outline ch foreign = (p.step ch b).outline ch foreign := by
  have hagrees := step_agrees ch foreign hp (b := b) (.inr (.inl hb))
  cases hn : p.reading.mode.next (ch b) with
  | none =>
    rw [hr, hb] at hn
    cases q <;> simp [Reading.mode, Mode.next, isBlank, isExpansionStart] at hn
  | some m =>
    rw [hn] at hagrees
    exact (finish_outline ch foreign hagrees.1 (slashed_step ch p b)).1

/-- **Behind an open quote, an open backslash or a comment the author's text loses its place**:
the outline ends there, or goes on with an argument. -/
theorem lost_outline {p : Parser α} (hp : p.Quiet ch foreign) (hsl : p.Slashed ch)
    (hm : p.reading.mode.parted = false) {s : List α} (hs : ∀ b ∈ s, foreign b = false ∧ ch b ≠ '\n')
    (ha : Apart (s.map ch)) :
    ((p.run ch s).finish ch).outline ch foreign = p.outline ch foreign ∨
      ∃ w, p.outline ch foreign ++ [.word .argument w] <+:
        ((p.run ch s).finish ch).outline ch foreign := by
  cases hr : p.reading with
  | gap =>
    rw [hr] at hm
    exact absurd hm (by simp [Reading.mode, Mode.parted])
  | operator op => exact absurd hr (hp.operator op)
  | comment =>
    rw [run_comment ch hr fun b hb => (hs b hb).2]
    exact .inl (finish_outline ch foreign hp hsl).1
  | word q w =>
    cases s with
    | nil => exact .inl (finish_outline ch foreign hp hsl).1
    | cons b s =>
      obtain ⟨hb, hbn⟩ := hs b (List.mem_cons_self ..)
      have hsn : ∀ c ∈ s, ch c ≠ '\n' := fun c hc => (hs c (List.mem_cons_of_mem b hc)).2
      rcases ha (ch b) rfl with hbar | ⟨hblank, hnext⟩
      · -- the bar tells
        obtain ⟨q', -, hstep⟩ := step_quoted ch hr hm (.inl hbar)
        have htell : telling ch foreign b = true := by simp [telling, hb, hbar, isBlank, isQuoting]
        have hkeeps := keeps_told ch foreign hp.named hp.target hr htell (m := .quoted) (by simp) q'
        rw [← hstep] at hkeeps
        exact .inr (told_outline ch foreign (slashed_step ch p b) hkeeps hsn)
      · obtain ⟨q', hq', hstep⟩ := step_quoted ch hr hm (.inr hblank)
        have hsame : (p.step ch b).outline ch foreign = p.outline ch foreign := by
          rw [hstep]
          simp only [Parser.outline, Reading.outline, hr,
            word_untold ch foreign (b := b) (by simp [telling, hblank, isBlank])]
        cases s with
        | nil => exact .inl ((blank_outline ch foreign hp hr hblank).trans hsame)
        | cons c s =>
          -- the byte behind the blank tells
          obtain ⟨hsolid, hmark⟩ := hnext (ch c) rfl
          obtain ⟨hc, -⟩ := hs c (by simp)
          have hplain := solid_facts hsolid
          have htell : telling ch foreign c = true := by simp [telling, hc, hplain.1, hplain.2.2]
          have hreading : (p.step ch b).reading = .word q' (w ++ [(b, .quoted)]) := by rw [hstep]
          obtain ⟨m, hstep'⟩ := step_plain ch hq' hsolid hmark hreading
          have hkeeps := keeps_told ch foreign (by rw [hstep]; exact hp.named)
            (by rw [hstep]; exact hp.target) hreading htell (m := m) (by simp) q'
          rw [← hstep', hsame] at hkeeps
          exact .inr (told_outline ch foreign (slashed_step ch _ c) hkeeps
            fun d hd => hsn d (List.mem_cons_of_mem c hd))

/-! ### Inside double quotes -/

end Outline
end Tcos.Shell
