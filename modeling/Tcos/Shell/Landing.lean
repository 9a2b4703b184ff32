import Tcos.Shell.Argument
import Tcos.Shell.Foreign

/-! Several texts put in one command line, a blank between each and the next.

The program the line is for reads some of them and has no place for the others. Each text lands
where it should if the shell, reading one after the other, adds the text itself to the arguments
for one that is read and nothing for one that is not. `lands_iff`: this is so exactly if those that
are read are literal and those that are not are blank. -/
namespace Tcos.Shell

/-! ### Texts that leave nothing -/

/-- Blanks and continued lines. -/
def vanishes : Text → Bool
  | [] => true
  | [c] => isBlank c
  | c :: d :: rest => if isBlank c then vanishes (d :: rest) else c == '\\' && d == '\n' && vanishes rest

section Landing
variable {α : Type} (ch : α → Char)

theorem step_blank {p : Parser α} (hp : p.reading = .gap) {b : α} (hb : isBlank (ch b) = true) :
    p.step ch b = p := by
  cases p
  simp_all [Parser.step, Parser.start]

/-- A word or an operator has begun that was not there with the first `n` items. -/
structure Parser.Busy (n : Nat) (p : Parser α) : Prop where
  kept : n ≤ p.items.length
  more : n < p.items.length ∨ (∃ op, p.reading = .operator op) ∨
    ∃ q w, p.reading = .word q w ∧ 1 ≤ w.length ∧ (q = .escaped ∨ q = .escapedDouble → 2 ≤ w.length)

theorem start_more {n : Nat} {p : Parser α} (h : n < p.items.length) (b : α) :
    Parser.Busy n (p.start ch b) := by
  refine ⟨?_, .inl ?_⟩ <;> rw [start_items]
  · omega
  · exact h

theorem readBare_busy {n : Nat} {p : Parser α} (h : n ≤ p.items.length) (w : Word α) {b : α}
    (hw : ch b = '\\' → 1 ≤ w.length) : Parser.Busy n { p with reading := readBare ch w b } := by
  refine ⟨h, .inr (.inr ?_)⟩
  unfold readBare
  split
  case h_1 hb =>
    have := hw hb
    exact ⟨_, _, rfl, by simp, by simp; omega⟩
  all_goals exact ⟨_, _, rfl, by simp, by simp⟩

theorem readDouble_busy {n : Nat} {p : Parser α} (h : n ≤ p.items.length) {w : Word α}
    (hw : 1 ≤ w.length) (b : α) : Parser.Busy n { p with reading := readDouble ch w b } := by
  refine ⟨h, .inr (.inr ?_)⟩
  unfold readDouble
  split
  case h_2 => exact ⟨_, _, rfl, by simp, by simp; omega⟩
  all_goals exact ⟨_, _, rfl, by simp, by simp⟩

theorem closeOperator_items (p : Parser α) (op : List α) :
    (p.closeOperator ch op).items.length = p.items.length + 1 := by
  unfold Parser.closeOperator
  split <;> simp

theorem closeWord_items (p : Parser α) (g : Bool) (w : Word α) :
    (p.closeWord ch g w).items.length = p.items.length + 1 := by
  simp [Parser.closeWord]

/-- What has begun stays. -/
theorem step_busy {n : Nat} {p : Parser α} (hp : p.Busy n) (b : α) : (p.step ch b).Busy n := by
  obtain ⟨hkept, hmore | ⟨op, hr⟩ | ⟨q, w, hr, hw, hescaped⟩⟩ := hp
  · obtain ⟨xs, hxs⟩ := step_items ch p b
    refine ⟨?_, .inl ?_⟩ <;> rw [hxs, List.length_append] <;> omega
  · simp only [Parser.step, hr]
    split
    · exact ⟨hkept, .inr (.inl ⟨_, rfl⟩)⟩
    · exact start_more ch (by rw [closeOperator_items]; omega) b
  · simp only [Parser.step, hr]
    cases q with
    | bare =>
      dsimp only
      split
      · exact start_more ch (by rw [closeWord_items]; omega) b
      · exact readBare_busy ch hkept w fun _ => hw
    | single =>
      dsimp only
      split
      · exact ⟨hkept, .inr (.inr ⟨_, _, rfl, by simp, by simp⟩)⟩
      · exact ⟨hkept, .inr (.inr ⟨_, _, rfl, by simp, by simp⟩)⟩
    | double => exact readDouble_busy ch hkept hw b
    | escaped =>
      have hlen := hescaped (.inl rfl)
      dsimp only
      split
      · rw [if_neg (by omega)]
        exact ⟨hkept, .inr (.inr ⟨_, _, rfl, by simp; omega, by simp⟩)⟩
      · exact ⟨hkept, .inr (.inr ⟨_, _, rfl, by simp, by simp⟩)⟩
    | escapedDouble =>
      have hlen := hescaped (.inr rfl)
      dsimp only
      split
      · exact ⟨hkept, .inr (.inr ⟨_, _, rfl, by simp; omega, by simp⟩)⟩
      · exact ⟨hkept, .inr (.inr ⟨_, _, rfl, by simp, by simp⟩)⟩

theorem run_busy {n : Nat} {p : Parser α} (hp : p.Busy n) (s : List α) : (p.run ch s).Busy n := by
  induction s generalizing p with
  | nil => exact hp
  | cons b s ih => exact ih (step_busy ch hp b)

/-- At the end of the line it is one more item. -/
theorem finish_busy {n : Nat} {p : Parser α} (hp : p.Busy n) : n < (p.finish ch).items.length := by
  obtain ⟨hkept, hmore⟩ := hp
  unfold Parser.finish
  cases hr : p.reading with
  | gap => simpa [hr] using hmore
  | comment => simpa [hr] using hmore
  | operator op =>
    dsimp only
    rw [closeOperator_items]
    omega
  | word q w => cases q <;> dsimp only <;> rw [closeWord_items] <;> omega

theorem gather_empty {xs : List (Item α)} (h : gather ch xs = some {}) : xs = [] := by
  unfold gather at h
  split at h
  case h_1 => rfl
  case h_7 => exact absurd h (by simp)
  all_goals
    simp only [Option.bind_eq_some_iff, Option.map_eq_some_iff, Simple.append] at h
    grind

/-- Each item adds something. -/
theorem gather_same {xs ys : List (Item α)} {s : Simple} (h : gather ch xs = some s)
    (h' : gather ch (xs ++ ys) = some s) : ys = [] := by
  rw [gather_append ch h] at h'
  obtain ⟨u, hu, hsu⟩ := Option.map_eq_some_iff.mp h'
  refine gather_empty ch (hu.trans ?_)
  obtain ⟨sa, sb, sc⟩ := s
  obtain ⟨ua, ub, uc⟩ := u
  simpa [Simple.append] using hsu

theorem run_items (p : Parser α) (s : List α) : ∃ xs, (p.run ch s).items = p.items ++ xs := by
  induction s generalizing p with
  | nil => exact ⟨[], by simp⟩
  | cons b s ih =>
    obtain ⟨xs, hxs⟩ := step_items ch p b
    obtain ⟨ys, hys⟩ := ih (p.step ch b)
    exact ⟨xs ++ ys, by rw [run_cons, hys, hxs, List.append_assoc]⟩

theorem finish_items (p : Parser α) : ∃ xs, (p.finish ch).items = p.items ++ xs := by
  unfold Parser.finish
  cases p.reading with
  | gap => exact ⟨[], by simp⟩
  | comment => exact ⟨[], by simp⟩
  | operator op =>
    dsimp only [Parser.closeOperator]
    split <;> exact ⟨_, rfl⟩
  | word q w => cases q <;> exact ⟨_, rfl⟩

/-- A reader that is busy reads another command. -/
theorem busy_changes {p q : Parser α} {s : Simple} (hp : gather ch p.items = some s)
    (hq : q.Busy p.items.length) (hitems : ∃ xs, q.items = p.items ++ xs) :
    (q.finish ch).simple ch ≠ some s := by
  intro h
  obtain ⟨xs, hxs⟩ := hitems
  obtain ⟨ys, hys⟩ := finish_items ch q
  have hmore := finish_busy ch hq
  unfold Parse.simple at h
  split at h
  case isFalse => exact absurd h (by simp)
  case isTrue =>
    rw [hys, hxs, List.append_assoc] at h hmore
    rw [gather_same ch hp h] at hmore
    simp at hmore

/-! ### Texts that are not read -/

/-- In a comment. -/
def Parser.commented (p : Parser α) : Parser α := { p with reading := .comment }

theorem step_commented (p : Parser α) (b : α) :
    p.commented.step ch b = if ch b == '\n' then { p with reading := .operator [b] }
    else p.commented := by
  unfold Parser.commented Parser.step
  dsimp only
  split
  case isTrue h => simp [Parser.start, isBlank, isOperator, eq_of_beq h]
  case isFalse => rfl

/-- A comment goes on, or another command begins. -/
theorem run_commented (p : Parser α) (s : List α) : p.commented.run ch s = p.commented ∨
    ∃ xs, ((p.commented.run ch s).finish ch).items = p.items ++ xs ∧ gather ch xs = none := by
  induction s with
  | nil => exact .inl rfl
  | cons b s ih =>
    rw [run_cons, step_commented]
    split
    case isTrue hb =>
      have hclose : Parser.closeOperator ch { p with reading := .operator [b] } [b] =
          { items := p.items ++ [.control [b]] } := by
        simp [Parser.closeOperator, isRedirect, eq_of_beq hb]
      have hcontrol : ∀ xs, gather ch (.control [b] :: xs) = none := fun xs => by simp [gather]
      right
      cases s with
      | nil => exact ⟨[.control [b]], by simp [Parser.finish, hclose], hcontrol []⟩
      | cons c s =>
        have hstep : Parser.step ch { p with reading := .operator [b] } c =
            Parser.start ch { items := p.items ++ [.control [b]] } c := by
          simp [Parser.step, operatorContinues, eq_of_beq hb, hclose]
        obtain ⟨xs, hxs⟩ := run_items ch (Parser.start ch { items := p.items ++ [.control [b]] } c) s
        obtain ⟨ys, hys⟩ := finish_items ch
          ((Parser.start ch { items := p.items ++ [.control [b]] } c).run ch s)
        refine ⟨.control [b] :: (xs ++ ys), ?_, hcontrol _⟩
        rw [run_cons, hstep, hys, hxs, start_items]
        simp
    case isFalse => exact ih

/-- Nothing after a comment is an argument. -/
theorem commented_same {p : Parser α} {s u : Simple} (hp : gather ch p.items = some s) {t : List α}
    (h : ((p.commented.run ch t).finish ch).simple ch = some u) : u = s := by
  rcases run_commented ch p t with hrun | ⟨xs, hitems, hnone⟩
  · rw [hrun] at h
    exact Option.some.inj (h.symm.trans hp)
  · unfold Parse.simple at h
    rw [hitems, gather_append ch hp, hnone] at h
    split at h <;> exact absurd h (by simp)

theorem run_vanishing {p : Parser α} (hp : p.reading = .gap) :
    ∀ {t : List α}, vanishes (t.map ch) = true → p.run ch t = p
  | [], _ => rfl
  | [b], h => step_blank ch hp h
  | b :: c :: rest, h => by
    simp only [List.map_cons, vanishes] at h
    split at h
    case isTrue hb =>
      rw [run_cons, step_blank ch hp hb]
      exact run_vanishing hp h
    case isFalse =>
      simp only [Bool.and_eq_true, beq_iff_eq] at h
      obtain ⟨⟨hb, hc⟩, hrest⟩ := h
      have hstep : (p.step ch b).step ch c = p := by
        cases p
        simp_all [Parser.step, Parser.start, isBlank, isOperator, isRedirect, readBare]
      rw [run_cons, run_cons, hstep]
      exact run_vanishing hp hrest

/-- What is begun inside the text is there at its end. -/
theorem begun_changes {p q : Parser α} {s : Simple} (hp : p.Awaits ch s) (hq : q.Busy p.items.length)
    (hitems : q.items = p.items) (t : List α) : ((q.run ch t).finish ch).simple ch ≠ some s := by
  obtain ⟨xs, hxs⟩ := run_items ch q t
  exact busy_changes ch hp.gathered (run_busy ch hq t) ⟨xs, by rw [hxs, hitems]⟩

/-- The byte after a backslash that began a word. -/
theorem step_continued {p : Parser α} (hp : p.reading = .gap) (c d : α) :
    Parser.step ch { p with reading := .word .escaped [(c, .quote)] } d =
      if ch d == '\n' then p else { p with reading := .word .bare [(c, .quote), (d, .quoted)] } := by
  cases p
  simp_all [Parser.step]

theorem second_busy (p : Parser α) (c d : α) : Parser.Busy p.items.length
    { p with reading := .word .bare [(c, .quote), (d, .quoted)] } :=
  ⟨Nat.le_refl _, .inr (.inr ⟨_, _, rfl, by simp, by simp⟩)⟩

/-- A text that adds nothing is blank, or opens a comment. -/
theorem unread_cases {p : Parser α} {s : Simple} (hp : p.Awaits ch s) {b : α} (hb : ch b = ' ') :
    ∀ {t : List α}, ((p.run ch (t ++ [b])).finish ch).simple ch = some s →
      vanishes (t.map ch) = true ∨ p.run ch (t ++ [b]) = p.commented
  | [], _ => .inl rfl
  | c :: rest, h => by
    rw [List.cons_append, run_cons, show p.step ch c = p.start ch c by simp [Parser.step, hp.gap]] at h ⊢
    unfold Parser.start at h ⊢
    split at h
    case isTrue hblank =>
      have hgap : { p with reading := .gap } = p := by rw [← hp.gap]
      rw [if_pos hblank, hgap]
      rw [hgap] at h
      refine (unread_cases hp hb h).imp_left fun hrest => ?_
      cases rest with
      | nil => exact hblank
      | cons d rest => simpa [vanishes, hblank] using hrest
    case isFalse hblank =>
      rw [if_neg hblank]
      split at h
      case isTrue =>
        have hbusy : Parser.Busy p.items.length { p with reading := .operator [c] } :=
          ⟨Nat.le_refl _, .inr (.inl ⟨_, rfl⟩)⟩
        exact absurd h (begun_changes ch hp hbusy rfl _)
      case isFalse hoperator =>
        rw [if_neg hoperator]
        split at h
        case isTrue hhash =>
          rw [if_pos hhash]
          right
          rcases run_commented ch p (rest ++ [b]) with hrun | ⟨xs, hitems, hnone⟩
          · exact hrun
          · change ((p.commented.run ch (rest ++ [b])).finish ch).simple ch = some s at h
            unfold Parse.simple at h
            rw [hitems, gather_append ch hp.gathered, hnone] at h
            split at h <;> exact absurd h (by simp)
        case isFalse hhash =>
          rw [if_neg hhash]
          by_cases hslash : ch c = '\\'
          · have hbare : readBare ch [] c = .word .escaped [(c, .quote)] := by simp [readBare, hslash]
            rw [hbare] at h ⊢
            cases rest with
            | nil =>
              rw [List.nil_append, run_cons, step_continued ch hp.gap, if_neg (by simp [hb])] at h
              exact absurd h (begun_changes ch hp (second_busy p c b) rfl [])
            | cons d rest =>
              rw [List.cons_append, run_cons, step_continued ch hp.gap] at h ⊢
              split at h
              case isTrue hd =>
                rw [if_pos hd]
                refine (unread_cases hp hb h).imp_left fun hrest => ?_
                simpa [vanishes, hslash, eq_of_beq hd, show isBlank '\\' = false from rfl] using hrest
              case isFalse hd => exact absurd h (begun_changes ch hp (second_busy p c d) rfl _)
          · exact absurd h (begun_changes ch hp
              (readBare_busy ch (Nat.le_refl _) [] (absurd · hslash)) rfl _)

/-! ### One text after the other -/

/-- A text of the line, and whether the program has a place for it. -/
structure Entry (α : Type) where
  text : List α
  read : Bool
  deriving DecidableEq, Repr

/-- Each text and a blank after it. -/
def spaced (b : α) (fields : List (Entry α)) : List α := fields.flatMap fun f => f.text ++ [b]

/-- The arguments the program has a place for. -/
def wanted (fields : List (Entry α)) : List Text :=
  (fields.filter fun f => f.read).map fun f => f.text.map ch

/-- As far as the shell has read, the arguments are the texts that are read. The last one is. -/
structure Lands (p : Parser α) (s : Simple) (b : α) (fields : List (Entry α)) (last : List α) :
    Prop where
  before : ∀ done rest, fields = done ++ rest →
    ((p.run ch (spaced b done)).finish ch).simple ch = some (s.append { args := wanted ch done })
  whole : ((p.run ch (spaced b fields ++ last)).finish ch).simple ch =
    some (s.append { args := wanted ch fields ++ [last.map ch] })

/-- Literal if it is read, blank if it is not. -/
def Entry.sits (f : Entry α) : Bool := if f.read then isLiteral (f.text.map ch) else vanishes
    (f.text.map ch)

/-- What the program reads of the first text. -/
def Entry.adds (f : Entry α) : Simple := { args := if f.read then [f.text.map ch] else [] }

theorem append_wanted (s : Simple) (f : Entry α) (fields : List (Entry α)) (rest : List Text) :
    s.append { args := wanted ch (f :: fields) ++ rest } =
      (s.append (f.adds ch)).append { args := wanted ch fields ++ rest } := by
  unfold wanted Entry.adds
  cases hread : f.read <;> simp [hread, Simple.append]

theorem spaced_cons (b : α) (f : Entry α) (fields : List (Entry α)) :
    spaced b (f :: fields) = (f.text ++ [b]) ++ spaced b fields := rfl

/-- The text put first. -/
theorem lands_cons {p : Parser α} {s : Simple} (hp : p.Awaits ch s) {b : α} {f : Entry α}
    {fields : List (Entry α)} {last : List α} :
    Lands ch p s b (f :: fields) last ↔
      Lands ch (p.run ch (f.text ++ [b])) (s.append (f.adds ch)) b fields last := by
  have happend := fun fields => append_wanted ch s f fields []
  simp only [List.append_nil] at happend
  constructor
  · rintro ⟨hbefore, hwhole⟩
    refine ⟨fun done rest h => ?_, ?_⟩
    · have := hbefore (f :: done) rest (by rw [h]; rfl)
      rwa [spaced_cons, run_append, happend] at this
    · rwa [spaced_cons, List.append_assoc, run_append, append_wanted] at hwhole
  · rintro ⟨hbefore, hwhole⟩
    refine ⟨fun done rest h => ?_, ?_⟩
    · cases done with
      | nil => simp [spaced, wanted, Parser.finish, Parse.simple, hp.gap, hp.gathered, Simple.append]
      | cons g done =>
        obtain ⟨rfl, htail⟩ := List.cons.inj h
        rw [spaced_cons, run_append, happend]
        exact hbefore done rest htail
    · rw [spaced_cons, List.append_assoc, run_append, append_wanted]
      exact hwhole

/-- A text that sits where it should leaves the reader ready for the next one. -/
theorem Parser.Awaits.field {p : Parser α} {s : Simple} (hp : p.Awaits ch s) {b : α} (hb : ch b = ' ')
    {f : Entry α} (hf : f.sits ch = true) :
    (p.run ch (f.text ++ [b])).Awaits ch (s.append (f.adds ch)) := by
  unfold Entry.sits at hf
  unfold Entry.adds
  split at hf
  case isTrue hread =>
    rw [if_pos hread]
    exact hp.argument ch hf hb
  case isFalse hread =>
    have hrun : p.run ch (f.text ++ [b]) = p := by
      rw [run_append, run_vanishing ch hp.gap hf]
      exact step_blank ch hp.gap (by rw [hb]; rfl)
    have hsame : s.append { args := [] } = s := by simp [Simple.append]
    rw [if_neg hread, hrun, hsame]
    exact hp

theorem follows_nil : Follows ch ([] : List α) {} where
  calm _ h := absurd h (by simp)
  gathered := rfl
  complete := rfl
  tight := rfl

/-- The first text sits, if the shell gets past it. -/
theorem first_sits {p : Parser α} {s : Simple} (hp : p.Awaits ch s) {b : α} (hb : ch b = ' ')
    {f : Entry α} {fields : List (Entry α)} {last : List α} (h : Lands ch p s b (f :: fields) last) :
    f.sits ch = true := by
  have hfirst := h.before [f] fields rfl
  unfold Entry.sits
  split
  case isTrue hread =>
    refine (argument_iff ch hp hb (follows_nil ch) f.text).mp ?_
    simpa [spaced, wanted, hread, Simple.append] using hfirst
  case isFalse hread =>
    have hsame : ((p.run ch (f.text ++ [b])).finish ch).simple ch = some s := by
      simpa [spaced, wanted, hread, Simple.append] using hfirst
    rcases unread_cases ch hp hb hsame with hblank | hcomment
    · exact hblank
    · -- the comment swallows the last text
      have hwhole := h.whole
      rw [spaced_cons, List.append_assoc, run_append, hcomment] at hwhole
      have := congrArg (fun s : Simple => s.args.length) (commented_same ch hp.gathered hwhole)
      simp [Simple.append] at this

/-- **The texts land where they should exactly if each of them that is read is literal and each
that is not is blank.** -/
theorem lands_iff {p : Parser α} {s : Simple} (hp : p.Awaits ch s) {b : α} (hb : ch b = ' ')
    (fields : List (Entry α)) (last : List α) :
    Lands ch p s b fields last ↔
      (∀ f ∈ fields, f.sits ch = true) ∧ isLastLiteral (last.map ch) = true := by
  induction fields generalizing p s with
  | nil =>
    have hlast := last_argument_iff ch hp last
    constructor
    · exact fun h => ⟨fun f hf => absurd hf (by simp), hlast.mp h.whole⟩
    · rintro ⟨-, h⟩
      refine ⟨fun done rest hnil => ?_, hlast.mpr h⟩
      obtain ⟨rfl, -⟩ := List.append_eq_nil_iff.mp hnil.symm
      simp [spaced, wanted, Parser.finish, Parse.simple, hp.gap, hp.gathered, Simple.append]
  | cons f fields ih =>
    rw [List.forall_mem_cons]
    constructor
    · intro h
      have hf := first_sits ch hp hb h
      obtain ⟨hrest, hlast⟩ := (ih (hp.field ch hb hf)).mp ((lands_cons ch hp).mp h)
      exact ⟨⟨hf, hrest⟩, hlast⟩
    · rintro ⟨⟨hf, hrest⟩, hlast⟩
      exact (lands_cons ch hp).mpr ((ih (hp.field ch hb hf)).mpr ⟨hrest, hlast⟩)

end Landing
end Tcos.Shell
