import Tcos.Shell.Foreign

/-! When the foreign bytes of a line are inert.

`inert_iff`: the foreign text of a line, with the blanks and quotes its author puts
among it, is inert exactly when it scans from where it stands. Inside double quotes
the bytes that mean nothing there are inert wherever they stand (`run_dull`). -/
namespace Tcos.Shell

section Inert
variable {α : Type} (ch : α → Char) (foreign : α → Bool)

/-! ### The text that follows -/

/-- Text of the line's author that ends whatever foreign text stands before it. -/
structure Closing (s : List α) : Prop where
  own : ∀ b ∈ s, foreign b = false ∧ ch b ≠ '\n'
  opening : ∀ b, s.head? = some b → ch b ∈ [' ', '|', '\x27', '\x22']

/-- Foreign bytes stand in arguments only, also if a redirection follows the word. -/
def Word.Placed (p : Parser α) (w : Word α) : Prop :=
  (w.all fun x => !foreign x.1) = true ∨
    (p.named = true ∧ p.target = false ∧ (w.any fun x => x.2 != .text) = true)

/-- Nothing foreign has acted, and the foreign text is over. -/
structure Parser.Settled (p : Parser α) : Prop where
  items : p.items.all (Item.inert ch foreign) = true
  operator : ∀ op, p.reading = .operator op → (op.all fun b => !foreign b) = true
  word : ∀ q w, p.reading = .word q w →
    w.opens ch foreign = false ∧ w.pending foreign = false ∧ w.Placed foreign p

theorem not_digits {w : Word α} (h : (w.any fun x => x.2 != .text) = true) :
    w.digits ch = false := by
  simp only [List.any_eq_true, bne_iff_ne] at h
  obtain ⟨x, hx, hm⟩ := h
  simp only [Word.digits, Bool.and_eq_false_iff, List.all_eq_false]
  exact .inr ⟨x, hx, by simp [hm]⟩

theorem inert_of_own {w : Word α} (h : (w.all fun x => !foreign x.1) = true)
    (ho : w.opens ch foreign = false) (s : Slot) : (Item.word s w).inert ch foreign = true := by
  cases s <;> first | exact h | simp [Item.inert, ho]

theorem placed_inert {p : Parser α} {w : Word α} (hw : w.Placed foreign p)
    (ho : w.opens ch foreign = false) (g : Bool) :
    (Item.word (p.slot ch g w) w).inert ch foreign = true := by
  rcases hw with h | ⟨hn, ht, hm⟩
  · exact inert_of_own ch foreign h ho _
  · exact closeWord_inert ch foreign hn ht ho fun _ hd => by
      rw [not_digits ch hm] at hd
      exact absurd hd (by simp)

/-- A byte of the author's between tokens. -/
theorem start_settled {p : Parser α} (hp : p.items.all (Item.inert ch foreign) = true) {b : α}
    (hb : foreign b = false) : (p.start ch b).Settled ch foreign := by
  refine ⟨by rw [start_items, hp], fun op h => ?_, fun q w h => ?_⟩
  · have hop : op = [b] := by
      unfold Parser.start at h
      split_ifs at h
      · simpa using h.symm
      · unfold readBare at h
        split at h <;> exact absurd h (by simp)
    simp [hop, hb]
  · have hw : ∃ m, w = [(b, m)] := by
      unfold Parser.start at h
      split_ifs at h
      unfold readBare at h
      split at h <;> exact ⟨_, by simpa using (Reading.word.inj h).2.symm⟩
    obtain ⟨m, rfl⟩ := hw
    exact ⟨by simp [Word.opens, hb], by simp [Word.pending, hb], .inl (by simp [hb])⟩

/-- A word that goes on with a byte of the author's. -/
theorem grow_settled {p : Parser α} (hp : p.items.all (Item.inert ch foreign) = true) {w : Word α}
    {b : α} (hb : foreign b = false) (hw : w.opens ch foreign = false)
    (hx : (w.pending foreign && isExpansionStart (ch b)) = false) {q : Quoting} {m : Mark}
    (hpl : w.Placed foreign p ∨ (p.named = true ∧ p.target = false ∧ m ≠ .text)) :
    Parser.Settled ch foreign { p with reading := .word q (w ++ [(b, m)]) } := by
  refine ⟨hp, by simp, fun q' w' h => ?_⟩
  simp only [Reading.word.injEq] at h
  obtain ⟨rfl, rfl⟩ := h
  refine ⟨by rw [opens_append, hw, hx, hb]; rfl, by simp [hb], ?_⟩
  rcases hpl with (h | ⟨hn, ht, hm⟩) | ⟨hn, ht, hm⟩
  · exact .inl (by rw [List.all_append, h]; simp [hb])
  · exact .inr ⟨hn, ht, by rw [List.any_append, hm]; rfl⟩
  · exact .inr ⟨hn, ht, by simp [hm]⟩

theorem settled_readBare {p : Parser α} (hp : p.items.all (Item.inert ch foreign) = true) {w : Word α}
    {b : α} (hb : foreign b = false) (hw : w.opens ch foreign = false)
    (hx : (w.pending foreign && isExpansionStart (ch b)) = false) (hpl : w.Placed foreign p) :
    Parser.Settled ch foreign { p with reading := readBare ch w b } := by
  unfold readBare
  split <;> exact grow_settled ch foreign hp hb hw hx (.inl hpl)

theorem settled_readDouble {p : Parser α} (hp : p.items.all (Item.inert ch foreign) = true)
    {w : Word α} {b : α} (hb : foreign b = false) (hw : w.opens ch foreign = false)
    (hx : (w.pending foreign && isExpansionStart (ch b)) = false)
    (hpl : w.Placed foreign p ∨ (p.named = true ∧ p.target = false)) :
    Parser.Settled ch foreign { p with reading := readDouble ch w b } := by
  have h : ∀ {m : Mark}, m ≠ .text →
      w.Placed foreign p ∨ (p.named = true ∧ p.target = false ∧ m ≠ .text) := fun hm =>
    hpl.imp_right fun ⟨hn, ht⟩ => ⟨hn, ht, hm⟩
  unfold readDouble
  split <;> exact grow_settled ch foreign hp hb hw hx (h (by decide))

theorem settled_closeWord {p : Parser α} (hp : p.items.all (Item.inert ch foreign) = true)
    {w : Word α} {g : Bool} (hw : (Item.word (p.slot ch g w) w).inert ch foreign = true) :
    (p.closeWord ch g w).items.all (Item.inert ch foreign) = true := by
  simp only [Parser.closeWord, List.all_append, hp, List.all_cons, hw, List.all_nil]
  rfl

theorem settled_closeOperator {p : Parser α} (hp : p.items.all (Item.inert ch foreign) = true)
    {op : List α} (hop : (op.all fun b => !foreign b) = true) :
    (p.closeOperator ch op).items.all (Item.inert ch foreign) = true := by
  unfold Parser.closeOperator
  split <;> simp only [List.all_append, hp, List.all_cons, Item.inert, hop, List.all_nil] <;> rfl

theorem step_settled {p : Parser α} (hp : p.Settled ch foreign) {b : α} (hb : foreign b = false)
    (hn : ch b ≠ '\n') : (p.step ch b).Settled ch foreign := by
  cases hr : p.reading with
  | gap =>
    rw [Parser.step, hr]
    exact start_settled ch foreign hp.items hb
  | comment =>
    simp only [Parser.step, hr, beq_iff_eq, if_neg hn]
    exact hp
  | operator op =>
    have hop := hp.operator op hr
    simp only [Parser.step, hr]
    split
    · refine ⟨hp.items, fun op' h => ?_, by simp⟩
      obtain rfl := Reading.operator.inj h
      simp only [List.all_append, hop, List.all_cons, hb, List.all_nil]
      rfl
    · exact start_settled ch foreign (settled_closeOperator ch foreign hp.items hop) hb
  | word q w =>
    obtain ⟨hw, hpend, hpl⟩ := hp.word q w hr
    have hx : (w.pending foreign && isExpansionStart (ch b)) = false := by simp [hpend]
    cases q <;> simp only [Parser.step, hr, beq_iff_eq, if_neg hn]
    · split
      · exact start_settled ch foreign
          (settled_closeWord ch foreign hp.items (placed_inert ch foreign hpl hw _)) hb
      · exact settled_readBare ch foreign hp.items hb hw hx hpl
    · split <;> exact grow_settled ch foreign hp.items hb hw hx (.inl hpl)
    · exact settled_readDouble ch foreign hp.items hb hw hx (.inl hpl)
    · exact grow_settled ch foreign hp.items hb hw hx (.inl hpl)
    · exact grow_settled ch foreign hp.items hb hw hx (.inl hpl)

/-- The first byte after the foreign text ends it. -/
theorem Parser.Quiet.settle {p : Parser α} (hp : p.Quiet ch foreign) {b : α} (hb : foreign b = false)
    (hc : ch b ∈ [' ', '|', '\x27', '\x22']) : (p.step ch b).Settled ch foreign := by
  have hn : ch b ≠ '\n' := by rintro h; rw [h] at hc; exact absurd hc (by decide)
  have hstart : isExpansionStart (ch b) = false := by
    revert hc
    generalize ch b = c
    simp only [List.mem_cons, List.not_mem_nil, or_false]
    rintro (rfl | rfl | rfl | rfl) <;> decide
  have hx : ∀ w : Word α, (w.pending foreign && isExpansionStart (ch b)) = false := by simp [hstart]
  cases hr : p.reading with
  | gap =>
    rw [Parser.step, hr]
    exact start_settled ch foreign hp.items hb
  | comment =>
    simp only [Parser.step, hr, beq_iff_eq, if_neg hn]
    exact ⟨hp.items, by simp [hr], by simp [hr]⟩
  | operator op => exact absurd hr (hp.operator op)
  | word q w =>
    have hw := (hp.word q w hr).opens
    have harg : ∀ {m : Mark}, m ≠ .text →
        w.Placed foreign p ∨ (p.named = true ∧ p.target = false ∧ m ≠ .text) := fun hm =>
      .inr ⟨hp.named, hp.target, hm⟩
    cases q <;> simp only [Parser.step, hr, beq_iff_eq, if_neg hn]
    · split
      · have hnr : isRedirect (ch b) = false := by
          revert hc
          generalize ch b = c
          simp only [List.mem_cons, List.not_mem_nil, or_false]
          rintro (rfl | rfl | rfl | rfl) <;> decide
        rw [hnr]
        exact start_settled ch foreign (settled_closeWord ch foreign hp.items
          (closeWord_inert ch foreign hp.named hp.target hw (by simp))) hb
      case isFalse hbr =>
        have hq : ch b = '\x27' ∨ ch b = '\x22' := by
          simp only [List.mem_cons, List.not_mem_nil, or_false] at hc
          rcases hc with h | h | h
          · exact absurd (by simp [breaks, h, isBlank]) hbr
          · exact absurd (by simp [breaks, h, isBlank, isOperator]) hbr
          · exact h
        unfold readBare
        rcases hq with h | h <;> rw [h] <;>
          exact grow_settled ch foreign hp.items hb hw (hx w) (harg (by decide))
    · split <;> exact grow_settled ch foreign hp.items hb hw (hx w) (harg (by decide))
    · exact settled_readDouble ch foreign hp.items hb hw (hx w) (.inr ⟨hp.named, hp.target⟩)
    · exact grow_settled ch foreign hp.items hb hw (hx w) (harg (by decide))
    · exact grow_settled ch foreign hp.items hb hw (hx w) (harg (by decide))

theorem run_settled {p : Parser α} (hp : p.Settled ch foreign) {s : List α}
    (hs : ∀ b ∈ s, foreign b = false ∧ ch b ≠ '\n') : (p.run ch s).Settled ch foreign := by
  induction s generalizing p with
  | nil => exact hp
  | cons b s ih =>
    obtain ⟨hb, hn⟩ := hs b (List.mem_cons_self ..)
    exact ih (step_settled ch foreign hp hb hn) fun c hc => hs c (List.mem_cons_of_mem b hc)

/-- The word an open backslash at the end of the line leaves. -/
theorem opens_last {w : Word α} (h : w.opens ch foreign = false) :
    Word.opens ch foreign (w.dropLast ++ (w.getLast?.map fun x => (x.1, Mark.quoted)).toList) =
      false := by
  rcases List.eq_nil_or_concat w with rfl | ⟨v, x, rfl⟩
  · rfl
  · simp only [List.concat_eq_append] at h ⊢
    rw [opens_append] at h
    simp only [Bool.or_eq_false_iff] at h
    simp [opens_append, h.1.1, h.1.2]

theorem finish_settled {p : Parser α} (hp : p.Settled ch foreign) :
    (p.finish ch).inert ch foreign = true := by
  unfold Parse.inert Parser.finish
  split
  case h_1 | h_2 => exact hp.items
  case h_3 op hr => exact settled_closeOperator ch foreign hp.items (hp.operator op hr)
  case h_4 w hr =>
    obtain ⟨hw, _, hpl⟩ := hp.word _ w hr
    exact settled_closeWord ch foreign hp.items (placed_inert ch foreign hpl hw false)
  case h_6 q w _ _ hr =>
    obtain ⟨hw, _, hpl⟩ := hp.word _ w hr
    exact settled_closeWord ch foreign hp.items (placed_inert ch foreign hpl hw false)
  case h_5 w hr =>
    obtain ⟨hw, _, hpl⟩ := hp.word _ w hr
    refine settled_closeWord ch foreign hp.items ?_
    rcases hpl with h | ⟨hn, ht, _⟩
    · refine inert_of_own ch foreign ?_ (opens_last ch foreign hw) _
      rw [List.all_eq_true] at h ⊢
      intro x hx
      rcases List.mem_append.mp hx with hx | hx
      · exact h x (List.dropLast_subset w hx)
      · obtain ⟨y, hy, rfl⟩ : ∃ y, w.getLast? = some y ∧ (y.1, Mark.quoted) = x := by
          simpa using hx
        exact h y (List.mem_of_getLast? hy)
    · exact closeWord_inert ch foreign hn ht (opens_last ch foreign hw) (by simp)

theorem finish_quiet {p : Parser α} (hp : p.Quiet ch foreign) :
    (p.finish ch).inert ch foreign = true := by
  unfold Parse.inert Parser.finish
  split
  case h_1 | h_2 => exact hp.items
  case h_3 op hr => exact absurd hr (hp.operator op)
  case h_4 w hr =>
    exact settled_closeWord ch foreign hp.items
      (closeWord_inert ch foreign hp.named hp.target (hp.word _ w hr).opens (by simp))
  case h_6 q w _ _ hr =>
    exact settled_closeWord ch foreign hp.items
      (closeWord_inert ch foreign hp.named hp.target (hp.word _ w hr).opens (by simp))
  case h_5 w hr =>
    exact settled_closeWord ch foreign hp.items
      (closeWord_inert ch foreign hp.named hp.target
        (opens_last ch foreign (hp.word _ w hr).opens) (by simp))

/-- **The foreign text of a line is inert exactly when it scans.** -/
theorem inert_iff {p : Parser α} (hp : p.Quiet ch foreign) {t s : List α}
    (ht : ∀ b ∈ t, Filling ch foreign b) (hs : Closing ch foreign s) :
    ((p.run ch (t ++ s)).finish ch).inert ch foreign = true ↔
      (scan p.reading.mode (t.map ch)).isSome = true := by
  have h := run_agrees ch foreign hp ht
  rw [run_append]
  cases hm : scan p.reading.mode (t.map ch) with
  | none =>
    rw [hm] at h
    simp [doomed_finish ch foreign (doomed_run ch foreign h s)]
  | some m =>
    rw [hm] at h
    simp only [Option.isSome_some, iff_true]
    cases s with
    | nil => exact finish_quiet ch foreign h.1
    | cons b s =>
      obtain ⟨hb, _⟩ := hs.own b (List.mem_cons_self ..)
      exact finish_settled ch foreign (run_settled ch foreign
        (h.1.settle ch foreign hb (hs.opening b rfl)) fun c hc => hs.own c (List.mem_cons_of_mem b hc))

/-! ### Inside double quotes -/

/-- Nothing in double quotes. -/
def isDull (c : Char) : Bool := c != '\x22' && c != '\\' && c != '$' && c != '\x60'

/-- In the double quotes of an argument. -/
structure Parser.InQuotes (p : Parser α) (w : Word α) : Prop where
  reading : p.reading = .word .double w
  named : p.named = true
  target : p.target = false

theorem step_dull {p : Parser α} {w : Word α} (hp : p.InQuotes w) {b : α} (hb : isDull (ch b) = true) :
    (p.step ch b) = { p with reading := .word .double (w ++ [(b, .quoted)]) } := by
  simp only [isDull, Bool.and_eq_true, bne_iff_ne] at hb
  obtain ⟨⟨⟨h1, h2⟩, h3⟩, h4⟩ := hb
  simp only [Parser.step, hp.reading, readDouble]

/-- Dull bytes in the double quotes of an argument are part of it. -/
theorem run_dull {p : Parser α} {w : Word α} (hp : p.InQuotes w) (hs : p.Settled ch foreign)
    (t : List α) (ht : ∀ b ∈ t, isDull (ch b) = true) :
    ∃ v, (p.run ch t).InQuotes v ∧ (p.run ch t).Settled ch foreign := by
  induction t generalizing p w with
  | nil => exact ⟨w, hp, hs⟩
  | cons b t ih =>
    have hstep := step_dull ch hp (ht b (List.mem_cons_self ..))
    obtain ⟨hw, hpend, _⟩ := hs.word _ w hp.reading
    refine ih (p := p.step ch b) (w := w ++ [(b, .quoted)]) ?_ ?_
      fun c hc => ht c (List.mem_cons_of_mem b hc)
    · rw [hstep]
      exact ⟨rfl, hp.named, hp.target⟩
    · rw [hstep]
      refine ⟨hs.items, by simp, fun q v h => ?_⟩
      obtain ⟨_, rfl⟩ := Reading.word.inj h
      refine ⟨?_, by simp, .inr ⟨hp.named, hp.target, by simp⟩⟩
      rw [opens_append, hw, hpend]
      simp

end Inert
end Tcos.Shell
