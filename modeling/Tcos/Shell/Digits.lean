import Tcos.Shell.Landing

/-! Digits outlive quote removal.

No digit quotes anything, so an argument that was read from a text without blanks has the digits of
the text (`argument_digits`). A text with more digits than a name is not read as that name. -/
namespace Tcos.Shell

section Digits
variable {α : Type} (ch : α → Char)

/-- A quoting byte is no digit. -/
def Word.Steady (w : Word α) : Prop := ∀ x ∈ w, x.2 = .quote ∨ x.2 = .slash → (ch x.1).isDigit = false

/-- The digits among the bytes of a word. -/
def Word.digitCount (w : Word α) : Nat := w.countP fun x => (ch x.1).isDigit

theorem value_digits (w : Word α) (h : Word.Steady ch w) :
    ((w.value ch).map ch).countP Char.isDigit = Word.digitCount ch w := by
  induction w using Word.value.induct ch with
  | case1 => rfl
  | case2 b =>
    have hb := h _ (List.mem_singleton_self _) (.inl rfl)
    simp [Word.value, Word.digitCount, hb]
  | case3 b m hm => simp [Word.value, Word.digitCount, hm, List.countP_cons]
  | case4 b c n rest ih =>
    have hb := h _ (List.mem_cons_self ..) (.inl rfl)
    have hrest := ih fun x hx => h x (List.mem_cons_of_mem _ hx)
    simpa [Word.value, Word.digitCount, List.countP_cons, hb] using hrest
  | case5 b c n rest hesc _ ih =>
    have hb := h _ (List.mem_cons_self ..) (.inr rfl)
    have hrest := ih fun x hx => h x (List.mem_cons_of_mem _ (List.mem_cons_of_mem _ hx))
    rw [Word.value, if_neg (by simp), if_pos rfl, if_pos hesc]
    simp only [Word.digitCount, List.map_cons, List.countP_cons, hb] at hrest ⊢
    simpa using hrest
  | case6 b c n rest hesc _ ih =>
    have hrest := ih fun x hx => h x (List.mem_cons_of_mem _ hx)
    rw [Word.value, if_neg (by simp), if_pos rfl, if_neg hesc]
    simp only [Word.digitCount, List.map_cons, List.countP_cons] at hrest ⊢
    omega
  | case7 b m c n rest hq hs ih =>
    have hrest := ih fun x hx => h x (List.mem_cons_of_mem _ hx)
    simp only [Word.value, if_neg hq, if_neg hs, Word.digitCount, List.map_cons,
      List.countP_cons] at hrest ⊢
    omega

def Item.isWord : Item α → Bool
  | .word _ _ => true
  | _ => false

/-- A command without redirections was read from words. -/
theorem gather_words {xs : List (Item α)} {s : Simple} (h : gather ch xs = some s)
    (hs : s.redirects = []) : xs.all Item.isWord = true := by
  induction xs using gather.induct generalizing s with
  | case1 => rfl
  | case2 w rest ih | case3 w rest ih | case4 w rest ih =>
    simp only [gather, Option.bind_eq_some_iff, Option.map_eq_some_iff] at h
    obtain ⟨v, -, r, hr, rfl⟩ := h
    simpa [Item.isWord] using ih hr (by simpa [Simple.append] using hs)
  | case5 n op w rest ih | case6 op w rest ih =>
    simp only [gather, Option.bind_eq_some_iff, Option.map_eq_some_iff] at h
    simp only [Simple.append] at h
    grind
  | case7 xs h1 h2 h3 h4 h5 h6 => rw [gather] at h <;> simp_all

/-- An operator that is being read becomes an item. -/
theorem operator_item {p : Parser α} {op : List α} (hp : p.reading = .operator op) (s : List α) :
    ((p.run ch s).finish ch).items.all Item.isWord = false := by
  have hclose : ∀ (q : Parser α) (op : List α), (q.closeOperator ch op).items.all Item.isWord =
    false := by
    intro q op
    unfold Parser.closeOperator
    split <;> simp [Item.isWord]
  have hmore : ∀ (xs ys : List (Item α)), xs.all Item.isWord = false →
    (xs ++ ys).all Item.isWord = false := by
    intro xs ys h
    rw [List.all_append, h, Bool.false_and]
  induction s generalizing p op with
  | nil => simpa [Parser.finish, hp] using hclose p op
  | cons b s ih =>
    rw [run_cons, Parser.step, hp]
    dsimp only
    split
    case isTrue => exact ih rfl
    case isFalse =>
      obtain ⟨xs, hxs⟩ := run_items ch ((p.closeOperator ch op).start ch b) s
      obtain ⟨ys, hys⟩ := finish_items ch (((p.closeOperator ch op).start ch b).run ch s)
      rw [hys, hxs, start_items]
      exact hmore _ _ (hmore _ _ (hclose p op))

/-- One more byte of a word, without a blank. -/
theorem step_word {p : Parser α} {q : Quoting} {w : Word α} (hp : p.reading = .word q w) {b : α}
    (hblank : isBlank (ch b) = false) (hbreak : ch b ≠ '\n') :
    (∃ q' m, p.step ch b = { p with reading := .word q' (w ++ [(b, m)]) } ∧
      (m = .quote ∨ m = .slash → (ch b).isDigit = false)) ∨
    ∃ op, (p.step ch b).reading = .operator op := by
  have hquote : ∀ c : Char, c.isDigit = false → ch b = c → (ch b).isDigit = false := by
    rintro c hc rfl
    exact hc
  have hbare : ∃ q' m, readBare ch w b = .word q' (w ++ [(b, m)]) ∧
      (m = .quote ∨ m = .slash → (ch b).isDigit = false) := by
    unfold readBare
    split
    case h_1 h | h_2 h | h_3 h => exact ⟨_, _, rfl, fun _ => hquote _ (by decide) h⟩
    all_goals exact ⟨_, _, rfl, by simp⟩
  have hdouble : ∃ q' m, readDouble ch w b = .word q' (w ++ [(b, m)]) ∧
      (m = .quote ∨ m = .slash → (ch b).isDigit = false) := by
    unfold readDouble
    split
    case h_1 h | h_2 h => exact ⟨_, _, rfl, fun _ => hquote _ (by decide) h⟩
    all_goals exact ⟨_, _, rfl, by simp⟩
  cases q with
  | bare =>
    simp only [Parser.step, hp]
    split
    case isTrue hbr =>
      have hop : isOperator (ch b) = true := by
        simp only [breaks, hblank, Bool.false_or, Bool.and_eq_true] at hbr
        exact hbr.1
      exact .inr ⟨[b], by simp [Parser.start, hblank, hop]⟩
    case isFalse =>
      obtain ⟨q', m, hread, hm⟩ := hbare
      exact .inl ⟨q', m, by rw [hread], hm⟩
  | double =>
    obtain ⟨q', m, hread, hm⟩ := hdouble
    exact .inl ⟨q', m, by simp only [Parser.step, hp, hread], hm⟩
  | single =>
    simp only [Parser.step, hp]
    split
    case isTrue h => exact .inl ⟨_, _, rfl, fun _ => hquote '\x27' (by decide) (by simpa using h)⟩
    case isFalse => exact .inl ⟨_, _, rfl, by simp⟩
  | escaped => exact .inl ⟨.bare, .quoted, by simp [Parser.step, hp, hbreak], by simp⟩
  | escapedDouble => exact .inl ⟨.double, .quoted, by simp [Parser.step, hp, hbreak], by simp⟩

/-- A text without blanks is read into the word, or an operator is read. -/
theorem run_word {p : Parser α} {q : Quoting} {w : Word α} (hp : p.reading = .word q w) {t : List α}
    (ht : ∀ b ∈ t, isBlank (ch b) = false ∧ ch b ≠ '\n') :
    (∃ q' v, p.run ch t = { p with reading := .word q' (w ++ v) } ∧ v.map Prod.fst = t ∧
      Word.Steady ch v) ∨ ((p.run ch t).finish ch).items.all Item.isWord = false := by
  induction t generalizing p q w with
  | nil =>
    refine .inl ⟨q, [], ?_, rfl, by simp [Word.Steady]⟩
    cases p
    simp_all
  | cons b t ih =>
    rw [List.forall_mem_cons] at ht
    rcases step_word ch hp ht.1.1 ht.1.2 with ⟨q', m, hstep, hm⟩ | ⟨op, hop⟩
    · rw [run_cons, hstep]
      rcases ih (p := { p with reading := .word q' (w ++ [(b, m)]) }) rfl ht.2 with
        ⟨q'', v, hrun, hv, hsteady⟩ | hop
      · refine .inl ⟨q'', (b, m) :: v, by rw [hrun]; simp, by simp [hv], ?_⟩
        exact List.forall_mem_cons.mpr ⟨hm, hsteady⟩
      · exact .inr hop
    · exact .inr (operator_item ch hop t)

/-- The word that ends with the line. -/
theorem finish_word {p : Parser α} {s : Simple} (hp : p.Awaits ch s) {q : Quoting} {w : Word α}
    (hw : Word.Steady ch w) {v : Text}
    (h : (({ p with reading := .word q w } : Parser α).finish ch).simple ch =
    some (s.append { args := [v] })) : v.countP Char.isDigit = Word.digitCount ch w := by
  have hend : ∀ u : Word α, Word.Steady ch u →
      (gather ch (p.items ++ [.word (p.slot ch false u) u]) = some (s.append { args := [v] })) →
      v.countP Char.isDigit = Word.digitCount ch u := by
    intro u hu hgather
    have hslot : p.slot ch false u = .argument := by simp [Parser.slot, hp.target, hp.named]
    rw [hslot, gather_argument ch hp.gathered] at hgather
    obtain ⟨v', hfixed, hsame⟩ := Option.bind_eq_some_iff.mp hgather
    obtain rfl : v' = v := by simpa [gather, Simple.append] using hsame
    unfold Word.fixed at hfixed
    split at hfixed
    case isTrue => exact absurd hfixed (by simp)
    case isFalse => rw [← Option.some.inj hfixed, value_digits ch u hu]
  unfold Parse.simple at h
  split at h
  case isFalse => exact absurd h (by simp)
  case isTrue hcomplete =>
    cases q with
    | bare => exact hend w hw h
    | escaped =>
      -- the last backslash is itself, and no digit
      rcases List.eq_nil_or_concat w with rfl | ⟨u, x, rfl⟩
      · exact hend [] (by simp [Word.Steady]) h
      · have hlast : (({ p with reading := .word .escaped (u.concat x) } : Parser α).finish ch).items =
            p.items ++ [.word (p.slot ch false (u ++ [(x.1, .quoted)])) (u ++ [(x.1, .quoted)])] := by
          simp [Parser.finish, Parser.closeWord, Parser.slot]
        have hsame := hend (u ++ [(x.1, .quoted)]) (by
          intro y hy
          rcases List.mem_append.mp hy with hy | hy
          · exact hw y (by simp [hy])
          · rw [List.mem_singleton.mp hy]
            simp) (by rw [← hlast]; exact h)
        simpa [Word.digitCount] using hsame
    | single | double | escapedDouble => simp [Parser.finish] at hcomplete

/-- **An argument has the digits of the text it was read from.** -/
theorem argument_digits {p : Parser α} {s : Simple} (hp : p.Awaits ch s) {b : α}
    (hb : isSolid (ch b) = true) (hhash : ch b ≠ '#') {t : List α}
    (ht : ∀ c ∈ t, isBlank (ch c) = false ∧ ch c ≠ '\n') {v : Text}
    (hs : s.redirects = []) (h :
    ((p.run ch (b :: t)).finish ch).simple ch = some (s.append { args := [v] })) :
    v.countP Char.isDigit = ((b :: t).map ch).countP Char.isDigit := by
  have hstep : p.step ch b = { p with reading := .word .bare [(b, markOf (ch b))] } := by
    simp only [isSolid, Bool.and_eq_true, Bool.not_eq_true'] at hb
    rcases readBare_bytes ch [] b with ⟨_, he, _⟩ | ⟨hq, _⟩
    · simp [Parser.step, hp.gap, Parser.start, hb.1.1, hb.1.2, hhash, he]
    · rw [hb.2] at hq
      exact absurd hq (by simp)
  have hmark : markOf (ch b) = .quote ∨ markOf (ch b) = .slash → (ch b).isDigit = false := fun hm =>
    (hm.elim (markOf_ne (ch b)).1 (markOf_ne (ch b)).2.1).elim
  rw [run_cons, hstep] at h
  rcases run_word ch (p := { p with reading := .word .bare [(b, markOf (ch b))] }) rfl ht with
    ⟨q, v', hrun, hv, hsteady⟩ | hop
  · rw [hrun] at h
    have hword := finish_word ch hp (List.forall_mem_cons.mpr ⟨hmark, hsteady⟩) h
    rw [hword, ← hv]
    simp [Word.digitCount, List.countP_map, List.countP_cons, Function.comp_def]
  · unfold Parse.simple at h
    split at h
    case isFalse => exact absurd h (by simp)
    case isTrue =>
      rw [gather_words ch h (by simp [Simple.append, hs])] at hop
      exact absurd hop (by simp)

end Digits
end Tcos.Shell
