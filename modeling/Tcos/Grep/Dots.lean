import Tcos.Grep.Regex
import Tcos.Shell.Commands

/-! Patterns whose only special bytes are dots, and `s|pattern||g` of sed.

Such a pattern matches wherever the text `fits` it, byte by byte (`selects_dotted`), and sed
strikes these places out, from the left (`delete_dotted`). With an anchor it strikes out one
place at most, and that is shorter than the pattern (`delete_anchored`). -/
namespace Tcos.Grep
open Shell (Text lit lines unlines)

/-! ### Deletion -/

/-- How much of the line the longest match takes. -/
def Regex.longest (r : Regex) (h : Here) : Nat :=
  ((r.ends h).map fun h' => h.rest.length - h'.rest.length).foldr max 0

/-- What is left of a line when the matches are struck out, from the left; `skip` bytes belong
to the last match. -/
def Regex.delete (r : Regex) : Option Char → Nat → Text → Text
  | _, _, [] => []
  | _, skip + 1, c :: s => r.delete (some c) skip s
  | before, 0, c :: s =>
    match r.longest ⟨before, c :: s, []⟩ with
    | 0 => c :: r.delete (some c) 0 s
    | n + 1 => r.delete (some c) n s

/-- `s|pattern||g` on every line of a file; `none` if it is no pattern. -/
def deleteAll (pattern file : Text) : Option Text :=
  (parse pattern).map fun r => unlines ((lines file).map (r.delete none 0))

/-! ### Dots -/

/-- Bytes that are not special, unless at an end of the pattern. -/
def isSimple (c : Char) : Bool := c != '\\' && c != '[' && c != '*' && c != '\n'

/-- The bytes that a byte of a pattern matches. -/
def atom (c : Char) : Char → Bool := if c = '.' then fun _ => true else (· == c)

/-- The text begins with what the pattern matches. -/
def fits : Text → Text → Bool
  | [], _ => true
  | _ :: _, [] => false
  | c :: t, d :: s => atom c d && fits t s

/-- These bytes, one after the other, and then `r`. -/
def sequence (t : Text) (r : Regex) : Regex := t.foldr (fun c r => .cat (.one (atom c)) r) r

theorem fits_self (t s : Text) : fits t (t ++ s) = true := by
  induction t with
  | nil => rfl
  | cons c t ih =>
    rw [List.cons_append, fits, ih, Bool.and_true, atom]
    split <;> simp

theorem fits_length {t s : Text} (h : fits t s = true) : t.length ≤ s.length := by
  induction t generalizing s with
  | nil => simp
  | cons c t ih =>
    cases s with
    | nil => simp [fits] at h
    | cons d s =>
      rw [fits, Bool.and_eq_true] at h
      simpa using ih h.2

/-! ### What such a pattern is read as -/

/-- The anchor at the end of a pattern. -/
def ending (stop : Bool) : Text := if stop then ['$'] else []

/-- The token of a simple byte. -/
theorem lex_byte {c : Char} (hc : isSimple c = true) {s : Text} (hs : ∀ d ∈ s, d ≠ '\\')
    (hstop : c = '$' → s ≠ []) (fuel : Nat) (spot : Spot) (hspot : spot = .opens → c ≠ '^') :
    lex (fuel + 1) spot (c :: s) = (lex fuel .inside s).map (.one (atom c) :: ·) := by
  simp only [isSimple, Bool.and_eq_true, bne_iff_ne] at hc
  obtain ⟨⟨⟨hslash, hbracket⟩, hstar⟩, -⟩ := hc
  have hescape : ∀ u : Text, '\\' ∈ u → ¬ u <+: s := fun u hu hpre => hs '\\' (hpre.subset hu) rfl
  by_cases hcaret : c = '^'
  · subst hcaret
    have hlater : spot ≠ .opens := by simpa using hspot
    conv_lhs => unfold lex
    simp [hlater, atom]
  · by_cases hdollar : c = '$'
    · subst hdollar
      rw [lex, if_neg]
      · rfl
      · rintro (h | h | h)
        · exact hstop rfl h
        · exact hescape _ (by with_unfolding_all decide) h
        · exact hescape _ (by with_unfolding_all decide) h
    · conv_lhs => unfold lex
      split <;> simp_all [atom]

/-- The tokens of simple bytes, up to an anchor at the end. -/
theorem lex_simple {t : Text} (ht : ∀ c ∈ t, isSimple c = true) (stop : Bool)
    (hstop : stop = false → t.getLast? ≠ some '$') (fuel : Nat)
    (hfuel : (t ++ ending stop).length < fuel) (spot : Spot)
    (hspot : spot = .opens → t.head? ≠ some '^') : lex fuel spot (t ++ ending stop) =
      some ((t.map atom).map Token.one ++ if stop then [Token.stop] else []) := by
  induction t generalizing fuel spot with
  | nil =>
    cases stop with
    | false =>
      obtain ⟨fuel, rfl⟩ : ∃ k, fuel = k + 1 := ⟨fuel - 1, by simp at hfuel; omega⟩
      rfl
    | true =>
      obtain ⟨fuel, rfl⟩ : ∃ k, fuel = k + 2 := ⟨fuel - 2, by simp [ending] at hfuel; omega⟩
      rfl
  | cons c t ih =>
    obtain ⟨fuel, rfl⟩ : ∃ k, fuel = k + 1 := ⟨fuel - 1, by simp at hfuel; omega⟩
    rw [List.forall_mem_cons] at ht
    have hrest : ∀ d ∈ t ++ ending stop, d ≠ '\\' := by
      intro d hd
      rcases List.mem_append.mp hd with hd | hd
      · have := ht.2 d hd
        simp_all [isSimple]
      · cases stop <;> simp [ending] at hd
        simp [hd]
    have hlast : c = '$' → t ++ ending stop ≠ [] := by
      rintro rfl hnil
      cases stop <;> simp [ending] at hnil
      exact hstop rfl (by simp [hnil])
    rw [List.cons_append, lex_byte ht.1 hrest hlast _ _ (by simpa using hspot),
      ih ht.2 (fun h => ?_) _ (by simpa using hfuel) _ (by simp)]
    · rfl
    · cases t with
      | nil => simp
      | cons d t => simpa using hstop h

/-- The tokens of a pattern with an anchor before it; another one after that is a byte. -/
theorem lex_start {t : Text} (ht : ∀ c ∈ t, isSimple c = true) (stop : Bool)
    (hstop : stop = false → t.getLast? ≠ some '$') :
    lex (('^' :: (t ++ ending stop)).length + 1) .opens ('^' :: (t ++ ending stop)) =
      some (.start :: ((t.map atom).map Token.one ++ if stop then [Token.stop] else [])) := by
  rw [lex, if_pos rfl]
  dsimp only
  rw [lex_simple ht stop hstop _ (by simp) .begins (by simp)]
  rfl

theorem build_pieces (ps : List (Char → Bool)) (stop : Bool) (f : Frame) (opened : Nat) :
    build opened f [] ((ps.map Token.one) ++ if stop then [Token.stop] else []) =
      some { f with pieces := (if stop then [Regex.stop] else []) ++ (ps.map Regex.one).reverse ++
        f.pieces }.regex := by
  induction ps generalizing f with
  | nil => cases stop <;> rfl
  | cons p ps ih => simp [build, ih, Frame.push]

/-- The bytes of `t` with their anchors. -/
def anchored (start stop : Bool) (t : Text) : Regex :=
  let body := sequence t (if stop then .cat .stop .empty else .empty)
  if start then .cat .start body else body

/-- The anchor at the beginning of a pattern. -/
def opening (start : Bool) : Text := if start then ['^'] else []

theorem branch_pieces (t : Text) (stop : Bool) (rest : List Regex) :
    ((if stop then [Regex.stop] else []) ++ ((t.map atom).map Regex.one).reverse ++ rest).foldl
        (fun r s => .cat s r) .empty =
      rest.foldl (fun r s => .cat s r) (sequence t (if stop then .cat .stop .empty else .empty)) := by
  cases stop <;> simp [sequence, List.foldr_map]

/-- **A pattern of simple bytes is read byte by byte, but for the anchors at its ends.** -/
theorem parse_simple {t : Text} (ht : ∀ c ∈ t, isSimple c = true) (start stop : Bool)
    (hstart : start = false → t.head? ≠ some '^') (hstop : stop = false → t.getLast? ≠ some '$') :
    parse (opening start ++ (t ++ ending stop)) = some (anchored start stop t) := by
  cases start with
  | false =>
    have hlex := lex_simple ht stop hstop ((t ++ ending stop).length + 1) (by omega) .opens fun _ =>
      hstart rfl
    rw [parse, opening, if_neg (by simp), List.nil_append, hlex, Option.bind_some, build_pieces,
      Frame.regex, Frame.branch]
    simp only [List.foldl_nil]
    rw [branch_pieces]
    rfl
  | true =>
    have hlex : lex ((opening true ++ (t ++ ending stop)).length + 1) .opens
      (opening true ++ (t ++ ending stop)) =
        some (.start :: ((t.map atom).map Token.one ++ if stop then [Token.stop] else [])) :=
      lex_start ht stop hstop
    rw [parse, hlex, Option.bind_some, build, build_pieces, Frame.regex, Frame.branch]
    simp only [Frame.push, List.foldl_nil]
    rw [branch_pieces]
    rfl

/-! ### Where it matches -/

/-- The place after as many bytes as the pattern has. -/
def Here.after (h : Here) : Text → Here
  | [] => h
  | _ :: t => (h.skip 1).after t

theorem after_facts (t : Text) (h : Here) : (h.after t).rest = h.rest.drop t.length := by
  induction t generalizing h with
  | nil => rfl
  | cons c t ih => simp [Here.after, ih, Here.skip]

theorem ends_sequence (t : Text) (r : Regex) (h : Here) :
    (sequence t r).ends h = if fits t h.rest then r.ends (h.after t) else [] := by
  induction t generalizing h with
  | nil => simp [sequence, fits, Here.after]
  | cons c t ih =>
    have hcat : (sequence (c :: t) r).ends h = ((Regex.one (atom c)).ends h).flatMap
      (sequence t r).ends := rfl
    rw [hcat, Regex.ends]
    cases hrest : h.rest with
    | nil => simp [fits]
    | cons d s =>
      have hskip : (h.skip 1).rest = s := by simp [Here.skip, hrest]
      by_cases hd : atom c d = true
      · simp [hd, ih, hskip, fits, Here.after]
      · simp [hd, fits]

/-- The places of a line and what is left of it there. -/
theorem any_places (p : Text → Bool) (before : Option Char) (s : Text) :
    ((places before s).any fun h => p h.rest) = s.tails.any p := by
  induction s generalizing before with
  | nil => simp [places]
  | cons c s ih => simp [places, ih]

/-- A pattern of such bytes without an anchor. -/
structure Dotted (t : Text) : Prop where
  simple : ∀ c ∈ t, isSimple c = true
  start : t.head? ≠ some '^'
  stop : t.getLast? ≠ some '$'

theorem Dotted.parse {t : Text} (h : Dotted t) : parse t = some (anchored false false t) := by
  have := parse_simple h.simple false false (fun _ => h.start) fun _ => h.stop
  simpa [opening, ending] using this

theorem Dotted.compile {t : Text} (h : Dotted t) : compile t = some [anchored false false t] := by
  have hbreak : ∀ c ∈ t, (c == '\n') = false := by
    intro c hc
    have := h.simple c hc
    simp_all [isSimple]
  have hsplit : t.splitOn '\n' = [t] := List.splitOnP_eq_singleton hbreak
  rw [Grep.compile, hsplit]
  simp [h.parse]

/-- **It selects the lines that it fits somewhere.** -/
theorem selects_dotted {t : Text} (h : Dotted t) (line : Text) : selects t line = line.tails.any
    (fits t) := by
  have hends : ∀ k : Here, (!((anchored false false t).ends k).isEmpty) = fits t k.rest := by
    intro k
    have hform : anchored false false t = sequence t .empty := rfl
    rw [hform, ends_sequence]
    split <;> simp_all [Regex.ends]
  simp only [selects, h.compile, Option.map_some, Option.getD_some, List.any_cons, List.any_nil,
    Bool.or_false, Regex.selects, hends]
  exact any_places ..

/-- Without a dot, a pattern fits what it is the beginning of. -/
theorem fits_exact {t : Text} (h : '.' ∉ t) (s : Text) : fits t s = decide (t <+: s) := by
  induction t generalizing s with
  | nil => simp [fits]
  | cons c t ih =>
    obtain ⟨hc, ht⟩ := not_or.mp (List.mem_cons.not.mp h)
    cases s with
    | nil => simp [fits]
    | cons d s =>
      have hatom : atom c d = decide (c = d) := by
        rw [atom, if_neg (Ne.symm hc), Bool.eq_iff_iff, beq_iff_eq, decide_eq_true_iff, eq_comm]
      rw [fits, ih ht, hatom, Bool.eq_iff_iff]
      simp [List.cons_prefix_cons]

/-- **Without a dot, it selects the lines that it stands in.** -/
theorem selects_contained {t : Text} (h : Dotted t) (hdot : '.' ∉ t) (line : Text) :
    selects t line = decide (t <:+: line) := by
  rw [selects_dotted h, Bool.eq_iff_iff, List.any_eq_true, decide_eq_true_iff, List.infix_iff_prefix_suffix]
  simp [fits_exact hdot, List.mem_tails, and_comm]

/-- Any other pattern of simple bytes has an anchor. -/
theorem exists_anchor {p : Text} (hp : ∀ c ∈ p, isSimple c = true) (hnot : ¬ Dotted p) :
    ∃ start stop t, (start = true ∨ stop = true) ∧ p = opening start ++ (t ++ ending stop) ∧
      t.length < p.length ∧ parse p = some (anchored start stop t) := by
  have hparse : ∀ start stop t, p = opening start ++ (t ++ ending stop) →
      (start = false → t.head? ≠ some '^') → (stop = false → t.getLast? ≠ some '$') →
      parse p = some (anchored start stop t) := by
    rintro start stop t rfl hstart hstop
    exact parse_simple (fun c hc => hp c (by simp [hc])) start stop hstart hstop
  -- what follows the anchor at the beginning, with or without one at the end
  have hlast : ∀ u : Text, u.getLast? = some '$' → ∃ t, u = t ++ ending true := by
    intro u hu
    obtain ⟨t, rfl⟩ := List.getLast?_eq_some_iff.mp hu
    exact ⟨t, rfl⟩
  by_cases hhead : p.head? = some '^'
  · obtain ⟨u, rfl⟩ : ∃ u, p = '^' :: u := by
      cases p with
      | nil => simp at hhead
      | cons c u => exact ⟨u, by simpa using hhead⟩
    by_cases hend : u.getLast? = some '$'
    · obtain ⟨t, rfl⟩ := hlast u hend
      exact ⟨true, true, t, .inl rfl, rfl, by simp [ending], hparse _ _ _ rfl (by simp) (by simp)⟩
    · have hform : '^' :: u = opening true ++ (u ++ ending false) := by simp [opening, ending]
      exact ⟨true, false, u, .inl rfl, hform, by simp, hparse _ _ _ hform (by simp) fun _ => hend⟩
  · have hend : p.getLast? = some '$' := by
      by_contra hend
      exact hnot ⟨hp, hhead, hend⟩
    obtain ⟨t, rfl⟩ := hlast p hend
    have hstart : t.head? ≠ some '^' := by
      cases t with
      | nil => simp
      | cons c t => simpa using hhead
    exact ⟨false, true, t, .inr rfl, rfl, by simp [ending], hparse _ _ _ rfl (fun _ => hstart) (by simp)⟩

/-! ### What sed leaves -/

/-- A line without the places that the pattern fits, from the left. -/
def strike (t : Text) : Nat → Text → Text
  | _, [] => []
  | skip + 1, _ :: s => strike t skip s
  | 0, c :: s => if fits t (c :: s) then strike t (t.length - 1) s else c :: strike t 0 s

theorem longest_dotted (t : Text) (h : Here) :
    (anchored false false t).longest h = if fits t h.rest then t.length else 0 := by
  have hform : anchored false false t = sequence t .empty := rfl
  rw [hform, Regex.longest, ends_sequence]
  split
  case isTrue hfits =>
    have := fits_length hfits
    simp [Regex.ends, after_facts]
    omega
  case isFalse => rfl

/-- **A pattern with dots only is struck out wherever it fits.** -/
theorem delete_dotted {t : Text} (hne : t ≠ []) (before : Option Char) (skip : Nat) (s : Text) :
    (anchored false false t).delete before skip s = strike t skip s := by
  obtain ⟨n, hn⟩ : ∃ n, t.length = n + 1 := Nat.exists_eq_add_one.mpr (List.length_pos_iff.mpr hne)
  induction s generalizing before skip with
  | nil => cases skip <;> rfl
  | cons c s ih =>
    cases skip with
    | succ skip => rw [Regex.delete, strike, ih]
    | zero =>
      rw [Regex.delete, longest_dotted, strike]
      by_cases hfits : fits t (c :: s) = true
      · simp [hfits, hn, ih]
      · simp [hfits, ih]

theorem strike_none {t s : Text} (h : s.tails.any (fits t) = false) : strike t 0 s = s := by
  induction s with
  | nil => rfl
  | cons c s ih =>
    rw [List.tails_cons, List.any_cons, Bool.or_eq_false_iff] at h
    rw [strike, h.1, ih h.2]
    rfl

theorem strike_skip (t : Text) (skip : Nat) (s : Text) : strike t skip s = strike t 0 (s.drop skip) := by
  induction skip generalizing s with
  | zero => rfl
  | succ skip ih =>
    cases s with
    | nil => rfl
    | cons c s => rw [strike, ih, List.drop_succ_cons]

/-- What is left is a part of the line. -/
theorem strike_sublist (t s : Text) (skip : Nat) : (strike t skip s).Sublist s := by
  induction s generalizing skip with
  | nil => cases skip <;> exact List.Sublist.refl _
  | cons c s ih =>
    cases skip with
    | succ skip => exact (ih skip).cons c
    | zero =>
      rw [strike]
      split
      · exact (ih _).cons c
      · exact (ih 0).cons_cons c

/-- **What is struck out is at least as long as the pattern.** -/
theorem strike_length {t : Text} (hne : t ≠ []) {s : Text} (h : s.tails.any (fits t) = true) :
    (strike t 0 s).length + t.length ≤ s.length := by
  induction s with
  | nil =>
    cases t with
    | nil => exact absurd rfl hne
    | cons c t => simp [fits] at h
  | cons c s ih =>
    rw [strike]
    by_cases hfits : fits t (c :: s) = true
    · have hlen := fits_length hfits
      have hpos := List.length_pos_iff.mpr hne
      have hsub := (strike_sublist t (s.drop (t.length - 1)) 0).length_le
      rw [List.length_drop] at hsub
      rw [if_pos hfits, strike_skip]
      simp only [List.length_cons] at hlen ⊢
      omega
    · rw [List.tails_cons, List.any_cons, Bool.or_eq_true, or_iff_right hfits] at h
      rw [if_neg hfits]
      simpa [Nat.add_right_comm] using ih h

/-- A pattern of one byte leaves nothing that it matches. -/
theorem strike_single (b : Char) (s : Text) : ∀ d ∈ strike [b] 0 s, atom b d = false := by
  induction s with
  | nil => simp [strike]
  | cons c s ih =>
    rw [strike]
    split
    case isTrue => exact ih
    case isFalse hfits =>
      have hc : atom b c = false := by simpa [fits] using hfits
      simpa [hc] using ih

theorem fits_single {b : Char} {s : Text} (h : s.tails.any (fits [b]) = true) : ∃ d ∈ s,
    atom b d = true := by
  induction s with
  | nil => simp [fits] at h
  | cons c s ih =>
    rw [List.tails_cons, List.any_cons, Bool.or_eq_true] at h
    rcases h with h | h
    · exact ⟨c, by simp, by simpa [fits] using h⟩
    · obtain ⟨d, hd, hatom⟩ := ih h
      exact ⟨d, by simp [hd], hatom⟩

/-! ### Anchors -/

theorem longest_start (r : Regex) (h : Here) :
    (Regex.cat .start r).longest h = if h.before = none then r.longest h else 0 := by
  rw [Regex.longest, Regex.ends, Regex.ends]
  split
  · simp [Regex.longest]
  · simp

/-- A match is as long as the pattern, and with an anchor after it as the rest of the line. -/
theorem longest_anchored (stop : Bool) (t : Text) (h : Here) :
    (anchored false stop t).longest h ≤ t.length ∧
      (stop = true → (anchored false stop t).longest h ≠ 0 →
        (anchored false stop t).longest h = h.rest.length) := by
  cases stop with
  | false =>
    rw [longest_dotted]
    split <;> simp
  | true =>
    have hform : anchored false true t = sequence t (.cat .stop .empty) := rfl
    rw [hform, Regex.longest, ends_sequence]
    split
    case isFalse => simp
    case isTrue hfits =>
      have hlen := fits_length hfits
      by_cases hend : (h.after t).rest = []
      · rw [after_facts, List.drop_eq_nil_iff] at hend
        have hrest : (h.after t).rest = [] := by rw [after_facts, List.drop_eq_nil_iff]; exact hend
        simp [Regex.ends, hrest]
        omega
      · simp [Regex.ends, hend]

theorem delete_later (r : Regex) (c : Char) (skip : Nat) (s : Text) :
    (Regex.cat .start r).delete (some c) skip s = s.drop skip := by
  induction s generalizing c skip with
  | nil => cases skip <;> simp [Regex.delete]
  | cons d s ih =>
    cases skip with
    | succ skip => rw [Regex.delete, ih, List.drop_succ_cons]
    | zero => rw [Regex.delete, longest_start, if_neg (by simp)]; simp [ih]

theorem delete_all (r : Regex) (before : Option Char) {skip : Nat} {s : Text} (h : s.length ≤ skip) :
    r.delete before skip s = [] := by
  induction s generalizing before skip with
  | nil => cases skip <;> rfl
  | cons c s ih =>
    obtain ⟨k, rfl⟩ : ∃ k, skip = k + 1 := Nat.exists_eq_add_one.mpr (by simp at h; omega)
    rw [Regex.delete, ih _ (by simpa using h)]

/-- **With an anchor one end of the line is struck out, and no more than the bytes between the
anchors.** -/
theorem delete_anchored (start stop : Bool) (h : start = true ∨ stop = true) (t s : Text) :
    ∃ k ≤ t.length, (anchored start stop t).delete none 0 s = s.drop k ∨
      (anchored start stop t).delete none 0 s = s.take (s.length - k) := by
  cases start with
  | true =>
    have hform : anchored true stop t = .cat .start (anchored false stop t) := rfl
    rw [hform]
    cases s with
    | nil => exact ⟨0, by simp, .inl rfl⟩
    | cons c s =>
      have hbound := (longest_anchored stop t ⟨none, c :: s, []⟩).1
      rw [Regex.delete, longest_start, if_pos rfl]
      cases hlong : (anchored false stop t).longest ⟨none, c :: s, []⟩ with
      | zero => exact ⟨0, by simp, .inl (by simp [delete_later])⟩
      | succ n => exact ⟨n + 1, by omega, .inl (by simp [delete_later])⟩
  | false =>
    obtain rfl : stop = true := by simpa using h
    suffices ∀ before, ∃ k ≤ t.length, (anchored false true t).delete before 0 s = s.take
      (s.length - k) by
      obtain ⟨k, hk, heq⟩ := this none
      exact ⟨k, hk, .inr heq⟩
    induction s with
    | nil => exact fun before => ⟨0, by simp, rfl⟩
    | cons c s ih =>
      intro before
      obtain ⟨hbound, hend⟩ := longest_anchored true t ⟨before, c :: s, []⟩
      rw [Regex.delete]
      cases hlong : (anchored false true t).longest ⟨before, c :: s, []⟩ with
      | zero =>
        obtain ⟨k, hk, heq⟩ := ih (some c)
        refine ⟨min k s.length, by omega, ?_⟩
        dsimp only
        rw [heq, List.length_cons, Nat.succ_sub (Nat.min_le_right ..), List.take_succ_cons]
        congr 2
        omega
      | succ n =>
        have hwhole := hend rfl (by omega)
        rw [hlong] at hbound hwhole
        refine ⟨n + 1, hbound, ?_⟩
        obtain rfl : n = s.length := by simpa using hwhole
        dsimp only
        rw [delete_all _ _ (Nat.le_refl _)]
        simp

end Tcos.Grep
