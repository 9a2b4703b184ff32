import Tcos.Shell.Parser

/-! Numbers in C strings: `strtol` in base ten as glibc reads it, the conversions
built on it, and `%d`. A `long` has 64 bits and saturates; an `int` is what its low
32 bits say. -/
namespace Tcos.Libc
open Shell (Text)

def isSpace (c : Char) : Bool := c == ' ' || ('\t' ≤ c && c ≤ '\r')

/-- The `long` nearest to `n`. -/
def toLong (n : Int) : Int := max (-2 ^ 63) (min (2 ^ 63 - 1) n)

/-- The low 32 bits of `n`, signed. -/
def toInt (n : Int) : Int := (n + 2 ^ 31) % 2 ^ 32 - 2 ^ 31

/-- `strtol(s, &rest, 10)`; `none` if there is no digit to read. -/
def strtol (s : Text) : Option (Int × Text) :=
  let body := s.dropWhile isSpace
  let negative := body.head? == some '-'
  let digits := if negative || body.head? == some '+' then body.tail else body
  let read := digits.takeWhile Char.isDigit
  let value := (Nat.ofDigitChars 10 read 0 : Int)
  if read.isEmpty then none
  else some (toLong (if negative then -value else value), digits.dropWhile Char.isDigit)

def atoi (s : Text) : Int := ((strtol s).map fun r => toInt r.1).getD 0

/-- `sscanf` with `n` conversions `%d` and a dot between each two: what was assigned. -/
def scanDotted : Nat → Text → List Int
  | 0, _ => []
  | n + 1, s =>
    match strtol s with
    | none => []
    | some (v, rest) =>
      toInt v :: match rest with
        | '.' :: rest => scanDotted n rest
        | _ => []

/-- `%d`. -/
def decimal (n : Int) : Text :=
  if n < 0 then '-' :: Nat.toDigits 10 n.natAbs else Nat.toDigits 10 n.natAbs

example : atoi " -12:8998".toList = -12 := by decide

example : scanDotted 4 "10.0.0.1".toList = [10, 0, 0, 1] := by decide

theorem toDigits_digit (n : Nat) : ∀ c ∈ Nat.toDigits 10 n, c.isDigit = true := fun _ hc =>
  Nat.isDigit_of_mem_toDigits (by decide) (by decide) hc

theorem not_mem_toDigits {c : Char} (h : c.isDigit = false) (n : Nat) : c ∉ Nat.toDigits 10 n := by
  intro hc
  rw [toDigits_digit n c hc] at h
  exact absurd h (by simp)

theorem decimal_nat (n : Nat) : decimal n = Nat.toDigits 10 n := by
  simp [decimal]

theorem decimal_chars (n : Int) : ∀ c ∈ decimal n, c.isDigit = true ∨ c = '-' := by
  intro c hc
  have h := toDigits_digit n.natAbs
  unfold decimal at hc
  split at hc
  · rcases List.mem_cons.mp hc with rfl | hc
    · exact .inr rfl
    · exact .inl (h c hc)
  · exact .inl (h c hc)

theorem decimal_ne_nil (n : Int) : decimal n ≠ [] := by
  unfold decimal
  split
  · simp
  · exact Nat.toDigits_ne_nil

theorem isSpace_of_isDigit {c : Char} (hc : c.isDigit = true) : isSpace c = false := by
  simp only [Char.isDigit, Bool.and_eq_true, decide_eq_true_eq, ge_iff_le] at hc
  by_contra h
  simp only [Bool.not_eq_false, isSpace, Bool.or_eq_true, beq_iff_eq, Bool.and_eq_true,
    decide_eq_true_eq] at h
  rcases h with rfl | ⟨_, h⟩
  · exact absurd hc.1 (by decide)
  · exact absurd (UInt32.le_trans hc.1 h) (by decide)

/-- Digits are read up to the next byte that is none. -/
theorem digits_read {t rest : Text} (ht : ∀ c ∈ t, c.isDigit = true)
    (hrest : ∀ c ∈ rest.head?, c.isDigit = false) : (t ++ rest).takeWhile Char.isDigit = t ∧
    (t ++ rest).dropWhile Char.isDigit = rest := by
  rw [List.takeWhile_append_of_pos ht, List.dropWhile_append_of_pos ht]
  cases rest with
  | nil => simp
  | cons c rest =>
    have hc : c.isDigit = false := hrest c rfl
    simp [hc]

/-- Plain digits are read as the number they write. -/
theorem strtol_read {s rest : Text} (hs : s ≠ []) (hd : ∀ c ∈ s, c.isDigit = true)
    (hrest : ∀ c ∈ rest.head?, c.isDigit = false) :
    strtol (s ++ rest) = some (toLong (Nat.ofDigitChars 10 s 0), rest) := by
  obtain ⟨htake, hdrop⟩ := digits_read hd hrest
  obtain ⟨c, s, rfl⟩ := List.exists_cons_of_ne_nil hs
  have hc := hd c (List.mem_cons_self ..)
  have hnot : isSpace c = false ∧ c ≠ '-' ∧ c ≠ '+' := by
    refine ⟨isSpace_of_isDigit hc, fun h => ?_, fun h => ?_⟩
    · rw [h] at hc; exact absurd hc (by decide)
    · rw [h] at hc; exact absurd hc (by decide)
  rw [List.cons_append] at htake hdrop ⊢
  simp [strtol, hnot, htake, hdrop]

theorem strtol_digits {s : Text} (hs : s ≠ []) (hd : ∀ c ∈ s, c.isDigit = true) :
    strtol s = some (toLong (Nat.ofDigitChars 10 s 0), []) := by
  have h := @strtol_read s [] hs hd (by simp)
  rwa [List.append_nil] at h

theorem toInt_of_small {n : Nat} (h : n < 2 ^ 31) : toInt (toLong n) = n := by
  have h1 : toLong n = n := by
    unfold toLong
    omega
  rw [h1, toInt]
  omega

theorem atoi_digits {s : Text} (hs : s ≠ []) (hd : ∀ c ∈ s, c.isDigit = true)
    (hn : Nat.ofDigitChars 10 s 0 < 2 ^ 31) : atoi s = Nat.ofDigitChars 10 s 0 := by
  rw [atoi, strtol_digits hs hd]
  exact toInt_of_small hn

/-! ### Plain digits -/

theorem digitChar_of_isDigit {c : Char} (hc : c.isDigit = true) :
    Nat.digitChar (c.toNat - '0'.toNat) = c ∧ c.toNat - '0'.toNat < 10 := by
  simp only [Char.isDigit, Bool.and_eq_true, decide_eq_true_eq, ge_iff_le] at hc
  obtain ⟨h1, h2⟩ := hc
  have hlo : 48 ≤ c.toNat := UInt32.le_iff_toNat_le.mp h1
  have hhi : c.toNat ≤ 57 := UInt32.le_iff_toNat_le.mp h2
  have h : ∀ n < 10, Nat.digitChar n = Char.ofNat (n + 48) := by decide
  refine ⟨?_, by have : '0'.toNat = 48 := rfl; omega⟩
  have h0 : '0'.toNat = 48 := rfl
  rw [h _ (by omega), h0, Nat.sub_add_cancel hlo, Char.ofNat_toNat]

/-- Digits without a leading zero are the digits of the number they write. -/
theorem toDigits_ofDigitChars (s : Text) (hne : s ≠ []) (hd : ∀ c ∈ s, c.isDigit = true)
    (h0 : s.head? ≠ some '0') :
    Nat.toDigits 10 (Nat.ofDigitChars 10 s 0) = s ∧ 0 < Nat.ofDigitChars 10 s 0 := by
  induction s using List.reverseRecOn with
  | nil => exact absurd rfl hne
  | append_singleton s c ih =>
    obtain ⟨hchar, hlt⟩ := digitChar_of_isDigit (hd c (by simp))
    have hval : Nat.ofDigitChars 10 (s ++ [c]) 0 =
        10 * Nat.ofDigitChars 10 s 0 + (c.toNat - '0'.toNat) := by
      rw [Nat.ofDigitChars_append, Nat.ofDigitChars_cons, Nat.ofDigitChars_nil]
    rw [hval]
    by_cases hs : s = []
    · subst hs
      have hc : c.toNat - '0'.toNat ≠ 0 := by
        intro h
        rw [h] at hchar
        exact h0 (by rw [← hchar]; rfl)
      rw [Nat.ofDigitChars_nil, Nat.mul_zero, Nat.zero_add, Nat.toDigits_of_lt_base hlt, hchar]
      exact ⟨rfl, by omega⟩
    · have hhead : s.head? ≠ some '0' := by
        rw [List.head?_append_of_ne_nil _ hs] at h0
        exact h0
      obtain ⟨hdigits, hpos⟩ := ih hs (fun c hc => hd c (by simp [hc])) hhead
      rw [← Nat.toDigits_append_toDigits (by decide) hpos hlt, hdigits,
        Nat.toDigits_of_lt_base hlt, hchar]
      exact ⟨rfl, by omega⟩

theorem head_toDigits {n : Nat} (hn : 0 < n) : (Nat.toDigits 10 n).head? ≠ some '0' := by
  induction n using Nat.strongRecOn with
  | ind n ih =>
    rw [Nat.toDigits_eq_if (by decide)]
    split
    case isTrue hlt =>
      have h : ∀ k < 10, 0 < k → [Nat.digitChar k].head? ≠ some '0' := by decide
      exact h n hlt hn
    case isFalse hge =>
      rw [List.head?_append_of_ne_nil _ Nat.toDigits_ne_nil]
      exact ih (n / 10) (by omega) (by omega)

theorem atoi_toDigits {n : Nat} (hn : n < 2 ^ 31) : atoi (Nat.toDigits 10 n) = n := by
  have h := Nat.ofDigitChars_ten_toDigits (n := n)
  have := atoi_digits (s := Nat.toDigits 10 n) Nat.toDigits_ne_nil
    (toDigits_digit n) (by rw [h]; exact hn)
  rw [this, h]

end Tcos.Libc
