import Tcos.Libc.Numbers

/-! Printed numbers, read back.

`strtol` reads back what `%li` prints, and `atoi` what `%i` and `%u` print, modulo 2^32. What follows a
number begins with no digit. -/
namespace Tcos.Libc
open Shell (Text)

/-- No two numbers are printed alike. -/
theorem decimal_injective : Function.Injective decimal := by
  intro n m h
  have hdigit : ∀ k : Nat, (Nat.toDigits 10 k).head? ≠ some '-' := by
    intro k hk
    exact absurd (toDigits_digit k '-' (List.mem_of_mem_head? hk)) (by decide)
  have habs : ∀ k j : Nat, Nat.toDigits 10 k = Nat.toDigits 10 j → k = j := by
    intro k j hkj
    have := congrArg (fun t => Nat.ofDigitChars 10 t 0) hkj
    simpa only [Nat.ofDigitChars_ten_toDigits] using this
  unfold decimal at h
  split_ifs at h with hn hm hm
  · have := habs _ _ (List.cons.inj h).2
    omega
  · exact absurd (by rw [← h]; rfl) (hdigit m.natAbs)
  · exact absurd (by rw [h]; rfl) (hdigit n.natAbs)
  · have := habs _ _ h
    omega

section Long
variable {n : Int} {rest : Text}

/-- **A printed `long` is read back.** -/
theorem strtol_printed (hlow : -2 ^ 63 ≤ n) (hhigh : n < 2 ^ 63)
    (hrest : ∀ c ∈ rest.head?, c.isDigit = false) : strtol (decimal n ++ rest) = some (n, rest) := by
  have hvalue : Nat.ofDigitChars 10 (Nat.toDigits 10 n.natAbs) 0 = n.natAbs :=
    Nat.ofDigitChars_ten_toDigits
  have hlong : toLong n = n := by
    unfold toLong
    omega
  unfold decimal
  split
  case isTrue hneg =>
    have habs : -|n| = n := by rw [abs_of_neg hneg, neg_neg]
    have hminus : isSpace '-' = false := by decide
    obtain ⟨htake, hdrop⟩ := digits_read (toDigits_digit n.natAbs) hrest
    simp [strtol, hminus, htake, hdrop, hvalue, Nat.toDigits_ne_nil, habs, hlong]
  case isFalse hneg =>
    have habs : (n.natAbs : Int) = n := by omega
    rw [strtol_read Nat.toDigits_ne_nil (toDigits_digit n.natAbs) hrest, hvalue, habs, hlong]

theorem atoi_printed (hlow : -2 ^ 63 ≤ n) (hhigh : n < 2 ^ 63)
    (hrest : ∀ c ∈ rest.head?, c.isDigit = false) : atoi (decimal n ++ rest) = toInt n := by
  rw [atoi, strtol_printed hlow hhigh hrest]
  rfl

/-- The digits of a number that is not negative are skipped; nothing of a negative one is. -/
theorem skip_printed (hrest : ∀ c ∈ rest.head?, c.isDigit = false) :
    (decimal n ++ rest).dropWhile Char.isDigit = if n < 0 then decimal n ++ rest else rest := by
  unfold decimal
  split
  case isTrue => rfl
  case isFalse => exact (digits_read (toDigits_digit n.natAbs) hrest).2

end Long

section Word
variable (b : BitVec 32) {rest : Text}

theorem toInt_word : toInt b.toInt = b.toInt ∧ toInt b.toNat = b.toInt := by
  have hlow := b.toInt_lt
  have hhigh := b.le_toInt
  have hnat := b.isLt
  have hcases := b.toInt_eq_toNat_cond
  unfold toInt
  split at hcases <;> omega

/-- **A word printed as `%i` is read back.** -/
theorem atoi_signed (hrest : ∀ c ∈ rest.head?, c.isDigit = false) :
    atoi (decimal b.toInt ++ rest) = b.toInt := by
  have hlow := b.toInt_lt
  have hhigh := b.le_toInt
  rw [atoi_printed (by omega) (by omega) hrest, (toInt_word b).1]

/-- And one printed as `%u`, as an `int`. -/
theorem atoi_unsigned (hrest : ∀ c ∈ rest.head?, c.isDigit = false) :
    atoi (Nat.toDigits 10 b.toNat ++ rest) = b.toInt := by
  have hnat := b.isLt
  rw [← decimal_nat, atoi_printed (by omega) (by omega) hrest, (toInt_word b).2]

end Word

end Tcos.Libc
