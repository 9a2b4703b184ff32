import Tcos.Libc.Numbers

/-! Hexadecimal numbers in C strings: `strtol` in base sixteen as glibc reads it. -/
namespace Tcos.Libc
open Shell (Text)

def isLowerHex (c : Char) : Bool := 'a' ≤ c && c ≤ 'f'

def isUpperHex (c : Char) : Bool := 'A' ≤ c && c ≤ 'F'

def isHexDigit (c : Char) : Bool := c.isDigit || isLowerHex c || isUpperHex c

def hexValue (c : Char) : Nat :=
  if c.isDigit then c.toNat - '0'.toNat
  else if isLowerHex c then c.toNat - 'a'.toNat + 10
  else c.toNat - 'A'.toNat + 10

/-- `strtol(s, &stop, 16)`, without what follows the digits. -/
def strtolHex (s : Text) : Int :=
  let body := s.dropWhile isSpace
  let negative := body.head? == some '-'
  let unsigned := if negative || body.head? == some '+' then body.tail else body
  let digits := if ['0', 'x'].isPrefixOf unsigned || ['0', 'X'].isPrefixOf unsigned
    then unsigned.drop 2 else unsigned
  let value : Int := (digits.takeWhile isHexDigit).foldl (fun n c => 16 * n + hexValue c) 0
  toLong (if negative then -value else value)

example : strtolHex "0x6F".toList = 111 := by decide

theorem hexValue_lt {c : Char} (h : isHexDigit c = true) : hexValue c < 16 := by
  have hbounds : ∀ a b : Char, a ≤ c → c ≤ b → a.toNat ≤ c.toNat ∧ c.toNat ≤ b.toNat := fun _ _ ha hb =>
    ⟨UInt32.le_iff_toNat_le.mp ha, UInt32.le_iff_toNat_le.mp hb⟩
  have h0 : '0'.toNat = 48 ∧ '9'.toNat = 57 := ⟨rfl, rfl⟩
  have ha : 'a'.toNat = 97 ∧ 'f'.toNat = 102 := ⟨rfl, rfl⟩
  have hA : 'A'.toNat = 65 ∧ 'F'.toNat = 70 := ⟨rfl, rfl⟩
  unfold hexValue
  by_cases hdigit : c.isDigit = true
  · have hb := (digitChar_of_isDigit hdigit).2
    rw [if_pos hdigit]
    omega
  · rw [if_neg hdigit]
    by_cases hlower : isLowerHex c = true
    · have hb := hlower
      simp only [isLowerHex, Bool.and_eq_true, decide_eq_true_eq] at hb
      have := hbounds _ _ hb.1 hb.2
      rw [if_pos hlower]
      omega
    · have hb : isUpperHex c = true := by simpa [isHexDigit, hdigit, hlower] using h
      simp only [isUpperHex, Bool.and_eq_true, decide_eq_true_eq] at hb
      have := hbounds _ _ hb.1 hb.2
      rw [if_neg hlower]
      omega

/-- **Two digits behind `0x`.** -/
theorem strtolHex_pair {c d : Char} (hc : isHexDigit c = true) (hd : isHexDigit d = true) :
    strtolHex ['0', 'x', c, d] = (16 * hexValue c + hexValue d : Nat) := by
  have hspace : isSpace '0' = false := by decide
  have hc' := hexValue_lt hc
  have hd' := hexValue_lt hd
  have hread : strtolHex ['0', 'x', c, d] = toLong (16 * hexValue c + hexValue d) := by
    simp [strtolHex, hspace, hc, hd]
  rw [hread, toLong]
  omega

end Tcos.Libc
