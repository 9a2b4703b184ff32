import Tcos.Tmixer.Percent

/-! Percentages of a range, there and back.

`convert_prange1` rounds a percentage up to a raw volume and `convert_prange` rounds a raw volume to
the nearest percentage. `stable_iff` says which percentages leave the raw volume as it is when it is
reported and set again. -/
namespace Tcos.Tmixer
open Shell (Text lit)
open Libc (decimal toInt)

/-! ### Rounding -/

/-- To the nearest, ties to even. -/
def rint (x : ℚ) : Int :=
  if Int.fract x < 1 / 2 then ⌊x⌋
  else if 1 / 2 < Int.fract x then ⌊x⌋ + 1
  else if Even ⌊x⌋ then ⌊x⌋ else ⌊x⌋ + 1

/-- The nearest is below. -/
def Down (x : ℚ) : Prop := Int.fract x < 1 / 2 ∨ Int.fract x = 1 / 2 ∧ Even ⌊x⌋

theorem rint_down {x : ℚ} (h : Down x) : rint x = ⌊x⌋ := by
  unfold rint
  rcases h with h | ⟨h, heven⟩
  · rw [if_pos h]
  · rw [h, if_neg (lt_irrefl _), if_neg (lt_irrefl _), if_pos heven]

theorem rint_up {x : ℚ} (h : ¬ Down x) : rint x = ⌊x⌋ + 1 := by
  rw [Down, not_or, not_and, not_lt] at h
  unfold rint
  rw [if_neg (not_lt.mpr h.1)]
  split_ifs with hup heven
  · rfl
  · exact absurd heven (h.2 (le_antisymm (not_lt.mp hup) h.1))
  · rfl

theorem rint_mem {x : ℚ} {a b : Int} (ha : a ≤ x) (hb : x ≤ b) : a ≤ rint x ∧ rint x ≤ b := by
  have hfloor : a ≤ ⌊x⌋ := Int.le_floor.mpr ha
  have hle : ⌊x⌋ ≤ b := Int.cast_le.mp ((Int.floor_le x).trans hb)
  by_cases h : Down x
  · rw [rint_down h]
    exact ⟨hfloor, hle⟩
  · rw [rint_up h]
    refine ⟨by omega, ?_⟩
    -- a whole number is rounded down
    by_contra hgt
    have heq : x = b := le_antisymm hb (by
      have : b = ⌊x⌋ := by omega
      rw [this]
      exact Int.floor_le x)
    exact h (.inl (by rw [heq, Int.fract_intCast]; norm_num))

/-! ### Conversions -/

/-- `(long)ceil((val) * ((max) - (min)) * 0.01 + (min))`. -/
def convertPrange1 (val : ℚ) (min max : Int) : Int := ⌈val * (max - min) * (1 / 100) + min⌉

/-- `rint((double)val/(double)range * 100)`. -/
def share (val range : Int) : Int := rint (val / range * 100)

/-- `convert_prange` in exact arithmetic. -/
def exactPrange (val min max : Int) : Int :=
  let range := max - min
  if range = 0 then 0 else share (val - min) range

example : convertPrange1 7 0 31 = 3 ∧ exactPrange 3 0 31 = 10 ∧ convertPrange1 10 0 31 = 4 := by
    decide +kernel

/-- While nothing overflows. -/
theorem convertPrange_exact {val min max : Int} (hrange : toInt (max - min) = max - min)
    (hval : toInt (val - min) = val - min) :
    convertPrange share val min max = exactPrange val min max := by
  rw [convertPrange, hrange, hval, exactPrange]

/-- From `p * range` up to the next multiple of a hundred. -/
def excess (p : ℚ) (range : Int) : ℚ := 100 * Int.fract (-(p * range / 100))

/-- What is reported before it is rounded. -/
def reported (p : ℚ) (range : Int) : ℚ := p + excess p range / range

/-- The report is rounded down, by less than a step. -/
structure Settled (p : ℚ) (range : Int) : Prop where
  down : Down (reported p range)
  near : Int.fract (reported p range) * range < 100

/-- The volume is in the range, and reported and set again it stays. -/
structure Stable (v min max : Int) : Prop where
  min_le : min ≤ v
  le_max : v ≤ max
  again : convertPrange1 (exactPrange v min max) min max = v

section Range
variable {min max : Int} {p : ℚ}

theorem convertPrange1_eq_iff {v : Int} : convertPrange1 p min max = v ↔
    100 * (v - min - 1 : ℚ) < p * (max - min) ∧ p * (max - min) ≤ 100 * (v - min : ℚ) := by
  rw [convertPrange1, Int.ceil_eq_iff]
  constructor <;> rintro ⟨h1, h2⟩ <;> constructor <;> linarith

theorem convertPrange1_mem (h : min < max) (hp : 0 ≤ p) (hp' : p ≤ 100) :
    min ≤ convertPrange1 p min max ∧ convertPrange1 p min max ≤ max := by
  have hrange : (0 : ℚ) < max - min := sub_pos.mpr (Int.cast_lt.mpr h)
  constructor
  · rw [convertPrange1, Int.ceil_add_intCast]
    have : 0 ≤ p * (max - min) * (1 / 100 : ℚ) := by positivity
    have := Int.ceil_nonneg this
    omega
  · rw [convertPrange1, Int.ceil_le]
    have : p * (max - min) ≤ 100 * (max - min : ℚ) := by gcongr
    linarith

/-- The report is exact but for the rounding up. -/
theorem reported_eq (h : min < max) :
    ((convertPrange1 p min max - min : Int) / (max - min : Int) * 100 : ℚ) = reported p (max - min) := by
  have hrange : ((max - min : Int) : ℚ) ≠ 0 := by
    rw [Int.cast_ne_zero]
    omega
  have hceil : ((convertPrange1 p min max - min : Int) : ℚ) = ⌈p * (max - min : Int) / 100⌉ := by
    rw [convertPrange1, Int.ceil_add_intCast, add_sub_cancel_right]
    congr 2
    push_cast
    ring
  have hexcess : excess p (max - min) = 100 * ⌈p * (max - min : Int) / 100⌉ - p * (max - min : Int) := by
    rw [excess, Int.fract, Int.floor_neg]
    push_cast
    ring
  rw [hceil, reported, hexcess]
  field_simp
  ring

theorem exactPrange_eq (h : min < max) :
    exactPrange (convertPrange1 p min max) min max = rint (reported p (max - min)) := by
  rw [exactPrange, if_neg (by omega), share, reported_eq h]

/-- What a report gives when it is set again. -/
theorem again_iff (h : min < max) (q : Int) : convertPrange1 q min max = convertPrange1 p min max ↔
    (q : ℚ) ≤ reported p (max - min) ∧ (reported p (max - min) - q) * (max - min : Int) < 100 := by
  have hrange : (0 : ℚ) < (max - min : Int) := Int.cast_pos.mpr (by omega)
  have hv : 100 * (convertPrange1 p min max - min : ℚ) = reported p (max - min) * (max - min : Int) := by
    rw [← reported_eq h]
    push_cast at hrange ⊢
    field_simp
  rw [convertPrange1_eq_iff]
  have hle : (q : ℚ) ≤ reported p (max - min) ↔ q * (max - min : Int) ≤ reported p (max - min) *
    (max - min : Int) :=
    (mul_le_mul_iff_left₀ hrange).symm
  rw [hle, sub_mul, ← hv]
  push_cast
  constructor <;> rintro ⟨h1, h2⟩ <;> constructor <;> linarith

/-- **A percentage keeps its volume exactly when the report is rounded down, by less than a step.** -/
theorem stable_iff (h : min < max) (hp : 0 ≤ p) (hp' : p ≤ 100) :
    Stable (convertPrange1 p min max) min max ↔ Settled p (max - min) := by
  obtain ⟨hmin, hmax⟩ := convertPrange1_mem h hp hp'
  have hagain : Stable (convertPrange1 p min max) min max ↔
      convertPrange1 (rint (reported p (max - min))) min max = convertPrange1 p min max := by
    rw [← exactPrange_eq h]
    exact ⟨Stable.again, fun hv => ⟨hmin, hmax, hv⟩⟩
  rw [hagain, again_iff h]
  by_cases hdown : Down (reported p (max - min))
  · rw [rint_down hdown]
    constructor
    · rintro ⟨-, hnear⟩
      exact ⟨hdown, hnear⟩
    · intro hs
      exact ⟨Int.floor_le _, hs.near⟩
  · rw [rint_up hdown]
    refine iff_of_false (fun ⟨hle, _⟩ => ?_) fun hs => hdown hs.down
    push_cast at hle
    exact absurd hle (not_le.mpr (Int.lt_floor_add_one _))

theorem stable_iff_third : Stable (convertPrange1 (100 / 3) 0 31) 0 31 ↔ Settled (100 / 3) (31 - 0) :=
  stable_iff (by decide) (by norm_num) (by norm_num)

/-- Seven percent of 31 steps are three, three are ten percent, and ten percent are four. -/
theorem drifts : ¬ Stable (convertPrange1 7 0 31) 0 31 := fun h => absurd h.again (by decide +kernel)

/-- **Whole percentages of a wide range are safe.** -/
theorem stable_of_wide {k : Nat} (hk : k ≤ 100) (hwide : 198 < max - min) :
    Stable (convertPrange1 k min max) min max := by
  have hrange : (198 : ℚ) < (max - min : Int) := by exact_mod_cast hwide
  have hexcess : 0 ≤ excess k (max - min) ∧ excess k (max - min) ≤ 99 := by
    have hform : (-((k : ℚ) * (max - min : Int) / 100)) = ((-(k * (max - min)) : Int) : ℚ) /
      (100 : Nat) := by
      push_cast
      ring
    rw [excess, hform, Int.fract_div_intCast_eq_div_intCast_mod]
    have hmod : (-(k * (max - min)) : Int) % (100 : Nat) ≤ 99 := by omega
    have hpos : 0 ≤ (-(k * (max - min)) : Int) % (100 : Nat) := by omega
    have hmod' : (((-(k * (max - min)) : Int) % (100 : Nat) : Int) : ℚ) ≤ 99 := by exact_mod_cast hmod
    have hpos' : (0 : ℚ) ≤ ((-(k * (max - min)) : Int) % (100 : Nat) : Int) := by exact_mod_cast hpos
    constructor
    · positivity
    · push_cast at hmod' ⊢
      linarith
  have hpart : Int.fract (reported k (max - min)) = excess k (max - min) / (max - min : Int) := by
    have hsmall : excess k (max - min) / (max - min : Int) < 1 :=
      (div_lt_one (by linarith)).mpr (by linarith [hexcess.2])
    rw [reported, Int.fract_natCast_add,
      Int.fract_eq_self.mpr ⟨div_nonneg hexcess.1 (by linarith), hsmall⟩]
  refine (stable_iff (by omega) (Nat.cast_nonneg k) (by exact_mod_cast hk)).mpr ⟨.inl ?_, ?_⟩
  · rw [hpart, div_lt_iff₀ (by linarith)]
    linarith [hexcess.2]
  · rw [hpart, div_mul_cancel₀ _ (by linarith)]
    linarith [hexcess.2]

end Range

/-! ### Set by the word -/

section Word
variable {σ : Type} (L : Library σ)

theorem isNumeral_toDigits {q : Nat} (hq : q ≤ 100) : IsNumeral (Nat.toDigits 10 q) where
  some := Nat.toDigits_ne_nil
  digits := Libc.toDigits_digit q
  small := by rw [value, Nat.ofDigitChars_ten_toDigits]; exact hq

/-- **What is printed of a volume, given back with its sign, is set as that percentage.** -/
theorem set_reported {d : Dir} {min max v : Int} (hexact : L.convertPrange1 = convertPrange1)
    (hvol : L.hasVolume d = true) (hrange : L.getRange d .raw = some (min, max)) (hlt : min < max)
    (hv : min ≤ v ∧ v ≤ max) (st : Sset σ) (chn : Nat) :
    (setVolumeSimple L st d chn (decimal (exactPrange v min max) ++ ['%'])).1.1.calls =
      st.calls ++ [.volume d .raw chn (convertPrange1 (exactPrange v min max) min max)] := by
  have hmem : 0 ≤ exactPrange v min max ∧ exactPrange v min max ≤ 100 := by
    have hpos : (0 : ℚ) < (max - min : Int) := Int.cast_pos.mpr (by omega)
    have hlo : (0 : ℚ) ≤ (v - min : Int) := Int.cast_nonneg (by omega)
    have hhi : ((v - min : Int) : ℚ) ≤ (max - min : Int) := Int.cast_le.mpr (by omega)
    rw [exactPrange, if_neg (by omega), share]
    refine rint_mem (a := 0) (b := 100) ?_ ?_
    · push_cast at hlo hpos ⊢
      positivity
    · have := (div_le_one hpos).mpr hhi
      push_cast at this ⊢
      linarith
  obtain ⟨q, hq⟩ := Int.eq_ofNat_of_zero_le hmem.1
  rw [hq] at hmem ⊢
  have hdecimal : decimal (q : Int) = Nat.toDigits 10 q := if_neg (by omega)
  obtain ⟨mixer, ok, hset⟩ := setVolumeSimple_numeral L st d chn
    (isNumeral_toDigits (q := q) (by omega)) (isRest_signs 1)
  have hclip : L.checkRange (convertPrange1 (q : Int) min max) min max = convertPrange1
    (q : Int) min max := by
    obtain ⟨h1, h2⟩ := convertPrange1_mem (p := (q : Int)) hlt (Int.cast_nonneg hmem.1)
      (by exact_mod_cast hmem.2)
    unfold Library.checkRange
    split_ifs <;> omega
  rw [hdecimal, show ['%'] = List.replicate 1 '%' from rfl, hset]
  have hcall : volumeCall L d chn (Nat.toDigits 10 q) true =
      [.volume d .raw chn (L.checkRange (convertPrange1 (q : Int) min max) min max)] := by
    simp [volumeCall, hvol, hrange, hexact, value, Nat.ofDigitChars_ten_toDigits]
  rw [hclip] at hcall
  exact congrArg (st.calls ++ ·) hcall

end Word
end Tcos.Tmixer
