import Tcos.Xmlrpc.Pads

/-! Texts in base 64 that are what some bytes are encoded as.

The decoder skips what is not of its alphabet, takes padding anywhere and drops the bits that are over, so
most texts that it accepts are not what the encoder answers. `sent_pad_returns_iff` says which texts a
client gets back from `getpad` after it sent them as a new pad. -/
namespace Tcos.Xmlrpc
open Shell (Text lit)
open Libc

/-- A digit of the alphabet whose last bits are zero. -/
def isDigitOver (mask : UInt8) (c : Char) : Bool :=
  c != '=' && ((base64Value c).map fun v => v &&& mask == 0).getD false

/-- Blocks of four digits; the last one may be padded, and then the bits that are over are zero. -/
def isCanonical : Text → Bool
  | [] => true
  | [c0, c1, c2, c3] =>
    isDigitOver 0 c0 &&
      if c2 = '=' then isDigitOver 0x0f c1 && c3 == '='
      else isDigitOver 0 c1 && if c3 = '=' then isDigitOver 0x03 c2 else isDigitOver 0 c2 && isDigitOver 0 c3
  | c0 :: c1 :: c2 :: c3 :: rest =>
    isDigitOver 0 c0 && isDigitOver 0 c1 && isDigitOver 0 c2 && isDigitOver 0 c3 && isCanonical rest
  | _ => false

/-! ### Digits -/

theorem isDigitOver_char {n mask : UInt8} (h : n.toNat < 64) :
    isDigitOver mask (base64Char n) = (n &&& mask == 0) := by
  obtain ⟨hvalue, hne⟩ := base64_char h
  simp [isDigitOver, hvalue, hne]

/-- A digit is the character of a sextet. -/
theorem digit_sextet {mask : UInt8} {c : Char} (h : isDigitOver mask c = true) :
    ∃ v : UInt8, v.toNat < 64 ∧ base64Char v = c ∧ v &&& mask = 0 := by
  obtain ⟨hlen, -, -⟩ := base64Table_facts
  simp only [isDigitOver, Bool.and_eq_true, bne_iff_ne] at h
  obtain ⟨hne, h⟩ := h
  rw [base64Value, if_neg hne] at h
  cases hidx : base64Table.idxOf? c with
  | none => simp [hidx] at h
  | some i =>
    obtain ⟨hi, hchar, -⟩ := List.idxOf?_eq_some_iff.mp hidx
    have hsmall : (UInt8.ofNat i).toNat = i := by
      rw [UInt8.toNat_ofNat']
      omega
    refine ⟨UInt8.ofNat i, by omega, ?_, by simpa [hidx] using h⟩
    rw [base64Char, hsmall, List.getD_eq_getElem?_getD, List.getElem?_eq_getElem hi]
    exact hchar

/-- A sextet has no other bits. -/
theorem sextet_masked {v : UInt8} (h : v.toNat < 64) : v &&& 63 = v := by
  apply UInt8.toNat_inj.mp
  rw [UInt8.toNat_and]
  exact (Nat.and_two_pow_sub_one_eq_mod v.toNat 6).trans (Nat.mod_eq_of_lt h)

/-- Bit by bit, four sextets come out of their three bytes. -/
theorem bytes_sextets (p q r s : UInt8) :
    ((p &&& 63) <<< 2 ||| (q &&& 63) >>> 4) >>> 2 = p &&& 63 ∧
    ((((p &&& 63) <<< 2 ||| (q &&& 63) >>> 4) &&& 0x03) <<< 4) |||
      (((q &&& 63) <<< 4 ||| (r &&& 63) >>> 2) >>> 4) = q &&& 63 ∧
    ((((q &&& 63) <<< 4 ||| (r &&& 63) >>> 2) &&& 0x0f) <<< 2) |||
      (((r &&& 63) <<< 6 ||| (s &&& 63)) >>> 6) = r &&& 63 ∧
    ((r &&& 63) <<< 6 ||| (s &&& 63)) &&& 0x3f = s &&& 63 ∧
    ((((p &&& 63) <<< 2 ||| (q &&& 63) >>> 4) &&& 0x03) <<< 4) ||| (q &&& 0x0f) = q &&& 63 ∧
    ((((q &&& 63) <<< 4 ||| (r &&& 63) >>> 2) &&& 0x0f) <<< 2) ||| (r &&& 0x03) = r &&& 63 := by
  refine ⟨?_, ?_, ?_, ?_, ?_, ?_⟩
  all_goals
    apply UInt8.toBitVec_inj.mp
    apply BitVec.eq_of_getLsbD_eq
    intro i hi
    simp
    interval_cases i <;> simp

/-! ### The encoder's texts -/

/-- A block without padding. -/
theorem isCanonical_block {c0 c1 c2 c3 : Char} (h2 : c2 ≠ '=') (h3 : c3 ≠ '=') (rest : Text) :
    isCanonical (c0 :: c1 :: c2 :: c3 :: rest) = (isDigitOver 0 c0 && isDigitOver 0 c1 &&
      isDigitOver 0 c2 && isDigitOver 0 c3 && isCanonical rest) := by
  cases rest with
  | nil => simp [isCanonical, h2, h3, Bool.and_assoc]
  | cons d rest => rfl

theorem encode_canonical (src : List UInt8) : isCanonical (base64Encode src) = true := by
  fun_induction base64Encode src with
  | case1 => rfl
  | case2 a =>
    obtain ⟨s1, s2, -⟩ := shifts_small a
    have hover : ((a &&& 0x03) <<< 4) &&& 0x0f = 0 := by
      apply UInt8.toBitVec_inj.mp
      apply BitVec.eq_of_getLsbD_eq
      intro i hi
      simp
      interval_cases i <;> simp
    simp [isCanonical, isDigitOver_char s1, isDigitOver_char s2, hover]
  | case3 a b =>
    obtain ⟨s1, s2, -⟩ := shifts_small a
    obtain ⟨-, -, s3, s4, -⟩ := shifts_small b
    have hover : ((b &&& 0x0f) <<< 2) &&& 0x03 = 0 := by
      apply UInt8.toBitVec_inj.mp
      apply BitVec.eq_of_getLsbD_eq
      intro i hi
      simp
      interval_cases i <;> simp
    simp [isCanonical, isDigitOver_char s1, isDigitOver_char (or_small s2 s3), isDigitOver_char s4,
      (base64_char s4).2, hover]
  | case4 a b c rest ih =>
    obtain ⟨s1, s2, -⟩ := shifts_small a
    obtain ⟨-, -, s3, s4, -⟩ := shifts_small b
    obtain ⟨-, -, -, -, s5, s6⟩ := shifts_small c
    rw [isCanonical_block (base64_char (or_small s4 s5)).2 (base64_char s6).2, ih]
    simp [isDigitOver_char s1, isDigitOver_char (or_small s2 s3), isDigitOver_char (or_small s4 s5),
      isDigitOver_char s6]

/-- Four digits are three bytes, in front of any others. -/
theorem block_encoded {c0 c1 c2 c3 : Char} (h0 : isDigitOver 0 c0 = true) (h1 : isDigitOver 0 c1 = true)
    (h2 : isDigitOver 0 c2 = true) (h3 : isDigitOver 0 c3 = true) (src : List UInt8) :
    ∃ block, base64Encode (block ++ src) = c0 :: c1 :: c2 :: c3 :: base64Encode src := by
  obtain ⟨p, hp, rfl, -⟩ := digit_sextet h0
  obtain ⟨q, hq, rfl, -⟩ := digit_sextet h1
  obtain ⟨r, hr, rfl, -⟩ := digit_sextet h2
  obtain ⟨s, hs, rfl, -⟩ := digit_sextet h3
  obtain ⟨e0, e1, e2, e3, -⟩ := bytes_sextets p q r s
  rw [sextet_masked hp, sextet_masked hq] at e0 e1
  rw [sextet_masked hr] at e1 e2 e3
  rw [sextet_masked hq, sextet_masked hs] at e2
  rw [sextet_masked hs] at e3
  exact ⟨[p <<< 2 ||| q >>> 4, q <<< 4 ||| r >>> 2, r <<< 6 ||| s],
    by simp only [List.cons_append, List.nil_append, base64Encode, e0, e1, e2, e3]⟩

/-- **A canonical text is the encoding of some bytes.** -/
theorem canonical_encoded {s : Text} (h : isCanonical s = true) : ∃ src, base64Encode src = s := by
  fun_induction isCanonical s with
  | case1 => exact ⟨[], rfl⟩
  | case2 c0 c1 c2 c3 =>
    obtain ⟨h0, hlast⟩ := Bool.and_eq_true_iff.mp h
    clear h
    split_ifs at hlast with hpad2 hpad3
    · obtain ⟨h1, h3⟩ := Bool.and_eq_true_iff.mp hlast
      obtain ⟨p, hp, rfl, -⟩ := digit_sextet h0
      obtain ⟨q, hq, rfl, hover⟩ := digit_sextet h1
      obtain ⟨e0, -, -, -, e1, -⟩ := bytes_sextets p q 0 0
      rw [sextet_masked hp, sextet_masked hq] at e0 e1
      rw [hover, UInt8.or_zero] at e1
      exact ⟨[p <<< 2 ||| q >>> 4], by rw [base64Encode, e0, e1, hpad2, beq_iff_eq.mp h3]⟩
    · obtain ⟨h1, h2⟩ := Bool.and_eq_true_iff.mp hlast
      obtain ⟨p, hp, rfl, -⟩ := digit_sextet h0
      obtain ⟨q, hq, rfl, -⟩ := digit_sextet h1
      obtain ⟨r, hr, rfl, hover⟩ := digit_sextet h2
      obtain ⟨e0, e1, -, -, -, e2⟩ := bytes_sextets p q r 0
      rw [sextet_masked hp, sextet_masked hq] at e0 e1
      rw [sextet_masked hr] at e1 e2
      rw [sextet_masked hq, hover, UInt8.or_zero] at e2
      exact ⟨[p <<< 2 ||| q >>> 4, q <<< 4 ||| r >>> 2], by rw [base64Encode, e0, e1, e2, hpad3]⟩
    · obtain ⟨h1, hlast⟩ := Bool.and_eq_true_iff.mp hlast
      obtain ⟨h2, h3⟩ := Bool.and_eq_true_iff.mp hlast
      obtain ⟨block, hblock⟩ := block_encoded h0 h1 h2 h3 []
      exact ⟨block ++ [], hblock⟩
  | case3 c0 c1 c2 c3 rest hrest ih =>
    simp only [Bool.and_eq_true] at h
    obtain ⟨⟨⟨⟨h0, h1⟩, h2⟩, h3⟩, hcanonical⟩ := h
    obtain ⟨src, rfl⟩ := ih hcanonical
    obtain ⟨block, hblock⟩ := block_encoded h0 h1 h2 h3 src
    exact ⟨block ++ src, hblock⟩
  | case4 => exact absurd h (by simp)

/-- **The texts that come back from the decoder and the encoder.** -/
theorem reencoded_iff (s : Text) : (base64Decode s).map base64Encode = some s ↔ isCanonical s = true := by
  constructor
  · intro h
    obtain ⟨src, -, rfl⟩ := Option.map_eq_some_iff.mp h
    exact encode_canonical src
  · intro h
    obtain ⟨src, rfl⟩ := canonical_encoded h
    rw [base64_roundtrip, Option.map_some]

/-! ### A pad that was sent -/

/-- **What a client sent as a new pad is what it gets for it, exactly if it is canonical.** -/
theorem sent_pad_returns_iff (b b' : Build) {e e' : Env} {option file cookie hostname : Text} (text : Text)
    (haccepted : (handleXauth e cookie hostname).code = .ok)
    (haccepted' : (handleXauth e' cookie hostname).code = .ok) (hoption : lit "//mnt/" <+: option)
    (hopens : e.canWrite option = true)
    (hfile : ∀ content, (tcosPamUsb b e option text cookie hostname).wrote = [(option, content)] →
      e'.readfile file = some content) :
    (tcosPamUsb b' e' (lit "getpad") file cookie hostname).reply = some [text] ↔
      isCanonical text = true := by
  have hrun := tcosPamUsb_branch b e .newpad hoption text cookie hostname
  simp only [PadBranch.run, needXauth, haccepted, savePad, hopens, if_true] at hrun
  have hinit : ¬ initusb <+: lit "getpad" := by with_unfolding_all decide
  rw [← reencoded_iff]
  cases hdecode : base64Decode text with
  | some out =>
    have hread := hfile out (by rw [hrun, hdecode])
    simp [tcosPamUsb, hinit, needXauth, haccepted', hread, answer]
  | none =>
    have hread := hfile [] (by rw [hrun, hdecode])
    have hne : text ≠ [] := by
      rintro rfl
      exact absurd hdecode (by with_unfolding_all decide)
    simpa [tcosPamUsb, hinit, needXauth, haccepted', hread, answer, base64Encode] using hne.symm

/-- The last digit of `TWE=` has no bits over; that of `TWF=` has. -/
theorem sent_pad_returns_ma : (tcosPamUsb .thinClient (Env.withPad [77, 97]) (lit "getpad") (lit "/mnt/U/pad")
    (lit "f00d") (lit "tcos")).reply = some [lit "TWE="] ↔ isCanonical (lit "TWE=") = true :=
  sent_pad_returns_iff .thinClient .thinClient (e := Env.client) (lit "TWE=") client_accepts client_accepts
    (show lit "//mnt/" <+: lit "//mnt/U/pad" by with_unfolding_all decide) rfl fun content h => by
      have hwrote : (tcosPamUsb .thinClient Env.client (lit "//mnt/U/pad") (lit "TWE=") (lit "f00d")
          (lit "tcos")).wrote = [(lit "//mnt/U/pad", [77, 97])] := by with_unfolding_all rfl
      rw [hwrote] at h
      simpa [Env.withPad] using h

example : isCanonical (lit "TWF=") = false := by with_unfolding_all decide

end Tcos.Xmlrpc
