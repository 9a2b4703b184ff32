import Tcos.Libc.Buffer
import Tcos.Xmlrpc.Common

/-! `base64_encode` and `base64_decode` of common.c, in the memory they allocate.

`encode_in_bounds` and `decode_in_bounds`: every store is inside the buffer, and what is
stored is what the pure functions say. `base64_roundtrip`: decoding undoes encoding. -/
namespace Tcos.Xmlrpc
open Shell (Text lit)
open Libc

/-! ### The functions -/

/-- The stores of the encoder before the terminator. -/
def encodeInto : List UInt8 → Buffer Char → Option (Buffer Char)
  | [], out => some out
  | [a], out => do
    let out ← out.push (base64Char (a >>> 2))
    let out ← out.push (base64Char ((a &&& 0x03) <<< 4))
    let out ← out.push '='
    out.push '='
  | [a, b], out => do
    let out ← out.push (base64Char (a >>> 2))
    let out ← out.push (base64Char (((a &&& 0x03) <<< 4) ||| (b >>> 4)))
    let out ← out.push (base64Char ((b &&& 0x0f) <<< 2))
    out.push '='
  | a :: b :: c :: rest, out => do
    let out ← out.push (base64Char (a >>> 2))
    let out ← out.push (base64Char (((a &&& 0x03) <<< 4) ||| (b >>> 4)))
    let out ← out.push (base64Char (((b &&& 0x0f) <<< 2) ||| (c >>> 6)))
    let out ← out.push (base64Char (c &&& 0x3f))
    encodeInto rest out

/-- `olen`: blocks, line feeds, and the terminator. -/
def encodeSize (s : SizeT) (len : Nat) : Nat :=
  let olen := s.wrap (s.wrap (len * 4) / 3 + 4)
  let olen := s.wrap (olen + olen / 72)
  s.wrap (olen + 1)

/-- `base64_encode` with its terminator; none if a store is outside the buffer. -/
def base64EncodeC (s : SizeT) (src : List UInt8) : Option Text := do
  let out ← encodeInto src (.malloc (encodeSize s src.length))
  let out ← out.push '\x00'
  return out.stored

/-- A byte of the input and its value. -/
abbrev Sextet := Char × UInt8

/-- The loop of the decoder: the bytes of the block so far, those of the last whole block. -/
def decodeInto : Text → List Sextet → Text → Buffer UInt8 → Option (Text × Buffer UInt8)
  | [], _, last, out => some (last, out)
  | c :: src, block, last, out =>
    match base64Value c with
    | none => decodeInto src block last out
    | some v =>
      match block ++ [(c, v)] with
      | [x, y, z, w] => do
        let out ← out.push ((x.2 <<< 2) ||| (y.2 >>> 4))
        let out ← out.push ((y.2 <<< 4) ||| (z.2 >>> 2))
        let out ← out.push ((z.2 <<< 6) ||| w.2)
        decodeInto src [] [x.1, y.1, z.1, w.1] out
      | block => decodeInto src block last out

/-- `pos` after the padding is taken off. -/
def unpadded (last : Text) (stored : List UInt8) : List UInt8 :=
  if stored = [] then stored
  else if last[2]? = some '=' then stored.take (stored.length - 2)
  else if last[3]? = some '=' then stored.take (stored.length - 1)
  else stored

/-- `base64_decode`; none if a store is outside the buffer, `some none` the null pointer. -/
def base64DecodeC (src : Text) : Option (Option (List UInt8)) :=
  let count := (src.filter fun c => (base64Value c).isSome).length
  if count % 4 ≠ 0 then some none
  else (decodeInto src [] [] (.malloc (count / 4 * 3))).map fun (last, out) =>
    some (unpadded last out.stored)

/-! ### The alphabet -/

theorem base64Table_facts : base64Table.length = 64 ∧ base64Table.Nodup ∧ '=' ∉ base64Table := by
  with_unfolding_all decide

/-- The decoder's table undoes the encoder's. -/
theorem base64_char {n : UInt8} (h : n.toNat < 64) :
    base64Value (base64Char n) = some n ∧ base64Char n ≠ '=' := by
  obtain ⟨hlen, hnodup, hpad⟩ := base64Table_facts
  have hn : n.toNat < base64Table.length := by omega
  have hchar : base64Char n = base64Table[n.toNat] := by
    rw [base64Char, List.getD_eq_getElem?_getD, List.getElem?_eq_getElem hn, Option.getD_some]
  have hne : base64Char n ≠ '=' := fun he => hpad (by rw [← he, hchar]; exact List.getElem_mem hn)
  have hidx : base64Table.idxOf? (base64Char n) = some n.toNat := by
    refine List.idxOf?_eq_some_iff.mpr ⟨hn, hchar.symm, fun j hj he => ?_⟩
    rw [hchar, hnodup.getElem_inj_iff] at he
    omega
  refine ⟨?_, hne⟩
  rw [base64Value, if_neg hne, hidx, Option.map_some, UInt8.ofNat_toNat]

/-! ### Encoding -/

theorem encodeInto_eq (src : List UInt8) (out : Buffer Char) :
    encodeInto src out = out.pushAll (base64Encode src) := by
  fun_induction encodeInto src out with
  | case1 out => rfl
  | case2 out a => simp [base64Encode, Buffer.pushAll]
  | case3 out a b => simp [base64Encode, Buffer.pushAll]
  | case4 out a b c rest ih => simp [base64Encode, Buffer.pushAll, ih]

theorem base64Encode_length (src : List UInt8) :
    (base64Encode src).length = (src.length + 2) / 3 * 4 := by
  fun_induction base64Encode src with
  | case1 => rfl
  | case2 a => simp
  | case3 a b => simp
  | case4 a b c rest ih =>
    simp only [List.length_cons, ih]
    omega

/-- The formula for the size leaves room for the text and its terminator. -/
theorem encodeSize_spec {s : SizeT} {len : Nat} (h : len * 4 < s.max) :
    (len + 2) / 3 * 4 + 1 ≤ encodeSize s len := by
  have hlarge := s.large
  have hwrap : encodeSize s len = len * 4 / 3 + 4 + (len * 4 / 3 + 4) / 72 + 1 := by
    rw [encodeSize, SizeT.wrap_of_le (n := len * 4) (by omega),
      SizeT.wrap_of_le (n := len * 4 / 3 + 4) (by omega), SizeT.wrap_of_le
      (n := len * 4 / 3 + 4 + (len * 4 / 3 + 4) / 72) (by omega), SizeT.wrap_of_le (by omega)]
  omega

/-- **The encoder stays in its buffer.** -/
theorem encode_in_bounds {s : SizeT} {src : List UInt8} (h : src.length * 4 < s.max) :
    base64EncodeC s src = some (base64Encode src ++ ['\x00']) := by
  have hsize := encodeSize_spec h
  have hlen := base64Encode_length src
  obtain ⟨out, hout, hstored, hroom⟩ := Buffer.pushAll_fits
    (b := Buffer.malloc (encodeSize s src.length)) (base64Encode src ++ ['\x00'])
    (by simp [Buffer.malloc]; omega)
  rw [Buffer.pushAll_append] at hout
  obtain ⟨mid, hmid, hlast⟩ := Option.bind_eq_some_iff.mp hout
  have hpush : mid.push '\x00' = some out := by
    simpa [Buffer.pushAll] using hlast
  rw [base64EncodeC, encodeInto_eq, hmid]
  simp [hpush, hstored, Buffer.malloc]

/-! ### Decoding -/

/-- What of the input counts. -/
def sextets (src : Text) : List Sextet := src.filterMap fun c => (base64Value c).map fun v => (c, v)

/-- The bytes of the last whole block. -/
def lastBlock : List Sextet → Text → Text
  | x :: y :: z :: w :: rest, _ => lastBlock rest [x.1, y.1, z.1, w.1]
  | _, last => last

theorem pushAll_three (out : Buffer UInt8) (a b c : UInt8) (rest : List UInt8) :
    (do
      let out ← out.push a
      let out ← out.push b
      let out ← out.push c
      out.pushAll rest) = out.pushAll (a :: b :: c :: rest) := by
  simp [Buffer.pushAll]

/-- The loop stores the blocks in order. -/
theorem decodeInto_eq (src : Text) (block : List Sextet) (last : Text) (out : Buffer UInt8)
    (hblock : block.length < 4) :
    decodeInto src block last out =
      (out.pushAll (base64Blocks ((block ++ sextets src).map Prod.snd))).map fun out =>
        (lastBlock (block ++ sextets src) last, out) := by
  fun_induction decodeInto src block last out with
  | case1 block last out =>
    match block, hblock with
    | [], _ | [_], _ | [_, _], _ | [_, _, _], _ => rfl
  | case2 c src block last out hnone ih => simpa [sextets, hnone] using ih hblock
  | case3 c src block last out v hv x y z w hfull ih =>
    have hsplit : block ++ sextets (c :: src) = x :: y :: z :: w :: sextets src := by
      have hcons : sextets (c :: src) = (c, v) :: sextets src := by simp [sextets, hv]
      rw [hcons, List.append_cons, hfull]
      rfl
    rw [hsplit]
    simp only [List.map_cons, base64Blocks, lastBlock, ← pushAll_three]
    cases out.push ((x.2 <<< 2) ||| (y.2 >>> 4)) with
    | none => rfl
    | some o1 =>
      simp only [Option.bind_eq_bind, Option.bind_some]
      cases o1.push ((y.2 <<< 4) ||| (z.2 >>> 2)) with
      | none => rfl
      | some o2 =>
        simp only [Option.bind_some]
        cases o2.push ((z.2 <<< 6) ||| w.2) with
        | none => rfl
        | some o3 => simpa using ih o3 (by simp)
  | case4 c src block last out v hv hfew ih =>
    have hcons : sextets (c :: src) = (c, v) :: sextets src := by simp [sextets, hv]
    have hlen : (block ++ [(c, v)]).length < 4 := by
      match block, hblock with
      | [], _ | [_], _ | [_, _], _ => simp
      | [x, y, z], _ => exact absurd rfl (hfew x y z (c, v))
    have happend : block ++ (c, v) :: sextets src = block ++ [(c, v)] ++ sextets src := by simp
    rw [hcons, happend]
    exact ih hlen

theorem sextets_spec (src : Text) :
    (sextets src).map Prod.fst = src.filter (fun c => (base64Value c).isSome) ∧
      (sextets src).map Prod.snd =
        (src.filter fun c => (base64Value c).isSome).filterMap base64Value := by
  induction src with
  | nil => exact ⟨rfl, rfl⟩
  | cons c src ih =>
    cases hv : base64Value c with
    | none => simpa [sextets, hv] using ih
    | some v => simpa [sextets, hv] using ih

theorem base64Blocks_length (vs : List UInt8) : (base64Blocks vs).length = vs.length / 4 * 3 := by
  fun_induction base64Blocks vs with
  | case1 a b c d rest ih =>
    simp only [List.length_cons, ih]
    omega
  | case2 vs hfew =>
    match vs, hfew with
    | [], _ | [_], _ | [_, _], _ | [_, _, _], _ => simp
    | a :: b :: c :: d :: rest, hfew => exact absurd rfl (hfew a b c d rest)

/-- The last block of whole blocks is their end. -/
theorem lastBlock_spec (xs : List Sextet) (last : Text) (hwhole : xs.length % 4 = 0) (hne : xs ≠ []) :
    (lastBlock xs last)[2]? = (xs.map Prod.fst)[xs.length - 2]? ∧
      (lastBlock xs last)[3]? = (xs.map Prod.fst).getLast? := by
  fun_induction lastBlock xs last with
  | case1 x y z w rest last ih =>
    by_cases hrest : rest = []
    · subst hrest
      exact ⟨rfl, rfl⟩
    · have hlen : rest.length % 4 = 0 := by
        simp only [List.length_cons] at hwhole
        omega
      have hpos : 0 < rest.length := List.length_pos_iff.mpr hrest
      obtain ⟨h2, h3⟩ := ih hlen hrest
      rw [h2, h3]
      constructor
      · have hidx : (x :: y :: z :: w :: rest).length - 2 = rest.length - 2 + 4 := by
          simp only [List.length_cons]
          omega
        rw [hidx]
        rfl
      · cases rest with
        | nil => exact absurd rfl hrest
        | cons v rest => simp
  | case2 xs last hfew =>
    match xs, hfew with
    | [], _ => exact absurd rfl hne
    | [_], _ | [_, _], _ | [_, _, _], _ => simp at hwhole
    | x :: y :: z :: w :: rest, hfew => exact absurd rfl (hfew x y z w rest)

/-- The padding is told by the last block, or by the end of what was kept. -/
theorem unpadded_spec {src kept : Text} (hkept : (sextets src).map Prod.fst = kept)
    (hwhole : kept.length % 4 = 0) (stored : List UInt8)
    (hstored : stored.length = kept.length / 4 * 3) : unpadded (lastBlock (sextets src) []) stored =
      stored.take (stored.length -
        if kept[kept.length - 2]? = some '=' then 2 else if kept.getLast? = some '=' then 1 else 0) := by
  have hlen : (sextets src).length = kept.length := by rw [← hkept, List.length_map]
  by_cases hnil : kept = []
  · have hempty : stored = [] := List.length_eq_zero_iff.mp (by rw [hstored, hnil]; rfl)
    simp [unpadded, hempty]
  · have hpos : 0 < kept.length := List.length_pos_iff.mpr hnil
    have hne : stored ≠ [] := fun h => by
      rw [h, List.length_nil] at hstored
      omega
    obtain ⟨h2, h3⟩ := lastBlock_spec (sextets src) [] (by omega) (fun h => by
      rw [h, List.length_nil] at hlen
      omega)
    rw [hkept, hlen] at h2
    rw [hkept] at h3
    rw [unpadded, if_neg hne, h2, h3]
    split
    · rfl
    · split
      · rfl
      · simp

/-- **The decoder stays in its buffer.** -/
theorem decode_in_bounds (src : Text) : base64DecodeC src = some (base64Decode src) := by
  obtain ⟨hkept, hvalues⟩ := sextets_spec src
  simp only [base64DecodeC, base64Decode]
  generalize hk : (src.filter fun c => (base64Value c).isSome) = kept at hkept hvalues
  have hcount : (sextets src).length = kept.length := by rw [← hkept, List.length_map]
  by_cases hwhole : kept.length % 4 = 0
  · have hblocks : (base64Blocks ((sextets src).map Prod.snd)).length = kept.length / 4 * 3 := by
      rw [base64Blocks_length, List.length_map, hcount]
    obtain ⟨out, hout, hstored, -⟩ := Buffer.pushAll_fits
      (b := Buffer.malloc (kept.length / 4 * 3)) (base64Blocks ((sextets src).map Prod.snd))
      (by simp [Buffer.malloc, hblocks])
    have hloop := decodeInto_eq src [] [] (.malloc (kept.length / 4 * 3)) (by simp)
    rw [List.nil_append, hout] at hloop
    have hbytes : out.stored = base64Blocks (kept.filterMap base64Value) := by
      rw [hstored, hvalues]
      rfl
    have hpads := unpadded_spec hkept hwhole out.stored (by rw [hbytes, ← hvalues, hblocks])
    rw [if_neg (by omega), if_neg (by omega), hloop, Option.map_some, Option.map_some, hpads, hbytes]
  · rw [if_pos (by omega), if_pos (by omega)]

/-! ### The round trip -/

/-- Bit by bit, three bytes come out of their four sextets. -/
theorem sextet_bytes (a b c : UInt8) :
    ((a >>> 2) <<< 2) ||| ((((a &&& 0x03) <<< 4) ||| (b >>> 4)) >>> 4) = a ∧
    ((((a &&& 0x03) <<< 4) ||| (b >>> 4)) <<< 4) ||| ((((b &&& 0x0f) <<< 2) ||| (c >>> 6)) >>> 2) = b ∧
    ((((b &&& 0x0f) <<< 2) ||| (c >>> 6)) <<< 6) ||| (c &&& 0x3f) = c := by
  refine ⟨?_, ?_, ?_⟩
  all_goals
    apply UInt8.toBitVec_inj.mp
    apply BitVec.eq_of_getLsbD_eq
    intro i hi
    simp
    interval_cases i <;> simp

theorem or_small {a b : UInt8} (ha : a.toNat < 64) (hb : b.toNat < 64) : (a ||| b).toNat < 64 := by
  rw [UInt8.toNat_or]
  exact Nat.or_lt_two_pow (n := 6) ha hb

theorem shifts_small (a : UInt8) :
    (a >>> 2).toNat < 64 ∧ ((a &&& 0x03) <<< 4).toNat < 64 ∧ (a >>> 4).toNat < 64 ∧
      ((a &&& 0x0f) <<< 2).toNat < 64 ∧ (a >>> 6).toNat < 64 ∧ (a &&& 0x3f).toNat < 64 := by
  have ha := a.toNat_lt
  have h3 : a.toNat &&& 3 ≤ 3 := Nat.and_le_right
  have h15 : a.toNat &&& 15 ≤ 15 := Nat.and_le_right
  have h63 : a.toNat &&& 63 ≤ 63 := Nat.and_le_right
  simp [Nat.shiftRight_eq_div_pow, Nat.shiftLeft_eq]
  omega

/-- How many bytes of the last block are padding. -/
def padding (kept : Text) : Nat :=
  if kept[kept.length - 2]? = some '=' then 2 else if kept.getLast? = some '=' then 1 else 0

theorem padding_block (c0 c1 c2 c3 : Char) {rest : Text} (hrest : rest.length % 4 = 0) :
    padding (c0 :: c1 :: c2 :: c3 :: rest) = if rest = [] then padding [c0, c1, c2, c3]
    else padding rest := by
  cases rest with
  | nil => rfl
  | cons d rest =>
    have hidx : (c0 :: c1 :: c2 :: c3 :: d :: rest).length - 2 = (d :: rest).length - 2 + 4 := by
      simp only [List.length_cons] at hrest ⊢
      omega
    rw [padding, hidx]
    simp [padding]

/-- The blocks of an encoded text are its bytes, and what the padding takes off again. -/
theorem encoded_blocks (src : List UInt8) :
    (∀ c ∈ base64Encode src, (base64Value c).isSome = true) ∧
      ∃ extra, base64Blocks ((base64Encode src).filterMap base64Value) = src ++ extra ∧
        padding (base64Encode src) = extra.length := by
  have hpad : base64Value '=' = some 0 := by simp [base64Value]
  fun_induction base64Encode src with
  | case1 => exact ⟨by simp, [], by simp [base64Blocks], rfl⟩
  | case2 a =>
    obtain ⟨s1, s2, -⟩ := shifts_small a
    obtain ⟨h1, -⟩ := base64_char s1
    obtain ⟨h2, -⟩ := base64_char s2
    obtain ⟨e1, -⟩ := sextet_bytes a 0 0
    refine ⟨by simp [h1, h2, hpad], ?_⟩
    refine ⟨[(((a &&& 0x03) <<< 4) <<< 4) ||| ((0 : UInt8) >>> 2), ((0 : UInt8) <<< 6) ||| 0], ?_,
      by simp [padding]⟩
    simpa [h1, h2, hpad, base64Blocks] using e1
  | case3 a b =>
    obtain ⟨s1, s2, -⟩ := shifts_small a
    obtain ⟨-, -, s3, s4, -⟩ := shifts_small b
    obtain ⟨h1, -⟩ := base64_char s1
    obtain ⟨h2, -⟩ := base64_char (or_small s2 s3)
    obtain ⟨h3, n3⟩ := base64_char s4
    obtain ⟨e1, e2, -⟩ := sextet_bytes a b 0
    refine ⟨by simp [h1, h2, h3, hpad], [(((b &&& 0x0f) <<< 2) <<< 6) ||| (0 : UInt8)], ?_,
      by simp [padding, n3]⟩
    have hblocks := And.intro e1 e2
    simpa [h1, h2, h3, hpad, base64Blocks] using hblocks
  | case4 a b c rest ih =>
    obtain ⟨s1, s2, -⟩ := shifts_small a
    obtain ⟨-, -, s3, s4, -⟩ := shifts_small b
    obtain ⟨-, -, -, -, s5, s6⟩ := shifts_small c
    obtain ⟨h1, -⟩ := base64_char s1
    obtain ⟨h2, -⟩ := base64_char (or_small s2 s3)
    obtain ⟨h3, n3⟩ := base64_char (or_small s4 s5)
    obtain ⟨h4, n4⟩ := base64_char s6
    obtain ⟨e1, e2, e3⟩ := sextet_bytes a b c
    obtain ⟨hsome, extra, hblocks, hextra⟩ := ih
    refine ⟨by simpa [h1, h2, h3, h4] using hsome, extra, ?_, ?_⟩
    · simp [h1, h2, h3, h4, base64Blocks, hblocks, e1, e2, e3]
    · rw [padding_block _ _ _ _ (by rw [base64Encode_length]; omega)]
      split
      · rename_i hnil
        rw [hnil] at hextra
        rw [← hextra]
        simp [padding, n3, n4]
      · exact hextra

/-- **Decoding undoes encoding.** -/
theorem base64_roundtrip (src : List UInt8) : base64Decode (base64Encode src) = some src := by
  obtain ⟨hsome, extra, hblocks, hpadding⟩ := encoded_blocks src
  have hkept : (base64Encode src).filter (fun c => (base64Value c).isSome) = base64Encode src :=
    List.filter_eq_self.mpr hsome
  have hwhole : (base64Encode src).length % 4 = 0 := by rw [base64Encode_length]; omega
  have hpads : (if (base64Encode src)[(base64Encode src).length - 2]? = some '=' then 2
      else if (base64Encode src).getLast? = some '=' then 1 else 0) = extra.length := hpadding
  simp only [base64Decode, hkept, hblocks, hpads]
  rw [if_neg (by omega)]
  simp

end Tcos.Xmlrpc
