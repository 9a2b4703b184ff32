import Tcos.Xmlrpc.Xauth

/-! Which servernames pass for addresses.

`check_ip_address` prints back what `sscanf` read and compares. `isIp_iff` says that this
accepts exactly four printed integers, whatever the stack held, and
`address_exact_iff` when that is an IPv4 address. -/
namespace Tcos.Xmlrpc
open Shell (Text lit)
open Libc

/-! ### Addresses -/

/-- The four numbers of an IPv4 address. -/
abbrev Quad := UInt8 × UInt8 × UInt8 × UInt8

def Quad.numbers : Quad → List Nat
  | (a, b, c, d) => [a.toNat, b.toNat, c.toNat, d.toNat]

/-- Decimal numbers without leading zeros, a dot between each two. -/
def Quad.text (q : Quad) : Text := List.intercalate ['.'] (q.numbers.map (Nat.toDigits 10))

def IsAddress (s : Text) : Prop := ∃ q : Quad, s = q.text

/-- Exactly the addresses pass, as they are, and `handle_xauth` opens another display than
that of the own name only for an address. -/
structure AddressExact (stack : Stack) (s : Text) : Prop where
  isIp : (checkIpAddress stack s).isIp = true ↔ IsAddress s
  ipstr : IsAddress s → (checkIpAddress stack s).ipstr = s
  host : ∀ (e : Env) (cookie display : Text), e.xauthStack = stack →
    (handleXauth e cookie s).display = some display →
      display = e.hostname.name ++ lit ":0" ∨ IsAddress s ∧ display = s ++ lit ":0"

/-! ### What is read is what was printed -/

/-- **A printed `int` is read back.** -/
theorem strtol_decimal {n : Int} (h : IsInt n) {rest : Text}
    (hrest : ∀ c ∈ rest.head?, c.isDigit = false) : strtol (decimal n ++ rest) = some (n, rest) := by
  have hdigits := toDigits_digit n.natAbs
  have hvalue : Nat.ofDigitChars 10 (Nat.toDigits 10 n.natAbs) 0 = n.natAbs :=
    Nat.ofDigitChars_ten_toDigits
  have hlong : toLong n = n := by
    unfold IsInt at h
    unfold toLong
    omega
  obtain ⟨htake, hdrop⟩ := digits_read hdigits hrest
  obtain ⟨c, t, ht⟩ := List.exists_cons_of_ne_nil (Nat.toDigits_ne_nil (b := 10) (n := n.natAbs))
  have hc := hdigits c (by simp [ht])
  by_cases hneg : n < 0
  · have habs : -|n| = n := by rw [abs_of_neg hneg, neg_neg]
    have hminus : isSpace '-' = false := by decide
    simp [strtol, decimal, hneg, hminus, htake, hdrop, hvalue, Nat.toDigits_ne_nil, habs, hlong]
  · have habs : (n.natAbs : Int) = n := by omega
    have hplain : isSpace c = false ∧ c ≠ '-' ∧ c ≠ '+' := by
      refine ⟨isSpace_of_isDigit hc, ?_, ?_⟩ <;> (rintro rfl; exact absurd hc (by decide))
    have hbody : (decimal n ++ rest).dropWhile isSpace = c :: (t ++ rest) := by
      simp [decimal, hneg, ht, hplain]
    rw [ht, List.cons_append] at htake hdrop
    simp only [strtol, hbody, List.head?_cons, Option.some_beq_some, beq_eq_false_iff_ne.mpr hplain.2.1,
      beq_eq_false_iff_ne.mpr hplain.2.2, Bool.or_false, Bool.false_eq_true, if_false, htake, hdrop]
    rw [← ht, hvalue, habs, hlong, ht]
    rfl

theorem scanDotted_cons {n : Int} (h : IsInt n) (k : Nat) (s : Text) :
    scanDotted (k + 1) (decimal n ++ '.' :: s) = n :: scanDotted k s := by
  have hint : toInt n = n := by
    unfold IsInt at h
    unfold toInt
    omega
  rw [scanDotted, strtol_decimal h (by simp)]
  simp [hint]

theorem scanDotted_last {n : Int} (h : IsInt n) (k : Nat) : scanDotted (k + 1) (decimal n) = [n] := by
  have hint : toInt n = n := by
    unfold IsInt at h
    unfold toInt
    omega
  have hread : strtol (decimal n ++ []) = some (n, []) := strtol_decimal h (by simp)
  rw [List.append_nil] at hread
  simp [scanDotted, hread, hint]

/-- **Four printed integers are read back.** -/
theorem scanDotted_dotted {d : List Int} (hl : d.length = 4) (hd : ∀ v ∈ d, IsInt v) : scanDotted 4
    (dotted d) = d := by
  match d, hl with
  | [a, b, c, e], _ =>
    have hform : dotted [a, b, c, e] =
        decimal a ++ '.' :: (decimal b ++ '.' :: (decimal c ++ '.' :: decimal e)) := by
      simp [dotted, List.intercalate, List.intersperse]
    rw [hform, scanDotted_cons (hd a (by simp)), scanDotted_cons (hd b (by simp)),
      scanDotted_cons (hd c (by simp)), scanDotted_last (hd e (by simp))]

/-- **What passes is four printed integers, whatever the stack held.** -/
theorem isIp_iff (stack : Stack) (s : Text) : (checkIpAddress stack s).isIp = true ↔
    ∃ d : List Int, d.length = 4 ∧ (∀ v ∈ d, IsInt v) ∧ s = dotted d := by
  constructor
  · intro h
    obtain ⟨hlen, hint⟩ := ipFields stack s
    refine ⟨_, hlen, hint, ?_⟩
    have hshort := (dotted_spec hlen hint).1
    have hcut : (checkIpAddress stack s).ipstr = dotted (checkIpAddress stack s).data :=
      cut_of_fits (Nat.lt_of_le_of_lt hshort (by decide))
    rw [← hcut, (isIp_spec h).1]
  · rintro ⟨d, hlen, hint, rfl⟩
    have hread := scanDotted_dotted hlen hint
    have hfits : cut 1024 (dotted d) = dotted d :=
      cut_of_fits (Nat.lt_of_le_of_lt (dotted_spec hlen hint).1 (by decide))
    simp [checkIpAddress, hread, hlen, hfits]

theorem dotted_injective {d d' : List Int} (hl : d.length = 4) (hd : ∀ v ∈ d, IsInt v)
    (hl' : d'.length = 4) (hd' : ∀ v ∈ d', IsInt v) (h : dotted d = dotted d') : d = d' := by
  rw [← scanDotted_dotted hl hd, h, scanDotted_dotted hl' hd']

/-! ### Addresses among them -/

theorem quad_text (q : Quad) : q.text = dotted (q.numbers.map Int.ofNat) := by
  rw [Quad.text, dotted, List.map_map]
  congr 2

/-- The numbers of an address are four bytes. -/
theorem quad_numbers (q : Quad) : q.numbers.length = 4 ∧ ∀ v ∈ q.numbers, v < 256 := by
  obtain ⟨a, b, c, d⟩ := q
  have h := fun n : UInt8 => n.toNat_lt
  refine ⟨rfl, ?_⟩
  simpa [Quad.numbers] using ⟨h a, h b, h c, h d⟩

/-- Four printed integers are an address if each is a byte. -/
theorem isAddress_iff {d : List Int} (hl : d.length = 4) (hd : ∀ v ∈ d, IsInt v) :
    IsAddress (dotted d) ↔ ∀ v ∈ d, 0 ≤ v ∧ v ≤ 255 := by
  constructor
  · rintro ⟨q, hq⟩
    obtain ⟨hlen, hbytes⟩ := quad_numbers q
    rw [quad_text] at hq
    have hsame : d = q.numbers.map Int.ofNat := by
      refine dotted_injective hl hd (by simpa using hlen) ?_ hq
      intro v hv
      obtain ⟨n, hn, rfl⟩ := List.mem_map.mp hv
      have := hbytes n hn
      simp only [IsInt, Int.ofNat_eq_natCast]
      omega
    rw [hsame]
    intro v hv
    obtain ⟨n, hn, rfl⟩ := List.mem_map.mp hv
    have := hbytes n hn
    simp only [Int.ofNat_eq_natCast]
    omega
  · intro h
    match d, hl with
    | [a, b, c, e], _ =>
      have hbyte : ∀ v : Int, 0 ≤ v ∧ v ≤ 255 → ((UInt8.ofNat v.toNat).toNat : Int) = v := by
        rintro v ⟨h0, h1⟩
        simp
        omega
      refine ⟨(UInt8.ofNat a.toNat, UInt8.ofNat b.toNat, UInt8.ofNat c.toNat, UInt8.ofNat e.toNat), ?_⟩
      rw [quad_text]
      simp only [Quad.numbers, List.map_cons, List.map_nil, Int.ofNat_eq_natCast]
      rw [hbyte a (h a (by simp)), hbyte b (h b (by simp)), hbyte c (h c (by simp)),
        hbyte e (h e (by simp))]

/-- An address passes. -/
theorem IsAddress.passes {s : Text} (h : IsAddress s) (stack : Stack) :
    (checkIpAddress stack s).isIp = true := by
  obtain ⟨q, rfl⟩ := h
  obtain ⟨hlen, hbytes⟩ := quad_numbers q
  rw [isIp_iff]
  refine ⟨q.numbers.map Int.ofNat, by simpa using hlen, fun v hv => ?_, quad_text q⟩
  obtain ⟨n, hn, rfl⟩ := List.mem_map.mp hv
  have := hbytes n hn
  simp only [IsInt, Int.ofNat_eq_natCast]
  omega

/-- The display that is opened names the servername, or nothing is opened. -/
theorem display_named {e : Env} {cookie s display : Text}
    (h : (handleXauth e cookie s).display = some display) : Named e s ∧ display = s ++ lit ":0" := by
  by_cases hnamed : Named e s
  · rw [handleXauth_named hnamed] at h
    refine ⟨hnamed, ?_⟩
    cases hm : e.mkstemp <;> simp [hm] at h
    exact h.symm
  · rw [handleXauth_unnamed hnamed] at h
    simp at h

/-- **Exactly the addresses pass if a text of four printed integers has bytes for them.** -/
theorem address_exact_iff (stack : Stack) (s : Text) : AddressExact stack s ↔
    ∀ d : List Int, d.length = 4 → (∀ v ∈ d, IsInt v) → s = dotted d → ∀ v ∈ d, 0 ≤ v ∧ v ≤ 255 := by
  constructor
  · rintro h d hl hd rfl
    exact (isAddress_iff hl hd).mp (h.isIp.mp ((isIp_iff ..).mpr ⟨d, hl, hd, rfl⟩))
  · intro h
    have hiff : (checkIpAddress stack s).isIp = true ↔ IsAddress s := by
      refine ⟨fun hip => ?_, fun haddress => haddress.passes stack⟩
      obtain ⟨d, hl, hd, rfl⟩ := (isIp_iff ..).mp hip
      exact (isAddress_iff hl hd).mpr (h d hl hd rfl)
    refine ⟨hiff, fun haddress => (isIp_spec (haddress.passes stack)).1, ?_⟩
    rintro e cookie display rfl hdisplay
    obtain ⟨hnamed, rfl⟩ := display_named hdisplay
    rcases hnamed with hip | rfl
    · exact .inr ⟨hiff.mp hip, rfl⟩
    · exact .inl rfl

/-- A number above 255 passes. -/
theorem large_number_passes : ¬ AddressExact (0, 0, 0, 0) (lit "1.2.3.256") := by
  intro h
  have hip : (checkIpAddress (0, 0, 0, 0) (lit "1.2.3.256")).isIp = true := by with_unfolding_all decide
  have hdotted : lit "1.2.3.256" = dotted [1, 2, 3, 256] := by with_unfolding_all decide
  have haddress := h.isIp.mp hip
  rw [hdotted, isAddress_iff rfl (by simp [IsInt])] at haddress
  exact absurd (haddress 256 (by simp)).2 (by decide)

end Tcos.Xmlrpc
