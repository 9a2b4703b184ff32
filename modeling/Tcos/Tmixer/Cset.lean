import Tcos.Libc.Printed
import Tcos.Tmixer.Sset

/-! `cset` of tmixer: the values of a control, printed and written back.

`cget` prints the values of a control with commas between; `cset` takes such a text. `cset_shown` says
what becomes of each value: numbers are kept as far as the range allows, switches are, bytes are lost
because their hexadecimal form is read as a decimal one, and after 128 values nothing is read. -/
namespace Tcos.Tmixer.Cset
open Shell (Text lit)
open Libc (atoi decimal strtol)

/-! ### Controls -/

inductive Kind where
  | boolean
  | integer
  | integer64
  | enumerated
  | bytes
  deriving DecidableEq, Repr

/-- What the library says of a control. -/
structure Info where
  kind : Kind
  min : Int
  max : Int
  /-- The names of the items. -/
  items : List Text

section Script
variable {σ : Type} (L : Library σ)

/-- The number and what follows it; get_integer64 is the same with a wider type. -/
def getInteger (ptr : Text) (min max : Int) : Int × Text :=
  let s := skipOne (· == ':') ptr
  if (s.head?.map fun c => c.isDigit || c == '-').getD false then
    let read := (strtol s).getD (0, s)
    let p := if read.2.head? = some '.' then ((strtol read.2.tail).map Prod.snd).getD read.2.tail
      else read.2
    let r := if p.head? = some '%' then (L.convertPrange1 (strtod s) min max, p.tail) else (read.1, p)
    (L.checkRange r.1 min max, skipOne (· == ',') r.2)
  else (min, s)

/-- The item that is named up to a comma or the end, and what follows. -/
def getCtlEnumItemIndex (items : List Text) (ptr : Text) : Option (Nat × Text) :=
  items.zipIdx.findSome? fun x =>
    if x.1.isPrefixOf ptr then
      match ptr.drop x.1.length with
      | [] => some (x.2, [])
      | c :: rest => if c = ',' ∨ c = '\n' then some (x.2, c :: rest) else none
    else none

/-- The new value at one place, and what follows its text. -/
def setOne (info : Info) (old : Int) (ptr : Text) : Int × Text :=
  match info.kind with
  | .boolean =>
    if startsCase (lit "on") ptr || startsCase (lit "up") ptr then (1, ptr.drop 2)
    else if startsCase (lit "yes") ptr then (1, ptr.drop 3)
    else if startsCase (lit "toggle") ptr then (if old > 0 then 0 else 1, ptr.drop 6)
    else if (ptr.head?.map Char.isDigit).getD false then
      (if atoi ptr > 0 then 1 else 0, ptr.dropWhile Char.isDigit)
    else (0, ptr.dropWhile (· != ','))
  | .integer | .integer64 => getInteger L ptr info.min info.max
  | .enumerated =>
    match getCtlEnumItemIndex info.items ptr with
    | some (i, rest) => (i, rest)
    -- the number of items is unsigned
    | none => getInteger L ptr 0 (if info.items = [] then 2 ^ 32 - 1 else info.items.length - 1)
  | .bytes => getInteger L ptr 0 255

/-- The loop, for so many values more. -/
def setValues (info : Info) (arg : Text) : Nat → List Int → Text → List Int
  | _, [], _ => []
  | 0, control, _ => control
  | _, control, [] => control
  | n + 1, old :: control, c :: ptr =>
    let r := setOne L info old (c :: ptr)
    let next := if arg.contains ',' then skipOne (· == ',') r.2 else arg
    r.1 :: setValues info arg n control next

def maxValues : Nat := 128

/-- The values that are written; they start out as zeros. -/
def cset (info : Info) (count : Nat) (arg : Text) : List Int :=
  setValues L info arg maxValues (List.replicate count 0) arg

end Script

/-! ### What is shown -/

/-- `0x%02x`. -/
def showByte (v : Int) : Text :=
  lit "0x" ++ [Nat.digitChar (v.toNat / 16), Nat.digitChar (v.toNat % 16)]

def showOne (info : Info) (v : Int) : Text :=
  match info.kind with
  | .boolean => if v ≠ 0 then lit "on" else lit "off"
  | .integer | .integer64 => decimal v
  | .enumerated => Nat.toDigits 10 v.toNat
  | .bytes => showByte v

def showValues (info : Info) (vs : List Int) : Text := [','].intercalate (vs.map (showOne info))

/-- The values that a control can have. -/
def Info.Holds (info : Info) (v : Int) : Prop :=
  match info.kind with
  | .boolean => True
  | .integer | .integer64 => -2 ^ 63 ≤ v ∧ v < 2 ^ 63
  | .enumerated => 0 ≤ v ∧ v < 2 ^ 32
  | .bytes => 0 ≤ v ∧ v < 256

/-- What a value comes back as. -/
def restored {σ : Type} (L : Library σ) (info : Info) (v : Int) : Int :=
  match info.kind with
  | .boolean => if v ≠ 0 then 1 else 0
  | .integer | .integer64 => L.checkRange v info.min info.max
  | .enumerated =>
    match info.items.findIdx? (· = Nat.toDigits 10 v.toNat) with
    | some i => i
    | none => L.checkRange v 0 (if info.items = [] then 2 ^ 32 - 1 else info.items.length - 1)
  | .bytes => 0

/-! ### One value -/

section Value
variable {σ : Type} (L : Library σ) {info : Info} {v : Int} {rest : Text}

/-- Between two values, or at the end. -/
def IsRest (rest : Text) : Prop := rest = [] ∨ ∃ t, rest = ',' :: t ∧ t.head? ≠ some ','

theorem IsRest.digit (h : IsRest rest) : ∀ c ∈ rest.head?, c.isDigit = false := by
  rcases h with rfl | ⟨t, rfl, -⟩
  · simp
  · intro c hc
    rw [List.head?_cons, Option.mem_some_iff] at hc
    rw [← hc]
    rfl

/-- The comma is skipped once. -/
theorem IsRest.skip (h : IsRest rest) : skipOne (· == ',') rest = rest.tail ∧
    skipOne (· == ',') rest.tail = rest.tail := by
  rcases h with rfl | ⟨t, rfl, ht⟩
  · exact ⟨rfl, rfl⟩
  · refine ⟨rfl, ?_⟩
    rw [List.tail_cons]
    cases t with
    | nil => rfl
    | cons d t =>
      have hd : d ≠ ',' := by simpa using ht
      simp [skipOne, hd]

theorem head_decimal (n : Int) : ∃ c t, decimal n = c :: t ∧ (c.isDigit || c == '-') = true := by
  obtain ⟨c, t, ht⟩ := List.exists_cons_of_ne_nil (Libc.decimal_ne_nil n)
  refine ⟨c, t, ht, ?_⟩
  rcases Libc.decimal_chars n c (by simp [ht]) with h | rfl
  · simp [h]
  · rfl

/-- **A printed number is read back into the range.** -/
theorem getInteger_decimal (hlow : -2 ^ 63 ≤ v) (hhigh : v < 2 ^ 63) (hrest : IsRest rest) (min max : Int) :
    getInteger L (decimal v ++ rest) min max = (L.checkRange v min max, rest.tail) := by
  obtain ⟨c, t, ht, hc⟩ := head_decimal v
  have hcolon : (c == ':') = false := by
    rw [beq_eq_false_iff_ne]
    rintro rfl
    exact absurd hc (by decide)
  have hskip : skipOne (· == ':') (decimal v ++ rest) = decimal v ++ rest := by
    simp [skipOne, ht, hcolon]
  have hhead : ((decimal v ++ rest).head?.map fun c => c.isDigit || c == '-').getD false = true := by
    simpa [ht] using hc
  have hread := Libc.strtol_printed hlow hhigh hrest.digit
  have hplain : rest.head? ≠ some '.' ∧ rest.head? ≠ some '%' := by
    rcases hrest with rfl | ⟨t, rfl, -⟩ <;> simp
  rw [getInteger, hskip]
  simp only [hhead, if_true, hread, Option.getD_some, hplain, if_false, hrest.skip.1]

/-- One item against a printed number. -/
theorem prefix_digits {name : Text} (hname : ',' ∉ name) (k i : Nat) (hrest : IsRest rest) :
    (if name.isPrefixOf (Nat.toDigits 10 k ++ rest) then
      match (Nat.toDigits 10 k ++ rest).drop name.length with
      | [] => some (i, [])
      | c :: rest => if c = ',' ∨ c = '\n' then some (i, c :: rest) else none
    else none) = if name = Nat.toDigits 10 k then some (i, rest) else none := by
  by_cases heq : name = Nat.toDigits 10 k
  · have hpre : name.isPrefixOf (Nat.toDigits 10 k ++ rest) = true := by
      rw [List.isPrefixOf_iff_prefix, heq]
      exact List.prefix_append _ _
    rw [if_pos hpre, if_pos heq, ← heq, List.drop_left]
    rcases hrest with rfl | ⟨t, rfl, -⟩
    · rfl
    · simp
  · rw [if_neg heq]
    split
    case isFalse => rfl
    case isTrue hpre =>
      obtain ⟨s, hs⟩ := List.isPrefixOf_iff_prefix.mp hpre
      rw [← hs, List.drop_left]
      rcases List.append_eq_append_iff.mp hs with ⟨a, ha, rfl⟩ | ⟨a, ha, hrest'⟩
      · -- the name ends within the number
        obtain ⟨c, a, rfl⟩ := List.exists_cons_of_ne_nil (l := a) fun h => heq (by rw [ha, h]; simp)
        have hc := Libc.toDigits_digit k c (by simp [ha])
        have hne : ¬ (c = ',' ∨ c = '\n') := by
          rintro (rfl | rfl) <;> exact absurd hc (by decide)
        rw [List.cons_append]
        exact if_neg hne
      · -- the name has the comma in it
        obtain ⟨c, a, rfl⟩ := List.exists_cons_of_ne_nil (l := a) fun h => heq (by rw [ha, h]; simp)
        rcases hrest with rfl | ⟨t, rfl, -⟩
        · exact absurd hrest' (by simp)
        · obtain ⟨rfl, -⟩ := List.cons.inj hrest'
          exact absurd (by simp [ha]) hname

/-- The first item of this name. -/
theorem getCtlEnumItemIndex_digits {items : List Text} (hitems : ∀ n ∈ items, ',' ∉ n) (k : Nat)
    (hrest : IsRest rest) : getCtlEnumItemIndex items (Nat.toDigits 10 k ++ rest) =
      (items.findIdx? (· = Nat.toDigits 10 k)).map fun i => (i, rest) := by
  rw [getCtlEnumItemIndex, List.findIdx?_eq_findSome?_zipIdx, List.map_findSome?]
  have hitem : ∀ x ∈ items.zipIdx, ',' ∉ x.1 := fun x hx => hitems _ (List.fst_mem_of_mem_zipIdx hx)
  generalize items.zipIdx = l at hitem
  induction l with
  | nil => rfl
  | cons x l ih =>
    obtain ⟨hx, hl⟩ := List.forall_mem_cons.mp hitem
    rw [List.findSome?_cons, List.findSome?_cons, prefix_digits hx k x.2 hrest, ih hl]
    by_cases heq : x.1 = Nat.toDigits 10 k <;> simp [heq]

/-- **A value that is not a byte is read as it is printed.** -/
theorem setOne_shown (hkind : info.kind ≠ .bytes) (hv : info.Holds v)
    (hitems : ∀ n ∈ info.items, ',' ∉ n) (old : Int) (hrest : IsRest rest) :
    (setOne L info old (showOne info v ++ rest)).1 = restored L info v ∧
      skipOne (· == ',') (setOne L info old (showOne info v ++ rest)).2 = rest.tail := by
  obtain ⟨hskip, hagain⟩ := hrest.skip
  cases hk : info.kind with
  | boolean =>
    have hwords : startsCase (lit "on") (lit "off") = false ∧ startsCase (lit "up") (lit "off") = false ∧
        lit "on" = ['o', 'n'] ∧ lit "off" = ['o', 'f', 'f'] ∧ lit "up" = ['u', 'p'] ∧
          lit "yes" = ['y', 'e', 's'] ∧ lit "toggle" = ['t', 'o', 'g', 'g', 'l', 'e'] := by
      with_unfolding_all decide
    obtain ⟨-, -, hon, hoff, hup, hyes, htoggle⟩ := hwords
    have hdrop : rest.dropWhile (· != ',') = rest := by
      rcases hrest with rfl | ⟨t, rfl, -⟩ <;> simp
    by_cases hzero : v ≠ 0
    · simp [setOne, showOne, restored, hk, hzero, hon, startsCase, hskip]
    · simp [setOne, showOne, restored, hk, hzero, hon, hoff, hup, hyes, htoggle, startsCase, hdrop, hskip]
  | integer =>
    simp only [Info.Holds, hk] at hv
    simp only [setOne, showOne, restored, hk, getInteger_decimal L hv.1 hv.2 hrest, hagain, and_self]
  | integer64 =>
    simp only [Info.Holds, hk] at hv
    simp only [setOne, showOne, restored, hk, getInteger_decimal L hv.1 hv.2 hrest, hagain, and_self]
  | enumerated =>
    simp only [Info.Holds, hk] at hv
    have habs : (v.toNat : Int) = v := Int.toNat_of_nonneg hv.1
    have hdecimal : Nat.toDigits 10 v.toNat = decimal v := by rw [← Libc.decimal_nat, habs]
    have hnumber := fun max => getInteger_decimal L (by omega) (by omega : v < 2 ^ 63) hrest 0 max
    simp only [setOne, showOne, restored, hk, getCtlEnumItemIndex_digits hitems v.toNat hrest]
    cases info.items.findIdx? (· = Nat.toDigits 10 v.toNat) with
    | none => simp only [Option.map_none, hdecimal, hnumber, hagain, and_self]
    | some i => exact ⟨rfl, hskip⟩
  | bytes => exact absurd hk hkind

theorem showOne_head (info : Info) (v : Int) : ∃ c t, showOne info v = c :: t ∧ c ≠ ',' := by
  have hdigit : ∀ n : Int, ∃ c t, decimal n = c :: t ∧ c ≠ ',' := by
    intro n
    obtain ⟨c, t, ht, hc⟩ := head_decimal n
    refine ⟨c, t, ht, ?_⟩
    rintro rfl
    exact absurd hc (by decide)
  have hwords : lit "on" = ['o', 'n'] ∧ lit "off" = ['o', 'f', 'f'] ∧ lit "0x" = ['0', 'x'] := by
    with_unfolding_all decide
  obtain ⟨hon, hoff, hhex⟩ := hwords
  unfold showOne
  cases info.kind with
  | boolean => by_cases hzero : v = 0 <;> simp [hzero, hon, hoff]
  | integer => exact hdigit v
  | integer64 => exact hdigit v
  | enumerated => exact Libc.decimal_nat v.toNat ▸ hdigit v.toNat
  | bytes => exact ⟨'0', _, by rw [showByte, hhex]; rfl, by decide⟩

theorem showValues_cons (info : Info) (v : Int) (vs : List Int) : showValues info (v :: vs) =
    showOne info v ++ if vs = [] then [] else ',' :: showValues info vs := by
  cases vs with
  | nil => simp [showValues]
  | cons w vs => simp [showValues, List.intercalate_cons_cons]

/-- What follows a value. -/
theorem isRest_showValues (info : Info) (vs : List Int) :
    IsRest (if vs = [] then [] else ',' :: showValues info vs) := by
  cases vs with
  | nil => exact .inl rfl
  | cons v vs =>
    obtain ⟨c, t, ht, hc⟩ := showOne_head info v
    refine .inr ⟨showValues info (v :: vs), rfl, ?_⟩
    rw [showValues_cons, ht, List.cons_append, List.head?_cons]
    simpa using hc

theorem setValues_shown (hkind : info.kind ≠ .bytes) (hitems : ∀ n ∈ info.items, ',' ∉ n) {arg : Text}
    {vs : List Int} (hvs : ∀ v ∈ vs, info.Holds v) (harg : 2 ≤ vs.length → arg.contains ',' = true)
    (n : Nat) : setValues L info arg n (List.replicate vs.length 0) (showValues info vs) =
      (vs.take n).map (restored L info) ++ List.replicate (vs.length - n) 0 := by
  induction vs generalizing n with
  | nil => simp [setValues]
  | cons v vs ih =>
    obtain ⟨hv, hrest⟩ := List.forall_mem_cons.mp hvs
    obtain ⟨c, t, ht, -⟩ := showOne_head info v
    have hisrest := isRest_showValues info vs
    obtain ⟨hvalue, hnext⟩ := setOne_shown L hkind hv hitems 0 hisrest
    rw [List.length_cons, List.replicate_succ]
    cases n with
    | zero => simp [setValues, List.replicate_succ]
    | succ n =>
      have hstep : ∀ ptr : Text, ptr ≠ [] → setValues L info arg (n + 1)
          (0 :: List.replicate vs.length 0) ptr = (setOne L info 0 ptr).1 ::
            setValues L info arg n (List.replicate vs.length 0)
              (if arg.contains ',' then skipOne (· == ',') (setOne L info 0 ptr).2 else arg) := by
        intro ptr hptr
        obtain ⟨d, u, rfl⟩ := List.exists_cons_of_ne_nil hptr
        rfl
      rw [showValues_cons, hstep _ (by simp [ht]), hvalue, hnext, List.take_succ_cons, List.map_cons,
        List.cons_append, Nat.add_sub_add_right]
      congr 1
      by_cases hnil : vs = []
      · simp [hnil, setValues]
      · have hlong : 2 ≤ (v :: vs).length := by
          have := List.length_pos_iff.mpr hnil
          rw [List.length_cons]
          omega
        rw [if_pos (harg hlong), if_neg hnil, List.tail_cons]
        exact ih hrest (fun _ => harg hlong) n

/-- A text that is no number is not moved over. -/
theorem setValues_stuck (hkind : info.kind = .bytes) {arg ptr : Text} (harg : arg.contains ',' = true)
    (n count : Nat) : setValues L info arg n (List.replicate count 0) ('x' :: ptr) =
      List.replicate count 0 := by
  induction count generalizing n with
  | zero => simp [setValues]
  | succ count ih =>
    cases n with
    | zero => simp [setValues, List.replicate_succ]
    | succ n =>
      have hone : setOne L info 0 ('x' :: ptr) = (0, 'x' :: ptr) := by
        simp [setOne, hkind, getInteger, skipOne]
      have hskip : skipOne (· == ',') ('x' :: ptr) = 'x' :: ptr := rfl
      rw [List.replicate_succ, setValues, hone]
      simp only [harg, if_true, hskip, ih]

/-- **Bytes come back as zeros.** -/
theorem setValues_bytes (hkind : info.kind = .bytes) {arg : Text} {vs : List Int}
    (harg : 2 ≤ vs.length → arg.contains ',' = true) (n : Nat) :
    setValues L info arg n (List.replicate vs.length 0) (showValues info vs) =
      List.replicate vs.length 0 := by
  cases vs with
  | nil => simp [setValues]
  | cons v vs =>
    cases n with
    | zero => simp [setValues, List.replicate_succ]
    | succ n =>
      obtain ⟨t, ht⟩ : ∃ t, showValues info (v :: vs) = '0' :: 'x' :: t := by
        have hhex : lit "0x" = ['0', 'x'] := by with_unfolding_all decide
        rw [showValues_cons, showOne, hkind]
        simp only [showByte, hhex, List.cons_append]
        exact ⟨_, rfl⟩
      have hzero : ∀ (max : Int), L.checkRange 0 0 max = 0 ∨ max < 0 := by
        intro max
        unfold Library.checkRange
        split_ifs <;> omega
      have hrange : L.checkRange 0 0 255 = 0 := (hzero 255).resolve_right (by decide)
      have hread : strtol (decimal 0 ++ 'x' :: t) = some (0, 'x' :: t) :=
        Libc.strtol_printed (by decide) (by decide) (by simp)
      have hdecimal : decimal 0 = ['0'] := by decide
      rw [hdecimal, List.singleton_append] at hread
      have hone : setOne L info 0 ('0' :: 'x' :: t) = (0, 'x' :: t) := by
        simp [setOne, hkind, getInteger, skipOne, hread, hrange]
      rw [ht, List.length_cons, List.replicate_succ, setValues, hone]
      congr 1
      by_cases hnil : vs = []
      · simp [hnil, setValues]
      · have hlong : 2 ≤ (v :: vs).length := by
          have := List.length_pos_iff.mpr hnil
          rw [List.length_cons]
          omega
        rw [if_pos (harg hlong)]
        exact setValues_stuck L hkind (harg hlong) n vs.length

theorem contains_showValues (info : Info) {vs : List Int} (h : 2 ≤ vs.length) :
    (showValues info vs).contains ',' = true := by
  match vs, h with
  | v :: w :: vs, _ => simp [showValues_cons]

/-- **What is shown of a control and set again: 128 values, each as it is read.** -/
theorem cset_shown {vs : List Int} (hvs : ∀ v ∈ vs, info.Holds v) (hitems : ∀ n ∈ info.items, ',' ∉ n) :
    cset L info vs.length (showValues info vs) =
      (vs.take maxValues).map (restored L info) ++ List.replicate (vs.length - maxValues) 0 := by
  have harg := @contains_showValues info vs
  rw [cset]
  by_cases hkind : info.kind = .bytes
  · have hzero : restored L info = fun _ => 0 := by
      funext v
      rw [restored, hkind]
    have hlen : min maxValues vs.length + (vs.length - maxValues) = vs.length := by omega
    rw [setValues_bytes L hkind harg, hzero, List.map_const', List.length_take,
      List.replicate_append_replicate, hlen]
  · exact setValues_shown L hkind hitems hvs harg maxValues

end Value

/-- A library without elements. -/
def noElements : Library Unit where
  hasChannel _ _ := false
  hasVolume _ := false
  hasSwitch _ := false
  isSwitchJoined _ := false
  getRange _ _ := none
  getVolume _ _ _ _ := none
  setVolume _ _ _ _ _ := ((), false)
  getSwitch _ _ _ := false
  setSwitch _ _ _ _ := ((), false)
  convertPrange1 val min max := ⌈val * (max - min) / 100⌉ + min
  hundredths val := ⌊val * 100⌋
  noCheck := false
  ignoreError := false

/-- Of `5,40,-3` the last two leave the range. -/
theorem cset_shown_range : cset noElements ⟨.integer, 0, 31, []⟩ 3
    (showValues ⟨.integer, 0, 31, []⟩ [5, 40, -3]) = [5, 31, 0] :=
  (@cset_shown _ noElements ⟨.integer, 0, 31, []⟩ [5, 40, -3]
    (by simp [Info.Holds]) (by simp)).trans (by decide)

end Tcos.Tmixer.Cset
