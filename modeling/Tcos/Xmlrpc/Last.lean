import Tcos.Shell.Fields
import Tcos.Xmlrpc.Address

/-! Host names of sessions, as tcos-last cuts them.

`parseIPAddress` drops what looks like a display and prints an address in one way. `strips_iff` says
which displays it drops from an IPv4 address, and `idempotent_iff` of which texts it makes something
that it leaves alone. -/
namespace Tcos.Xmlrpc.Last
open Shell (Text lit)

/-! ### Patterns -/

/-- `$`: the end, or before the last newline. -/
def atEnd (p : Text → Bool) (t : Text) : Bool := p t || (t.getLast? == some '\n' && p t.dropLast)

/-- `[0-9]{1,9}`. -/
def isNumber (t : Text) : Bool := t.all Char.isDigit && decide (1 ≤ t.length) && decide (t.length ≤ 9)

/-- `[0-9]{1,9}.[0-9]{1,9}`. -/
def isPair (t : Text) : Bool := (List.range t.length).any fun i =>
  isNumber (t.take i) && t[i]? != some '\n' && isNumber (t.drop (i + 1))

/-- `[0-9{1-9}]`. -/
def isClass (c : Char) : Bool := c.isDigit || c == '\x7b' || c == '\x7d'

/-- `[0-9{1-9}].[0-9{1-9}]`. -/
def isScreen : Text → Bool
  | [a, b, c] => isClass a && b != '\n' && isClass c
  | _ => false

/-- `::([0-9]{1,9})$`. -/
def isGdm (t : Text) : Bool := (lit "::").isPrefixOf t && atEnd isNumber (t.drop 2)

/-- `:([0-9]{1,9}|[0-9]{1,9}.[0-9]{1,9})$`. -/
def isXephyr (t : Text) : Bool := t.head? == some ':' && atEnd (fun x => isNumber x || isPair x) t.tail

/-- `.*:([0-9]{1,9}|[0-9{1-9}].[0-9{1-9}])$`. -/
def hasDisplay : Text → Bool
  | [] => false
  | c :: t => (c == ':' && atEnd (fun x => isNumber x || isScreen x) t) || (c != '\n' && hasDisplay t)

/-- `.*:([0-9]{1,9})`. -/
def hasNumber : Text → Bool
  | [] => false
  | c :: t => (c == ':' && (t.head?.any Char.isDigit)) || (c != '\n' && hasNumber t)

/-- `[a-zA-Z].*:([0-9]{1,9})`. -/
def isNumbered (t : Text) : Bool := t.head?.any Char.isAlpha && hasNumber t.tail

/-- `^[a-zA-Z][a-zA-Z0-9.-]+$`. -/
def isHostname : Text → Bool :=
  atEnd fun t => t.head?.any Char.isAlpha && !t.tail.isEmpty && t.tail.all fun c =>
  c.isAlphanum || c == '.' || c == '-'

/-- `rsplit(":", 1)[0]`. -/
def rsplit (t : Text) : Text := if ':' ∈ t then (t.reverse.dropWhile (· != ':')).tail.reverse else t

/-! ### The parsers -/

/-- Two digits for a byte. -/
def hexlify (c : Char) : Text := [Nat.digitChar (c.toNat / 16), Nat.digitChar (c.toNat % 16)]

def isBin (txt : Text) : Bool :=
  if [lit "3a", lit "2e", lit "61", lit "62", lit "63", lit "64", lit "65", lit "66"].contains txt
    then false
  -- `int` of anything else is no number
  else if txt.all Char.isDigit then
    !(decide (30 ≤ Nat.ofDigitChars 10 txt 0) && decide (Nat.ofDigitChars 10 txt 0 ≤ 39))
  else true

/-- `ipaddr` and `IPy`; `none` where they raise. -/
structure Parsers (α : Type) where
  /-- `ipaddr.IPAddress(ipstr)`. -/
  ofText : Text → Option α
  /-- `ipaddr.IPAddress(IPy.parseAddress(...)[0])`. -/
  ofHex : Text → Option α
  str : α → Text
  version : α → Nat
  /-- `ipv4_mapped.exploded`. -/
  mapped : α → Option Text

section Parse
variable {α : Type} (A : Parsers α)

def Parsers.shown (ip : α) : Text := if A.version ip = 6 then (A.mapped ip).getD (A.str ip) else A.str ip

/-- What the parsers print. -/
def Parsers.read (ipstr : Text) : Option Text :=
  (if ipstr.any (fun it => isBin (hexlify it)) then A.ofHex (lit "0x" ++ ipstr.flatMap hexlify)
    else A.ofText ipstr).map A.shown

def cut (ipstr : Text) : Text := if hasDisplay ipstr then rsplit ipstr else ipstr

/-- With the display gone. -/
def afterDisplay (ipstr : Text) : Text :=
  if isNumbered ipstr then rsplit ipstr
  else if isHostname ipstr then ipstr
  else if ipstr = [] then []
  else (A.read ipstr).getD ipstr

def parseIPAddress (ipstr : Text) : Text :=
  if ipstr = lit "::1" then lit "127.0.0.1"
  else if isGdm ipstr then []
  else if isXephyr ipstr then []
  else afterDisplay A (cut ipstr)

/-- What GetLast makes of a session's host. -/
def utHost (host line : Text) : Text :=
  let uthost := parseIPAddress A host
  let half1 := uthost.take (uthost.length / 2)
  let half2 := uthost.drop (uthost.length / 2)
  if half1 = half2 ∧ parseIPAddress A half1 = parseIPAddress A line then half1 else uthost

/-- GetLast takes the session for one of this host. -/
def matchesHost (ip hostname host line : Text) : Bool :=
  parseIPAddress A (utHost A host line) == ip || parseIPAddress A (utHost A host line) == hostname

/-- An address as it is printed. -/
def isPrinted (c : Char) : Bool := c.isDigit || c == ':' || c == '.' || ('a' ≤ c && c ≤ 'f')

/-- What is known of the parsers. -/
structure Documented : Prop where
  /-- An IPv4 address is printed as it is. -/
  quads : ∀ q : Quad, ∃ ip, A.ofText q.text = some ip ∧ A.shown ip = q.text
  /-- Dots stand in the last part of an address only. -/
  dotted : ∀ t u, '.' ∈ t → A.ofText (t ++ ':' :: u) = none
  printed : ∀ ip, A.shown ip ≠ [] ∧ ∀ c ∈ A.shown ip, isPrinted c = true
  /-- What is printed is read as what prints the same. -/
  canonical : ∀ ip, ∃ ip', A.ofText (A.shown ip) = some ip' ∧ A.shown ip' = A.shown ip
  /-- No address goes on behind another text for it. -/
  ends : ∀ t ip, A.ofText t = some ip → ¬ t ++ [':'] <+: A.shown ip

end Parse

/-! ### Displays -/

theorem hasDisplay_of_notMem {t : Text} (h : ':' ∉ t) : hasDisplay t = false := by
  induction t with
  | nil => rfl
  | cons c t ih =>
    rw [List.mem_cons, not_or] at h
    simp [hasDisplay, Ne.symm h.1, ih h.2]

/-- With one colon. -/
theorem hasDisplay_colon {u x : Text} (hu : ':' ∉ u) (hnl : '\n' ∉ u) (hx : ':' ∉ x) :
    hasDisplay (u ++ ':' :: x) = atEnd (fun x => isNumber x || isScreen x) x := by
  induction u with
  | nil => simp [hasDisplay, hasDisplay_of_notMem hx]
  | cons c u ih =>
    rw [List.mem_cons, not_or] at hu hnl
    rw [List.cons_append, hasDisplay, ih hu.2 hnl.2]
    have hcolon : (c == ':') = false := beq_eq_false_iff_ne.mpr (Ne.symm hu.1)
    have hnewline : (c != '\n') = true := bne_iff_ne.mpr (Ne.symm hnl.1)
    rw [hcolon, hnewline, Bool.false_and, Bool.false_or, Bool.true_and]

theorem rsplit_colon {u x : Text} (hx : ':' ∉ x) : rsplit (u ++ ':' :: x) = u := by
  have hrev : (u ++ ':' :: x).reverse = x.reverse ++ ':' :: u.reverse := by simp
  rw [rsplit, if_pos (by simp), hrev, List.dropWhile_append_of_pos fun c hc => ?_]
  · simp
  · simpa using fun h : c = ':' => hx (h ▸ List.mem_reverse.mp hc)

theorem atEnd_of_getLast {p : Text → Bool} {t : Text} (h : t.getLast? ≠ some '\n') :
    atEnd p t = p t := by
  simp [atEnd, h]

theorem isNumber_iff {t : Text} : isNumber t = true ↔ (∀ c ∈ t, c.isDigit = true) ∧ 1 ≤ t.length ∧
    t.length ≤ 9 := by
  simp [isNumber, and_assoc]

/-- Numbers are read to the end. -/
theorem atEnd_of_clean {p : Text → Bool} {t : Text} (h : ∀ c ∈ t, c ≠ '\n') : atEnd p t = p t :=
  atEnd_of_getLast fun hlast => h '\n' (List.mem_of_getLast? hlast) rfl

theorem digit_ne {c d : Char} (hc : c.isDigit = true) (hd : d.isDigit = false) : c ≠ d := fun h => by
  rw [h, hd] at hc
  exact absurd hc (by simp)

/-! ### Dotted quads -/

/-- Four numbers with dots between. -/
theorem quad_form (q : Quad) : ∃ a b c d : Text,
    (∀ x ∈ [a, b, c, d], x ≠ [] ∧ ∀ e ∈ x, e.isDigit = true) ∧
    q.text = a ++ '.' :: (b ++ '.' :: (c ++ '.' :: d)) := by
  obtain ⟨a, b, c, d⟩ := q
  refine ⟨Nat.toDigits 10 a.toNat, Nat.toDigits 10 b.toNat, Nat.toDigits 10 c.toNat,
    Nat.toDigits 10 d.toNat, ?_, ?_⟩
  · have h : ∀ n : Nat, Nat.toDigits 10 n ≠ [] ∧ ∀ e ∈ Nat.toDigits 10 n, e.isDigit = true := fun n =>
      ⟨Nat.toDigits_ne_nil, Libc.toDigits_digit n⟩
    intro x hx
    simp only [List.mem_cons, List.not_mem_nil, or_false] at hx
    rcases hx with rfl | rfl | rfl | rfl <;> exact h _
  · simp [Quad.text, Quad.numbers, List.intercalate_cons_cons]

theorem quad_chars (q : Quad) : ∀ c ∈ q.text, c.isDigit = true ∨ c = '.' := by
  obtain ⟨a, b, c, d, hd, h⟩ := quad_form q
  simp only [List.mem_cons, List.not_mem_nil, or_false, forall_eq_or_imp, forall_eq] at hd
  intro e he
  rw [h] at he
  simp only [List.mem_append, List.mem_cons] at he
  rcases he with he | rfl | he | rfl | he | rfl | he
  · exact .inl (hd.1.2 e he)
  · exact .inr rfl
  · exact .inl (hd.2.1.2 e he)
  · exact .inr rfl
  · exact .inl (hd.2.2.1.2 e he)
  · exact .inr rfl
  · exact .inl (hd.2.2.2.2 e he)

theorem quad_head (q : Quad) : ∃ c t, q.text = c :: t ∧ c.isDigit = true := by
  obtain ⟨a, b, c, d, hd, h⟩ := quad_form q
  obtain ⟨e, a, rfl⟩ := List.exists_cons_of_ne_nil (hd a (by simp)).1
  exact ⟨e, _, h, (hd (e :: a) (by simp)).2 e (by simp)⟩

theorem quad_dots (q : Quad) : q.text.count '.' = 3 := by
  obtain ⟨a, b, c, d, hd, h⟩ := quad_form q
  have hzero : ∀ x ∈ [a, b, c, d], x.count '.' = 0 := fun x hx =>
    List.count_eq_zero.mpr fun hmem => absurd ((hd x hx).2 '.' hmem) (by decide)
  simp only [List.mem_cons, List.not_mem_nil, or_false, forall_eq_or_imp, forall_eq] at hzero
  rw [h]
  simp [hzero]

theorem quad_clean (q : Quad) : ':' ∉ q.text ∧ '\n' ∉ q.text := by
  constructor <;> intro h <;> exact absurd (quad_chars q _ h) (by decide)

/-! ### What starts with a digit -/

section Digit
variable {α : Type} (A : Parsers α) {c : Char} {t : Text}

theorem parse_digit (hc : c.isDigit = true) : parseIPAddress A (c :: t) = afterDisplay A
    (cut (c :: t)) := by
  have hcolon : c ≠ ':' := digit_ne hc rfl
  have hlocal : c :: t ≠ lit "::1" := by
    have h : (lit "::1") = [':', ':', '1'] := by with_unfolding_all rfl
    rw [h]
    exact fun heq => hcolon (List.cons.inj heq).1
  have hgdm : isGdm (c :: t) = false := by
    have h : (lit "::") = [':', ':'] := by with_unfolding_all rfl
    simp [isGdm, h, List.isPrefixOf, hcolon.symm]
  have hxephyr : isXephyr (c :: t) = false := by simp [isXephyr, hcolon]
  rw [parseIPAddress, if_neg hlocal, hgdm, hxephyr]
  simp

theorem isHostname_head (h : isHostname t = true) : t.head?.any Char.isAlpha = true := by
  rw [isHostname, atEnd, Bool.or_eq_true, Bool.and_eq_true, Bool.and_eq_true, Bool.and_eq_true] at h
  rcases h with h | h
  · exact h.1.1
  · have hd := h.2
    rw [Bool.and_eq_true, Bool.and_eq_true] at hd
    cases t with
    | nil => simp at hd
    | cons a t =>
      cases t with
      | nil => simp at hd
      | cons b t => simpa using hd.1.1

theorem isAlpha_of_isDigit (hc : c.isDigit = true) : c.isAlpha = false := by
  obtain ⟨hchar, hlt⟩ := Libc.digitChar_of_isDigit hc
  have h : ∀ k < 10, (Nat.digitChar k).isAlpha = false := by decide
  rw [← hchar]
  exact h _ hlt

theorem afterDisplay_digit (hc : c.isDigit = true) : afterDisplay A (c :: t) = (A.read (c :: t)).getD
    (c :: t) := by
  have halpha := isAlpha_of_isDigit hc
  have hhost : isHostname (c :: t) ≠ true := fun h => by
    have := isHostname_head h
    simp [halpha] at this
  rw [afterDisplay, if_neg (by simp [isNumbered, halpha]), if_neg hhost, if_neg (by simp)]

theorem isBin_printed (hc : isPrinted c = true) : isBin (hexlify c) = false := by
  have hlow : c.toNat < 128 := by
    simp only [isPrinted, Char.isDigit, Bool.or_eq_true, Bool.and_eq_true, decide_eq_true_eq,
      beq_iff_eq] at hc
    rcases hc with ((h | rfl) | rfl) | h
    · have : c.toNat ≤ 57 := UInt32.le_iff_toNat_le.mp h.2
      omega
    · decide
    · decide
    · have : c.toNat ≤ 102 := UInt32.le_iff_toNat_le.mp h.2
      omega
  have h : ∀ n < 128, isPrinted (Char.ofNat n) = true → isBin (hexlify (Char.ofNat n)) = false := by
    with_unfolding_all decide
  have := h _ hlow
  rw [Char.ofNat_toNat] at this
  exact this hc

theorem read_printed (h : ∀ c ∈ t, isPrinted c = true) : A.read t = (A.ofText t).map A.shown := by
  rw [Parsers.read, if_neg]
  rw [List.any_eq_true]
  rintro ⟨c, hc, hbin⟩
  rw [isBin_printed (h c hc)] at hbin
  exact absurd hbin (by simp)

end Digit

/-! ### Sessions of an IPv4 address -/

section Strip
variable {α : Type} {A : Parsers α}

/-- Up to nine digits. -/
structure IsIndex (n : Text) : Prop where
  some : n ≠ []
  digits : ∀ c ∈ n, c.isDigit = true
  short : n.length ≤ 9

/-- The address is what remains, with a display, with a display and a screen, and alone; a display
alone is nothing; and the session is found by the address. -/
structure Strips (A : Parsers α) (q : Quad) (n m : Text) : Prop where
  display : parseIPAddress A (q.text ++ ':' :: n) = q.text
  screen : parseIPAddress A (q.text ++ ':' :: (n ++ '.' :: m)) = q.text
  alone : parseIPAddress A q.text = q.text
  nothing : parseIPAddress A (':' :: (n ++ '.' :: m)) = []
  found : ∀ host ∈ [q.text, q.text ++ ':' :: n, q.text ++ ':' :: (n ++ '.' :: m)], ∀ hostname line,
    matchesHost A q.text hostname host line = true

theorem isPrinted_quad {c : Char} (h : c.isDigit = true ∨ c = '.') : isPrinted c = true := by
  rcases h with h | rfl
  · simp [isPrinted, h]
  · rfl

theorem IsIndex.number {n : Text} (h : IsIndex n) : isNumber n = true :=
  isNumber_iff.mpr ⟨h.digits, List.length_pos_of_ne_nil h.some, h.short⟩

theorem isIndex_of_isNumber {n : Text} (h : isNumber n = true) : IsIndex n := by
  obtain ⟨hd, hpos, hshort⟩ := isNumber_iff.mp h
  exact ⟨List.ne_nil_of_length_pos hpos, hd, hshort⟩

theorem IsIndex.notMem {n : Text} (h : IsIndex n) {c : Char} (hc : c.isDigit = false) : c ∉ n :=
  fun hmem => by
  rw [h.digits c hmem] at hc
  exact absurd hc (by simp)

theorem parse_quad (hA : Documented A) (q : Quad) : parseIPAddress A q.text = q.text := by
  obtain ⟨c, t, hct, hc⟩ := quad_head q
  obtain ⟨ip, hip, hshown⟩ := hA.quads q
  have hcut : cut q.text = q.text := by rw [cut, hasDisplay_of_notMem (quad_clean q).1]; rfl
  have hread : A.read q.text = some q.text := by
    rw [read_printed A fun e he => isPrinted_quad (quad_chars q e he), hip, Option.map_some, hshown]
  rw [hct] at hcut hread ⊢
  rw [parse_digit A hc, hcut, afterDisplay_digit A hc, hread, Option.getD_some]

/-- What is cut leaves the address. -/
theorem parse_cut (hA : Documented A) (q : Quad) {x : Text} (hx : ':' ∉ x)
    (h : atEnd (fun x => isNumber x || isScreen x) x = true) : parseIPAddress A
    (q.text ++ ':' :: x) = q.text := by
  obtain ⟨c, t, hct, hc⟩ := quad_head q
  have hcut : cut (q.text ++ ':' :: x) = q.text := by
    rw [cut, hasDisplay_colon (quad_clean q).1 (quad_clean q).2 hx, if_pos h, rsplit_colon hx]
  have hcut' : cut q.text = q.text := by rw [cut, hasDisplay_of_notMem (quad_clean q).1]; rfl
  have hquad := parse_quad hA q
  rw [hct] at hcut hcut' hquad ⊢
  rw [List.cons_append] at hcut ⊢
  rw [parse_digit A hc, hcut'] at hquad
  rw [parse_digit A hc, hcut, hquad]

/-- What is not cut is not read either. -/
theorem parse_kept (hA : Documented A) (q : Quad) {x : Text} (hx : ':' ∉ x)
    (hprinted : ∀ c ∈ x, isPrinted c = true)
    (h : atEnd (fun x => isNumber x || isScreen x) x = false) :
    parseIPAddress A (q.text ++ ':' :: x) = q.text ++ ':' :: x := by
  obtain ⟨c, t, hct, hc⟩ := quad_head q
  have hcut : cut (q.text ++ ':' :: x) = q.text ++ ':' :: x := by
    rw [cut, hasDisplay_colon (quad_clean q).1 (quad_clean q).2 hx, h]
    rfl
  have hread : A.read (q.text ++ ':' :: x) = none := by
    have hdot : '.' ∈ q.text := List.count_pos_iff.mp (by rw [quad_dots]; decide)
    rw [read_printed A, hA.dotted _ _ hdot, Option.map_none]
    intro e he
    rcases List.mem_append.mp he with he | he
    · exact isPrinted_quad (quad_chars q e he)
    · rcases List.mem_cons.mp he with rfl | he
      · rfl
      · exact hprinted e he
  rw [hct] at hcut hread ⊢
  rw [List.cons_append] at hcut hread ⊢
  rw [parse_digit A hc, hcut, afterDisplay_digit A hc, hread, Option.getD_none]

theorem screen_iff {n m : Text} (hn : IsIndex n) (hm : IsIndex m) :
    atEnd (fun x => isNumber x || isScreen x) (n ++ '.' :: m) = true ↔ n.length = 1 ∧ m.length = 1 := by
  have hclean : ∀ c ∈ n ++ '.' :: m, c ≠ '\n' := by
    rintro c hc rfl
    simp [hn.notMem (c := '\n') rfl, hm.notMem (c := '\n') rfl] at hc
  have hnumber : isNumber (n ++ '.' :: m) = false := by
    rw [← Bool.not_eq_true, isNumber_iff]
    exact fun h => absurd (h.1 '.' (by simp)) (by decide)
  rw [atEnd_of_clean hclean, hnumber, Bool.false_or]
  have hn0 := List.length_pos_of_ne_nil hn.some
  have hm0 := List.length_pos_of_ne_nil hm.some
  constructor
  · intro h
    have hlen : (n ++ '.' :: m).length = 3 := by
      unfold isScreen at h
      split at h
      · rename_i heq
        rw [heq]
        rfl
      · exact absurd h (by simp)
    rw [List.length_append, List.length_cons] at hlen
    omega
  · rintro ⟨h1, h2⟩
    obtain ⟨a, rfl⟩ := List.length_eq_one_iff.mp h1
    obtain ⟨b, rfl⟩ := List.length_eq_one_iff.mp h2
    simp [isScreen, isClass, hn.digits a (by simp), hm.digits b (by simp)]

theorem parse_xephyr (A : Parsers α) {n m : Text} (hn : IsIndex n) (hm : IsIndex m) :
    parseIPAddress A (':' :: (n ++ '.' :: m)) = [] := by
  have hlocal : ':' :: (n ++ '.' :: m) ≠ lit "::1" := by
    have h : (lit "::1") = [':', ':', '1'] := by with_unfolding_all rfl
    rw [h]
    intro heq
    have : ':' ∈ n ++ '.' :: m := by rw [(List.cons.inj heq).2]; simp
    simp [hn.notMem (c := ':') rfl, hm.notMem (c := ':') rfl] at this
  have hxephyr : isXephyr (':' :: (n ++ '.' :: m)) = true := by
    rw [isXephyr, List.head?_cons, beq_self_eq_true, Bool.true_and, List.tail_cons, atEnd,
      Bool.or_eq_true, Bool.or_eq_true]
    refine .inl (.inr (List.any_eq_true.mpr ⟨n.length, List.mem_range.mpr (by simp), ?_⟩))
    have hdrop : (n ++ '.' :: m).drop (n.length + 1) = m := by
      rw [← List.drop_drop, List.drop_left]
      rfl
    simp [hn.number, hm.number, hdrop]
  rw [parseIPAddress, if_neg hlocal, hxephyr]
  simp

/-- The halves of an address differ. -/
theorem utHost_quad (q : Quad) {host : Text} (hhost : parseIPAddress A host = q.text) (line : Text) :
    utHost A host line = q.text := by
  rw [utHost, hhost]
  refine if_neg fun ⟨hhalf, _⟩ => ?_
  have hcount := quad_dots q
  rw [← List.take_append_drop (q.text.length / 2) q.text, List.count_append, hhalf] at hcount
  omega

/-- **The display and its screen are dropped exactly when each is one digit.** -/
theorem strips_iff (hA : Documented A) (q : Quad) {n m : Text} (hn : IsIndex n) (hm : IsIndex m) :
    Strips A q n m ↔ n.length = 1 ∧ m.length = 1 := by
  have hcolon : ':' ∉ n ++ '.' :: m := by simp [hn.notMem (c := ':') rfl, hm.notMem (c := ':') rfl]
  constructor
  · intro h
    rw [← screen_iff hn hm]
    by_contra hnot
    have hprinted : ∀ c ∈ n ++ '.' :: m, isPrinted c = true := by
      intro c hc
      rcases List.mem_append.mp hc with hc | hc
      · exact isPrinted_quad (.inl (hn.digits c hc))
      · exact isPrinted_quad ((List.mem_cons.mp hc).symm.imp_left (hm.digits c))
    have hkept := parse_kept hA q hcolon hprinted (Bool.not_eq_true _ ▸ hnot)
    rw [h.screen] at hkept
    exact absurd hkept (by simp)
  · intro h
    have hdisplay := parse_cut hA q (hn.notMem (c := ':') rfl)
      (x := n) (by rw [atEnd, hn.number]; rfl)
    have hscreen := parse_cut hA q hcolon ((screen_iff hn hm).mpr h)
    have halone := parse_quad hA q
    refine ⟨hdisplay, hscreen, halone, parse_xephyr A hn hm, fun host hhost hostname line => ?_⟩
    have hparse : parseIPAddress A host = q.text := by
      simp only [List.mem_cons, List.not_mem_nil, or_false] at hhost
      rcases hhost with rfl | rfl | rfl <;> assumption
    rw [matchesHost, utHost_quad q hparse, halone]
    simp

end Strip

/-! ### Parsers of IPv4 alone -/

def isQuad (t : Text) : Bool :=
  let parts := t.splitOn '.'
  decide (parts.length = 4) && parts.all fun p =>
    p == Nat.toDigits 10 (Nat.ofDigitChars 10 p 0) && decide (Nat.ofDigitChars 10 p 0 < 256)

def quadParsers : Parsers { t : Text // isQuad t = true } where
  ofText t := if h : isQuad t = true then some ⟨t, h⟩ else none
  ofHex _ := none
  str ip := ip.1
  version _ := 4
  mapped _ := none

theorem isQuad_text (q : Quad) : isQuad q.text = true := by
  have hno : ∀ p ∈ q.numbers.map (Nat.toDigits 10), '.' ∉ p := by
    intro p hp hdot
    obtain ⟨n, -, rfl⟩ := List.mem_map.mp hp
    exact Libc.not_mem_toDigits (by decide) n hdot
  have hsplit : q.text.splitOn '.' = q.numbers.map (Nat.toDigits 10) :=
    List.splitOn_intercalate '.' hno (by obtain ⟨a, b, c, d⟩ := q; simp [Quad.numbers])
  obtain ⟨hlen, hsmall⟩ := quad_numbers q
  rw [isQuad, hsplit, Bool.and_eq_true, List.all_eq_true, List.length_map, decide_eq_true_eq]
  refine ⟨hlen, fun p hp => ?_⟩
  obtain ⟨n, hn, rfl⟩ := List.mem_map.mp hp
  simp [Nat.ofDigitChars_ten_toDigits, hsmall n hn]

theorem isQuad_chars {t : Text} (h : isQuad t = true) : t ≠ [] ∧ ∀ c ∈ t, c.isDigit = true ∨
    c = '.' := by
  rw [isQuad, Bool.and_eq_true, List.all_eq_true, decide_eq_true_eq] at h
  refine ⟨?_, fun c hc => ?_⟩
  · rintro rfl
    simp at h
  · by_cases hdot : c = '.'
    · exact .inr hdot
    · rw [← @List.intercalate_splitOn Char t _ _ '.'] at hc
      obtain ⟨p, hp, hcp⟩ := Shell.mem_intercalate hc hdot
      have := h.2 p hp
      rw [Bool.and_eq_true, beq_iff_eq] at this
      rw [this.1] at hcp
      exact .inl (Libc.toDigits_digit _ c hcp)

theorem quadParsers_documented : Documented quadParsers where
  quads q := ⟨⟨q.text, isQuad_text q⟩, dif_pos (isQuad_text q), rfl⟩
  dotted t u hdot := dif_neg fun h => by
    have := (isQuad_chars h).2 ':' (by simp)
    exact absurd this (by decide)
  printed ip := ⟨(isQuad_chars ip.2).1, fun c hc => isPrinted_quad ((isQuad_chars ip.2).2 c hc)⟩
  canonical ip := ⟨ip, dif_pos ip.2, rfl⟩
  ends t ip _ h := by
    have : ':' ∈ ip.1 := h.subset (by simp)
    exact absurd ((isQuad_chars ip.2).2 ':' this) (by decide)

theorem strips_first : Strips quadParsers (10, 0, 2, 15) (lit "0") (lit "0") ↔ (lit "0").length = 1 ∧
    (lit "0").length = 1 :=
  strips_iff quadParsers_documented (10, 0, 2, 15) (isIndex_of_isNumber (by with_unfolding_all decide))
    (isIndex_of_isNumber (by with_unfolding_all decide))

/-- The tenth display keeps its screen. -/
theorem tenth_kept : ¬ Strips quadParsers (10, 0, 2, 15) (lit "10") (lit "0") := fun h => by
  have hkept : parseIPAddress quadParsers
    (Quad.text (10, 0, 2, 15) ++ ':' :: (lit "10" ++ '.' :: lit "0")) =
      lit "10.0.2.15:10.0" := by with_unfolding_all decide
  rw [h.screen] at hkept
  exact absurd hkept (by with_unfolding_all decide)

/-! ### Once and again -/

section Again
variable {α : Type} (A : Parsers α)

/-- No pattern takes the text for a display, and it is not the local host. -/
structure Whole (r : Text) : Prop where
  remote : r ≠ lit "::1"
  gdm : isGdm r = false
  xephyr : isXephyr r = false
  display : hasDisplay r = false
  numbered : isNumbered r = false

/-- And it is a name, or nothing, or prints as it is if it is an address. -/
structure Settled (r : Text) : Prop where
  whole : Whole r
  read : isHostname r = true ∨ r = [] ∨ ∀ p, A.read r = some p → p = r

/-- Of a text whose display is gone: what is cut from it is whole, and what it is read as. -/
structure Kept (t : Text) : Prop where
  numbered : isNumbered t = true → Settled A (rsplit t)
  address : isNumbered t = false → isHostname t = false → t ≠ [] → ∀ p, A.read t = some p → Whole p
  other : isNumbered t = false → isHostname t = false → t ≠ [] → A.read t = none → Whole t

/-- The local host, a display alone, or a text that is kept. -/
def Fits (s : Text) : Prop := s = lit "::1" ∨ isGdm s = true ∨ isXephyr s = true ∨ Kept A (cut s)

variable {A}

theorem rsplit_eq {t : Text} (h : ':' ∈ t) : ∃ x, ':' ∉ x ∧ t = rsplit t ++ ':' :: x := by
  obtain ⟨x, u, hrev, hx⟩ := List.eq_append_cons_of_mem (List.mem_reverse.mpr h)
  have ht : t = u.reverse ++ ':' :: x.reverse := by
    rw [← List.reverse_reverse t, hrev]
    simp
  have hx' : ':' ∉ x.reverse := fun hmem => hx (List.mem_reverse.mp hmem)
  refine ⟨x.reverse, hx', ?_⟩
  rw [ht, rsplit_colon hx']

theorem rsplit_length (t : Text) : (rsplit t).length ≤ t.length := by
  by_cases h : ':' ∈ t
  · obtain ⟨x, -, hx⟩ := rsplit_eq h
    have := congrArg List.length hx
    rw [List.length_append, List.length_cons] at this
    omega
  · rw [rsplit, if_neg h]

theorem rsplit_ne {t : Text} (h : ':' ∈ t) : rsplit t ≠ t := fun heq => by
  obtain ⟨x, -, hx⟩ := rsplit_eq h
  have := congrArg List.length hx
  rw [heq, List.length_append, List.length_cons] at this
  omega

theorem mem_of_hasDisplay {t : Text} (h : hasDisplay t = true) : ':' ∈ t := by
  by_contra hno
  rw [hasDisplay_of_notMem hno] at h
  exact absurd h (by simp)

theorem mem_of_isNumbered {t : Text} (h : isNumbered t = true) : ':' ∈ t := by
  rw [isNumbered, Bool.and_eq_true] at h
  refine List.mem_of_mem_tail ?_
  have hnumber := h.2
  generalize t.tail = u at hnumber
  induction u with
  | nil => exact absurd hnumber (by simp [hasNumber])
  | cons c u ih =>
    rw [hasNumber, Bool.or_eq_true, Bool.and_eq_true, Bool.and_eq_true] at hnumber
    rcases hnumber with hc | hc
    · exact beq_iff_eq.mp hc.1 ▸ List.mem_cons_self ..
    · exact List.mem_cons_of_mem _ (ih hc.2)

theorem parse_nil (A : Parsers α) : parseIPAddress A [] = [] := by
  have hlocal : ([] : Text) ≠ lit "::1" := by with_unfolding_all decide
  have hgdm : isGdm [] = false := by with_unfolding_all decide
  rw [parseIPAddress, if_neg hlocal, hgdm]
  rfl

/-- What is printed is read as itself. -/
theorem read_shown (hA : Documented A) {t p : Text} (h : A.read t = some p) :
    p ≠ [] ∧ (∀ c ∈ p, isPrinted c = true) ∧ A.read p = some p := by
  rw [Parsers.read, Option.map_eq_some_iff] at h
  obtain ⟨ip, -, rfl⟩ := h
  obtain ⟨hne, hprinted⟩ := hA.printed ip
  obtain ⟨ip', hip, hshown⟩ := hA.canonical ip
  exact ⟨hne, hprinted, by rw [read_printed A hprinted, hip, Option.map_some, hshown]⟩

theorem afterDisplay_whole {r : Text} (hnumbered : isNumbered r = false) : afterDisplay A r = r ↔
    isHostname r = true ∨ r = [] ∨ ∀ p, A.read r = some p → p = r := by
  rw [afterDisplay, hnumbered, if_neg Bool.false_ne_true]
  split_ifs with hhost hnil
  · exact iff_of_true rfl (.inl hhost)
  · exact iff_of_true hnil.symm (.inr (.inl hnil))
  · rw [or_iff_right hhost, or_iff_right hnil]
    cases A.read r <;> simp

/-- What a display is cut from does not come back. -/
theorem afterDisplay_cut (hA : Documented A) {r : Text} (hd : hasDisplay r = true) :
    afterDisplay A (cut r) ≠ r := by
  intro h
  obtain ⟨x, hx, hr⟩ := rsplit_eq (mem_of_hasDisplay hd)
  have hshort : (rsplit r).length < r.length := by
    have := congrArg List.length hr
    rw [List.length_append, List.length_cons] at this
    omega
  rw [cut, if_pos hd, afterDisplay] at h
  split_ifs at h
  · have := rsplit_length (rsplit r)
    rw [h] at this
    omega
  · rw [h] at hshort
    omega
  · rw [← h] at hshort
    exact absurd hshort (by simp)
  · cases hread : A.read (rsplit r) with
    | none =>
      rw [hread, Option.getD_none] at h
      rw [h] at hshort
      omega
    | some p =>
      -- the address that the rest stands for would go on behind it
      rw [hread, Option.getD_some] at h
      obtain ⟨-, hprinted, -⟩ := read_shown hA hread
      rw [read_printed A fun c hc => hprinted c (by rw [h, hr]; exact List.mem_append_left _ hc),
        Option.map_eq_some_iff] at hread
      obtain ⟨ip, hip, hshown⟩ := hread
      refine hA.ends _ ip hip ⟨x, ?_⟩
      rw [hshown, h, List.append_assoc]
      exact hr.symm

/-- **What stays as it is.** -/
theorem parse_eq_iff (hA : Documented A) (r : Text) : parseIPAddress A r = r ↔ Settled A r := by
  constructor
  · intro h
    have hremote : r ≠ lit "::1" := by
      rintro rfl
      rw [parseIPAddress, if_pos rfl] at h
      exact absurd h (by with_unfolding_all decide)
    rw [parseIPAddress, if_neg hremote] at h
    have hgdm : isGdm r = false := by
      rw [← Bool.not_eq_true]
      intro hg
      rw [if_pos hg] at h
      rw [← h] at hg
      exact absurd hg (by with_unfolding_all decide)
    rw [hgdm, if_neg Bool.false_ne_true] at h
    have hxephyr : isXephyr r = false := by
      rw [← Bool.not_eq_true]
      intro hx
      rw [if_pos hx] at h
      rw [← h] at hx
      exact absurd hx (by with_unfolding_all decide)
    rw [hxephyr, if_neg Bool.false_ne_true] at h
    have hdisplay : hasDisplay r = false := by
      rw [← Bool.not_eq_true]
      exact fun hd => afterDisplay_cut hA hd h
    rw [cut, hdisplay, if_neg Bool.false_ne_true] at h
    have hnumbered : isNumbered r = false := by
      rw [← Bool.not_eq_true]
      intro hn
      rw [afterDisplay, if_pos hn] at h
      exact rsplit_ne (mem_of_isNumbered hn) h
    exact ⟨⟨hremote, hgdm, hxephyr, hdisplay, hnumbered⟩, (afterDisplay_whole hnumbered).mp h⟩
  · rintro ⟨⟨hremote, hgdm, hxephyr, hdisplay, hnumbered⟩, hread⟩
    rw [parseIPAddress, if_neg hremote, hgdm, hxephyr, cut, hdisplay]
    exact (afterDisplay_whole hnumbered).mpr hread

theorem whole_of_notMem {t : Text} (h : ':' ∉ t) : Whole t := by
  have hlit : ∀ u : Text, lit "::" <+: u → ':' ∈ u :=
    fun u hu => hu.subset (by with_unfolding_all decide)
  refine ⟨?_, ?_, ?_, hasDisplay_of_notMem h, ?_⟩
  · rintro rfl
    exact h (by with_unfolding_all decide)
  · rw [← Bool.not_eq_true]
    intro hg
    rw [isGdm, Bool.and_eq_true, List.isPrefixOf_iff_prefix] at hg
    exact h (hlit t hg.1)
  · rw [← Bool.not_eq_true]
    intro hx
    rw [isXephyr, Bool.and_eq_true, beq_iff_eq] at hx
    exact h (List.mem_of_mem_head? (Option.mem_def.mpr hx.1))
  · rw [← Bool.not_eq_true]
    exact fun hn => h (mem_of_isNumbered hn)

theorem isHostname_notMem {t : Text} (h : isHostname t = true) : ':' ∉ t := by
  have hname : ∀ u : Text, (u.head?.any Char.isAlpha && !u.tail.isEmpty &&
      u.tail.all fun c => c.isAlphanum || c == '.' || c == '-') = true → ':' ∉ u := by
    intro u hu
    rw [Bool.and_eq_true, Bool.and_eq_true, List.all_eq_true] at hu
    obtain ⟨⟨hhead, -⟩, htail⟩ := hu
    cases u with
    | nil => simp
    | cons c u =>
      rintro (_ | ⟨_, hmem⟩)
      · simp at hhead
      · exact absurd (htail ':' hmem) (by decide)
  rcases Bool.or_eq_true_iff.mp h with h | h
  · exact hname t h
  · intro hmem
    obtain ⟨hlast, h⟩ := Bool.and_eq_true_iff.mp h
    obtain ⟨u, rfl⟩ := List.getLast?_eq_some_iff.mp (beq_iff_eq.mp hlast)
    rw [List.dropLast_concat] at h
    rcases List.mem_append.mp hmem with hmem | hmem
    · exact hname u h hmem
    · exact absurd hmem (by decide)

/-- **The second time changes nothing exactly when what the first time leaves is kept.** -/
theorem idempotent_iff (hA : Documented A) (s : Text) :
    parseIPAddress A (parseIPAddress A s) = parseIPAddress A s ↔ Fits A s := by
  unfold Fits
  by_cases hlocal : s = lit "::1"
  · refine iff_of_true ?_ (.inl hlocal)
    have hquad : lit "127.0.0.1" = Quad.text (127, 0, 0, 1) := by with_unfolding_all decide
    have hs : parseIPAddress A s = lit "127.0.0.1" := by rw [parseIPAddress, if_pos hlocal]
    rw [hs, hquad]
    exact parse_quad hA _
  rw [or_iff_right hlocal]
  by_cases hgdm : isGdm s = true
  · have hs : parseIPAddress A s = [] := by rw [parseIPAddress, if_neg hlocal, if_pos hgdm]
    exact iff_of_true (by rw [hs, parse_nil]) (.inl hgdm)
  rw [or_iff_right hgdm]
  by_cases hxephyr : isXephyr s = true
  · have hs : parseIPAddress A s = [] := by
      rw [parseIPAddress, if_neg hlocal, if_neg hgdm, if_pos hxephyr]
    exact iff_of_true (by rw [hs, parse_nil]) (.inl hxephyr)
  rw [or_iff_right hxephyr]
  have hs : parseIPAddress A s = afterDisplay A (cut s) := by
    rw [parseIPAddress, if_neg hlocal, if_neg hgdm, if_neg hxephyr]
  rw [hs, parse_eq_iff hA]
  generalize cut s = t
  rw [afterDisplay]
  split_ifs with hnumbered hhost hnil
  · have hno : ¬ isNumbered t = false := by rw [hnumbered]; exact Bool.false_ne_true.symm
    exact ⟨fun h => ⟨fun _ => h, fun h' => absurd h' hno, fun h' => absurd h' hno⟩, fun h =>
      h.numbered hnumbered⟩
  · refine iff_of_true ⟨whole_of_notMem (isHostname_notMem hhost), .inl hhost⟩
      ⟨fun h => absurd h hnumbered, ?_, ?_⟩
    · exact fun _ h => absurd hhost (by rw [h]; exact Bool.false_ne_true)
    · exact fun _ h => absurd hhost (by rw [h]; exact Bool.false_ne_true)
  · subst hnil
    refine iff_of_true ⟨whole_of_notMem (by simp), .inr (.inl rfl)⟩ ⟨fun h => absurd h hnumbered,
      fun _ _ h => absurd rfl h, fun _ _ h => absurd rfl h⟩
  · rw [Bool.not_eq_true] at hnumbered hhost
    cases hread : A.read t with
    | none =>
      rw [Option.getD_none]
      constructor
      · exact fun h => ⟨fun h' => absurd h' (by rw [hnumbered]; exact Bool.false_ne_true),
          fun _ _ _ p hp => absurd (hread.symm.trans hp) (by simp), fun _ _ _ _ => h.whole⟩
      · exact fun h => ⟨h.other hnumbered hhost hnil hread,
          .inr (.inr fun p hp => absurd (hread.symm.trans hp) (by simp))⟩
    | some p =>
      rw [Option.getD_some]
      obtain ⟨-, -, hagain⟩ := read_shown hA hread
      constructor
      · refine fun h => ⟨fun h' => absurd h' (by rw [hnumbered]; exact Bool.false_ne_true),
          fun _ _ _ p' hp => ?_,
          fun _ _ _ hnone => absurd (hread.symm.trans hnone) (by simp)⟩
        obtain rfl : p = p' := Option.some.inj (hread.symm.trans hp)
        exact h.whole
      · exact fun h => ⟨h.address hnumbered hhost hnil p hread,
          .inr (.inr fun p' hp => (Option.some.inj (hagain.symm.trans hp)).symm)⟩

end Again

theorem idempotent_iff_first :
    parseIPAddress quadParsers (parseIPAddress quadParsers (lit "10.0.2.15:0")) =
      parseIPAddress quadParsers (lit "10.0.2.15:0") ↔ Fits quadParsers (lit "10.0.2.15:0") :=
  idempotent_iff quadParsers_documented (lit "10.0.2.15:0")

/-- An address that starts with a letter loses a part at each turn. -/
theorem parts_lost : parseIPAddress quadParsers (parseIPAddress quadParsers (lit "fd00::1:2:3:4")) ≠
    parseIPAddress quadParsers (lit "fd00::1:2:3:4") := by with_unfolding_all decide

end Tcos.Xmlrpc.Last
