import Tcos.Libc.Numbers
import Tcos.Lists.Numbered

/-! The OUTPUT chain and how tcos-net-controller.c reads it.

The program sees the chain only through the text of `iptables -L OUTPUT
--line-numbers -n`: `grep TCOS_TNC` picks the lines, awk compares the fourth field from
the end with the user, and the first field is the number to delete by. Here a rule is
what it matches, `Rule.fields` is its line, and the awk tests are questions about these
fields. -/
namespace Tcos.Tnc
open Shell (Text lit)
open Libc

/-! ### Rules -/

/-- A field of a listing line. -/
structure Field where
  text : Text
  some : text ≠ []
  solid : ∀ c ∈ text, isSpace c = false
  deriving DecidableEq

/-- A match of a rule, as `-m` adds it. -/
inductive Match where
  /-- `-m owner --uid-owner`. -/
  | owner (uid : UInt32)
  /-- `-m comment --comment`, cut at its blanks. -/
  | comment (words : List Field)
  /-- Any other match by what is listed of it. -/
  | other (words : List Field)
  deriving DecidableEq

structure Rule where
  /-- A rule without `-j` has none, and its column is empty. -/
  target : Option Field
  prot : Field
  opt : Field
  source : Field
  destination : Field
  /-- In the order they were given. -/
  details : List Match
  deriving DecidableEq

abbrev Chain := List Rule

def Match.fields : Match → List Text
  | .owner uid => [lit "owner", lit "UID", lit "match", Nat.toDigits 10 uid.toNat]
  | .comment words => lit "/*" :: (words.map Field.text ++ [lit "*/"])
  | .other words => words.map Field.text

/-- A rule's line behind its number. -/
def Rule.fields (r : Rule) : List Text :=
  r.target.toList.map Field.text ++
    [r.prot.text, r.opt.text, r.source.text, r.destination.text] ++ r.details.flatMap Match.fields

/-! ### Fields of the program's rules -/

/-- The comment of the program's own rules. -/
def tag : Field :=
  ⟨lit "TCOS_TNC", by with_unfolding_all decide, Shell.each (by with_unfolding_all decide)⟩

def tcp : Field :=
  ⟨lit "tcp", by with_unfolding_all decide, Shell.each (by with_unfolding_all decide)⟩

def allProtocols : Field :=
  ⟨lit "all", by with_unfolding_all decide, Shell.each (by with_unfolding_all decide)⟩

def drop : Field :=
  ⟨lit "DROP", by with_unfolding_all decide, Shell.each (by with_unfolding_all decide)⟩

def accept : Field :=
  ⟨lit "ACCEPT", by with_unfolding_all decide, Shell.each (by with_unfolding_all decide)⟩

def noOptions : Field :=
  ⟨lit "--", by with_unfolding_all decide, Shell.each (by with_unfolding_all decide)⟩

def anywhere : Field :=
  ⟨lit "0.0.0.0/0", by with_unfolding_all decide, Shell.each (by with_unfolding_all decide)⟩

def loopback : Field :=
  ⟨lit "127.0.0.0/8", by with_unfolding_all decide, Shell.each (by with_unfolding_all decide)⟩

/-! ### Whose rule it is -/

def Rule.tagged (r : Rule) : Bool := r.details.any (· == .comment [tag])

def Rule.ownedBy (uid : UInt32) (r : Rule) : Bool := r.details.any (· == .owner uid)

/-! ### What grep and awk see -/

/-- What is used of awk: `==` of a field and a number, and the text a string literal
stands for. -/
structure Awk where
  equalsNumber : Text → Int → Bool
  equals_decimal : ∀ n < 2 ^ 32, ∀ k : Int, equalsNumber (Nat.toDigits 10 n) k = ((n : Int) == k)
  literal : Text → Text
  literal_plain : ∀ s, '\\' ∉ s → literal s = s

/-- An awk without escapes in its literals, and without signs and exponents in its numbers. -/
def Awk.plain : Awk where
  equalsNumber f k :=
    if f ≠ [] ∧ f.all Char.isDigit then (Nat.ofDigitChars 10 f 0 : Int) == k else f == decimal k
  equals_decimal n _ k := by
    have hd : (Nat.toDigits 10 n).all Char.isDigit = true := 
      List.all_eq_true.mpr (toDigits_digit n)
    rw [if_pos ⟨Nat.toDigits_ne_nil, hd⟩, Nat.ofDigitChars_ten_toDigits]
  literal := id
  literal_plain _ _ := rfl

/-- A network as `ip route` writes it, such as `10.0.2.0/24`. -/
structure Network where
  text : Text
  some : text ≠ []
  chars : ∀ c ∈ text, c.isDigit = true ∨ c = '.' ∨ c = '/'
  short : text.length ≤ 18

/-- The machine the program runs on. -/
structure Machine where
  passwd : Text → Option UInt32
  awk : Awk
  /-- The network the kernel has a route to through an interface. -/
  network : Text → Option Network

/-- The network of `eth0`. -/
def classroom : Network :=
  ⟨lit "10.0.2.0/24", by with_unfolding_all decide, Shell.each (by with_unfolding_all decide),
    by with_unfolding_all decide⟩

/-- A classroom terminal. -/
def Machine.terminal : Machine where
  passwd user := if user = lit "root" then some 0 else if user = lit "alumno" then some 1000 else none
  awk := .plain
  network eth := if eth = lit "eth0" then some classroom else none

/-- `get_uid`. -/
def getUid (m : Machine) (user : Text) : UInt32 := (m.passwd user).getD 0

/-- `grep TCOS_TNC`. No blank is in the pattern, and the number has no letters. -/
def Rule.listed (r : Rule) : Bool := r.fields.any fun f => decide (lit "TCOS_TNC" <:+: f)

/-- `$(NF-3)`. A line has five fields at least, so this one is behind the number. -/
def Rule.ownerField (r : Rule) : Text := r.fields.reverse.getD 3 []

/-- `$3`, counted from the number. -/
def Rule.protField (r : Rule) : Text := r.fields.getD 1 []

/-- `$(NF-3) == uid || $(NF-3) == "user"`. -/
def ownTest (m : Machine) (user : Text) (r : Rule) : Bool :=
  m.awk.equalsNumber r.ownerField (toInt (getUid m user).toNat) ||
    r.ownerField == m.awk.literal user

/-- The rules `status_iptables_user` counts. -/
def statusPicks (m : Machine) (user : Text) (r : Rule) : Bool := r.listed && ownTest m user r

/-- The rules `flush_iptables_user` deletes; `only` is what follows `--only-ports=`. -/
def flushPicks (m : Machine) (user only : Text) (r : Rule) : Bool :=
  statusPicks m user r && (only == lit "no" || r.protField == lit "tcp")

/-! ### What they should see -/

/-- The user's own rules. An unknown user has none. -/
def own (m : Machine) (user : Text) (r : Rule) : Bool :=
  r.tagged && (m.passwd user).any fun uid => r.ownedBy uid

/-- The rules a flush is to remove. -/
def wanted (m : Machine) (user only : Text) (r : Rule) : Bool :=
  own m user r && (only == lit "no" || r.prot == tcp)

/-- `grep` finds the comment of the program's own rules. -/
theorem listed_of_tagged {r : Rule} (h : r.tagged = true) : r.listed = true := by
  obtain ⟨d, hd, htag⟩ := List.any_eq_true.mp h
  have hcomment : d = .comment [tag] := by simpa using htag
  refine List.any_eq_true.mpr ⟨lit "TCOS_TNC", ?_, by simp⟩
  refine List.mem_append_right _ (List.mem_flatMap.mpr ⟨d, hd, ?_⟩)
  rw [hcomment]
  simp [Match.fields, tag]

/-- A user's number in the owner field is recognized, unless it is negative as an `int`. -/
theorem ownTest_of_ownerField {m : Machine} {user : Text} {r : Rule}
    (h : r.ownerField = Nat.toDigits 10 (getUid m user).toNat)
    (hsmall : (getUid m user).toNat < 2 ^ 31) : ownTest m user r = true := by
  have hint : toInt (getUid m user).toNat = (getUid m user).toNat := by
    unfold toInt
    omega
  rw [ownTest, h, hint, m.awk.equals_decimal _ (by omega), beq_self_eq_true, Bool.true_or]

theorem statusPicks_of_flushPicks {m : Machine} {user only : Text} {r : Rule}
    (h : flushPicks m user only r = true) : statusPicks m user r = true :=
  (Bool.and_eq_true_iff.mp h).1

theorem own_of_wanted {m : Machine} {user only : Text} {r : Rule}
    (h : wanted m user only r = true) : own m user r = true :=
  (Bool.and_eq_true_iff.mp h).1

theorem getUid_of_known {m : Machine} {user : Text} {uid : UInt32} (h : m.passwd user = some uid) :
    getUid m user = uid := by
  rw [getUid, h, Option.getD_some]

end Tcos.Tnc
