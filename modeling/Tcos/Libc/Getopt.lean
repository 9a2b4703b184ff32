import Tcos.Shell.Parser

/-! `getopt_long`, as the C library has it without `POSIXLY_CORRECT`.

Options are taken from anywhere in the argument vector, also from behind the operands, up to a word of two
dashes; a question mark is the code of what is no option or lacks its argument. Words without a dash in front
stay operands (`getoptLong_operands`), and where a word has one there are fewer operands than words
(`operands_fewer`). -/
namespace Tcos.Libc
open Shell (Text lit)

/-- The options of a program. -/
structure Switches where
  /-- Whether the option needs an argument, of a byte that is one. -/
  short : Char → Option Bool
  /-- Name, whether it needs an argument, code. -/
  long : List (Text × Bool × Char)

/-- A word that is taken for options; a dash alone is an operand. -/
def isSwitch : Text → Bool
  | '-' :: _ :: _ => true
  | _ => false

section Getopt
variable (S : Switches)

/-- The codes of a word of short options, and whether the last one waits for the next word. -/
def readShort : Text → List Char × Bool
  | [] => ([], false)
  | c :: s =>
    match S.short c with
    | none => ('?' :: (readShort s).1, (readShort s).2)
    | some false => (c :: (readShort s).1, (readShort s).2)
    | some true => ([c], s.isEmpty)

/-- The option of that name, or the only one whose name begins so. -/
def findLong (name : Text) : Option (Text × Bool × Char) :=
  match S.long.find? fun o => o.1 = name with
  | some o => some o
  | none =>
    match S.long.filter fun o => name.isPrefixOf o.1 with
    | [o] => some o
    | _ => none

/-- The same of a long option, without its dashes. -/
def readLong (w : Text) : List Char × Bool :=
  match findLong S (w.takeWhile (· != '=')) with
  | none => (['?'], false)
  | some (_, needed, code) =>
    if w.contains '=' then (if needed then [code] else ['?'], false) else ([code], needed)

def readSwitch : Text → List Char × Bool
  | '-' :: '-' :: w => readLong S w
  | w => readShort S w.tail

/-- The codes in the order of the calls, and the operands. -/
def getoptLong : List Text → List Char × List Text
  | [] => ([], [])
  | w :: ws =>
    if w = lit "--" then ([], ws)
    else if isSwitch w then
      if (readSwitch S w).2 then
        match ws with
        | [] => ((readSwitch S w).1.dropLast ++ ['?'], [])
        | _ :: ws => ((readSwitch S w).1 ++ (getoptLong ws).1, (getoptLong ws).2)
      else ((readSwitch S w).1 ++ (getoptLong ws).1, (getoptLong ws).2)
    else ((getoptLong ws).1, w :: (getoptLong ws).2)

/-- Words without options. -/
theorem getoptLong_operands {ws : List Text} (h : ∀ w ∈ ws, isSwitch w = false) :
    getoptLong S ws = ([], ws) := by
  induction ws with
  | nil => rfl
  | cons w ws ih =>
    rw [List.forall_mem_cons] at h
    have hend : w ≠ lit "--" := by
      rintro rfl
      exact absurd h.1 (by with_unfolding_all decide)
    rw [getoptLong.eq_def]
    simp [hend, h.1, ih h.2]

theorem operands_length (ws : List Text) : (getoptLong S ws).2.length ≤ ws.length := by
  fun_induction getoptLong S ws <;> grind

/-- **An option is no operand.** -/
theorem operands_fewer {ws : List Text} (h : ∃ w ∈ ws, isSwitch w = true) :
    (getoptLong S ws).2.length < ws.length := by
  obtain ⟨v, hv, hswitch⟩ := h
  have hle := operands_length S
  fun_induction getoptLong S ws <;> grind

end Getopt

end Tcos.Libc
