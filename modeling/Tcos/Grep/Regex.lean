import Tcos.Shell.Parser

/-! Basic regular expressions, as grep documents them.

`compile` reads a pattern: a byte, a bracket, `.`, the anchors, groups, back references, branches
and repetitions, and one pattern for each line of it. `Regex.ends` is every way an expression can
go on from a place in a line; `selects` says whether the pattern matches somewhere in a line. What
is no pattern selects nothing. -/
namespace Tcos.Grep
open Shell (Text lit)

/-! ### Expressions -/

def isWord (c : Char) : Bool := c.isAlphanum || c == '_'

/-- `\<`, `\>`, `\b` and `\B`. -/
inductive Edge where
  | left
  | right
  | either
  | neither
  deriving DecidableEq, Repr

inductive Regex where
  | empty
  /-- One byte of this kind. -/
  | one (ok : Char → Bool)
  | start
  | stop
  | edge (e : Edge)
  | back (n : Nat)
  | group (n : Nat) (r : Regex)
  | cat (r s : Regex)
  | either (r s : Regex)
  | times (r : Regex) (least : Nat) (most : Option Nat)

/-- A place in a line. -/
structure Here where
  before : Option Char
  rest : Text
  /-- What the groups matched so far. -/
  groups : List (Nat × Text)
  deriving DecidableEq, Repr

def Here.skip (h : Here) (n : Nat) : Here :=
  { h with before := ((h.rest.take n).getLast?).or h.before, rest := h.rest.drop n }

/-- The next byte and the one before it, as an edge of a word. -/
def Edge.holds (e : Edge) (h : Here) : Bool :=
  let left := (h.before.map isWord).getD false
  let right := (h.rest.head?.map isWord).getD false
  match e with
  | .left => !left && right
  | .right => left && !right
  | .either => left != right
  | .neither => left == right

/-- `step` again and again, at least `least` times and as often as the line has bytes left. -/
def repeated (step : Here → List Here) : Nat → Nat → Option Nat → Here → List Here
  | 0, _, _, _ => []
  | fuel + 1, least, most, h =>
    (if least = 0 then [h] else []) ++
      if most = some 0 then []
      else (step h).flatMap fun h' =>
        -- a turn that matches nothing is not taken again
        if least = 0 ∧ h'.rest.length = h.rest.length then []
        else repeated step fuel (least - 1) (most.map fun n => n - 1) h'

/-- The places where a match that starts here can end. -/
def Regex.ends : Regex → Here → List Here
  | .empty, h => [h]
  | .one ok, h => if (h.rest.head?.map ok).getD false then [h.skip 1] else []
  | .start, h => if h.before = none then [h] else []
  | .stop, h => if h.rest = [] then [h] else []
  | .edge e, h => if e.holds h then [h] else []
  | .back n, h =>
    match h.groups.lookup n with
    | none => []
    | some t => if t <+: h.rest then [h.skip t.length] else []
  | .group n r, h =>
    (r.ends h).map fun h' =>
      { h' with groups := (n, h.rest.take (h.rest.length - h'.rest.length)) :: h'.groups }
  | .cat r s, h => (r.ends h).flatMap s.ends
  | .either r s, h => r.ends h ++ s.ends h
  | .times r least most, h => repeated r.ends (least + h.rest.length + 1) least most h

/-- The places of a line. -/
def places : Option Char → Text → List Here
  | before, [] => [⟨before, [], []⟩]
  | before, c :: s => ⟨before, c :: s, []⟩ :: places (some c) s

def Regex.selects (r : Regex) (line : Text) : Bool := (places none line).any fun h => !(r.ends h).isEmpty

/-! ### Patterns -/

inductive Token where
  | one (ok : Char → Bool)
  | start
  | stop
  | edge (e : Edge)
  | back (n : Nat)
  | times (least : Nat) (most : Option Nat)
  | opening
  | closing
  | bar

/-- The classes a bracket can name. -/
def classes : List (Text × (Char → Bool)) :=
  [(lit "alpha", Char.isAlpha), (lit "digit", Char.isDigit), (lit "alnum", Char.isAlphanum),
    (lit "upper", Char.isUpper), (lit "lower", Char.isLower), (lit "space", Char.isWhitespace),
    (lit "blank", fun c => c == ' ' || c == '\t'),
      (lit "cntrl", fun c => c.toNat < 32 || c.toNat == 127),
    (lit "print", fun c => 32 ≤ c.toNat && c.toNat < 127),
      (lit "graph", fun c => 32 < c.toNat && c.toNat < 127),
    (lit "punct", fun c => 32 < c.toNat && c.toNat < 127 && !c.isAlphanum),
    (lit "xdigit", fun c => c.isDigit || ('a' ≤ c && c ≤ 'f') || ('A' ≤ c && c ≤ 'F'))]

/-- What stands between the brackets. -/
inductive Element where
  /-- A byte that stands there, or `[.c.]`. -/
  | byte (c : Char) (named : Bool)
  /-- `[:alpha:]` or `[=c=]`. -/
  | kind (ok : Char → Bool)

/-- The name before `close` and a bracket, and what follows. -/
def elementName (close : Char) : Text → Option (Text × Text)
  | c :: d :: s =>
    if c = close ∧ d = ']' then some ([], s)
    else (elementName close (d :: s)).map fun r => (c :: r.1, r.2)
  | _ => none

def element : Text → Option (Element × Text)
  | [] => none
  | '[' :: k :: s =>
    if k = ':' then (elementName k s).bind fun r =>
      (classes.find? fun x => x.1 = r.1).map fun x => (.kind x.2, r.2)
    else if k = '.' ∨ k = '=' then (elementName k s).bind fun r =>
      match r.1 with
      | [c] => some (if k = '.' then .byte c true else .kind (· == c), r.2)
      | _ => none
    else some (.byte '[' false, k :: s)
  | c :: s => some (.byte c false, s)

/-- The bytes between the brackets, and what follows; a first `]` is itself. -/
def bracket : Nat → Bool → Text → Option ((Char → Bool) × Text)
  | 0, _, _ => none
  | fuel + 1, first, t =>
    let add (ok : Char → Bool) (s : Text) :=
      (bracket fuel false s).map fun r => (fun c => ok c || r.1 c, r.2)
    if t.head? = some ']' ∧ first = false then some (fun _ => false, t.tail)
    else
      match element t with
      | none => none
      | some (.kind ok, s) => add ok s
      | some (.byte a named, s) =>
        -- a dash is itself only first or last
        if a = '-' ∧ named = false ∧ first = false ∧ s.head? ≠ some ']' then none
        else
          match s with
          | '-' :: s' =>
            if s'.head? = some ']' then add (· == a) s
            else
              match element s' with
              | some (.byte z _, s'') => if a ≤ z then add (fun x => a ≤ x && x ≤ z) s'' else none
              | _ => none
          | _ => add (· == a) s

/-- `[:alpha:]` for `[[:alpha:]]`, which is no pattern. -/
def isColoned (t : Text) : Bool :=
  let name := t.takeWhile (· != ']')
  name.head? == some ':' && name.getLast? == some ':' && name.any (· != ':') && !name.contains '-' &&
    !(name.zip name.tail).any fun p => p.1 == '[' && (p.2 == ':' || p.2 == '.' || p.2 == '=')

/-- What follows `[` or `[^`. -/
def brackets (t : Text) : Option ((Char → Bool) × Text) :=
  if isColoned t then none else bracket (t.length + 1) true t

/-- A number, and what follows it. -/
def number (t : Text) : Option Nat × Text :=
  let digits := t.takeWhile Char.isDigit
  (if digits = [] then none else some (digits.foldl (fun n c => 10 * n + (c.toNat - 48)) 0),
    t.drop digits.length)

/-- `RE_DUP_MAX`. -/
def dupMax : Nat := 32767

/-- After `\{`: the least and the greatest number of turns. -/
def interval (t : Text) : Option ((Nat × Option Nat) × Text) :=
  let ordered (least : Nat) (most : Option Nat) (s : Text) : Option ((Nat × Option Nat) × Text) :=
    if least ≤ most.getD dupMax ∧ most.getD least ≤ dupMax then some ((least, most), s) else none
  match number t with
  | (some n, '\\' :: '\x7d' :: s) => ordered n (some n) s
  | (n, ',' :: s) =>
    match number s with
    | (most, '\\' :: '\x7d' :: s') => ordered (n.getD 0) most s'
    | _ => none
  | _ => none

/-- Where in a pattern a token stands. -/
inductive Spot where
  /-- Where an expression begins. -/
  | opens
  /-- Behind anchors and edges of it only. -/
  | begins
  | inside
  deriving DecidableEq, Repr

/-- Behind an anchor. -/
def Spot.anchored : Spot → Spot
  | .inside => .inside
  | _ => .begins

/-- The tokens of a pattern. -/
def lex : Nat → Spot → Text → Option (List Token)
  | 0, _, _ => none
  | fuel + 1, spot, t =>
    let go (token : Token) (spot : Spot) (s : Text) := (lex fuel spot s).map (token :: ·)
    match t with
    | [] => some []
    | ['\\'] => none
    | '\\' :: c :: s =>
      match c with
      | '(' => go .opening .opens s
      | ')' => go .closing .inside s
      | '|' => go .bar .opens s
      | '\x7b' =>
        if spot = .inside then (interval s).bind fun r => go (.times r.1.1 r.1.2) .inside r.2
        else go (.one (· == c)) .inside s
      | '+' => go (if spot = .inside then .times 1 none else .one (· == c)) .inside s
      | '?' => go (if spot = .inside then .times 0 (some 1) else .one (· == c)) .inside s
      | '\x60' => go .start spot.anchored s
      | '\x27' => go .stop spot.anchored s
      | '<' => go (.edge .left) spot.anchored s
      | '>' => go (.edge .right) spot.anchored s
      | 'b' => go (.edge .either) spot.anchored s
      | 'B' => go (.edge .neither) spot.anchored s
      | 'w' => go (.one isWord) .inside s
      | 'W' => go (.one fun x => !isWord x) .inside s
      | 's' => go (.one Char.isWhitespace) .inside s
      | 'S' => go (.one fun x => !x.isWhitespace) .inside s
      | _ =>
        if c.isDigit && c != '0' then go (.back (c.toNat - 48)) .inside s else go (.one (· == c)) .inside s
    | '[' :: '^' :: s =>
      (brackets s).bind fun r => go (.one fun c => !r.1 c) .inside r.2
    | '[' :: s => (brackets s).bind fun r => go (.one r.1) .inside r.2
    | '*' :: s => go (if spot = .inside then .times 0 none else .one (· == '*')) .inside s
    | '^' :: s => if spot = .opens then go .start .begins s else go (.one (· == '^')) .inside s
    | '$' :: s =>
      if s = [] ∨ lit "\\)" <+: s ∨ lit "\\|" <+: s then go .stop spot.anchored s
        else go (.one (· == '$')) .inside s
    | '.' :: s => go (.one fun _ => true) .inside s
    | c :: s => go (.one (· == c)) .inside s

/-- A group that is still open. -/
structure Frame where
  number : Nat := 0
  branches : List Regex := []
  /-- Of the last branch, the last one first. -/
  pieces : List Regex := []

def Frame.push (f : Frame) (r : Regex) : Frame := { f with pieces := r :: f.pieces }

def Frame.branch (f : Frame) : Regex := f.pieces.foldl (fun r s => .cat s r) .empty

def Frame.regex (f : Frame) : Regex := f.branches.foldl (fun r s => .either s r) f.branch

/-- The expression the tokens stand for; `opened` groups have begun, `outer` of them around `f`. -/
def build (opened : Nat) (f : Frame) (outer : List Frame) : List Token → Option Regex
  | [] => if outer = [] then some f.regex else none
  | .one ok :: rest => build opened (f.push (.one ok)) outer rest
  | .start :: rest => build opened (f.push .start) outer rest
  | .stop :: rest => build opened (f.push .stop) outer rest
  | .edge e :: rest => build opened (f.push (.edge e)) outer rest
  | .back n :: rest =>
    if n ≤ opened ∧ (f :: outer).all (fun g => g.number ≠ n) then build opened
      (f.push (.back n)) outer rest
    else none
  | .times least most :: rest =>
    match f.pieces with
    | [] => none
    | r :: pieces => build opened { f with pieces := .times r least most :: pieces } outer rest
  | .opening :: rest => build (opened + 1) { number := opened + 1 } (f :: outer) rest
  | .closing :: rest =>
    match outer with
    | [] => none
    | g :: outer => build opened (g.push (.group f.number f.regex)) outer rest
  | .bar :: rest => build opened { f with branches := f.branch :: f.branches, pieces := [] } outer rest

def parse (t : Text) : Option Regex := (lex (t.length + 1) .opens t).bind (build 0 {} [])

/-- A pattern of several lines is one for each. -/
def compile (pattern : Text) : Option (List Regex) := (pattern.splitOn '\n').mapM parse

/-- `grep` with this pattern prints the line. -/
def selects (pattern line : Text) : Bool :=
  ((compile pattern).map fun rs => rs.any fun r => r.selects line).getD false

/-! ### Patterns without special bytes -/

/-- Bytes that stand for themselves everywhere in a pattern. -/
def isOrdinary (c : Char) : Bool :=
  c != '\\' && c != '[' && c != '*' && c != '^' && c != '$' && c != '.' && c != '\n'

/-- These bytes, one after the other. -/
def literal (t : Text) : Regex := t.foldr (fun c r => .cat (.one (· == c)) r) .empty

theorem lex_ordinary {t : Text} (ht : ∀ c ∈ t, isOrdinary c = true) (fuel : Nat)
    (hfuel : t.length < fuel) (spot : Spot) : lex fuel spot t = some
    (t.map fun c => .one (· == c)) := by
  induction t generalizing fuel spot with
  | nil =>
    obtain ⟨fuel, rfl⟩ := Nat.exists_eq_add_one.mpr hfuel
    rfl
  | cons c t ih =>
    obtain ⟨fuel, rfl⟩ := Nat.exists_eq_add_one.mpr (lt_of_le_of_lt (Nat.zero_le _) hfuel)
    have hc := ht c (List.mem_cons_self ..)
    simp only [isOrdinary, Bool.and_eq_true, bne_iff_ne] at hc
    have hrest := ih (fun d hd => ht d (List.mem_cons_of_mem c hd)) fuel (by simp at hfuel; omega) .inside
    unfold lex
    split <;> simp_all

theorem build_ones (t : Text) (f : Frame) (opened : Nat) :
    build opened f [] (t.map fun c => .one (· == c)) =
      some { f with pieces := (t.map fun c => Regex.one (· == c)).reverse ++ f.pieces }.regex := by
  induction t generalizing f with
  | nil => rfl
  | cons c t ih => simp [build, ih, Frame.push]

/-- The bytes of a line that a literal matches from here. -/
theorem ends_literal (t : Text) (h : Here) : ((literal t).ends h).isEmpty = !decide (t <+: h.rest) := by
  induction t generalizing h with
  | nil => simp [literal, Regex.ends]
  | cons c t ih =>
    have hcat : (literal (c :: t)).ends h = ((Regex.one (· == c)).ends h).flatMap (literal t).ends := rfl
    rw [hcat, Regex.ends]
    cases hrest : h.rest with
    | nil => simp
    | cons d s =>
      by_cases hd : d = c
      · have hskip : (h.skip 1).rest = s := by simp [Here.skip, hrest]
        simp [hd, ih, hskip]
      · simp [hd, Ne.symm hd]

theorem parse_ordinary {t : Text} (ht : ∀ c ∈ t, isOrdinary c = true) :
    parse ('^' :: t) = some (.cat .start (literal t)) := by
  have hlex : lex (('^' :: t).length + 1) .opens ('^' :: t) = some
    (.start :: t.map fun c => .one (· == c)) := by
    rw [lex, if_pos rfl]
    dsimp only
    rw [lex_ordinary ht _ (by simp)]
    rfl
  rw [parse, hlex, Option.bind_some, build, build_ones]
  simp [Frame.regex, Frame.branch, Frame.push, literal, List.foldr_map]

/-- Only the first place of a line has nothing before it. -/
theorem places_before (c : Char) (s : Text) : ∀ h ∈ places (some c) s, h.before ≠ none := by
  induction s generalizing c with
  | nil => simp [places]
  | cons d s ih => simpa [places] using ih d

/-- **Such a pattern with an anchor before it selects the lines that begin with it.** -/
theorem selects_ordinary {t : Text} (ht : ∀ c ∈ t, isOrdinary c = true) (line : Text) :
    selects ('^' :: t) line = decide (t <+: line) := by
  have hbreak : ∀ c ∈ '^' :: t, (c == '\n') = false := by
    intro c hc
    rcases List.mem_cons.mp hc with rfl | hc
    · rfl
    · have := ht c hc
      simp_all [isOrdinary]
  have hcompile : compile ('^' :: t) = some [.cat .start (literal t)] := by
    have hsplit : ('^' :: t).splitOn '\n' = ['^' :: t] := List.splitOnP_eq_singleton hbreak
    rw [compile, hsplit]
    simp [parse_ordinary ht]
  have hends : ∀ h : Here, (Regex.cat .start (literal t)).ends h =
      if h.before = none then (literal t).ends h else [] := by
    intro h
    rw [Regex.ends, Regex.ends]
    split <;> simp
  have hlater : ∀ c s, ((places (some c) s).any fun h =>
    !((Regex.cat .start (literal t)).ends h).isEmpty) = false := by
    intro c s
    rw [List.any_eq_false]
    intro h hh
    simp [hends, places_before c s h hh]
  simp only [selects, hcompile, Option.map_some, Option.getD_some, List.any_cons, List.any_nil,
    Bool.or_false, Regex.selects]
  cases line with
  | nil => simp [places, hends, ends_literal]
  | cons c s =>
    rw [places, List.any_cons, hlater, Bool.or_false, hends, if_pos rfl, ends_literal, Bool.not_not]

example : selects (lit "^a.*b\\(c\\)\\1\\\x7b2\\\x7d$") (lit "axxbccc") = true := by
    with_unfolding_all decide

end Tcos.Grep
