import Tcos.Libc.Numbers
import Tcos.Libc.Text

/-! What the handlers of tcosxmlrpc share: the two builds, command lines whose bytes
remember where they came from, the machine a handler runs on, and the helpers of
common.c.

Everything outside the server is an `Env`: the commands it runs, the files it reads,
the X displays it opens, and whatever an uninitialised buffer holds. -/
namespace Tcos.Xmlrpc
open Shell (Text lit)
open Libc

/-- The two servers the Makefile builds from the sources. -/
inductive Build where
  | thinClient
  | standalone
  deriving DecidableEq, Repr

def Build.tcosPath : Build → Text
  | .thinClient => lit "/sbin"
  | .standalone => lit "/usr/lib/tcos"

/-- `BSIZE`. -/
def bsize : Nat := 500

/-- `BUFF_SIZE`. -/
def buffSize : Nat := 1000

/-- `BIG_BUFFER`. -/
def bigBuffer : Nat := 5000

/-! ### Command lines -/

/-- A byte of a command line, and whether it was copied from the request. -/
structure Byte where
  char : Char
  requested : Bool
  deriving DecidableEq, Repr

abbrev Line := List Byte

/-- Text of the server's own. -/
def own (t : Text) : Line := t.map fun c => ⟨c, false⟩

/-- Text of the request. -/
def req (t : Text) : Line := t.map fun c => ⟨c, true⟩

/-- The string `popen` is given. -/
def Line.text (l : Line) : Text := l.map Byte.char

@[simp] theorem own_text (t : Text) : Line.text (own t) = t := by
  simp [Line.text, own, Function.comp_def]

@[simp] theorem req_text (t : Text) : Line.text (req t) = t := by
  simp [Line.text, req, Function.comp_def]

@[simp] theorem append_text (l m : Line) : Line.text (l ++ m) = l.text ++ m.text := by
  simp [Line.text]

@[simp] theorem own_length (t : Text) : (own t).length = t.length := by simp [own]

@[simp] theorem req_length (t : Text) : (req t).length = t.length := by simp [req]

/-! ### The machine -/

def isHostChar (c : Char) : Bool := c.isAlphanum || c == '-' || c == '.'

/-- A host name as `gethostname` returns it. -/
structure HostName where
  name : Text
  some : name ≠ []
  chars : ∀ c ∈ name, isHostChar c = true
  short : name.length ≤ 64

/-- The bus ids of lspci, such as `00:1f.2`. -/
structure BusId where
  id : Text
  chars : ∀ c ∈ id, c.isAlphanum = true ∨ c = ':' ∨ c = '.'

/-- The six bytes `mkstemp` puts in place of `XXXXXX`. -/
structure TempSuffix where
  text : Text
  chars : ∀ c ∈ text, c.isAlphanum = true
  size : text.length = 6

/-- What a command gives back through the pipe. -/
inductive Pipe where
  /-- `popen` returned no stream. -/
  | failed
  /-- Nothing was printed. -/
  | silent
  | line (l : Text)
  deriving DecidableEq, Repr

/-- Four words of the stack. -/
abbrev Stack := Int32 × Int32 × Int32 × Int32

structure Env where
  /-- The `VERSION` the server was built with. -/
  version : Text
  hostname : HostName
  /-- What `ip_string` holds once the output of `getinfo.sh -i NETWORK_IP` was read. -/
  ipString : Text
  /-- The uninitialised address fields of `check_ip_address` on the own address. -/
  ownStack : Stack
  /-- Those of the call in `handle_xauth`. -/
  xauthStack : Stack
  mkstemp : Option TempSuffix
  /-- `XOpenDisplay` succeeds on the display with this cookie in the authority file. -/
  opens : Text → Text → Bool
  validateLogin : Text → Text → Text
  lspci : List BusId
  popen : Text → Pipe
  /-- `system` returned zero. -/
  system : Text → Bool
  readfile : Text → Option (List UInt8)
  /-- `fopen` for writing succeeds. -/
  canWrite : Text → Bool
  /-- What an uninitialised text buffer holds. -/
  leftover : Text
  /-- What an uninitialised length holds. -/
  strayLength : Nat
  /-- What the uninitialised length of an output holds. -/
  strayOutput : Nat
  /-- The memory after a string's terminator. -/
  beyond : List UInt8

/-- A client named `tcos` whose X servers take every cookie and whose commands print nothing. -/
def Env.client : Env where
  version := lit "0.89.94"
  hostname := ⟨lit "tcos", by with_unfolding_all decide, Shell.each (by with_unfolding_all decide), by with_unfolding_all decide⟩
  ipString := lit "10.0.0.7"
  ownStack := (0, 0, 0, 0)
  xauthStack := (0, 0, 0, 0)
  mkstemp := some ⟨lit "a1B2c3", Shell.each (by with_unfolding_all decide), by with_unfolding_all decide⟩
  opens _ _ := true
  validateLogin _ _ := lit "error: User not allowed"
  lspci := [⟨lit "00:1f.2", Shell.each (by with_unfolding_all decide)⟩]
  popen _ := .silent
  system _ := true
  readfile _ := none
  canWrite _ := true
  leftover := []
  strayLength := 0
  strayOutput := 0
  beyond := []

/-! ### common.c -/

/-- `struct ip_address`. -/
structure Ip where
  data : List Int
  isIp : Bool
  ipstr : Text
  deriving DecidableEq, Repr

def dotted (d : List Int) : Text := List.intercalate ['.'] (d.map decimal)

/-- What `sscanf` did not assign keeps what the stack held. -/
def checkIpAddress (stack : Stack) (data : Text) : Ip :=
  let (a, b, c, d) := stack
  let read := scanDotted 4 data
  let fields := read ++ ([a, b, c, d].map Int32.toInt).drop read.length
  let ipstr := cut 1024 (dotted fields)
  ⟨fields, data = ipstr, ipstr⟩

/-- An `int`. -/
def IsInt (n : Int) : Prop := -2 ^ 31 ≤ n ∧ n < 2 ^ 31

theorem toInt_isInt (n : Int) : IsInt (toInt n) := by
  unfold IsInt toInt
  omega

theorem decimal_length {n : Int} (h : IsInt n) : (decimal n).length ≤ 11 := by
  have hn : (Nat.toDigits 10 n.natAbs).length ≤ 10 := by
    rw [Nat.length_toDigits_le_iff (by decide) (by decide)]
    unfold IsInt at h
    omega
  unfold decimal
  split
  · rw [List.length_cons]
    omega
  · omega

theorem scanDotted_isInt (n : Nat) (s : Text) :
    (scanDotted n s).length ≤ n ∧ ∀ v ∈ scanDotted n s, IsInt v := by
  induction n generalizing s with
  | zero => simp [scanDotted]
  | succ n ih =>
    unfold scanDotted
    split
    · simp
    · split
      · rename_i rest
        refine ⟨by simpa using (ih _).1, ?_⟩
        intro v hv
        rcases List.mem_cons.mp hv with rfl | hv
        · exact toInt_isInt _
        · exact (ih _).2 v hv
      · simp [toInt_isInt]

theorem ipFields (stack : Stack) (data : Text) :
    (checkIpAddress stack data).data.length = 4 ∧ ∀ v ∈ (checkIpAddress stack data).data, IsInt v := by
  obtain ⟨a, b, c, d⟩ := stack
  obtain ⟨hlen, hint⟩ := scanDotted_isInt 4 data
  refine ⟨by simp [checkIpAddress]; omega, fun v hv => ?_⟩
  rcases List.mem_append.mp hv with hv | hv
  · exact hint v hv
  · obtain ⟨x, _, rfl⟩ := List.mem_map.mp (List.mem_of_mem_drop hv)
    exact ⟨x.le_toInt, x.toInt_lt⟩

/-- Four printed integers and the dots between them. -/
theorem dotted_spec {d : List Int} (hl : d.length = 4) (hd : ∀ v ∈ d, IsInt v) :
    (dotted d).length ≤ 47 ∧ dotted d ≠ [] ∧
      ∀ c ∈ dotted d, c.isDigit = true ∨ c = '-' ∨ c = '.' := by
  match d, hl with
  | [a, b, c, e], _ =>
    have ha := decimal_length (hd a (by simp))
    have hb := decimal_length (hd b (by simp))
    have hc := decimal_length (hd c (by simp))
    have he := decimal_length (hd e (by simp))
    have hne := decimal_ne_nil a
    have hchar := fun n => decimal_chars n
    have hform : dotted [a, b, c, e] =
        decimal a ++ '.' :: (decimal b ++ '.' :: (decimal c ++ '.' :: decimal e)) := by
      simp [dotted, List.intercalate, List.intersperse]
    rw [hform]
    refine ⟨by simp; omega, by simp [hne], fun x hx => ?_⟩
    simp only [List.mem_append, List.mem_cons] at hx
    grind

/-- **What passes for an address is short and made of digits, dashes and dots.** -/
theorem isIp_spec {stack : Stack} {data : Text} (h : (checkIpAddress stack data).isIp = true) :
    (checkIpAddress stack data).ipstr = data ∧ data.length ≤ 47 ∧ data ≠ [] ∧
      ∀ c ∈ data, c.isDigit = true ∨ c = '-' ∨ c = '.' := by
  obtain ⟨hlen, hint⟩ := ipFields stack data
  obtain ⟨h1, h2, h3⟩ := dotted_spec hlen hint
  have hcut : (checkIpAddress stack data).ipstr = dotted (checkIpAddress stack data).data :=
    cut_of_fits (Nat.lt_of_le_of_lt h1 (by decide))
  have hdata : data = (checkIpAddress stack data).ipstr := by simpa [checkIpAddress] using h
  rw [← hcut, ← hdata] at h1 h2 h3
  exact ⟨hdata.symm, h1, h2, h3⟩

/-- The first line of a command's output, or the text that was in the buffer before. -/
def reading (size : Nat) (before : Text) : Pipe → Option Text
  | .failed => none
  | .silent => some (cut size before)
  | .line l => some (removeLineBreak (fgets size l))

/-! ### Base 64 -/

def base64Table : Text := lit "ABCDEFGHIJKLMNOPQRSTUVWXYZabcdefghijklmnopqrstuvwxyz0123456789+/"

def base64Char (n : UInt8) : Char := base64Table.getD n.toNat '='

def base64Encode : List UInt8 → Text
  | [] => []
  | [a] => [base64Char (a >>> 2), base64Char ((a &&& 0x03) <<< 4), '=', '=']
  | [a, b] =>
    [base64Char (a >>> 2), base64Char (((a &&& 0x03) <<< 4) ||| (b >>> 4)),
      base64Char ((b &&& 0x0f) <<< 2), '=']
  | a :: b :: c :: rest =>
    base64Char (a >>> 2) :: base64Char (((a &&& 0x03) <<< 4) ||| (b >>> 4)) ::
      base64Char (((b &&& 0x0f) <<< 2) ||| (c >>> 6)) :: base64Char (c &&& 0x3f) :: base64Encode rest

/-- `dtable`: the value of a byte, none for a byte outside the alphabet. -/
def base64Value (c : Char) : Option UInt8 :=
  if c = '=' then some 0
  else (base64Table.idxOf? c).map UInt8.ofNat

def base64Blocks : List UInt8 → List UInt8
  | a :: b :: c :: d :: rest =>
    ((a <<< 2) ||| (b >>> 4)) :: ((b <<< 4) ||| (c >>> 2)) :: ((c <<< 6) ||| d) :: base64Blocks rest
  | _ => []

/-- `none` is the null pointer of an input whose length is no multiple of four. -/
def base64Decode (src : Text) : Option (List UInt8) :=
  let kept := src.filter fun c => (base64Value c).isSome
  let out := base64Blocks (kept.filterMap base64Value)
  let pads :=
    if kept[kept.length - 2]? = some '=' then 2
    else if kept.getLast? = some '=' then 1 else 0
  if kept.length % 4 ≠ 0 then none else some (out.take (out.length - pads))

example : base64Encode [77, 97, 110, 33] = lit "TWFuIQ==" := by with_unfolding_all decide

example : base64Decode (lit "TWFuIQ==") = some [77, 97, 110, 33] := by with_unfolding_all decide

def bytes (t : Text) : List UInt8 := t.map fun c => UInt8.ofNat c.toNat

end Tcos.Xmlrpc
