import Tcos.Libc.Memory
import Tcos.Libc.Numbers
import Tcos.Tmixer.Selem

/-! `sset` of tmixer: words that switch and set the channels of an element.

The words are read where they stand in memory. A word that starts like a number gets a percent sign for
each playback channel, by `strcat` in place, before the volume is read and set. -/
namespace Tcos.Tmixer
open Shell (Text lit)
open Libc (cstr strcat strtol)

/-! ### The library -/

inductive Volume where
  | raw
  | dB
  deriving DecidableEq, Repr

/-- What the library answers of an element, what the doubles come to, and the options. -/
structure Library (σ : Type) where
  hasChannel : Dir → Nat → Bool
  hasVolume : Dir → Bool
  hasSwitch : Dir → Bool
  isSwitchJoined : Dir → Bool
  getRange : Dir → Volume → Option (Int × Int)
  getVolume : σ → Dir → Volume → Nat → Option Int
  /-- And whether it worked. -/
  setVolume : σ → Dir → Volume → Nat → Int → σ × Bool
  getSwitch : σ → Dir → Nat → Bool
  setSwitch : σ → Dir → Nat → Bool → σ × Bool
  /-- `(long)ceil(val * (max - min) * 0.01 + min)`. -/
  convertPrange1 : ℚ → Int → Int → Int
  /-- `(long)(val * 100.0)`. -/
  hundredths : ℚ → Int
  noCheck : Bool
  ignoreError : Bool

inductive Call where
  | volume (d : Dir) (v : Volume) (chn : Nat) (val : Int)
  | switch (d : Dir) (chn : Nat) (on : Bool)
  deriving DecidableEq, Repr

/-- The variables of sset_channels, and the calls so far. -/
structure Sset (σ : Type) where
  mem : Text
  mixer : σ
  calls : List Call
  checkFlag : Bool
  okflag : Dir → Bool
  channels : Nat → Bool
  dir : Dir → Bool
  /-- How many signs the current word got. -/
  appended : Nat

/-- `okflag == 0`: the function returns. -/
def Sset.stopped {σ : Type} (st : Sset σ) : Bool := !st.okflag .playback && !st.okflag .capture

section Library
variable {σ : Type} (L : Library σ)

def Library.putVolume (st : Sset σ) (d : Dir) (v : Volume) (chn : Nat) (val : Int) : Sset σ × Bool :=
  let r := L.setVolume st.mixer d v chn val
  ({ st with mixer := r.1, calls := st.calls ++ [.volume d v chn val] }, r.2)

def Library.putSwitch (st : Sset σ) (d : Dir) (chn : Nat) (on : Bool) : Sset σ :=
  let r := L.setSwitch st.mixer d chn on
  { st with mixer := r.1, calls := st.calls ++ [.switch d chn on], checkFlag := st.checkFlag || r.2 }

def Library.checkRange (val min max : Int) : Int :=
  if L.noCheck then val else if val < min then min else if val > max then max else val

end Library

/-! ### Words -/

def skipOne (p : Char → Bool) (t : Text) : Text := if (t.head?.map p).getD false then t.tail else t

/-- `strncasecmp` of a whole name. -/
def startsCase (str t : Text) : Bool := (t.take str.length).map Char.toLower == str.map Char.toLower

def isWordEnd (c : Char) : Bool := c == ',' || c == ':'

def isMaskEnd (c : Char) : Bool := c == ',' || c == ' ' || c == '\t'

/-- The value, and what follows. -/
def getBoolSimple (ptr str : Text) (invert orig : Bool) : Bool × Text :=
  let ptr := skipOne (· == ':') ptr
  let r := if startsCase str ptr then (!invert, ptr.dropWhile fun c => !isWordEnd c) else (orig, ptr)
  (r.1, skipOne isWordEnd r.2)

/-- What follows the word, if it is this one. -/
def simpleSkipWord (ptr str : Text) : Option Text :=
  let xptr := skipOne (· == ':') ptr
  if startsCase str xptr then some (skipOne isWordEnd (xptr.dropWhile fun c => !isWordEnd c)) else none

def chanmask : List (Text × List Nat) :=
  [(lit "frontleft", [0]), (lit "frontright", [1]), (lit "frontcenter", [4]), (lit "front", [0, 1]),
    (lit "center", [4]), (lit "rearleft", [2]), (lit "rearright", [3]), (lit "rear", [2, 3]),
    (lit "woofer", [5])]

def channelsMask (arg : Text) (def' : Nat → Bool) : (Nat → Bool) × Text :=
  match chanmask.find? fun c => startsCase c.1 arg with
  | some c => (fun chn => chn ∈ c.2, skipOne isMaskEnd (arg.dropWhile fun c => !isMaskEnd c))
  | none => (def', arg)

def dirMask (arg : Text) (def' : Dir → Bool) : (Dir → Bool) × Text :=
  let rest := skipOne isMaskEnd (arg.dropWhile fun c => !isMaskEnd c)
  if startsCase (lit "playback") arg then (fun d => d == .playback, rest)
  else if startsCase (lit "capture") arg then (fun d => d == .capture, rest)
  else (def', arg)

/-- The double that a decimal number is, before it is rounded. -/
def strtod (s : Text) : ℚ :=
  let negative := s.head? == some '-'
  let body := if negative then s.tail else s
  let rest := body.dropWhile Char.isDigit
  let decimals := if rest.head? = some '.' then rest.tail.takeWhile Char.isDigit else []
  let value : ℚ := (Nat.ofDigitChars 10 (body.takeWhile Char.isDigit ++ decimals) 0 :
    ℚ) / 10 ^ decimals.length
  if negative then -value else value

/-! ### Channels -/

section Channels
variable {σ : Type} (L : Library σ)

/-- The return value says whether it is not negative. -/
def setVolumeSimple (st : Sset σ) (d : Dir) (chn : Nat) (ptr : Text) : (Sset σ × Bool) × Text :=
  let s := skipOne (· == ':') ptr
  if (s.head?.map fun c => c.isDigit || c == '-').getD false then
    -- `none` is invalid
    let range := if L.hasVolume d then L.getRange d .raw else none
    let read := (strtol s).getD (0, s)
    let p := if read.2.head? = some '.' then ((strtol read.2.tail).map Prod.snd).getD read.2.tail
      else read.2
    let unit : Option (Volume × Int × Int × Int) × Text :=
      if p.head? = some '%' then
        (range.map fun r => (.raw, L.convertPrange1 (strtod s) r.1 r.2, r.1, r.2), p.tail)
      else if lit "dB" <+: p then
        (range.bind fun _ => (L.getRange d .dB).map fun r => (.dB, L.hundredths (strtod s), r.1, r.2),
          p.drop 2)
      else (range.map fun r => (.raw, read.1, r.1, r.2), p)
    let sign : Option (Volume × Int × Int × Int) × Text :=
      if unit.2.head? = some '+' ∨ unit.2.head? = some '-' then
        (unit.1.bind fun v => (L.getVolume st.mixer d v.1 chn).map fun orig =>
          (v.1, if unit.2.head? = some '+' then orig + v.2.1 else orig - v.2.1, v.2.2), unit.2.tail)
      else unit
    (match sign.1 with
      | some (v, val, min, max) => L.putVolume st d v chn (L.checkRange val min max)
      | none => (st, false),
      skipOne (· == ',') sign.2)
  else ((st, L.hasVolume d), skipOne (· == ',') s)

/-- The words of a switch, and whether they turn it off. -/
def switchWords : Dir → List (Text × Bool)
  | .playback => [(lit "mute", true), (lit "off", true), (lit "unmute", false), (lit "on", false)]
  | .capture => [(lit "cap", false), (lit "rec", false), (lit "nocap", true), (lit "norec", true)]

/-- The words that are the other direction's. -/
def skipWords : Dir → List Text
  | .playback => [lit "cap", lit "rec", lit "nocap", lit "norec"]
  | .capture => [lit "mute", lit "off", lit "unmute", lit "on"]

/-- tmixer forces to work always with %. -/
def force (st : Sset σ) (d : Dir) (ptr : Nat) : Sset σ :=
  match d with
  | .playback => { st with mem := strcat st.mem ptr '%', appended := st.appended + 1 }
  | .capture => st

/-- One direction of a channel. -/
def setDir (st : Sset σ) (d : Dir) (chn : Nat) (firstchn : Bool) (ptr : Nat) : Sset σ × Nat :=
  let t := cstr st.mem ptr
  let moved (rest : Text) : Nat := ptr + (t.length - rest.length)
  match if L.hasSwitch d then (switchWords d).find? fun w => w.1.isPrefixOf t else none with
  | some w =>
    let r := getBoolSimple t w.1 w.2 (L.getSwitch st.mixer d chn)
    (L.putSwitch st d chn r.1, moved r.2)
  | none =>
    if L.hasSwitch d && (lit "toggle").isPrefixOf t then
      (if firstchn || !L.isSwitchJoined d then L.putSwitch st d chn !L.getSwitch st.mixer d chn else st,
        moved ((simpleSkipWord t (lit "toggle")).getD t))
    else if (t.head?.map fun c => c.isDigit || c == '-' || c == '+').getD false then
      let forced := force st d ptr
      let t := cstr forced.mem ptr
      let r := setVolumeSimple L forced d chn t
      ({ r.1.1 with checkFlag := r.1.1.checkFlag || r.1.2 }, ptr + (t.length - r.2.length))
    else
      match (skipWords d).findSome? (simpleSkipWord t) with
      | some rest => (st, moved rest)
      | none => ({ st with okflag := Function.update st.okflag d false }, ptr)

/-- Whether the direction of the channel is set. -/
def Library.takes (st : Sset σ) (d : Dir) (chn : Nat) : Bool := st.dir d && L.hasChannel d chn

/-- Both directions start at the same place. -/
def setChannel (st : Sset σ) (chn : Nat) (firstchn : Bool) (ptr : Nat) : Sset σ × Nat :=
  let r := if L.takes st .playback chn then setDir L st .playback chn firstchn ptr else (st, ptr)
  if L.takes st .capture chn then setDir L r.1 .capture chn firstchn ptr else r

def setChannels (multi : Bool) (optr : Nat) : List Nat → Sset σ → Bool → Nat → Sset σ
  | [], st, _, _ => st
  | chn :: chns, st, firstchn, ptr =>
    if st.stopped then st
    else if st.channels chn then
      let r := setChannel L st chn firstchn ptr
      setChannels multi optr chns r.1 false (if multi then r.2 else optr)
    else setChannels multi optr chns st firstchn ptr

/-- One word, by its address. -/
def setWord (st : Sset σ) (arg : Nat) : Sset σ :=
  if st.stopped then st
  else
    let t := cstr st.mem arg
    let masked := channelsMask t st.channels
    let st := { st with channels := masked.1, appended := 0 }
    if masked.2 = [] then st
    else
      let directed := dirMask masked.2 st.dir
      let st := { st with dir := directed.1 }
      if directed.2 = [] then st
      else
        let ptr := arg + (t.length - directed.2.length)
        setChannels L (directed.2.any (· == ',')) ptr channels st true ptr

def ssetChannels (mem : Text) (mixer : σ) (argv : List Nat) : Sset σ :=
  argv.tail.foldl (setWord L) ⟨mem, mixer, [], false, fun _ => true, fun _ => true, fun _ => true, 0⟩

end Channels
end Tcos.Tmixer
