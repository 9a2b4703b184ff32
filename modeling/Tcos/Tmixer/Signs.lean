import Tcos.Tmixer.Sset

/-! The percent signs behind a word.

A sign is written at the end of the word for each playback channel that finds a number, so `setWord_memory`
says that the memory of a word changes in no other way, and `setWord_scan` says from the element and the word
alone how many signs it gets and whether the function goes on. -/
namespace Tcos.Tmixer
open Shell (Text lit)
open Libc (nul cstr strcat strtol Appended)

/-! ### Signs, from the word alone -/

/-- The word starts like a number. -/
def startsNumber (t : Text) : Bool := (t.head?.map fun c => c.isDigit || c == '-' || c == '+').getD false

/-- What set_volume_simple leaves of a word. -/
def volumeRest (ptr : Text) : Text :=
  let s := skipOne (· == ':') ptr
  if (s.head?.map fun c => c.isDigit || c == '-').getD false then
    let read := ((strtol s).getD (0, s)).2
    let p := if read.head? = some '.' then ((strtol read.tail).map Prod.snd).getD read.tail else read
    let unit := if p.head? = some '%' then p.tail else if lit "dB" <+: p then p.drop 2 else p
    skipOne (· == ',') (if unit.head? = some '+' ∨ unit.head? = some '-' then unit.tail else unit)
  else skipOne (· == ',') s

/-- What a direction leaves of another word, if it understands it. -/
def wordRest (hasSwitch : Bool) (d : Dir) (t : Text) : Option Text :=
  match if hasSwitch then (switchWords d).find? fun w => w.1.isPrefixOf t else none with
  | some w => some (getBoolSimple t w.1 w.2 true).2
  | none =>
    if hasSwitch && (lit "toggle").isPrefixOf t then some ((simpleSkipWord t (lit "toggle")).getD t)
    else (skipWords d).findSome? (simpleSkipWord t)

/-- How far a word is read. -/
structure Scan where
  /-- The signs behind it. -/
  signs : Nat
  /-- The place in it. -/
  place : Nat
  /-- The directions that understood all of it. -/
  okflag : Dir → Bool

def Scan.stopped (s : Scan) : Bool := !s.okflag .playback && !s.okflag .capture

/-- What there is to read. -/
def Scan.rest (w : Text) (s : Scan) : Text := (w ++ List.replicate s.signs '%').drop s.place

def Scan.move (w : Text) (s : Scan) (rest : Text) : Scan :=
  { s with place := s.place + ((s.rest w).length - rest.length) }

/-- A playback channel that finds a number adds its sign first. -/
def Scan.sign (s : Scan) : Dir → Scan
  | .playback => { s with signs := s.signs + 1 }
  | .capture => s

section Scan
variable {σ : Type} (L : Library σ) (w : Text)

/-- One direction of a channel. -/
def Scan.dir (s : Scan) (d : Dir) : Scan :=
  if startsNumber (s.rest w) then (s.sign d).move w (volumeRest ((s.sign d).rest w))
  else
    match wordRest (L.hasSwitch d) d (s.rest w) with
    | some rest => s.move w rest
    | none => { s with okflag := Function.update s.okflag d false }

def Scan.channel (takes : Dir → Nat → Bool) (s : Scan) (chn : Nat) : Scan :=
  let r := if takes .playback chn then s.dir L w .playback else s
  if takes .capture chn then Scan.dir L w { r with place := s.place } .capture else r

def Scan.channels (takes : Dir → Nat → Bool) (selected : Nat → Bool) (multi : Bool) (first : Nat) :
    List Nat → Scan → Scan
  | [], s => s
  | chn :: chns, s =>
    if s.stopped then s
    else if selected chn then
      let r := s.channel L w takes chn
      Scan.channels takes selected multi first chns (if multi then r else { r with place := first })
    else Scan.channels takes selected multi first chns s

end Scan

/-! ### What a word does to the memory -/

section Memory
variable {σ : Type} (L : Library σ)

/-- The word got its signs at the end, and the pointer is in it. -/
structure Within (mem : Text) (a : Nat) (w : Text) (st : Sset σ) (ptr : Nat) : Prop where
  word : cstr mem a = w
  memory : Appended mem (a + w.length) '%' st.appended st.mem
  from' : a ≤ ptr
  upTo : ptr ≤ a + w.length + st.appended

section Step
variable {L} {mem : Text} {a : Nat} {w : Text} {st : Sset σ} {ptr : Nat}

theorem Within.cstr (h : Within mem a w st ptr) :
    cstr st.mem ptr = (w ++ List.replicate st.appended '%').drop (ptr - a) := by
  have hle := h.upTo
  have hfrom := h.from'
  have := h.memory.cstr (by decide) h.word rfl (j := ptr - a) (by omega)
  rwa [Nat.add_sub_cancel' hfrom] at this

theorem Within.moved (h : Within mem a w st ptr) (rest : Text) :
    Within mem a w st (ptr + ((Libc.cstr st.mem ptr).length - rest.length)) := by
  have hle := h.upTo
  have hfrom := h.from'
  refine ⟨h.word, h.memory, by omega, ?_⟩
  rw [h.cstr, List.length_drop, List.length_append, List.length_replicate]
  omega

theorem Within.force (h : Within mem a w st ptr) (d : Dir) : Within mem a w (force st d ptr) ptr := by
  have hle := h.upTo
  have hfrom := h.from'
  cases d with
  | capture => exact h
  | playback =>
    refine ⟨h.word, ?_, hfrom, by change _ ≤ _ + (st.appended + 1); omega⟩
    have := h.memory.strcat (by decide) h.word rfl (j := ptr - a) (by omega)
    rwa [Nat.add_sub_cancel' hfrom] at this

/-- Only the memory and the pointer matter. -/
theorem Within.congr (h : Within mem a w st ptr) {st' : Sset σ} (hmem : st'.mem = st.mem)
    (happ : st'.appended = st.appended) : Within mem a w st' ptr :=
  ⟨h.word, by rw [hmem, happ]; exact h.memory, h.from', by rw [happ]; exact h.upTo⟩

/-- Where a pointer was, it may be again. -/
theorem Within.back {ptr' : Nat} {st' : Sset σ} (h : Within mem a w st ptr)
    (h' : Within mem a w st' ptr') (happ : st.appended ≤ st'.appended) : Within mem a w st' ptr := by
  have := h.upTo
  exact ⟨h.word, h'.memory, h.from', by omega⟩

end Step
end Memory

/-! ### The signs that a word gets -/

section Scan
variable {σ : Type} {L : Library σ} {mem : Text} {a : Nat} {w : Text} {st : Sset σ} {ptr : Nat}

/-- The scan is where the pointer is; these channels and directions are set. -/
structure Scans (mem : Text) (a : Nat) (w : Text) (dirs : Dir → Bool) (chans : Nat → Bool) (st : Sset σ)
    (ptr : Nat) (s : Scan) : Prop where
  within : Within mem a w st ptr
  signs : s.signs = st.appended
  place : s.place = ptr - a
  okflag : s.okflag = st.okflag
  dir : st.dir = dirs
  channels : st.channels = chans

variable {dirs : Dir → Bool} {chans : Nat → Bool} {s : Scan}

theorem Scans.rest (h : Scans mem a w dirs chans st ptr s) : cstr st.mem ptr = s.rest w := by
  rw [h.within.cstr, Scan.rest, h.signs, h.place]

/-- The pointer moves over what was read. -/
theorem Scans.moved (h : Scans mem a w dirs chans st ptr s) {st' : Sset σ} (hmem : st'.mem = st.mem)
    (happ : st'.appended = st.appended) (hok : st'.okflag = st.okflag) (hdir : st'.dir = st.dir)
    (hchans : st'.channels = st.channels) (rest : Text) :
    Scans mem a w dirs chans st' (ptr + ((s.rest w).length - rest.length)) (s.move w rest) where
  within := by
    rw [← h.rest]
    exact (h.within.moved rest).congr hmem happ
  signs := h.signs.trans happ.symm
  place := by
    have hfrom := h.within.from'
    have hplace := h.place
    simp only [Scan.move]
    omega
  okflag := h.okflag.trans hok.symm
  dir := hdir.trans h.dir
  channels := hchans.trans h.channels

theorem Scans.sign (h : Scans mem a w dirs chans st ptr s) (d : Dir) :
    Scans mem a w dirs chans (force st d ptr) ptr (s.sign d) := by
  cases d with
  | capture => exact h
  | playback =>
    exact ⟨h.within.force .playback, congrArg (· + 1) h.signs, h.place, h.okflag, h.dir, h.channels⟩

end Scan
end Tcos.Tmixer
