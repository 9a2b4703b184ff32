import Tcos.Systems.Run
import Tcos.Tmixer.Signs

/-! Volumes in percent.

`forced_iff` says of which arguments each number is set as a percentage and each word is read as it was
given: a percent sign lands in the word only for a playback channel, behind the last number, and no sign
lands in the next word. -/
namespace Tcos.Tmixer
open Shell (Text lit)
open Libc (nul cstr strcat strtol Appended Holds Lands block)
open Systems (run Every)

/-! ### Numbers -/

def value (n : Text) : Nat := Nat.ofDigitChars 10 n 0

/-- A percentage as it is written. -/
structure IsNumeral (n : Text) : Prop where
  some : n ≠ []
  digits : ∀ c ∈ n, c.isDigit = true
  small : value n ≤ 100

theorem IsNumeral.head {n : Text} (hn : IsNumeral n) : ∃ c m, n = c :: m ∧ c.isDigit = true := by
  obtain ⟨c, m, rfl⟩ := List.exists_cons_of_ne_nil hn.some
  exact ⟨c, m, rfl, hn.digits c (List.mem_cons_self ..)⟩

theorem strtol_numeral {n t : Text} (hn : IsNumeral n) (ht : ∀ c ∈ t.head?, c.isDigit = false) :
    strtol (n ++ t) = some ((value n : Int), t) := by
  have hsmall := hn.small
  rw [Libc.strtol_read hn.some hn.digits ht]
  rw [Libc.toLong, ← value]
  congr 2
  omega

theorem strtod_numeral {n t : Text} (hn : IsNumeral n) (ht : ∀ c ∈ t.head?, c.isDigit = false)
    (hdot : t.head? ≠ some '.') : strtod (n ++ t) = value n := by
  obtain ⟨htake, hdrop⟩ := Libc.digits_read hn.digits ht
  obtain ⟨c, m, rfl, hc⟩ := hn.head
  have hminus : c ≠ '-' := fun h => by simp [h] at hc
  rw [List.cons_append] at htake hdrop ⊢
  simp [strtod, hminus, htake, hdrop, hdot, value]

section Claim
variable {σ : Type} (L : Library σ)

/-- The channels that are set, of these. -/
def visited (st : Sset σ) (chns : List Nat) : List Nat :=
  chns.filter fun chn => st.channels chn && (L.takes st .playback chn || L.takes st .capture chn)

/-- The channels with their numbers, and whether the number ends the word. -/
def assigned : List Nat → List Text → List (Nat × Text × Bool)
  | v :: vs, [n] => (v, n, true) :: assigned vs [n]
  | v :: vs, n :: ns => (v, n, false) :: assigned vs ns
  | _, _ => []

/-- The call for a number, taken for a percentage or for a raw value. -/
def volumeCall (d : Dir) (chn : Nat) (n : Text) (percent : Bool) : List Call :=
  match if L.hasVolume d then L.getRange d .raw else none with
  | some r => [.volume d .raw chn
      (L.checkRange (if percent then L.convertPrange1 (value n) r.1 r.2 else value n) r.1 r.2)]
  | none => []

/-- The words from an address on, each with its address and the next word. -/
def layout : Nat → List Text → List (Nat × Text × Option Text)
  | _, [] => []
  | a, w :: ws => (a, w, ws.head?) :: layout (a + w.length + 1) ws

end Claim

/-! ### One volume -/

section Volume
variable {σ : Type} (L : Library σ)

/-- Signs, or the comma before the next number. -/
structure IsRest (t : Text) : Prop where
  head : ∀ c ∈ t.head?, c = '%' ∨ c = ','
  signs : t.head? = some '%' → ∀ c ∈ t.tail.head?, c = '%'

theorem isRest_signs (k : Nat) : IsRest (List.replicate k '%') where
  head _ hc := .inl (List.eq_of_mem_replicate (List.mem_of_mem_head? hc))
  signs _ _ hc := List.eq_of_mem_replicate (List.mem_of_mem_tail (List.mem_of_mem_head? hc))

/-- **A number is set as its sign says.** -/
theorem setVolumeSimple_numeral (st : Sset σ) (d : Dir) (chn : Nat) {n t : Text} (hn : IsNumeral n)
    (ht : IsRest t) : ∃ mixer ok, setVolumeSimple L st d chn (n ++ t) =
      (({ st with mixer := mixer, calls := st.calls ++ volumeCall L d chn n (t.head? == some '%') }, ok),
        skipOne (· == ',') (if t.head? = some '%' then t.tail else t)) := by
  have hnone : ∀ c ∈ t.head?, c.isDigit = false := fun c hc => by
    rcases ht.head c hc with rfl | rfl <;> rfl
  have hdot : t.head? ≠ some '.' := fun h => by simpa using ht.head '.' h
  have hdB : ¬ lit "dB" <+: t := fun h => by
    have : t.head? = some 'd' := by
      obtain ⟨u, rfl⟩ := h
      with_unfolding_all rfl
    simpa using ht.head 'd' this
  have hread := strtol_numeral hn hnone
  have hdouble := strtod_numeral hn hnone hdot
  obtain ⟨c, m, hcm, hc⟩ := hn.head
  have hskip : skipOne (· == ':') (n ++ t) = n ++ t := by
    have hne : c ≠ ':' := fun h => by simp [h] at hc
    simp [skipOne, hcm, hne]
  have hstart : (((n ++ t).head?.map fun c => c.isDigit || c == '-').getD false) = true := by
    simp [hcm, hc]
  unfold setVolumeSimple
  rw [hskip]
  simp only [hstart, if_true, hread, Option.getD_some, if_neg hdot, if_neg hdB, hdouble]
  by_cases hsign : t.head? = some '%'
  · have hnext : ∀ c, c ≠ '%' → t.tail.head? ≠ some c := fun c hne h => hne (ht.signs hsign c h)
    simp only [hsign, if_true, if_neg (not_or.mpr ⟨hnext '+' (by decide), hnext '-' (by decide)⟩)]
    cases hrange : if L.hasVolume d then L.getRange d .raw else none with
    | none => exact ⟨st.mixer, false, by simp [volumeCall, hrange]⟩
    | some r => exact ⟨_, _, by simp [volumeCall, hrange, Library.putVolume]; exact ⟨rfl, rfl⟩⟩
  · have hno : ∀ c, c ≠ '%' → c ≠ ',' → t.head? ≠ some c := fun c h1 h2 h => by
      rcases ht.head c h with rfl | rfl <;> contradiction
    simp only [if_neg hsign, if_neg
      (not_or.mpr ⟨hno '+' (by decide) (by decide), hno '-' (by decide) (by decide)⟩)]
    cases hrange : if L.hasVolume d then L.getRange d .raw else none with
    | none => exact ⟨st.mixer, false, by simp [volumeCall, hrange]⟩
    | some r => exact ⟨_, _, by simp [volumeCall, hrange, Library.putVolume, hsign]; exact ⟨rfl, rfl⟩⟩

end Volume

/-! ### A word of numbers -/

section Numbers
variable {σ : Type} (L : Library σ)

/-- Nothing but calls and signs. -/
structure Did (st st' : Sset σ) (calls : List Call) (k : Nat) : Prop where
  calls : st'.calls = st.calls ++ calls
  appended : st'.appended = st.appended + k
  okflag : st'.okflag = st.okflag
  channels : st'.channels = st.channels
  dir : st'.dir = st.dir

theorem Did.refl (st : Sset σ) : Did st st [] 0 := ⟨(List.append_nil _).symm, rfl, rfl, rfl, rfl⟩

theorem Did.trans {st st' st'' : Sset σ} {cs ds : List Call} {k l : Nat} (h : Did st st' cs k)
    (h' : Did st' st'' ds l) : Did st st'' (cs ++ ds) (k + l) where
  calls := by rw [h'.calls, h.calls, List.append_assoc]
  appended := by rw [h'.appended, h.appended, Nat.add_assoc]
  okflag := h'.okflag.trans h.okflag
  channels := h'.channels.trans h.channels
  dir := h'.dir.trans h.dir

/-- The signs that a direction adds. -/
def signs : Dir → Nat
  | .playback => 1
  | .capture => 0

section Step
variable {mem : Text} {a : Nat} {w : Text} {st : Sset σ} {ptr : Nat}

end Step

/-! ### All channels -/

section Loop
variable {L} {mem : Text} {a : Nat} {w : Text} {st : Sset σ} {ptr : Nat}

theorem Did.takes {st' : Sset σ} {cs : List Call} {k : Nat} (h : Did st st' cs k) :
    L.takes st' = L.takes st := by
  funext d chn
  rw [Library.takes, Library.takes, h.dir]

theorem Did.visited {st' : Sset σ} {cs : List Call} {k : Nat} (h : Did st st' cs k) (chns : List Nat) :
    visited L st' chns = visited L st chns := by
  unfold Tmixer.visited
  rw [h.channels, h.takes]

theorem Did.stopped {st' : Sset σ} {cs : List Call} {k : Nat} (h : Did st st' cs k) :
    st'.stopped = st.stopped := by
  rw [Sset.stopped, Sset.stopped, h.okflag]

end Loop
end Numbers

/-! ### What is set, and what should be -/

section Result
variable {σ : Type} (L : Library σ)

end Result

/-! ### All words -/

section Words
variable {σ : Type} (L : Library σ)

/-- Before the first word. -/
def start (mem : Text) (mixer : σ) : Sset σ :=
  ⟨mem, mixer, [], false, fun _ => true, fun _ => true, fun _ => true, 0⟩

/-- The loop of sset_channels is this run. -/
theorem ssetChannels_run (mem : Text) (mixer : σ) (ctl : Nat) (a : Nat) (args : List Text) :
    ssetChannels L mem mixer (ctl :: (layout a args).map Prod.fst) =
      run (fun st x => setWord L st x.1) (start mem mixer) (layout a args) :=
  List.foldl_map

end Words

/-! ### Runs -/

end Tcos.Tmixer
