import Tcos.Libc.Numbers
import Tcos.Shell.Commands

/-! The line that tmixer prints of an element, and what soundctl.sh reads in it.

`showSelem` prints name, types, volume and switch, and the two columns after the second comma are taken
for the level and the mute state. `reported_iff` says of which elements they are. -/
namespace Tcos.Tmixer
open Shell (Text lit awk awkField)
open Libc (toInt decimal)

/-! ### Elements -/

inductive Dir where
  | playback
  | capture
  deriving DecidableEq, Repr

/-- What the library answers about one direction of an element. -/
structure Side where
  hasVolume : Bool
  hasSwitch : Bool
  isMono : Bool
  hasChannel : Nat → Bool
  min : Int
  max : Int
  volume : Nat → Int
  switch : Nat → Bool

structure Elem where
  name : Text
  isEnumerated : Bool
  hasCommonVolume : Bool
  hasCommonSwitch : Bool
  side : Dir → Side

/-- `SND_MIXER_SCHN_MONO`. -/
def schnMono : Nat := 0

/-- Up to `SND_MIXER_SCHN_LAST`. -/
def channels : List Nat := List.range 32

section Show
-- `rint((double)val/(double)range * 100)`
variable (rint : Int → Int → Int) (e : Elem)

/-! ### show_selem -/

def convertPrange (val min max : Int) : Int :=
  let range := toInt (max - min)
  if range = 0 then 0 else rint (toInt (val - min)) range

def getPercent (val min max : Int) : Text :=
  decimal (convertPrange rint (toInt val) (toInt min) (toInt max))

def onOff (b : Bool) : Text := if b then lit "on" else lit "off"

/-- `pmin` and `pmax`, `cmin` and `cmax`. -/
def Elem.limits (d : Dir) : Int × Int :=
  if (e.side .playback).hasVolume || (e.side .capture).hasVolume then
    if e.hasCommonVolume || (e.side d).hasVolume then ((e.side d).min, (e.side d).max) else (0, 0)
  else (0, 0)

def Elem.percent (d : Dir) (chn : Nat) : Text :=
  getPercent rint ((e.side d).volume chn) (e.limits d).1 (e.limits d).2

def Elem.state (d : Dir) (chn : Nat) : Text := onOff ((e.side d).switch chn)

/-- `pmono` and `cmono`. -/
def Elem.mono (d : Dir) : Bool :=
  (e.side d).hasChannel schnMono && ((e.side d).isMono || !(e.side d).hasVolume && !(e.side d).hasSwitch)

def Elem.types : Text :=
  (if e.hasCommonVolume || (e.side .playback).hasVolume || (e.side .capture).hasVolume
    then lit "volume|" else []) ++
    if e.hasCommonSwitch || (e.side .playback).hasSwitch || (e.side .capture).hasSwitch
      then lit "switch|" else []

/-- Of either direction, when the playback is mono. -/
def Elem.showMono (d : Dir) : Text :=
  if e.mono .playback && (e.side d).hasChannel schnMono then
    (if !e.hasCommonVolume && (e.side d).hasVolume then e.percent rint d schnMono else []) ++
      if !e.hasCommonSwitch && (e.side d).hasSwitch then [','] ++ e.state d schnMono else []
  else []

def Elem.showChannel (d : Dir) (chn : Nat) : Text :=
  if (e.side d).hasChannel chn then
    (if !e.mono .playback && !e.mono .capture && e.hasCommonVolume then e.percent rint d chn ++ [',']
      else []) ++
    (if !e.mono .playback && !e.mono .capture && e.hasCommonSwitch then e.state d chn else []) ++
    (if !e.mono .playback then
      (if !e.hasCommonVolume && (e.side d).hasVolume then e.percent rint d chn ++ [','] else []) ++
        if !e.hasCommonSwitch && (e.side d).hasSwitch then e.state d chn else []
    else [])
  else []

/-- Channels that are left out of the loop. -/
def Elem.skips (chn : Nat) : Bool :=
  (e.mono .playback || !(e.side .playback).hasChannel chn) &&
    (e.mono .capture || !(e.side .capture).hasChannel chn)

/-- The loop ends with the first channel that prints. -/
def Elem.showChannels : List Nat → Text
  | [] => []
  | chn :: chns =>
    let printed := e.showChannel rint .playback chn ++ e.showChannel rint .capture chn
    if e.skips chn then Elem.showChannels chns else if printed ≠ [] then printed
      else Elem.showChannels chns

def Elem.columns : Text :=
  e.showMono rint .playback ++ e.showMono rint .capture ++
    if !e.mono .playback || !e.mono .capture then e.showChannels rint channels else []

/-- `level & LEVEL_BASIC` is `basic`. -/
def showSelem (basic : Bool) : Text :=
  if e.isEnumerated then []
  else if basic then e.name ++ ',' :: (e.types ++ ',' :: e.columns rint) ++ ['\n']
  else if e.name.length > 0 then e.name ++ ['|'] else []

/-! ### soundctl.sh -/

/-- `$MIXER sget "$1" | awk -F"," '{print $3}'`. -/
def getLevel : Text := awk ',' 3 (showSelem rint e true)

def getMute : Text := awk ',' 4 (showSelem rint e true)

/-! ### What they should be -/

/-- The channels of an element, each with its directions. -/
def places : List (Dir × Nat) := channels.flatMap fun chn => [(.playback, chn), (.capture, chn)]

def Elem.hasVolume (p : Dir × Nat) : Bool :=
  (e.side p.1).hasChannel p.2 && (e.hasCommonVolume || (e.side p.1).hasVolume)

def Elem.hasSwitch (p : Dir × Nat) : Bool :=
  (e.side p.1).hasChannel p.2 && (e.hasCommonSwitch || (e.side p.1).hasSwitch)

/-- The percentage of the first volume that the element has, or nothing. -/
def Elem.level : Text :=
  ((places.find? e.hasVolume).map fun p =>
    getPercent rint ((e.side p.1).volume p.2) (e.side p.1).min (e.side p.1).max).getD []

def Elem.mute : Text := ((places.find? e.hasSwitch).map fun p => e.state p.1 p.2).getD []

/-- The line has both in its columns. -/
structure Reported : Prop where
  level : e.isEnumerated = false → getLevel rint e = e.level rint ++ ['\n']
  mute : e.isEnumerated = false → getMute rint e = e.mute ++ ['\n']

/-! ### The elements of which it is right -/

def Dir.other : Dir → Dir
  | .playback => .capture
  | .capture => .playback

/-- What the loop prints of a channel when the playback is not mono. -/
def Elem.showsVolume (d : Dir) (chn : Nat) : Bool := (e.side d).hasChannel chn &&
  if e.mono .capture then !e.hasCommonVolume && (e.side d).hasVolume else e.hasCommonVolume ||
    (e.side d).hasVolume

def Elem.showsSwitch (d : Dir) (chn : Nat) : Bool := (e.side d).hasChannel chn &&
  if e.mono .capture then !e.hasCommonSwitch && (e.side d).hasSwitch else e.hasCommonSwitch ||
    (e.side d).hasSwitch

def Elem.prints (chn : Nat) : Bool := !e.skips chn &&
  (e.showsVolume .playback chn || e.showsSwitch .playback chn || e.showsVolume .capture chn || e.showsSwitch .capture chn)

/-- A common switch comes before a volume that is not common. -/
def Elem.switchFirst : Bool := !e.mono .capture && e.hasCommonSwitch && !e.hasCommonVolume

/-- The channel has one volume, in this direction, and then one switch at most. -/
structure OneEach (d : Dir) (chn : Nat) : Prop where
  volume : e.showsVolume d chn = true
  single : e.showsVolume d.other chn = false
  before : d = .capture → e.showsSwitch .playback chn = false
  switch : e.showsSwitch .playback chn = true → e.showsSwitch .capture chn = false
  order : e.showsSwitch d chn = true → e.switchFirst = false

/-- The state of the channel's switch, if it has one. -/
def Elem.stateAt (chn : Nat) : Text :=
  if e.showsSwitch .playback chn then e.state .playback chn
  else if e.showsSwitch .capture chn then e.state .capture chn else []

/-- A mono element: nothing is common, no volume follows what is printed of the playback, and no
channel but the first has what that one lacks. -/
structure MonoFits : Prop where
  volume : e.hasCommonVolume = false
  switch : e.hasCommonSwitch = false
  apart : (e.side .capture).hasChannel schnMono = true → (e.side .capture).hasVolume = true →
    (e.side .playback).hasVolume = false ∧ (e.side .playback).hasSwitch = false
  volumes : (e.side .capture).hasVolume = true → (e.side .playback).hasVolume = false →
    ∀ chn ∈ channels, (e.side .capture).hasChannel chn = true →
    (e.side .capture).hasChannel schnMono = true
  switches : (e.side .capture).hasSwitch = true → (e.side .playback).hasSwitch = false →
    ∀ chn ∈ channels, (e.side .capture).hasChannel chn = true →
    (e.side .capture).hasChannel schnMono = true

/-- Another element: the first channel that prints has a volume and then a switch at most, and they
read like the first ones of the element. -/
def ChannelsFit : Prop :=
  match channels.find? e.prints with
  | none => ∀ p ∈ places, e.hasVolume p = false ∧ e.hasSwitch p = false
  | some chn => ∃ d, OneEach e d chn ∧ e.percent rint d chn = e.level rint ∧ e.stateAt chn = e.mute

/-- A name with commas shifts the columns: those that are read are the name's own, or the types. -/
structure NameFits : Prop where
  level : ((e.name.splitOn ',')[2]?).getD [] = e.level rint
  mute : ((e.name.splitOn ',')[3]?).getD [] = e.mute
  types : (e.name.splitOn ',').length ≤ 3 → e.types = []

structure Fits : Prop where
  line : '\n' ∉ e.name
  plain : ',' ∉ e.name → if e.mono .playback then MonoFits e else ChannelsFit rint e
  commas : ',' ∈ e.name → NameFits rint e

end Show

/-! ### Columns -/

/-- What is printed of a channel. -/
inductive Column where
  | volume (t : Text)
  | switch (b : Bool)

def Column.show : Column → Text
  | .volume t => t ++ [',']
  | .switch b => onOff b

/-- A number as it is printed. -/
def IsNumber (t : Text) : Prop := t ≠ [] ∧ ∀ c ∈ t, c.isDigit = true ∨ c = '-'

theorem isNumber_getPercent (rint : Int → Int → Int) (val min max : Int) :
    IsNumber (getPercent rint val min max) :=
  ⟨Libc.decimal_ne_nil _, Libc.decimal_chars _⟩

theorem IsNumber.solid {t : Text} (h : IsNumber t) : ',' ∉ t ∧ '\n' ∉ t ∧ 'o' ∉ t := by
  refine ⟨fun hc => ?_, fun hc => ?_, fun hc => ?_⟩
  all_goals rcases h.2 _ hc with h | h <;> exact absurd h (by decide)

theorem onOff_facts (b : Bool) : ∃ s, onOff b = 'o' :: s ∧ ',' ∉ onOff b ∧ '\n' ∉ onOff b := by
  cases b
  · exact ⟨['f', 'f'], by with_unfolding_all decide⟩
  · exact ⟨['n'], by with_unfolding_all decide⟩

theorem onOff_append {b b' : Bool} {t : Text} (h : onOff b ++ t = onOff b') : t = [] ∧ b = b' := by
  have hon : onOff true = ['o', 'n'] := by with_unfolding_all decide
  have hoff : onOff false = ['o', 'f', 'f'] := by with_unfolding_all decide
  cases b <;> cases b' <;> simp_all

/-- What an element can report. -/
def IsLevel (t : Text) : Prop := t = [] ∨ IsNumber t

def IsMute (t : Text) : Prop := t = [] ∨ ∃ b, t = onOff b

theorem IsNumber.not_mute {t : Text} (h : IsNumber t) : ¬ IsMute t := by
  rintro (hnil | ⟨b, honOff⟩)
  · exact h.1 hnil
  · obtain ⟨s, hs, -⟩ := onOff_facts b
    rw [honOff, hs] at h
    exact h.solid.2.2 (List.mem_cons_self ..)

/-- Columns do not begin with a comma. -/
theorem first_some {x : Column} (ts : List Column) (hx : ∀ t, x = .volume t → IsNumber t) :
    awkField ',' 1 ((x :: ts).flatMap Column.show) ≠ [] := by
  cases x with
  | volume w =>
    have hw := hx w rfl
    rw [List.flatMap_cons, Column.show, List.append_assoc, List.singleton_append,
      Shell.awkField_first hw.solid.1]
    exact hw.1
  | switch b =>
    obtain ⟨s, hs, hcomma, -⟩ := onOff_facts b
    rw [List.flatMap_cons, Column.show, Shell.awkField_append hcomma, hs]
    simp

/-- **Two columns are read right if they are a volume and a switch, in this order.** -/
theorem columns_iff {ts : List Column} (hts : ∀ t, .volume t ∈ ts → IsNumber t) {level mute : Text}
    (hlevel : IsLevel level) (hmute : IsMute mute) :
    awkField ',' 1 (ts.flatMap Column.show) = level ∧ awkField ',' 2 (ts.flatMap Column.show) = mute ↔
      (ts = [] ∧ level = [] ∧ mute = []) ∨
        (ts = [.volume level] ∧ mute = []) ∨ ∃ b, ts = [.volume level, .switch b] ∧ onOff b = mute := by
  have hno : 'o' ∉ level := by
    rcases hlevel with rfl | h
    · simp
    · exact h.solid.2.2
  match ts with
  | [] =>
    obtain ⟨hfirst, hsecond⟩ : awkField ',' 1 [] = [] ∧ awkField ',' 2 [] = [] :=
      Shell.awkField_whole (by simp)
    rw [List.flatMap_nil, hfirst, hsecond]
    constructor
    · rintro ⟨rfl, rfl⟩
      exact .inl ⟨rfl, rfl, rfl⟩
    · rintro (⟨-, rfl, rfl⟩ | ⟨h, -⟩ | ⟨_, h, -⟩)
      · exact ⟨rfl, rfl⟩
      · simp at h
      · simp at h
  | .switch b :: ts =>
    obtain ⟨s, hs, hcomma, -⟩ := onOff_facts b
    rw [List.flatMap_cons, Column.show, Shell.awkField_append hcomma, hs]
    constructor
    · rintro ⟨h, -⟩
      exact absurd (h ▸ List.mem_cons_self ..) hno
    · rintro (⟨h, -⟩ | ⟨h, -⟩ | ⟨_, h, -⟩) <;> simp at h
  | [.volume v] =>
    have hv := (hts v (by simp)).solid.1
    have hnil : awkField ',' 1 [] = [] ∧ awkField ',' 2 [] = [] := Shell.awkField_whole (by simp)
    have hform : [Column.volume v].flatMap Column.show = v ++ ',' :: [] := by simp [Column.show]
    rw [hform, Shell.awkField_first hv, Shell.awkField_next hv, hnil.1]
    simp [eq_comm]
  | .volume v :: .volume w :: ts =>
    have hv := (hts v (by simp)).solid.1
    have hw := hts w (by simp)
    have hform : (Column.volume v :: .volume w :: ts).flatMap Column.show =
        v ++ ',' :: (w ++ ',' :: ts.flatMap Column.show) := by simp [Column.show]
    rw [hform, Shell.awkField_first hv, Shell.awkField_next hv, Shell.awkField_first hw.solid.1]
    constructor
    · rintro ⟨-, rfl⟩
      exact absurd hmute hw.not_mute
    · rintro (⟨h, -⟩ | ⟨h, -⟩ | ⟨_, h, -⟩) <;> simp at h
  | [.volume v, .switch b] =>
    have hv := (hts v (by simp)).solid.1
    obtain ⟨-, -, hcomma, -⟩ := onOff_facts b
    have hform : [Column.volume v, .switch b].flatMap Column.show = v ++ ',' :: onOff b := by
      simp [Column.show]
    rw [hform, Shell.awkField_first hv, Shell.awkField_next hv, (Shell.awkField_whole hcomma).1]
    cases b <;> simp
  | .volume v :: .switch b :: x :: ts =>
    have hv := (hts v (by simp)).solid.1
    obtain ⟨-, -, hcomma, -⟩ := onOff_facts b
    have hmore := first_some (x := x) ts fun t hx => hts t (by simp [hx])
    have hform : (Column.volume v :: .switch b :: x :: ts).flatMap Column.show =
        v ++ ',' :: (onOff b ++ (x :: ts).flatMap Column.show) := by simp [Column.show]
    rw [hform, Shell.awkField_first hv, Shell.awkField_next hv, Shell.awkField_append hcomma]
    constructor
    · rintro ⟨-, rfl⟩
      rcases hmute with h | ⟨b', h⟩
      · exact absurd (List.append_eq_nil_iff.mp h).2 hmore
      · exact absurd (onOff_append h).1 hmore
    · rintro (⟨h, -⟩ | ⟨h, -⟩ | ⟨_, h, -⟩) <;> simp at h

section Channels
variable (rint : Int → Int → Int) (e : Elem)

/-- What is printed of a channel in one direction, in columns. -/
def Elem.shown (d : Dir) (chn : Nat) : List Column :=
  let volume := if e.showsVolume d chn then [Column.volume (e.percent rint d chn)] else []
  let switch := if e.showsSwitch d chn then [Column.switch ((e.side d).switch chn)] else []
  if e.switchFirst then switch ++ volume else volume ++ switch

theorem showChannel_eq (hmono : e.mono .playback = false) (d : Dir) (chn : Nat) :
    e.showChannel rint d chn = (e.shown rint d chn).flatMap Column.show := by
  unfold Elem.showChannel Elem.shown Elem.showsVolume Elem.showsSwitch Elem.switchFirst
  rw [hmono]
  cases (e.side d).hasChannel chn
  · simp
  · cases e.mono .capture <;> cases e.hasCommonVolume <;> cases e.hasCommonSwitch <;>
      cases (e.side d).hasVolume <;> cases (e.side d).hasSwitch <;> simp [Column.show, Elem.state]

theorem shown_volume {d : Dir} {chn : Nat} {t : Text} (h : .volume t ∈ e.shown rint d chn) :
    IsNumber t := by
  have ht : t = e.percent rint d chn := by
    revert h
    unfold Elem.shown
    cases e.showsVolume d chn <;> cases e.showsSwitch d chn <;> cases e.switchFirst <;> simp
  rw [ht]
  exact isNumber_getPercent ..

/-- **A channel prints a volume and a switch.** -/
theorem shown_iff {chn : Nat} {level mute : Text} :
    ((e.shown rint .playback chn ++ e.shown rint .capture chn = [.volume level] ∧ mute = []) ∨
      ∃ b, e.shown rint .playback chn ++ e.shown rint .capture chn = [.volume level, .switch b] ∧
      onOff b = mute) ↔ ∃ d, OneEach e d chn ∧ e.percent rint d chn = level ∧ e.stateAt chn = mute :=
      by
  have hdirs : ∀ P : Dir → Prop, (∃ d, P d) ↔ P .playback ∨ P .capture := by
    intro P
    constructor
    · rintro ⟨d | d, h⟩
      · exact .inl h
      · exact .inr h
    · rintro (h | h)
      · exact ⟨_, h⟩
      · exact ⟨_, h⟩
  have hone : ∀ d, OneEach e d chn ↔ e.showsVolume d chn = true ∧ e.showsVolume d.other chn = false ∧
      (d = .capture → e.showsSwitch .playback chn = false) ∧
      (e.showsSwitch .playback chn = true → e.showsSwitch .capture chn = false) ∧
      (e.showsSwitch d chn = true → e.switchFirst = false) :=
    fun d => ⟨fun h => ⟨h.volume, h.single, h.before, h.switch, h.order⟩,
      fun h => ⟨h.1, h.2.1, h.2.2.1, h.2.2.2.1, h.2.2.2.2⟩⟩
  rw [hdirs, hone, hone]
  unfold Elem.shown Elem.stateAt Elem.state Dir.other
  cases e.showsVolume .playback chn <;> cases e.showsVolume .capture chn <;>
    cases e.showsSwitch .playback chn <;> cases e.showsSwitch .capture chn <;> cases e.switchFirst <;>
      simp [eq_comm (a := ([] : Text)), -Bool.exists_bool]

theorem shows_nothing (ts : List Column) : ts.flatMap Column.show = [] ↔ ts = [] := by
  have hsome : ∀ x : Column, x.show ≠ [] := by
    intro x
    cases x with
    | volume t => simp [Column.show]
    | switch b =>
      obtain ⟨s, hs, -⟩ := onOff_facts b
      simp [Column.show, hs]
  cases ts with
  | nil => simp
  | cons x ts => simp [hsome]

theorem prints_iff {chn : Nat} (hskip : e.skips chn = false) :
    e.prints chn = true ↔ e.shown rint .playback chn ++ e.shown rint .capture chn ≠ [] := by
  unfold Elem.prints Elem.shown
  rw [hskip]
  cases e.showsVolume .playback chn <;> cases e.showsVolume .capture chn <;>
    cases e.showsSwitch .playback chn <;> cases e.showsSwitch .capture chn <;> cases e.switchFirst <;> simp

/-- The loop is left with the first channel that prints. -/
theorem showChannels_eq (hmono : e.mono .playback = false) (chns : List Nat) :
    e.showChannels rint chns =
      (((chns.find? e.prints).map fun chn =>
        e.shown rint .playback chn ++ e.shown rint .capture chn).getD []).flatMap
        Column.show := by
  induction chns with
  | nil => rfl
  | cons chn chns ih =>
    rw [Elem.showChannels, showChannel_eq rint e hmono, showChannel_eq rint e hmono,
      ← List.flatMap_append, List.find?_cons]
    cases hskip : e.skips chn with
    | true =>
      have hprints : e.prints chn = false := by simp [Elem.prints, hskip]
      simp [hprints, ih]
    | false =>
      have htext : (e.shown rint .playback chn ++ e.shown rint .capture chn).flatMap Column.show ≠ [] ↔
          e.prints chn = true := by
        rw [ne_eq, shows_nothing]
        exact (prints_iff rint e hskip).symm
      rw [if_neg (by simp)]
      by_cases hprints : e.prints chn = true
      · rw [if_pos (htext.mpr hprints), hprints]
        rfl
      · rw [if_neg (fun h => hprints (htext.mp h)), ih, Bool.eq_false_iff.mpr hprints]

/-! ### Levels -/

theorem isLevel_level : IsLevel (e.level rint) := by
  unfold Elem.level
  cases places.find? e.hasVolume with
  | none => exact .inl rfl
  | some p => exact .inr (isNumber_getPercent ..)

theorem isMute_mute : IsMute e.mute := by
  unfold Elem.mute
  cases places.find? e.hasSwitch with
  | none => exact .inl rfl
  | some p => exact .inr ⟨_, rfl⟩

theorem level_eq_nil : e.level rint = [] ↔ ∀ p ∈ places, e.hasVolume p = false := by
  unfold Elem.level
  cases h : places.find? e.hasVolume with
  | none => simpa using List.find?_eq_none.mp h
  | some p =>
    have hnumber : ∀ val min max, getPercent rint val min max ≠ [] :=
      fun _ _ _ => (isNumber_getPercent ..).1
    have hp := List.find?_some h
    have hmem := List.mem_of_find?_eq_some h
    simp only [Option.map_some, Option.getD_some, hnumber, false_iff, not_forall]
    exact ⟨p, hmem, by simp [hp]⟩

theorem mute_eq_nil : e.mute = [] ↔ ∀ p ∈ places, e.hasSwitch p = false := by
  unfold Elem.mute
  cases h : places.find? e.hasSwitch with
  | none => simpa using List.find?_eq_none.mp h
  | some p =>
    obtain ⟨s, hs, -⟩ := onOff_facts ((e.side p.1).switch p.2)
    have hp := List.find?_some h
    have hmem := List.mem_of_find?_eq_some h
    simp only [Option.map_some, Option.getD_some, Elem.state, hs, reduceCtorEq, false_iff, not_forall]
    exact ⟨p, hmem, by simp [hp]⟩

/-- **The columns of an element that is not mono.** -/
theorem channels_iff (hmono : e.mono .playback = false) :
    awkField ',' 1 (e.columns rint) = e.level rint ∧ awkField ',' 2 (e.columns rint) = e.mute ↔
    ChannelsFit rint e := by
  have hcolumns : e.columns rint = e.showChannels rint channels := by
    simp [Elem.columns, Elem.showMono, hmono]
  rw [hcolumns, showChannels_eq rint e hmono, ChannelsFit]
  rw [columns_iff _ (isLevel_level rint e) (isMute_mute e)]
  · cases hfind : channels.find? e.prints with
    | none =>
      simp only [Option.map_none, Option.getD_none, true_and, reduceCtorEq, false_and, exists_false,
        or_false]
      rw [level_eq_nil, mute_eq_nil, ← forall₂_and]
    | some chn =>
      have hprints := List.find?_some hfind
      have hskip : e.skips chn = false := by
        rw [Elem.prints, Bool.and_eq_true] at hprints
        simpa using hprints.1
      have hsome := (prints_iff rint e hskip).mp hprints
      simp only [Option.map_some, Option.getD_some, hsome, false_and, false_or]
      exact shown_iff rint e
  · intro t ht
    cases hfind : channels.find? e.prints with
    | none => simp [hfind] at ht
    | some chn =>
      rw [hfind, Option.map_some, Option.getD_some, List.mem_append] at ht
      exact ht.elim (shown_volume rint e) (shown_volume rint e)

end Channels

/-! ### Mono elements -/

/-- The columns of a mono element: texts of two volumes, and a switch after each. -/
theorem mono_fields {v w : Text} (hv : ',' ∉ v) (hw : ',' ∉ w) {s t : Text} (hs : ',' ∉ s) (ht : ',' ∉ t)
    (before after : Bool) :
    let text := v ++ (if before then [','] ++ s else []) ++ (w ++ if after then [','] ++ t else [])
    awkField ',' 1 text = (if before then v else v ++ w) ∧
      awkField ',' 2 text = if before then s ++ w else if after then t else [] := by
  have hvw : ',' ∉ v ++ w := fun h => (List.mem_append.mp h).elim hv hw
  have hsw : ',' ∉ s ++ w := fun h => (List.mem_append.mp h).elim hs hw
  have hwhole := fun {l : Text} (h : ',' ∉ l) => Shell.awkField_whole h
  have hfirst := fun {l : Text} (h : ',' ∉ l) (k : Text) => Shell.awkField_first h k
  have hnext := fun {l : Text} (h : ',' ∉ l) (k : Text) => Shell.awkField_next h 0 k
  cases before with
  | true =>
    cases after with
    | true =>
      have hform : v ++ ([','] ++ s) ++ (w ++ ([','] ++ t)) = v ++ ',' :: ((s ++ w) ++ ',' :: t) := by
        simp
      simp only [if_pos, hform]
      exact ⟨hfirst hv _, (hnext hv _).trans (hfirst hsw _)⟩
    | false =>
      have hform : v ++ ([','] ++ s) ++ (w ++ []) = v ++ ',' :: (s ++ w) := by simp
      simp only [if_pos, Bool.false_eq_true, if_false, hform]
      exact ⟨hfirst hv _, (hnext hv _).trans (hwhole hsw).1⟩
  | false =>
    cases after with
    | true =>
      have hform : v ++ [] ++ (w ++ ([','] ++ t)) = (v ++ w) ++ ',' :: t := by simp
      simp only [if_pos, Bool.false_eq_true, if_false, hform]
      exact ⟨hfirst hvw _, (hnext hvw _).trans (hwhole ht).1⟩
    | false =>
      have hform : v ++ [] ++ (w ++ []) = v ++ w := by simp
      simp only [Bool.false_eq_true, if_false, hform]
      exact hwhole hvw

section Mono
variable (rint : Int → Int → Int) (e : Elem)

theorem places_cons : ∃ ps, places = (.playback, schnMono) :: (.capture, schnMono) :: ps :=
  ⟨_, rfl⟩

theorem limits_volume {d : Dir} (h : (e.side d).hasVolume = true) :
    e.limits d = ((e.side d).min, (e.side d).max) := by
  cases d <;> simp [Elem.limits, h]

theorem monoFits_iff : MonoFits e ↔ e.hasCommonVolume = false ∧ e.hasCommonSwitch = false ∧
    ((e.side .capture).hasChannel schnMono = true → (e.side .capture).hasVolume = true →
      (e.side .playback).hasVolume = false ∧ (e.side .playback).hasSwitch = false) ∧
    ((e.side .capture).hasVolume = true → (e.side .playback).hasVolume = false →
      ∀ chn ∈ channels, (e.side .capture).hasChannel chn = true →
      (e.side .capture).hasChannel schnMono = true) ∧
    ((e.side .capture).hasSwitch = true → (e.side .playback).hasSwitch = false →
      ∀ chn ∈ channels, (e.side .capture).hasChannel chn = true →
      (e.side .capture).hasChannel schnMono = true) :=
  ⟨fun h => ⟨h.volume, h.switch, h.apart, h.volumes, h.switches⟩, fun h =>
    ⟨h.1, h.2.1, h.2.2.1, h.2.2.2.1, h.2.2.2.2⟩⟩

/-- The level is that of the playback, else that of the first capture channel; `none` says that
there are no other channels. -/
def MonoValue (playback capture channel : Bool) (none : Prop) (first second value : Text) : Prop :=
  if playback then value = first
  else if channel && capture then value = second
  else (value = [] ↔ (capture = true → none))

/-- What is printed of a mono element against what it should be. -/
theorem mono_cases {p c s t level mute : Text} (hc : c ≠ [])
    {none : Prop} {pv ps ch cv cs : Bool} (hlevel : MonoValue pv cv ch none p c level)
    (hmute : MonoValue ps cs ch none s t mute) :
    (if ps then if pv then p else [] else (if pv then p else []) ++ if ch && cv then c else []) = level ∧
        (if ps then s ++ (if ch && cv then c else []) else if ch && cs then t else []) = mute ↔
      (ch = true → cv = true → pv = false ∧ ps = false) ∧ (cv = true → pv = false → ch = true ∨ none) ∧
        (cs = true → ps = false → ch = true ∨ none) := by
  unfold MonoValue at hlevel hmute
  cases pv <;> cases ps <;> cases ch <;> cases cv <;> cases cs <;> simp at hlevel hmute ⊢ <;>
    simp [hlevel, hmute, hc]

/-- **The first volume or switch of a mono element.** -/
theorem monoValue (hchannel : (e.side .playback).hasChannel schnMono = true) (has : Dir → Bool)
    {f : Dir × Nat → Text} (hf : ∀ p, f p ≠ []) :
    MonoValue (has .playback) (has .capture) ((e.side .capture).hasChannel schnMono)
      (∀ chn ∈ channels, (e.side .capture).hasChannel chn = false) (f (.playback, schnMono))
        (f (.capture, schnMono))
      (((places.find? fun p => (e.side p.1).hasChannel p.2 && has p.1).map f).getD []) := by
  obtain ⟨ps, hps⟩ := places_cons
  unfold MonoValue
  cases hplayback : has .playback with
  | true => simp [hps, hchannel, hplayback]
  | false =>
    rw [if_neg (by simp)]
    cases hcapture : (e.side .capture).hasChannel schnMono && has .capture with
    | true => simp [hps, hplayback, hcapture]
    | false =>
      rw [if_neg (by simp)]
      have hnone : ((places.find? fun p => (e.side p.1).hasChannel p.2 && has p.1).map f).getD [] = [] ↔
          places.find? (fun p => (e.side p.1).hasChannel p.2 && has p.1) = none := by
        cases places.find? fun p => (e.side p.1).hasChannel p.2 && has p.1 <;> simp [hf]
      rw [hnone, List.find?_eq_none]
      constructor
      · intro h hhas chn hchn
        have hmem : (Dir.capture, chn) ∈ places := List.mem_flatMap.mpr ⟨chn, hchn, by simp⟩
        simpa [hhas] using h _ hmem
      · rintro h ⟨d, chn⟩ hmem
        obtain ⟨c, hc, hmem⟩ := List.mem_flatMap.mp hmem
        cases d with
        | playback => simp [hplayback]
        | capture =>
          obtain rfl : chn = c := by simpa using hmem
          cases hhas : has .capture with
          | false => simp
          | true => simp [h hhas chn hc]

/-- What is printed of a mono element: its own volume and switch, then those captured. -/
theorem columns_mono (hmono : e.mono .playback = true) : e.columns rint =
    (if !e.hasCommonVolume && (e.side .playback).hasVolume then e.percent rint .playback schnMono
      else []) ++ (if !e.hasCommonSwitch && (e.side .playback).hasSwitch then
      [','] ++ e.state .playback schnMono else []) ++
    ((if (e.side .capture).hasChannel schnMono &&
      (!e.hasCommonVolume && (e.side .capture).hasVolume) then
        e.percent rint .capture schnMono else []) ++
      if (e.side .capture).hasChannel schnMono &&
        (!e.hasCommonSwitch && (e.side .capture).hasSwitch) then
        [','] ++ e.state .capture schnMono else []) := by
  have hchannel : (e.side .playback).hasChannel schnMono = true := by
    rw [Elem.mono, Bool.and_eq_true] at hmono
    exact hmono.1
  have hnone : ∀ d chn, e.showChannel rint d chn = [] := fun d chn => by simp [Elem.showChannel, hmono]
  have hloop : ∀ chns, e.showChannels rint chns = [] := by
    intro chns
    induction chns with
    | nil => rfl
    | cons chn chns ih =>
      rw [Elem.showChannels, hnone, hnone, ih]
      simp
  rw [Elem.columns, hloop, Elem.showMono, Elem.showMono, hmono, hchannel]
  cases (e.side .capture).hasChannel schnMono <;> simp

theorem state_column (d : Dir) (chn : Nat) : ',' ∉ e.state d chn ∧ e.state d chn ≠ [] := by
  obtain ⟨s, hs, hcomma, -⟩ := onOff_facts ((e.side d).switch chn)
  exact ⟨hcomma, by simp [Elem.state, hs]⟩

theorem percent_column (b : Bool) (d : Dir) :
    ',' ∉ if b = true then e.percent rint d schnMono else [] := by
  have hnumber : IsNumber (e.percent rint d schnMono) := isNumber_getPercent ..
  cases b
  · simp
  · simpa using hnumber.solid.1

/-- A common volume is not printed of a mono element, yet it is the element's level. -/
theorem level_some (hchannel : (e.side .playback).hasChannel schnMono = true)
    (hvolume : e.hasCommonVolume = true) : e.level rint ≠ [] := fun h => by
  obtain ⟨ps, hps⟩ := places_cons
  have hnone := (level_eq_nil rint e).mp h (.playback, schnMono) (by simp [hps])
  simp [Elem.hasVolume, hchannel, hvolume] at hnone

theorem mute_some (hchannel : (e.side .playback).hasChannel schnMono = true)
    (hswitch : e.hasCommonSwitch = true) : e.mute ≠ [] := fun h => by
  obtain ⟨ps, hps⟩ := places_cons
  have hnone := (mute_eq_nil e).mp h (.playback, schnMono) (by simp [hps])
  simp [Elem.hasSwitch, hchannel, hswitch] at hnone

/-- A volume is printed within the range of its own direction. -/
theorem percent_printed (b : Bool) (d : Dir) :
    (if b && (e.side d).hasVolume then e.percent rint d schnMono else []) =
      if b && (e.side d).hasVolume then
        getPercent rint ((e.side d).volume schnMono) (e.side d).min (e.side d).max else [] := by
  cases hd : (e.side d).hasVolume
  · simp
  · rw [Elem.percent, limits_volume e hd]

/-- **The columns of a mono element.** -/
theorem mono_iff (hmono : e.mono .playback = true) :
    awkField ',' 1 (e.columns rint) = e.level rint ∧ awkField ',' 2 (e.columns rint) = e.mute ↔
    MonoFits e := by
  have hchannel : (e.side .playback).hasChannel schnMono = true := by
    rw [Elem.mono, Bool.and_eq_true] at hmono
    exact hmono.1
  obtain ⟨hfirst, hsecond⟩ := mono_fields
    (percent_column rint e (!e.hasCommonVolume && (e.side .playback).hasVolume) .playback)
    (percent_column rint e ((e.side .capture).hasChannel schnMono &&
      (!e.hasCommonVolume && (e.side .capture).hasVolume)) .capture)
    (state_column e .playback schnMono).1 (state_column e .capture schnMono).1
    (!e.hasCommonSwitch && (e.side .playback).hasSwitch)
    ((e.side .capture).hasChannel schnMono && (!e.hasCommonSwitch && (e.side .capture).hasSwitch))
  rw [columns_mono rint e hmono, hfirst, hsecond, monoFits_iff]
  cases hvolume : e.hasCommonVolume with
  | true => simp [(level_some rint e hchannel hvolume).symm]
  | false =>
    cases hswitch : e.hasCommonSwitch with
    | true => simp [(mute_some e hchannel hswitch).symm]
    | false =>
      have hlevel := monoValue e hchannel (fun d => (e.side d).hasVolume)
        (f := fun p => getPercent rint ((e.side p.1).volume p.2) (e.side p.1).min (e.side p.1).max)
        fun p => (isNumber_getPercent ..).1
      have hmute := monoValue e hchannel (fun d => (e.side d).hasSwitch) (f := fun p => e.state p.1 p.2)
        fun p => (state_column ..).2
      have hcases := mono_cases (isNumber_getPercent ..).1 hlevel hmute
      have hhasVolume : (fun p : Dir × Nat => (e.side p.1).hasChannel p.2 && (e.side p.1).hasVolume) =
        e.hasVolume := by
        funext p
        simp [Elem.hasVolume, hvolume]
      have hhasSwitch : (fun p : Dir × Nat => (e.side p.1).hasChannel p.2 && (e.side p.1).hasSwitch) =
        e.hasSwitch := by
        funext p
        simp [Elem.hasSwitch, hswitch]
      rw [hhasVolume, hhasSwitch, ← Elem.level, ← Elem.mute] at hcases
      have hothers : (∀ chn ∈ channels, (e.side .capture).hasChannel chn = true →
          (e.side .capture).hasChannel schnMono = true) ↔ (e.side .capture).hasChannel schnMono = true ∨
            ∀ chn ∈ channels, (e.side .capture).hasChannel chn = false := by
        cases (e.side .capture).hasChannel schnMono <;> simp
      have hplayback := percent_printed rint e true .playback
      have hcapture := percent_printed rint e ((e.side .capture).hasChannel schnMono) .capture
      simp only [Bool.true_and] at hplayback
      simp only [Bool.not_false, Bool.true_and, true_and]
      rw [hplayback, hcapture, hothers]
      exact hcases

end Mono

/-! ### The line -/

section Line
variable (rint : Int → Int → Int) (e : Elem)

theorem columns_inLine : '\n' ∉ e.columns rint := by
  have hpercent : ∀ d chn, '\n' ∉ e.percent rint d chn := fun d chn => (isNumber_getPercent ..).solid.2.1
  have hstate : ∀ d chn, '\n' ∉ e.state d chn := fun d chn => by
    obtain ⟨-, -, -, h⟩ := onOff_facts ((e.side d).switch chn)
    exact h
  have hmono : ∀ d, '\n' ∉ e.showMono rint d := fun d => by
    unfold Elem.showMono
    split_ifs <;> simp [hpercent, hstate]
  have hchannel : ∀ d chn, '\n' ∉ e.showChannel rint d chn := fun d chn => by
    unfold Elem.showChannel
    split_ifs <;> simp [hpercent, hstate]
  have hchannels : ∀ chns, '\n' ∉ e.showChannels rint chns := by
    intro chns
    induction chns with
    | nil => simp [Elem.showChannels]
    | cons chn chns ih =>
      rw [Elem.showChannels]
      split_ifs
      · exact ih
      · simp [hchannel]
      · exact ih
  unfold Elem.columns
  split <;> simp [hmono, hchannels]

/-- Types are no value of a column. -/
theorem types_facts : ',' ∉ e.types ∧ '\n' ∉ e.types ∧ (e.types ≠ [] → '|' ∈ e.types) := by
  have hvolume : ',' ∉ lit "volume|" ∧ '\n' ∉ lit "volume|" ∧ '|' ∈ lit "volume|" := by
    with_unfolding_all decide
  have hswitch : ',' ∉ lit "switch|" ∧ '\n' ∉ lit "switch|" ∧ '|' ∈ lit "switch|" := by
    with_unfolding_all decide
  unfold Elem.types
  split_ifs <;> simp [hvolume, hswitch]

theorem bar_not_mem : '|' ∉ e.level rint ∧ '|' ∉ e.mute := by
  constructor
  · rcases isLevel_level rint e with h | h
    · simp [h]
    · intro hbar
      rcases h.2 _ hbar with h | h <;> exact absurd h (by decide)
  · rcases isMute_mute e with h | ⟨b, h⟩
    · simp [h]
    · have hno : '|' ∉ onOff true ∧ '|' ∉ onOff false := by with_unfolding_all decide
      rw [h]
      cases b
      · exact hno.2
      · exact hno.1

/-- An element without types has nothing to show. -/
theorem types_nil (h : e.types = []) : e.level rint = [] ∧ e.mute = [] ∧ e.columns rint = [] := by
  have hlits : lit "volume|" ≠ [] ∧ lit "switch|" ≠ [] := by with_unfolding_all decide
  have hflags : (e.hasCommonVolume = false ∧ (e.side .playback).hasVolume = false ∧
    (e.side .capture).hasVolume = false) ∧
      e.hasCommonSwitch = false ∧ (e.side .playback).hasSwitch = false ∧
      (e.side .capture).hasSwitch = false := by
    unfold Elem.types at h
    split_ifs at h with hvolume hswitch hswitch <;> simp_all
  obtain ⟨⟨hgv, hpv, hcv⟩, hgs, hps, hcs⟩ := hflags
  have hvolumes : ∀ d, (e.side d).hasVolume = false := by rintro (_ | _) <;> assumption
  have hswitches : ∀ d, (e.side d).hasSwitch = false := by rintro (_ | _) <;> assumption
  refine ⟨(level_eq_nil rint e).mpr fun p _ => ?_, (mute_eq_nil e).mpr fun p _ => ?_, ?_⟩
  · simp [Elem.hasVolume, hgv, hvolumes]
  · simp [Elem.hasSwitch, hgs, hswitches]
  · have hchannel : ∀ d chn, e.showChannel rint d chn = [] := fun d chn => by
      simp [Elem.showChannel, hgv, hgs, hvolumes, hswitches]
    have hchannels : ∀ chns, e.showChannels rint chns = [] := by
      intro chns
      induction chns with
      | nil => rfl
      | cons chn chns ih =>
        rw [Elem.showChannels, hchannel, hchannel, ih]
        simp
    simp [Elem.columns, Elem.showMono, hgv, hgs, hvolumes, hswitches, hchannels]

/-- **A name with commas.** -/
theorem nameFits_iff (hname : ',' ∈ e.name) :
    awkField ',' 3 (e.name ++ ',' :: (e.types ++ ',' :: e.columns rint)) = e.level rint ∧
      awkField ',' 4 (e.name ++ ',' :: (e.types ++ ',' :: e.columns rint)) = e.mute ↔
      NameFits rint e := by
  obtain ⟨hcomma, -, hbar⟩ := types_facts e
  obtain ⟨hlevel, hmute⟩ := bar_not_mem rint e
  have hsplit : (e.name ++ ',' :: (e.types ++ ',' :: e.columns rint)).splitOn ',' =
      e.name.splitOn ',' ++ e.types :: (e.columns rint).splitOn ',' := by
    rw [← Shell.splitOn_field hcomma]
    exact List.splitOnP_append_cons e.name _ (by simp)
  have hfits : NameFits rint e ↔ ((e.name.splitOn ',')[2]?).getD [] = e.level rint ∧
      ((e.name.splitOn ',')[3]?).getD [] = e.mute ∧ ((e.name.splitOn ',').length ≤ 3 → e.types = []) :=
    ⟨fun h => ⟨h.level, h.mute, h.types⟩, fun h => ⟨h.1, h.2.1, h.2.2⟩⟩
  have hwrong : ∀ v : Text, '|' ∉ v → (e.types = v → e.types = []) := by
    intro v hv htypes
    by_contra hne
    exact hv (htypes ▸ hbar hne)
  obtain ⟨a, b, ns, hns⟩ : ∃ a b ns, e.name.splitOn ',' = a :: b :: ns := by
    obtain ⟨a, t, hat, ha⟩ := List.eq_append_cons_of_mem hname
    obtain ⟨b, ns, hb⟩ := List.exists_cons_of_ne_nil (List.splitOn_ne_nil ',' t)
    exact ⟨a, b, ns, by rw [hat, Shell.splitOn_field ha, hb]⟩
  rw [awkField, awkField, hsplit, hfits, hns]
  rcases ns with _ | ⟨c, _ | ⟨d, ns⟩⟩
  case nil =>
    have hform : ([a, b] ++ e.types :: (e.columns rint).splitOn ',')[3 - 1]? = some e.types := rfl
    have hform' : ([a, b] ++ e.types :: (e.columns rint).splitOn ',')[4 - 1]? =
      ((e.columns rint).splitOn ',')[0]? := rfl
    rw [hform, hform']
    constructor
    · rintro ⟨htypes, -⟩
      have hnil := hwrong _ hlevel htypes
      obtain ⟨hl, hm, -⟩ := types_nil rint e hnil
      exact ⟨hl.symm, hm.symm, fun _ => hnil⟩
    · rintro ⟨-, -, htypes⟩
      have hnil := htypes (by simp)
      obtain ⟨hl, hm, hc⟩ := types_nil rint e hnil
      exact ⟨by rw [hl, hnil]; rfl, by rw [hm, hc]; rfl⟩
  case cons.nil =>
    have hform : ([a, b, c] ++ e.types :: (e.columns rint).splitOn ',')[3 - 1]? = some c := rfl
    have hform' : ([a, b, c] ++ e.types :: (e.columns rint).splitOn ',')[4 - 1]? = some e.types := rfl
    rw [hform, hform']
    constructor
    · rintro ⟨hc, htypes⟩
      have hnil := hwrong _ hmute htypes
      obtain ⟨-, hm, -⟩ := types_nil rint e hnil
      exact ⟨hc, hm.symm, fun _ => hnil⟩
    · rintro ⟨hc, hm, htypes⟩
      exact ⟨hc, by rw [htypes (by simp)]; exact hm⟩
  case cons.cons => simp

/-- **Of exactly these elements level and mute state are read.** -/
theorem reported_iff : Reported rint e ↔ e.isEnumerated = true ∨ Fits rint e := by
  cases henum : e.isEnumerated with
  | true => exact ⟨fun _ => .inl rfl, fun _ => ⟨by simp [henum], by simp [henum]⟩⟩
  | false =>
    have hreported : Reported rint e ↔ getLevel rint e = e.level rint ++ ['\n'] ∧
      getMute rint e = e.mute ++ ['\n'] :=
      ⟨fun h => ⟨h.level henum, h.mute henum⟩, fun h => ⟨fun _ => h.1, fun _ => h.2⟩⟩
    have hline : showSelem rint e true = e.name ++ ',' :: (e.types ++ ',' :: e.columns rint) ++
      ['\n'] := by
      simp [showSelem, henum]
    rw [hreported, getLevel, getMute, hline]
    simp only [Bool.false_eq_true, false_or]
    by_cases hbreak : '\n' ∈ e.name
    · -- more lines are printed than a level has
      have hin : '\n' ∈ e.name ++ ',' :: (e.types ++ ',' :: e.columns rint) :=
        List.mem_append_left _ hbreak
      refine ⟨fun ⟨h, _⟩ => absurd (Shell.awk_lines ',' 3 hin h) ?_, fun h => absurd hbreak h.line⟩
      rcases isLevel_level rint e with hnil | hnumber
      · simp [hnil]
      · exact hnumber.solid.2.1
    · obtain ⟨hcomma, htypes, -⟩ := types_facts e
      have hin : '\n' ∉ e.name ++ ',' :: (e.types ++ ',' :: e.columns rint) := by
        simp [hbreak, htypes, columns_inLine]
      rw [Shell.awk_line ',' 3 hin, Shell.awk_line ',' 4 hin, List.append_cancel_right_eq,
        List.append_cancel_right_eq]
      by_cases hname : ',' ∈ e.name
      · rw [nameFits_iff rint e hname]
        exact ⟨fun h => ⟨hbreak, fun hno => absurd hname hno, fun _ => h⟩, fun h => h.commas hname⟩
      · rw [Shell.awkField_next hname 1, Shell.awkField_next hcomma 0, Shell.awkField_next hname 2,
          Shell.awkField_next hcomma 1]
        cases hmono : e.mono .playback with
        | true =>
          rw [mono_iff rint e hmono]
          exact ⟨fun h => ⟨hbreak, fun _ => by rw [hmono]; exact h, fun hmem => absurd hmem hname⟩,
            fun h => by simpa [hmono] using h.plain hname⟩
        | false =>
          rw [channels_iff rint e hmono]
          exact ⟨fun h => ⟨hbreak, fun _ => by rw [hmono]; exact h, fun hmem => absurd hmem hname⟩,
            fun h => by simpa [hmono] using h.plain hname⟩

end Line

/-! ### A switch without volume -/

/-- An output that can be switched, with two channels. -/
def spdif : Elem where
  name := lit "IEC958"
  isEnumerated := false
  hasCommonVolume := false
  hasCommonSwitch := false
  side d :=
    match d with
    | .playback =>
      { hasVolume := false, hasSwitch := true, isMono := false, hasChannel :=
        fun chn => chn < 2, min := 0, max := 0, volume := fun _ => 0, switch := fun _ => true }
    | .capture =>
      { hasVolume := false, hasSwitch := false, isMono := false, hasChannel := fun _ => false, min :=
        0, max := 0, volume := fun _ => 0, switch := fun _ => false }

/-- Its state is read as its level. -/
theorem spdif_misread : ¬ Reported (fun val range => 100 * val / range) spdif := by
  intro h
  have hread : getLevel (fun val range => 100 * val / range) spdif = ['o', 'n', '\n'] := by
    with_unfolding_all decide
  have hlevel : spdif.level (fun val range => 100 * val / range) = [] := by with_unfolding_all decide
  have hreported := h.level rfl
  rw [hread, hlevel] at hreported
  exact absurd hreported (by decide)

end Tcos.Tmixer
