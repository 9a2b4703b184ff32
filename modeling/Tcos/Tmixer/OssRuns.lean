import Tcos.Lists.Overwrite
import Tcos.Systems.Run
import Tcos.Tmixer.Oss

/-! Runs of tmixer-oss.

Each call opens the mixer anew, so all that stays between two of them is in the driver. `scontents_run` says
what `scontents` prints after any calls: the last level that was asked of each device, within the bounds, or
the one that it had. -/
namespace Tcos.Tmixer.Oss
open Shell (Text lit)
open Libc (isSwitch getoptLong)
open Overwrite (last)
open Systems (run)

/-! ### Calls -/

/-- A call that comes to `sset`, with its operands. -/
def ssetWords (argv : List Text) : Option (Text × Text) :=
  match ending (getoptLong longOption argv).1, (getoptLong longOption argv).2 with
  | none, action :: name :: level :: _ => if action = lit "sset" then some (name, level) else none
  | _, _ => none

/-- What a call asks of a device. -/
def sets (environment : Option Text) (name : Text) (argv : List Text) : Option Int :=
  (ssetWords argv).bind fun w => if w.1 = name then some (clamped (requested environment w.2)) else none

section Program
variable {σ : Type} (D : Driver σ) (environment : Option Text)

/-- The mixer after a call. -/
def perform (m : σ) (argv : List Text) : σ := (tmixerOss D environment m argv).1

end Program

/-! ### One call -/

section Step
variable {σ : Type} (D : Driver σ) (environment : Option Text) {m : σ} {dev : Nat} {name : Text}

/-- **What a call does to the mixer.** -/
theorem perform_eq (m : σ) (argv : List Text) : perform D environment m argv =
    (ssetWords argv).elim m fun w => written D environment m w.1 w.2 := by
  unfold perform tmixerOss ssetWords
  cases ending (getoptLong longOption argv).1 with
  | some c =>
    simp only
    split
    case h_4 hnone => exact absurd hnone (by simp)
    all_goals rfl
  | none =>
    generalize (getoptLong longOption argv).2 = operands
    simp only
    split
    case h_1 action name level more _ =>
      by_cases hsset : action = lit "sset"
      · rw [hsset, command_sset, if_pos rfl]
        rfl
      · rw [if_neg hsset, command_idle environment m fun n l more hno => hsset (List.cons.inj hno).1]
        rfl
    case h_2 hshort =>
      exact command_idle environment m fun n l more hno => hshort _ n l more rfl hno

/-- **The level of a device after one call.** -/
theorem perform_level (hname : devName[dev]? = some name) {word : Int} (hread : D.read m dev = some word)
    (argv : List Text) : ∃ word', D.read (perform D environment m argv) dev = some word' ∧
      left word' = (sets environment name argv).getD (left word) := by
  rw [perform_eq, sets]
  cases ssetWords argv with
  | none => exact ⟨word, hread, rfl⟩
  | some w =>
    obtain ⟨n, level⟩ := w
    by_cases hsame : n = name
    · subst hsame
      obtain ⟨word', hword', hleft, -⟩ := written_level environment hname (by rw [hread]; rfl) level
      exact ⟨word', hword', by simpa using hleft⟩
    · exact ⟨word, (written_other environment hname hsame level).trans hread, by simp [hsame]⟩

end Step

/-! ### Runs -/

section Run
variable {σ : Type} (D : Driver σ) (environment : Option Text) {m : σ}

/-- **The last level counts.** -/
theorem run_level {dev : Nat} {name : Text} (hname : devName[dev]? = some name) {word : Int}
    (hread : D.read m dev = some word) (calls : List (List Text)) :
    ∃ word', D.read (run (perform D environment) m calls) dev = some word' ∧
      left word' = (last (sets environment name) calls).getD (left word) := by
  induction calls using List.reverseRecOn with
  | nil => exact ⟨word, hread, rfl⟩
  | append_singleton calls argv ih =>
    obtain ⟨before, hbefore, hlevel⟩ := ih
    obtain ⟨after, hafter, hleft⟩ := perform_level D environment hname hbefore argv
    refine ⟨after, by rw [Systems.run_append]; exact hafter, ?_⟩
    rw [hleft, hlevel, Overwrite.last_concat]
    cases sets environment name argv <;> rfl

theorem listing_read {devs : List Nat} {level : Nat → Int} (hdevs : ∀ d ∈ devs, d < devName.length ∧
    ∃ word, D.read m d = some word ∧ left word = level d) :
    listing D environment m (lit "scontents") devs =
      (devs.flatMap fun d => contents (devName.getD d []) (level d), none) := by
  induction devs with
  | nil => rfl
  | cons d devs ih =>
    obtain ⟨⟨hlt, word, hword, hlevel⟩, hdevs⟩ := List.forall_mem_cons.mp hdevs
    have hshow := showContents_read (List.getElem?_eq_getElem hlt) hword
    have hprints : (setShowNoninter D environment m d (lit "scontents") []).2 = showContents D m d := by
      simp [setShowNoninter]
    rw [listing, hprints, hshow, ih hdevs, List.flatMap_cons, hlevel, List.getD_eq_getElem?_getD,
      List.getElem?_eq_getElem hlt]
    rfl

/-- **What `scontents` prints after any calls.** -/
theorem scontents_run {word : Nat → Int}
    (hread : ∀ d < nrDevices, D.mask d = true → D.read m d = some (word d)) (calls : List (List Text)) :
    (tmixerOss D environment (run (perform D environment) m calls) [lit "scontents"]).2 =
      .success (((List.range nrDevices).filter D.mask).flatMap fun d => contents (devName.getD d [])
        ((last (sets environment (devName.getD d [])) calls).getD (left (word d)))) := by
  have hdevs : ∀ d ∈ (List.range nrDevices).filter D.mask, d < devName.length ∧
      ∃ w, D.read (run (perform D environment) m calls) d = some w ∧ left w =
        (fun d => (last (sets environment (devName.getD d [])) calls).getD (left (word d))) d := by
    intro d hd
    obtain ⟨hrange, hmask⟩ := List.mem_filter.mp hd
    have hlt := List.mem_range.mp hrange
    have hname : devName[d]? = some (devName.getD d []) := by
      rw [List.getD_eq_getElem?_getD, List.getElem?_eq_getElem hlt]
      rfl
    exact ⟨hlt, run_level D environment hname (hread d hlt hmask) calls⟩
  have hlisting := listing_read D environment hdevs
  have hactions : lit "scontents" ≠ lit "help" ∧ lit "scontents" ≠ lit "scontrols" ∧
      lit "scontents" ≠ lit "simple" := by
    with_unfolding_all decide
  rw [main_operands environment _ (by simp [actions_operand])]
  simp [command, hactions, allDevices, hlisting]

end Run

/-- `sset PCM 50`, `sget Master`, `sset PCM -5` and `sset -q PCM off` leave PCM off, and Master at 0. -/
theorem scontents_run_pcm : (tmixerOss (words fun _ => true) none
    (run (perform (words fun _ => true) none) quiet
      [[lit "sset", lit "PCM", lit "50"], [lit "sget", lit "Master"], [lit "sset", lit "PCM", lit "-5"],
        [lit "sset", lit "-q", lit "PCM", lit "off"]]) [lit "scontents"]).2 =
    .success (lit "Master,volume|switch|,0,off\nPCM,volume|switch|,0,off\n") :=
  (scontents_run (words fun _ => true) none (fun d hd _ => if_pos hd) _).trans
    (congrArg Exit.success (by with_unfolding_all decide))

end Tcos.Tmixer.Oss
