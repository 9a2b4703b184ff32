import Tcos.Udev.Compare

/-! `compare` while the mount table changes.

`compare` reads the table at least three times: it counts the lines, it scans them, or
looks for each saved line in them, and it copies them. The table can change between any
two of these reads. `reported_once`: while lines are only added, or only removed, each is
reported by exactly one event if the lines that are copied are always the lines that were
compared. -/
namespace Tcos.Udev
open Libc
open Systems (Every run)

/-! ### Steps -/

/-- What `compare` does next. -/
inductive Phase where
  /-- Between two calls: the next step counts the lines. -/
  | idle
  /-- The table has more lines: they are scanned against the copy. -/
  | scanning
  /-- The copy has more lines: these are still to be looked for in the table, and those
  were not found in it. -/
  | checking (todo gone : List Mount)
  /-- The copy is made; `seen` is what the table was taken to be. -/
  | copying (seen : List Mount)
  deriving DecidableEq

structure State where
  table : List Mount
  saved : List Mount
  phase : Phase
  /-- The calls of `print_dev`. -/
  log : List (Mount × Action)

/-- One read of the table, and what is done with it. -/
def State.advance (s : State) : State :=
  match s.phase with
  | .idle =>
    if s.table.length = s.saved.length then s
    else if s.saved.length < s.table.length then { s with phase := .scanning }
    else { s with phase := .checking s.saved [] }
  | .scanning =>
    { s with
      phase := .copying s.table
      log := s.log ++ (without s.table s.saved).map fun l => (l, .mount) }
  | .checking [] gone => { s with phase := .copying (without s.saved gone) }
  | .checking (l :: todo) gone =>
    if l ∈ s.table then { s with phase := .checking todo gone }
    else { s with phase := .checking todo (l :: gone), log := s.log ++ [(l, .umount)] }
  | .copying _ => { s with saved := s.table, phase := .idle }

inductive Move where
  /-- The table becomes another one. -/
  | change (table : List Mount)
  | advance

def State.step (s : State) : Move → State
  | .change table => { s with table := table }
  | .advance => s.advance

/-- After the copy at the start. -/
def State.start (first : Table) : State := ⟨first.mounts, first.mounts, .idle, []⟩

/-- The next call of `compare` returns 1. -/
def State.unchanged (s : State) : Prop := s.phase = .idle ∧ s.table.length = s.saved.length

/-! ### What is reported -/

/-- The events with the action that report the line. A command that is cut is none. -/
def reports (log : List (Mount × Action)) (action : Action) (l : Mount) : Nat :=
  if l.overlong action then 0 else log.count (l, action)

/-- Changes of the table go one way: for `mount` lines are added, for `umount` removed. -/
def OneWay (action : Action) (s : State) : Move → Prop
  | .advance => True
  | .change table => table.Nodup ∧
    match action with
    | .mount => s.table ⊆ table
    | .umount => table ⊆ s.table

/-- One event for each line that is in one of the lists alone, none for the others. -/
def Counted (action : Action) (first : List Mount) (log : List (Mount × Action)) (known : List Mount) :
    Prop :=
  ∀ l : Mount, l.isDisk = false →
    reports log action l = if l ∈ first ↔ l ∈ known then 0 else 1

/-- **Each line that was added or removed since the start has one event.** -/
def ReportedOnce (action : Action) (first : Table) (s : State) : Prop :=
  Counted action first.mounts s.log s.table

/-- The condition on a step: the table that is copied has the lines that were compared, and
no command is cut. -/
def CopySafe (s : State) : Move → Prop
  | .change _ => True
  | .advance =>
    match s.phase with
    | .idle => True
    | .scanning => ∀ l ∈ without s.table s.saved, l.isDisk = false → l.overlong .mount = false
    | .checking [] _ => True
    | .checking (l :: _) _ => l ∉ s.table → l.isDisk = false → l.overlong .umount = false
    | .copying seen => ∀ l : Mount, l.isDisk = false → (l ∈ s.table ↔ l ∈ seen)

/-! ### Counting -/

theorem reports_append (log : List (Mount × Action)) (action other : Action) (ls : List Mount)
    (hls : ls.Nodup) (l : Mount) (ho : l ∈ ls → l.overlong action = false) (hsame : other = action) :
    reports (log ++ ls.map fun k => (k, other)) action l =
      reports log action l + if l ∈ ls then 1 else 0 := by
  subst hsame
  have hcount : (ls.map fun k => (k, other)).count (l, other) = ls.count l :=
    List.count_map_of_injective ls (fun k => (k, other)) (fun a b h => (Prod.mk.inj h).1) l
  unfold reports
  by_cases hl : l ∈ ls
  · rw [ho hl]
    simp [hcount, hl, hls.count]
  · cases l.overlong other
    · simp [hcount, hl, List.count_eq_zero_of_not_mem]
    · simp [hl]

theorem reports_append_self (log : List (Mount × Action)) (action : Action) (l : Mount)
    (ho : l.isDisk = false → l.overlong action = false) (k : Mount) (hk : k.isDisk = false) :
    reports (log ++ [(l, action)]) action k = reports log action k + if k = l then 1 else 0 := by
  have h := reports_append log action action [l] (List.nodup_singleton l) k
    (fun hmem => by
      have hkl := List.mem_singleton.mp hmem
      subst hkl
      exact ho hk) rfl
  simpa only [List.map_cons, List.map_nil, List.mem_singleton] using h

/-- Only the lines that count matter. -/
theorem Counted.congr {action : Action} {first : List Mount} {log : List (Mount × Action)}
    {known others : List Mount} (h : Counted action first log known)
    (heq : ∀ l : Mount, l.isDisk = false → (l ∈ others ↔ l ∈ known)) :
    Counted action first log others := fun l hl => by
  simp only [h l hl, heq l hl]

theorem counted_nil (action : Action) (first : List Mount) : Counted action first [] first :=
  fun l _ => by
  simp [reports]

/-! ### Lines are added -/

/-- What the copy knows has been reported, and the table has all of it. -/
structure Adding (first : List Mount) (s : State) : Prop where
  table_nodup : s.table.Nodup
  saved_nodup : s.saved.Nodup
  known : first ⊆ s.saved
  counted : match s.phase with
    | .idle | .scanning => s.saved ⊆ s.table ∧ Counted .mount first s.log s.saved
    | .checking _ _ => False
    | .copying seen => s.saved ⊆ seen ∧ seen ⊆ s.table ∧ Counted .mount first s.log seen

theorem adding_start (first : Table) : Adding first.mounts (.start first) :=
  ⟨first.nodup, first.nodup, List.Subset.refl _, List.Subset.refl _, counted_nil .mount _⟩

theorem Adding.change {first : List Mount} {s : State} (h : Adding first s) {table : List Mount}
    (hnodup : table.Nodup) (hgrows : s.table ⊆ table) : Adding first (s.step (.change table)) := by
  obtain ⟨-, hsaved, hknown, hcounted⟩ := h
  refine ⟨hnodup, hsaved, hknown, ?_⟩
  simp only [State.step]
  cases hphase : s.phase with
  | idle =>
    rw [hphase] at hcounted
    exact ⟨List.Subset.trans hcounted.1 hgrows, hcounted.2⟩
  | scanning =>
    rw [hphase] at hcounted
    exact ⟨List.Subset.trans hcounted.1 hgrows, hcounted.2⟩
  | checking todo gone =>
    rw [hphase] at hcounted
    exact hcounted
  | copying seen =>
    rw [hphase] at hcounted
    exact ⟨hcounted.1, List.Subset.trans hcounted.2.1 hgrows, hcounted.2.2⟩

/-- The scan reports each line that the copy does not have. -/
theorem Counted.scan {first : List Mount} {log : List (Mount × Action)} {saved table : List Mount}
    (h : Counted .mount first log saved) (hknown : first ⊆ saved) (hsub : saved ⊆ table)
    (hnodup : table.Nodup)
    (hsafe : ∀ l ∈ without table saved, l.isDisk = false → l.overlong .mount = false) :
    Counted .mount first (log ++ (without table saved).map fun l => (l, .mount)) table := by
  intro l hl
  have hextra : (without table saved).Nodup := hnodup.filter _
  rw [reports_append log .mount .mount _ hextra l (fun hmem => hsafe l hmem hl) rfl, h l hl]
  have hfirst : l ∈ first → l ∈ saved := @hknown l
  have htable : l ∈ saved → l ∈ table := @hsub l
  simp only [without, List.mem_filter, decide_eq_true_eq]
  grind

theorem Adding.advance {first : List Mount} {s : State} (h : Adding first s)
    (hsafe : CopySafe s .advance) : Adding first (s.step .advance) := by
  obtain ⟨htable, hsaved, hknown, hcounted⟩ := h
  simp only [State.step, State.advance]
  cases hphase : s.phase with
  | idle =>
    rw [hphase] at hcounted
    have hle : s.saved.length ≤ s.table.length := (hsaved.subperm hcounted.1).length_le
    simp only
    split
    · exact ⟨htable, hsaved, hknown, by rw [hphase]; exact hcounted⟩
    · rw [if_pos (by omega)]
      exact ⟨htable, hsaved, hknown, hcounted⟩
  | scanning =>
    simp only [hphase] at hcounted
    simp only [CopySafe, hphase] at hsafe
    exact ⟨htable, hsaved, hknown, hcounted.1, List.Subset.refl _,
      hcounted.2.scan hknown hcounted.1 htable hsafe⟩
  | checking todo gone =>
    rw [hphase] at hcounted
    exact hcounted.elim
  | copying seen =>
    simp only [hphase] at hcounted
    simp only [CopySafe, hphase] at hsafe
    obtain ⟨hseen, hsub, hcount⟩ := hcounted
    exact ⟨htable, htable, List.Subset.trans (List.Subset.trans hknown hseen) hsub,
      List.Subset.refl _, hcount.congr hsafe⟩

theorem Adding.reported {first : Table} {s : State} (h : Adding first.mounts s) (hdone : s.unchanged) :
    ReportedOnce .mount first s := by
  obtain ⟨htable, hsaved, hknown, hcounted⟩ := h
  rw [hdone.1] at hcounted
  have hperm : s.saved.Perm s.table :=
    (hsaved.subperm hcounted.1).perm_of_length_le (le_of_eq hdone.2)
  exact hcounted.2.congr fun l _ => hperm.mem_iff.symm

/-! ### Lines are removed -/

/-- While the lines are looked for, those found missing are the ones reported anew. -/
structure Removing (first : List Mount) (s : State) : Prop where
  table_nodup : s.table.Nodup
  saved_nodup : s.saved.Nodup
  known : s.saved ⊆ first
  counted : match s.phase with
    | .idle => s.table ⊆ s.saved ∧ Counted .umount first s.log s.saved
    | .scanning => False
    | .checking todo gone =>
      s.table ⊆ without s.saved gone ∧ todo.Nodup ∧ todo ⊆ without s.saved gone ∧
        Counted .umount first s.log (without s.saved gone)
    | .copying seen => s.table ⊆ seen ∧ seen ⊆ s.saved ∧ Counted .umount first s.log seen

theorem removing_start (first : Table) : Removing first.mounts (.start first) :=
  ⟨first.nodup, first.nodup, List.Subset.refl _, List.Subset.refl _, counted_nil .umount _⟩

theorem Removing.change {first : List Mount} {s : State} (h : Removing first s) {table : List Mount}
    (hnodup : table.Nodup) (hshrinks : table ⊆ s.table) : Removing first (s.step (.change table)) := by
  obtain ⟨-, hsaved, hknown, hcounted⟩ := h
  refine ⟨hnodup, hsaved, hknown, ?_⟩
  simp only [State.step]
  cases hphase : s.phase with
  | idle =>
    rw [hphase] at hcounted
    exact ⟨List.Subset.trans hshrinks hcounted.1, hcounted.2⟩
  | scanning =>
    rw [hphase] at hcounted
    exact hcounted
  | checking todo gone =>
    rw [hphase] at hcounted
    exact ⟨List.Subset.trans hshrinks hcounted.1, hcounted.2⟩
  | copying seen =>
    rw [hphase] at hcounted
    exact ⟨List.Subset.trans hshrinks hcounted.1, hcounted.2⟩

theorem mem_without {a b : List Mount} {l : Mount} : l ∈ without a b ↔ l ∈ a ∧ l ∉ b := by
  simp [without]

theorem mem_without_cons {saved gone : List Mount} {l k : Mount} :
    k ∈ without saved (l :: gone) ↔ k ≠ l ∧ k ∈ without saved gone := by
  simp only [mem_without, List.mem_cons]
  tauto

/-- A line that is not found is reported and no longer known. -/
theorem Counted.gone {first : List Mount} {log : List (Mount × Action)} {saved gone : List Mount}
    {l : Mount} (h : Counted .umount first log (without saved gone)) (hknown : saved ⊆ first)
    (hl : l ∈ without saved gone) (hsafe : l.isDisk = false → l.overlong .umount = false) :
    Counted .umount first (log ++ [(l, .umount)]) (without saved (l :: gone)) := by
  intro k hk
  rw [reports_append_self log .umount l hsafe k hk, h k hk]
  have hfirst : l ∈ first := hknown (mem_without.mp hl).1
  by_cases hkl : k = l
  · subst hkl
    simp [mem_without_cons, hfirst, hl]
  · simp [mem_without_cons, hkl]

theorem Removing.advance {first : List Mount} {s : State} (h : Removing first s)
    (hsafe : CopySafe s .advance) : Removing first (s.step .advance) := by
  obtain ⟨htable, hsaved, hknown, hcounted⟩ := h
  simp only [State.step, State.advance]
  cases hphase : s.phase with
  | idle =>
    rw [hphase] at hcounted
    have hle : s.table.length ≤ s.saved.length := (htable.subperm hcounted.1).length_le
    simp only
    split
    · exact ⟨htable, hsaved, hknown, by rw [hphase]; exact hcounted⟩
    · rw [if_neg (by omega)]
      have hnone : without s.saved [] = s.saved := by simp [without]
      refine ⟨htable, hsaved, hknown, ?_⟩
      simp only [hnone]
      exact ⟨hcounted.1, hsaved, List.Subset.refl _, hcounted.2⟩
  | scanning =>
    rw [hphase] at hcounted
    exact hcounted.elim
  | checking todo gone =>
    simp only [hphase] at hcounted
    simp only [CopySafe, hphase] at hsafe
    obtain ⟨hsub, hnodup, htodo, hcount⟩ := hcounted
    cases todo with
    | nil => exact ⟨htable, hsaved, hknown, hsub, fun l hl => (mem_without.mp hl).1, hcount⟩
    | cons l todo =>
      simp only at hsafe ⊢
      have hl : l ∈ without s.saved gone := htodo (List.mem_cons_self ..)
      have hrest : todo ⊆ without s.saved gone := fun k hk => htodo (List.mem_cons_of_mem _ hk)
      obtain ⟨hnew, hnodup⟩ := List.nodup_cons.mp hnodup
      split
      · exact ⟨htable, hsaved, hknown, hsub, hnodup, hrest, hcount⟩
      · rename_i hmissing
        refine ⟨htable, hsaved, hknown, ?_, hnodup, ?_, hcount.gone hknown hl (hsafe hmissing)⟩
        · exact fun k hk => mem_without_cons.mpr ⟨fun hkl => hmissing (hkl ▸ hk), hsub hk⟩
        · exact fun k hk => mem_without_cons.mpr ⟨fun hkl => hnew (hkl ▸ hk), hrest hk⟩
  | copying seen =>
    simp only [hphase] at hcounted
    simp only [CopySafe, hphase] at hsafe
    obtain ⟨hseen, hsub, hcount⟩ := hcounted
    exact ⟨htable, htable, List.Subset.trans hseen (List.Subset.trans hsub hknown),
      List.Subset.refl _, hcount.congr hsafe⟩

theorem Removing.reported {first : Table} {s : State} (h : Removing first.mounts s)
    (hdone : s.unchanged) : ReportedOnce .umount first s := by
  obtain ⟨htable, hsaved, hknown, hcounted⟩ := h
  rw [hdone.1] at hcounted
  have hperm : s.table.Perm s.saved :=
    (htable.subperm hcounted.1).perm_of_length_le (le_of_eq hdone.2.symm)
  exact hcounted.2.congr fun l _ => hperm.mem_iff

/-! ### A call by itself -/

/-- Advancing with the table as it is. -/
def advances (n : Nat) : List Move := List.replicate n .advance

theorem run_advances (s : State) (n m : Nat) :
    run State.step s (advances (n + m)) = run State.step (run State.step s (advances n))
    (advances m) := by
  rw [advances, List.replicate_add, Systems.run_append]
  rfl

/-- The lines of `todo` that the table does not have are reported in order. -/
theorem checking_alone (table saved todo gone : List Mount) (log : List (Mount × Action)) :
    run State.step ⟨table, saved, .checking todo gone, log⟩ (advances todo.length) =
      ⟨table, saved, .checking [] ((without todo table).reverse ++ gone),
        log ++ (without todo table).map fun l => (l, .umount)⟩ := by
  induction todo generalizing gone log with
  | nil => simp [advances, run, without]
  | cons l todo ih =>
    rw [List.length_cons, Nat.add_comm, run_advances]
    by_cases hl : l ∈ table
    · have hstep : run State.step ⟨table, saved, .checking (l :: todo) gone, log⟩ (advances 1) =
          ⟨table, saved, .checking todo gone, log⟩ := by
        simp [run, advances, State.step, State.advance, hl]
      have hrest : without (l :: todo) table = without todo table := by simp [without, hl]
      rw [hstep, ih, hrest]
    · have hstep : run State.step ⟨table, saved, .checking (l :: todo) gone, log⟩ (advances 1) =
          ⟨table, saved, .checking todo (l :: gone), log ++ [(l, .umount)]⟩ := by
        simp [run, advances, State.step, State.advance, hl]
      have hrest : without (l :: todo) table = l :: without todo table := by simp [without, hl]
      rw [hstep, ih, hrest]
      simp

/-- What a call reports of a table that stays as it is. -/
def events (table saved : List Mount) : List (Mount × Action) :=
  if table.length = saved.length then []
  else if saved.length < table.length then (without table saved).map fun l => (l, .mount)
  else (without saved table).map fun l => (l, .umount)

/-- **While the table stays as it is, a call is `compare`.** -/
theorem advance_alone (table saved : List Mount) (log : List (Mount × Action)) :
    ∃ n s, run State.step ⟨table, saved, .idle, log⟩ (advances n) = s ∧
      s.table = table ∧ s.phase = .idle ∧ s.log = log ++ events table saved ∧
      compare (fileOf table) (fileOf saved) =
        ⟨if table.length = saved.length then 1 else 0,
          (events table saved).filterMap fun e => report e.2 e.1, fileOf s.saved⟩ := by
  by_cases heq : table.length = saved.length
  · refine ⟨1, ⟨table, saved, .idle, log⟩, ?_, rfl, rfl, ?_, ?_⟩
    · simp [run, advances, State.step, State.advance, heq]
    · simp [events, heq]
    · simp [compare_files, events, heq]
  · by_cases hgrown : saved.length < table.length
    · refine ⟨3, ⟨table, table, .idle, log ++ events table saved⟩, ?_, rfl, rfl, rfl, ?_⟩
      · simp [run, advances, State.step, State.advance, heq, hgrown, events]
      · simp [compare_files, events, heq, hgrown, List.filterMap_map]
    · refine ⟨1 + (saved.length + 2), ⟨table, table, .idle, log ++ events table saved⟩, ?_, rfl, rfl,
        rfl, ?_⟩
      · have hstart : run State.step ⟨table, saved, .idle, log⟩ (advances 1) =
            ⟨table, saved, .checking saved [], log⟩ := by
          simp [run, advances, State.step, State.advance, heq, hgrown]
        rw [run_advances, hstart, run_advances, checking_alone]
        simp [run, advances, State.step, State.advance, events, heq, hgrown]
      · simp [compare_files, events, heq, hgrown, List.filterMap_map]

/-- From wherever it stands, `compare` comes to return 1 if the table no longer changes. -/
theorem settles (s : State) : ∃ n, (run State.step s (advances n)).unchanged := by
  have hcopied : ∀ s : State, (∃ seen, s.phase = .copying seen) →
      (run State.step s (advances 1)).unchanged := by
    rintro s ⟨seen, hphase⟩
    simp [run, advances, State.step, State.advance, State.unchanged, hphase]
  have hchecking : ∀ table saved todo gone log, ∃ n,
      (run State.step ⟨table, saved, .checking todo gone, log⟩ (advances n)).unchanged := by
    intro table saved todo gone log
    refine ⟨todo.length + (1 + 1), ?_⟩
    rw [run_advances, checking_alone, run_advances]
    exact hcopied _ ⟨_, rfl⟩
  obtain ⟨table, saved, phase, log⟩ := s
  cases phase with
  | idle =>
    by_cases heq : table.length = saved.length
    · exact ⟨0, rfl, heq⟩
    · by_cases hgrown : saved.length < table.length
      · refine ⟨2 + 1, ?_⟩
        rw [run_advances]
        apply hcopied
        simp [run, advances, State.step, State.advance, heq, hgrown]
      · obtain ⟨n, hn⟩ := hchecking table saved saved [] log
        refine ⟨1 + n, ?_⟩
        rw [run_advances]
        simpa [run, advances, State.step, State.advance, heq, hgrown] using hn
  | scanning =>
    refine ⟨1 + 1, ?_⟩
    rw [run_advances]
    exact hcopied _ ⟨table, rfl⟩
  | checking todo gone => exact hchecking table saved todo gone log
  | copying seen => exact ⟨1, hcopied _ ⟨seen, rfl⟩⟩

/-! ### Runs -/

/-- The states that the runs with changes one way reach. -/
theorem run_invariant (action : Action) (first : Table) {moves : List Move}
    (hway : Every State.step (OneWay action) (.start first) moves)
    (hsafe : Every State.step CopySafe (.start first) moves) :
    match action with
    | .mount => Adding first.mounts (run State.step (.start first) moves)
    | .umount => Removing first.mounts (run State.step (.start first) moves) := by
  have hok := Systems.every_and hway hsafe
  cases action with
  | mount =>
    refine Systems.invariant_of_every ?_ (adding_start first) hok
    rintro s (table | -) hs ⟨hchange, hcopy⟩
    · exact hs.change hchange.1 hchange.2
    · exact hs.advance hcopy
  | umount =>
    refine Systems.invariant_of_every ?_ (removing_start first) hok
    rintro s (table | -) hs ⟨hchange, hcopy⟩
    · exact hs.change hchange.1 hchange.2
    · exact hs.advance hcopy

/-- **Lines that are only added, or only removed, are each reported by one event, in every
order of reads and changes, if the lines that are copied are always those that were
compared. Once the table no longer changes `compare` comes to return 1.** -/
theorem reported_once (action : Action) (first : Table) (moves : List Move)
    (hway : Every State.step (OneWay action) (.start first) moves)
    (hsafe : Every State.step CopySafe (.start first) moves) :
    (∃ n, (run State.step (.start first) (moves ++ advances n)).unchanged) ∧
      ((run State.step (.start first) moves).unchanged →
        ReportedOnce action first (run State.step (.start first) moves)) := by
  constructor
  · obtain ⟨n, hn⟩ := settles (run State.step (.start first) moves)
    exact ⟨n, by rw [Systems.run_append]; exact hn⟩
  · intro hdone
    have hinv := run_invariant action first hway hsafe
    cases action with
    | mount => exact Adding.reported hinv hdone
    | umount => exact Removing.reported hinv hdone

/-! ### A stick, and a disc after it -/

def noTable : Table := ⟨[], List.nodup_nil⟩

/-- The stick is mounted, and the listener comes to it in one call. -/
def stickMoves : List Move := .change [stick] :: advances 3

theorem stick_facts : stick.isDisk = false ∧ ∀ action, stick.overlong action = false := by
  refine ⟨by with_unfolding_all decide, fun action => ?_⟩
  cases action <;> with_unfolding_all decide

theorem disc_facts : disc.isDisk = false ∧ disc ≠ stick := by
  refine ⟨by with_unfolding_all decide, fun h => ?_⟩
  exact absurd (congrArg Mount.device h) (by with_unfolding_all decide)

/-- The stick is reported once. -/
theorem stick_reported :
    (∃ n, (run State.step (.start noTable) (stickMoves ++ advances n)).unchanged) ∧
      ((run State.step (.start noTable) stickMoves).unchanged →
        ReportedOnce .mount noTable (run State.step (.start noTable) stickMoves)) := by
  refine reported_once .mount noTable stickMoves ?_ ?_
  · simp [stickMoves, advances, Every, OneWay, State.start, noTable]
  · simp [stickMoves, advances, Every, CopySafe, State.step, State.advance, State.start, noTable,
      without, stick_facts]

/-- A disc that is mounted between the scan and the copy is never reported. -/
theorem disc_unreported :
    ¬ ∀ (action : Action) (first : Table) (moves : List Move),
      Every State.step (OneWay action) (.start first) moves →
        (run State.step (.start first) moves).unchanged →
          ReportedOnce action first (run State.step (.start first) moves) := by
  intro h
  obtain ⟨hdisk, hne⟩ := disc_facts
  have hmoves := h .mount noTable (.change [stick] :: advances 2 ++ [.change [stick, disc], .advance])
    (by simp [advances, Every, OneWay, State.step, State.advance, State.start, noTable, hne.symm])
    (by simp [advances, run, State.step, State.advance, State.start, State.unchanged, noTable])
    disc hdisk
  simp [advances, run, State.step, State.advance, State.start, noTable, without, reports,
    hne.symm] at hmoves

end Tcos.Udev
