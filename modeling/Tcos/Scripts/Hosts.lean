import Tcos.Libc.Numbers
import Tcos.Python.Lines
import Tcos.Systems.Run

/-! tcos-gdm-autologin: the hosts that it generates.

`AddHost` looks for an address with a blank behind it anywhere in `/etc/hosts`, and appends a line
where there is none. `generated_iff` says for which files and answers each address gets its entry,
and nothing else changes. -/
namespace Tcos.Scripts.Hosts
open Shell (Text lit isBlank)
open Libc (decimal)
open Python
open Systems (run Every run_append every_iff)

/-! ### The script -/

/-- An address is in the file. -/
def isIn (ip : Text) (data : Text) : Bool :=
  (readlines data).any fun line => decide (ip ++ [' '] <:+: chomp line) || decide
    (ip ++ ['\t'] <:+: chomp line)

/-- `AddHost`, of address and name: the file afterwards. -/
def addHost (noaction : Bool) (data : Text) (x : Text × Text) : Text :=
  if isIn x.1 data then data
  else if noaction then data
  else data ++ (x.1 ++ '\t' :: x.2 ++ ['\n'])

/-- `ips` and `hosts`. -/
def generated (common ipbase : Text) (number fromip : Int) : List (Text × Text) :=
  (List.range number.toNat).map fun k =>
    (ipbase ++ '.' :: decimal (fromip + (k : Int)), common ++ decimal (fromip + (k : Int)))

def addUserAndHost (noaction : Bool) (common ipbase : Text) (number fromip : Int) (resp data : Text) :
    Text :=
  -- `hosts[0]` of no hosts is an error
  if generated common ipbase number fromip = [] then data
  else if resp ≠ lit "y" ∧ resp ≠ lit "Y" then data
  else run (addHost noaction) data (generated common ipbase number fromip)

/-! ### Entries -/

/-- The first field of a line, without its comment. -/
def firstField (line : Text) : Text :=
  (((chomp line).takeWhile (· != '#')).dropWhile isBlank).takeWhile fun c => !isBlank c

def entries (ip data : Text) : Nat := (readlines data).countP fun line => decide (firstField line = ip)

/-- It can be a field. -/
def IsField (ip : Text) : Prop := ∀ c ∈ ip, isBlank c = false ∧ c ≠ '#' ∧ c ≠ '\n'

/-- Each generated address has an entry, none that had one got another, each earlier line is as it
was, and the second time nothing changes. -/
structure Added (again : Text → Text) (data data' : Text) (xs : List (Text × Text)) : Prop where
  present : ∀ x ∈ xs, 0 < entries x.1 data'
  once : ∀ ip, 0 < entries ip data → entries ip data' = entries ip data
  kept : readlines data <+: readlines data'
  again : again data' = data'

/-- The address can be a field, it is found exactly when it has an entry, and if it has none the
file ends in a newline. -/
structure Fits (data : Text) (x : Text × Text) : Prop where
  field : IsField x.1
  found : isIn x.1 data = true ↔ 0 < entries x.1 data
  ended : 0 < entries x.1 data ∨ Ended data

/-! ### One host -/

section Host
variable {data ip host : Text} {x : Text × Text}

theorem isIn_append (h : isIn ip data = true) (s : Text) : isIn ip (data ++ s) = true := by
  rw [isIn, List.any_eq_true] at h ⊢
  obtain ⟨line, hline, hin⟩ := h
  obtain ⟨line', hline', hpre⟩ := line_append hline s
  have hchomp : chomp line <:+: chomp line' := (hpre.filter _).isInfix
  simp only [Bool.or_eq_true, decide_eq_true_eq] at hin ⊢
  exact ⟨line', hline', hin.imp (·.trans hchomp) (·.trans hchomp)⟩

/-- What was written is found. -/
theorem isIn_written (hip : '\n' ∉ ip) (data host : Text) :
    isIn ip (data ++ (ip ++ '\t' :: host ++ ['\n'])) = true := by
  obtain ⟨line, hline, hin⟩ := line_infix (u := ip ++ ['\t']) (by simp [hip]) (by simp) data
    (host ++ ['\n'])
  rw [isIn, List.any_eq_true]
  refine ⟨line, by simpa using hline, ?_⟩
  have hchomp : chomp (ip ++ ['\t']) <:+: chomp line := hin.filter _
  rw [chomp_of_notMem (by simp [hip])] at hchomp
  simp [hchomp]

theorem addHost_found (h : isIn x.1 data = true) : addHost false data x = data := if_pos h

theorem addHost_missing (h : ¬ isIn x.1 data = true) :
    addHost false data x = data ++ (x.1 ++ '\t' :: x.2 ++ ['\n']) := by
  rw [addHost, if_neg h, if_neg Bool.false_ne_true]

theorem addHost_append (data : Text) (x : Text × Text) : ∃ s, addHost false data x = data ++ s := by
  by_cases h : isIn x.1 data = true
  · exact ⟨[], by rw [addHost_found h, List.append_nil]⟩
  · exact ⟨_, addHost_missing h⟩

theorem isIn_addHost (hip : '\n' ∉ x.1) (data : Text) : isIn x.1 (addHost false data x) = true := by
  by_cases h : isIn x.1 data = true
  · rwa [addHost_found h]
  · rw [addHost_missing h]
    exact isIn_written hip data x.2

/-- The line that is written starts with the address. -/
theorem firstField_written (hip : IsField ip) (hhost : '\n' ∉ host) (hne : ip ≠ []) :
    firstField (ip ++ '\t' :: host ++ ['\n']) = ip := by
  have hno : ∀ c ∈ ip, c ≠ '\n' := fun c hc => (hip c hc).2.2
  obtain ⟨c, t, rfl⟩ := List.exists_cons_of_ne_nil hne
  rw [firstField, chomp_line]
  · have hclean : ∀ d ∈ c :: t, (d != '#') = true := fun d hd => by simpa using (hip d hd).2.1
    have hfield : ∀ d ∈ c :: t, (!isBlank d) = true := fun d hd => by simp [(hip d hd).1]
    have hblank : isBlank c = false := (hip c (by simp)).1
    rw [List.takeWhile_append_of_pos hclean, List.cons_append,
      List.dropWhile_cons_of_neg (by simp [hblank]), ← List.cons_append,
      List.takeWhile_append_of_pos hfield, List.takeWhile_cons_of_pos (by decide),
      List.takeWhile_cons_of_neg (by decide), List.append_nil]
  · simp only [List.mem_append, List.mem_cons, not_or]
    exact ⟨⟨(hno c (by simp)).symm, fun h => hno '\n' (by simp [h]) rfl⟩, by decide, hhost⟩

theorem firstField_isField (line : Text) : IsField (firstField line) := by
  intro c hc
  have hblank := List.mem_takeWhile_imp hc
  have hmem := (List.dropWhile_suffix _).subset ((List.takeWhile_prefix _).subset hc)
  have hhash := List.mem_takeWhile_imp hmem
  have hchomp := (List.takeWhile_prefix _).subset hmem
  refine ⟨by simpa using hblank, by simpa using hhash, ?_⟩
  simpa using (List.mem_filter.mp hchomp).2

theorem isField_of_entries (h : 0 < entries ip data) : IsField ip := by
  rw [entries, List.countP_pos_iff] at h
  obtain ⟨line, -, hline⟩ := h
  exact of_decide_eq_true hline ▸ firstField_isField line

theorem entries_le {data data' : Text} (h : readlines data <+: readlines data') (ip : Text) :
    entries ip data ≤ entries ip data' := by
  obtain ⟨ls, hls⟩ := h
  rw [entries, entries, ← hls, List.countP_append]
  exact Nat.le_add_right ..

/-- **A line more.** -/
theorem entries_written (hended : Ended data) (hx : IsField x.1) (hhost : '\n' ∉ x.2) (hne : x.1 ≠ [])
    (ip : Text) : entries ip (data ++ (x.1 ++ '\t' :: x.2 ++ ['\n'])) = entries ip data + if x.1 = ip
    then 1 else 0 := by
  have hno : '\n' ∉ x.1 ++ '\t' :: x.2 := by
    simp only [List.mem_append, List.mem_cons, not_or]
    exact ⟨fun h => (hx '\n' h).2.2 rfl, by decide, hhost⟩
  have hline : readlines (x.1 ++ '\t' :: x.2 ++ ['\n']) = [x.1 ++ '\t' :: x.2 ++ ['\n']] := by
    simpa [readlines] using readlines_line hno []
  rw [entries, entries, readlines_append hended, List.countP_append, hline, List.countP_singleton,
    firstField_written hx hhost hne]
  simp

end Host

/-! ### All hosts -/

section Hosts
variable {data ip : Text} {xs : List (Text × Text)}

/-- What AddHost can be given. -/
structure IsHost (x : Text × Text) : Prop where
  some : x.1 ≠ []
  address : '\n' ∉ x.1
  name : '\n' ∉ x.2

theorem run_append_text (data : Text) (xs : List (Text × Text)) : ∃ s,
    run (addHost false) data xs = data ++ s := by
  induction xs generalizing data with
  | nil => exact ⟨[], (List.append_nil _).symm⟩
  | cons x xs ih =>
    obtain ⟨s, hs⟩ := addHost_append data x
    obtain ⟨t, ht⟩ := ih (addHost false data x)
    exact ⟨s ++ t, by rw [run, List.foldl_cons, ← run, ht, hs, List.append_assoc]⟩

/-- A file that was added to ends in a newline. -/
theorem run_ended (data : Text) (xs : List (Text × Text)) :
    run (addHost false) data xs = data ∨ Ended (run (addHost false) data xs) := by
  induction xs using List.reverseRecOn with
  | nil => exact .inl rfl
  | append_singleton xs x ih =>
    rw [run_append]
    change addHost false (run (addHost false) data xs) x = data ∨
      Ended (addHost false (run (addHost false) data xs) x)
    by_cases h : isIn x.1 (run (addHost false) data xs) = true
    · rwa [addHost_found h]
    · rw [addHost_missing h]
      exact .inr (ended_line _ _)

theorem isIn_run (h : isIn ip data = true) (xs : List (Text × Text)) :
    isIn ip (run (addHost false) data xs) = true := by
  obtain ⟨s, hs⟩ := run_append_text data xs
  rw [hs]
  exact isIn_append h s

/-- **The second time nothing is added.** -/
theorem run_again (hxs : ∀ x ∈ xs, IsHost x) (data : Text) :
    run (addHost false) (run (addHost false) data xs) xs = run (addHost false) data xs := by
  have hfound : ∀ x ∈ xs, isIn x.1 (run (addHost false) data xs) = true := by
    intro x hx
    obtain ⟨before, after, rfl⟩ := List.append_of_mem hx
    rw [run_append]
    exact isIn_run (isIn_addHost (hxs x hx).address _) after
  generalize run (addHost false) data xs = d at hfound
  clear hxs
  induction xs with
  | nil => rfl
  | cons x xs ih =>
    rw [List.forall_mem_cons] at hfound
    rw [run, List.foldl_cons, ← run, addHost_found hfound.1]
    exact ih hfound.2

/-- If the file does not grow, nothing was written. -/
theorem ended_of_missing {x : Text × Text} (hx : ¬ isIn x.1 data = true)
    (hend : Ended data ∨ run (addHost false) (addHost false data x) xs = data) : Ended data :=
  hend.resolve_right fun heq => by
    obtain ⟨s, hs⟩ := run_append_text (addHost false data x) xs
    rw [heq, addHost_missing hx] at hs
    have := congrArg List.length hs
    simp only [List.length_append, List.length_cons] at this
    omega

/-- **An address that is found gets no entry.** -/
theorem entries_run (hxs : ∀ x ∈ xs, IsHost x ∧ IsField x.1) (h : isIn ip data = true)
    (hend : Ended data ∨ run (addHost false) data xs = data) :
    entries ip (run (addHost false) data xs) = entries ip data := by
  induction xs generalizing data with
  | nil => rfl
  | cons x xs ih =>
    rw [List.forall_mem_cons] at hxs
    rw [run, List.foldl_cons, ← run] at hend ⊢
    by_cases hx : isIn x.1 data = true
    · rw [addHost_found hx] at hend ⊢
      exact ih hxs.2 h hend
    · have hne : x.1 ≠ ip := fun heq => hx (heq ▸ h)
      have hended := ended_of_missing hx hend
      rw [addHost_missing hx] at hend ⊢
      rw [ih hxs.2 (isIn_append h _) (.inl (ended_line _ _)),
        entries_written hended hxs.1.2 hxs.1.1.name hxs.1.1.some,
        if_neg hne, Nat.add_zero]

/-- **An entry was there, or the address is found.** -/
theorem entry_origin (hxs : ∀ x ∈ xs, IsHost x ∧ IsField x.1)
    (hend : Ended data ∨ run (addHost false) data xs = data)
    (h : 0 < entries ip (run (addHost false) data xs)) : 0 < entries ip data ∨
    isIn ip (run (addHost false) data xs) = true := by
  by_cases hfound : ∃ x ∈ xs, x.1 = ip
  · obtain ⟨x, hx, rfl⟩ := hfound
    obtain ⟨before, after, rfl⟩ := List.append_of_mem hx
    right
    rw [run_append]
    exact isIn_run (isIn_addHost (hxs x hx).1.address _) after
  · left
    induction xs generalizing data with
    | nil => exact h
    | cons x xs ih =>
      rw [List.forall_mem_cons] at hxs
      simp only [List.mem_cons, exists_eq_or_imp, not_or] at hfound
      rw [run, List.foldl_cons, ← run] at hend h
      by_cases hx : isIn x.1 data = true
      · rw [addHost_found hx] at hend h
        exact ih hxs.2 hend h hfound.2
      · have hended := ended_of_missing hx hend
        rw [addHost_missing hx] at hend h
        have := ih hxs.2 (.inl (ended_line _ _)) h hfound.2
        rwa [entries_written hended hxs.1.2 hxs.1.1.name hxs.1.1.some, if_neg hfound.1,
          Nat.add_zero] at this

/-- A host that fits gets its entry, and nothing else changes. -/
theorem addHost_fits {x : Text × Text} (hx : IsHost x) (h : Fits data x) :
    readlines data <+: readlines (addHost false data x) ∧ 0 < entries x.1 (addHost false data x) ∧
      ∀ ip, 0 < entries ip data → entries ip (addHost false data x) = entries ip data := by
  by_cases hfound : isIn x.1 data = true
  · rw [addHost_found hfound]
    exact ⟨List.prefix_rfl, h.found.mp hfound, fun _ _ => rfl⟩
  · have hnone : ¬ 0 < entries x.1 data := fun hpos => hfound (h.found.mpr hpos)
    have hended := h.ended.resolve_left hnone
    rw [addHost_missing hfound]
    refine ⟨?_, ?_, fun ip hip => ?_⟩
    · rw [readlines_append hended]
      exact List.prefix_append ..
    · rw [entries_written hended h.field hx.name hx.some, if_pos rfl]
      omega
    · have hne : x.1 ≠ ip := fun heq => hnone (heq ▸ hip)
      rw [entries_written hended h.field hx.name hx.some, if_neg hne, Nat.add_zero]

theorem added_of_fits (hxs : ∀ x ∈ xs, IsHost x) (h : Every (addHost false) Fits data xs) :
    readlines data <+: readlines (run (addHost false) data xs) ∧
    (∀ x ∈ xs, 0 < entries x.1 (run (addHost false) data xs)) ∧
      ∀ ip, 0 < entries ip data → entries ip (run (addHost false) data xs) = entries ip data := by
  induction xs generalizing data with
  | nil => exact ⟨List.prefix_rfl, by simp, fun _ _ => rfl⟩
  | cons x xs ih =>
    rw [List.forall_mem_cons] at hxs
    obtain ⟨hkept, hpresent, honce⟩ := addHost_fits hxs.1 h.1
    obtain ⟨hkept', hpresent', honce'⟩ := ih hxs.2 h.2
    rw [run, List.foldl_cons, ← run]
    refine ⟨hkept.trans hkept', ?_, fun ip hip => ?_⟩
    · rw [List.forall_mem_cons]
      exact ⟨hpresent.trans_le (entries_le hkept' _), hpresent'⟩
    · rw [honce' ip (by rw [honce ip hip]; exact hip), honce ip hip]

/-- Lines before stay lines before. -/
theorem prefix_of_ended {s : Text} (h : Ended data ∨ s = []) : readlines data <+: readlines
    (data ++ s) := by
  rcases h with h | rfl
  · rw [readlines_append h]
    exact List.prefix_append ..
  · rw [List.append_nil]

/-- A host in the middle of a run that did what it should. -/
theorem fits_of_added {x : Text × Text} {before after : List (Text × Text)} (hx : IsHost x ∧ IsField x.1)
    (hbefore : ∀ y ∈ before, IsHost y ∧ IsField y.1) (hafter : ∀ y ∈ after, IsHost y ∧ IsField y.1)
    (hkept : readlines data <+:
      readlines (run (addHost false) (addHost false (run (addHost false) data before) x) after))
    (honce : ∀ ip, 0 < entries ip data →
      entries ip (run (addHost false) (addHost false (run (addHost false) data before) x) after) =
      entries ip data)
    (hpresent : 0 < entries x.1
    (run (addHost false) (addHost false (run (addHost false) data before) x) after)) :
    Fits (run (addHost false) data before) x := by
  obtain ⟨u, hu⟩ := run_append_text data before
  obtain ⟨v, hv⟩ := addHost_append (run (addHost false) data before) x
  obtain ⟨w, hw⟩ := run_append_text (addHost false (run (addHost false) data before) x) after
  -- only a file that ends in a newline grows
  have hgrows : Ended data ∨ u ++ v ++ w = [] := by
    by_contra hnot
    rw [not_or] at hnot
    rw [hw, hv, hu, List.append_assoc, List.append_assoc, ← List.append_assoc u] at hkept
    exact not_prefix_append hnot.1 hnot.2 hkept
  have hdata : Ended data ∨ run (addHost false) data before = data :=
    hgrows.imp_right fun h => by
      rw [List.append_assoc, List.append_eq_nil_iff] at h
      rw [hu, h.1, List.append_nil]
  have hends : Ended (run (addHost false) data before) ∨
      run (addHost false) (addHost false (run (addHost false) data before) x) after = run
      (addHost false) data before := by
    rcases run_ended data before with h | h
    · rcases hgrows with hd | hd
      · rw [h]
        exact .inl hd
      · rw [List.append_eq_nil_iff, List.append_eq_nil_iff] at hd
        exact .inr (by rw [hw, hv, hd.1.2, hd.2, List.append_nil, List.append_nil])
    · exact .inl h
  have hfound : isIn x.1 (run (addHost false) data before) = true ↔ 0 < entries x.1
    (run (addHost false) data before) := by
    constructor
    · intro h
      rw [addHost_found h] at hends hpresent
      rwa [entries_run hafter h hends] at hpresent
    · intro h
      by_contra hmissing
      have hended := ended_of_missing hmissing hends
      have hfirst := (entry_origin hbefore hdata h).resolve_right hmissing
      have hle : entries x.1 data ≤ entries x.1 (run (addHost false) data before) := by
        refine entries_le (hu ▸ prefix_of_ended (hdata.imp_right fun h => ?_)) x.1
        rw [hu] at h
        simpa using h
      have hle' := entries_le
        (hw ▸ prefix_of_ended (s := w) (.inl (addHost_missing hmissing ▸ ended_line _ _))) x.1
      rw [honce x.1 hfirst, addHost_missing hmissing, entries_written hended hx.2 hx.1.name hx.1.some,
        if_pos rfl] at hle'
      omega
  refine ⟨hx.2, hfound, ?_⟩
  by_cases h : isIn x.1 (run (addHost false) data before) = true
  · exact .inl (hfound.mp h)
  · exact .inr (ended_of_missing h hends)

/-- **All hosts, one after the other.** -/
theorem added_iff (hxs : ∀ x ∈ xs, IsHost x) (data : Text) :
    Added (fun d => run (addHost false) d xs) data (run (addHost false) data xs) xs ↔
      Every (addHost false) Fits data xs := by
  constructor
  · intro h
    rw [every_iff]
    rintro before x after hsplit
    have hfields : ∀ y ∈ xs, IsHost y ∧ IsField y.1 :=
      fun y hy => ⟨hxs y hy, isField_of_entries (h.present y hy)⟩
    have hkept := h.kept
    have honce := h.once
    have hpresent := h.present x (by simp [hsplit])
    have hx := hfields x (by simp [hsplit])
    have hbefore : ∀ y ∈ before, IsHost y ∧ IsField y.1 := fun y hy => hfields y (by simp [hsplit, hy])
    have hafter : ∀ y ∈ after, IsHost y ∧ IsField y.1 := fun y hy => hfields y (by simp [hsplit, hy])
    have hend : run (addHost false) data xs =
        run (addHost false) (addHost false (run (addHost false) data before) x) after := by
      rw [hsplit, run_append]
      rfl
    rw [hend] at hkept honce hpresent
    exact fits_of_added hx hbefore hafter hkept honce hpresent
  · intro h
    obtain ⟨hkept, hpresent, honce⟩ := added_of_fits hxs h
    exact ⟨hpresent, honce, hkept, run_again hxs data⟩

end Hosts

/-! ### The answers -/

section Answers
variable {common ipbase resp : Text}

theorem generated_isHost (hcommon : '\n' ∉ common) (hbase : '\n' ∉ ipbase) (number fromip : Int) :
    ∀ x ∈ generated common ipbase number fromip, IsHost x := by
  intro x hx
  obtain ⟨k, -, rfl⟩ := List.mem_map.mp hx
  have hno : '\n' ∉ decimal (fromip + (k : Int)) := fun h => by
    rcases Libc.decimal_chars _ _ h with h | h
    · exact absurd h (by decide)
    · exact absurd h (by decide)
  exact ⟨by simp, by simp [hbase, hno], by simp [hcommon, hno]⟩

theorem addUserAndHost_run (hresp : resp = lit "y" ∨ resp = lit "Y") (number fromip : Int)
    (data : Text) : addUserAndHost false common ipbase number fromip resp data =
      run (addHost false) data (generated common ipbase number fromip) := by
  unfold addUserAndHost
  split_ifs with hnone hno
  · rw [hnone]
    rfl
  · exact absurd hresp (not_or.mpr hno)
  · rfl

/-- **Every address gets its entry and nothing else changes exactly when each is found where it has
an entry and only there, and the file ends in a newline where a line is added.** -/
theorem generated_iff (hcommon : '\n' ∉ common) (hbase : '\n' ∉ ipbase)
    (hresp : resp = lit "y" ∨ resp = lit "Y") (number fromip : Int) (data : Text) :
    Added (addUserAndHost false common ipbase number fromip resp) data
        (addUserAndHost false common ipbase number fromip resp data)
          (generated common ipbase number fromip) ↔
      Every (addHost false) Fits data (generated common ipbase number fromip) := by
  have hrun : addUserAndHost false common ipbase number fromip resp =
      fun d => run (addHost false) d (generated common ipbase number fromip) :=
    funext fun d => addUserAndHost_run hresp number fromip d
  rw [hrun]
  exact added_iff (generated_isHost hcommon hbase number fromip) data

theorem generated_iff_two :
    Added (addUserAndHost false (lit "host") (lit "192.168.0") 2 1 (lit "y"))
    (lit "127.0.0.1\tlocalhost\n")
        (addUserAndHost false (lit "host") (lit "192.168.0") 2 1 (lit "y")
          (lit "127.0.0.1\tlocalhost\n"))
        (generated (lit "host") (lit "192.168.0") 2 1) ↔
      Every (addHost false) Fits (lit "127.0.0.1\tlocalhost\n")
      (generated (lit "host") (lit "192.168.0") 2 1) :=
  generated_iff (by with_unfolding_all decide) (by with_unfolding_all decide) (.inl rfl) 2 1 _

/-- An address that ends another one is taken for it. -/
theorem suffix_missed : ¬ Added (addUserAndHost false (lit "host") (lit "92.168.0") 1 1 (lit "y"))
    (lit "192.168.0.1 gate\n")
      (addUserAndHost false (lit "host") (lit "92.168.0") 1 1 (lit "y") (lit "192.168.0.1 gate\n"))
    (generated (lit "host") (lit "92.168.0") 1 1) := fun h => by
  have hentry := h.present (lit "92.168.0.1", lit "host1") (by with_unfolding_all decide)
  exact absurd hentry (by with_unfolding_all decide)

end Answers

end Tcos.Scripts.Hosts
