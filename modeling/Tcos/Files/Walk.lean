import Tcos.Libc.Text

/-! Paths of names, with directories and links on the way.

`walk` resolves a path as the kernel does: a link in the middle or at the end goes on from where its
text says, and only so many links are followed. `walk_replaced` is the rule for putting files in the
place of links to files: each path leads to what it led to. -/
namespace Tcos.Files
open Shell (Text)
open Libc (tokens)

/-- The names from the innermost directory to the root. -/
abbrev Path := List Text

inductive Inode (C : Type) where
  | file (content : C)
  | dir
  | link (text : Text)
  deriving DecidableEq, Repr

abbrev Disk (C : Type) := Path → Option (Inode C)

/-! ### Walking -/

/-- The names of a path; one that ends in a slash names a directory. -/
def components (t : Text) : List Text :=
  tokens (· == '/') t ++ if t.getLast? = some '/' then [['.']] else []

/-- Relative to a directory. -/
def slashed (ns : List Text) : Text := ['/'].intercalate ns

/-- An entry of a directory. -/
structure IsName (n : Text) : Prop where
  some : n ≠ []
  solid : '/' ∉ n
  dot : n ≠ ['.']
  dots : n ≠ ['.', '.']

theorem components_slashed {ns : List Text} (h : ∀ n ∈ ns, IsName n) : components (slashed ns) = ns := by
  have hdelim : ∀ n ∈ ns, ∀ c ∈ n, (c == '/') = false := by
    intro n hn c hc
    rw [beq_eq_false_iff_ne]
    rintro rfl
    exact (h n hn).solid hc
  have hlast : (slashed ns).getLast? ≠ some '/' := by
    intro hslash
    obtain rfl | ⟨ms, n, rfl⟩ : ns = [] ∨ ∃ ms n, ns = ms ++ [n] := by
      rcases List.eq_nil_or_concat ns with hnil | ⟨ms, n, hns⟩
      · exact .inl hnil
      · exact .inr ⟨ms, n, by rw [hns, List.concat_eq_append]⟩
    · simp [slashed] at hslash
    · have hn := h n (by simp)
      have hend : ∃ t, slashed (ms ++ [n]) = t ++ n := by
        clear h hdelim hslash
        induction ms with
        | nil => exact ⟨[], by simp [slashed]⟩
        | cons m ms ih =>
          obtain ⟨t, ht⟩ := ih
          refine ⟨m ++ '/' :: t, ?_⟩
          rw [slashed, List.cons_append, List.intercalate_cons_of_ne_nil (by simp), ← slashed, ht]
          simp
      obtain ⟨t, ht⟩ := hend
      rw [ht, List.getLast?_append_of_ne_nil _ hn.some] at hslash
      exact hn.solid (List.mem_of_getLast? hslash)
  rw [components, if_neg hlast, List.append_nil]
  clear hlast
  induction ns with
  | nil => rfl
  | cons n ns ih =>
    rw [List.forall_mem_cons] at h hdelim
    cases ns with
    | nil => simpa [slashed] using Libc.tokens_single hdelim.1 h.1.some
    | cons m ns =>
      rw [slashed, List.intercalate_cons_cons, ← slashed]
      rw [List.append_assoc, List.singleton_append, Libc.tokens_append hdelim.1 rfl, if_neg h.1.some,
        ih h.2 hdelim.2]
      rfl

/-- Where a path starts that is read in the directory `cur`. -/
def origin (cur : Path) (t : Text) : Path := if t.head? = some '/' then [] else cur

section Walk
variable {C : Type} (disk : Disk C)

/-- The names up to a link, which is left to `follow`. -/
def advance (follow : Path → List Text → Option Path) : Path → List Text → Option Path
  | cur, [] => some cur
  | cur, n :: ns =>
    if n = ['.'] then advance follow cur ns
    else if n = ['.', '.'] then advance follow cur.tail ns
    else
      match disk (n :: cur) with
      | none => none
      | some (.file _) => if ns = [] then some (n :: cur) else none
      | some .dir => advance follow (n :: cur) ns
      | some (.link t) => follow (origin cur t) (components t ++ ns)

/-- With at most `k` links on the way. -/
def walk : Nat → Path → List Text → Option Path
  | 0 => advance disk fun _ _ => none
  | k + 1 => advance disk (walk k)

/-- `MAXSYMLINKS`. -/
def maxLinks : Nat := 40

/-- The content of the file that the path leads to. -/
def content (k : Nat) (cur : Path) (ns : List Text) : Option C :=
  (walk disk k cur ns).bind fun p =>
    match disk p with
    | some (.file c) => some c
    | _ => none

end Walk

/-! ### Directories -/

section Tree
variable {C : Type} {disk disk' : Disk C}

/-- What is there is in a directory. -/
structure Rooted (disk : Disk C) : Prop where
  root : disk [] = some .dir
  parent : ∀ n p, disk (n :: p) ≠ none → disk p = some .dir

theorem Rooted.tail (h : Rooted disk) {p : Path} (hp : disk p = some .dir) :
    disk p.tail = some .dir := by
  cases p with
  | nil => exact h.root
  | cons n p => exact h.parent n p (by simp [hp])

/-- What is above it is a directory. -/
theorem Rooted.above (h : Rooted disk) {a b : Path} (hp : disk (a ++ b) ≠ none) (ha : a ≠ []) :
    disk b = some .dir := by
  induction a with
  | nil => exact absurd rfl ha
  | cons n a ih =>
    have hdir := h.parent n (a ++ b) hp
    cases a with
    | nil => exact hdir
    | cons m a => exact ih (by rw [hdir]; simp) (by simp)

theorem Rooted.origin (h : Rooted disk) {p : Path} (hp : disk p = some .dir) (t : Text) :
    disk (origin p t) = some .dir := by
  unfold Files.origin
  split
  · exact h.root
  · exact hp

theorem content_eq_some {k : Nat} {cur : Path} {ns : List Text} {c : C} :
    content disk k cur ns = some c ↔ ∃ p, walk disk k cur ns = some p ∧ disk p = some (.file c) := by
  rw [content, Option.bind_eq_some_iff]
  refine exists_congr fun p => and_congr_right fun _ => ?_
  split <;> simp_all

/-- Names of directories are entered one by one. -/
theorem advance_down (hroot : Rooted disk) (follow : Path → List Text → Option Path) {cur : Path}
    {ns : List Text} (hnames : ∀ n ∈ ns, IsName n) (hdir : disk (ns.reverse ++ cur) = some .dir)
    (ms : List Text) : advance disk follow cur (ns ++ ms) = advance disk follow
    (ns.reverse ++ cur) ms := by
  induction ns generalizing cur with
  | nil => rfl
  | cons n ns ih =>
    rw [List.forall_mem_cons] at hnames
    rw [List.reverse_cons, List.append_assoc, List.singleton_append] at hdir
    have hn : disk (n :: cur) = some .dir := by
      by_cases hns : ns = []
      · simpa [hns] using hdir
      · exact hroot.above (a := ns.reverse) (by rw [hdir]; simp) (by simpa using hns)
    rw [List.cons_append, advance, if_neg hnames.1.dot, if_neg hnames.1.dots, hn, List.reverse_cons,
      List.append_assoc, List.singleton_append]
    exact ih hnames.2 hdir

/-- A path leads to a directory or a file. -/
def Lands (disk : Disk C) (follow : Path → List Text → Option Path) : Prop :=
  ∀ cur ns q, disk cur = some .dir → follow cur ns = some q → disk q = some .dir ∨ ∃ c, disk q = some
  (.file c)

theorem advance_lands (hroot : Rooted disk) {follow : Path → List Text → Option Path}
    (h : Lands disk follow) : Lands disk (advance disk follow) := by
  intro cur ns q hcur hq
  induction ns generalizing cur with
  | nil =>
    obtain rfl : cur = q := by simpa [advance] using hq
    exact .inl hcur
  | cons n ns ih =>
    rw [advance] at hq
    by_cases hdot : n = ['.']
    · rw [if_pos hdot] at hq
      exact ih cur hcur hq
    by_cases hdots : n = ['.', '.']
    · rw [if_neg hdot, if_pos hdots] at hq
      exact ih cur.tail (hroot.tail hcur) hq
    · rw [if_neg hdot, if_neg hdots] at hq
      cases hn : disk (n :: cur) with
      | none => simp [hn] at hq
      | some i =>
        rw [hn] at hq
        cases i with
        | file c =>
          dsimp only at hq
          split_ifs at hq
          obtain rfl : n :: cur = q := by simpa using hq
          exact .inr ⟨c, hn⟩
        | dir => exact ih (n :: cur) hn hq
        | link t => exact h _ _ _ (hroot.origin hcur t) hq

theorem walk_lands (hroot : Rooted disk) (k : Nat) : Lands disk (walk disk k) := by
  induction k with
  | zero => exact advance_lands hroot fun _ _ _ _ hq => absurd hq (by simp)
  | succ k ih => exact advance_lands hroot ih

theorem advance_mono {follow follow' : Path → List Text → Option Path}
    (h : ∀ cur ns q, follow cur ns = some q → follow' cur ns = some q) {cur : Path} {ns : List Text}
    {q : Path} (hq : advance disk follow cur ns = some q) : advance disk follow' cur ns = some q := by
  induction ns generalizing cur with
  | nil => exact hq
  | cons n ns ih =>
    rw [advance] at hq ⊢
    by_cases hdot : n = ['.']
    · rw [if_pos hdot] at hq ⊢
      exact ih hq
    by_cases hdots : n = ['.', '.']
    · rw [if_neg hdot, if_pos hdots] at hq ⊢
      exact ih hq
    · rw [if_neg hdot, if_neg hdots] at hq ⊢
      cases hn : disk (n :: cur) with
      | none => simp [hn] at hq
      | some i =>
        cases i with
        | file c => simpa [hn] using hq
        | dir =>
          rw [hn] at hq
          exact ih hq
        | link t =>
          rw [hn] at hq
          exact h _ _ _ hq

/-- More links may be followed. -/
theorem walk_mono {k : Nat} {cur : Path} {ns : List Text} {q : Path} (h : walk disk k cur ns = some q) :
    walk disk (k + 1) cur ns = some q := by
  induction k generalizing cur ns q with
  | zero => exact advance_mono (fun _ _ _ hq => absurd hq (by simp)) h
  | succ k ih => exact advance_mono (fun _ _ _ hq => ih hq) h

theorem walk_le {k l : Nat} (hkl : k ≤ l) {cur : Path} {ns : List Text} {q : Path}
    (h : walk disk k cur ns = some q) : walk disk l cur ns = some q := by
  induction hkl with
  | refl => exact h
  | step _ ih => exact walk_mono ih

/-- What a path goes on from is no file. -/
def Onward (disk : Disk C) (follow : Path → List Text → Option Path) : Prop :=
  ∀ cur a b q, disk cur = some .dir → b ≠ [] → follow cur (a ++ b) = some q →
    ∃ p, follow cur a = some p ∧ ∀ c, disk p ≠ some (.file c)

theorem advance_onward (hroot : Rooted disk) {follow : Path → List Text → Option Path}
    (h : Onward disk follow) : Onward disk (advance disk follow) := by
  intro cur a b q hcur hb hq
  induction a generalizing cur with
  | nil => exact ⟨cur, rfl, by simp [hcur]⟩
  | cons n a ih =>
    rw [List.cons_append, advance] at hq
    rw [advance]
    by_cases hdot : n = ['.']
    · rw [if_pos hdot] at hq ⊢
      exact ih cur hcur hq
    by_cases hdots : n = ['.', '.']
    · rw [if_neg hdot, if_pos hdots] at hq ⊢
      exact ih cur.tail (hroot.tail hcur) hq
    · rw [if_neg hdot, if_neg hdots] at hq ⊢
      cases hn : disk (n :: cur) with
      | none => simp [hn] at hq
      | some i =>
        rw [hn] at hq
        cases i with
        | file c => simp [hb] at hq
        | dir => exact ih (n :: cur) hn hq
        | link t =>
          dsimp only at hq
          rw [← List.append_assoc] at hq
          exact h _ _ b q (hroot.origin hcur t) hb hq

theorem walk_onward (hroot : Rooted disk) (k : Nat) : Onward disk (walk disk k) := by
  induction k with
  | zero => exact advance_onward hroot fun _ _ _ _ _ _ hq => absurd hq (by simp)
  | succ k ih => exact advance_onward hroot ih

/-! ### Files for links -/

/-- Links are replaced by files with the content of what they lead to. -/
def Replaced (k : Nat) (disk disk' : Disk C) : Prop := ∀ p, disk' p = disk p ∨
  ∃ t c, disk p = some (.link t) ∧ disk' p = some (.file c) ∧
    ∀ q, walk disk k (origin p.tail t) (components t) = some q → disk q = some (.file c)

theorem Replaced.refl (k : Nat) (disk : Disk C) : Replaced k disk disk := fun _ => .inl rfl

/-- A directory stays one. -/
theorem Replaced.dir {k : Nat} (h : Replaced k disk disk') {p : Path} (hp : disk p = some .dir) :
    disk' p = some .dir := by
  rcases h p with hsame | ⟨t, c, hlink, -⟩
  · rw [hsame, hp]
  · rw [hp] at hlink
    exact absurd hlink (by simp)

/-- A path that led to a file or a directory leads to the like. -/
def Alike (disk disk' : Disk C) (follow follow' : Path → List Text → Option Path) : Prop :=
  ∀ cur ns q, disk cur = some .dir → follow cur ns = some q →
    (disk q = some .dir → follow' cur ns = some q) ∧
      ∀ c, disk q = some (.file c) → ∃ q', follow' cur ns = some q' ∧ disk' q' = some (.file c)

theorem advance_alike (hroot : Rooted disk) {k : Nat} (h : Replaced k disk disk')
    {follow follow' : Path → List Text → Option Path}
    (hle : ∀ cur ns q, follow cur ns = some q → walk disk k cur ns = some q)
    (hon : Onward disk follow) (hf : Alike disk disk' follow follow') :
    Alike disk disk' (advance disk follow) (advance disk' follow') := by
  intro cur ns q hcur hq
  induction ns generalizing cur with
  | nil =>
    obtain rfl : cur = q := by simpa [advance] using hq
    exact ⟨fun _ => rfl, fun c hc => absurd (hcur.symm.trans hc) (by simp)⟩
  | cons n ns ih =>
    rw [advance] at hq
    rw [advance]
    by_cases hdot : n = ['.']
    · rw [if_pos hdot] at hq ⊢
      exact ih cur hcur hq
    by_cases hdots : n = ['.', '.']
    · rw [if_neg hdot, if_pos hdots] at hq ⊢
      exact ih cur.tail (hroot.tail hcur) hq
    · rw [if_neg hdot, if_neg hdots] at hq ⊢
      rcases h (n :: cur) with hsame | ⟨t, c, hlink, hfile, hleads⟩
      · rw [hsame]
        cases hn : disk (n :: cur) with
        | none => simp [hn] at hq
        | some i =>
          rw [hn] at hq
          cases i with
          | file c =>
            dsimp only at hq ⊢
            split_ifs at hq ⊢ with hns
            obtain rfl : n :: cur = q := by simpa using hq
            exact ⟨fun _ => rfl, fun d hd => ⟨_, rfl, by rw [hsame, hd]⟩⟩
          | dir => exact ih (n :: cur) hn hq
          | link t => exact hf _ _ q (hroot.origin hcur t) hq
      · rw [hlink] at hq
        rw [hfile]
        dsimp only at hq ⊢
        by_cases hns : ns = []
        · subst hns
          rw [List.append_nil] at hq
          have hq' := hleads q (hle _ _ _ hq)
          rw [if_pos rfl]
          exact ⟨fun hd => absurd (hd.symm.trans hq') (by simp), fun d hd =>
            ⟨_, rfl, by rw [hfile, ← hq', hd]⟩⟩
        · -- the path goes on after the link, which leads to a file
          obtain ⟨p, hp, hno⟩ := hon _ _ ns q (hroot.origin hcur t) hns hq
          exact absurd (hleads p (hle _ _ _ hp)) (hno c)

/-- **Each path leads to what it led to.** -/
theorem walk_replaced (hroot : Rooted disk) {k : Nat} (h : Replaced k disk disk') {j : Nat}
    (hj : j ≤ k + 1) : Alike disk disk' (walk disk j) (walk disk' j) := by
  induction j with
  | zero =>
    exact advance_alike hroot h (fun _ _ _ hq => absurd hq (by simp))
      (fun _ _ _ _ _ _ hq => absurd hq (by simp))
      fun _ _ _ _ hq => absurd hq (by simp)
  | succ j ih =>
    exact advance_alike hroot h (fun _ _ _ hq => walk_le (by omega) hq) (walk_onward hroot j)
      (ih (by omega))

end Tree
end Tcos.Files
