import Tcos.Shell.Parser

/-! Files read by lines: `readlines`, and what writing lines back gives.

A line keeps its newline; only the last may have none. -/
namespace Tcos.Python
open Shell (Text)

def readlines : Text → List Text
  | [] => []
  | c :: t =>
    if c = '\n' then ['\n'] :: readlines t
    else match readlines t with
      | [] => [[c]]
      | l :: ls => (c :: l) :: ls

/-- `replace('\n', '')`. -/
def chomp (l : Text) : Text := l.filter (· != '\n')

/-- The text is empty or ends in a newline: what is appended is a new line. -/
def Ended (t : Text) : Prop := ∀ c ∈ t.getLast?, c = '\n'

/-- A line of a file, with its newline. -/
def IsLine (l : Text) : Prop := ∃ u, '\n' ∉ u ∧ l = u ++ ['\n']

/-- Lines that a file can have. -/
def AreLines : List Text → Prop
  | [] => True
  | [l] => IsLine l ∨ l ≠ [] ∧ '\n' ∉ l
  | l :: ls => IsLine l ∧ AreLines ls

/-! ### Reading -/

theorem readlines_line {u : Text} (hu : '\n' ∉ u) (t : Text) :
    readlines (u ++ '\n' :: t) = (u ++ ['\n']) :: readlines t := by
  induction u with
  | nil => simp [readlines]
  | cons c u ih =>
    obtain ⟨hc, hu⟩ := not_or.mp (List.mem_cons.not.mp hu)
    rw [List.cons_append, readlines, if_neg (Ne.symm hc), ih hu]
    rfl

theorem readlines_last {u : Text} (hu : '\n' ∉ u) (hne : u ≠ []) : readlines u = [u] := by
  induction u with
  | nil => exact absurd rfl hne
  | cons c u ih =>
    obtain ⟨hc, hu⟩ := not_or.mp (List.mem_cons.not.mp hu)
    rw [readlines, if_neg (Ne.symm hc)]
    cases u with
    | nil => rfl
    | cons d u => rw [ih hu (by simp)]

/-- A file is empty, or one line without a newline, or has a first line. -/
theorem file_cases (t : Text) : t = [] ∨ (t ≠ [] ∧ '\n' ∉ t) ∨ ∃ u s, '\n' ∉ u ∧ t = u ++ '\n' :: s := by
  by_cases hnl : '\n' ∈ t
  · obtain ⟨u, s, rfl, hu⟩ := List.eq_append_cons_of_mem hnl
    exact .inr (.inr ⟨u, s, hu, rfl⟩)
  · by_cases hne : t = []
    · exact .inl hne
    · exact .inr (.inl ⟨hne, hnl⟩)

theorem areLines_cons {l : Text} {ls : List Text} (hl : IsLine l) (hls : AreLines ls) :
    AreLines (l :: ls) := by
  cases ls with
  | nil => exact .inl hl
  | cons l' ls => exact ⟨hl, hls⟩

/-- By the first line. -/
theorem file_induction {P : Text → Prop} (nil : P []) (last : ∀ u, u ≠ [] → '\n' ∉ u → P u)
    (line : ∀ u s, '\n' ∉ u → P s → P (u ++ '\n' :: s)) (t : Text) : P t := by
  induction hn : t.length using Nat.strongRecOn generalizing t with
  | ind n ih =>
    rcases file_cases t with rfl | ⟨hne, hnl⟩ | ⟨u, s, hu, rfl⟩
    · exact nil
    · exact last t hne hnl
    · refine line u s hu (ih s.length ?_ s rfl)
      rw [← hn, List.length_append, List.length_cons]
      omega

theorem areLines_readlines (t : Text) : AreLines (readlines t) := by
  induction t using file_induction with
  | nil => trivial
  | last u hne hnl =>
    rw [readlines_last hnl hne]
    exact .inr ⟨hne, hnl⟩
  | line u s hu ih =>
    rw [readlines_line hu]
    exact areLines_cons ⟨u, hu, rfl⟩ ih

/-- **Lines written are read back.** -/
theorem readlines_flatten {ls : List Text} (h : AreLines ls) : readlines ls.flatten = ls := by
  induction ls with
  | nil => rfl
  | cons l ls ih =>
    cases ls with
    | nil =>
      rcases h with ⟨u, hu, rfl⟩ | ⟨hne, hnl⟩
      · simpa [readlines] using readlines_line hu []
      · simpa using readlines_last hnl hne
    | cons l' ls =>
      obtain ⟨⟨u, hu, rfl⟩, hrest⟩ := h
      have hfile : ((u ++ ['\n']) :: l' :: ls).flatten = u ++ '\n' :: (l' :: ls).flatten := by simp
      rw [hfile, readlines_line hu, ih hrest]

theorem flatten_readlines (t : Text) : (readlines t).flatten = t := by
  induction t using file_induction with
  | nil => rfl
  | last u hne hnl => simp [readlines_last hnl hne]
  | line u s hu ih => simp [readlines_line hu, ih]

/-- Lines may be replaced by lines. -/
theorem AreLines.map {ls : List Text} (h : AreLines ls) {f : Text → Text}
    (hf : ∀ l ∈ ls, f l = l ∨ IsLine (f l)) : AreLines (ls.map f) := by
  induction ls with
  | nil => trivial
  | cons l ls ih =>
    rw [List.forall_mem_cons] at hf
    cases ls with
    | nil =>
      rcases hf.1 with hl | hl
      · simpa [hl] using h
      · exact .inl hl
    | cons l' ls =>
      refine ⟨?_, ih h.2 hf.2⟩
      rcases hf.1 with hl | hl
      · rw [hl]
        exact h.1
      · exact hl

/-! ### Appending -/

theorem ended_line (t u : Text) : Ended (t ++ (u ++ ['\n'])) := by
  intro c hc
  rw [← List.append_assoc, List.getLast?_concat] at hc
  exact (Option.some.inj hc).symm

/-- **What is appended to an ended file comes after its lines.** -/
theorem readlines_append {t : Text} (h : Ended t) (s : Text) :
    readlines (t ++ s) = readlines t ++ readlines s := by
  induction t using file_induction with
  | nil => rfl
  | last u hne hnl =>
    obtain ⟨c, hc⟩ := Option.ne_none_iff_exists'.mp (mt List.getLast?_eq_none_iff.mp hne)
    exact absurd (h c hc ▸ List.mem_of_getLast? hc) hnl
  | line u t hu ih =>
    have hended : Ended t := fun c hc => h c (by
      have : t ≠ [] := by rintro rfl; simp at hc
      rw [List.getLast?_append, List.getLast?_cons, Option.mem_def.mp hc]
      rfl)
    rw [List.append_assoc, List.cons_append, readlines_line hu, readlines_line hu, ih hended,
      List.cons_append]

/-- A line of the file starts one afterwards. -/
theorem line_append {t l : Text} (hl : l ∈ readlines t) (s : Text) : ∃ l' ∈ readlines (t ++ s),
    l <+: l' := by
  induction t using file_induction with
  | nil => simp [readlines] at hl
  | last u hne hnl =>
    rw [readlines_last hnl hne, List.mem_singleton] at hl
    subst hl
    rcases file_cases s with rfl | ⟨-, hs⟩ | ⟨v, s, hv, rfl⟩
    · exact ⟨l, by rw [List.append_nil, readlines_last hnl hne]; simp, List.prefix_rfl⟩
    · exact ⟨l ++ s, by rw [readlines_last (by simp [hnl, hs]) (by simp [hne])]; simp,
        List.prefix_append ..⟩
    · refine ⟨l ++ v ++ ['\n'], ?_, ?_⟩
      · rw [← List.append_assoc, readlines_line (by simp [hnl, hv])]
        exact List.mem_cons_self ..
      · rw [List.append_assoc]
        exact List.prefix_append ..
  | line u t hu ih =>
    rw [readlines_line hu, List.mem_cons] at hl
    rw [List.append_assoc, List.cons_append, readlines_line hu]
    rcases hl with rfl | hl
    · exact ⟨_, List.mem_cons_self .., List.prefix_rfl⟩
    · obtain ⟨l', hl', hpre⟩ := ih hl
      exact ⟨l', List.mem_cons_of_mem _ hl', hpre⟩

/-- A text without a newline stands in a line. -/
theorem line_infix {u : Text} (hu : '\n' ∉ u) (hne : u ≠ []) (t s : Text) : ∃ l ∈ readlines
    (t ++ (u ++ s)), u <:+: l := by
  induction t using file_induction with
  | nil =>
    obtain ⟨l, hl, hpre⟩ := line_append (t := u) (l := u) (by rw [readlines_last hu hne]; simp) s
    exact ⟨l, hl, hpre.isInfix⟩
  | last v hvne hnl =>
    obtain ⟨l, hl, hpre⟩ := line_append (t := v ++ u) (l := v ++ u)
      (by rw [readlines_last (by simp [hnl, hu]) (by simp [hvne])]; simp) s
    rw [List.append_assoc] at hl
    exact ⟨l, hl, (List.suffix_append v u).isInfix.trans hpre.isInfix⟩
  | line v t hv ih =>
    obtain ⟨l, hl, hin⟩ := ih
    rw [List.append_assoc, List.cons_append, readlines_line hv]
    exact ⟨l, List.mem_cons_of_mem _ hl, hin⟩

theorem chomp_of_notMem {u : Text} (hu : '\n' ∉ u) : chomp u = u :=
  List.filter_eq_self.mpr fun c hc => by simpa using fun h : c = '\n' => hu (h ▸ hc)

theorem chomp_line {u : Text} (hu : '\n' ∉ u) : chomp (u ++ ['\n']) = u := by
  rw [chomp, List.filter_append, ← chomp, chomp_of_notMem hu]
  simp

/-- What is appended to a line changes it. -/
theorem not_prefix_append {t : Text} (h : ¬ Ended t) {s : Text} (hs : s ≠ []) :
    ¬ readlines t <+: readlines (t ++ s) := by
  induction t using file_induction with
  | nil => exact absurd (by simp [Ended]) h
  | last u hne hnl =>
    rw [readlines_last hnl hne]
    rcases file_cases s with rfl | ⟨-, hs'⟩ | ⟨v, s, hv, rfl⟩
    · exact absurd rfl hs
    · rw [readlines_last (by simp [hnl, hs']) (by simp [hne])]
      intro hpre
      obtain ⟨heq, -⟩ := List.cons_prefix_cons.mp hpre
      exact hs (by simpa using heq)
    · rw [← List.append_assoc, readlines_line (by simp [hnl, hv])]
      intro hpre
      obtain ⟨heq, -⟩ := List.cons_prefix_cons.mp hpre
      exact hnl (heq ▸ by simp)
  | line u t hu ih =>
    rw [List.append_assoc, List.cons_append, readlines_line hu, readlines_line hu, List.cons_prefix_cons]
    refine fun hpre => ih (fun ht => h fun c hc => ?_) hpre.2
    rw [List.getLast?_append, List.getLast?_cons, Option.some_or] at hc
    cases hlast : t.getLast? with
    | none =>
      rw [hlast] at hc
      exact (Option.some.inj hc).symm
    | some d =>
      rw [hlast] at hc
      exact (Option.some.inj hc) ▸ ht d hlast

end Tcos.Python
