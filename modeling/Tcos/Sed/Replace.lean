import Tcos.Shell.Parser
import Mathlib.Data.List.Infix

/-! Names in a text, replaced one after another.

A text is cut into `pieces`: the names that stand in it, left to right, and the bytes between.
`replaceAll` has no pieces; it replaces a name wherever it reads it. `replaceAll_shown` says when
that is the same: the name is read at its own places only (`Own`). -/
namespace Tcos.Sed
open Shell (Text)

/-! ### Replacing -/

/-- Each occurrence of `p`, left to right, as `v`; `skip` bytes belong to the last one. -/
def replaceAll (p v : Text) : Nat → Text → Text
  | _, [] => []
  | skip + 1, _ :: s => replaceAll p v skip s
  | 0, c :: s =>
    if p <+: c :: s then v ++ replaceAll p v (p.length - 1) s else c :: replaceAll p v 0 s

theorem replaceAll_skip (p v t s : Text) : replaceAll p v t.length (t ++ s) = replaceAll p v 0 s := by
  induction t with
  | nil => rfl
  | cons c t ih => exact ih

/-- An occurrence. -/
theorem replaceAll_name {p : Text} (hp : p ≠ []) (v s : Text) : replaceAll p v 0
    (p ++ s) = v ++ replaceAll p v 0 s := by
  obtain ⟨c, p, rfl⟩ := List.exists_cons_of_ne_nil hp
  have hhere : c :: p <+: c :: (p ++ s) := List.prefix_append (c :: p) s
  rw [List.cons_append, replaceAll, if_pos hhere, List.length_cons, Nat.add_sub_cancel, replaceAll_skip]

/-- A text in which none begins. -/
theorem replaceAll_text {p t s : Text} (h : ∀ u, u ≠ [] → u <:+ t → ¬ p <+: u ++ s) (v : Text) :
    replaceAll p v 0 (t ++ s) = t ++ replaceAll p v 0 s := by
  induction t with
  | nil => rfl
  | cons c t ih =>
    have hhere := h (c :: t) (by simp) (List.suffix_refl _)
    rw [List.cons_append] at hhere
    rw [List.cons_append, replaceAll, if_neg hhere, ih fun u hu ht =>
      h u hu (ht.trans (List.suffix_cons c t))]
    rfl

/-! ### Pieces -/

/-- A part of a text: bytes as they are, or a name to be replaced. -/
inductive Piece where
  | text (t : Text)
  | name (p : Text)
  deriving DecidableEq

def Piece.shown : Piece → Text
  | .text t => t
  | .name p => p

/-- The text, cut at the names; `skip` bytes belong to the last one. -/
def pieces (names : List Text) : Nat → Text → List Piece
  | _, [] => []
  | skip + 1, _ :: s => pieces names skip s
  | 0, c :: s =>
    match names.find? (· <+: c :: s) with
    | some p => .name p :: pieces names (p.length - 1) s
    | none => .text [c] :: pieces names 0 s

def shown (xs : List Piece) : Text := xs.flatMap Piece.shown

/-- The value at the places of the name. -/
def Piece.put (x : Text × Text) : Piece → Piece
  | .text t => .text t
  | .name p => if p = x.1 then .text x.2 else .name p

/-- What a name stands for. -/
def Piece.filled (values : List (Text × Text)) : Piece → Text
  | .text t => t
  | .name p => ((values.find? (·.1 = p)).map Prod.snd).getD p

/-- Every name replaced by its value, at once. -/
def filled (values : List (Text × Text)) (xs : List Piece) : Text := xs.flatMap (Piece.filled values)

/-- The name is read at its own places only. -/
def Own (p : Text) : List Piece → Prop
  | [] => True
  | x :: xs => (x = .name p ∨ ∀ u ∈ x.shown.tails, u ≠ [] → ¬ p <+: u ++ shown xs) ∧ Own p xs

instance (p : Text) : (xs : List Piece) → Decidable (Own p xs)
  | [] => inferInstanceAs (Decidable True)
  | _ :: xs =>
    haveI := instDecidableOwn p xs
    inferInstanceAs (Decidable (_ ∧ _))

@[simp] theorem shown_nil : shown [] = [] := rfl

@[simp] theorem shown_cons (x : Piece) (xs : List Piece) : shown (x :: xs) = x.shown ++ shown xs := rfl

theorem shown_pieces {names : List Text} (hnames : ∀ p ∈ names, p ≠ []) (skip : Nat) (t : Text) :
    shown (pieces names skip t) = t.drop skip := by
  induction t generalizing skip with
  | nil => cases skip <;> rfl
  | cons c t ih =>
    cases skip with
    | succ skip => exact ih skip
    | zero =>
      rw [pieces]
      split
      · rename_i p hp
        obtain ⟨d, p, rfl⟩ := List.exists_cons_of_ne_nil (hnames _ (List.mem_of_find?_eq_some hp))
        obtain ⟨s, hs⟩ : d :: p <+: c :: t := by simpa using List.find?_some hp
        rw [shown_cons, ih, Piece.shown, List.length_cons, Nat.add_sub_cancel, List.drop_zero, ← hs]
        rw [List.cons_append, List.cons.injEq] at hs
        rw [← hs.2, List.drop_left]
      · rw [shown_cons, ih]
        rfl

@[simp] theorem filled_nil (xs : List Piece) : filled [] xs = shown xs := by
  refine List.flatMap_congr fun x _ => ?_
  cases x <;> rfl

/-- One name first, then the others. -/
theorem filled_cons (x : Text × Text) (values : List (Text × Text)) (xs : List Piece) :
    filled (x :: values) xs = filled values (xs.map (Piece.put x)) := by
  rw [filled, filled, List.flatMap_map]
  refine List.flatMap_congr fun piece _ => ?_
  cases piece with
  | text t => rfl
  | name p =>
    by_cases h : p = x.1
    · simp [Piece.filled, Piece.put, h]
    · simp [Piece.filled, Piece.put, h, Ne.symm h]

/-- **A name that is read at its own places only is replaced there, and nothing else changes.** -/
theorem replaceAll_shown {x : Text × Text} (hp : x.1 ≠ []) {xs : List Piece} (h : Own x.1 xs) :
    replaceAll x.1 x.2 0 (shown xs) = shown (xs.map (Piece.put x)) := by
  induction xs with
  | nil => rfl
  | cons piece xs ih =>
    obtain ⟨hpiece, hrest⟩ := h
    rw [shown_cons, List.map_cons, shown_cons]
    rcases hpiece with rfl | hnone
    · rw [Piece.shown, replaceAll_name hp, ih hrest, Piece.put, if_pos rfl, Piece.shown]
    · have hput : (piece.put x).shown = piece.shown := by
        cases piece with
        | text t => rfl
        | name p =>
          have hne : p ≠ x.1 := by
            rintro rfl
            exact hnone x.1 ((List.mem_tails _ _).mpr (List.suffix_refl _)) hp (List.prefix_append ..)
          rw [Piece.put, if_neg hne]
      rw [replaceAll_text (fun u hu ht => hnone u ((List.mem_tails _ _).mpr ht) hu), ih hrest, hput]

end Tcos.Sed
