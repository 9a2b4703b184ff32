import Tcos.Shell.Parser

/-! Reading a command line piece by piece.

A line is read one byte at a time, so what a piece of it does depends only on the
reader it meets. `run_append` composes pieces, `run_after` forgets what was read
before one, and `gather_append` puts the simple command together again. -/
namespace Tcos.Shell

section Pieces
variable {α : Type} (ch : α → Char)

@[simp] theorem run_nil (p : Parser α) : p.run ch [] = p := rfl

@[simp] theorem run_cons (p : Parser α) (b : α) (s : List α) :
    p.run ch (b :: s) = (p.step ch b).run ch s := rfl

theorem run_append (p : Parser α) (s t : List α) : p.run ch (s ++ t) = (p.run ch s).run ch t := by
  simp [Parser.run, List.foldl_append]

/-- The same reader with `xs` read before. -/
def Parser.after (xs : List (Item α)) (p : Parser α) : Parser α := { p with items := xs ++ p.items }

theorem closeWord_after (xs : List (Item α)) (p : Parser α) (g : Bool) (w : Word α) :
    (p.after xs).closeWord ch g w = (p.closeWord ch g w).after xs := by
  have hs : (p.after xs).slot ch g w = p.slot ch g w := rfl
  simp only [Parser.closeWord, hs]
  simp [Parser.after]

theorem closeOperator_after (xs : List (Item α)) (p : Parser α) (op : List α) :
    (p.after xs).closeOperator ch op = (p.closeOperator ch op).after xs := by
  unfold Parser.closeOperator
  split <;> simp [Parser.after]

theorem start_after (xs : List (Item α)) (p : Parser α) (b : α) :
    (p.after xs).start ch b = (p.start ch b).after xs := by
  unfold Parser.start
  split
  · rfl
  split
  · rfl
  split <;> rfl

theorem step_after (xs : List (Item α)) (p : Parser α) (b : α) :
    (p.after xs).step ch b = (p.step ch b).after xs := by
  have hr : (p.after xs).reading = p.reading := rfl
  unfold Parser.step
  rw [hr]
  cases p.reading with
  | gap => exact start_after ch xs p b
  | comment => dsimp only; split <;> first | exact start_after ch xs p b | rfl
  | operator op =>
    dsimp only
    split
    · rfl
    · rw [closeOperator_after, start_after]
  | word q w =>
    cases q <;> dsimp only
    · split
      · rw [closeWord_after, start_after]
      · rfl
    · split <;> rfl
    · rfl
    · split <;> rfl
    · split <;> rfl

/-- What was read before does not matter to what is read next. -/
theorem run_after (xs : List (Item α)) (p : Parser α) (s : List α) :
    (p.after xs).run ch s = (p.run ch s).after xs := by
  induction s generalizing p with
  | nil => rfl
  | cons b s ih => rw [run_cons, run_cons, step_after, ih]

theorem finish_after (xs : List (Item α)) (p : Parser α) :
    (p.after xs).finish ch = ⟨xs ++ (p.finish ch).items, (p.finish ch).complete⟩ := by
  have hr : (p.after xs).reading = p.reading := rfl
  unfold Parser.finish
  rw [hr]
  cases p.reading with
  | gap => rfl
  | comment => rfl
  | operator op => simp only [closeOperator_after]; rfl
  | word q w => cases q <;> simp only [closeWord_after] <;> rfl

theorem Simple.append_assoc (s t u : Simple) : (s.append t).append u = s.append (t.append u) := by
  simp [Simple.append, List.append_assoc]

theorem Simple.append_comp (s t : Simple) : s.append ∘ t.append = (s.append t).append :=
  funext fun u => (Simple.append_assoc s t u).symm

@[simp] theorem Simple.empty_append (s : Simple) : Simple.append {} s = s := rfl

theorem gather_append {xs : List (Item α)} {s : Simple} (h : gather ch xs = some s)
    (ys : List (Item α)) : gather ch (xs ++ ys) = (gather ch ys).map s.append := by
  induction xs using gather.induct generalizing s with
  | case1 =>
    obtain rfl : s = {} := by simpa [gather] using h.symm
    simp [show Simple.append {} = id from rfl]
  | case2 w rest ih =>
    simp only [gather, Option.bind_eq_some_iff, Option.map_eq_some_iff] at h
    obtain ⟨v, hv, r, hr, rfl⟩ := h
    simp [gather, hv, ih hr, Simple.append_comp]
  | case3 w rest ih =>
    simp only [gather, Option.bind_eq_some_iff, Option.map_eq_some_iff] at h
    obtain ⟨v, hv, r, hr, rfl⟩ := h
    simp [gather, hv, ih hr, Simple.append_comp]
  | case4 w rest ih =>
    simp only [gather, Option.bind_eq_some_iff, Option.map_eq_some_iff] at h
    obtain ⟨v, hv, r, hr, rfl⟩ := h
    simp [gather, hv, ih hr, Simple.append_comp]
  | case5 n op w rest ih =>
    simp only [gather, Option.bind_eq_some_iff, Option.map_eq_some_iff] at h
    obtain ⟨k, hk, v, hv, r, hr, rfl⟩ := h
    simp [gather, hk, hv, ih hr, Simple.append_comp]
  | case6 op w rest ih =>
    simp only [gather, Option.bind_eq_some_iff, Option.map_eq_some_iff] at h
    obtain ⟨v, hv, r, hr, rfl⟩ := h
    simp [gather, hv, ih hr, Simple.append_comp]
  | case7 xs h1 h2 h3 h4 h5 h6 =>
    rw [gather] at h <;> simp_all

end Pieces

end Tcos.Shell
