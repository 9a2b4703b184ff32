import Mathlib

/-! Runs of a step function, and processes that share a state.

`Every` says that each step of a run is admissible in the state it finds;
`every_of_invariant` is the rule by which an invariant of admissible steps makes every
step of such a run safe. `Shared` is a system of processes that take turns on one state,
in any order. -/
namespace Tcos.Systems

section Steps
variable {σ α : Type} (step : σ → α → σ)

def run (s : σ) (as : List α) : σ := as.foldl step s

/-- Each step of the run has `P` in the state it finds. -/
def Every (P : σ → α → Prop) : σ → List α → Prop
  | _, [] => True
  | s, a :: as => P s a ∧ Every P (step s a) as

variable {step}

theorem run_append (s : σ) (as bs : List α) : run step s (as ++ bs) = run step (run step s as) bs :=
  List.foldl_append

theorem every_append {P : σ → α → Prop} {s : σ} {as bs : List α} :
    Every step P s (as ++ bs) ↔ Every step P s as ∧ Every step P (run step s as) bs := by
  induction as generalizing s with
  | nil => exact ⟨fun h => ⟨trivial, h⟩, fun h => h.2⟩
  | cons a as ih => exact (and_congr_right fun _ => ih).trans and_assoc.symm

/-- What holds of every step holds of one in the middle. -/
theorem Every.at {P : σ → α → Prop} {s : σ} {as bs : List α} {a : α}
    (h : Every step P s (as ++ a :: bs)) : P (run step s as) a :=
  (every_append.mp h).2.1

/-- **Every step of a run, by what comes before it.** -/
theorem every_iff {P : σ → α → Prop} {s : σ} {as : List α} :
    Every step P s as ↔ ∀ before a after, as = before ++ a :: after → P (run step s before) a := by
  constructor
  · rintro h before a after rfl
    exact h.at
  · intro h
    induction as generalizing s with
    | nil => trivial
    | cons a as ih =>
      refine ⟨h [] a as rfl, ih fun before b after has => ?_⟩
      exact h (a :: before) b after (by rw [has, List.cons_append])

theorem every_and {P Q : σ → α → Prop} {s : σ} {as : List α} (hp : Every step P s as)
    (hq : Every step Q s as) : Every step (fun s a => P s a ∧ Q s a) s as := by
  induction as generalizing s with
  | nil => trivial
  | cons a as ih => exact ⟨⟨hp.1, hq.1⟩, ih hp.2 hq.2⟩

/-- **Admissible steps that keep an invariant, and are safe under it, are safe in every run.** -/
theorem every_of_invariant {Inv : σ → Prop} {Ok Safe : σ → α → Prop}
    (keep : ∀ s a, Inv s → Ok s a → Inv (step s a)) (safe : ∀ s a, Inv s → Ok s a → Safe s a)
    {s : σ} {as : List α} (hs : Inv s) (h : Every step Ok s as) :
    Every step Safe s as ∧ Inv (run step s as) := by
  induction as generalizing s with
  | nil => exact ⟨trivial, hs⟩
  | cons a as ih =>
    obtain ⟨hrest, hend⟩ := ih (keep s a hs h.1) h.2
    exact ⟨⟨safe s a hs h.1, hrest⟩, hend⟩

theorem invariant_of_every {Inv : σ → Prop} {Ok : σ → α → Prop}
    (keep : ∀ s a, Inv s → Ok s a → Inv (step s a)) {s : σ} {as : List α} (hs : Inv s)
    (h : Every step Ok s as) : Inv (run step s as) := by
  have hsafe : ∀ s a, Inv s → Ok s a → True := fun _ _ _ _ => trivial
  exact (every_of_invariant keep hsafe hs h).2

end Steps

/-! ### Processes on one state -/

structure Shared (ι σ π : Type) where
  state : σ
  procs : ι → π

section Processes
variable {ι σ π γ : Type} [DecidableEq ι] (advance : γ → π → σ → π × σ)

/-- Process `i` takes a step; `x` is what the world does during it. -/
def Shared.step (s : Shared ι σ π) (turn : ι × γ) : Shared ι σ π where
  state := (advance turn.2 (s.procs turn.1) s.state).2
  procs := Function.update s.procs turn.1 (advance turn.2 (s.procs turn.1) s.state).1

@[simp] theorem Shared.step_own (s : Shared ι σ π) (turn : ι × γ) :
    (s.step advance turn).procs turn.1 = (advance turn.2 (s.procs turn.1) s.state).1 :=
  Function.update_self ..

theorem Shared.step_other (s : Shared ι σ π) (turn : ι × γ) {j : ι} (h : j ≠ turn.1) :
    (s.step advance turn).procs j = s.procs j :=
  Function.update_of_ne h ..

/-- One process on its own. -/
def alone (p : π × σ) (x : γ) : π × σ := advance x p.1 p.2

end Processes

end Tcos.Systems
