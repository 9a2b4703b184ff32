import Mathlib

/-! Variables that a loop overwrites.

A loop that sets a variable at some elements of a list leaves the value of the last of them
(`foldl_overwrite`), whatever stands between. A loop that starts a file anew at some elements and appends
to it at all leaves what was written since the last of them (`foldl_log`). -/
namespace Tcos.Overwrite

variable {α β γ : Type} {f : α → Option β}

/-- The last value that `f` gives in the list. -/
def last (f : α → Option β) (l : List α) : Option β := (l.filterMap f).getLast?

@[simp] theorem last_nil : last f [] = none := rfl

theorem last_append (l m : List α) : last f (l ++ m) = (last f m).or (last f l) := by
  rw [last, List.filterMap_append, List.getLast?_append]
  rfl

theorem last_singleton (x : α) : last f [x] = f x := by
  cases h : f x <;> simp [last, h]

theorem last_cons (x : α) (l : List α) : last f (x :: l) = (last f l).or (f x) := by
  rw [← List.singleton_append, last_append, last_singleton]

theorem last_concat (l : List α) (x : α) : last f (l ++ [x]) = (f x).or (last f l) := by
  rw [last_append, last_singleton]

theorem last_map (g : γ → α) (l : List γ) : last f (l.map g) = last (fun x => f (g x)) l := by
  rw [last, List.filterMap_map]
  rfl

theorem last_congr {g : α → Option β} {l : List α} (h : ∀ x ∈ l, f x = g x) : last f l = last g l := by
  rw [last, List.filterMap_congr h]
  rfl

/-- **The variable holds the last value after the loop.** -/
theorem foldl_overwrite (f : α → Option β) (l : List α) (init : Option β) :
    l.foldl (fun v x => (f x).or v) init = (last f l).or init := by
  induction l generalizing init with
  | nil => rfl
  | cons x l ih => rw [List.foldl_cons, ih, last_cons, Option.or_assoc]

/-- Nothing after it sets the variable. -/
theorem last_eq_some {l : List α} {v : β} : last f l = some v ↔
    ∃ before x after, l = before ++ x :: after ∧ f x = some v ∧ ∀ y ∈ after, f y = none := by
  constructor
  · intro h
    induction l with
    | nil => exact absurd h (by simp)
    | cons x l ih =>
      rw [last_cons] at h
      cases hl : last f l with
      | none =>
        rw [hl, Option.none_or] at h
        refine ⟨[], x, l, rfl, h, fun y hy => ?_⟩
        rw [last, List.getLast?_eq_none_iff, List.filterMap_eq_nil_iff] at hl
        exact hl y hy
      | some w =>
        rw [hl, Option.some_or] at h
        obtain ⟨before, y, after, rfl, hrest⟩ := ih (hl.trans h)
        exact ⟨x :: before, y, after, rfl, hrest⟩
  · rintro ⟨before, x, after, rfl, hx, hafter⟩
    have hnone : last f after = none := by
      rw [last, List.filterMap_eq_nil_iff.mpr hafter]
      rfl
    rw [last_append, last_cons, hnone, Option.none_or, hx, Option.some_or]

/-- Elements that set nothing do not count. -/
theorem last_filter {p : α → Bool} (h : ∀ x, p x = false → f x = none) (l : List α) :
    last f (l.filter p) = last f l := by
  induction l with
  | nil => rfl
  | cons x l ih =>
    rw [List.filter_cons, last_cons]
    cases hp : p x with
    | true => rw [if_pos rfl, last_cons, ih]
    | false => rw [if_neg (by simp), ih, h x hp, Option.or_none]

/-- **A wider search finds the same last element, if after each one that it adds there is one of the
narrower search.** -/
theorem getLast?_or_iff {p q : α → Bool} {l : List α} :
    (l.filter fun x => p x || q x).getLast? = (l.filter p).getLast? ↔
      ∀ before x after, l = before ++ x :: after → q x = true → p x = false → ∃ y ∈ after, p y = true := by
  constructor
  · rintro h before x after rfl hq hp
    by_contra hnone
    have hafter : after.filter p = [] := List.filter_eq_nil_iff.mpr fun y hy hpy => hnone ⟨y, hy, hpy⟩
    -- the last element of the wider search is `x` or behind it
    obtain ⟨y, hy⟩ : ∃ y, ((x :: after).filter fun x => p x || q x).getLast? = some y := by
      have hne : ((x :: after).filter fun x => p x || q x) ≠ [] := by simp [hq]
      exact ⟨_, List.getLast?_eq_some_getLast hne⟩
    have hnot : p y = false := by
      have hmem := List.mem_of_getLast? hy
      rcases List.mem_cons.mp (List.mem_filter.mp hmem).1 with rfl | hin
      · exact hp
      · exact Bool.eq_false_iff.mpr fun hpy => hnone ⟨y, hin, hpy⟩
    rw [List.filter_append, List.getLast?_append, hy, Option.some_or] at h
    have hyes := (List.mem_filter.mp (List.mem_of_getLast? h.symm)).2
    exact absurd hyes (by simp [hnot])
  · intro h
    induction l using List.reverseRecOn with
    | nil => rfl
    | append_singleton l x ih =>
      rw [List.filter_append, List.filter_append, List.getLast?_append, List.getLast?_append]
      by_cases hp : p x = true
      · simp [hp]
      · have hq : q x = false := by
          refine Bool.eq_false_iff.mpr fun hq => ?_
          obtain ⟨y, hy, -⟩ := h l x [] rfl hq (by simpa using hp)
          exact absurd hy (by simp)
        have hrest := ih fun before z after hl hqz hpz => by
          obtain ⟨y, hy, hpy⟩ := h before z (after ++ [x]) (by rw [hl]; simp) hqz hpz
          rcases List.mem_append.mp hy with hy | hy
          · exact ⟨y, hy, hpy⟩
          · exact absurd (List.mem_singleton.mp hy ▸ hpy) hp
        simp [hp, hq, hrest]

/-! ### Files -/

/-- Where it finds another one, that is an element of the wider search alone. -/
theorem getLast?_or_ne {p q : α → Bool} {l : List α}
    (h : (l.filter fun x => p x || q x).getLast? ≠ (l.filter p).getLast?) :
    ∃ x ∈ l, (l.filter fun x => p x || q x).getLast? = some x ∧ q x = true ∧ p x = false := by
  have hboth : (l.filter fun x => p x || q x).filter p = l.filter p := by
    rw [List.filter_filter]
    exact List.filter_congr fun x _ => by cases p x <;> simp
  rw [← hboth] at h
  have hsub : ∀ x ∈ l.filter (fun x => p x || q x), x ∈ l ∧ (p x || q x) = true :=
    fun x hx => List.mem_filter.mp hx
  generalize l.filter (fun x => p x || q x) = wide at h hsub ⊢
  rcases List.eq_nil_or_concat wide with rfl | ⟨init, x, rfl⟩
  · exact absurd rfl h
  · rw [List.concat_eq_append] at h hsub ⊢
    obtain ⟨hmem, hx⟩ := hsub x (by simp)
    have hp : p x = false := by
      by_contra hp
      rw [Bool.not_eq_false] at hp
      exact h (by simp [List.filter_append, hp])
    rw [hp, Bool.false_or] at hx
    exact ⟨x, hmem, by simp, hx, hp⟩

/-- From the last element with `p` on, or all. -/
def since (p : α → Bool) : List α → List α
  | [] => []
  | a :: l => if l.any p then since p l else a :: l

theorem since_concat (p : α → Bool) (l : List α) (a : α) :
    since p (l ++ [a]) = if p a then [a] else since p l ++ [a] := by
  induction l with
  | nil => simp [since]
  | cons b l ih =>
    rw [List.cons_append, since, since, List.any_append, ih]
    cases hl : l.any p <;> cases ha : p a <;> simp [ha]

/-- **The file holds what was written since it was last started.** -/
theorem foldl_log (p : α → Bool) (start body : α → List γ) (l : List α) (init : List γ) :
    l.foldl (fun t a => (if p a then start a else t) ++ body a) init =
      (if l.any p then [] else init) ++ ((since p l).head?.filter p).elim [] start ++
        (since p l).flatMap body := by
  induction l using List.reverseRecOn with
  | nil => simp [since]
  | append_singleton l a ih =>
    rw [List.foldl_concat, ih, since_concat, List.any_append]
    cases ha : p a with
    | true => simp [ha, Option.filter]
    | false =>
      have hhead : ((since p l ++ [a]).head?.filter p).elim [] start =
          ((since p l).head?.filter p).elim [] start := by
        cases since p l with
        | nil => simp [ha, Option.filter]
        | cons b r => rfl
      simp only [Bool.false_eq_true, if_false, hhead, List.any_cons, List.any_nil, ha, Bool.or_false,
        List.flatMap_append, List.flatMap_singleton, List.append_assoc]

end Tcos.Overwrite
