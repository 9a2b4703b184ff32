import Mathlib

/-! Lists whose elements are numbered from one, and deletion by number.

A deletion moves every later element down by one, so numbers that were read off a
list stay good only as long as the larger ones are used first. -/
namespace Tcos.Numbered

variable {α : Type}

/-- Delete the element with number `n`; without one the list stays as it is. -/
def delete (n : Nat) (c : List α) : List α := if n = 0 then c else c.eraseIdx (n - 1)

def deleteAll (ns : List Nat) (c : List α) : List α := ns.foldl (fun c n => delete n c) c

/-- The numbers of the elements with `p`, in order. -/
def numbers (p : α → Bool) (c : List α) : List Nat :=
  ((c.zipIdx 1).filter fun x => p x.1).map Prod.snd

theorem deleteAll_cons (n : Nat) (ns : List Nat) (c : List α) :
    deleteAll (n :: ns) c = deleteAll ns (delete n c) := rfl

theorem delete_append {n : Nat} {c : List α} (h : n ≤ c.length) (d : List α) :
    delete n (c ++ d) = delete n c ++ d := by
  unfold delete
  split
  · rfl
  · exact List.eraseIdx_append_of_lt_length (by omega) _

theorem delete_last (c : List α) (x : α) : delete (c.length + 1) (c ++ [x]) = c := by
  simp [delete, List.eraseIdx_append_of_length_le]

theorem length_delete {n : Nat} {c : List α} (h1 : 1 ≤ n) (h : n ≤ c.length) :
    (delete n c).length + 1 = c.length := by
  rw [delete, if_neg (by omega), List.length_eraseIdx_of_lt (by omega)]
  omega

/-- Elements before the deleted one keep their numbers. -/
theorem getElem?_delete_of_lt {n k : Nat} (h1 : 1 ≤ k) (h : k < n) (c : List α) :
    (delete n c)[k - 1]? = (c)[k - 1]? := by
  rw [delete, if_neg (by omega), List.getElem?_eraseIdx_of_lt (by omega)]

theorem delete_split {n : Nat} {c : List α} {x : α} (h1 : 1 ≤ n) (hx : (c)[n - 1]? = some x) :
    ∃ a b, c = a ++ x :: b ∧ delete n c = a ++ b := by
  obtain ⟨hlt, rfl⟩ := List.getElem?_eq_some_iff.mp hx
  refine ⟨c.take (n - 1), c.drop (n - 1 + 1), ?_, ?_⟩
  · rw [List.getElem_cons_drop, List.take_append_drop]
  · rw [delete, if_neg (by omega), List.eraseIdx_eq_take_drop_succ]

/-! ### The numbers of some elements -/

theorem numbers_append_singleton (p : α → Bool) (c : List α) (x : α) :
    numbers p (c ++ [x]) = numbers p c ++ if p x then [c.length + 1] else [] := by
  simp only [numbers, List.zipIdx_append, List.filter_append, List.map_append, List.zipIdx_singleton]
  cases hx : p x <;> simp [hx, Nat.add_comm]

theorem mem_numbers {p : α → Bool} {c : List α} {n : Nat} :
    n ∈ numbers p c ↔ ∃ x, 1 ≤ n ∧ (c)[n - 1]? = some x ∧ p x = true := by
  simp only [numbers, List.mem_map, List.mem_filter, Prod.exists, exists_eq_right,
    List.mem_zipIdx_iff_le_and_getElem?_sub]
  exact ⟨fun ⟨x, ⟨h1, h2⟩, h3⟩ => ⟨x, h1, h2, h3⟩, fun ⟨x, h1, h2, h3⟩ => ⟨x, ⟨h1, h2⟩, h3⟩⟩

theorem numbers_bounds {p : α → Bool} {c : List α} {n : Nat} (h : n ∈ numbers p c) :
    1 ≤ n ∧ n ≤ c.length := by
  obtain ⟨x, h1, hx, _⟩ := mem_numbers.mp h
  obtain ⟨hlt, _⟩ := List.getElem?_eq_some_iff.mp hx
  exact ⟨h1, by omega⟩

theorem numbers_ascending (p : α → Bool) (c : List α) : (numbers p c).Pairwise (· < ·) := by
  induction c using List.reverseRecOn with
  | nil => exact .nil
  | append_singleton c x ih =>
    rw [numbers_append_singleton, List.pairwise_append]
    refine ⟨ih, by split <;> simp, fun n hn m hm => ?_⟩
    have := (numbers_bounds hn).2
    split at hm
    · rw [List.mem_singleton.mp hm]
      omega
    · cases hm

theorem numbers_eq_nil {p : α → Bool} {c : List α} : numbers p c = [] ↔ ∀ x ∈ c, p x = false := by
  rw [numbers, List.map_eq_nil_iff, List.filter_eq_nil_iff]
  constructor
  · intro h x hx
    obtain ⟨i, hi⟩ := List.getElem?_of_mem hx
    have hmem : (x, i + 1) ∈ c.zipIdx 1 := by
      rw [List.mem_zipIdx_iff_le_and_getElem?_sub]
      simpa using hi
    simpa using h _ hmem
  · intro h x hx
    simp [h x.1 (List.fst_mem_of_mem_zipIdx hx)]

theorem numbers_congr {p q : α → Bool} {c : List α} (h : ∀ x ∈ c, p x = q x) :
    numbers p c = numbers q c := by
  rw [numbers, numbers, List.filter_congr]
  exact fun x hx => h x.1 (List.fst_mem_of_mem_zipIdx hx)

theorem numbers_eq_iff {p q : α → Bool} {c : List α} :
    numbers p c = numbers q c ↔ ∀ x ∈ c, p x = q x := by
  refine ⟨fun h x hx => ?_, numbers_congr⟩
  obtain ⟨i, hi⟩ := List.getElem?_of_mem hx
  have hmem : ∀ r : α → Bool, i + 1 ∈ numbers r c ↔ r x = true := fun r => by
    rw [mem_numbers, Nat.add_sub_cancel, hi]
    simp
  rw [Bool.eq_iff_iff, ← hmem p, ← hmem q, h]

/-! ### Deleting from the end -/

/-- A sequence of deletions that starts with the largest number. -/
structure Descending (ns : List Nat) (c : List α) : Prop where
  sorted : ns.Pairwise (· > ·)
  bounds : ∀ n ∈ ns, 1 ≤ n ∧ n ≤ c.length

/-- After the first deletion the rest is still one. -/
theorem Descending.cons {n : Nat} {ns : List Nat} {c : List α} (h : Descending (n :: ns) c) :
    (1 ≤ n ∧ n ≤ c.length) ∧ Descending ns (delete n c) := by
  obtain ⟨hall, hsorted⟩ := List.pairwise_cons.mp h.sorted
  obtain ⟨h1, hn⟩ := h.bounds n (List.mem_cons_self ..)
  have hlen := length_delete h1 hn
  refine ⟨⟨h1, hn⟩, hsorted, fun m hm => ⟨(h.bounds m (List.mem_cons_of_mem _ hm)).1, ?_⟩⟩
  have := hall m hm
  omega

theorem numbers_descending (p : α → Bool) (c : List α) : Descending (numbers p c).reverse c :=
  ⟨List.pairwise_reverse.mpr (numbers_ascending p c),
    fun _ hn => numbers_bounds (List.mem_reverse.mp hn)⟩

theorem deleteAll_append {ns : List Nat} {c : List α} (h : Descending ns c) (d : List α) :
    deleteAll ns (c ++ d) = deleteAll ns c ++ d := by
  induction ns generalizing c with
  | nil => rfl
  | cons n ns ih =>
    obtain ⟨hn, hrest⟩ := h.cons
    rw [deleteAll_cons, deleteAll_cons, delete_append hn.2, ih hrest]

/-- **Deleting the elements with `p` by number, the largest number first, keeps the
others in order.** -/
theorem deleteAll_numbers (p : α → Bool) (c : List α) :
    deleteAll (numbers p c).reverse c = c.filter fun x => !p x := by
  induction c using List.reverseRecOn with
  | nil => rfl
  | append_singleton c x ih =>
    rw [numbers_append_singleton, List.filter_append]
    cases hx : p x
    · have h := deleteAll_append (numbers_descending p c) [x]
      simp [hx, h, ih]
    · simp [hx, deleteAll_cons, delete_last, ih]

/-- What a descending sequence of deletions leaves. -/
theorem deleteAll_eq {ns : List Nat} {c : List α} (h : Descending ns c) :
    deleteAll ns c = ((c.zipIdx 1).filter fun x => !decide (x.2 ∈ ns)).map Prod.fst := by
  induction c using List.reverseRecOn generalizing ns with
  | nil =>
    cases ns with
    | nil => rfl
    | cons n ns =>
      have := h.bounds n (List.mem_cons_self ..)
      simp at this
      omega
  | append_singleton c x ih =>
    rw [List.zipIdx_append, List.filter_append, List.map_append, List.zipIdx_singleton]
    have hbound : ∀ y ∈ c.zipIdx 1, y.2 ≤ c.length := fun y hy => by
      have := List.snd_lt_of_mem_zipIdx hy
      omega
    cases ns with
    | nil => simp [deleteAll, List.filter_eq_self.mpr]
    | cons n ns =>
      obtain ⟨hall, hsorted⟩ := List.pairwise_cons.mp h.sorted
      have hn := h.bounds n (List.mem_cons_self ..)
      simp only [List.length_append, List.length_singleton] at hn
      by_cases hlast : n = c.length + 1
      · have hrest : Descending ns c := ⟨hsorted, fun m hm =>
          ⟨(h.bounds m (List.mem_cons_of_mem _ hm)).1, by have := hall m hm; omega⟩⟩
        have hkeep : (c.zipIdx 1).filter (fun y => !decide (y.2 ∈ n :: ns)) =
            (c.zipIdx 1).filter (fun y => !decide (y.2 ∈ ns)) :=
          List.filter_congr fun y hy => by
            have := hbound y hy
            have hne : y.2 ≠ n := by omega
            simp [hne]
        rw [deleteAll_cons, hlast, delete_last, ← hlast, ih hrest, hkeep]
        simp [hlast, Nat.add_comm]
      · have hrest : Descending (n :: ns) c := ⟨h.sorted, fun m hm =>
          ⟨(h.bounds m hm).1, by
            rcases List.mem_cons.mp hm with rfl | hm
            · omega
            · have := hall m hm; omega⟩⟩
        have hout : ¬ (1 + c.length ∈ n :: ns) := fun hm => by
          have := (hrest.bounds _ hm).2
          omega
        rw [deleteAll_append hrest, ih hrest]
        simp only [List.filter_cons, hout, decide_false, Bool.not_false, if_true, List.filter_nil,
          List.map_cons, List.map_nil]

theorem length_deleteAll {ns : List Nat} {c : List α} (h : Descending ns c) :
    (deleteAll ns c).length + ns.length = c.length := by
  induction ns generalizing c with
  | nil => rfl
  | cons n ns ih =>
    obtain ⟨hn, hrest⟩ := h.cons
    have := length_delete hn.1 hn.2
    rw [deleteAll_cons, List.length_cons, ← Nat.add_assoc, ih hrest, this]

/-- **A descending sequence of deletions leaves the elements without `p` exactly when it
names the elements with `p`.** -/
theorem deleteAll_eq_filter_iff {ns : List Nat} {c : List α} (h : Descending ns c) (p : α → Bool) :
    deleteAll ns c = (c.filter fun x => !p x) ↔ ns = (numbers p c).reverse := by
  constructor
  · intro heq
    have hsub : numbers p c ⊆ ns := by
      intro n hn
      obtain ⟨x, h1, hx, hp⟩ := mem_numbers.mp hn
      by_contra hout
      have hmem : x ∈ deleteAll ns c := by
        rw [deleteAll_eq h, List.mem_map]
        refine ⟨(x, n), List.mem_filter.mpr ⟨?_, by simpa using hout⟩, rfl⟩
        exact List.mem_zipIdx_iff_le_and_getElem?_sub.mpr ⟨h1, hx⟩
      rw [heq, List.mem_filter, hp] at hmem
      exact absurd hmem.2 (by decide)
    have hlen : ns.length = (numbers p c).reverse.length := by
      have h1 := length_deleteAll h
      have h2 := length_deleteAll (numbers_descending p c)
      rw [heq] at h1
      rw [deleteAll_numbers] at h2
      omega
    have hperm : (numbers p c).reverse.Perm ns := by
      have hnodup : (numbers p c).reverse.Nodup :=
        (numbers_descending p c).sorted.imp fun hgt => Nat.ne_of_gt hgt
      exact (List.subperm_of_subset hnodup fun n hn => hsub (List.mem_reverse.mp hn)).perm_of_length_le
        (Nat.le_of_eq hlen)
    exact (hperm.eq_of_pairwise (fun a b _ _ hab hba => absurd hab (Nat.lt_asymm hba))
      (numbers_descending p c).sorted h.sorted).symm
  · rintro rfl
    exact deleteAll_numbers p c

end Tcos.Numbered
