import Mathlib

/-! Files, and links that lead to files.

`Reads` is what a path resolves to, `Visits` the paths on the way. `Tree` is a finite map, where
`Tree.read` computes the first (`read_iff`). `reads_relink` is the rule for replacing a file by a
link to an equal one: nothing is lost if the way to the other one does not lead through the path
that is replaced. -/
namespace Tcos.Files

variable {P C : Type}

inductive Node (P C : Type) where
  | file (content : C)
  | link (target : P)
  deriving DecidableEq, Repr

/-! ### Resolving a path -/

/-- The path is a link to this one. -/
def Next (g : P → Option (Node P C)) (p q : P) : Prop := g p = some (.link q)

/-- Following links from `p` comes to `q`. -/
def Visits (g : P → Option (Node P C)) : P → P → Prop := Relation.ReflTransGen (Next g)

/-- The path resolves to a file with this content. -/
inductive Reads (g : P → Option (Node P C)) : P → C → Prop where
  | file {p : P} {c : C} : g p = some (.file c) → Reads g p c
  | link {p q : P} {c : C} : Next g p q → Reads g q c → Reads g p c

/-- No path leads back to itself. -/
def Acyclic (g : P → Option (Node P C)) : Prop := ∀ p, ¬ Relation.TransGen (Next g) p p

/-- All that is in `g` is in `h`. -/
def Within (g h : P → Option (Node P C)) : Prop := ∀ p n, g p = some n → h p = some n

section Paths
variable {g h : P → Option (Node P C)}

theorem Next.unique {p q r : P} (hq : Next g p q) (hr : Next g p r) : q = r := by
  have := hq.symm.trans hr
  simpa using this

theorem Reads.unique {p : P} {c d : C} (hc : Reads g p c) (hd : Reads g p d) : c = d := by
  induction hc with
  | file hp =>
    cases hd with
    | file hp' => simpa using hp.symm.trans hp'
    | link hq _ => exact absurd (hp.symm.trans hq) (by simp)
  | link hq _ ih =>
    cases hd with
    | file hp => exact absurd (hq.symm.trans hp) (by simp)
    | link hq' hr => exact ih (hq.unique hq' ▸ hr)

theorem Reads.present {p : P} {c : C} (hc : Reads g p c) : g p ≠ none := by
  cases hc with
  | file hp => simp [hp]
  | link hq _ => simp [show g p = _ from hq]

theorem Reads.mono (hgh : Within g h) {p : P} {c : C} (hc : Reads g p c) : Reads h p c := by
  induction hc with
  | file hp => exact .file (hgh _ _ hp)
  | link hq _ ih => exact .link (hgh _ _ hq) ih

/-- Whatever is visited on the way is read alike. -/
theorem Reads.visited {p q : P} {c : C} (hc : Reads g p c) (hq : Visits g p q) : Reads g q c := by
  induction hq using Relation.ReflTransGen.head_induction_on with
  | refl => exact hc
  | head hnext _ ih =>
    cases hc with
    | file hp => exact absurd (hp.symm.trans hnext) (by simp)
    | link hnext' hr => exact ih (hnext'.unique hnext ▸ hr)

theorem Reads.of_visits {p q : P} {c : C} (hq : Visits g p q) (hc : Reads g q c) : Reads g p c := by
  induction hq using Relation.ReflTransGen.head_induction_on with
  | refl => exact hc
  | head hnext _ ih => exact .link hnext ih

theorem Visits.within (hgh : Within g h) {p q : P} (hq : Visits g p q) : Visits h p q := by
  induction hq using Relation.ReflTransGen.head_induction_on with
  | refl => exact .refl
  | head hnext _ ih => exact .head (hgh _ _ hnext) ih

/-- The way of a path that resolves is the same in a larger map. -/
theorem Reads.visits_within (hgh : Within g h) {p q : P} {c : C} (hc : Reads g p c) (hq : Visits h p q) :
    Visits g p q := by
  induction hc with
  | file hp =>
    rcases Relation.ReflTransGen.cases_head hq with rfl | ⟨r, hr, -⟩
    · exact .refl
    · exact absurd ((hgh _ _ hp).symm.trans hr) (by simp)
  | link hnext _ ih =>
    rcases Relation.ReflTransGen.cases_head hq with rfl | ⟨r, hr, hrq⟩
    · exact .refl
    · obtain rfl := hr.unique (hgh _ _ hnext)
      exact .head hnext (ih hrq)

/-- A path that resolves is on no cycle. -/
theorem Reads.not_cycle {p : P} {c : C} (hc : Reads g p c) : ¬ Relation.TransGen (Next g) p p := by
  induction hc with
  | file hp =>
    intro hcycle
    obtain ⟨q, hnext, -⟩ := Relation.TransGen.head'_iff.mp hcycle
    exact absurd (hp.symm.trans hnext) (by simp)
  | link hq _ ih =>
    intro hcycle
    obtain ⟨r, hnext, hback⟩ := Relation.TransGen.head'_iff.mp hcycle
    obtain rfl := hnext.unique hq
    exact ih (Relation.TransGen.tail' hback hq)

end Paths

/-! ### Replacing a file by a link -/

section Relink
variable [DecidableEq P] {g : P → Option (Node P C)} {a b : P} {c : C}

/-- A way that does not come to `a` is as before. -/
theorem visits_relink {p q : P} (hpq : Visits g p q) (ha : ¬ Visits g p a) (n : Option (Node P C)) :
    Visits (Function.update g a n) p q := by
  induction hpq using Relation.ReflTransGen.head_induction_on with
  | refl => exact .refl
  | @head p r hnext _ ih =>
    have hne : p ≠ a := by
      rintro rfl
      exact ha .refl
    exact .head (by simpa [Next, hne] using hnext) (ih fun hr => ha (.head hnext hr))

/-- A way to `a` is there until it comes to `a`. -/
theorem visits_until {p : P} (hp : Visits g p a) (n : Option (Node P C)) :
    Visits (Function.update g a n) p a := by
  induction hp using Relation.ReflTransGen.head_induction_on with
  | refl => exact .refl
  | @head p r hnext _ ih =>
    by_cases hpa : p = a
    · subst hpa
      exact .refl
    · exact .head (by simpa [Next, hpa] using hnext) ih

theorem reads_away {p : P} {d : C} (hd : Reads g p d) (ha : ¬ Visits g p a) (n : Option (Node P C)) :
    Reads (Function.update g a n) p d := by
  induction hd with
  | @file p d hp =>
    have hne : p ≠ a := by
      rintro rfl
      exact ha .refl
    exact .file (by simpa [hne] using hp)
  | @link p q d hnext _ ih =>
    have hne : p ≠ a := by
      rintro rfl
      exact ha .refl
    exact .link (by simpa [Next, hne] using hnext) (ih fun hq => ha (.head hnext hq))

/-- **A path made a link to one that reads the same, on a way that does not lead through it,
changes what no path reads.** -/
theorem reads_relink (ha : Reads g a c) (hb : Reads g b c) (haway : ¬ Visits g b a) {p : P} {d : C}
    (hd : Reads g p d) : Reads (Function.update g a (some (.link b))) p d := by
  have hlink : Reads (Function.update g a (some (.link b))) a c :=
    .link (by simp [Next]) (reads_away hb haway _)
  induction hd with
  | @file p d hp =>
    by_cases hpa : p = a
    · subst hpa
      rwa [(Reads.file hp).unique ha]
    · exact .file (by simpa [hpa] using hp)
  | @link p q d hnext hq ih =>
    by_cases hpa : p = a
    · subst hpa
      rwa [(Reads.link hnext hq).unique ha]
    · exact .link (by simpa [Next, hpa] using hnext) ih

/-- It makes no cycle. -/
theorem acyclic_relink (hg : Acyclic g) (hb : Reads g b c) (haway : ¬ Visits g b a) :
    Acyclic (Function.update g a (some (.link b))) := by
  intro p hcycle
  have hlink : Reads (Function.update g a (some (.link b))) a c :=
    .link (by simp [Next]) (reads_away hb haway _)
  -- what leads to `a` resolves, so the cycle does not lead there
  have hpa : ¬ Visits (Function.update g a (some (.link b))) p a :=
    fun hvisit => (Reads.of_visits hvisit hlink).not_cycle hcycle
  obtain ⟨q, hnext, hback⟩ := Relation.TransGen.head'_iff.mp hcycle
  have hne : p ≠ a := by
    rintro rfl
    exact hpa .refl
  have hold := visits_relink hback (fun hq => hpa (.head hnext hq)) (g a)
  rw [Function.update_idem, Function.update_eq_self] at hold
  exact hg p (Relation.TransGen.head' (by simpa [Next, hne] using hnext) hold)

end Relink

/-! ### Finite maps -/

/-- The first entry of a path counts. -/
abbrev Tree (P C : Type) := List (P × Node P C)

section Tree
variable [DecidableEq P]

def Tree.get (t : Tree P C) (p : P) : Option (Node P C) := t.lookup p

/-- `rm -f`. -/
def Tree.rm (t : Tree P C) (p : P) : Tree P C := t.filter fun e => e.1 ≠ p

/-- `ln -s`, of an absolute path: what is there already is kept. -/
def Tree.ln (t : Tree P C) (target p : P) : Tree P C := if (t.get p).isSome then t
    else (p, .link target) :: t

def Tree.follow (t : Tree P C) : Nat → P → Option C
  | 0, _ => none
  | n + 1, p =>
    match t.get p with
    | none => none
    | some (.file c) => some c
    | some (.link q) => t.follow n q

/-- What the path resolves to. -/
def Tree.read (t : Tree P C) (p : P) : Option C := t.follow t.length p

theorem Tree.get_cons (t : Tree P C) (p q : P) (n : Node P C) :
    Tree.get ((p, n) :: t) q = if q = p then some n else t.get q := by
  rw [get, List.lookup_cons]
  by_cases h : q = p
  · simp [h]
  · rw [beq_false_of_ne h, if_neg h]
    rfl

theorem Tree.get_rm (t : Tree P C) (p : P) : (t.rm p).get = Function.update t.get p none := by
  funext q
  induction t with
  | nil => by_cases h : q = p <;> simp [rm, get, h]
  | cons e t ih =>
    obtain ⟨k, n⟩ := e
    have hcons : Tree.rm ((k, n) :: t) p = if k = p then Tree.rm t p else (k, n) :: Tree.rm t p := by
      unfold rm
      rw [List.filter_cons]
      by_cases h : k = p <;> simp [h]
    rw [hcons]
    by_cases hk : k = p
    · rw [if_pos hk, ih]
      by_cases hq : q = p
      · simp [hq]
      · simp [get_cons, hk, hq]
    · rw [if_neg hk, get_cons, ih]
      by_cases hq : q = p
      · simp [hq, Ne.symm hk]
      · simp [Function.update_of_ne hq, get_cons]

theorem Tree.get_ln {t : Tree P C} (target : P) {p : P} (h : t.get p = none) :
    (t.ln target p).get = Function.update t.get p (some (.link target)) := by
  funext q
  rw [ln, h, if_neg (by simp), get_cons]
  by_cases hq : q = p <;> simp [hq]

theorem Tree.within_ln (t : Tree P C) (target p : P) : Within t.get (t.ln target p).get := by
  intro q n hq
  unfold ln
  split
  case isTrue => exact hq
  case isFalse h =>
    have hne : q ≠ p := by
      rintro rfl
      simp [hq] at h
    rw [get_cons, if_neg hne, hq]

theorem Tree.mem_of_get {t : Tree P C} {p : P} (h : t.get p ≠ none) : p ∈ t.map Prod.fst := by
  induction t with
  | nil => exact absurd rfl h
  | cons e t ih =>
    obtain ⟨k, n⟩ := e
    rw [get_cons] at h
    by_cases hk : p = k
    · simp [hk]
    · rw [if_neg hk] at h
      exact List.mem_cons_of_mem _ (ih h)

theorem Tree.reads_of_follow {t : Tree P C} {n : Nat} {p : P} {c : C} (h : t.follow n p = some c) :
    Reads t.get p c := by
  induction n generalizing p with
  | zero => exact absurd h (by simp [follow])
  | succ n ih =>
    rw [follow] at h
    split at h
    · exact absurd h (by simp)
    · rename_i hp
      exact .file (by rw [hp, Option.some.inj h])
    · rename_i hp
      exact .link hp (ih h)

theorem Tree.follow_mono {t : Tree P C} {n m : Nat} {p : P} {c : C} (h : t.follow n p = some c)
    (hnm : n ≤ m) : t.follow m p = some c := by
  induction n generalizing p m with
  | zero => exact absurd h (by simp [follow])
  | succ n ih =>
    obtain ⟨m, rfl⟩ := Nat.exists_eq_add_one.mpr (lt_of_lt_of_le (Nat.succ_pos n) hnm)
    rw [follow] at h ⊢
    split at h
    · exact absurd h (by simp)
    · exact h
    · exact ih h (by omega)

/-- The paths on the way are as many as the links that are followed, and all different. -/
theorem Tree.follow_of_reads {t : Tree P C} {p : P} {c : C} (h : Reads t.get p c) :
    ∃ way : List P, t.follow way.length p = some c ∧ way.Nodup ∧ ∀ q ∈ way, Visits t.get p q := by
  induction h with
  | @file p c hp =>
    exact ⟨[p], by simp [follow, hp], by simp, by simp [Visits, Relation.ReflTransGen.refl]⟩
  | @link p q c hnext hq ih =>
    obtain ⟨way, hfollow, hnodup, hvisits⟩ := ih
    refine ⟨p :: way, ?_, List.nodup_cons.mpr ⟨fun hmem => ?_, hnodup⟩, ?_⟩
    · rw [List.length_cons, follow, show t.get p = _ from hnext]
      exact hfollow
    · exact (Reads.link hnext hq).not_cycle (Relation.TransGen.head' hnext (hvisits p hmem))
    · intro r hr
      rcases List.mem_cons.mp hr with rfl | hr
      · exact .refl
      · exact .head hnext (hvisits r hr)

/-- **`read` is what the path resolves to.** -/
theorem Tree.read_iff (t : Tree P C) (p : P) (c : C) : t.read p = some c ↔ Reads t.get p c := by
  refine ⟨reads_of_follow, fun h => ?_⟩
  obtain ⟨way, hfollow, hnodup, hvisits⟩ := follow_of_reads h
  have hsub : way ⊆ t.map Prod.fst := fun q hq => mem_of_get (h.visited (hvisits q hq)).present
  have hle := (List.subperm_of_subset hnodup hsub).length_le
  rw [List.length_map] at hle
  exact follow_mono hfollow hle

end Tree
end Tcos.Files
