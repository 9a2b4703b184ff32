import Tcos.Libc.Numbers
import Tcos.Libc.Text
import Tcos.Lists.Numbered

/-! Numbers that pass through a line buffer and a token table.

A program prints a list of numbers on one line, reads as much of the line as its
buffer takes and splits it at the blanks. `held` says which numbers it ends up with:
a long line is cut, perhaps in the middle of a number, and the table holds so many
tokens and no more. -/
namespace Tcos.Libc
open Shell (Text)
open Numbered (Descending)

/-- The numbers on one line, a blank behind each. -/
def listing (ns : List Nat) : Text := ns.flatMap fun n => Nat.toDigits 10 n ++ [' ']

/-- The numbers read back from the first `room` bytes of the line, at most `slots` of
them. The last one may have lost some of its digits. -/
def held : Nat → Nat → List Nat → List Nat
  | _, _, [] => []
  | _, 0, _ :: _ => []
  | room, slots + 1, n :: ns =>
    let width := (Nat.toDigits 10 n).length
    if room = 0 then []
    else if width ≤ room then n :: held (room - width - 1) slots ns
    else [n / 10 ^ (width - room)]

theorem held_nil (room slots : Nat) : held room slots [] = [] := by
  cases slots <;> rfl

theorem held_no_room (slots : Nat) (ns : List Nat) : held 0 slots ns = [] := by
  cases ns with
  | nil => exact held_nil 0 slots
  | cons n ns => cases slots <;> simp [held]

theorem held_ne_nil {ns : List Nat} (hne : ns ≠ []) (room slots : Nat) :
    held (room + 1) (slots + 1) ns ≠ [] := by
  obtain ⟨n, ns, rfl⟩ := List.exists_cons_of_ne_nil hne
  rw [held, if_neg (Nat.succ_ne_zero room)]
  split <;> simp

/-- The leading digits of a number. -/
theorem take_toDigits {n k : Nat} (hk : 0 < k) (hw : k ≤ (Nat.toDigits 10 n).length) :
    (Nat.toDigits 10 n).take k = Nat.toDigits 10 (n / 10 ^ ((Nat.toDigits 10 n).length - k)) := by
  induction n using Nat.strongRecOn with
  | ind n ih =>
    by_cases hn : n < 10
    · have hdigit := Nat.toDigits_of_lt_base hn
      rw [hdigit] at hw ⊢
      obtain rfl : k = 1 := by simp at hw; omega
      simp [Nat.toDigits_of_lt_base hn]
    · have hdigits := Nat.toDigits_of_base_le (b := 10) (by decide) (Nat.not_lt.mp hn)
      have hlen : (Nat.toDigits 10 n).length = (Nat.toDigits 10 (n / 10)).length + 1 := by
        rw [hdigits, List.length_append, List.length_singleton]
      by_cases hlast : k = (Nat.toDigits 10 n).length
      · rw [hlast, List.take_length, Nat.sub_self, Nat.pow_zero, Nat.div_one]
      · have hk' : k ≤ (Nat.toDigits 10 (n / 10)).length := by omega
        have hexp : (Nat.toDigits 10 n).length - k = (Nat.toDigits 10 (n / 10)).length - k + 1 := by
          omega
        rw [hexp, Nat.pow_succ', ← Nat.div_div_eq_div_mul, ← ih (n / 10) (by omega) hk', hdigits,
          List.take_append_of_le_length hk']

theorem isDigit_ne_blank {n : Nat} : ∀ c ∈ Nat.toDigits 10 n, (c == ' ') = false := by
  intro c hc
  rw [beq_eq_false_iff_ne]
  rintro rfl
  exact not_mem_toDigits (by decide) n hc

/-- **What is read back from a line of numbers.** -/
theorem tokens_listing (room slots : Nat) (ns : List Nat) :
    (tokens (· == ' ') ((listing ns).take room)).take slots =
      (held room slots ns).map (Nat.toDigits 10) := by
  induction ns generalizing room slots with
  | nil => simp [listing, held_nil]
  | cons n ns ih =>
    cases slots with
    | zero => simp [held]
    | succ slots =>
      have hline : listing (n :: ns) = Nat.toDigits 10 n ++ ' ' :: listing ns := by simp [listing]
      rw [hline, List.take_append]
      by_cases hroom : room = 0
      · subst hroom
        simp [held]
      · rcases Nat.lt_trichotomy room (Nat.toDigits 10 n).length with hlt | heq | hgt
        · have hzero : room - (Nat.toDigits 10 n).length = 0 := by omega
          have htake := take_toDigits (n := n) (Nat.pos_of_ne_zero hroom) (Nat.le_of_lt hlt)
          rw [hzero, List.take_zero, List.append_nil, htake,
            tokens_single isDigit_ne_blank Nat.toDigits_ne_nil, held]
          simp [hroom, Nat.not_le.mpr hlt]
        · rw [heq, Nat.sub_self, List.take_zero, List.append_nil, List.take_length,
            tokens_single isDigit_ne_blank Nat.toDigits_ne_nil, held]
          simp [held_no_room]
        · obtain ⟨k, hk⟩ : ∃ k, room - (Nat.toDigits 10 n).length = k + 1 :=
            Nat.exists_eq_add_one.mpr (by omega)
          have htail : room - (Nat.toDigits 10 n).length - 1 = k := by omega
          rw [hk, List.take_succ_cons, List.take_of_length_le (Nat.le_of_lt hgt),
            tokens_append isDigit_ne_blank rfl, if_neg Nat.toDigits_ne_nil, List.singleton_append,
            List.take_succ_cons, ih, held]
          simp [hroom, Nat.le_of_lt hgt, htail]

/-! ### What stays descending -/

theorem shortened_bounds {n room : Nat} (hn : 1 ≤ n) (hroom : room ≠ 0)
    (hw : room < (Nat.toDigits 10 n).length) :
    1 ≤ n / 10 ^ ((Nat.toDigits 10 n).length - room) ∧
      n / 10 ^ ((Nat.toDigits 10 n).length - room) < n := by
  have hlong : 10 ^ ((Nat.toDigits 10 n).length - room) ≤ n := by
    by_contra h
    have := (Nat.length_toDigits_le_iff (b := 10) (n := n)
      (k := (Nat.toDigits 10 n).length - room) (by decide) (by omega)).mpr (Nat.not_le.mp h)
    omega
  refine ⟨(Nat.one_le_div_iff (Nat.pos_of_ne_zero (by simp))).mpr hlong, Nat.div_lt_self hn ?_⟩
  exact Nat.one_lt_pow (by omega) (by decide)

theorem held_bounds {room slots : Nat} {ns : List Nat} (h1 : ∀ n ∈ ns, 1 ≤ n) {b : Nat}
    (hb : ∀ n ∈ ns, n ≤ b) : ∀ m ∈ held room slots ns, 1 ≤ m ∧ m ≤ b := by
  induction ns generalizing room slots with
  | nil => simp [held_nil]
  | cons n ns ih =>
    intro m hm
    cases slots with
    | zero => simp [held] at hm
    | succ slots =>
      have hn := h1 n (List.mem_cons_self ..)
      have hnb := hb n (List.mem_cons_self ..)
      rw [held] at hm
      split at hm
      · cases hm
      · split at hm
        · rcases List.mem_cons.mp hm with rfl | hm
          · exact ⟨hn, hnb⟩
          · exact ih (fun n hn => h1 n (List.mem_cons_of_mem _ hn))
              (fun n hn => hb n (List.mem_cons_of_mem _ hn)) m hm
        · have hs := shortened_bounds hn ‹_› (Nat.not_le.mp ‹_›)
          rw [List.mem_singleton.mp hm]
          exact ⟨hs.1, by omega⟩

theorem held_descending {α : Type} {ns : List Nat} {c : List α} (h : Descending ns c)
    (room slots : Nat) : Descending (held room slots ns) c := by
  refine ⟨?_, held_bounds (fun n hn => (h.bounds n hn).1) fun n hn => (h.bounds n hn).2⟩
  have hpos : ∀ n ∈ ns, 1 ≤ n := fun n hn => (h.bounds n hn).1
  have hsorted := h.sorted
  clear h
  induction ns generalizing room slots with
  | nil => simp [held_nil]
  | cons n ns ih =>
    obtain ⟨hall, hrest⟩ := List.pairwise_cons.mp hsorted
    have hpos' : ∀ m ∈ ns, 1 ≤ m := fun m hm => hpos m (List.mem_cons_of_mem _ hm)
    cases slots with
    | zero => simp [held]
    | succ slots =>
      rw [held]
      split
      · exact .nil
      · split
        · refine List.pairwise_cons.mpr ⟨fun m hm => ?_, ih _ _ hpos' hrest⟩
          have := (held_bounds hpos' (b := n - 1) (fun k hk => by have := hall k hk; omega) m hm).2
          have := hpos n (List.mem_cons_self ..)
          omega
        · exact List.pairwise_singleton ..

/-- A line and a table that are large enough lose nothing but the last blank. -/
theorem held_of_fits {room slots : Nat} {ns : List Nat} (hroom : (listing ns).length ≤ room + 1)
    (hslots : ns.length ≤ slots) : held room slots ns = ns := by
  induction ns generalizing room slots with
  | nil => exact held_nil room slots
  | cons n ns ih =>
    cases slots with
    | zero => simp at hslots
    | succ slots =>
      have hline : (listing (n :: ns)).length = (Nat.toDigits 10 n).length + 1 +
        (listing ns).length := by
        simp [listing]
        omega
      have hslots' : ns.length ≤ slots := by simpa using hslots
      have hpos : 0 < (Nat.toDigits 10 n).length := Nat.length_toDigits_pos
      by_cases hlast : room = (Nat.toDigits 10 n).length
      · have hnil : ns = [] := by
          cases ns with
          | nil => rfl
          | cons m ns => simp [listing] at hline hroom; omega
        rw [held, if_neg (by omega), if_pos (by omega), hnil, held_nil]
      · rw [held, if_neg (by omega), if_pos (by omega), ih (by omega) hslots']

end Tcos.Libc
