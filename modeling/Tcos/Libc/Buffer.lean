import Mathlib

/-! Memory from `malloc`, filled from its start, and sizes that wrap around.

A store past the end of a `Buffer` is no value at all, so a function that fills one and gives
a value has stayed inside. -/
namespace Tcos.Libc

/-- `size_t`, by its greatest value. -/
structure SizeT where
  max : Nat
  large : 65535 ≤ max

/-- Arithmetic on `size_t`. -/
def SizeT.wrap (s : SizeT) (n : Nat) : Nat := n % (s.max + 1)

theorem SizeT.wrap_of_le {s : SizeT} {n : Nat} (h : n ≤ s.max) : s.wrap n = n :=
  Nat.mod_eq_of_lt (by omega)

/-- Allocated memory, and what has been stored in it so far. -/
structure Buffer (α : Type) where
  size : Nat
  stored : List α
  fits : stored.length ≤ size

section Buffer
variable {α : Type}

def Buffer.malloc (size : Nat) : Buffer α := ⟨size, [], Nat.zero_le _⟩

/-- `*pos++ = x`. -/
def Buffer.push (b : Buffer α) (x : α) : Option (Buffer α) :=
  if h : b.stored.length < b.size then some ⟨b.size, b.stored ++ [x], by simpa using h⟩ else none

/-- The stores one after the other. -/
def Buffer.pushAll (b : Buffer α) : List α → Option (Buffer α)
  | [] => some b
  | x :: xs => (b.push x).bind fun b => b.pushAll xs

theorem Buffer.pushAll_append (b : Buffer α) (xs ys : List α) :
    b.pushAll (xs ++ ys) = (b.pushAll xs).bind fun b => b.pushAll ys := by
  induction xs generalizing b with
  | nil => rfl
  | cons x xs ih =>
    rw [List.cons_append, pushAll, pushAll]
    cases b.push x with
    | none => rfl
    | some c => exact ih c

/-- **What fits in the rest of the memory is stored.** -/
theorem Buffer.pushAll_fits {b : Buffer α} (xs : List α) (h : b.stored.length + xs.length ≤ b.size) :
    ∃ c, b.pushAll xs = some c ∧ c.stored = b.stored ++ xs ∧ c.size = b.size := by
  induction xs generalizing b with
  | nil => exact ⟨b, rfl, by simp, rfl⟩
  | cons x xs ih =>
    rw [List.length_cons] at h
    have hroom : b.stored.length < b.size := by omega
    obtain ⟨c, hc, hstored, hsize⟩ := ih (b := ⟨b.size, b.stored ++ [x], by simpa using hroom⟩)
      (by simp; omega)
    refine ⟨c, ?_, by simp [hstored], hsize⟩
    rw [pushAll, push, dif_pos hroom]
    exact hc

end Buffer
end Tcos.Libc
