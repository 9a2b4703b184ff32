import Tcos.Shell.Pieces

/-! One byte of input makes at most one byte of a word.

`Parser.bytes` counts the bytes of the words read so far. No step adds more than
one (`step_bytes`), quoting bytes, blanks and operators add none, and a simple
command never holds more than was counted (`gather_bytes`). A word as long as its
input was therefore read byte for byte. -/
namespace Tcos.Shell

/-- The mark of a byte outside quotes. -/
def markOf (c : Char) : Mark := if c = '$' then .dollar else if c = '\x60' then .backquote else .text

section Bytes
variable {α : Type} (ch : α → Char)

/-- The bytes of a word, quoting removed or not yet decided. -/
def Word.bytes (w : Word α) : Nat := (w.filter fun x => x.2 != .quote).length

def Item.bytes : Item α → Nat
  | .word _ w => Word.bytes w
  | _ => 0

def itemBytes (xs : List (Item α)) : Nat := (xs.map Item.bytes).sum

def Reading.bytes : Reading α → Nat
  | .word _ w => Word.bytes w
  | _ => 0

def Parser.bytes (p : Parser α) : Nat := itemBytes p.items + p.reading.bytes

@[simp] theorem gap_bytes : (Reading.gap : Reading α).bytes = 0 := rfl

@[simp] theorem comment_bytes : (Reading.comment : Reading α).bytes = 0 := rfl

@[simp] theorem operator_bytes (op : List α) : (Reading.operator op).bytes = 0 := rfl

@[simp] theorem word_bytes (q : Quoting) (w : Word α) : (Reading.word q w).bytes = Word.bytes w := rfl

@[simp] theorem wordBytes_append (v w : Word α) :
    Word.bytes (v ++ w) = Word.bytes v + Word.bytes w := by
  simp [Word.bytes]

@[simp] theorem wordBytes_nil : Word.bytes ([] : Word α) = 0 := rfl

@[simp] theorem wordBytes_single (b : α) (m : Mark) :
    Word.bytes [(b, m)] = if m = .quote then 0 else 1 := by
  cases m <;> rfl

@[simp] theorem itemBytes_append (xs ys : List (Item α)) :
    itemBytes (xs ++ ys) = itemBytes xs + itemBytes ys := by
  simp [itemBytes]

@[simp] theorem itemBytes_nil : itemBytes ([] : List (Item α)) = 0 := rfl

@[simp] theorem itemBytes_cons (x : Item α) (xs : List (Item α)) :
    itemBytes (x :: xs) = x.bytes + itemBytes xs := by
  simp [itemBytes]

theorem closeWord_bytes (p : Parser α) (g : Bool) (w : Word α) :
    (p.closeWord ch g w).bytes = itemBytes p.items + Word.bytes w := by
  simp [Parser.closeWord, Parser.bytes, Item.bytes]

theorem closeOperator_bytes (p : Parser α) (op : List α) :
    (p.closeOperator ch op).bytes = itemBytes p.items := by
  unfold Parser.closeOperator
  split <;> simp [Parser.bytes, Item.bytes]

/-- A solid byte outside quotes is itself; only a quoting byte adds nothing. -/
theorem readBare_bytes (w : Word α) (b : α) :
    (isQuoting (ch b) = false ∧ readBare ch w b = .word .bare (w ++ [(b, markOf (ch b))]) ∧
      (readBare ch w b).bytes = Word.bytes w + 1) ∨
    (isQuoting (ch b) = true ∧ (readBare ch w b).bytes = Word.bytes w) := by
  unfold readBare
  split
  case h_6 h1 h2 h3 h4 h5 =>
    left
    have h := And.intro (show ch b ≠ '\\' from h1) (And.intro (show ch b ≠ '\x27' from h2)
      (And.intro (show ch b ≠ '\x22' from h3) (And.intro (show ch b ≠ '$' from h4)
        (show ch b ≠ '\x60' from h5))))
    simp [isQuoting, markOf, h]
  all_goals rename_i h; simp [h, isQuoting, markOf]

theorem readDouble_bytes (w : Word α) (b : α) :
    (readDouble ch w b).bytes ≤ Word.bytes w + 1 := by
  unfold readDouble
  split <;> simp

theorem start_bytes (p : Parser α) (b : α) :
    (p.start ch b).bytes ≤ itemBytes p.items + 1 := by
  unfold Parser.start
  split
  · simp [Parser.bytes]
  split
  · simp [Parser.bytes]
  split
  · simp [Parser.bytes]
  · have := readBare_bytes ch [] b
    simp only [Parser.bytes]
    rcases this with ⟨_, _, h⟩ | ⟨_, h⟩ <;> rw [h] <;> simp

theorem wordBytes_dropLast (w : Word α) : Word.bytes w.dropLast ≤ Word.bytes w := by
  have h := List.Sublist.filter (fun x : α × Mark => x.2 != .quote) (List.dropLast_sublist w)
  exact h.length_le

theorem step_bytes (p : Parser α) (b : α) : (p.step ch b).bytes ≤ p.bytes + 1 := by
  unfold Parser.step
  split
  case h_1 h => simpa [Parser.bytes, h] using start_bytes ch p b
  case h_2 h =>
    split
    · simpa [Parser.bytes, h] using start_bytes ch p b
    · omega
  case h_3 op h =>
    split
    · simp [Parser.bytes, h]
    · have h1 := start_bytes ch (p.closeOperator ch op) b
      have h2 := closeOperator_bytes ch p op
      simp only [Parser.bytes] at *
      omega
  case h_4 w h =>
    split
    · have h1 := start_bytes ch (p.closeWord ch (isRedirect (ch b)) w) b
      have h2 := closeWord_bytes ch p (isRedirect (ch b)) w
      simp only [Parser.bytes, h, word_bytes] at *
      omega
    · have := readBare_bytes ch w b
      simp only [Parser.bytes, h, word_bytes] at *
      rcases this with ⟨_, _, h'⟩ | ⟨_, h'⟩
      · rw [h']
        omega
      · rw [h']
        omega
  case h_5 w h =>
    split
    · simp [Parser.bytes, h]
    · simp [Parser.bytes, h]
      omega
  case h_6 w h =>
    have := readDouble_bytes ch w b
    simp only [Parser.bytes, h, word_bytes] at *
    omega
  case h_7 w h =>
    split
    · have := wordBytes_dropLast w
      simp only [Parser.bytes, h]
      split <;> simp only [gap_bytes, word_bytes] <;> omega
    · simp [Parser.bytes, h]; omega
  case h_8 w h =>
    split
    · have := wordBytes_dropLast w
      simp only [Parser.bytes, h, word_bytes]
      omega
    · simp [Parser.bytes, h]; omega

theorem run_bytes (p : Parser α) (s : List α) : (p.run ch s).bytes ≤ p.bytes + s.length := by
  induction s generalizing p with
  | nil => simp
  | cons b s ih =>
    have h1 := ih (p.step ch b)
    have h2 := step_bytes ch p b
    rw [run_cons, List.length_cons]
    omega

theorem finish_bytes (p : Parser α) (h : ∀ q w, p.reading = .word q w → q = .bare) :
    itemBytes (p.finish ch).items = p.bytes := by
  unfold Parser.finish
  split
  case h_1 hr => simp [Parser.bytes, hr]
  case h_2 hr => simp [Parser.bytes, hr]
  case h_3 op hr =>
    have := closeOperator_bytes ch p op
    simp only [Parser.bytes, hr, operator_bytes, Parser.closeOperator] at *
    split <;> simp [Item.bytes]
  case h_4 w hr => simp [Parser.bytes, hr, Parser.closeWord, Item.bytes]
  case h_5 w hr => exact absurd (h _ _ hr) (by decide)
  case h_6 q w hq _ hr => exact absurd (h _ _ hr) hq

/-! ### Nothing is longer than the bytes it was read from -/

def Simple.bytes (s : Simple) : Nat :=
  (s.assigns.map List.length).sum + (s.args.map List.length).sum +
    (s.redirects.map fun r => (r.number.getD []).length + r.target.length).sum

@[simp] theorem Simple.bytes_append (s t : Simple) : (s.append t).bytes = s.bytes + t.bytes := by
  simp [Simple.bytes, Simple.append]
  omega

theorem wordBytes_cons (b : α) (m : Mark) (w : Word α) :
    Word.bytes ((b, m) :: w) = (if m = .quote then 0 else 1) + Word.bytes w := by
  cases m <;> simp [Word.bytes, Nat.add_comm]

theorem value_length : ∀ w : Word α, (w.value ch).length ≤ Word.bytes w
  | [] => by simp [Word.value]
  | [(b, m)] => by cases m <;> simp [Word.value, wordBytes_cons]
  | (b, m) :: (c, n) :: rest => by
    have h1 := value_length ((c, n) :: rest)
    have h2 := value_length rest
    have h3 : Word.bytes rest ≤ Word.bytes ((c, n) :: rest) := by rw [wordBytes_cons]; omega
    rw [Word.value, wordBytes_cons b m]
    split_ifs <;> grind

theorem fixed_length {w : Word α} {v : Text} (h : w.fixed ch = some v) : v.length ≤ Word.bytes w := by
  unfold Word.fixed at h
  split at h
  · exact absurd h (by simp)
  · have := value_length ch w
    simp only [Option.some.injEq] at h
    simpa [← h] using this

theorem gather_bytes {xs : List (Item α)} {s : Simple} (h : gather ch xs = some s) :
    s.bytes ≤ itemBytes xs := by
  induction xs using gather.induct generalizing s with
  | case1 =>
    obtain rfl : s = {} := by simpa [gather] using h.symm
    simp [Simple.bytes]
  | case2 w rest ih | case3 w rest ih | case4 w rest ih =>
    simp only [gather, Option.bind_eq_some_iff, Option.map_eq_some_iff] at h
    obtain ⟨v, hv, r, hr, rfl⟩ := h
    have h1 := fixed_length ch hv
    have h2 := ih hr
    simp only [Simple.bytes_append, itemBytes_cons, Item.bytes]
    simp only [Simple.bytes, List.map_nil, List.map_cons, List.sum_nil, List.sum_cons] at *
    omega
  | case5 n op w rest ih =>
    simp only [gather, Option.bind_eq_some_iff, Option.map_eq_some_iff] at h
    obtain ⟨k, hk, v, hv, r, hr, rfl⟩ := h
    have h1 := fixed_length ch hk
    have h2 := fixed_length ch hv
    have h3 := ih hr
    simp only [Simple.bytes_append, itemBytes_cons, Item.bytes]
    simp only [Simple.bytes, List.map_nil, List.map_cons, List.sum_nil, List.sum_cons,
      Option.getD_some] at *
    omega
  | case6 op w rest ih =>
    simp only [gather, Option.bind_eq_some_iff, Option.map_eq_some_iff] at h
    obtain ⟨v, hv, r, hr, rfl⟩ := h
    have h1 := fixed_length ch hv
    have h2 := ih hr
    simp only [Simple.bytes_append, itemBytes_cons, Item.bytes]
    simp only [Simple.bytes, List.map_nil, List.map_cons, List.sum_nil, List.sum_cons,
      Option.getD_none, List.length_nil] at *
    omega
  | case7 xs h1 h2 h3 h4 h5 h6 => rw [gather] at h <;> simp_all

end Bytes
end Tcos.Shell
