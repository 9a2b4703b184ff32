import Tcos.Shell.Parser

/-! C strings: what a bounded buffer keeps of them, lines, and tokens.

`cut` is what `snprintf` leaves in a buffer of a given size, `fgets` what it reads
of a stream, `tokens` what repeated `strtok` calls return. -/
namespace Tcos.Libc
open Shell (Text)

/-- What fits in a buffer of `size` bytes with its terminator. -/
def cut {α : Type} (size : Nat) (s : List α) : List α := s.take (size - 1)

theorem cut_of_fits {α : Type} {size : Nat} {s : List α} (h : s.length < size) : cut size s = s :=
  List.take_of_length_le (by omega)

theorem cut_length {α : Type} (size : Nat) (s : List α) : (cut size s).length ≤ size - 1 := by
  simp only [cut, List.length_take]
  omega

@[simp] theorem cut_map {α β : Type} (f : α → β) (size : Nat) (s : List α) :
    cut size (s.map f) = (cut size s).map f := by
  simp [cut, List.map_take]

/-- A cut that keeps the first piece cuts the second. -/
theorem cut_append {α : Type} {size : Nat} {s : List α} (h : s.length < size) (t : List α) :
    cut size (s ++ t) = s ++ cut (size - s.length) t := by
  rw [cut, cut, List.take_append, List.take_of_length_le (by omega)]
  congr 2
  omega

/-- A line up to and with its line break. -/
def firstLine : Text → Text
  | [] => []
  | c :: s => if c = '\n' then ['\n'] else c :: firstLine s

/-- One `fgets` into a buffer of `size` bytes. -/
def fgets (size : Nat) (s : Text) : Text := cut size (firstLine s)

def removeLineBreak (s : Text) : Text := s.takeWhile (· ≠ '\n')

theorem firstLine_starts (s : Text) : firstLine s <+: s := by
  induction s with
  | nil => exact List.prefix_rfl
  | cons c s ih =>
    rw [firstLine]
    split
    · rename_i hc
      exact ⟨s, by simp [hc]⟩
    · exact List.cons_prefix_cons.mpr ⟨rfl, ih⟩

theorem fgets_starts (size : Nat) (s : Text) : fgets size s <+: s :=
  (List.take_prefix _ _).trans (firstLine_starts s)

theorem firstLine_line {line : Text} (h : '\n' ∉ line) :
    firstLine (line ++ ['\n']) = line ++ ['\n'] := by
  induction line with
  | nil => rfl
  | cons c line ih =>
    obtain ⟨hc, hline⟩ := not_or.mp (List.mem_cons.not.mp h)
    rw [List.cons_append, firstLine, if_neg fun h => hc h.symm, ih hline]

/-- What successive `fgets` calls into a buffer of `size` bytes read of a file; `read` is
the part of a line read so far. -/
def readLines (size : Nat) : Text → Text → List Text
  | read, [] => if read = [] then [] else [read]
  | read, c :: s =>
    if c = '\n' ∨ read.length + 2 = size then (read ++ [c]) :: readLines size [] s
    else readLines size (read ++ [c]) s

/-- A line that fits the buffer is read whole. -/
theorem readLines_line {size : Nat} {read line : Text} (hb : '\n' ∉ line)
    (hfits : read.length + line.length + 1 < size) (s : Text) :
    readLines size read (line ++ '\n' :: s) = (read ++ line ++ ['\n']) :: readLines size [] s := by
  induction line generalizing read with
  | nil => simp [readLines]
  | cons c line ih =>
    obtain ⟨hc, hline⟩ := not_or.mp (List.mem_cons.not.mp hb)
    rw [List.length_cons] at hfits
    have hgo : ¬ (c = '\n' ∨ read.length + 2 = size) := by
      rintro (h | h)
      · exact hc h.symm
      · omega
    rw [List.cons_append, readLines, if_neg hgo, ih hline (by simp; omega)]
    simp

/-- A file of such lines is read line by line. -/
theorem readLines_file (size : Nat) (lines : List Text)
    (h : ∀ l ∈ lines, '\n' ∉ l ∧ l.length + 1 < size) :
    readLines size [] (lines.flatMap fun l => l ++ ['\n']) = lines.map fun l => l ++ ['\n'] := by
  induction lines with
  | nil => rfl
  | cons l lines ih =>
    obtain ⟨hb, hfits⟩ := h l (List.mem_cons_self ..)
    rw [List.flatMap_cons, List.append_assoc, List.singleton_append,
      readLines_line hb (by simpa using hfits), ih fun k hk => h k (List.mem_cons_of_mem _ hk)]
    rfl

/-! ### Tokens -/

/-- The non-empty stretches between delimiters. -/
def tokens (delim : Char → Bool) (s : Text) : List Text :=
  (s.splitOnP delim).filter fun t => !t.isEmpty

/-- `MAXTOKENS - 1`: the last entry of the token table is its terminator. -/
def maxTokens : Nat := 255

/-- `split` of common.c and of tcos-net-controller.c. -/
def split (delim : Char → Bool) (s : Text) : List Text := (tokens delim s).take maxTokens

/-- A piece has no delimiter, and its bytes stand in the text. -/
theorem mem_splitOnP {delim : Char → Bool} {s t : Text} (h : t ∈ s.splitOnP delim) :
    (∀ c ∈ t, delim c = false) ∧ t.Sublist s := by
  induction s generalizing t with
  | nil =>
    have ht : t = [] := by simpa using h
    subst ht
    exact ⟨by simp, List.Sublist.refl _⟩
  | cons c s ih =>
    rw [List.splitOnP_cons_eq_if_modifyHead] at h
    split at h
    case isTrue hc =>
      rcases List.mem_cons.mp h with rfl | h
      · exact ⟨by simp, List.nil_sublist _⟩
      · exact ⟨(ih h).1, (ih h).2.cons c⟩
    case isFalse hc =>
      cases hs : s.splitOnP delim with
      | nil => exact absurd hs (List.splitOnP_ne_nil _ _)
      | cons u us =>
        rw [hs, List.modifyHead_cons] at h
        rcases List.mem_cons.mp h with rfl | h
        · obtain ⟨hu, hsub⟩ := ih (hs ▸ List.mem_cons_self ..)
          refine ⟨fun d hd => ?_, hsub.cons_cons c⟩
          rcases List.mem_cons.mp hd with rfl | hd
          · simpa using hc
          · exact hu d hd
        · obtain ⟨ht, hsub⟩ := ih (hs ▸ List.mem_cons_of_mem u h)
          exact ⟨ht, hsub.cons c⟩

theorem mem_tokens {delim : Char → Bool} {s t : Text} (h : t ∈ tokens delim s) :
    t ≠ [] ∧ (∀ c ∈ t, delim c = false) ∧ t.Sublist s := by
  obtain ⟨hsplit, hne⟩ := List.mem_filter.mp h
  exact ⟨by simpa using hne, mem_splitOnP hsplit⟩

@[simp] theorem tokens_nil (delim : Char → Bool) : tokens delim [] = [] := rfl

theorem tokens_delim {delim : Char → Bool} {c : Char} (hc : delim c = true) (s : Text) :
    tokens delim (c :: s) = tokens delim s := by
  simp [tokens, List.splitOnP_cons_eq_if_splitOnPPrepend, hc]

theorem tokens_append {delim : Char → Bool} {t : Text} (ht : ∀ c ∈ t, delim c = false) {c : Char}
    (hc : delim c = true) (s : Text) :
    tokens delim (t ++ c :: s) = (if t = [] then [] else [t]) ++ tokens delim s := by
  have h : (t ++ c :: s).splitOnP delim = t :: s.splitOnP delim :=
    List.splitOnP_append_cons_of_forall_mem ht c hc s
  rw [tokens, h, List.filter_cons]
  cases t <;> simp [tokens]

theorem tokens_single {delim : Char → Bool} {t : Text} (ht : ∀ c ∈ t, delim c = false)
    (hne : t ≠ []) : tokens delim t = [t] := by
  have h : t.splitOnP delim = [t] := List.splitOnP_eq_singleton ht
  rw [tokens, h]
  cases t with
  | nil => exact absurd rfl hne
  | cons c t => rfl

/-- Tokens with a delimiter between each two. -/
theorem tokens_intercalate {delim : Char → Bool} {d : Char} (hd : delim d = true) {ts : List Text}
    (h : ∀ t ∈ ts, t ≠ [] ∧ ∀ c ∈ t, delim c = false) : tokens delim ([d].intercalate ts) = ts := by
  induction ts with
  | nil => rfl
  | cons t ts ih =>
    obtain ⟨⟨hne, ht⟩, hts⟩ := List.forall_mem_cons.mp h
    cases ts with
    | nil => simpa using tokens_single ht hne
    | cons u us =>
      rw [List.intercalate_cons_cons, List.append_assoc, List.singleton_append, tokens_append ht hd,
        if_neg hne, ih hts, List.singleton_append]

theorem tokens_append_delim {delim : Char → Bool} {c : Char} (hc : delim c = true) (s : Text) :
    tokens delim (s ++ [c]) = tokens delim s := by
  rw [tokens, List.splitOnP_append_cons s [] hc]
  simp [tokens]

/-- The tokens hold every byte that is no delimiter. -/
theorem tokens_flatten (delim : Char → Bool) (s : Text) :
    (tokens delim s).flatten = s.filter fun c => !delim c := by
  have hall : ∀ ts : List Text, (ts.filter fun t => !t.isEmpty).flatten = ts.flatten := by
    intro ts
    induction ts with
    | nil => rfl
    | cons t ts ih => cases t <;> simp [ih]
  rw [tokens, hall]
  induction s with
  | nil => rfl
  | cons c s ih =>
    rw [List.splitOnP_cons_eq_if_modifyHead]
    cases hc : delim c with
    | true => simp [hc, ih]
    | false =>
      cases hs : s.splitOnP delim with
      | nil => exact absurd hs (List.splitOnP_ne_nil _ _)
      | cons u us => simp [hc, ← ih, hs]

end Tcos.Libc
