import Tcos.Shell.Parser

/-! Strings in memory: where one ends, `strcat`, and the words of an argument block.

The words of a block stand one after the other, each with its terminator. `Appended` is what some bytes
more at the end of a word do to the memory; `cstr_next` says what is left of the next word. -/
namespace Tcos.Libc
open Shell (Text)

def nul : Char := '\x00'

/-- Beyond what is listed the memory is zero. -/
def byte (mem : Text) (i : Nat) : Char := (mem[i]?).getD nul

def write (mem : Text) (i : Nat) (c : Char) : Text :=
  (mem ++ List.replicate (i + 1 - mem.length) nul).set i c

/-- The string at an address. -/
def cstr (mem : Text) (p : Nat) : Text := (mem.drop p).takeWhile (· != nul)

/-- `strcat` of a string of one byte. -/
def strcat (mem : Text) (p : Nat) (c : Char) : Text :=
  let e := p + (cstr mem p).length
  write (write mem e c) (e + 1) nul

/-- Words as the kernel lays them out. -/
def block (words : List Text) (environment : Text) : Text :=
  words.flatMap (fun w => w ++ [nul]) ++ environment

/-! ### Bytes -/

theorem byte_write (mem : Text) (i : Nat) (c : Char) (j : Nat) :
    byte (write mem i c) j = if j = i then c else byte mem j := by
  unfold byte write
  rw [List.getElem?_set, List.length_append, List.length_replicate]
  by_cases hj : j = i
  · subst hj
    rw [if_pos rfl, if_pos (by omega), if_pos rfl]
    rfl
  · rw [if_neg (Ne.symm hj), if_neg hj]
    by_cases hlt : j < mem.length
    · rw [List.getElem?_append_left hlt]
    · rw [List.getElem?_append_right (by omega), List.getElem?_replicate,
        List.getElem?_eq_none (by omega)]
      split <;> rfl

theorem cstr_step (mem : Text) (p : Nat) :
    cstr mem p = if byte mem p = nul then [] else byte mem p :: cstr mem (p + 1) := by
  unfold cstr byte
  by_cases hp : p < mem.length
  · rw [List.drop_eq_getElem_cons hp, List.takeWhile_cons, List.getElem?_eq_getElem hp, Option.getD_some]
    by_cases hc : mem[p] = nul <;> simp [hc]
  · rw [List.drop_eq_nil_of_le (by omega), List.getElem?_eq_none (by omega)]
    simp

/-- A string by its bytes. -/
theorem cstr_eq {mem : Text} {p : Nat} {t : Text} (ht : nul ∉ t)
    (hbytes : ∀ i, ∀ c ∈ t[i]?, byte mem (p + i) = c) (hend : byte mem (p + t.length) = nul) :
    cstr mem p = t := by
  induction t generalizing p with
  | nil =>
    rw [cstr_step, if_pos]
    simpa using hend
  | cons c t ih =>
    obtain ⟨hc, ht⟩ := not_or.mp (List.mem_cons.not.mp ht)
    have hfirst : byte mem p = c := hbytes 0 c (by simp)
    rw [cstr_step, hfirst, if_neg (Ne.symm hc), ih ht]
    · intro i d hd
      have := hbytes (i + 1) d (by simpa using hd)
      rwa [← Nat.add_assoc, Nat.add_right_comm] at this
    · rw [List.length_cons] at hend
      rw [← hend]
      congr 1
      omega

theorem cstr_bytes {mem : Text} {p : Nat} {t : Text} (h : cstr mem p = t) :
    nul ∉ t ∧ (∀ i, ∀ c ∈ t[i]?, byte mem (p + i) = c) ∧ byte mem (p + t.length) = nul := by
  induction t generalizing p with
  | nil =>
    rw [cstr_step] at h
    refine ⟨by simp, by simp, ?_⟩
    by_contra hne
    rw [List.length_nil, Nat.add_zero] at hne
    simp [hne] at h
  | cons c t ih =>
    rw [cstr_step] at h
    split at h
    · exact absurd h (by simp)
    · rename_i hne
      obtain ⟨rfl, hrest⟩ := List.cons.inj h
      obtain ⟨hno, hbytes, hend⟩ := ih hrest
      refine ⟨fun hmem => (List.mem_cons.mp hmem).elim (fun h => hne h.symm) hno, fun i d hd => ?_, ?_⟩
      · cases i with
        | zero => simpa using hd
        | succ i =>
          have := hbytes i d (by simpa using hd)
          rwa [Nat.add_assoc, Nat.add_comm 1 i] at this
      · rw [← hend, List.length_cons]
        congr 1
        omega

/-- A string depends on nothing before it. -/
theorem cstr_congr {mem mem' : Text} {p : Nat} (h : ∀ i, p ≤ i → byte mem' i = byte mem i) :
    cstr mem' p = cstr mem p := by
  obtain ⟨hno, hbytes, hend⟩ := cstr_bytes (rfl : cstr mem p = cstr mem p)
  refine cstr_eq hno (fun i c hc => ?_) ?_
  · rw [h _ (Nat.le_add_right p i), hbytes i c hc]
  · rw [h _ (Nat.le_add_right p _), hend]

/-! ### Bytes more -/

/-- `k` bytes stand from `n` on, where a terminator was. -/
def Appended (mem : Text) (n : Nat) (c : Char) (k : Nat) (mem' : Text) : Prop := ∀ i,
  byte mem' i = if n ≤ i ∧ i < n + k then c else if 0 < k ∧ i = n + k then nul else byte mem i

theorem Appended.zero (mem : Text) (n : Nat) (c : Char) : Appended mem n c 0 mem := by
  intro i
  rw [if_neg (by omega), if_neg (by omega)]

section Word
variable {mem mem' : Text} {a n k : Nat} {c : Char} {w : Text}

/-- The word, read from any place in it. -/
theorem Appended.cstr (h : Appended mem n c k mem') (hc : c ≠ nul) (hw : cstr mem a = w)
    (hn : n = a + w.length) {j : Nat} (hj : j ≤ w.length + k) : Libc.cstr mem'
    (a + j) = (w ++ List.replicate k c).drop j := by
  obtain ⟨hno, hbytes, hend⟩ := cstr_bytes hw
  refine cstr_eq (fun hmem => ?_) (fun i d hd => ?_) ?_
  · rcases List.mem_append.mp (List.mem_of_mem_drop hmem) with hmem | hmem
    · exact hno hmem
    · exact hc (List.eq_of_mem_replicate hmem).symm
  · rw [Option.mem_def, List.getElem?_drop] at hd
    rw [h]
    by_cases hlt : j + i < w.length
    · rw [List.getElem?_append_left hlt] at hd
      rw [if_neg (by omega), if_neg (by omega), Nat.add_assoc]
      exact hbytes _ d hd
    · rw [List.getElem?_append_right (by omega), List.getElem?_replicate] at hd
      split at hd
      · rename_i hlt'
        rw [if_pos (by omega)]
        exact Option.some.inj hd
      · exact absurd hd (by simp)
  · rw [h, List.length_drop, List.length_append, List.length_replicate]
    rw [if_neg (by omega)]
    by_cases hk : 0 < k
    · rw [if_pos (by omega)]
    · rw [if_neg (by omega)]
      rw [← hend]
      congr 1
      omega

/-- **One more.** -/
theorem Appended.strcat (h : Appended mem n c k mem') (hc : c ≠ nul) (hw : Libc.cstr mem a = w)
    (hn : n = a + w.length) {j : Nat} (hj : j ≤ w.length + k) : Appended mem n c (k + 1)
    (Libc.strcat mem' (a + j) c) := by
  have hlen : (Libc.cstr mem' (a + j)).length = w.length + k - j := by
    rw [h.cstr hc hw hn hj, List.length_drop, List.length_append, List.length_replicate]
  have hplace : a + j + (w.length + k - j) = n + k := by omega
  intro i
  rw [Libc.strcat, hlen, hplace, byte_write, byte_write, h]
  split_ifs <;> first | rfl | omega

/-- **What is left of the next word.** -/
theorem Appended.cstr_next (h : Appended mem n c k mem') (hc : c ≠ nul) (hk : 0 < k) :
    Libc.cstr mem' (n + 1) = List.replicate (k - 1) c := by
  refine cstr_eq (fun hmem => hc (List.eq_of_mem_replicate hmem).symm) (fun i d hd => ?_) ?_
  · rw [Option.mem_def, List.getElem?_replicate] at hd
    split at hd
    · rw [h, if_pos (by omega)]
      exact Option.some.inj hd
    · exact absurd hd (by simp)
  · rw [h, List.length_replicate, if_neg (by omega), if_pos (by omega)]

end Word

/-! ### Words -/

/-- The words stand in memory from this address on. -/
def Holds (mem : Text) : Nat → List Text → Prop
  | _, [] => True
  | a, w :: ws => cstr mem a = w ∧ Holds mem (a + w.length + 1) ws

theorem Holds.congr {mem mem' : Text} {a : Nat} {ws : List Text} (h : Holds mem a ws)
    (hsame : ∀ i, a ≤ i → byte mem' i = byte mem i) : Holds mem' a ws := by
  induction ws generalizing a with
  | nil => trivial
  | cons w ws ih =>
    refine ⟨by rw [cstr_congr hsame]; exact h.1, ih h.2 fun i hi => hsame i (by omega)⟩

/-- What the next word must be to stay as it is. -/
def Lands (c : Char) (k : Nat) (v : Text) : Prop := k = 0 ∨ v = List.replicate (k - 1) c

/-- **The words behind a longer word.** -/
theorem Appended.holds {mem mem' : Text} {n k : Nat} {c : Char} (h : Appended mem n c k mem')
    (hc : c ≠ nul) {v : Text} {ws : List Text} (hold : Holds mem (n + 1) (v :: ws)) :
    (Libc.cstr mem' (n + 1) = v ↔ Lands c k v) ∧ (Lands c k v → Holds mem' (n + 1) (v :: ws)) := by
  by_cases hk : k = 0
  · subst hk
    have hsame : ∀ i, byte mem' i = byte mem i := fun i => by
      rw [h, if_neg (by omega), if_neg (by omega)]
    have hholds := hold.congr fun i _ => hsame i
    exact ⟨⟨fun _ => .inl rfl, fun _ => hholds.1⟩, fun _ => hholds⟩
  · have hnext := h.cstr_next hc (Nat.pos_of_ne_zero hk)
    have hlands : Lands c k v ↔ v = List.replicate (k - 1) c := or_iff_right hk
    refine ⟨by rw [hnext, hlands, eq_comm], fun hv => ⟨?_, ?_⟩⟩
    · rw [hnext, hlands.mp hv]
    · refine hold.2.congr fun i hi => ?_
      rw [hlands.mp hv, List.length_replicate] at hi
      rw [h, if_neg (by omega), if_neg (by omega)]

theorem holds_block {words : List Text} (hwords : ∀ w ∈ words, nul ∉ w) (before environment : Text) :
    Holds (before ++ block words environment) before.length words := by
  induction words generalizing before with
  | nil => trivial
  | cons w ws ih =>
    rw [List.forall_mem_cons] at hwords
    have hform : before ++ block (w :: ws) environment = (before ++ w ++ [nul]) ++
      block ws environment := by
      simp [block]
    have hlen : (before ++ w ++ [nul]).length = before.length + w.length + 1 := by
      rw [List.length_append, List.length_append, List.length_singleton]
    refine ⟨?_, ?_⟩
    · have hdrop : (before ++ block (w :: ws) environment).drop before.length = w ++ nul ::
        block ws environment := by
        simp [block]
      rw [cstr, hdrop, List.takeWhile_append_of_pos fun c hc => ?_]
      · simp
      · simpa using fun h : c = nul => hwords.1 (h ▸ hc)
    · rw [hform, ← hlen]
      exact ih hwords.2 _

end Tcos.Libc
