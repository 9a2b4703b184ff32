import Tcos.Libc.Memory
import Tcos.Libc.Text

/-! `malloc`, `strcpy`, `free` and `strtok`, on memory.

`strtok` ends a token in place and keeps a pointer behind it. `Scanning` says what the calls that
are still to come return, `strtok_first` and `strtok_next` what one call does to it, and `Keeps`
which bytes stay. -/
namespace Tcos.Libc
open Shell (Text)

/-- The memory, the pointer that `strtok` keeps, and how often memory was asked for. -/
structure Process where
  mem : Text
  saved : Nat := 0
  mallocs : Nat := 0

structure Allocator where
  /-- Whether a request succeeds. -/
  gives : Nat → Bool
  /-- What stands at an address that nothing was written to. -/
  junk : Nat → Char

def Allocator.fresh (A : Allocator) (p size : Nat) : Text := (List.range' p size).map A.junk

def Allocator.malloc (A : Allocator) (m : Process) (size : Nat) : Process × Option Nat :=
  if A.gives m.mallocs then
    ({ m with mem := m.mem ++ A.fresh m.mem.length size, mallocs := m.mallocs + 1 }, some m.mem.length)
  else ({ m with mallocs := m.mallocs + 1 }, none)

/-- Bytes in the place of others. -/
def overlay (mem : Text) (p : Nat) (t : Text) : Text := mem.take p ++ t ++ mem.drop (p + t.length)

def strcpy (m : Process) (dest src : Nat) : Process :=
  { m with mem := overlay m.mem dest (cstr m.mem src ++ [nul]) }

/-- The block of this size is given back. -/
def Allocator.free (A : Allocator) (m : Process) (p size : Nat) : Process :=
  { m with mem := overlay m.mem p (A.fresh p size) }

/-- The token that starts here is ended, in place if it is not the last. -/
def endToken (delim : Char → Bool) (m : Process) (start : Nat) : Process :=
  let stop := start + ((cstr m.mem start).takeWhile fun c => !delim c).length
  if byte m.mem stop = nul then { m with saved := stop }
  else { m with mem := write m.mem stop nul, saved := stop + 1 }

/-- `none` is `NULL`. -/
def strtok (delim : Char → Bool) (m : Process) (s : Option Nat) : Process × Option Nat :=
  let p := s.getD m.saved
  let start := p + ((cstr m.mem p).takeWhile delim).length
  if byte m.mem start = nul then ({ m with saved := start }, none)
    else (endToken delim m start, some start)

/-! ### Bytes -/

theorem byte_append_left {mem : Text} {i : Nat} (h : i < mem.length) (t : Text) :
    byte (mem ++ t) i = byte mem i := by
  unfold byte
  rw [List.getElem?_append_left h]

theorem length_overlay {mem : Text} {p : Nat} {t : Text} (h : p + t.length ≤ mem.length) :
    (overlay mem p t).length = mem.length := by
  simp only [overlay, List.length_append, List.length_take, List.length_drop]
  omega

theorem byte_overlay {mem : Text} {p : Nat} {t : Text} (h : p + t.length ≤ mem.length) (i : Nat) :
    byte (overlay mem p t) i = if p ≤ i ∧ i < p + t.length then byte t (i - p) else byte mem i := by
  have hp : (mem.take p).length = p := by
    rw [List.length_take]
    omega
  unfold byte overlay
  by_cases hi : i < p
  · rw [if_neg (by omega), List.getElem?_append_left (by simp only [List.length_append]; omega),
      List.getElem?_append_left (by omega), List.getElem?_take_of_lt hi]
  · by_cases ht : i < p + t.length
    · rw [if_pos ⟨by omega, ht⟩, List.getElem?_append_left (by simp only [List.length_append]; omega),
        List.getElem?_append_right (by omega), hp]
    · rw [if_neg (by omega), List.getElem?_append_right (by simp only [List.length_append]; omega),
        List.length_append, hp, List.getElem?_drop]
      congr 2
      omega

theorem length_write {mem : Text} {i : Nat} (h : i < mem.length) (c : Char) :
    (write mem i c).length = mem.length := by
  simp only [write, List.length_set, List.length_append, List.length_replicate]
  omega

/-- A string from a place in it. -/
theorem cstr_add {mem : Text} {p k : Nat} (h : k ≤ (cstr mem p).length) :
    cstr mem (p + k) = (cstr mem p).drop k := by
  obtain ⟨hno, hbytes, hend⟩ := cstr_bytes (rfl : cstr mem p = cstr mem p)
  refine cstr_eq (fun hmem => hno (List.mem_of_mem_drop hmem)) (fun i c hc => ?_) ?_
  · rw [Option.mem_def, List.getElem?_drop] at hc
    rw [Nat.add_assoc]
    exact hbytes _ c hc
  · rw [← hend, List.length_drop]
    congr 1
    omega

theorem byte_cstr {mem : Text} {p : Nat} : byte mem p = nul ↔ cstr mem p = [] := by
  rw [cstr_step]
  split <;> simp_all

/-- The bytes of a string and its terminator. -/
theorem byte_string {mem : Text} {p : Nat} {t : Text} (h : cstr mem p = t) {i : Nat}
    (hi : i ≤ t.length) : byte mem (p + i) = t.getD i nul := by
  obtain ⟨-, hbytes, hend⟩ := cstr_bytes h
  rw [List.getD_eq_getElem?_getD]
  rcases Nat.lt_or_eq_of_le hi with hlt | rfl
  · have hsome := List.getElem?_eq_getElem hlt
    rw [hsome]
    exact hbytes i _ hsome
  · rw [List.getElem?_eq_none (Nat.le_refl _)]
    exact hend

/-! ### What stays -/

/-- The memory grows, and of the old bytes only those from `w` to before `e` change. -/
structure Keeps (w e : Nat) (m m' : Process) : Prop where
  grown : m.mem.length ≤ m'.mem.length
  same : ∀ i < m.mem.length, ¬ (w ≤ i ∧ i < e) → byte m'.mem i = byte m.mem i

theorem Keeps.of_mem {w e : Nat} {m m' : Process} (h : m'.mem = m.mem) : Keeps w e m m' :=
  ⟨by rw [h], fun i _ _ => by rw [h]⟩

theorem Keeps.trans {w e : Nat} {m m' m'' : Process} (h : Keeps w e m m') (h' : Keeps w e m' m'') :
    Keeps w e m m'' :=
  ⟨h.grown.trans h'.grown, fun i hi hout => (h'.same i (Nat.lt_of_lt_of_le hi h.grown) hout).trans
    (h.same i hi hout)⟩

/-- The string at an address is in memory, with its terminator. -/
def IsString (m : Process) (p : Nat) : Prop := p + (cstr m.mem p).length < m.mem.length

/-- A string that is out of the way. -/
theorem Keeps.cstr {w e : Nat} {m m' : Process} (h : Keeps w e m m') {p : Nat} (hp : IsString m p)
    (hout : e ≤ p ∨ p + (cstr m.mem p).length < w) : Libc.cstr m'.mem p = Libc.cstr m.mem p := by
  obtain ⟨hno, hbytes, hend⟩ := cstr_bytes (rfl : Libc.cstr m.mem p = Libc.cstr m.mem p)
  unfold IsString at hp
  refine cstr_eq hno (fun i c hc => ?_) ?_
  · have hi := (List.getElem?_eq_some_iff.mp hc).1
    rw [h.same _ (by omega) (by omega)]
    exact hbytes i c hc
  · rw [h.same _ (by omega) (by omega), hend]

theorem Keeps.isString {w e : Nat} {m m' : Process} (h : Keeps w e m m') {p : Nat} (hp : IsString m p)
    (hout : e ≤ p ∨ p + (Libc.cstr m.mem p).length < w) : IsString m' p := by
  unfold IsString
  rw [h.cstr hp hout]
  exact Nat.lt_of_lt_of_le hp h.grown

theorem Keeps.malloc (A : Allocator) (m : Process) (size w e : Nat) :
    Keeps w e m (A.malloc m size).1 := by
  unfold Allocator.malloc
  split
  · exact ⟨by simp, fun i hi _ => byte_append_left hi _⟩
  · exact Keeps.of_mem rfl

/-! ### Copies -/

/-- The process with a copy of a string behind everything else. -/
def Process.push (m : Process) (t : Text) : Process :=
  { m with mem := m.mem ++ (t ++ [nul]), mallocs := m.mallocs + 1 }

theorem length_push (m : Process) (t : Text) : (m.push t).mem.length = m.mem.length + t.length + 1 := by
  simp [Process.push, Nat.add_assoc]

theorem cstr_push (m : Process) {t : Text} (ht : nul ∉ t) : cstr (m.push t).mem m.mem.length = t := by
  have hall : ∀ c ∈ t, (c != nul) = true := fun c hc => by
    rw [bne_iff_ne]
    rintro rfl
    exact ht hc
  rw [cstr, Process.push, List.drop_left, List.takeWhile_append_of_pos hall]
  simp

theorem Keeps.push (w e : Nat) (m : Process) (t : Text) : Keeps w e m (m.push t) := by
  refine ⟨?_, fun i hi _ => byte_append_left hi _⟩
  rw [length_push]
  omega

theorem isString_push (m : Process) {t : Text} (ht : nul ∉ t) : IsString (m.push t) m.mem.length := by
  unfold IsString
  rw [cstr_push m ht, length_push]
  exact Nat.lt_succ_self _

/-- **A block of the right size, and the string copied into it.** -/
theorem strcpy_malloc {A : Allocator} {m : Process} (hA : A.gives m.mallocs = true) {src : Nat}
    (hsrc : IsString m src) : (A.malloc m ((cstr m.mem src).length + 1)).2 = some m.mem.length ∧
      strcpy (A.malloc m ((cstr m.mem src).length + 1)).1 m.mem.length src = m.push
      (cstr m.mem src) := by
  have hkeeps := Keeps.malloc A m ((cstr m.mem src).length + 1) 0 0
  have hstring := hkeeps.cstr hsrc (.inl (Nat.zero_le src))
  rw [Allocator.malloc, if_pos hA] at hstring ⊢
  refine ⟨rfl, ?_⟩
  have hover : overlay (m.mem ++ A.fresh m.mem.length ((cstr m.mem src).length + 1)) m.mem.length
    (cstr m.mem src ++ [nul]) =
      m.mem ++ (cstr m.mem src ++ [nul]) := by
    rw [overlay, List.take_left, List.drop_eq_nil_of_le, List.append_nil]
    simp [Allocator.fresh]
  rw [strcpy, hstring, hover]
  rfl

/-- What is given back is lost, and nothing else. -/
theorem Keeps.free (A : Allocator) {m : Process} {p size : Nat} (h : p + size ≤ m.mem.length) :
    Keeps p (p + size) m (A.free m p size) := by
  have hlen : (A.fresh p size).length = size := by simp [Allocator.fresh]
  have hfits : p + (A.fresh p size).length ≤ m.mem.length := by rwa [hlen]
  refine ⟨(length_overlay hfits).ge, fun i _ hout => ?_⟩
  rw [Allocator.free, byte_overlay hfits, hlen, if_neg hout]

/-! ### Tokens -/

theorem drop_takeWhile {α : Type} (p : α → Bool) (s : List α) :
    s.drop (s.takeWhile p).length = s.dropWhile p := by
  have h := List.takeWhile_append_dropWhile (p := p) (l := s)
  generalize s.takeWhile p = t, s.dropWhile p = u at h ⊢
  rw [← h, List.drop_left]

theorem tokens_dropWhile (delim : Char → Bool) (s : Text) : tokens delim
    (s.dropWhile delim) = tokens delim s := by
  induction s with
  | nil => rfl
  | cons c s ih =>
    rw [List.dropWhile_cons]
    split
    · rw [ih, tokens_delim ‹_›]
    · rfl

/-- What `strtok` returned last, and what it is to return until the end at `e`. -/
inductive Scanning (delim : Char → Bool) (m : Process) (w e : Nat) : List Text → Option Nat → Prop where
  | done : Scanning delim m w e [] none
  | token {t : Text} {ts : List Text} {p : Nat} (hread : cstr m.mem p = t) (hw : w ≤ p)
      (hsaved : p + t.length ≤ m.saved) (hend : m.saved + (cstr m.mem m.saved).length = e)
      (hrest : tokens delim (cstr m.mem m.saved) = ts) : Scanning delim m w e (t :: ts) (some p)

/-- The token that was returned. -/
theorem Scanning.read {delim : Char → Bool} {m : Process} {w e : Nat} {t : Text} {ts : List Text}
    {token : Option Nat} (h : Scanning delim m w e (t :: ts) token) : ∃ p, token = some p ∧
    cstr m.mem p = t ∧ p + t.length ≤ e := by
  cases h with
  | token hread hw hsaved hend hrest => exact ⟨_, rfl, hread, by omega⟩

/-- Copies behind the end do not matter. -/
theorem Scanning.push {delim : Char → Bool} {m : Process} {w e : Nat} {ts : List Text}
    {token : Option Nat} (h : Scanning delim m w e ts token) (he : e < m.mem.length) (t : Text) :
    Scanning delim (m.push t) w e ts token := by
  have hsame : ∀ p, p + (cstr m.mem p).length ≤ e → cstr (m.push t).mem p = cstr m.mem p := fun p hp =>
    (Keeps.push 0 0 m t).cstr (Nat.lt_of_le_of_lt hp he) (.inl (Nat.zero_le p))
  cases h with
  | done => exact .done
  | token hread hw hsaved hend hrest =>
    have hrestsame : cstr (m.push t).mem m.saved = cstr m.mem m.saved := hsame _ hend.le
    refine .token ?_ hw hsaved ?_ ?_
    · rw [hsame _ (by rw [hread]; omega), hread]
    · show m.saved + (cstr (m.push t).mem m.saved).length = e
      rw [hrestsame, hend]
    · show tokens delim (cstr (m.push t).mem m.saved) = _
      rw [hrestsame, hrest]

/-- A string that is ended early, and what is left of it. -/
theorem cstr_write_nul {mem : Text} {p : Nat} {t rest : Text} {d : Char}
    (h : cstr mem p = t ++ d :: rest) : cstr (write mem (p + t.length) nul) p = t ∧
    cstr (write mem (p + t.length) nul) (p + t.length + 1) = rest := by
  obtain ⟨hno, hbytes, -⟩ := cstr_bytes h
  constructor
  · refine cstr_eq (fun hmem => hno (List.mem_append_left _ hmem)) (fun i c hc => ?_) ?_
    · have hi := (List.getElem?_eq_some_iff.mp hc).1
      rw [byte_write, if_neg (by omega)]
      exact hbytes i c (by rwa [List.getElem?_append_left hi])
    · rw [byte_write, if_pos rfl]
  · have hbehind : cstr mem (p + (t.length + 1)) = rest := by
      rw [cstr_add (by rw [h]; simp), h]
      simp
    have hsame : ∀ i, p + t.length + 1 ≤ i → byte (write mem (p + t.length) nul) i = byte mem i :=
      fun i hi => by
      rw [byte_write, if_neg (by omega)]
    rw [cstr_congr hsame, Nat.add_assoc, hbehind]

/-- What a call does. -/
structure Scans (delim : Char → Bool) (m : Process) (w e : Nat) (ts : List Text)
    (r : Process × Option Nat) : Prop where
  scanning : Scanning delim r.1 w e ts r.2
  keeps : Keeps w e m r.1
  length : r.1.mem.length = m.mem.length
  mallocs : r.1.mallocs = m.mallocs

section Call
variable {delim : Char → Bool} {m : Process} {w e : Nat}

theorem endToken_scans {start : Nat} (hw : w ≤ start) (hend : start + (cstr m.mem start).length = e)
    (he : e < m.mem.length) (hne : cstr m.mem start ≠ [])
    (hstart : ∀ c, (cstr m.mem start).head? = some c → delim c = false) :
    Scans delim m w e (tokens delim (cstr m.mem start)) (endToken delim m start, some start) := by
  have ht : ∀ c ∈ (cstr m.mem start).takeWhile fun c => !delim c, delim c = false := fun c hc => by
    simpa using List.mem_takeWhile_imp hc
  have htne : ((cstr m.mem start).takeWhile fun c => !delim c) ≠ [] := by
    obtain ⟨c, rest, hc⟩ := List.exists_cons_of_ne_nil hne
    rw [hc, List.takeWhile_cons, hstart c (by rw [hc]; rfl)]
    simp
  have hsplit := List.takeWhile_append_dropWhile (p := fun c => !delim c) (l := cstr m.mem start)
  have hnext := List.head?_dropWhile_not (fun c => !delim c) (cstr m.mem start)
  rw [← drop_takeWhile, ← cstr_add (List.takeWhile_prefix _).length_le] at hsplit hnext
  have hplace := congrArg List.length hsplit
  rw [List.length_append] at hplace
  unfold endToken
  generalize (cstr m.mem start).takeWhile (fun c => !delim c) = t at ht htne hsplit hnext hplace ⊢
  by_cases hnul : byte m.mem (start + t.length) = nul
  · -- the last token
    have hnil := byte_cstr.mp hnul
    rw [hnil, List.append_nil] at hsplit
    rw [if_pos hnul, ← hsplit, tokens_single ht htne]
    refine ⟨.token hsplit.symm hw (Nat.le_refl _) ?_ ?_, Keeps.of_mem rfl, rfl, rfl⟩
    · show start + t.length + (cstr m.mem (start + t.length)).length = e
      omega
    · show tokens delim (cstr m.mem (start + t.length)) = []
      rw [hnil]
      rfl
  · obtain ⟨d, rest, hcons⟩ := List.exists_cons_of_ne_nil (mt byte_cstr.mpr hnul)
    rw [hcons] at hsplit hnext hplace
    rw [List.length_cons] at hplace
    have hd : delim d = true := by simpa using hnext
    have hstop : start + t.length < m.mem.length := by omega
    obtain ⟨htoken, hrest⟩ := cstr_write_nul hsplit.symm
    rw [if_neg hnul, ← hsplit, tokens_append ht hd, if_neg htne, List.singleton_append]
    refine ⟨.token htoken hw (Nat.le_succ _) ?_ ?_, ⟨(length_write hstop nul).ge, fun i hi hout => ?_⟩,
      length_write hstop nul, rfl⟩
    · show start + t.length + 1 +
        (cstr (write m.mem (start + t.length) nul) (start + t.length + 1)).length = e
      rw [hrest]
      omega
    · show tokens delim (cstr (write m.mem (start + t.length) nul) (start + t.length + 1)) = _
      rw [hrest]
    · rw [byte_write, if_neg (by omega)]

/-- **One call scans on from where it starts.** -/
theorem strtok_first {p : Nat} (hw : w ≤ p) (hend : p + (cstr m.mem p).length = e)
    (he : e < m.mem.length) : Scans delim m w e (tokens delim (cstr m.mem p))
    (strtok delim m (some p)) := by
  have hstart : cstr m.mem (p + ((cstr m.mem p).takeWhile delim).length) =
    (cstr m.mem p).dropWhile delim := by
    rw [cstr_add (List.takeWhile_prefix delim).length_le, drop_takeWhile]
  have hplace : p + ((cstr m.mem p).takeWhile delim).length +
    ((cstr m.mem p).dropWhile delim).length = e := by
    rw [Nat.add_assoc, ← List.length_append, List.takeWhile_append_dropWhile, hend]
  have hfirst := List.head?_dropWhile_not delim (cstr m.mem p)
  have hle := Nat.le_add_right p ((cstr m.mem p).takeWhile delim).length
  rw [← tokens_dropWhile delim (cstr m.mem p)]
  rw [← hstart] at hplace hfirst ⊢
  simp only [strtok, Option.getD_some]
  generalize p + ((cstr m.mem p).takeWhile delim).length = start at hplace hfirst hle ⊢
  by_cases hnul : byte m.mem start = nul
  · rw [if_pos hnul, byte_cstr.mp hnul]
    exact ⟨.done, Keeps.of_mem rfl, rfl, rfl⟩
  · rw [if_neg hnul]
    refine endToken_scans (hw.trans hle) hplace he (mt byte_cstr.mpr hnul) fun c hc => ?_
    rw [hc] at hfirst
    simpa using hfirst

/-- The call after a token. -/
theorem strtok_next {t : Text} {ts : List Text} {p : Nat} (h : Scanning delim m w e (t :: ts) (some p))
    (he : e < m.mem.length) : Scans delim m w e ts (strtok delim m none) := by
  cases h with
  | token hread hw hsaved hend hrest =>
    have hle : w ≤ m.saved := by omega
    have hfirst := @strtok_first delim m w e m.saved hle hend he
    rwa [hrest] at hfirst

end Call

end Tcos.Libc
