import Tcos.Libc.Strtok

/-! `split` of common.c; tcos-net-controller.c has a copy of it.

The tokens are taken from a working copy, and each is copied behind a pointer of the table. The last
pointer stays `NULL`. `split_tokens` says what stands in the table. -/
namespace Tcos.Libc.Split
open Shell (Text)

/-- `MAXTOKENS`. -/
def tableSize : Nat := maxTokens + 1

/-- The loop. A copy that can not be made is tried again. -/
def fill (A : Allocator) (delim : Char → Bool) :
    Nat → Process → List (Option Nat) → Nat → Option Nat → Option (Process × List (Option Nat))
  | 0, _, _, _, _ => none
  | _ + 1, m, tokens, _, none => some (m, tokens)
  | fuel + 1, m, tokens, idx, some token =>
    if idx < tableSize - 1 then
      let r := A.malloc m ((cstr m.mem token).length + 1)
      match r.2 with
      | some q =>
        let next := strtok delim (strcpy r.1 q token) none
        fill A delim fuel next.1 (tokens.set idx (some q)) (idx + 1) next.2
      | none => fill A delim fuel r.1 (tokens.set idx none) idx (some token)
    else some (m, tokens)

/-- The table, or `NULL`, if the function ends. -/
def split (A : Allocator) (delim : Char → Bool) (fuel : Nat) (m : Process) (string : Nat) :
    Option (Process × Option (List (Option Nat))) :=
  let table := A.malloc m (8 * tableSize)
  match table.2 with
  | none => some (table.1, none)
  | some _ =>
    let size := (cstr table.1.mem string).length + 1
    let copy := A.malloc table.1 size
    match copy.2 with
    | none => some (copy.1, none)
    | some working =>
      let first := strtok delim (strcpy copy.1 working string) (some working)
      (fill A delim fuel first.1 (List.replicate tableSize none) 0 first.2).map fun r =>
        (A.free r.1 working size, some r.2)

/-- The strings of a table, and `NULL` behind them. -/
def array (ts : List Text) : List (Option Text) :=
  ts.map some ++ List.replicate (tableSize - ts.length) none

/-- The function ends with this array, and what was in memory stays. -/
def Splits (A : Allocator) (delim : Char → Bool) (m : Process) (string : Nat)
    (entries : List (Option Text)) : Prop :=
  ∀ fuel, tableSize ≤ fuel → ∃ m' table, split A delim fuel m string = some (m', some table) ∧
    table.map (Option.map (cstr m'.mem)) = entries ∧ ∀ i < m.mem.length, byte m'.mem i = byte m.mem i

/-! ### The loop -/

/-- The first pointers of the table are set. -/
def pointers (qs : List Nat) : List (Option Nat) :=
  qs.map some ++ List.replicate (tableSize - qs.length) none

theorem pointers_set {qs : List Nat} (h : qs.length < tableSize) (q : Nat) :
    (pointers qs).set qs.length (some q) = pointers (qs ++ [q]) := by
  obtain ⟨k, hk⟩ : ∃ k, tableSize - qs.length = k + 1 := Nat.exists_eq_add_one.mpr (by omega)
  have hrest : tableSize - (qs ++ [q]).length = k := by
    rw [List.length_append, List.length_singleton]
    omega
  rw [pointers, pointers, hrest, hk, List.replicate_succ, List.set_append_right _ _ (by simp)]
  simp

theorem pointers_read (f : Nat → Text) (qs : List Nat) :
    (pointers qs).map (Option.map f) = array (qs.map f) := by
  simp [pointers, array, Function.comp_def]

/-- A turn puts a copy of the token at the end of memory, and its pointer into the table. -/
theorem fill_token {A : Allocator} (hA : ∀ k, A.gives k = true) {delim : Char → Bool} {m : Process}
    {p : Nat} (hp : IsString m p) {qs : List Nat} (hroom : qs.length < maxTokens) (fuel : Nat) :
    fill A delim (fuel + 1) m (pointers qs) qs.length (some p) =
      let next := strtok delim (m.push (cstr m.mem p)) none
      fill A delim fuel next.1 (pointers (qs ++ [m.mem.length])) (qs ++ [m.mem.length]).length next.2 := by
  have hstop : tableSize = maxTokens + 1 := rfl
  obtain ⟨hgiven, hcopy⟩ := strcpy_malloc (hA _) hp
  rw [fill, if_pos (by omega)]
  simp only [hgiven, hcopy]
  rw [pointers_set (by omega), List.length_append, List.length_singleton]

/-- **The loop copies the tokens as long as there is room.** -/
theorem fill_tokens {A : Allocator} (hA : ∀ k, A.gives k = true) {delim : Char → Bool} {w e : Nat}
    {ts : List Text} {m : Process} {token : Option Nat} (h : Scanning delim m w e ts token)
    (he : e < m.mem.length) {qs : List Nat} (hqs : qs.length < tableSize) {fuel : Nat}
    (hfuel : tableSize ≤ fuel + qs.length) : ∃ m' new, fill A delim fuel m
    (pointers qs) qs.length token = some (m', pointers (qs ++ new)) ∧
      new.map (cstr m'.mem) = ts.take (maxTokens - qs.length) ∧ Keeps w e m m' ∧
      ∀ q ∈ new, m.mem.length ≤ q ∧ IsString m' q := by
  have hstop : tableSize = maxTokens + 1 := rfl
  induction ts generalizing m token qs fuel with
  | nil =>
    obtain ⟨fuel, rfl⟩ : ∃ k, fuel = k + 1 := Nat.exists_eq_add_one.mpr (by omega)
    cases h
    exact ⟨m, [], by rw [fill, List.append_nil], by simp, Keeps.of_mem rfl, by simp⟩
  | cons t ts ih =>
    obtain ⟨fuel, rfl⟩ : ∃ k, fuel = k + 1 := Nat.exists_eq_add_one.mpr (by omega)
    obtain ⟨p, rfl, hread, hle⟩ := h.read
    by_cases hroom : qs.length < maxTokens
    · have hp : IsString m p := by
        unfold IsString
        rw [hread]
        omega
      have ht : nul ∉ t := (cstr_bytes hread).1
      have hpushed : e < (m.push t).mem.length := by
        rw [length_push]
        omega
      have hnext := strtok_next (h.push he t) hpushed
      have hlength : (qs ++ [m.mem.length]).length = qs.length + 1 := List.length_append
      have hfilled : (qs ++ [m.mem.length]).length < tableSize := by omega
      have hmore : tableSize ≤ fuel + (qs ++ [m.mem.length]).length := by omega
      obtain ⟨m', new, hrun, htokens, hkeeps, hplaces⟩ :=
        ih hnext.scanning (by rw [hnext.length]; exact hpushed) hfilled hmore
      -- the copy that was made, at the end
      have hsince := hnext.keeps.trans hkeeps
      have hstring := isString_push m ht
      refine ⟨m', m.mem.length :: new, ?_, ?_, (Keeps.push w e m t).trans hsince, fun q hq => ?_⟩
      · rw [fill_token hA hp hroom, hread]
        simpa using hrun
      · have hfirst : maxTokens - qs.length = maxTokens - (qs.length + 1) + 1 := by omega
        rw [List.map_cons, hsince.cstr hstring (.inl he.le), cstr_push m ht, hfirst,
          List.take_succ_cons, htokens]
        simp
      · rcases List.mem_cons.mp hq with rfl | hq
        · exact ⟨Nat.le_refl _, hsince.isString hstring (.inl he.le)⟩
        · obtain ⟨hle, hstr⟩ := hplaces q hq
          rw [hnext.length, length_push] at hle
          exact ⟨by omega, hstr⟩
    · refine ⟨m, [], ?_, ?_, Keeps.of_mem rfl, by simp⟩
      · rw [fill, if_neg (by omega), List.append_nil]
      · rw [show maxTokens - qs.length = 0 by omega]
        rfl

/-! ### The function -/

/-- **The function copies the tokens of the string.** -/
theorem splits_tokens {A : Allocator} (hA : ∀ k, A.gives k = true) (delim : Char → Bool) {m : Process}
    {string : Nat} (hstring : IsString m string) : Splits A delim m string
    (array (Libc.split delim (cstr m.mem string))) := by
  intro fuel hfuel
  have htable := Keeps.malloc A m (8 * tableSize) 0 0
  have hgiven : (A.malloc m (8 * tableSize)).2 = some m.mem.length := by
    rw [Allocator.malloc, if_pos (hA _)]
  have hsame := htable.cstr hstring (.inl (Nat.zero_le _))
  have hstring' := htable.isString hstring (.inl (Nat.zero_le _))
  simp only [split, hgiven]
  rw [← hsame]
  generalize (A.malloc m (8 * tableSize)).1 = m₁ at htable hstring'
  obtain ⟨hworking, hcopy⟩ := strcpy_malloc (hA _) hstring'
  simp only [hworking, hcopy]
  have hno : nul ∉ cstr m₁.mem string := (cstr_bytes rfl).1
  have hlen := length_push m₁ (cstr m₁.mem string)
  have hread := cstr_push m₁ hno
  generalize cstr m₁.mem string = s at hno hlen hread ⊢
  have hend : m₁.mem.length + (cstr (m₁.push s).mem m₁.mem.length).length = m₁.mem.length +
    s.length := by rw [hread]
  have hfirst := @strtok_first delim (m₁.push s) _ _ _ (Nat.le_refl _) hend (by omega)
  rw [hread] at hfirst
  have hbehind : m₁.mem.length + s.length <
    (strtok delim (m₁.push s) (some m₁.mem.length)).1.mem.length := by
    rw [hfirst.length]
    omega
  obtain ⟨m₂, qs, hrun, htokens, hkeeps, hplaces⟩ :=
    @fill_tokens A hA _ _ _ _ _ _ hfirst.scanning hbehind [] (by decide) _ hfuel
  have hgrown := hkeeps.grown
  have hfree := @Keeps.free A m₂ m₁.mem.length (s.length + 1) (by omega)
  rw [List.nil_append] at hrun
  refine ⟨_, _, congrArg (Option.map _) hrun, ?_, fun i hi => ?_⟩
  · have hread' : qs.map (cstr (A.free m₂ m₁.mem.length (s.length + 1)).mem) = qs.map (cstr m₂.mem) := by
      refine List.map_congr_left fun q hq => ?_
      obtain ⟨hle, hstr⟩ := hplaces q hq
      rw [hfirst.length] at hle
      exact hfree.cstr hstr (.inl (by omega))
    rw [pointers_read, hread', htokens]
    rfl
  · have hold := htable.grown
    rw [hfree.same i (by omega) (by omega), hkeeps.same i (by rw [hfirst.length]; omega) (by omega),
      hfirst.keeps.same i (by omega) (by omega), (Keeps.push 0 0 m₁ s).same i (by omega) (by omega),
      htable.same i hi (by omega)]


theorem array_last {ts : List Text} (h : ts.length ≤ maxTokens) : (array ts).getLast? = some none := by
  obtain ⟨k, hk⟩ : ∃ k, tableSize - ts.length = k + 1 :=
    Nat.exists_eq_add_one.mpr (by unfold tableSize; omega)
  rw [array, hk, List.replicate_succ', ← List.append_assoc, List.getLast?_concat]

/-- Tokens that are joined by a delimiter are the same tokens. -/
theorem tokens_joined {delim : Char → Bool} {d : Char} (hd : delim d = true) (s : Text) :
    (tokens delim ([d].intercalate ((tokens delim s).take maxTokens))).take maxTokens =
      (tokens delim s).take maxTokens := by
  rw [tokens_intercalate hd, List.take_take, Nat.min_self]
  intro t ht
  obtain ⟨hne, hplain, -⟩ := mem_tokens (List.mem_of_mem_take ht)
  exact ⟨hne, hplain⟩

/-- **The array has the first tokens of the string, in order, and ends with `NULL`; the string
stays, and the tokens, joined by a delimiter, give the same array.** -/
theorem split_tokens {A : Allocator} (hA : ∀ k, A.gives k = true) (delim : Char → Bool) {m : Process}
    {string : Nat} (hstring : IsString m string) : Splits A delim m string
    (array ((tokens delim (cstr m.mem string)).take maxTokens)) ∧
      (array ((tokens delim (cstr m.mem string)).take maxTokens)).getLast? = some none ∧
      ∀ d, delim d = true → ∀ m' joined, IsString m' joined →
        cstr m'.mem joined = [d].intercalate ((tokens delim (cstr m.mem string)).take maxTokens) →
          Splits A delim m' joined (array ((tokens delim (cstr m.mem string)).take maxTokens)) := by
  refine ⟨splits_tokens hA delim hstring, array_last (List.length_take_le _ _),
    fun d hd m' joined hjoined htext => ?_⟩
  have h : Splits A delim m' joined (array ((tokens delim (cstr m'.mem joined)).take maxTokens)) :=
    splits_tokens hA delim hjoined
  rwa [htext, tokens_joined hd] at h

/-- `ls -l`, in memory. -/
def command : Process where
  mem := ['l', 's', ' ', '-', 'l', nul]

theorem split_tokens_command :
    Splits ⟨fun _ => true, fun _ => '?'⟩ (· == ' ') command 0 (array [['l', 's'], ['-', 'l']]) :=
  (@split_tokens ⟨fun _ => true, fun _ => '?'⟩ (fun _ => rfl) (· == ' ') command 0
    (by unfold IsString; decide)).1

end Tcos.Libc.Split
