import Tcos.Shell.Fields
import Tcos.Xmlrpc.Common

/-! The password file, read by validate-tcos.c.

The file has one line, the user name and the hash with a colon between them.
`validate_written` says for which users and hashes the line is read as it was written. -/
namespace Tcos.Passwd
open Shell (Text lit)
open Libc

/-! ### Names and hashes -/

structure UserName where
  name : Text
  some : name ≠ []
  chars : ∀ c ∈ name, c ≠ ':' ∧ c.isWhitespace = false

structure Password where
  text : Text
  some : text ≠ []
  oneLine : '\n' ∉ text

/-- What `crypt` returns. -/
@[ext] structure Hash where
  text : Text
  some : text ≠ []
  chars : ∀ c ∈ text, c ≠ ':' ∧ c ≠ '\n'

instance : DecidableEq Hash := fun _ _ => decidable_of_iff' _ Hash.ext_iff

/-- `crypt(…, PASS_ID)`. -/
abbrev Crypt := Text → Hash

/-! ### The reader -/

def loginOk : Text := lit "ok"

def loginNoUser : Text := lit "error: User not allowed"

def loginNoPass : Text := lit "error: Password not valid"

/-- The user and the hash that `validate_tcos` finds in the file. Of the hash the last byte
is dropped; a field that is missing is whatever its pointer points to. -/
def readLogin (stray file : Text) : Text × Text :=
  match split (· == ':') (fgets Xmlrpc.bsize file) with
  | [] => (stray, stray)
  | [user] => (user, stray)
  | user :: pass :: _ => (user, pass.dropLast)

def validateTcos (crypt : Crypt) (stray file user pass : Text) : Text :=
  let login := readLogin stray file
  if login.1 ≠ user then loginNoUser
  else if login.2 = (crypt pass).text then loginOk
  else loginNoPass

/-- The file lets in this user with what has the hash of this password, and nobody else. -/
def LogsIn (crypt : Crypt) (file : Text) (u : UserName) (p : Password) : Prop :=
  ∀ stray user pass, validateTcos crypt stray file user pass = loginOk ↔
    user = u.name ∧ crypt pass = crypt p.text

/-! ### What is read -/

theorem login_answers : loginNoUser ≠ loginOk ∧ loginNoPass ≠ loginOk :=
  ⟨by with_unfolding_all decide, by with_unfolding_all decide⟩

theorem Hash.ext_text {h k : Hash} (heq : h.text = k.text) : h = k := by
  cases h
  cases k
  simp_all

theorem validate_iff (crypt : Crypt) (stray file user pass : Text) :
    validateTcos crypt stray file user pass = loginOk ↔
      readLogin stray file = (user, (crypt pass).text) := by
  obtain ⟨hu, hp⟩ := login_answers
  simp only [validateTcos, Prod.ext_iff]
  split
  · grind
  · split <;> grind

/-- The file lets in the right ones exactly if its line is that of the user and the hash. -/
theorem logsIn_iff (crypt : Crypt) (file : Text) (u : UserName) (p : Password) :
    LogsIn crypt file u p ↔ ∀ stray, readLogin stray file = (u.name, (crypt p.text).text) := by
  constructor
  · intro h stray
    exact (validate_iff ..).mp ((h stray _ _).mpr ⟨rfl, rfl⟩)
  · intro h stray user pass
    rw [validate_iff, h stray, Prod.ext_iff]
    constructor
    · rintro ⟨hu, hp⟩
      exact ⟨hu.symm, (Hash.ext_text hp).symm⟩
    · rintro ⟨hu, hp⟩
      exact ⟨hu.symm, by rw [hp]⟩

/-- What is read of a file is in the file. -/
theorem mem_readLogin (file : Text) (c : Char) :
    (c ∈ (readLogin [] file).1 → c ∈ file) ∧ (c ∈ (readLogin [] file).2 → c ∈ file) := by
  have hmem : ∀ t ∈ split (· == ':') (fgets Xmlrpc.bsize file), ∀ d ∈ t, d ∈ file := by
    intro t ht d hd
    have hsub := (mem_tokens (List.mem_of_mem_take ht)).2.2
    exact (fgets_starts _ _).subset (hsub.subset hd)
  unfold readLogin
  split
  · simp
  · rename_i user heq
    exact ⟨hmem user (by simp [heq]) c, by simp⟩
  · rename_i user pass _ heq
    exact ⟨hmem user (by simp [heq]) c, fun h =>
      hmem pass (by simp [heq]) c (List.mem_of_mem_dropLast h)⟩

theorem tokens_pair {delim : Char → Bool} {s t : Text} (hs : ∀ c ∈ s, delim c = false) (hne : s ≠ [])
    (ht : ∀ c ∈ t, delim c = false) (hnt : t ≠ []) {c : Char} (hc : delim c = true) :
    tokens delim (s ++ c :: t) = [s, t] := by
  rw [tokens_append hs hc, if_neg hne, tokens_single ht hnt]
  rfl

/-- **A line of a name and a field without colons gives the two back if it fits.** -/
theorem readLogin_written {name field : Text} (hname : ∀ c ∈ name, c ≠ ':' ∧ c ≠ '\n') (hne : name ≠ [])
    (hfield : ∀ c ∈ field, c ≠ ':' ∧ c ≠ '\n') (hfits : name.length + field.length + 2 < Xmlrpc.bsize)
    (stray : Text) : readLogin stray (name ++ ':' :: field ++ ['\n']) = (name, field) := by
  have hline : firstLine (name ++ ':' :: field ++ ['\n']) = name ++ ':' :: field ++ ['\n'] := by
    apply firstLine_line
    simp only [List.mem_append, List.mem_cons, not_or]
    exact ⟨fun h => (hname _ h).2 rfl, by decide, fun h => (hfield _ h).2 rfl⟩
  have htokens : tokens (· == ':') (name ++ ':' :: (field ++ ['\n'])) = [name, field ++ ['\n']] := by
    apply tokens_pair
    · exact fun c hc => by simpa using (hname c hc).1
    · exact hne
    · intro c hc
      rcases List.mem_append.mp hc with hc | hc
      · simpa using (hfield c hc).1
      · rw [List.mem_singleton.mp hc]
        rfl
    · simp
    · rfl
  rw [readLogin, fgets, hline, cut_of_fits (by simp; omega), split, List.append_assoc, List.cons_append,
    htokens]
  simp [maxTokens]

/-- What else can be read of the line: the name as it is, and of the field what fits. -/
theorem readLogin_parts {name field user hash : Text} (hname : ∀ c ∈ name, c ≠ ':' ∧ c ≠ '\n')
    (hfield : ∀ c ∈ field, c ≠ ':' ∧ c ≠ '\n') (hsome : hash ≠ [])
    (h : readLogin [] (name ++ ':' :: field ++ ['\n']) = (user, hash)) :
    user = name ∧ name ≠ [] ∧ hash = ((field ++ ['\n']).take (498 - name.length)).dropLast := by
  have hline : fgets Xmlrpc.bsize (name ++ ':' :: field ++ ['\n']) =
      (name ++ ':' :: (field ++ ['\n'])).take 499 := by
    rw [fgets, firstLine_line]
    · simp [cut, Xmlrpc.bsize]
    · simp only [List.mem_append, List.mem_cons, not_or]
      exact ⟨fun h => (hname _ h).2 rfl, by decide, fun h => (hfield _ h).2 rfl⟩
  have hcolon : ∀ c ∈ name, (c == ':') = false := fun c hc => by simpa using (hname c hc).1
  have hnone : ∀ t : Text, (∀ c ∈ t, (c == ':') = false) →
      tokens (· == ':') t = [] ∨ tokens (· == ':') t = [t] ∧ t ≠ [] := by
    intro t ht
    by_cases hnil : t = []
    · exact .inl (by rw [hnil]; rfl)
    · exact .inr ⟨tokens_single ht hnil, hnil⟩
  by_cases hlong : 499 ≤ name.length
  · rw [List.take_append_of_le_length hlong] at hline
    rw [readLogin, hline, split] at h
    rcases hnone (name.take 499) fun c hc => hcolon c (List.mem_of_mem_take hc) with ht | ⟨ht, _⟩
    · rw [ht] at h
      exact absurd (Prod.ext_iff.mp h).2.symm hsome
    · rw [ht] at h
      exact absurd (Prod.ext_iff.mp h).2.symm hsome
  · have hkeep : (name ++ ':' :: (field ++ ['\n'])).take 499 =
        name ++ ':' :: (field ++ ['\n']).take (498 - name.length) := by
      obtain ⟨k, hk⟩ : ∃ k, 499 - name.length = k + 1 := ⟨498 - name.length, by omega⟩
      rw [List.take_append, List.take_of_length_le (by omega), hk, List.take_succ_cons]
      congr 3
      omega
    have hrest : ∀ c ∈ (field ++ ['\n']).take (498 - name.length), (c == ':') = false := by
      intro c hc
      rcases List.mem_append.mp (List.mem_of_mem_take hc) with hc | hc
      · simpa using (hfield c hc).1
      · rw [List.mem_singleton.mp hc]
        rfl
    rw [readLogin, hline, hkeep, split, tokens_append hcolon rfl] at h
    by_cases hnil : name = []
    · rw [if_pos hnil] at h
      rcases hnone _ hrest with ht | ⟨ht, _⟩
      · rw [ht] at h
        exact absurd (Prod.ext_iff.mp h).2.symm hsome
      · rw [ht] at h
        exact absurd (Prod.ext_iff.mp h).2.symm hsome
    · rw [if_neg hnil] at h
      rcases hnone _ hrest with ht | ⟨ht, _⟩
      · rw [ht] at h
        exact absurd (Prod.ext_iff.mp h).2.symm hsome
      · rw [ht] at h
        obtain ⟨huser, hhash⟩ := Prod.ext_iff.mp h
        exact ⟨huser.symm, hnil, hhash.symm⟩

end Tcos.Passwd
