import Tcos.Passwd.Login

/-! `validate_tcos` on every content of /etc/tcospasswd.

The line goes through a buffer of `BSIZE` bytes and through `split`, and the last byte of
the second field is dropped for the newline. What was not read keeps what the memory held,
so every value that is compared remembers if it was set. `tcospasswd_exact_iff` says for
which contents only the line of the user and the hash is accepted. -/
namespace Tcos.Login
open Shell (Text lit)
open Libc

/-! ### Answers -/

inductive Answer where
  | ok
  | noUser
  | noPass
  | noPerms
  | expired
  | error
  deriving DecidableEq, Repr

def Answer.text : Answer → Text
  | .ok => lit "ok"
  | .noUser => lit "error: User not allowed"
  | .noPass => lit "error: Password not valid"
  | .noPerms => lit "error: cant read shadow"
  | .expired => lit "error: user expired"
  | .error => lit "error: unknow error"

/-- `crypt(password, salt)`; `none` is `NULL`. -/
abbrev Crypt := Text → Text → Option Text

/-- `PASS_ID`. -/
def passId : Text := lit "$1$id2trA1q"

/-! ### The reader -/

/-- What the memory holds that was not written. -/
structure Memory where
  line : Text
  user : Text
  pass : Text

/-- A string that is compared. -/
structure Value where
  text : Text
  /-- It was read of the file. -/
  set : Bool
  deriving DecidableEq, Repr

/-- The string in a buffer ends at the first zero byte. -/
def cString (s : Text) : Text := s.takeWhile (· ≠ '\x00')

/-- What `line` holds of the file. -/
def held (file : Text) : Text := cString (fgets Xmlrpc.bsize file)

def fields (line : Text) : List Text := split (· == ':') line

/-- Of an empty file `fgets` reads nothing, and `line` stays what it was. -/
def readLine (m : Memory) (file : Text) : Value :=
  if file = [] then ⟨m.line, false⟩ else ⟨held file, true⟩

def loginUser (m : Memory) (line : Value) : Value :=
  match (fields line.text)[0]? with
  | none => ⟨m.user, false⟩
  | some t => ⟨t, line.set⟩

/-- `login->pass[strlen(login->pass)-1]='\0'`. -/
def loginPass (m : Memory) (line : Value) : Value :=
  match (fields line.text)[1]? with
  | none => ⟨m.pass, false⟩
  | some t => ⟨t.dropLast, line.set⟩

/-- How a call ends, and the values it compared. -/
structure Outcome where
  /-- `none` if `strcmp` was given a `NULL`. -/
  answer : Option Answer
  compared : List Value

def validateTcos (crypt : Crypt) (m : Memory) (file : Option Text) (user pass : Text) : Outcome :=
  match file with
  | none => ⟨some .error, []⟩
  | some file =>
    let login := loginUser m (readLine m file)
    let hash := loginPass m (readLine m file)
    if login.text ≠ user then ⟨some .noUser, [login]⟩
    else match crypt pass passId with
      | none => ⟨none, [login, hash]⟩
      | some k => ⟨some (if hash.text = k then .ok else .noPass), [login, hash]⟩

/-! ### What is asked of it -/

/-- The line is `user:hash`, with or without its newline. -/
structure Names (file user hash : Text) : Prop where
  line : removeLineBreak (firstLine file) = user ++ ':' :: hash
  user : user ≠ [] ∧ ':' ∉ user
  hash : hash ≠ [] ∧ ':' ∉ hash

/-- The line of the user and the hash is accepted, every other content refused, and only
what was set from the line is compared. -/
def Exact (crypt : Crypt) (m : Memory) (file user pass : Text) : Prop :=
  let o := validateTcos crypt m (some file) user pass
  (∀ v ∈ o.compared, v.set = true) ∧
    ((∃ k, crypt pass passId = some k ∧ Names file user k) → o.answer = some .ok) ∧
    ((¬ ∃ k, crypt pass passId = some k ∧ Names file user k) → ∃ a ≠ .ok, o.answer = some a)

/-- When that is so. -/
structure Readable (crypt : Crypt) (file user pass : Text) : Prop where
  given : file ≠ [] ∧ fields (held file) ≠ []
  /-- After the user's name comes a field, and what looks like the hash is it. -/
  hashed : ∀ rest, fields (held file) = user :: rest → ∃ k, crypt pass passId = some k ∧
    ∃ field more, rest = field :: more ∧
      ∀ c, field = k ++ [c] → k ≠ [] ∧ firstLine file = user ++ ':' :: (k ++ ['\n'])
  /-- The right line ends in a newline and fits the buffer. -/
  whole : ∀ k, crypt pass passId = some k → Names file user k →
    firstLine file = user ++ ':' :: (k ++ ['\n']) ∧ held file = firstLine file

/-! ### Lines and their fields -/

theorem fields_cons {line t : Text} {rest : List Text} (h : fields line = t :: rest) :
    t ≠ [] ∧ ':' ∉ t := by
  have hmem : t ∈ tokens (· == ':') line := List.mem_of_mem_take (h ▸ List.mem_cons_self ..)
  obtain ⟨hne, hcolon, -⟩ := mem_tokens hmem
  exact ⟨hne, fun hc => by simpa using hcolon ':' hc⟩

theorem fields_second {line t u : Text} {rest : List Text} (h : fields line = t :: u :: rest) :
    ':' ∉ u := by
  have hmem : u ∈ tokens (· == ':') line :=
    List.mem_of_mem_take (show u ∈ fields line by simp [h])
  exact fun hc => by simpa using (mem_tokens hmem).2.1 ':' hc

theorem fields_second_ne {line t u : Text} {rest : List Text} (h : fields line = t :: u :: rest) :
    u ≠ [] :=
  (mem_tokens (List.mem_of_mem_take (show u ∈ fields line by simp [h]))).1

/-- The only newline of a first line is its last byte. -/
theorem firstLine_cases (s : Text) :
    firstLine s = removeLineBreak (firstLine s) ∨ firstLine s = removeLineBreak
    (firstLine s) ++ ['\n'] := by
  induction s with
  | nil => exact .inl rfl
  | cons c s ih =>
    by_cases hc : c = '\n'
    · exact .inr (by simp [firstLine, removeLineBreak, hc])
    · simpa [firstLine, removeLineBreak, hc] using ih

theorem held_starts (file : Text) : held file <+: firstLine file :=
  (List.takeWhile_prefix _).trans (List.take_prefix _ _)

theorem not_colon {t : Text} (h : ':' ∉ t) : ∀ c ∈ t, (c == ':') = false := by
  intro c hc
  rw [beq_eq_false_iff_ne]
  rintro rfl
  exact h hc

/-- A colon-free text has no second field. -/
theorem fields_single {t : Text} (h : ':' ∉ t) : fields t = [] ∨ fields t = [t] := by
  by_cases hnil : t = []
  · exact .inl (by rw [hnil]; rfl)
  · exact .inr (by rw [fields, split, tokens_single (not_colon h) hnil]; rfl)

theorem fields_pair {s t : Text} (hs : s ≠ [] ∧ ':' ∉ s) (ht : ':' ∉ t) :
    fields (s ++ ':' :: t) = if t = [] then [s] else [s, t] := by
  rw [fields, split, tokens_append (not_colon hs.2) rfl, if_neg hs.1]
  split
  case isTrue hnil =>
    rw [hnil]
    rfl
  case isFalse hne =>
    rw [tokens_single (not_colon ht) hne]
    rfl

/-- **What is held of a line with one colon has its two fields only if the second is
held to the byte that is dropped.** -/
theorem fields_held {line s t u : Text} {c : Char} {rest : List Text} (hs : s ≠ [] ∧ ':' ∉ s)
    (ht : ':' ∉ t) (hpre : line <+: s ++ ':' :: t) (h : fields line = s :: (u ++ [c]) :: rest) :
    line = s ++ ':' :: (u ++ [c]) ∧ u ++ [c] <+: t := by
  rcases List.prefix_or_prefix_of_prefix hpre (List.prefix_append s _) with hshort | ⟨w, rfl⟩
  · have hnone : ':' ∉ line := fun hc => hs.2 (hshort.subset hc)
    rcases fields_single hnone with h' | h' <;> simp [h'] at h
  · rw [List.prefix_append_right_inj] at hpre
    cases w with
    | nil =>
      rw [List.append_nil] at h
      rcases fields_single hs.2 with h' | h' <;> simp [h'] at h
    | cons d w =>
      obtain ⟨rfl, hw⟩ := List.cons_prefix_cons.mp hpre
      rw [fields_pair hs fun hc => ht (hw.subset hc)] at h
      split at h
      · simp at h
      · obtain rfl : w = u ++ [c] := by simpa using (List.cons.inj (List.cons.inj h).2).1
        exact ⟨rfl, hw⟩

/-! ### The check -/

/-- The line that is asked for, with its newline, has the user and the hash as its fields. -/
theorem fields_names {file user k : Text} (h : Names file user k)
    (hline : firstLine file = user ++ ':' :: (k ++ ['\n'])) (hheld : held file = firstLine file) :
    fields (held file) = [user, k ++ ['\n']] := by
  have hcolon : ':' ∉ k ++ ['\n'] := by simpa using h.hash.2
  rw [hheld, hline, fields_pair h.user hcolon, if_neg (by simp)]

/-- A first line that ends in a newline is the line and the newline. -/
theorem removeLineBreak_firstLine {file line : Text} (h : firstLine file = line ++ ['\n']) :
    removeLineBreak (firstLine file) = line := by
  rcases firstLine_cases file with hcase | hcase
  · have hmem : '\n' ∈ removeLineBreak (firstLine file) := by
      rw [← hcase, h]
      simp
    simpa [removeLineBreak] using List.mem_takeWhile_imp hmem
  · exact (List.append_cancel_right (h.symm.trans hcase)).symm

/-- **Of the line that is asked for, the dropped byte must be a newline that was held.** -/
theorem whole_of_fields {file user k : Text} {c : Char} {rest : List Text} (h : Names file user k)
    (hfields : fields (held file) = user :: (k ++ [c]) :: rest) :
    firstLine file = user ++ ':' :: (k ++ ['\n']) ∧ held file = firstLine file := by
  have hpre := held_starts file
  rcases firstLine_cases file with hcase | hcase
  · -- without a newline the second field is at most the hash
    rw [h.line] at hcase
    rw [hcase] at hpre
    obtain ⟨-, hlong⟩ := fields_held h.user h.hash.2 hpre hfields
    simpa using hlong.length_le
  · rw [h.line, List.append_assoc, List.cons_append] at hcase
    rw [hcase] at hpre
    obtain ⟨hheld, hlong⟩ := fields_held h.user (by simpa using h.hash.2) hpre hfields
    refine ⟨hcase, ?_⟩
    rw [hheld, hcase, hlong.eq_of_length (by simp)]

section Call
variable (crypt : Crypt) (m : Memory) {file : Text} (user pass : Text)

theorem validateTcos_other {t : Text} {rest : List Text} (hfile : file ≠ [])
    (hfields : fields (held file) = t :: rest) (hother : t ≠ user) : validateTcos crypt m
    (some file) user pass = ⟨some .noUser, [⟨t, true⟩]⟩ := by
  simp [validateTcos, readLine, hfile, loginUser, hfields, hother]

theorem validateTcos_user {field : Text} {rest : List Text} (hfile : file ≠ [])
    (hfields : fields (held file) = user :: field :: rest) {k : Text} (hk : crypt pass passId = some k) :
    validateTcos crypt m (some file) user pass =
      ⟨some (if field.dropLast = k then .ok else .noPass), [⟨user, true⟩, ⟨field.dropLast, true⟩]⟩ := by
  simp [validateTcos, readLine, hfile, loginUser, loginPass, hfields, hk]

theorem compared_login : loginUser m
    (readLine m file) ∈ (validateTcos crypt m (some file) user pass).compared := by
  unfold validateTcos
  split
  · contradiction
  · rename_i heq
    obtain rfl := Option.some.inj heq
    dsimp only
    split
    · simp
    · split <;> simp

/-- Once the user is found, the field that is compared must be there, and `crypt` must succeed. -/
theorem found_of_exact (h : Exact crypt m file user pass) {rest : List Text} (hfile : file ≠ [])
    (hfields : fields (held file) = user :: rest) :
    (∃ k, crypt pass passId = some k) ∧ ∃ field more, rest = field :: more := by
  obtain ⟨hset, haccept, hrefuse⟩ := h
  constructor
  · by_contra hnone
    obtain ⟨a, -, ha⟩ := hrefuse fun ⟨k, hk, _⟩ => hnone ⟨k, hk⟩
    have hcrypt : crypt pass passId = none :=
      Option.eq_none_iff_forall_not_mem.mpr fun k hk => hnone ⟨k, hk⟩
    simp [validateTcos, readLine, hfile, loginUser, hfields, hcrypt] at ha
  · cases rest with
    | cons field more => exact ⟨field, more, rfl⟩
    | nil =>
      have hmissing : loginPass m
        (readLine m file) ∈ (validateTcos crypt m (some file) user pass).compared := by
        simp [validateTcos, readLine, hfile, loginUser, hfields]
        split <;> simp
      simpa [loginPass, readLine, hfile, hfields] using hset _ hmissing

/-- What is compared first was set only if there is a field. -/
theorem some_of_exact (h : Exact crypt m file user pass) : file ≠ [] ∧ fields (held file) ≠ [] := by
  have hset := h.1 _ (compared_login crypt m user pass)
  have hfile : file ≠ [] := by
    rintro rfl
    simp only [loginUser, readLine, if_true] at hset
    split at hset <;> simp at hset
  refine ⟨hfile, fun hnil => ?_⟩
  simp [loginUser, readLine, hfile, hnil] at hset

/-- The answer to a line whose first two fields are the user and another one. -/
theorem exact_user_iff {field : Text} {rest : List Text} (hfile : file ≠ [])
    (hfields : fields (held file) = user :: field :: rest) {k : Text} (hk : crypt pass passId = some k) :
    Exact crypt m file user pass ↔ (field.dropLast = k ↔ Names file user k) := by
  simp only [Exact, validateTcos_user crypt m user pass hfile hfields hk, hk]
  by_cases hdrop : field.dropLast = k <;> simp [hdrop]

/-- The answer to a line whose first field is another user. -/
theorem exact_other_iff {t : Text} {rest : List Text} (hfile : file ≠ [])
    (hfields : fields (held file) = t :: rest) (hother : t ≠ user) :
    Exact crypt m file user pass ↔ ∀ k, crypt pass passId = some k → ¬ Names file user k := by
  simp [Exact, validateTcos_other crypt m user pass hfile hfields hother]

end Call

/-- **Exactly for these contents only the line of the user and the hash is accepted.** -/
theorem tcospasswd_exact_iff (crypt : Crypt) (m : Memory) (file user pass : Text) :
    Exact crypt m file user pass ↔ Readable crypt file user pass := by
  constructor
  · intro h
    obtain ⟨hfile, hsome⟩ := some_of_exact crypt m user pass h
    obtain ⟨t, rest, hfields⟩ := List.exists_cons_of_ne_nil hsome
    by_cases huser : t = user
    · subst huser
      obtain ⟨⟨k, hk⟩, field, more, rfl⟩ := found_of_exact crypt m t pass h hfile hfields
      have hdrop := (exact_user_iff crypt m t pass hfile hfields hk).mp h
      have hwhole : Names file t k →
          firstLine file = t ++ ':' :: (k ++ ['\n']) ∧ held file = firstLine file := by
        intro hnames
        have hfield : field = k ++ [field.getLast (fields_second_ne hfields)] := by
          rw [← hdrop.mpr hnames, List.dropLast_append_getLast]
        exact whole_of_fields hnames (hfield ▸ hfields)
      refine ⟨⟨hfile, hsome⟩, ?_, ?_⟩
      · intro rest hrest
        obtain rfl : rest = field :: more := by simpa [hfields] using hrest.symm
        refine ⟨k, hk, field, more, rfl, ?_⟩
        rintro c rfl
        have hnames := hdrop.mp List.dropLast_concat
        exact ⟨hnames.hash.1, (hwhole hnames).1⟩
      · intro k' hk' hnames
        obtain rfl : k = k' := by simpa [hk] using hk'
        exact hwhole hnames
    · have hnone := (exact_other_iff crypt m user pass hfile hfields huser).mp h
      refine ⟨⟨hfile, hsome⟩, fun rest hrest => ?_, fun k hk hnames => absurd hnames (hnone k hk)⟩
      exact absurd (by simpa [hfields] using congrArg List.head? hrest) huser
  · intro h
    obtain ⟨hfile, hsome⟩ := h.given
    obtain ⟨t, rest, hfields⟩ := List.exists_cons_of_ne_nil hsome
    by_cases huser : t = user
    · subst huser
      obtain ⟨k, hk, field, more, rfl, hfield⟩ := h.hashed rest hfields
      rw [exact_user_iff crypt m t pass hfile hfields hk]
      constructor
      · intro hdrop
        have hlast : field = k ++ [field.getLast (fields_second_ne hfields)] := by
          rw [← hdrop, List.dropLast_append_getLast]
        obtain ⟨hne, hline⟩ := hfield _ hlast
        have hcolon := fields_second hfields
        rw [hlast, List.mem_append, not_or] at hcolon
        exact ⟨removeLineBreak_firstLine (by simpa using hline), fields_cons hfields, hne, hcolon.1⟩
      · intro hnames
        obtain ⟨hline, hheld⟩ := h.whole k hk hnames
        have hpair := fields_names hnames hline hheld
        rw [hfields] at hpair
        obtain rfl : field = k ++ ['\n'] := by simpa using (List.cons.inj (List.cons.inj hpair).2).1
        exact List.dropLast_concat
    · rw [exact_other_iff crypt m user pass hfile hfields huser]
      intro k hk hnames
      obtain ⟨hline, hheld⟩ := h.whole k hk hnames
      have hpair := fields_names hnames hline hheld
      rw [hfields] at hpair
      exact huser (List.cons.inj hpair).1

/-- The salt's method, and the password. -/
def toyCrypt : Crypt := fun p s => some (s.take 3 ++ p)

/-- The hash without a newline loses a byte, and with a byte more and a third field it is accepted. -/
theorem last_byte_lost :
    ¬ Exact toyCrypt ⟨[], [], []⟩ (lit "ana:$1$k") (lit "ana") (lit "k") ∧
      ¬ Exact toyCrypt ⟨[], [], []⟩ (lit "ana:$1$kX:z") (lit "ana") (lit "k") := by
  have hanswers :
      (validateTcos toyCrypt ⟨[], [], []⟩ (some (lit "ana:$1$k")) (lit "ana") (lit "k")).answer =
        some .noPass ∧
      (validateTcos toyCrypt ⟨[], [], []⟩ (some (lit "ana:$1$kX:z")) (lit "ana") (lit "k")).answer =
        some .ok := by
    with_unfolding_all decide
  have hhash : toyCrypt (lit "k") passId = some (lit "$1$k") := by with_unfolding_all decide
  constructor
  · intro h
    have hok := h.2.1 ⟨_, hhash, by with_unfolding_all decide, by with_unfolding_all decide,
      by with_unfolding_all decide⟩
    rw [hanswers.1] at hok
    simp at hok
  · intro h
    obtain ⟨a, ha, hrefused⟩ := h.2.2 fun ⟨k, hk, hnames⟩ => by
      obtain rfl : lit "$1$k" = k := by simpa [hhash] using hk
      exact absurd hnames.line (by with_unfolding_all decide)
    rw [hanswers.2] at hrefused
    exact ha (Option.some.inj hrefused).symm

end Tcos.Login
