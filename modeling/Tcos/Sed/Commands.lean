import Tcos.Sed.Replace

/-! The commands of `sed` that replace names.

A value stands in its command as it is, so a slash ends it, a backslash quotes, and an `&` is the
name again. `run_fits` says when the commands do what replacing at once does, and `run_plain_iff`
which values without slashes and backslashes come out literally. -/
namespace Tcos.Sed
open Shell (Text)

/-! ### The commands -/

/-- `s/name/value/g`. -/
def replacing (x : Text × Text) : Text := 's' :: '/' :: (x.1 ++ '/' :: (x.2 ++ ['/', 'g']))

/-- A pattern that matches itself. -/
def IsName (p : Text) : Prop := p ≠ [] ∧ ∀ c ∈ p, c.isAlphanum = true ∨ c = '_'

/-- Read as one replacement: it ends at the slash behind it, and refers to no group. -/
def isClosed : Text → Bool
  | [] => true
  | ['\\'] => false
  | '\\' :: c :: s => !(c.isDigit || c == 'c' || c == '\n') && isClosed s
  | c :: s => c != '/' && c != '\n' && isClosed s

/-- Put literally. -/
def isLiteral (v : Text) : Bool := v.all fun c => c != '&' && c != '\\'

/-- A replacement without backslashes: the match for each `&`. -/
def matched (v p : Text) : Text := v.flatMap fun c => if c = '&' then p else [c]

/-- Letters behind the last slash. -/
def isFlag (c : Char) : Bool := c ∈ ['g', 'p', 'i', 'I', 'e', 'm', 'M', 'w']

/-- `sed`, of its commands and a text; `none` where it refuses the commands. -/
structure Editor where
  run : List Text → Text → Option Text
  /-- What a replacement puts for a match. -/
  rhs : Text → Text → Text
  rhs_plain : ∀ v p, '\\' ∉ v → rhs v p = matched v p
  replaces : ∀ xs : List (Text × Text), (∀ x ∈ xs, IsName x.1 ∧ isClosed x.2 = true) → ∀ t,
    run (xs.map replacing) t = some (xs.foldl (fun t x => replaceAll x.1 (rhs x.2 x.1) 0 t) t)
  /-- Unknown option to `s`. -/
  refuses : ∀ (before after : List Text) (p v w : Text) (c : Char), IsName p → isClosed v = true →
    c.isAlpha = true → isFlag c = false → ∀ t,
    run (before ++ replacing (p, v ++ '/' :: c :: w) :: after) t = none

theorem matched_plain {v p : Text} (h : '&' ∉ v) : matched v p = v := by
  rw [matched, List.flatMap_congr (g := fun c => [c]), List.flatMap_singleton']
  intro c hc
  rw [if_neg]
  rintro rfl
  exact h hc

theorem rhs_literal (S : Editor) {v : Text} (h : isLiteral v = true) (p : Text) : S.rhs v p = v := by
  have hnone : ∀ c, c = '&' ∨ c = '\\' → c ∉ v := fun c hc hmem => by
    have := List.all_eq_true.mp h _ hmem
    rcases hc with rfl | rfl <;> simp at this
  rw [S.rhs_plain v p (hnone _ (.inr rfl)), matched_plain (hnone _ (.inl rfl))]

/-- When each command comes to it, its name is read at its own places only. -/
def OwnAll : List (Text × Text) → List Piece → Prop
  | [], _ => True
  | x :: values, xs => Own x.1 xs ∧ OwnAll values (xs.map (Piece.put x))

instance instDecidableOwnAll : (values : List (Text × Text)) → (xs : List Piece) →
    Decidable (OwnAll values xs)
  | [], _ => inferInstanceAs (Decidable True)
  | _ :: values, _ =>
    haveI := instDecidableOwnAll values
    inferInstanceAs (Decidable (_ ∧ _))

/-- Each value is read as one replacement, and put literally where its name stands; each name is
read at its own places only. -/
structure Fits (values : List (Text × Text)) (xs : List Piece) : Prop where
  closed : ∀ x ∈ values, isClosed x.2 = true
  literal : ∀ x ∈ values, .name x.1 ∈ xs → isLiteral x.2 = true
  own : OwnAll values xs

/-- The value as `sed` puts it. -/
def Editor.put (S : Editor) (x : Text × Text) : Text × Text := (x.1, S.rhs x.2 x.1)

/-- Names alone: what comes out is the text filled with the values as they are put. -/
theorem run_own (S : Editor) {values : List (Text × Text)} (hnames : ∀ x ∈ values, IsName x.1)
    (hclosed : ∀ x ∈ values, isClosed x.2 = true) {xs : List Piece} (h : OwnAll (values.map S.put) xs) :
    S.run (values.map replacing) (shown xs) = some (filled (values.map S.put) xs) := by
  rw [S.replaces values fun x hx => ⟨hnames x hx, hclosed x hx⟩]
  clear hclosed
  congr 1
  induction values generalizing xs with
  | nil => simp
  | cons x values ih =>
    obtain ⟨hown, hrest⟩ := h
    rw [List.forall_mem_cons] at hnames
    have hstep := replaceAll_shown (x := S.put x) hnames.1.1 hown
    rw [List.foldl_cons, List.map_cons, filled_cons, ← ih hnames.2 hrest, ← hstep]
    rfl

theorem name_of_put {x : Text × Text} {p : Text} {xs : List Piece}
    (h : .name p ∈ xs.map (Piece.put x)) : .name p ∈ xs := by
  obtain ⟨piece, hpiece, heq⟩ := List.mem_map.mp h
  cases piece with
  | text t => exact absurd heq (by simp [Piece.put])
  | name q =>
    rw [Piece.put] at heq
    split at heq
    · exact absurd heq (by simp)
    · rwa [← heq]

/-- Values that differ only where their names do not stand. -/
theorem map_put_congr {f : Text × Text → Text × Text} {x : Text × Text} (hname : (f x).1 = x.1)
    {xs : List Piece} (h : .name x.1 ∈ xs → f x = x) : xs.map (Piece.put (f x)) = xs.map
    (Piece.put x) := by
  refine List.map_congr_left fun piece hpiece => ?_
  cases piece with
  | text t => rfl
  | name p =>
    by_cases hp : p = x.1
    · rw [h (hp ▸ hpiece)]
    · rw [Piece.put, Piece.put, if_neg hp, if_neg (hname ▸ hp)]

theorem filled_congr {f : Text × Text → Text × Text} {values : List (Text × Text)}
    (hname : ∀ x, (f x).1 = x.1) {xs : List Piece} (h : ∀ x ∈ values, .name x.1 ∈ xs → f x = x) :
    filled (values.map f) xs = filled values xs ∧ (OwnAll (values.map f) xs ↔ OwnAll values xs) := by
  induction values generalizing xs with
  | nil => exact ⟨rfl, Iff.rfl⟩
  | cons x values ih =>
    rw [List.forall_mem_cons] at h
    obtain ⟨hfilled, hown⟩ := ih fun y hy hmem => h.2 y hy (name_of_put (x := x) hmem)
    rw [List.map_cons, filled_cons, filled_cons, OwnAll, OwnAll, map_put_congr (hname x) h.1, hname x]
    exact ⟨hfilled, and_congr_right fun _ => hown⟩

/-- **The commands one after another do what replacing at once does.** -/
theorem run_fits (S : Editor) {values : List (Text × Text)} (hnames : ∀ x ∈ values, IsName x.1)
    {xs : List Piece} (h : Fits values xs) : S.run (values.map replacing) (shown xs) = some
    (filled values xs) := by
  have hsame : ∀ x ∈ values, .name x.1 ∈ xs → S.put x = x := fun x hx hmem => by
    rw [Editor.put, rhs_literal S (h.literal x hx hmem)]
  obtain ⟨hfilled, hown⟩ := filled_congr (f := S.put) (fun _ => rfl) hsame
  rw [run_own S hnames h.closed (hown.mpr h.own), hfilled]

/-! ### Matches put back -/

theorem matched_length {p : Text} (hp : p ≠ []) (v : Text) : v.length ≤ (matched v p).length := by
  induction v with
  | nil => exact Nat.zero_le _
  | cons c v ih =>
    have hone : 1 ≤ (if c = '&' then p else [c]).length := by
      split
      · exact List.length_pos_of_ne_nil hp
      · exact Nat.le_refl 1
    rw [matched, List.flatMap_cons, List.length_append, List.length_cons]
    rw [matched] at ih
    omega

theorem matched_longer {p v : Text} (hp : 1 < p.length) (h : '&' ∈ v) :
    v.length < (matched v p).length := by
  obtain ⟨s, t, rfl⟩ := List.append_of_mem h
  have hne : p ≠ [] := List.ne_nil_of_length_pos (by omega)
  have hs := matched_length hne s
  have ht := matched_length hne t
  rw [matched] at hs ht ⊢
  rw [List.flatMap_append, List.flatMap_cons, if_pos rfl, List.length_append, List.length_append,
    List.length_append, List.length_cons]
  omega

/-- No part got shorter: equal as a whole, equal in the parts. -/
theorem flatMap_eq_iff {α β : Type} {f g : α → List β} {xs : List α}
    (h : ∀ a ∈ xs, (f a).length ≤ (g a).length) : xs.flatMap g = xs.flatMap f ↔ ∀ a ∈ xs, g a = f a :=
    by
  refine ⟨fun heq => ?_, List.flatMap_congr⟩
  have hle : ∀ xs : List α, (∀ a ∈ xs, (f a).length ≤ (g a).length) →
    (xs.flatMap f).length ≤ (xs.flatMap g).length := by
    intro xs h
    induction xs with
    | nil => exact Nat.le_refl _
    | cons a xs ih =>
      rw [List.forall_mem_cons] at h
      rw [List.flatMap_cons, List.flatMap_cons, List.length_append, List.length_append]
      exact Nat.add_le_add h.1 (ih h.2)
  induction xs with
  | nil => simp
  | cons a xs ih =>
    rw [List.forall_mem_cons] at h ⊢
    rw [List.flatMap_cons, List.flatMap_cons] at heq
    have hrest := hle xs h.2
    have hlen := congrArg List.length heq
    rw [List.length_append, List.length_append] at hlen
    obtain ⟨hhead, htail⟩ := List.append_inj heq (by omega)
    exact ⟨hhead, ih h.2 htail⟩

theorem find_value {values : List (Text × Text)} (h : (values.map Prod.fst).Nodup) {x : Text × Text}
    (hx : x ∈ values) : values.find? (·.1 = x.1) = some x := by
  induction values with
  | nil => exact absurd hx (by simp)
  | cons y values ih =>
    rw [List.map_cons, List.nodup_cons] at h
    rcases List.mem_cons.mp hx with rfl | hx
    · simp
    · have hne : y.1 ≠ x.1 := fun heq => h.1 (heq ▸ List.mem_map_of_mem hx)
      rw [List.find?_cons_of_neg (by simpa using hne), ih h.2 hx]

theorem filled_matched_iff {values : List (Text × Text)} (hnames : ∀ x ∈ values, 1 < x.1.length)
    (hdistinct : (values.map Prod.fst).Nodup) (xs : List Piece) :
    filled (values.map fun x => (x.1, matched x.2 x.1)) xs = filled values xs ↔
      ∀ x ∈ values, .name x.1 ∈ xs → '&' ∉ x.2 := by
  have hname : ∀ x ∈ values, Piece.filled values (.name x.1) = x.2 ∧
      Piece.filled (values.map fun x => (x.1, matched x.2 x.1)) (.name x.1) = matched x.2 x.1 := by
    intro x hx
    have hfind := find_value hdistinct hx
    rw [Piece.filled, Piece.filled, List.find?_map, Function.comp_def, hfind]
    exact ⟨rfl, rfl⟩
  have hother : ∀ p, (∀ x ∈ values, x.1 ≠ p) → Piece.filled values (.name p) = p ∧
      Piece.filled (values.map fun x => (x.1, matched x.2 x.1)) (.name p) = p := by
    intro p hp
    have hnone : values.find? (·.1 = p) = none := List.find?_eq_none.mpr fun x hx => by
      simpa using hp x hx
    rw [Piece.filled, Piece.filled, List.find?_map, Function.comp_def, hnone]
    exact ⟨rfl, rfl⟩
  rw [filled, filled, flatMap_eq_iff]
  · constructor
    · intro h x hx hmem hamp
      have heq := h _ hmem
      rw [(hname x hx).1, (hname x hx).2] at heq
      exact absurd (congrArg List.length heq) (matched_longer (hnames x hx) hamp).ne'
    · intro h piece hpiece
      cases piece with
      | text t => rfl
      | name p =>
        by_cases hp : ∃ x ∈ values, x.1 = p
        · obtain ⟨x, hx, rfl⟩ := hp
          rw [(hname x hx).1, (hname x hx).2, matched_plain (h x hx hpiece)]
        · push Not at hp
          rw [(hother p hp).1, (hother p hp).2]
  · intro piece _
    cases piece with
    | text t => exact Nat.le_refl _
    | name p =>
      by_cases hp : ∃ x ∈ values, x.1 = p
      · obtain ⟨x, hx, rfl⟩ := hp
        rw [(hname x hx).1, (hname x hx).2]
        exact matched_length (List.ne_nil_of_length_pos (by have := hnames x hx; omega)) x.2
      · push Not at hp
        rw [(hother p hp).1, (hother p hp).2]

/-- **Values without slashes and backslashes, of names that stay alone: they come out literally if
none with an `&` is put.** -/
theorem run_plain_iff (S : Editor) {values : List (Text × Text)}
    (hnames : ∀ x ∈ values, IsName x.1 ∧ 1 < x.1.length) (hdistinct : (values.map Prod.fst).Nodup)
    (hclosed : ∀ x ∈ values, isClosed x.2 = true ∧ '\\' ∉ x.2)
    {xs : List Piece} (h : OwnAll (values.map fun x => (x.1, matched x.2 x.1)) xs) :
    S.run (values.map replacing) (shown xs) = some (filled values xs) ↔
      ∀ x ∈ values, .name x.1 ∈ xs → '&' ∉ x.2 := by
  have hput : values.map S.put = values.map fun x => (x.1, matched x.2 x.1) :=
    List.map_congr_left fun x hx => by rw [Editor.put, S.rhs_plain _ _ (hclosed x hx).2]
  rw [run_own S (fun x hx => (hnames x hx).1) (fun x hx => (hclosed x hx).1) (hput ▸ h), hput,
    Option.some_inj]
  exact filled_matched_iff (fun x hx => (hnames x hx).2) hdistinct xs

/-! ### A sed of replacements -/

/-- Up to the next slash without a backslash before it, and what follows the slash. -/
def readField : Text → Option (Text × Text)
  | [] => none
  | ['\\'] => none
  | '\\' :: c :: s => (readField s).map fun x => ('\\' :: c :: x.1, x.2)
  | c :: s => if c = '/' then some ([], s) else (readField s).map fun x => (c :: x.1, x.2)

/-- Name and value of a command that replaces every occurrence; `none` for all other commands. -/
def readCommand : Text → Option (Text × Text)
  | 's' :: '/' :: s =>
    (readField s).bind fun x => (readField x.2).bind fun y =>
      if y.2 = ['g'] ∧ isClosed y.1 = true then some (x.1, y.1) else none
  | _ => none

def runCommands : List Text → Text → Option Text
  | [], t => some t
  | s :: rest, t => (readCommand s).bind fun x => runCommands rest (replaceAll x.1 (matched x.2 x.1) 0 t)

theorem readField_closed {v : Text} (h : isClosed v = true) (s : Text) :
    readField (v ++ '/' :: s) = some (v, s) := by
  fun_induction isClosed v with
  | case1 => simp [readField]
  | case2 => exact absurd h (by simp)
  | case3 c v ih =>
    rw [Bool.and_eq_true] at h
    simp [readField, ih h.2]
  | case4 c v hlast hpair ih =>
    simp only [Bool.and_eq_true, bne_iff_ne] at h
    have hslash : c ≠ '\\' := by
      rintro rfl
      cases v with
      | nil => exact hlast rfl rfl
      | cons d v => exact hpair d v rfl rfl
    have hcons : ∀ w, readField (c :: w) = (readField w).map fun x => (c :: x.1, x.2) := fun w => by
      rw [readField.eq_def]
      split
      all_goals simp_all
    rw [List.cons_append, hcons, ih h.2]
    rfl

theorem isClosed_plain {p : Text} (h : ∀ c ∈ p, c ≠ '\\' ∧ c ≠ '/' ∧ c ≠ '\n') : isClosed p = true := by
  fun_induction isClosed p with
  | case1 => rfl
  | case2 => exact absurd rfl (h _ (List.mem_cons_self ..)).1
  | case3 => exact absurd rfl (h _ (List.mem_cons_self ..)).1
  | case4 c p _ _ ih =>
    obtain ⟨-, hslash, hline⟩ := h c (List.mem_cons_self ..)
    simp [hslash, hline, ih fun d hd => h d (List.mem_cons_of_mem c hd)]

theorem isClosed_name {p : Text} (h : IsName p) : isClosed p = true := by
  refine isClosed_plain fun c hc => ⟨?_, ?_, ?_⟩
  all_goals
    rintro rfl
    exact absurd (h.2 _ hc) (by decide)

theorem readCommand_replacing {p v : Text} (hp : IsName p) (hv : isClosed v = true) :
    readCommand (replacing (p, v)) = some (p, v) := by
  simp [readCommand, replacing, readField_closed (isClosed_name hp), readField_closed hv, hv]

theorem readCommand_refused {p v : Text} (hp : IsName p) (hv : isClosed v = true) (w : Text) (c : Char) :
    readCommand (replacing (p, v ++ '/' :: c :: w)) = none := by
  simp [readCommand, replacing, readField_closed (isClosed_name hp), readField_closed hv]

theorem runCommands_refused {s : Text} (h : readCommand s = none) (before after : List Text) (t : Text) :
    runCommands (before ++ s :: after) t = none := by
  induction before generalizing t with
  | nil => rw [List.nil_append, runCommands, h, Option.bind_none]
  | cons r before ih =>
    rw [List.cons_append, runCommands]
    cases readCommand r with
    | none => rfl
    | some x => exact ih _

/-- It knows replacements of every occurrence, and no other command. -/
def plainSed : Editor where
  run := runCommands
  rhs := matched
  rhs_plain _ _ _ := rfl
  replaces xs hxs := by
    induction xs with
    | nil => exact fun t => rfl
    | cons x xs ih =>
      rw [List.forall_mem_cons] at hxs
      intro t
      rw [List.map_cons, runCommands, readCommand_replacing hxs.1.1 hxs.1.2]
      exact ih hxs.2 _
  refuses before after p v w c hp hv _ _ t :=
  runCommands_refused (readCommand_refused hp hv w c) before after t

end Tcos.Sed
