import Tcos.Login.Tcospasswd

/-! `validate_shadow`, `validate_passwd` and the choice between the back ends.

`shadow_exact_iff` says for which entries and days the ageing fields are read as they are
documented, and `backends_agree_iff` when /etc/passwd and /etc/shadow give the same answer
for the same hash. -/
namespace Tcos.Login
open Shell (Text lit)

/-! ### The back ends -/

/-- `struct spwd`: a field that is empty in the file is -1. Each was read as an `int`, so a
`long` holds the sums. -/
structure Spwd where
  pwdp : Text
  lstchg : Int := -1
  max : Int := -1
  inact : Int := -1
  expire : Int := -1
  deriving DecidableEq, Repr

/-- `days = secs / (24L * 60L * 60L)`. -/
def days (secs : Int) : Int := secs.tdiv (24 * 60 * 60)

/-- `days > sp_lstchg + sp_max + sp_inact`, where `sp_max` and `sp_inact` are positive. -/
def Spwd.inactive (e : Spwd) (day : Int) : Bool :=
  0 < e.max ∧ 0 < e.inact ∧ e.lstchg + e.max + e.inact < day

/-- `days > sp_expire`, where that is positive. -/
def Spwd.expired (e : Spwd) (day : Int) : Bool := 0 < e.expire ∧ e.expire < day

/-- The entries of /etc/shadow, and whether the file can be read. -/
structure Shadow where
  getspnam : Text → Option Spwd
  readable : Bool := true

def validateShadow (crypt : Crypt) (s : Shadow) (secs : Int) (user pw : Text) : Option Answer :=
  match s.getspnam user with
  | none => some (if s.readable then .noUser else .noPerms)
  | some e => (crypt pw e.pwdp).map fun k =>
      if k ≠ e.pwdp then .noPass
      else if e.inactive (days secs) then .expired
      else if e.expired (days secs) then .expired
      else .ok

/-- `pw_passwd` of the users of /etc/passwd. -/
abbrev Getpwnam := Text → Option Text

/-- Without an entry the password is empty; the placeholder is returned as it is. -/
def getPasswd (pwd : Getpwnam) (username : Text) : Text := (pwd username).getD []

def validatePasswd (crypt : Crypt) (pwd : Getpwnam) (user pass : Text) : Option Answer :=
  (crypt pass passId).map fun k => if k = getPasswd pwd user then .ok else .noPass

structure Machine where
  build : Xmlrpc.Build
  /-- /etc/tcospasswd, if it is there. -/
  tcospasswd : Option Text
  /-- /etc/shadow, if it is there. -/
  shadow : Option Shadow
  /-- /etc/passwd, if it is there. -/
  passwd : Option Getpwnam
  memory : Memory
  /-- `time(NULL)`. -/
  secs : Int

def validateLogin (crypt : Crypt) (m : Machine) (user pw : Text) : Option Answer :=
  match m.tcospasswd, m.build, m.shadow, m.passwd with
  | some file, _, _, _ => (validateTcos crypt m.memory (some file) user pw).answer
  | none, .standalone, _, _ => some .error
  | none, .thinClient, some s, _ => validateShadow crypt s m.secs user pw
  | none, .thinClient, none, some pwd => validatePasswd crypt pwd user pw
  | none, .thinClient, none, none => some .error

/-! ### Ageing -/

/-- The password is not accepted any more on this day. -/
def Spwd.Disabled (e : Spwd) (day : Int) : Prop :=
  (e.lstchg ≠ -1 ∧ e.max ≠ -1 ∧ e.inact ≠ -1 ∧ e.lstchg + e.max + e.inact < day) ∨
    (e.expire ≠ -1 ∧ e.expire ≤ day)

/-- There is an answer, and it is `LOGIN_OK` for the password of an entry that is not disabled. -/
def AgeExact (crypt : Crypt) (e : Spwd) (secs : Int) (pw : Text) : Prop :=
  ∀ s user, s.getspnam user = some e → (validateShadow crypt s secs user pw).isSome ∧
    (validateShadow crypt s secs user pw = some .ok ↔
      crypt pw e.pwdp = some e.pwdp ∧ ¬ e.Disabled (days secs))

/-- The tests find it disabled, as they should. -/
def Spwd.found (e : Spwd) (day : Int) : Prop :=
  (e.lstchg ≠ -1 ∧ 0 < e.max ∧ 0 < e.inact ∧ e.lstchg + e.max + e.inact < day) ∨
    (0 < e.expire ∧ e.expire < day)

/-- The tests miss it: the day is that of the expiry, or a field that is set is not positive. -/
def Spwd.missed (e : Spwd) (day : Int) : Prop :=
  (e.expire ≠ -1 ∧ e.expire ≤ day ∧ (e.expire = day ∨ e.expire ≤ 0)) ∨
    (e.lstchg ≠ -1 ∧ e.max ≠ -1 ∧ e.inact ≠ -1 ∧ e.lstchg + e.max + e.inact < day ∧
      (e.max ≤ 0 ∨ e.inact ≤ 0))

/-- The tests find it disabled though it has no day of change. -/
def Spwd.unset (e : Spwd) (day : Int) : Prop :=
  e.lstchg = -1 ∧ 0 < e.max ∧ 0 < e.inact ∧ e.max + e.inact - 1 < day

theorem disabled_iff (e : Spwd) (day : Int) : e.Disabled day ↔ e.found day ∨ e.missed day := by
  unfold Spwd.Disabled Spwd.found Spwd.missed
  omega

theorem tests_iff (e : Spwd) (day : Int) :
    e.inactive day = true ∨ e.expired day = true ↔ e.found day ∨ e.unset day := by
  simp only [Spwd.inactive, Spwd.expired, Spwd.found, Spwd.unset, decide_eq_true_eq]
  omega

/-- The answer for an entry. -/
theorem validateShadow_ok (crypt : Crypt) {s : Shadow} {user : Text} {e : Spwd}
    (h : s.getspnam user = some e) (secs : Int) (pw : Text) :
    validateShadow crypt s secs user pw = some .ok ↔
      crypt pw e.pwdp = some e.pwdp ∧ ¬ (e.found (days secs) ∨ e.unset (days secs)) := by
  rw [← tests_iff]
  simp only [validateShadow, h]
  cases hk : crypt pw e.pwdp with
  | none => simp
  | some k => by_cases hsame : k = e.pwdp <;> by_cases hin : e.inactive (days secs) = true <;>
      by_cases hex : e.expired (days secs) = true <;> simp [hsame, hin, hex]

/-- **The ageing fields count as documented exactly if `crypt` succeeds and, for the right
password, a day that is missed is also one that has no day of change.** -/
theorem shadow_exact_iff (crypt : Crypt) (e : Spwd) (secs : Int) (pw : Text) :
    AgeExact crypt e secs pw ↔ crypt pw e.pwdp ≠ none ∧
      (crypt pw e.pwdp = some e.pwdp → e.found (days secs) ∨
        (e.missed (days secs) ↔ e.unset (days secs))) := by
  have hsome : ∀ s : Shadow, ∀ user, s.getspnam user = some e →
      ((validateShadow crypt s secs user pw).isSome ↔ crypt pw e.pwdp ≠ none) := by
    intro s user h
    simp [validateShadow, h, Option.isSome_iff_ne_none]
  have hok := fun (s : Shadow) user (h : s.getspnam user = some e) => validateShadow_ok crypt h secs pw
  constructor
  · intro h
    obtain ⟨hanswer, hiff⟩ := h ⟨fun _ => some e, true⟩ [] rfl
    refine ⟨(hsome _ _ rfl).mp hanswer, fun hk => ?_⟩
    rw [hok _ _ rfl, disabled_iff, and_iff_right hk, and_iff_right hk, not_iff_not] at hiff
    by_cases hfound : e.found (days secs)
    · exact .inl hfound
    · rw [or_iff_right hfound, or_iff_right hfound] at hiff
      exact .inr hiff.symm
  · rintro ⟨hne, hday⟩ s user h
    refine ⟨(hsome s user h).mpr hne, ?_⟩
    rw [hok s user h, disabled_iff]
    tauto

/-- On the day of its expiry an account is let in. -/
theorem expiry_day_passes : ¬ AgeExact toyCrypt ⟨lit "$1$k", -1, -1, -1, 20000⟩ (20000 * 86400)
    (lit "k") := by
  rw [AgeExact]
  intro h
  obtain ⟨-, hiff⟩ := h ⟨fun _ => some ⟨lit "$1$k", -1, -1, -1, 20000⟩, true⟩ (lit "ana") rfl
  obtain ⟨-, hday⟩ := hiff.mp (by with_unfolding_all decide)
  exact hday (.inr ⟨by decide, by decide⟩)

/-! ### The same hash in either file -/

/-- `crypt` fails or returns a string that is not empty and not the placeholder. -/
structure Hashing where
  crypt : Crypt
  some : ∀ p s k, crypt p s = some k → k ≠ [] ∧ k ≠ lit "x"

/-- An entry without ageing fields. -/
def Spwd.plain (h : Text) : Spwd := { pwdp := h }

/-- Both back ends accept exactly what has the hash under its own salt, and the file that
holds the hash makes no difference to the answer. -/
structure Agree (c : Hashing) (user h p : Text) : Prop where
  passwd : ∀ pwd : Getpwnam, pwd user = some h →
    (validatePasswd c.crypt pwd user p = some .ok ↔ c.crypt p h = some h)
  shadow : ∀ (s : Shadow) (secs : Int), s.getspnam user = some (.plain h) →
    (validateShadow c.crypt s secs user p = some .ok ↔ c.crypt p h = some h)
  login : ∀ (m n : Machine) (s : Shadow) (pwd : Getpwnam),
    m.build = .thinClient → m.tcospasswd = none → m.shadow = some s → s.getspnam user = some (.plain h) →
    n.build = .thinClient → n.tcospasswd = none → n.shadow = none → n.passwd = some pwd →
    pwd user = some h → validateLogin c.crypt m user p = validateLogin c.crypt n user p ∧
    (validateLogin c.crypt m user p).isSome

/-- Neither back end accepts an unknown user or the placeholder. -/
def Refuses (c : Hashing) (user p : Text) : Prop :=
  (∀ pwd : Getpwnam, pwd user = none ∨ pwd user = some (lit "x") →
    validatePasswd c.crypt pwd user p ≠ some .ok) ∧
  ∀ (s : Shadow) (secs : Int), s.getspnam user = none ∨ s.getspnam user = some (.plain (lit "x")) →
    validateShadow c.crypt s secs user p ≠ some .ok

theorem plain_never (h : Text) (day : Int) :
    ¬ ((Spwd.plain h).found day ∨ (Spwd.plain h).unset day) := by
  simp [Spwd.plain, Spwd.found, Spwd.unset]

theorem validatePasswd_ok (crypt : Crypt) (pwd : Getpwnam) (user p : Text) :
    validatePasswd crypt pwd user p = some .ok ↔ crypt p passId = some (getPasswd pwd user) := by
  cases hk : crypt p passId with
  | none => simp [validatePasswd, hk]
  | some k => by_cases hsame : k = getPasswd pwd user <;> simp [validatePasswd, hk, hsame]

/-- **An unknown user and the placeholder are never accepted.** -/
theorem refuses (c : Hashing) (user p : Text) : Refuses c user p := by
  constructor
  · rintro pwd (h | h) hok
    · rw [validatePasswd_ok, getPasswd, h] at hok
      exact (c.some _ _ _ hok).1 rfl
    · rw [validatePasswd_ok, getPasswd, h] at hok
      exact (c.some _ _ _ hok).2 rfl
  · rintro s secs (h | h) hok
    · cases hr : s.readable <;> simp [validateShadow, h, hr] at hok
    · exact (c.some _ _ _ ((validateShadow_ok c.crypt h secs p).mp hok).1).2 rfl

/-- The answers to an entry without ageing fields. -/
theorem validateShadow_plain (crypt : Crypt) {s : Shadow} {user h : Text}
    (hs : s.getspnam user = some (.plain h)) (secs : Int) (p : Text) :
    validateShadow crypt s secs user p =
      (crypt p h).map fun k => if k = h then .ok else .noPass := by
  have hnever := plain_never h (days secs)
  rw [← tests_iff, not_or] at hnever
  simp only [validateShadow, hs, Spwd.plain] at hnever ⊢
  cases crypt p h with
  | none => rfl
  | some k => by_cases hk : k = h <;> simp [hk, hnever]

/-- **The back ends agree on a hash exactly if `crypt` succeeds under its salt and under
`PASS_ID`, and gives the hash under both or under neither.** -/
theorem backends_agree_iff (c : Hashing) (user h p : Text) : Agree c user h p ∧ Refuses c user p ↔
    c.crypt p h ≠ none ∧ c.crypt p passId ≠ none ∧
    (c.crypt p passId = some h ↔ c.crypt p h = some h) := by
  have hget : ∀ pwd : Getpwnam, pwd user = some h → getPasswd pwd user = h := fun pwd hpwd => by
    rw [getPasswd, hpwd, Option.getD_some]
  constructor
  · rintro ⟨hagree, -⟩
    have hpasswd := hagree.passwd (fun _ => some h) rfl
    rw [validatePasswd_ok, hget _ rfl] at hpasswd
    obtain ⟨hsame, hsome⟩ := hagree.login
      ⟨.thinClient, none, some ⟨fun _ => some (.plain h), true⟩, none, ⟨[], [], []⟩, 0⟩
      ⟨.thinClient, none, none, some fun _ => some h, ⟨[], [], []⟩,
        0⟩ _ _ rfl rfl rfl rfl rfl rfl rfl rfl rfl
    simp only [validateLogin] at hsame hsome
    rw [validateShadow_plain _ rfl] at hsame hsome
    refine ⟨?_, ?_, hpasswd⟩
    · simpa [Option.isSome_iff_ne_none] using hsome
    · rw [hsame] at hsome
      simpa [validatePasswd, Option.isSome_iff_ne_none] using hsome
  · rintro ⟨hown, hid, hiff⟩
    refine ⟨⟨fun pwd hpwd => ?_, fun s secs hs => ?_, ?_⟩, refuses c user p⟩
    · rw [validatePasswd_ok, hget pwd hpwd, hiff]
    · rw [validateShadow_ok c.crypt hs, and_iff_left (plain_never h _), Spwd.plain]
    · rintro m n s pwd hmb hmt hms hs hnb hnt hns hnp hpwd
      obtain ⟨k, hk⟩ := Option.ne_none_iff_exists'.mp hown
      obtain ⟨k', hk'⟩ := Option.ne_none_iff_exists'.mp hid
      simp only [validateLogin, hmb, hmt, hms, hnb, hnt, hns, hnp]
      rw [validateShadow_plain _ hs, validatePasswd, hget pwd hpwd]
      have hsame : k' = h ↔ k = h := by simpa [hk, hk'] using hiff
      simp [hk, hk', hsame]

/-- The salt's method, a dollar and the password. -/
def toyHashing : Hashing where
  crypt p s := some (s.take 3 ++ '$' :: p)
  some p s k hk := by
    have hdollar : '$' ∈ k := by simp [← Option.some.inj hk]
    refine ⟨List.ne_nil_of_mem hdollar, ?_⟩
    rintro rfl
    exact absurd hdollar (by with_unfolding_all decide)

/-- A hash with a salt of its own is accepted out of /etc/shadow and refused out of /etc/passwd. -/
theorem own_salt_ignored : ¬ (Agree toyHashing (lit "ana") (lit "$6$$k") (lit "k") ∧
    Refuses toyHashing (lit "ana") (lit "k")) := by
  rintro ⟨h, -⟩
  have hpasswd := (h.passwd (fun _ => some (lit "$6$$k")) rfl).mpr (by with_unfolding_all decide)
  exact absurd hpasswd (by with_unfolding_all decide)

end Tcos.Login
