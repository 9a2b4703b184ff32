import Tcos.Libc.Printed
import Tcos.Scripts.Autologin
import Tcos.Scripts.Hosts
import Tcos.Xmlrpc.Address

/-! tcos-gdm-autologin: from a generated host to its login.

`--add` writes an entry of /etc/hosts and adds a user for each thin client; later GDM calls the program
with the display of a client, and it prints the user that GDM is to log in. `generated_login_iff` says of
which clients that is the user who was added for them. -/
namespace Tcos.Scripts.Clients
open Shell (Text lit isBlank)
open Libc (tokens decimal)
open Python
open Systems (run Every run_append)
open Hosts (generated addHost addUserAndHost entries firstField IsField IsHost Fits)
open Autologin (Action Home Machine countMounts int readExeOutput restoreHome)
open Xmlrpc (Quad IsAddress)

/-! ### The program -/

inductive Shown where
  /-- The user of the option `--local`. -/
  | local
  | user (name : Text)
  /-- No user is configured for this host. -/
  | missing (host : Text)
  /-- An exception: the display has no colon, or the mounts of the home directory are not counted. -/
  | raised
  deriving DecidableEq, Repr

structure System where
  machine : Machine
  /-- The name of an address; `none` is an exception. -/
  gethostname : Text → Option Text
  /-- `pw_name` and `pw_dir`. -/
  getpwnam : Text → Option (Text × Text)

structure Flags where
  noaction : Bool
  deleteHome : Bool
  /-- The file `HOME_TEMPLATE` is there. -/
  template : Bool

/-- `host.rsplit(':', 1)[0]`, of a text with a colon. -/
def rsplitHost (display : Text) : Option Text :=
  if ':' ∈ display then some ((display.reverse.dropWhile (· != ':')).tail.reverse) else none

def isIp (host : Text) : Bool := (host.splitOn '.').length == 4

/-- What is done before the user is printed. -/
def prepare (s : System) (f : Flags) (username home : Text) : List Action :=
  (if f.noaction then [] else [.system (lit "pkill -9 -u " ++ username)]) ++
    if f.deleteHome then restoreHome s.machine f.noaction f.template home username else []

/-- `grep -c` prints no number in `restore_home`. -/
def restoreRaises (s : System) (f : Flags) (home : Text) : Bool :=
  f.deleteHome && !f.noaction && f.template &&
    ((readExeOutput (s.machine.prints (countMounts home))).head?.bind int).isNone

def showLogin (s : System) (f : Flags) (display : Text) : Shown × List Action :=
  match rsplitHost display with
  | none => (.raised, [])
  | some host =>
    if host = [] then (.local, [])
    else
      let host := if isIp host then (s.gethostname host).getD host else host
      match s.getpwnam host with
      | none => (.missing host, [])
      | some (username, home) =>
        (if restoreRaises s f home then .raised else .user username, prepare s f username home)

/-! ### Names of addresses -/

/-- The words of a line of /etc/hosts. -/
def words (line : Text) : List Text := tokens isBlank ((chomp line).takeWhile (· != '#'))

/-- The name of the first entry of an address that has one. -/
def canonical (ip data : Text) : Option Text :=
  (readlines data).findSome? fun line => if firstField line = ip then (words line)[1]? else none

/-- The home directory that `useradd` makes. -/
def homeOf (username : Text) : Text := lit "/home/" ++ username

/-- The system after the users were added: names come from the hosts file first, then from elsewhere. -/
structure After (s : System) (data : Text) (dns : Text → Option Text) (xs : List (Text × Text)) : Prop where
  names : ∀ ip, IsAddress ip → s.gethostname ip = (canonical ip data).or (dns ip)
  users : ∀ x ∈ xs, s.getpwnam x.2 = some (x.2, homeOf x.2)
  own : ∀ n p, s.getpwnam n = some p → p.1 = n

/-! ### Entries -/

section Entries
variable {data ip : Text} {x : Text × Text} {xs : List (Text × Text)}

/-- A host name that is a word of its line. -/
def IsWord (t : Text) : Prop := t ≠ [] ∧ ∀ c ∈ t, isBlank c = false ∧ c ≠ '#' ∧ c ≠ '\n'

theorem words_written (hip : IsField x.1) (hne : x.1 ≠ []) (hname : IsWord x.2) :
    words (x.1 ++ '\t' :: x.2 ++ ['\n']) = [x.1, x.2] := by
  have hnl : '\n' ∉ x.1 ++ '\t' :: x.2 := by
    simp only [List.mem_append, List.mem_cons, not_or]
    exact ⟨fun h => (hip '\n' h).2.2 rfl, by decide, fun h => (hname.2 '\n' h).2.2 rfl⟩
  have hhash : (x.1 ++ '\t' :: x.2).takeWhile (· != '#') = x.1 ++ '\t' :: x.2 := by
    rw [List.takeWhile_eq_self_iff]
    intro c hc
    simp only [List.mem_append, List.mem_cons] at hc
    rcases hc with hc | rfl | hc
    · simpa using (hip c hc).2.1
    · rfl
    · simpa using (hname.2 c hc).2.1
  rw [words, chomp_line hnl, hhash, Libc.tokens_append (fun c hc => (hip c hc).1) rfl, if_neg hne,
    Libc.tokens_single (fun c hc => (hname.2 c hc).1) hname.1]
  rfl

/-- An address without an entry has no name. -/
theorem canonical_none (h : entries ip data = 0) : canonical ip data = none := by
  rw [entries, List.countP_eq_zero] at h
  rw [canonical, List.findSome?_eq_none_iff]
  intro line hline
  exact if_neg fun hip => h line hline (decide_eq_true hip)

theorem canonical_written (hended : Ended data) (hip : IsField x.1) (hne : x.1 ≠ []) (hname : IsWord x.2)
    (ip : Text) : canonical ip (data ++ (x.1 ++ '\t' :: x.2 ++ ['\n'])) =
      (canonical ip data).or (if x.1 = ip then some x.2 else none) := by
  have hnl : '\n' ∉ x.1 ++ '\t' :: x.2 := by
    simp only [List.mem_append, List.mem_cons, not_or]
    exact ⟨fun h => (hip '\n' h).2.2 rfl, by decide, fun h => (hname.2 '\n' h).2.2 rfl⟩
  have hline : readlines (x.1 ++ '\t' :: x.2 ++ ['\n']) = [x.1 ++ '\t' :: x.2 ++ ['\n']] := by
    simpa [readlines] using readlines_line hnl []
  have hfirst : firstField (x.1 ++ '\t' :: x.2 ++ ['\n']) = x.1 :=
    Hosts.firstField_written hip (fun h => (hname.2 '\n' h).2.2 rfl) hne
  rw [canonical, readlines_append hended, List.findSome?_append, hline, List.findSome?_singleton, hfirst,
    words_written hip hne hname]
  rfl

/-- One host more. -/
theorem addHost_canonical (hx : IsHost x) (hname : IsWord x.2) (h : Fits data x) (ip : Text) :
    canonical ip (addHost false data x) =
      if x.1 = ip ∧ entries ip data = 0 then some x.2 else canonical ip data := by
  by_cases hfound : Hosts.isIn x.1 data = true
  · have hpos := h.found.mp hfound
    rw [Hosts.addHost_found hfound, if_neg]
    rintro ⟨rfl, hzero⟩
    omega
  · have hzero : ¬ 0 < entries x.1 data := fun hpos => hfound (h.found.mpr hpos)
    have hended := h.ended.resolve_left hzero
    rw [Hosts.addHost_missing hfound, canonical_written hended h.field hx.some hname]
    by_cases heq : x.1 = ip
    · subst heq
      rw [if_pos rfl, if_pos ⟨rfl, by omega⟩, canonical_none (by omega), Option.none_or]
    · rw [if_neg heq, if_neg fun hand => heq hand.1, Option.or_none]

theorem addHost_entries (hx : IsHost x) (h : Fits data x) (hother : x.1 ≠ ip) :
    entries ip (addHost false data x) = entries ip data := by
  by_cases hfound : Hosts.isIn x.1 data = true
  · rw [Hosts.addHost_found hfound]
  · have hzero : ¬ 0 < entries x.1 data := fun hpos => hfound (h.found.mpr hpos)
    rw [Hosts.addHost_missing hfound, Hosts.entries_written (h.ended.resolve_left hzero) h.field hx.name hx.some,
      if_neg hother, Nat.add_zero]

/-- Other addresses. -/
theorem run_other (hxs : ∀ x ∈ xs, IsHost x ∧ IsWord x.2) (h : Every (addHost false) Fits data xs)
    (hother : ∀ x ∈ xs, x.1 ≠ ip) :
    entries ip (run (addHost false) data xs) = entries ip data ∧
      canonical ip (run (addHost false) data xs) = canonical ip data := by
  induction xs generalizing data with
  | nil => exact ⟨rfl, rfl⟩
  | cons x xs ih =>
    obtain ⟨hx, hxs⟩ := List.forall_mem_cons.mp hxs
    obtain ⟨hne, hother⟩ := List.forall_mem_cons.mp hother
    obtain ⟨hentries, hname⟩ := ih hxs h.2 hother
    rw [run, List.foldl_cons, ← run]
    refine ⟨hentries.trans (addHost_entries hx.1 h.1 hne), hname.trans ?_⟩
    rw [addHost_canonical hx.1 hx.2 h.1, if_neg fun hand => hne hand.1]

/-- **The name of an address after all hosts were added: the one it had, or its own.** -/
theorem run_canonical (hxs : ∀ x ∈ xs, IsHost x ∧ IsWord x.2) (hdistinct : (xs.map Prod.fst).Nodup)
    (h : Every (addHost false) Fits data xs) (hx : x ∈ xs) :
    canonical x.1 (run (addHost false) data xs) =
      if entries x.1 data = 0 then some x.2 else canonical x.1 data := by
  obtain ⟨before, after, rfl⟩ := List.append_of_mem hx
  obtain ⟨hbefore, hmiddle, hafter⟩ := Systems.every_append.mp h
  rw [List.map_append, List.map_cons, List.nodup_append] at hdistinct
  obtain ⟨-, hrest, hapart⟩ := hdistinct
  have hother : ∀ y ∈ before, y.1 ≠ x.1 := fun y hy =>
    hapart y.1 (List.mem_map_of_mem hy) x.1 (List.mem_cons_self ..)
  have hother' : ∀ y ∈ after, y.1 ≠ x.1 := fun y hy heq =>
    (List.nodup_cons.mp hrest).1 (heq ▸ List.mem_map_of_mem hy)
  obtain ⟨hentries, hname⟩ := run_other (fun y hy => hxs y (by simp [hy])) hbefore hother
  obtain ⟨-, hlast⟩ := run_other (fun y hy => hxs y (by simp [hy])) hafter hother'
  have hsplit : run (addHost false) data (before ++ x :: after) =
      run (addHost false) (addHost false (run (addHost false) data before) x) after := by
    rw [run_append]
    rfl
  rw [hsplit, hlast, addHost_canonical (hxs x hx).1 (hxs x hx).2 hmiddle, hentries, hname]
  simp

end Entries

/-! ### The generated hosts -/

section Generated
variable {common ipbase : Text} {number fromip : Int}

/-- No two clients have one address. -/
theorem generated_distinct : ((generated common ipbase number fromip).map Prod.fst).Nodup := by
  have hnumbers : (do let k ← List.range number.toNat; pure (k : Int)).Nodup := by
    rw [List.bind_eq_flatMap]
    simp only [List.pure_def, ← List.map_eq_flatMap]
    exact List.Nodup.map Nat.cast_injective List.nodup_range
  rw [generated, List.map_map]
  refine List.Nodup.map (fun i j h => ?_) hnumbers
  have hij := Libc.decimal_injective (List.cons.inj (List.append_cancel_left h)).2
  omega

theorem decimal_word {c : Char} {n : Int} (hc : c ∈ decimal n) : isBlank c = false ∧ c ≠ '#' ∧ c ≠ '\n' := by
  rcases Libc.decimal_chars n c hc with h | rfl
  · have hother : ∀ d ∈ [' ', '\t', '#', '\n'], c ≠ d := by
      intro d hd
      rintro rfl
      fin_cases hd <;> exact absurd h (by decide)
    simp only [List.forall_mem_cons] at hother
    exact ⟨by simp [isBlank, hother], hother.2.2.1, hother.2.2.2.1⟩
  · decide

theorem generated_word (hcommon : ∀ c ∈ common, isBlank c = false ∧ c ≠ '#' ∧ c ≠ '\n') {x : Text × Text}
    (hx : x ∈ generated common ipbase number fromip) : IsWord x.2 := by
  obtain ⟨k, -, rfl⟩ := List.mem_map.mp hx
  refine ⟨by simp [Libc.decimal_ne_nil], fun c hc => ?_⟩
  exact (List.mem_append.mp hc).elim (hcommon c) decimal_word

theorem isIp_address {ip : Text} (h : IsAddress ip) : isIp ip = true := by
  obtain ⟨q, rfl⟩ := h
  have hdot : ∀ t ∈ q.numbers.map (Nat.toDigits 10), '.' ∉ t := by
    intro t ht hmem
    obtain ⟨n, -, rfl⟩ := List.mem_map.mp ht
    exact absurd (Libc.toDigits_digit n '.' hmem) (by decide)
  rw [isIp, Quad.text, List.splitOn_intercalate '.' hdot (by simp [Quad.numbers])]
  rfl

theorem rsplitHost_display {host d : Text} (hd : ':' ∉ d) : rsplitHost (host ++ ':' :: d) = some host := by
  have hrest : ∀ c ∈ d.reverse, (c != ':') = true := by
    intro c hc
    simpa using fun h : c = ':' => hd (h ▸ List.mem_reverse.mp hc)
  rw [rsplitHost, if_pos (by simp), List.reverse_append, List.reverse_cons, List.append_assoc,
    List.singleton_append, List.dropWhile_append_of_pos hrest, List.dropWhile_cons_of_neg (by simp)]
  simp

/-- A byte of the names that `useradd` takes everywhere. -/
def isNameByte (c : Char) : Bool := c.isAlphanum || c == '.' || c == '-' || c == '_'

theorem isNameByte_other {c d : Char} (hc : isNameByte c = true) (hd : isNameByte d = false) : c ≠ d := by
  rintro rfl
  rw [hc] at hd
  exact absurd hd (by decide)

theorem generated_named (hcommon : ∀ c ∈ common, isNameByte c = true) {x : Text × Text}
    (hx : x ∈ generated common ipbase number fromip) : ∀ c ∈ x.2, isNameByte c = true := by
  obtain ⟨k, -, rfl⟩ := List.mem_map.mp hx
  intro c hc
  rcases List.mem_append.mp hc with hc | hc
  · exact hcommon c hc
  · rcases Libc.decimal_chars _ c hc with hdigit | rfl
    · simp [isNameByte, Char.isAlphanum, hdigit]
    · decide

/-- The mounts below the home directory of such a name are counted. -/
theorem restoreRaises_named (s : System) (f : Flags) {username : Text}
    (h : ∀ c ∈ username, isNameByte c = true) : restoreRaises s f (homeOf username) = false := by
  have hbyte : ∀ c ∈ homeOf username, c = '/' ∨ isNameByte c = true := by
    intro c hc
    rcases List.mem_append.mp hc with hc | hc
    · exact Shell.each (P := fun c => c = '/' ∨ isNameByte c = true) (by with_unfolding_all decide) c hc
    · exact .inr (h c hc)
  have hother : ∀ c ∈ homeOf username, ∀ d, d ≠ '/' → isNameByte d = false → c ≠ d := by
    intro c hc d hslash hd
    rcases hbyte c hc with rfl | hc
    · exact hslash.symm
    · exact isNameByte_other hc hd
  have hdotted : Grep.Dotted (homeOf username) := by
    refine ⟨fun c hc => ?_, fun hhead => ?_, fun hlast => ?_⟩
    · have hnone := hother c hc
      simp [Grep.isSimple, hnone '\\' (by decide) (by decide), hnone '[' (by decide) (by decide),
        hnone '*' (by decide) (by decide), hnone '\n' (by decide) (by decide)]
    · exact hother '^' (List.mem_of_mem_head? hhead) '^' (by decide) (by decide) rfl
    · exact hother '$' (List.mem_of_getLast? hlast) '$' (by decide) (by decide) rfl
  let home : Home :=
    { path := homeOf username
      root := by with_unfolding_all rfl
      quotable := by
        intro c hc
        have hnone := hother c hc
        simp [Shell.isDull, hnone '\x22' (by decide) (by decide), hnone '\\' (by decide) (by decide),
          hnone '$' (by decide) (by decide), hnone '\x60' (by decide) (by decide)] }
  have hcounted := Autologin.counted s.machine home (by rw [show home.path = homeOf username from rfl, hdotted.compile]; rfl)
  rw [restoreRaises, show homeOf username = home.path from rfl, hcounted]
  simp

/-- **The user that a generated client is logged in as.** -/
theorem generated_login_iff (hcommon : ∀ c ∈ common, isBlank c = false ∧ c ≠ '#' ∧ c ≠ '\n')
    (hline : '\n' ∉ ipbase) {resp data : Text} (hresp : resp = lit "y" ∨ resp = lit "Y")
    (hfits : Every (addHost false) Fits data (generated common ipbase number fromip)) {s : System}
    {dns : Text → Option Text}
    (hs : After s (addUserAndHost false common ipbase number fromip resp data) dns
      (generated common ipbase number fromip)) (f : Flags) {x : Text × Text}
    (hx : x ∈ generated common ipbase number fromip) (haddress : IsAddress x.1) {d : Text} (hd : ':' ∉ d) :
    (showLogin s f (x.1 ++ ':' :: d) = (.user x.2, prepare s f x.2 (homeOf x.2)) ↔
      (entries x.1 data = 0 ∨ ((canonical x.1 data).or (dns x.1)).getD x.1 = x.2) ∧
        restoreRaises s f (homeOf x.2) = false) ∧
    ((∀ c ∈ common, isNameByte c = true) → restoreRaises s f (homeOf x.2) = false) := by
  have hhosts := Hosts.generated_isHost (fun h => (hcommon '\n' h).2.2 rfl) hline number fromip
  have hword : ∀ y ∈ generated common ipbase number fromip, IsHost y ∧ IsWord y.2 :=
    fun y hy => ⟨hhosts y hy, generated_word hcommon hy⟩
  have hname := run_canonical hword generated_distinct hfits hx
  rw [← Hosts.addUserAndHost_run hresp] at hname
  -- the name that is looked up
  have hlookup : (s.gethostname x.1).getD x.1 = if entries x.1 data = 0 then x.2
      else ((canonical x.1 data).or (dns x.1)).getD x.1 := by
    rw [hs.names _ haddress, hname]
    split <;> rfl
  have hlogin : showLogin s f (x.1 ++ ':' :: d) =
      match s.getpwnam ((s.gethostname x.1).getD x.1) with
      | none => (.missing ((s.gethostname x.1).getD x.1), [])
      | some p => (if restoreRaises s f p.2 then .raised else .user p.1, prepare s f p.1 p.2) := by
    simp only [showLogin, rsplitHost_display hd, (hhosts x hx).some, if_false,
      isIp_address haddress, if_true]
    cases s.getpwnam ((s.gethostname x.1).getD x.1) <;> rfl
  have huser : showLogin s f (x.1 ++ ':' :: d) = (.user x.2, prepare s f x.2 (homeOf x.2)) ↔
      (s.gethostname x.1).getD x.1 = x.2 ∧ restoreRaises s f (homeOf x.2) = false := by
    rw [hlogin]
    constructor
    · intro h
      cases hpw : s.getpwnam ((s.gethostname x.1).getD x.1) with
      | none => simp [hpw] at h
      | some p =>
        simp only [hpw, Prod.mk.injEq] at h
        cases hraises : restoreRaises s f p.2 with
        | true => simp [hraises] at h
        | false =>
          have hown : p.1 = x.2 := by simpa [hraises] using h.1
          have hname := (hs.own _ _ hpw).symm.trans hown
          rw [hname, hs.users x hx] at hpw
          rw [← Option.some.inj hpw] at hraises
          exact ⟨hname, hraises⟩
    · rintro ⟨hname, hraises⟩
      rw [hname, hs.users x hx]
      simp [hraises]
  refine ⟨?_, fun hcommon => restoreRaises_named s f ?_⟩
  · rw [huser, hlookup]
    split
    case isTrue hzero => simp [hzero]
    case isFalse hpos => simp [hpos]
  · exact generated_named hcommon hx

/-- The system of two clients. -/
def twoClients (data : Text) : System where
  machine := Autologin.plainMachine []
  gethostname ip := canonical ip data
  getpwnam n := if n = lit "host1" ∨ n = lit "host2" then some (n, homeOf n) else none

theorem twoClients_after (data : Text) :
    After (twoClients data) data (fun _ => none) (generated (lit "host") (lit "192.168.0") 2 1) where
  names _ _ := Option.or_none.symm
  users x hx := by
    have hnames : ∀ y ∈ generated (lit "host") (lit "192.168.0") 2 1,
        y.2 = lit "host1" ∨ y.2 = lit "host2" := by
      with_unfolding_all decide
    exact if_pos (hnames x hx)
  own n p h := by
    simp only [twoClients] at h
    split at h
    · exact congrArg Prod.fst (Option.some.inj h).symm
    · exact absurd h nofun

theorem generated_login_host1 :
    (showLogin (twoClients (addUserAndHost false (lit "host") (lit "192.168.0") 2 1 (lit "y")
        (lit "127.0.0.1\tlocalhost\n"))) ⟨false, true, true⟩ (lit "192.168.0.1" ++ ':' :: ['0']) =
        (.user (lit "host1"), prepare (twoClients (addUserAndHost false (lit "host") (lit "192.168.0") 2 1
          (lit "y") (lit "127.0.0.1\tlocalhost\n"))) ⟨false, true, true⟩ (lit "host1")
            (homeOf (lit "host1"))) ↔
      (entries (lit "192.168.0.1") (lit "127.0.0.1\tlocalhost\n") = 0 ∨
        ((canonical (lit "192.168.0.1") (lit "127.0.0.1\tlocalhost\n")).or none).getD (lit "192.168.0.1") =
          lit "host1") ∧
        restoreRaises (twoClients (addUserAndHost false (lit "host") (lit "192.168.0") 2 1 (lit "y")
          (lit "127.0.0.1\tlocalhost\n"))) ⟨false, true, true⟩ (homeOf (lit "host1")) = false) ∧
    ((∀ c ∈ lit "host", isNameByte c = true) →
      restoreRaises (twoClients (addUserAndHost false (lit "host") (lit "192.168.0") 2 1 (lit "y")
        (lit "127.0.0.1\tlocalhost\n"))) ⟨false, true, true⟩ (homeOf (lit "host1")) = false) :=
  generated_login_iff (x := (lit "192.168.0.1", lit "host1"))
    (Shell.each (by with_unfolding_all decide)) (by with_unfolding_all decide) (.inl rfl)
    (by
      have hended : Ended (lit "127.0.0.1\tlocalhost\n") := by
        have hlast : (lit "127.0.0.1\tlocalhost\n").getLast? = some '\n' := by with_unfolding_all decide
        intro c hc
        rw [hlast] at hc
        exact (Option.some.inj hc).symm
      refine ⟨⟨Shell.each (by with_unfolding_all decide), by with_unfolding_all decide, .inr hended⟩,
        ⟨Shell.each (by with_unfolding_all decide), by with_unfolding_all decide, .inr ?_⟩, trivial⟩
      rw [Hosts.addHost_missing (by with_unfolding_all decide)]
      exact ended_line _ _)
    (twoClients_after _)
    _ (by with_unfolding_all decide) ⟨(192, 168, 0, 1), by with_unfolding_all decide⟩ (by decide)

end Generated

end Tcos.Scripts.Clients
