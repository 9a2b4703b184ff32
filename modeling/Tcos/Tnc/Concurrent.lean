import Tcos.Systems.Run
import Tcos.Tnc.Runs

/-! Invocations that run at the same time.

Several requests can be served at once, and each starts its own tcos-net-controller. A
process takes one step for each command it runs on the shared chain: the status command,
the listing, one deletion, one appended rule. The numbers it deletes by are those of an
earlier listing. `deletions_safe`: no deletion hits a foreign rule in a run where no
process deletes below a number that another one still holds. -/
namespace Tcos.Tnc
open Shell (Text lit isLiteral)
open Libc
open Numbered
open Systems (Shared Every)

/-! ### Processes -/

/-- What a process was started for. -/
inductive Job where
  | disable (only arg3 eth user : Text)
  | enable (only user : Text)
  deriving DecidableEq

def Job.user : Job → Text
  | .disable _ _ _ user => user
  | .enable _ user => user

def Job.only : Job → Text
  | .disable only _ _ _ => only
  | .enable only _ => only

/-- The command that comes next. -/
inductive Phase where
  | status
  | list
  /-- The tokens still to be deleted by, each with its index in the table. -/
  | deleting (tokens : List (Text × Nat))
  | route
  | ports (tokens : List (Text × Nat)) (dirred : Text)
  | allow (dirred : Text)
  | block (dirred : Text)
  | done
  deriving DecidableEq

structure Process where
  job : Job
  /-- The flush is the one after a failure. -/
  retreating : Bool
  phase : Phase
  deriving DecidableEq

def Process.start (job : Job) : Process := ⟨job, false, .status⟩

def Process.to (p : Process) (phase : Phase) : Process := { p with phase := phase }

/-- After a flush, `disable-internet` goes on to the route unless it has failed before. -/
def Process.afterFlush (p : Process) : Process :=
  match p.job with
  | .enable .. => p.to .done
  | .disable .. => if p.retreating then p.to .done else p.to .route

/-- `add_iptables_user` returned zero. -/
def Process.retreat (p : Process) : Process := { p with retreating := true, phase := .status }

/-- With all ports appended. -/
def Process.afterPorts (p : Process) (only arg3 dirred : Text) : Process :=
  if only = lit "no" then p.to (.allow dirred) else if hasPorts arg3 then p.to .done else p.retreat

/-- One command of a process; `call` is what the world does during it. -/
def Process.advance (m : Machine) (call : AddCall) (p : Process) (c : Chain) : Process × Chain :=
  let user := p.job.user
  match p.phase, p.job with
  | .status, _ =>
    (if statusIptablesUser m call.flush user c then p.to .list else p.afterFlush, c)
  | .list, job =>
    if call.flush.listOpens then
      let line := readLine call.flush.lineJunk (flushOutput m call.flush user job.only c)
      (p.to (.deleting (split (· == ' ') line).zipIdx), c)
    else (p.afterFlush, c)
  | .deleting [], _ => (p.afterFlush, c)
  | .deleting ((token, i) :: tokens), _ =>
    (p.to (.deleting tokens), if call.flush.deleteOpens i then deleteToken call.flush c token else c)
  | .route, .disable _ arg3 eth _ =>
    if call.routeOpens then
      (p.to (.ports (blockedPorts arg3).zipIdx (readLine call.routeJunk (routeOutput m call eth))), c)
    else (p.retreat, c)
  | .ports [] dirred, .disable only arg3 _ _ => (p.afterPorts only arg3 dirred, c)
  | .ports (token :: tokens) dirred, _ =>
    (p.to (.ports tokens dirred), appendPort m call user c token)
  | .allow dirred, _ =>
    if call.allowOpens then (p.to (.block dirred), appendAllow m call user c) else (p.retreat, c)
  | .block dirred, _ =>
    if call.blockOpens then (p.to .done, appendBlock m call user dirred c) else (p.retreat, c)
  -- `enable-internet` appends nothing, and a process that is done stays so
  | .route, .enable .. | .ports [] _, .enable .. | .done, _ => (p.to .done, c)

abbrev System (ι : Type) := Shared ι Chain Process

section
variable {ι : Type} [DecidableEq ι]

def System.step (m : Machine) (s : System ι) (turn : ι × AddCall) : System ι :=
  Shared.step (Process.advance m) s turn

/-- Every process at its start. -/
def System.initial (c : Chain) (jobs : ι → Job) : System ι := ⟨c, fun i => .start (jobs i)⟩

end

/-! ### A process on its own

Alone, a process runs `flush_iptables_user` and `add_iptables_user` as they are. -/

section Alone
variable (m : Machine) (call : AddCall)

/-- Some number of steps, all in the same world, lead from one state to another. -/
def Reaches (x y : Process × Chain) : Prop :=
  ∃ k, Systems.run (Systems.alone (Process.advance m)) x (List.replicate k call) = y

variable {m call}

theorem Reaches.refl (x : Process × Chain) : Reaches m call x x := ⟨0, rfl⟩

theorem Reaches.trans {x y z : Process × Chain} (h : Reaches m call x y) (h' : Reaches m call y z) :
    Reaches m call x z := by
  obtain ⟨j, rfl⟩ := h
  obtain ⟨k, rfl⟩ := h'
  exact ⟨j + k, by rw [← List.replicate_append_replicate, Systems.run_append]⟩

theorem Reaches.step {x y : Process × Chain} (h : Process.advance m call x.1 x.2 = y) :
    Reaches m call x y := ⟨1, h⟩

theorem deleting_alone (p : Process) (tokens : List (Text × Nat)) (c : Chain) :
    Reaches m call (p.to (.deleting tokens), c) (p.afterFlush,
      ((tokens.filter fun t => call.flush.deleteOpens t.2).map Prod.fst).foldl
        (deleteToken call.flush) c) := by
  induction tokens generalizing c with
  | nil => exact .step rfl
  | cons t tokens ih =>
    obtain ⟨token, i⟩ := t
    refine Reaches.trans (.step rfl) ?_
    cases ho : call.flush.deleteOpens i
    · simpa [Process.advance, Process.to, ho] using ih c
    · simpa [Process.advance, Process.to, ho] using ih (deleteToken call.flush c token)

theorem flush_alone (p : Process) (hp : p.phase = .status) (c : Chain) :
    Reaches m call (p, c)
      (p.afterFlush, (flushIptablesUser m call.flush p.job.user (onlyPortsArg p.job.only) c).chain) := by
  obtain ⟨job, retreating, phase⟩ := p
  obtain rfl : phase = .status := hp
  refine Reaches.trans (.step rfl) ?_
  simp only [flushIptablesUser, onlyPorts_arg]
  cases hs : statusIptablesUser m call.flush job.user c
  · simpa [Process.advance, hs] using Reaches.refl _
  · refine Reaches.trans (.step rfl) ?_
    cases ho : call.flush.listOpens
    · simpa [Process.advance, Process.to, hs, ho, Process.afterFlush] using Reaches.refl _
    · simpa [Process.advance, Process.to, hs, ho, issue, Process.afterFlush] using
        deleting_alone (m := m) ⟨job, retreating, .list⟩ _ c

theorem ports_alone (p : Process) (tokens : List (Text × Nat)) (dirred : Text) (c : Chain) :
    Reaches m call (p.to (.ports tokens dirred), c)
      (p.to (.ports [] dirred), tokens.foldl (appendPort m call p.job.user) c) := by
  induction tokens generalizing c with
  | nil => exact .refl _
  | cons t tokens ih => exact Reaches.trans (.step rfl) (ih _)

/-- **A `disable-internet` process on its own does what `add_iptables_user` does, and goes on
to the flush after a failure if that returned zero.** -/
theorem disable_alone (only arg3 eth user : Text) (c : Chain) :
    Reaches m call (.start (.disable only arg3 eth user), c)
      (if (addIptablesUser m call (onlyPortsArg only) arg3 eth user c).1
        then (Process.start (.disable only arg3 eth user)).to .done
        else (Process.start (.disable only arg3 eth user)).retreat,
        (addIptablesUser m call (onlyPortsArg only) arg3 eth user c).2) := by
  refine (flush_alone _ rfl c).trans ?_
  simp only [addIptablesUser, onlyPorts_arg, Job.user, Job.only, Process.start]
  refine Reaches.trans (.step rfl) ?_
  cases hroute : call.routeOpens
  · simpa [Process.advance, Process.afterFlush, Process.to, Process.retreat, hroute] using Reaches.refl _
  · have hports := @ports_alone m call (.start (.disable only arg3 eth user))
      (blockedPorts arg3).zipIdx (readLine call.routeJunk (routeOutput m call eth))
      (flushIptablesUser m call.flush user (onlyPortsArg only) c).chain
    simp only [Process.advance, Process.afterFlush, Process.to, hroute, if_true, Bool.not_true,
      Bool.false_eq_true, if_false, Process.start, Job.user] at hports ⊢
    refine hports.trans (Reaches.trans (.step rfl) ?_)
    by_cases hmode : only = lit "no"
    · simp only [Process.advance, Process.afterPorts, Process.to, hmode, if_true]
      refine Reaches.trans (.step rfl) ?_
      cases hallow : call.allowOpens
      · simpa [Process.advance, Process.retreat, Job.user, hallow] using Reaches.refl _
      · simp only [Process.advance, Process.to, hallow, if_true, Job.user, Bool.not_true,
          Bool.false_eq_true, if_false]
        refine Reaches.trans (.step rfl) ?_
        cases hblock : call.blockOpens <;>
          simpa [Process.advance, Process.to, Process.retreat, Job.user, hblock] using Reaches.refl _
    · simp only [Process.advance, Process.afterPorts, Process.to, Process.retreat, hmode, if_false]
      exact .refl _

end Alone

/-! ### Foreign rules -/

/-- The chain stays, or it loses one rule of the user's. -/
def DeletesOwn (m : Machine) (user : Text) (before after : Chain) : Prop :=
  after = before ∨ ∃ a r b, before = a ++ r :: b ∧ after = a ++ b ∧ own m user r = true

/-- If the process deletes now, it deletes a rule of its user's or none. -/
def DeleteSafe {ι : Type} [DecidableEq ι] (m : Machine) (s : System ι) (turn : ι × AddCall) : Prop :=
  ∀ token tokens, (s.procs turn.1).phase = .deleting (token :: tokens) →
    DeletesOwn m (s.procs turn.1).job.user s.state (s.step m turn).state

/-! ### The condition -/

/-- The numbers a process still holds. -/
def Process.pending (p : Process) : List Nat :=
  match p.phase with
  | .deleting tokens => tokens.filterMap fun t => ruleNumber t.1
  | _ => []

/-- A listing picks rules of the user's, some of them, and their numbers fit. -/
structure ListsOwn (m : Machine) (user only : Text) (c : Chain) : Prop where
  readable : isReadable (flushLine m user only) user = true
  some : ∃ r ∈ c, flushPicks m user only r = true
  own : ∀ r ∈ c, flushPicks m user only r = true → own m user r = true
  fits : Fits (numbers (flushPicks m user only) c)

/-- The command that appends a rule is read as it was meant. -/
def Process.appendsPlain (m : Machine) (p : Process) : Prop :=
  let user := p.job.user
  match p.phase with
  | .ports ((token, _) :: _) _ =>
    portReadable token user = true ∧ (m.passwd user).isSome = true
  | .allow _ =>
    isLiteral user = true ∧ (allowLine user).length < bsize ∧ (m.passwd user).isSome = true
  | .block dirred =>
    (dirred ≠ [] ∧ (∀ c ∈ dirred, c.isDigit = true ∨ c = '.' ∨ c = '/') ∧ dirred.length ≤ 18) ∧
      isLiteral user = true ∧ (blockLine dirred user).length < bsize ∧ (m.passwd user).isSome = true
  | _ => True

/-- The condition on a step: a listing finds what is the user's, a deletion comes after
every number that another process still holds, an append appends. -/
structure TurnOk {ι : Type} (m : Machine) (s : System ι) (turn : ι × AddCall) : Prop where
  lists : (s.procs turn.1).phase = .list → turn.2.flush.listOpens = true →
    ListsOwn m (s.procs turn.1).job.user (s.procs turn.1).job.only s.state
  deletes : ∀ token i tokens, (s.procs turn.1).phase = .deleting ((token, i) :: tokens) →
    turn.2.flush.deleteOpens i = true → ∀ n, ruleNumber token = some n →
      ∀ j ≠ turn.1, ∀ k ∈ (s.procs j).pending, k < n
  appends : (s.procs turn.1).appendsPlain m

/-! ### One step -/

theorem append_grows {m : Machine} {call : AddCall} {user line : Text} {takes : Bool}
    {rule : UInt32 → Rule} {c : Chain} (hu : (m.passwd user).isSome = true) :
    append m call user line true takes rule c = c ∨ ∃ r,
    append m call user line true takes rule c = c ++ [r] := by
  obtain ⟨uid, huid⟩ := Option.isSome_iff_exists.mp hu
  cases takes with
  | false => exact .inl (by simp [append, huid])
  | true => exact .inr ⟨rule uid, by simp [append, huid]⟩

/-- What a step does to the chain. -/
theorem advance_chain {m : Machine} {call : AddCall} {p : Process} (h : p.appendsPlain m) (c : Chain) :
    (∃ token i tokens, p.phase = .deleting ((token, i) :: tokens) ∧ call.flush.deleteOpens i = true ∧
      (p.advance m call c).2 = deleteToken call.flush c token) ∨
    (p.advance m call c).2 = c ∨ ∃ r, (p.advance m call c).2 = c ++ [r] := by
  obtain ⟨job, retreating, phase⟩ := p
  cases phase with
  | status => exact .inr (.inl rfl)
  | list =>
    refine .inr (.inl ?_)
    simp only [Process.advance]
    split <;> rfl
  | deleting tokens =>
    cases tokens with
    | nil => exact .inr (.inl rfl)
    | cons t tokens =>
      by_cases ho : call.flush.deleteOpens t.2 = true
      · exact .inl ⟨t.1, t.2, tokens, rfl, ho, by simp [Process.advance, ho]⟩
      · exact .inr (.inl (by simp [Process.advance, ho]))
  | route =>
    refine .inr (.inl ?_)
    cases job with
    | disable only arg3 eth user =>
      simp only [Process.advance]
      split <;> rfl
    | enable only user => rfl
  | ports tokens dirred =>
    cases tokens with
    | nil => cases job <;> exact .inr (.inl rfl)
    | cons t tokens =>
      obtain ⟨hread, hu⟩ := h
      refine .inr ?_
      simp only [Process.advance, appendPort, hread]
      split
      · exact append_grows hu
      · exact .inl rfl
  | allow dirred =>
    obtain ⟨hl, hfits, hu⟩ := h
    refine .inr ?_
    simp only [Process.advance, appendAllow, hl, hfits, decide_true, Bool.and_self]
    split
    · exact append_grows hu
    · exact .inl rfl
  | block dirred =>
    obtain ⟨hnet, hl, hfits, hu⟩ := h
    refine .inr ?_
    simp only [Process.advance, appendBlock, dif_pos hnet, hl, hfits, decide_true, Bool.and_self]
    split
    · exact append_grows hu
    · exact .inl rfl
  | done => exact .inr (.inl rfl)

theorem advance_job (m : Machine) (call : AddCall) (p : Process) (c : Chain) :
    (p.advance m call c).1.job = p.job := by
  obtain ⟨job, retreating, phase⟩ := p
  have hflush : (Process.afterFlush ⟨job, retreating, phase⟩).job = job := by
    unfold Process.afterFlush
    split
    · rfl
    · split <;> rfl
  have hports : ∀ only arg3 dirred,
      (Process.afterPorts ⟨job, retreating, phase⟩ only arg3 dirred).job = job :=
        fun only arg3 dirred => by
    unfold Process.afterPorts
    split
    · rfl
    · split <;> rfl
  unfold Process.advance
  split
  · simp only
    split
    · rfl
    · exact hflush
  · split
    · rfl
    · exact hflush
  · exact hflush
  · rfl
  · split <;> rfl
  · exact hports _ _ _
  · rfl
  · split <;> rfl
  · split <;> rfl
  · rfl
  · rfl
  · rfl

theorem afterFlush_phase (p : Process) (tokens : List (Text × Nat)) :
    p.afterFlush.phase ≠ .deleting tokens := by
  unfold Process.afterFlush
  split
  · exact Phase.noConfusion
  · split <;> exact Phase.noConfusion

theorem afterPorts_phase (p : Process) (only arg3 dirred : Text) (tokens : List (Text × Nat)) :
    (p.afterPorts only arg3 dirred).phase ≠ .deleting tokens := by
  unfold Process.afterPorts
  split
  · exact Phase.noConfusion
  · split <;> exact Phase.noConfusion

/-- The tokens a process holds come from its listing, or it held them before. -/
theorem advance_deleting {m : Machine} {call : AddCall} {p : Process} {c : Chain}
    {tokens : List (Text × Nat)} (h : (p.advance m call c).1.phase = .deleting tokens) :
    (p.phase = .list ∧ call.flush.listOpens = true ∧ tokens = (split (· == ' ')
      (readLine call.flush.lineJunk (flushOutput m call.flush p.job.user p.job.only c))).zipIdx) ∨
    ∃ t, p.phase = .deleting (t :: tokens) := by
  obtain ⟨job, retreating, phase⟩ := p
  cases phase with
  | status =>
    simp only [Process.advance] at h
    split at h
    · cases h
    · exact absurd h (afterFlush_phase _ _)
  | list =>
    simp only [Process.advance] at h
    split at h
    case isTrue ho => exact .inl ⟨rfl, ho, (Phase.deleting.inj h).symm⟩
    case isFalse => exact absurd h (afterFlush_phase _ _)
  | deleting held =>
    cases held with
    | nil => exact absurd h (afterFlush_phase _ _)
    | cons t held => exact .inr ⟨t, by rw [← Phase.deleting.inj h]⟩
  | route =>
    cases job with
    | disable only arg3 eth user =>
      simp only [Process.advance] at h
      split at h <;> cases h
    | enable only user => cases h
  | ports held dirred =>
    cases held with
    | nil =>
      cases job with
      | disable only arg3 eth user => exact absurd h (afterPorts_phase _ _ _ _ _)
      | enable only user => cases h
    | cons t held => cases h
  | allow dirred =>
    simp only [Process.advance] at h
    split at h <;> cases h
  | block dirred =>
    simp only [Process.advance] at h
    split at h <;> cases h
  | done => cases h

/-! ### Held numbers point at own rules -/

/-- The number is that of a rule of the user's. -/
def PointsAtOwn (m : Machine) (user : Text) (c : Chain) (n : Nat) : Prop :=
  1 ≤ n ∧ ∃ r, (c)[n - 1]? = some r ∧ own m user r = true

/-- The tokens are numbers, the largest first, of rules of the user's. -/
structure HoldsOwn (m : Machine) (user : Text) (c : Chain) (tokens : List (Text × Nat))
    (ns : List Nat) : Prop where
  texts : tokens.map Prod.fst = ns.map (Nat.toDigits 10)
  sorted : ns.Pairwise (· > ·)
  own : ∀ n ∈ ns, PointsAtOwn m user c n

/-- **Whatever a process still holds points at rules of its user's.** -/
def NumbersOwn {ι : Type} (m : Machine) (s : System ι) : Prop :=
  ∀ i tokens, (s.procs i).phase = .deleting tokens →
    ∃ ns, HoldsOwn m (s.procs i).job.user s.state tokens ns

theorem HoldsOwn.pending {m : Machine} {p : Process} {c : Chain} {tokens : List (Text × Nat)}
    {ns : List Nat} (h : HoldsOwn m p.job.user c tokens ns) (hp : p.phase = .deleting tokens) :
    p.pending = ns := by
  have hmap : (tokens.filterMap fun t => ruleNumber t.1) =
      (tokens.map Prod.fst).filterMap ruleNumber := by
    rw [List.filterMap_map]
    rfl
  have hall : ∀ ks : List Nat, (∀ n ∈ ks, 1 ≤ n) →
      (ks.map (Nat.toDigits 10)).filterMap ruleNumber = ks := by
    intro ks
    induction ks with
    | nil => exact fun _ => rfl
    | cons n ks ih =>
      intro hks
      rw [List.map_cons, List.filterMap_cons_some (ruleNumber_toDigits (hks n (List.mem_cons_self ..))),
        ih fun k hk => hks k (List.mem_cons_of_mem _ hk)]
  rw [Process.pending, hp]
  simp only [hmap, h.texts]
  exact hall ns fun n hn => (h.own n hn).1

theorem HoldsOwn.mono {m : Machine} {user : Text} {c d : Chain} {tokens : List (Text × Nat)}
    {ns : List Nat} (h : HoldsOwn m user c tokens ns)
    (hsame : ∀ n ∈ ns, 1 ≤ n → n ≤ c.length → d[n - 1]? = (c)[n - 1]?) :
    HoldsOwn m user d tokens ns := by
  refine ⟨h.texts, h.sorted, fun n hn => ?_⟩
  obtain ⟨h1, r, hr, hown⟩ := h.own n hn
  obtain ⟨hlt, _⟩ := List.getElem?_eq_some_iff.mp hr
  exact ⟨h1, r, (hsame n hn h1 (by omega)).trans hr, hown⟩

theorem HoldsOwn.append {m : Machine} {user : Text} {c : Chain} {tokens : List (Text × Nat)}
    {ns : List Nat} (h : HoldsOwn m user c tokens ns) (d : Chain) : HoldsOwn m user (c ++ d) tokens ns :=
  h.mono fun _ _ _ hlen => List.getElem?_append_left (by omega)

theorem HoldsOwn.delete {m : Machine} {user : Text} {c : Chain} {tokens : List (Text × Nat)}
    {ns : List Nat} (h : HoldsOwn m user c tokens ns) {n : Nat} (hn : ∀ k ∈ ns, k < n) :
    HoldsOwn m user (Numbered.delete n c) tokens ns :=
  h.mono fun k hk h1 _ => getElem?_delete_of_lt h1 (hn k hk) c

/-- The first of the held tokens. -/
theorem HoldsOwn.head {m : Machine} {user : Text} {c : Chain} {token : Text} {i : Nat}
    {tokens : List (Text × Nat)} {ns : List Nat} (h : HoldsOwn m user c ((token, i) :: tokens) ns) :
    ∃ n rest, ns = n :: rest ∧ ruleNumber token = some n ∧ PointsAtOwn m user c n ∧
      (∀ k ∈ rest, k < n) ∧ HoldsOwn m user c tokens rest := by
  obtain ⟨htexts, hsorted, hown⟩ := h
  cases ns with
  | nil => cases htexts
  | cons n rest =>
    obtain ⟨htoken, hrest⟩ := List.cons.inj htexts
    obtain ⟨hall, hsorted'⟩ := List.pairwise_cons.mp hsorted
    have hn := hown n (List.mem_cons_self ..)
    refine ⟨n, rest, rfl, ?_, hn, hall, hrest, hsorted', fun k hk => hown k (List.mem_cons_of_mem _ hk)⟩
    rw [show token = Nat.toDigits 10 n from htoken, ruleNumber_toDigits hn.1]

/-- A listing that finds own rules fills the table with their numbers. -/
theorem ListsOwn.holds {m : Machine} {user only : Text} {c : Chain} (h : ListsOwn m user only c)
    (call : Call) :
    HoldsOwn m user c (split (· == ' ') (readLine call.lineJunk (flushOutput m call user only c))).zipIdx
      (numbers (flushPicks m user only) c).reverse := by
  obtain ⟨r, hmem, hpick⟩ := h.some
  have hne : (numbers (flushPicks m user only) c).reverse ≠ [] := by
    rw [Ne, List.reverse_eq_nil_iff, numbers_eq_nil]
    exact fun hnone => by simp [hnone r hmem] at hpick
  refine ⟨?_, (numbers_descending _ c).sorted, fun n hn => ?_⟩
  · rw [List.zipIdx_map_fst, flushOutput, if_pos h.readable, split_readLine hne, h.fits.reverse_held]
  · obtain ⟨x, h1, hx, hp⟩ := mem_numbers.mp (List.mem_reverse.mp hn)
    exact ⟨h1, x, hx, h.own x (List.mem_of_getElem? hx) hp⟩

/-! ### Every interleaving -/

section Interleaving
variable {ι : Type} [DecidableEq ι]

/-- An admissible step leaves the numbers of the others where they were. -/
theorem others_keep {m : Machine} {s : System ι} {turn : ι × AddCall} (hinv : NumbersOwn m s)
    (hok : TurnOk m s turn) {j : ι} (hj : j ≠ turn.1) {tokens : List (Text × Nat)} {ns : List Nat}
    (hp : (s.procs j).phase = .deleting tokens)
    (h : HoldsOwn m (s.procs j).job.user s.state tokens ns) :
    HoldsOwn m (s.procs j).job.user (s.step m turn).state tokens ns := by
  rcases @advance_chain m turn.2 _ hok.appends s.state with ⟨token, i, rest, hphase, ho, hc⟩ | hc |
    ⟨r, hc⟩
  · obtain ⟨ms, hms⟩ := hinv turn.1 _ hphase
    obtain ⟨n, _, _, hnum, _⟩ := hms.head
    have hbelow := hok.deletes token i rest hphase ho n hnum j hj
    rw [h.pending hp] at hbelow
    show HoldsOwn m _ (Process.advance m turn.2 (s.procs turn.1) s.state).2 tokens ns
    rw [hc, deleteToken, hnum]
    exact h.delete hbelow
  · show HoldsOwn m _ (Process.advance m turn.2 (s.procs turn.1) s.state).2 tokens ns
    rwa [hc]
  · show HoldsOwn m _ (Process.advance m turn.2 (s.procs turn.1) s.state).2 tokens ns
    rw [hc]
    exact h.append [r]

omit [DecidableEq ι] in
/-- An admissible step leaves the process itself with numbers of its user's rules. -/
theorem own_keeps {m : Machine} {s : System ι} {turn : ι × AddCall} (hinv : NumbersOwn m s)
    (hok : TurnOk m s turn) {tokens : List (Text × Nat)}
    (hp : (Process.advance m turn.2 (s.procs turn.1) s.state).1.phase = .deleting tokens) :
    ∃ ns, HoldsOwn m (s.procs turn.1).job.user (Process.advance m turn.2 (s.procs turn.1) s.state).2
      tokens ns := by
  rcases advance_deleting hp with ⟨hlist, ho, rfl⟩ | ⟨⟨token, i⟩, hphase⟩
  · have hsame : (Process.advance m turn.2 (s.procs turn.1) s.state).2 = s.state := by
      unfold Process.advance
      rw [hlist]
      simp only [ho, if_true]
    rw [hsame]
    exact ⟨_, (hok.lists hlist ho).holds turn.2.flush⟩
  · obtain ⟨ms, hms⟩ := hinv turn.1 _ hphase
    obtain ⟨n, rest, _, hnum, _, hbelow, hrest⟩ := hms.head
    refine ⟨rest, ?_⟩
    have hchain : (Process.advance m turn.2 (s.procs turn.1) s.state).2 =
        if turn.2.flush.deleteOpens i then deleteToken turn.2.flush s.state token else s.state := by
      unfold Process.advance
      rw [hphase]
    rw [hchain]
    split
    · rw [deleteToken, hnum]
      exact hrest.delete hbelow
    · exact hrest

theorem step_keeps {m : Machine} (s : System ι) (turn : ι × AddCall) (hinv : NumbersOwn m s)
    (hok : TurnOk m s turn) : NumbersOwn m (s.step m turn) := by
  intro j tokens hp
  by_cases hj : j = turn.1
  · subst hj
    have hproc : (s.step m turn).procs turn.1 =
        (Process.advance m turn.2 (s.procs turn.1) s.state).1 := Shared.step_own _ s turn
    rw [hproc] at hp ⊢
    rw [advance_job]
    exact own_keeps hinv hok hp
  · have hproc : (s.step m turn).procs j = s.procs j := Shared.step_other _ s turn hj
    rw [hproc] at hp ⊢
    obtain ⟨ns, hns⟩ := hinv j tokens hp
    exact ⟨ns, others_keep hinv hok hj hp hns⟩

/-- A process whose numbers point at own rules deletes one of them or none. -/
theorem delete_safe {m : Machine} (s : System ι) (turn : ι × AddCall) (hinv : NumbersOwn m s) :
    DeleteSafe m s turn := by
  rintro ⟨token, i⟩ tokens hphase
  obtain ⟨ns, hns⟩ := hinv turn.1 _ hphase
  obtain ⟨n, _, _, hnum, ⟨h1, r, hr, hown⟩, _⟩ := hns.head
  have hchain : (s.step m turn).state =
      if turn.2.flush.deleteOpens i then deleteToken turn.2.flush s.state token else s.state := by
    show (Process.advance m turn.2 (s.procs turn.1) s.state).2 = _
    unfold Process.advance
    rw [hphase]
  rw [hchain]
  split
  · obtain ⟨a, b, hc, hd⟩ := delete_split h1 hr
    rw [deleteToken, hnum]
    exact .inr ⟨a, r, b, hc, hd, hown⟩
  · exact .inl rfl

/-- **In every interleaving whose steps are admissible, each deletion removes a rule of the
process's own user or none.** -/
theorem deletions_safe (m : Machine) (c : Chain) (jobs : ι → Job) (schedule : List (ι × AddCall))
    (h : Every (System.step m) (TurnOk m) (System.initial c jobs) schedule) :
    Every (System.step m) (DeleteSafe m) (System.initial c jobs) schedule := by
  have hstart : NumbersOwn m (System.initial c jobs) := fun i tokens hp => by cases hp
  have hsafe : ∀ (s : System ι) turn, NumbersOwn m s → TurnOk m s turn → DeleteSafe m s turn :=
    fun s turn hinv _ => delete_safe s turn hinv
  exact (Systems.every_of_invariant step_keeps hsafe hstart h).1

end Interleaving

/-! ### Two processes for one user -/

/-- The same request, served twice at once. -/
def flushAll : Job := .enable (lit "no") (lit "alumno")

/-- A rule of alumno's, and one of root's behind it. -/
def mixedChain : Chain := [allowRule 1000, rootRule]

theorem allowRule_own : own Machine.terminal (lit "alumno") (allowRule 1000) = true :=
  (ownRule_own alumno_known _ _ _ _).1

theorem rootRule_foreign : own Machine.terminal (lit "alumno") rootRule = false := by
  have howned : rootRule.ownedBy 1000 = false := by
    simp [Rule.ownedBy, rootRule]
  simp [own, alumno_known.passwd, howned]

theorem mixedChain_picks : ∀ r ∈ mixedChain,
    flushPicks Machine.terminal (lit "alumno") (lit "no") r = own Machine.terminal (lit "alumno") r := by
  have hfield : rootRule.ownerField = Nat.toDigits 10 0 := rfl
  have huid : toInt (getUid Machine.terminal (lit "alumno")).toNat = 1000 := by
    rw [getUid_of_known alumno_known.passwd]
    decide
  have hname : (Nat.toDigits 10 0 == Machine.terminal.awk.literal (lit "alumno")) = false := by
    with_unfolding_all decide
  have hroot : ownTest Machine.terminal (lit "alumno") rootRule = false := by
    rw [ownTest, hfield, huid, Machine.terminal.awk.equals_decimal 0 (by decide), hname]
    decide
  intro r hr
  rcases List.mem_pair.mp hr with rfl | rfl
  · rw [flushPicks, allowRule_own, allowRule, (ownRule_own alumno_known _ _ _ _).2]
    simp
  · rw [flushPicks, statusPicks, hroot, rootRule_foreign, Bool.and_false, Bool.false_and]

theorem mixedChain_numbers :
    numbers (flushPicks Machine.terminal (lit "alumno") (lit "no")) mixedChain = [1] := by
  rw [numbers_congr mixedChain_picks]
  simp [numbers, mixedChain, allowRule_own, rootRule_foreign]

theorem mixedChain_lists : ListsOwn Machine.terminal (lit "alumno") (lit "no") mixedChain where
  readable := (empty_flushable (lit "no")).readable
  some := ⟨allowRule 1000, by simp [mixedChain], by
    rw [mixedChain_picks _ (by simp [mixedChain]), allowRule_own]⟩
  own r hr hpick := by rwa [mixedChain_picks r hr] at hpick
  fits := by
    rw [mixedChain_numbers]
    exact ⟨by decide, by decide⟩

/-- The process after its status command, and after its listing. -/
theorem flushAll_status : (Process.start flushAll).advance Machine.terminal .started mixedChain =
    ((Process.start flushAll).to .list, mixedChain) := by
  have hstatus : statusIptablesUser Machine.terminal AddCall.started.flush
    (lit "alumno") mixedChain = true :=
    (status_iff alumno_known.status rfl _).mpr ⟨allowRule 1000, by simp [mixedChain],
      (ownRule_own alumno_known _ _ _ _).2⟩
  simp [Process.advance, Process.start, flushAll, Job.user, hstatus, Process.to]

theorem flushAll_list :
    ((Process.start flushAll).to .list).advance Machine.terminal .started mixedChain =
      ((Process.start flushAll).to (.deleting [(Nat.toDigits 10 1, 0)]), mixedChain) := by
  have hheld : held 1023 255 [1] = [1] := by decide
  have hsplit : split (· == ' ') (readLine AddCall.started.flush.lineJunk (flushOutput Machine.terminal
      AddCall.started.flush (lit "alumno") (lit "no") mixedChain)) = [Nat.toDigits 10 1] := by
    rw [flushOutput, if_pos mixedChain_lists.readable, mixedChain_numbers, List.reverse_singleton,
      split_readLine (List.cons_ne_nil _ _), hheld]
    rfl
  have hopens : AddCall.started.flush.listOpens = true := rfl
  simp only [Process.advance, Process.start, flushAll, Job.user, Job.only, Process.to, hopens, if_true,
    hsplit]
  rfl

theorem flushAll_delete (r : Rule) (c : Chain) :
    ((Process.start flushAll).to (.deleting [(Nat.toDigits 10 1, 0)])).advance Machine.terminal .started
      (r :: c) = ((Process.start flushAll).to (.deleting []), c) := by
  have hdelete : deleteToken AddCall.started.flush (r :: c) (Nat.toDigits 10 1) = c := by
    rw [deleteToken, ruleNumber_toDigits (Nat.le_refl 1)]
    rfl
  have hopens : AddCall.started.flush.deleteOpens 0 = true := rfl
  simp only [Process.advance, Process.start, Process.to, hopens, if_true, hdelete]

def twins : System Bool := System.initial mixedChain fun _ => flushAll

/-- The two processes, each with what it does next, on a chain. -/
def pair (first second : Phase) (c : Chain) : System Bool :=
  ⟨c, fun i => (Process.start flushAll).to (if i then second else first)⟩

theorem twins_eq : twins = pair .status .status mixedChain := by
  simp [twins, pair, System.initial, Process.start, Process.to]

theorem pair_first {phase next second : Phase} {c d : Chain}
    (h : ((Process.start flushAll).to phase).advance Machine.terminal .started c =
      ((Process.start flushAll).to next, d)) :
    System.step Machine.terminal (pair phase second c) (false, .started) = pair next second d := by
  simp only [System.step, Shared.step, pair, Bool.false_eq_true, if_false, h, Shared.mk.injEq, true_and]
  funext i
  cases i <;> rfl

theorem pair_second {phase next first : Phase} {c d : Chain}
    (h : ((Process.start flushAll).to phase).advance Machine.terminal .started c =
      ((Process.start flushAll).to next, d)) :
    System.step Machine.terminal (pair first phase c) (true, .started) = pair first next d := by
  simp only [System.step, Shared.step, pair, if_true, h, Shared.mk.injEq, true_and]
  funext i
  cases i <;> rfl

/-- One process lists and deletes before the other starts. -/
theorem one_after_the_other :
    Every (System.step Machine.terminal) (DeleteSafe Machine.terminal) twins
      [(false, .started), (false, .started), (false, .started), (true, .started)] := by
  refine deletions_safe Machine.terminal mixedChain (fun _ => flushAll) _ ?_
  have hs1 := @pair_first _ _ .status _ _ flushAll_status
  have hs2 := @pair_first _ _ .status _ _ flushAll_list
  have hs3 := @pair_first _ _ .status _ _ (flushAll_delete (allowRule 1000) [rootRule])
  rw [← twins, twins_eq]
  refine ⟨⟨nofun, nofun, trivial⟩, ?_⟩
  rw [hs1]
  refine ⟨⟨fun _ _ => mixedChain_lists, nofun, trivial⟩, ?_⟩
  rw [hs2]
  refine ⟨⟨nofun, fun _ _ _ _ _ _ _ j hj k hk => ?_, trivial⟩, ?_⟩
  · cases j with
    | false => exact absurd rfl hj
    | true => cases hk
  · show Every _ _ (System.step _ (pair _ _ (allowRule 1000 :: [rootRule])) _) _
    rw [hs3]
    exact ⟨⟨nofun, nofun, trivial⟩, trivial⟩

/-- Both list before either deletes: the second deletion hits the rule of root. -/
theorem twins_delete_foreign :
    ¬ ∀ (c : Chain) (jobs : Bool → Job) (schedule : List (Bool × AddCall)),
      Every (System.step Machine.terminal) (DeleteSafe Machine.terminal)
      (System.initial c jobs) schedule := by
  intro h
  have hsafe := (h mixedChain (fun _ => flushAll)
    ([(false, .started), (false, .started), (true, .started),
    (true, .started), (false, .started)] ++ (true, .started) :: [])).at
  have hrun : Systems.run (System.step Machine.terminal) (System.initial mixedChain fun _ => flushAll)
      [(false, .started), (false, .started), (true, .started), (true, .started), (false, .started)] =
      pair (.deleting []) (.deleting [(Nat.toDigits 10 1, 0)]) [rootRule] := by
    rw [← twins, twins_eq]
    simp only [Systems.run, List.foldl_cons, List.foldl_nil]
    rw [pair_first flushAll_status, pair_first flushAll_list, pair_second flushAll_status,
      pair_second flushAll_list]
    exact pair_first (flushAll_delete (allowRule 1000) [rootRule])
  rw [hrun] at hsafe
  have hlast := hsafe (Nat.toDigits 10 1, 0) [] rfl
  rw [pair_second (flushAll_delete rootRule [])] at hlast
  rcases hlast with hsame | ⟨a, r, b, hbefore, _, hown⟩
  · cases hsame
  · have hr : r ∈ [rootRule] := by
      show r ∈ (pair (.deleting []) (.deleting [(Nat.toDigits 10 1, 0)]) [rootRule]).state
      rw [hbefore]
      exact List.mem_append_right _ (List.mem_cons_self ..)
    rw [List.mem_singleton.mp hr] at hown
    exact absurd (hown.symm.trans rootRule_foreign) (by decide)

end Tcos.Tnc
