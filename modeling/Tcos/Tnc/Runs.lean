import Tcos.Tnc.Add

/-! Runs of tcos-net-controller: what it answers and what the chain holds.

A *run* is a sequence of `disable-internet`, `enable-internet` and `status` invocations
by a caller that `check_user` lets pass, each with its own choice of what starts, what
iptables takes and what uninitialised buffers hold. `run_consistent`: in a run whose
steps are all `Good`, answers and chain agree from each invocation to the next. -/
namespace Tcos.Tnc
open Shell (Text lit isLiteral)
open Libc
open Numbered

/-! ### Invocations -/

inductive Answer where
  | disabled
  | disableError
  | enabled
  | enableError
  deriving DecidableEq, Repr

/-- An invocation with everything the world decides during it. -/
inductive Step where
  /-- `call` is the call of `add_iptables_user`, `retreat` the flush after its failure. -/
  | disable (only arg3 eth user : Text) (call : AddCall) (retreat : Call)
  | enable (only user : Text) (call : Call)
  | status (user : Text) (call : Call)

structure Outcome where
  answer : Answer
  chain : Chain

/-- `main` past the checks of caller and argument count. -/
def exec (m : Machine) (c : Chain) : Step → Outcome
  | .disable only arg3 eth user call retreat =>
    let added := addIptablesUser m call (onlyPortsArg only) arg3 eth user c
    if added.1 then ⟨.disabled, added.2⟩
    else ⟨.disableError, (flushIptablesUser m retreat user (onlyPortsArg only) added.2).chain⟩
  | .enable only user call =>
    let flushed := flushIptablesUser m call user (onlyPortsArg only) c
    ⟨if flushed.code then .enabled else .enableError, flushed.chain⟩
  | .status user call => ⟨if statusIptablesUser m call user c then .disabled else .enabled, c⟩

def run (m : Machine) (c : Chain) (steps : List Step) : Chain :=
  steps.foldl (fun c s => (exec m c s).chain) c

/-! ### What should agree -/

/-- Two invocations, one right after the other on a chain. -/
structure Consistent (m : Machine) (c : Chain) (x y : Step) : Prop where
  disabled : ∀ only arg3 eth user call retreat probe,
    x = .disable only arg3 eth user call retreat → y = .status user probe →
      (exec m c x).answer = .disabled → (exec m (exec m c x).chain y).answer = .disabled
  refused : ∀ arg3 eth user call retreat probe,
    x = .disable (lit "no") arg3 eth user call retreat → y = .status user probe →
      (exec m c x).answer = .disableError → (exec m (exec m c x).chain y).answer = .enabled
  enabled : ∀ user call probe, x = .enable (lit "no") user call → y = .status user probe →
    (exec m c x).answer = .enabled → (exec m (exec m c x).chain y).answer = .enabled
  repeated : ∀ only arg3 eth user call retreat call' retreat',
    x = .disable only arg3 eth user call retreat → y = .disable only arg3 eth user call' retreat' →
      ∀ r, own m user r = true →
        (r ∈ (exec m (exec m c x).chain y).chain ↔ r ∈ (exec m c x).chain)
  undone : ∀ only arg3 eth user call retreat call',
    x = .disable only arg3 eth user call retreat → y = .enable (lit "no") user call' →
      (exec m (exec m c x).chain y).chain = c.filter fun r => !own m user r

/-- From each step of a run to the next. -/
def RunConsistent (m : Machine) (c : Chain) (steps : List Step) : Prop :=
  ∀ before x y after, steps = before ++ x :: y :: after → Consistent m (run m c before) x y

/-! ### Steps that keep their word -/

/-- The user exists, awk can compare the number, and the name keeps the status command
readable. -/
structure Known (m : Machine) (user : Text) (uid : UInt32) : Prop where
  passwd : m.passwd user = some uid
  small : uid.toNat < 2 ^ 31
  status : isReadable (statusLine m user) user = true

/-- The filters see each rule of the chain as what it is. -/
def Clear (m : Machine) (user : Text) (c : Chain) : Prop :=
  ∀ r ∈ c, statusPicks m user r = own m user r ∧
    (own m user r = true → (r.protField == lit "tcp") = (r.prot == tcp))

/-- The flush command is readable, the numbers of the wanted rules fit, and if the user has
rules some of them are wanted. -/
structure Flushable (m : Machine) (user only : Text) (c : Chain) : Prop where
  readable : isReadable (flushLine m user only) user = true
  fits : Fits (numbers (wanted m user only) c)
  some : (∃ r ∈ c, own m user r = true) → ∃ r ∈ c, wanted m user only r = true

/-- The command of the port starts, and iptables takes its rule. -/
def AddCall.portAdds (call : AddCall) (i : Nat) : Bool := call.portOpens i && call.portTakes i

/-- The rules of these ports, numbered as the call numbers them. -/
def portRules (call : AddCall) (ports : List (Text × Nat)) (uid : UInt32) : Chain :=
  (ports.filter fun p => call.portAdds p.2).map fun p => portRule (Nat.ofDigitChars 10 p.1 0) uid

/-- The rules of those a call gives to iptables that it takes before the call ends. -/
def addedRules (call : AddCall) (only arg3 : Text) (net : Network) (uid : UInt32) : Chain :=
  if !call.routeOpens then []
  else portRules call (blockedPorts arg3).zipIdx uid ++
    if only ≠ lit "no" ∨ !call.allowOpens then []
    else (if call.allowTakes then [allowRule uid] else []) ++
      if call.blockOpens && call.blockTakes then [blockRule net uid] else []

/-- The call gets to its end with something to answer for. -/
def succeeds (call : AddCall) (only arg3 : Text) : Bool :=
  call.routeOpens && if only = lit "no" then call.allowOpens && call.blockOpens else hasPorts arg3

/-- What a call of `add_iptables_user` needs: its words are read as they are, the route is
known, and the port list has only plain ports. -/
structure Appends (m : Machine) (call : AddCall) (only arg3 eth user : Text) (net : Network) :
    Prop where
  flush : call.flush.Opens
  route : only = lit "no" →
    isReadable (routeLine eth) eth = true ∧ m.network (m.awk.literal eth) = some net
  user : isLiteral user = true ∧ user.length ≤ 800
  plain : ∀ t ∈ blockedPorts arg3, isPlainPort t = true

/-- If the call counts as done, the user has a rule: one that iptables took, or an older one that
the flush does not want. -/
def Leaves (m : Machine) (call : AddCall) (only arg3 user : Text) (net : Network) (uid : UInt32)
    (c : Chain) : Prop :=
  succeeds call only arg3 = true → addedRules call only arg3 net uid ≠ [] ∨
    ∃ r ∈ c, own m user r = true ∧ wanted m user only r = false

/-- The condition on a step and the chain before it. -/
def Good (m : Machine) (c : Chain) : Step → Prop
  | .disable only arg3 eth user call retreat =>
    ∃ uid net, Known m user uid ∧ Clear m user c ∧ Flushable m user only c ∧
      Appends m call only arg3 eth user net ∧ Leaves m call only arg3 user net uid c ∧
      retreat.Opens ∧ (succeeds call only arg3 = false → Flushable m user only
        ((c.filter fun r => !wanted m user only r) ++ addedRules call only arg3 net uid))
  | .enable only user call =>
    ∃ uid, Known m user uid ∧ Clear m user c ∧ Flushable m user only c ∧ call.Opens
  | .status user call => ∃ uid, Known m user uid ∧ Clear m user c ∧ call.statusOpens = true

/-- In a repeated `disable-internet` the commands start that started in the first one, and
iptables takes the rules that it took. -/
def Alike (x y : Step) : Prop :=
  ∀ only arg3 eth user call retreat call' retreat',
    x = .disable only arg3 eth user call retreat → y = .disable only arg3 eth user call' retreat' →
      call.routeOpens = call'.routeOpens ∧ call.allowOpens = call'.allowOpens ∧
        call.blockOpens = call'.blockOpens ∧ call.portAdds = call'.portAdds ∧
          call.allowTakes = call'.allowTakes ∧ call.blockTakes = call'.blockTakes

/-- Every step is good on the chain it finds, and repeated ones are alike. -/
def GoodRun (m : Machine) (c : Chain) : List Step → Prop
  | [] => True
  | s :: steps => Good m c s ∧ (∀ y ∈ steps.head?, Alike s y) ∧ GoodRun m (exec m c s).chain steps

/-! ### Flushes in a good step -/

theorem flushPicks_eq_wanted {m : Machine} {user : Text} {c : Chain} (h : Clear m user c)
    (only : Text) : ∀ r ∈ c, flushPicks m user only r = wanted m user only r := by
  intro r hr
  obtain ⟨hstatus, hprot⟩ := h r hr
  rw [flushPicks, wanted, hstatus]
  cases hown : own m user r
  · rfl
  · rw [hprot hown]

theorem Flushable.reads {m : Machine} {user only : Text} {uid : UInt32} {c : Chain}
    (h : Flushable m user only c) (hk : Known m user uid) (hc : Clear m user c) :
    FlushReads m user only c := by
  have hpicks := flushPicks_eq_wanted hc only
  refine ⟨hk.status, ?_⟩
  by_cases hown : ∃ r ∈ c, own m user r = true
  · obtain ⟨r, hr, hwanted⟩ := h.some hown
    refine .inr ⟨h.readable, ⟨r, hr, (hpicks r hr).trans hwanted⟩, fun _ => hpicks, fun hcut => ?_⟩
    exact absurd (by rw [numbers_congr hpicks]; exact h.fits) hcut
  · refine .inl fun r hr => ?_
    have hnot : own m user r = false := by
      by_contra hne
      exact hown ⟨r, hr, by simpa using hne⟩
    exact ⟨(hc r hr).1.trans hnot, by rw [wanted, hnot, Bool.false_and]⟩

theorem Flushable.flush {m : Machine} {user only : Text} {uid : UInt32} {c : Chain}
    (h : Flushable m user only c) (hk : Known m user uid) (hc : Clear m user c) {call : Call}
    (ho : call.Opens) :
    (flushIptablesUser m call user (onlyPortsArg only) c).code = true ∧
      (flushIptablesUser m call user (onlyPortsArg only) c).chain =
        (c.filter fun r => !wanted m user only r) :=
  ⟨((h.reads hk hc).exact ho).1, ((h.reads hk hc).exact ho).2.1⟩

theorem Clear.append {m : Machine} {user : Text} {c d : Chain} (hc : Clear m user c)
    (hd : Clear m user d) : Clear m user (c ++ d) := fun r hr =>
  (List.mem_append.mp hr).elim (hc r) (hd r)

theorem Clear.filter {m : Machine} {user : Text} {c : Chain} (hc : Clear m user c) (p : Rule → Bool) :
    Clear m user (c.filter p) := fun r hr => hc r (List.mem_of_mem_filter hr)

/-! ### Appended rules -/

/-- A rule the program gives for the user is the user's, and the filters see it. -/
theorem ownRule_own {m : Machine} {user : Text} {uid : UInt32} (hk : Known m user uid)
    (target prot destination : Field) (extra : List Match) :
    own m user (ownRule target prot destination extra uid) = true ∧
      statusPicks m user (ownRule target prot destination extra uid) = true := by
  have huid := getUid_of_known hk.passwd
  have htagged := ownRule_tagged target prot destination extra uid
  have howned := ownRule_ownedBy target prot destination extra uid
  have hfield := ownRule_ownerField target prot destination extra uid
  refine ⟨by simp [own, hk.passwd, htagged, howned], ?_⟩
  rw [statusPicks, listed_of_tagged htagged,
    ownTest_of_ownerField (by rw [hfield, huid]) (by rw [huid]; exact hk.small)]
  rfl

theorem mem_addedRules {call : AddCall} {only arg3 : Text} {net : Network} {uid : UInt32} {r : Rule}
    (hr : r ∈ addedRules call only arg3 net uid) :
    (∃ n, r = portRule n uid) ∨ (only = lit "no" ∧ (r = allowRule uid ∨ r = blockRule net uid)) := by
  unfold addedRules at hr
  split at hr
  · cases hr
  · rcases List.mem_append.mp hr with hr | hr
    · obtain ⟨t, _, rfl⟩ := List.mem_map.mp hr
      exact .inl ⟨_, rfl⟩
    · split at hr
      · cases hr
      case isFalse hmode =>
        simp only [ne_eq, not_or, not_not] at hmode
        refine .inr ⟨hmode.1, ?_⟩
        rcases List.mem_append.mp hr with hr | hr <;> split at hr <;> simp at hr
        · exact .inl hr
        · exact .inr hr

theorem addedRules_wanted {m : Machine} {user : Text} {uid : UInt32} (hk : Known m user uid)
    {call : AddCall} {only arg3 : Text} {net : Network} :
    ∀ r ∈ addedRules call only arg3 net uid, wanted m user only r = true := by
  intro r hr
  rcases mem_addedRules hr with ⟨n, rfl⟩ | ⟨rfl, rfl | rfl⟩
  · have hprot : (portRule n uid).prot = tcp := rfl
    have hown : own m user (portRule n uid) = true := (ownRule_own hk _ _ _ _).1
    simp [wanted, hown, hprot]
  · rw [wanted, allowRule, (ownRule_own hk _ _ _ _).1]
    simp
  · rw [wanted, blockRule, (ownRule_own hk _ _ _ _).1]
    simp

theorem ownRule_clear {m : Machine} {user : Text} {uid : UInt32} (hk : Known m user uid)
    {target prot destination : Field} {extra : List Match}
    (hp : (prot.text == lit "tcp") = (prot == tcp)) : Clear m user
    [ownRule target prot destination extra uid] := by
  intro r hr
  obtain rfl := List.mem_singleton.mp hr
  obtain ⟨hown, hpick⟩ := ownRule_own hk target prot destination extra
  exact ⟨hpick.trans hown.symm, fun _ => by rw [ownRule_protField, hp]; rfl⟩

theorem addedRules_clear {m : Machine} {user : Text} {uid : UInt32} (hk : Known m user uid)
    {call : AddCall} {only arg3 : Text} {net : Network} :
    Clear m user (addedRules call only arg3 net uid) := by
  have htcp : (tcp.text == lit "tcp") = (tcp == tcp) := by with_unfolding_all decide
  have hall : (allProtocols.text == lit "tcp") = (allProtocols == tcp) := by with_unfolding_all decide
  intro r hr
  rcases mem_addedRules hr with ⟨n, rfl⟩ | ⟨_, rfl | rfl⟩
  · exact ownRule_clear hk htcp _ (List.mem_singleton_self _)
  · exact ownRule_clear hk hall _ (List.mem_singleton_self _)
  · exact ownRule_clear hk hall _ (List.mem_singleton_self _)

theorem wanted_addedRules {m : Machine} {user : Text} {uid : UInt32} (hk : Known m user uid)
    (call : AddCall) (only arg3 : Text) (net : Network) :
    (addedRules call only arg3 net uid).filter (fun r => !wanted m user only r) = [] :=
  List.filter_eq_nil_iff.mpr fun r hr => by simp [addedRules_wanted hk r hr]

/-! ### The commands of a good step -/

theorem append_readable {m : Machine} {call : AddCall} {user : Text} {uid : UInt32}
    (hk : Known m user uid) (line : Text) (takes : Bool) (rule : UInt32 → Rule) (c : Chain) :
    append m call user line true takes rule c = c ++ if takes then [rule uid] else [] := by
  cases takes <;> simp [append, hk.passwd]

theorem portReadable_of_plain {token user : Text} (hp : isPlainPort token = true)
    (hu : isLiteral user = true ∧ user.length ≤ 800) : portReadable token user = true := by
  have hlen := dropLine_length token user
  have hshort := ((isPlainPort_iff token).mp hp).2.1
  have hfits : (dropLine token user).length < bsize := by
    unfold bsize
    omega
  simp [portReadable, hp, hu.1, hfits]

theorem appendPorts {m : Machine} {call : AddCall} {only arg3 eth user : Text} {net : Network}
    {uid : UInt32} (hk : Known m user uid) (h : Appends m call only arg3 eth user net)
    (c : Chain) : (blockedPorts arg3).zipIdx.foldl (appendPort m call user) c = c ++
    portRules call (blockedPorts arg3).zipIdx uid := by
  have hplain : ∀ p ∈ (blockedPorts arg3).zipIdx, isPlainPort p.1 = true :=
    fun p hp => h.plain _ (List.fst_mem_of_mem_zipIdx hp)
  generalize (blockedPorts arg3).zipIdx = ports at hplain ⊢
  induction ports generalizing c with
  | nil => simp [portRules]
  | cons p ports ih =>
    obtain ⟨hp, hports⟩ := List.forall_mem_cons.mp hplain
    have hport : appendPort m call user c p = c ++ portRules call [p] uid := by
      rw [appendPort, portReadable_of_plain hp h.user, append_readable hk]
      cases hopens : call.portOpens p.2 <;> cases htakes : call.portTakes p.2 <;>
        simp [portRules, AddCall.portAdds, hopens, htakes]
    have hcons : portRules call (p :: ports) uid = portRules call [p] uid ++ portRules call ports uid := by
      simp [portRules, List.filter_cons]
      split <;> simp
    rw [List.foldl_cons, hport, ih _ hports, hcons, List.append_assoc]

theorem allowLine_length (user : Text) : (allowLine user).length = user.length + 113 := by
  have h1 : (lit "/sbin/iptables -A OUTPUT -d 127.0.0.0/8").length = 39 := by with_unfolding_all decide
  have h2 : (lit " -m owner --uid-owner ").length = 22 := by with_unfolding_all decide
  have h3 : (lit " -m comment --comment TCOS_TNC -j ").length = 34 := by with_unfolding_all decide
  have h4 : (lit "ACCEPT").length = 6 := by with_unfolding_all decide
  have h5 : (lit " 2>/dev/null").length = 12 := by with_unfolding_all decide
  simp only [allowLine, ownerTail, List.length_append, h1, h2, h3, h4, h5]
  omega

theorem blockLine_length (dirred user : Text) :
    (blockLine dirred user).length = dirred.length + user.length + 102 := by
  have h1 : (lit "/sbin/iptables -A OUTPUT ! -d ").length = 30 := by with_unfolding_all decide
  have h2 : (lit " -m owner --uid-owner ").length = 22 := by with_unfolding_all decide
  have h3 : (lit " -m comment --comment TCOS_TNC -j ").length = 34 := by with_unfolding_all decide
  have h4 : (lit "DROP").length = 4 := by with_unfolding_all decide
  have h5 : (lit " 2>/dev/null").length = 12 := by with_unfolding_all decide
  simp only [blockLine, ownerTail, List.length_append, h1, h2, h3, h4, h5]
  omega

theorem route_network {m : Machine} {call : AddCall} {only arg3 eth user : Text} {net : Network}
    (h : Appends m call only arg3 eth user net) (hmode : only = lit "no") :
    readLine call.routeJunk (routeOutput m call eth) = net.text := by
  have hbreak : '\n' ∉ net.text := fun hc => by
    rcases net.chars _ hc with h | h | h
    · exact absurd h (by decide)
    · exact absurd h (by decide)
    · exact absurd h (by decide)
  have hcut : cut bsize (net.text ++ ['\n']) = net.text ++ ['\n'] := cut_of_fits (by
    have := net.short
    simp only [List.length_append, List.length_singleton, bsize]
    omega)
  have hout : routeOutput m call eth = net.text ++ ['\n'] := by
    rw [routeOutput, if_pos (h.route hmode).1, (h.route hmode).2]
    rfl
  rw [hout, readLine, if_neg (by simp), fgets, firstLine_break hbreak, hcut, dropBreak,
    if_pos (by simp), List.dropLast_concat]

theorem appendAllow_adds {m : Machine} {call : AddCall} {only arg3 eth user : Text} {net : Network}
    {uid : UInt32} (hk : Known m user uid) (h : Appends m call only arg3 eth user net) (c : Chain) :
    appendAllow m call user c = c ++ if call.allowTakes then [allowRule uid] else [] := by
  have hlen := allowLine_length user
  have hfits : (allowLine user).length < bsize := by
    have := h.user.2
    unfold bsize
    omega
  simp only [appendAllow, h.user.1, hfits, decide_true, Bool.and_self]
  exact append_readable hk _ _ _ c

theorem appendBlock_adds {m : Machine} {call : AddCall} {only arg3 eth user : Text} {net : Network}
    {uid : UInt32} (hk : Known m user uid) (h : Appends m call only arg3 eth user net) (c : Chain) :
    appendBlock m call user net.text c =
      c ++ if call.blockTakes then [blockRule net uid] else [] := by
  have hlen := blockLine_length net.text user
  have hfits : (blockLine net.text user).length < bsize := by
    have := h.user.2
    have := net.short
    unfold bsize
    omega
  rw [appendBlock, dif_pos ⟨net.some, net.chars, net.short⟩]
  simp only [h.user.1, hfits, decide_true, Bool.and_self]
  exact append_readable hk _ _ _ c

/-- **What a good call of `add_iptables_user` returns and leaves.** -/
theorem add_run {m : Machine} {call : AddCall} {only arg3 eth user : Text} {net : Network}
    {uid : UInt32} {c : Chain} (hk : Known m user uid) (hc : Clear m user c)
    (hf : Flushable m user only c) (h : Appends m call only arg3 eth user net) :
    addIptablesUser m call (onlyPortsArg only) arg3 eth user c =
      (succeeds call only arg3,
        (c.filter fun r => !wanted m user only r) ++ addedRules call only arg3 net uid) := by
  have hflush := (hf.flush hk hc h.flush).2
  simp only [addIptablesUser, hflush, onlyPorts_arg, appendPorts hk h, appendAllow_adds hk h]
  cases hroute : call.routeOpens
  · simp [succeeds, addedRules, hroute]
  · by_cases hmode : only = lit "no"
    · simp only [route_network h hmode, appendBlock_adds hk h]
      cases hallow : call.allowOpens <;> cases hblock : call.blockOpens <;>
        simp [succeeds, addedRules, hroute, hmode, hallow, hblock]
    · simp [succeeds, addedRules, hroute, hmode]

/-- The chain a good `disable-internet` leaves. -/
def disabledChain (m : Machine) (call : AddCall) (only arg3 user : Text) (net : Network) (uid : UInt32)
    (c : Chain) : Chain :=
  (c.filter fun r => !wanted m user only r) ++
    if succeeds call only arg3 then addedRules call only arg3 net uid else []

/-- **A good `disable-internet` replaces the wanted rules by the new ones, or removes them
and says that it failed.** -/
theorem exec_disable {m : Machine} {call : AddCall} {only arg3 eth user : Text} {net : Network}
    {uid : UInt32} {c : Chain} {retreat : Call} (hk : Known m user uid) (hc : Clear m user c)
    (hf : Flushable m user only c) (h : Appends m call only arg3 eth user net) (ho : retreat.Opens)
    (hleft : succeeds call only arg3 = false → Flushable m user only
      ((c.filter fun r => !wanted m user only r) ++ addedRules call only arg3 net uid)) :
    exec m c (.disable only arg3 eth user call retreat) =
      ⟨if succeeds call only arg3 then .disabled else .disableError,
        disabledChain m call only arg3 user net uid c⟩ := by
  simp only [exec, add_run hk hc hf h, disabledChain]
  cases hs : succeeds call only arg3
  · have hclear : Clear m user ((c.filter fun r => !wanted m user only r) ++
        addedRules call only arg3 net uid) := (hc.filter _).append (addedRules_clear hk)
    have hchain := ((hleft hs).flush hk hclear ho).2
    rw [List.filter_append, wanted_addedRules hk, List.filter_filter] at hchain
    simp only [Bool.and_self, List.append_nil] at hchain
    simp [hchain]
  · rfl

theorem exec_enable {m : Machine} {only user : Text} {uid : UInt32} {c : Chain} {call : Call}
    (hk : Known m user uid) (hc : Clear m user c) (hf : Flushable m user only c) (ho : call.Opens) :
    exec m c (.enable only user call) = ⟨.enabled, c.filter fun r => !wanted m user only r⟩ := by
  obtain ⟨hcode, hchain⟩ := hf.flush hk hc ho
  simp only [exec, hcode, hchain, if_true]

/-- A good status says whether the user has a rule. -/
theorem exec_status {m : Machine} {user : Text} {uid : UInt32} {c : Chain} {call : Call}
    (hk : Known m user uid) (hc : Clear m user c) (ho : call.statusOpens = true) :
    (∃ r ∈ c, own m user r = true) ∧ (exec m c (.status user call)).answer = .disabled ∨
      (∀ r ∈ c, own m user r = false) ∧ (exec m c (.status user call)).answer = .enabled := by
  have hiff := status_iff hk.status ho c
  by_cases hown : ∃ r ∈ c, own m user r = true
  · obtain ⟨r, hr, hr'⟩ := hown
    have hstatus := hiff.mpr ⟨r, hr, (hc r hr).1.trans hr'⟩
    exact .inl ⟨⟨r, hr, hr'⟩, by rw [exec, hstatus]; rfl⟩
  · have hnone : ∀ r ∈ c, own m user r = false := fun r hr => by
      by_contra hne
      exact hown ⟨r, hr, by simpa using hne⟩
    have hstatus : statusIptablesUser m call user c = false := by
      rw [Bool.eq_false_iff, Ne, hiff]
      rintro ⟨r, hr, hpick⟩
      rw [(hc r hr).1, hnone r hr] at hpick
      exact absurd hpick (by decide)
    exact .inr ⟨hnone, by rw [exec, hstatus]; rfl⟩

theorem wanted_all (m : Machine) (user : Text) (r : Rule) : wanted m user
    (lit "no") r = own m user r := by
  rw [wanted, beq_self_eq_true, Bool.true_or, Bool.and_true]

/-- After a flush of all the user's rules none is left. -/
theorem none_left {m : Machine} {user : Text} {c : Chain} :
    ∀ r ∈ c.filter (fun r => !wanted m user (lit "no") r), own m user r = false := by
  intro r hr
  have := (List.mem_filter.mp hr).2
  rw [wanted_all] at this
  simpa using this

/-- After a call that is done the user has a rule. -/
theorem Leaves.rule {m : Machine} {call : AddCall} {only arg3 user : Text} {net : Network}
    {uid : UInt32} {c : Chain} (h : Leaves m call only arg3 user net uid c) (hk : Known m user uid)
    (hs : succeeds call only arg3 = true) :
    ∃ r ∈ disabledChain m call only arg3 user net uid c, own m user r = true := by
  rw [disabledChain, if_pos hs]
  rcases h hs with h | ⟨r, hr, hown, hwanted⟩
  · obtain ⟨r, hr⟩ := List.exists_mem_of_ne_nil _ h
    exact ⟨r, List.mem_append_right _ hr, own_of_wanted (addedRules_wanted hk r hr)⟩
  · exact ⟨r, List.mem_append_left _ (List.mem_filter.mpr ⟨hr, by simp [hwanted]⟩), hown⟩

theorem disabledChain_own {m : Machine} {call : AddCall} {only arg3 user : Text} {net : Network}
    {uid : UInt32} (hk : Known m user uid) (c : Chain) :
    (disabledChain m call only arg3 user net uid c).filter (fun r => !own m user r) =
      c.filter fun r => !own m user r := by
  have hadded : (if succeeds call only arg3 then addedRules call only arg3 net uid else []).filter
      (fun r => !own m user r) = [] := by
    refine List.filter_eq_nil_iff.mpr fun r hr => ?_
    split at hr
    · simp [own_of_wanted (addedRules_wanted hk r hr)]
    · cases hr
  rw [disabledChain, List.filter_append, hadded, List.append_nil, List.filter_filter]
  refine List.filter_congr fun r _ => ?_
  cases hown : own m user r <;> simp [wanted, hown]

theorem disabledChain_wanted {m : Machine} {call : AddCall} {only arg3 user : Text} {net : Network}
    {uid : UInt32} (hk : Known m user uid) (c : Chain) :
    (disabledChain m call only arg3 user net uid c).filter (fun r => !wanted m user only r) =
      c.filter fun r => !wanted m user only r := by
  have hadded : (if succeeds call only arg3 then addedRules call only arg3 net uid else []).filter
      (fun r => !wanted m user only r) = [] := by
    split
    · exact wanted_addedRules hk call only arg3 net
    · rfl
  rw [disabledChain, List.filter_append, hadded, List.append_nil, List.filter_filter]
  simp

/-- **Good neighbours agree.** -/
theorem consistent_of_good {m : Machine} {c : Chain} {x y : Step} (hx : Good m c x)
    (hy : Good m (exec m c x).chain y) (halike : Alike x y) : Consistent m c x y where
  disabled := by
    rintro only arg3 eth user call retreat probe rfl rfl hanswer
    obtain ⟨uid, net, hk, hc, hf, ha, hrule, ho, hleft⟩ := hx
    obtain ⟨uid', hk', hc', ho'⟩ := hy
    have hexec := exec_disable hk hc hf ha ho hleft
    rw [hexec] at hanswer hc' ⊢
    have hs : succeeds call only arg3 = true := by
      by_contra hs
      simp [hs] at hanswer
    obtain ⟨r, hmem, hown⟩ := hrule.rule hk hs
    rcases exec_status hk' hc' ho' with ⟨_, h⟩ | ⟨hnone, _⟩
    · exact h
    · rw [hnone r hmem] at hown
      exact absurd hown (by decide)
  refused := by
    rintro arg3 eth user call retreat probe rfl rfl hanswer
    obtain ⟨uid, net, hk, hc, hf, ha, hrule, ho, hleft⟩ := hx
    obtain ⟨uid', hk', hc', ho'⟩ := hy
    have hexec := exec_disable hk hc hf ha ho hleft
    rw [hexec] at hanswer hc' ⊢
    have hs : succeeds call (lit "no") arg3 = false := by
      by_contra hs
      simp [hs] at hanswer
    rcases exec_status hk' hc' ho' with ⟨⟨r, hr, hown⟩, _⟩ | ⟨_, h⟩
    · simp only [disabledChain, hs, Bool.false_eq_true, if_false, List.append_nil] at hr
      rw [none_left r hr] at hown
      exact absurd hown (by decide)
    · exact h
  enabled := by
    rintro user call probe rfl rfl _
    obtain ⟨uid, hk, hc, hf, ho⟩ := hx
    obtain ⟨uid', hk', hc', ho'⟩ := hy
    rw [exec_enable hk hc hf ho] at hc' ⊢
    rcases exec_status hk' hc' ho' with ⟨⟨r, hr, hown⟩, _⟩ | ⟨_, h⟩
    · rw [none_left r hr] at hown
      exact absurd hown (by decide)
    · exact h
  repeated := by
    rintro only arg3 eth user call retreat call' retreat' rfl rfl r _
    obtain ⟨uid, net, hk, hc, hf, ha, hrule, ho, hleft⟩ := hx
    obtain ⟨uid', net', hk', hc', hf', ha', -, ho', hleft'⟩ := hy
    obtain rfl : uid = uid' := Option.some.inj (hk.passwd.symm.trans hk'.passwd)
    have hnet : only = lit "no" → net' = net := fun hmode =>
      Option.some.inj ((ha'.route hmode).2.symm.trans (ha.route hmode).2)
    obtain ⟨hroute, hallow, hblock, hports, hallowed, hblocked⟩ := halike _ _ _ _ _ _ _ _ rfl rfl
    have hsucceeds : succeeds call' only arg3 = succeeds call only arg3 := by
      simp [succeeds, hroute, hallow, hblock]
    have hadded : addedRules call' only arg3 net' uid = addedRules call only arg3 net uid := by
      by_cases hmode : only = lit "no"
      · simp [addedRules, portRules, hroute, hallow, hblock, hports, hallowed, hblocked, hnet hmode]
      · simp [addedRules, portRules, hroute, hports, hmode]
    have hexec := exec_disable hk hc hf ha ho hleft
    rw [hexec] at hc' hf' hleft' ⊢
    rw [exec_disable hk' hc' hf' ha' ho' hleft']
    simp only
    rw [disabledChain, disabledChain_wanted hk, hsucceeds, hadded, disabledChain]
  undone := by
    rintro only arg3 eth user call retreat call' rfl rfl
    obtain ⟨uid, net, hk, hc, hf, ha, hrule, ho, hleft⟩ := hx
    obtain ⟨uid', hk', hc', hf', ho'⟩ := hy
    have hexec := exec_disable hk hc hf ha ho hleft
    rw [hexec] at hc' hf' ⊢
    rw [exec_enable hk' hc' hf' ho']
    simp only [wanted_all]
    exact disabledChain_own hk c

/-! ### Whole runs -/

theorem goodRun_append {m : Machine} {c : Chain} {xs ys : List Step} (h : GoodRun m c (xs ++ ys)) :
    GoodRun m (run m c xs) ys := by
  induction xs generalizing c with
  | nil => exact h
  | cons x xs ih => exact ih h.2.2

/-- **In a run of good steps, answers and chain agree from each step to the next.** -/
theorem run_consistent (m : Machine) (c : Chain) (steps : List Step) (h : GoodRun m c steps) :
    RunConsistent m c steps := by
  rintro before x y after rfl
  obtain ⟨hx, halike, hy, _⟩ := goodRun_append h
  exact consistent_of_good hx hy (halike y rfl)

/-! ### A terminal -/

/-- Everything starts, iptables takes every rule, and the buffers are empty. -/
def AddCall.started : AddCall where
  flush := .started [] []
  routeOpens := true
  routeJunk := []
  portOpens _ := true
  allowOpens := true
  blockOpens := true
  portTakes _ := true
  allowTakes := true
  blockTakes := true
  prints _ := []
  strays _ c := c

theorem alumno_known : Known Machine.terminal (lit "alumno") 1000 where
  passwd := by with_unfolding_all decide
  small := by decide
  status := (readable_of_plain _ (by with_unfolding_all decide) (by with_unfolding_all decide) []).1

/-- Any chain without rules is in order. -/
theorem empty_flushable (only : Text) : Flushable Machine.terminal (lit "alumno") only [] where
  readable := (readable_of_plain _ (by with_unfolding_all decide) (by with_unfolding_all decide) only).2
  fits := by
    rw [numbers_eq_nil.mpr fun r hr => by cases hr]
    exact ⟨by decide, by decide⟩
  some := by simp

theorem empty_clear (m : Machine) (user : Text) : Clear m user [] := fun _ hr => by cases hr

def disableStep (arg3 : Text) : Step :=
  .disable (lit "yes") arg3 (lit "eth0") (lit "alumno") .started (.started [] [])

def statusStep : Step := .status (lit "alumno") (.started [] [])

theorem port_80_appends :
    Appends Machine.terminal .started (lit "yes") (lit "--ports=80") (lit "eth0") (lit "alumno")
      classroom where
  flush := started_opens _ _
  route _ := ⟨by with_unfolding_all decide, if_pos rfl⟩
  user := by with_unfolding_all decide
  plain := by with_unfolding_all decide

theorem disabledChain_clear {m : Machine} {call : AddCall} {only arg3 user : Text} {net : Network}
    {uid : UInt32} {c : Chain} (hk : Known m user uid) (hc : Clear m user c) :
    Clear m user (disabledChain m call only arg3 user net uid c) := by
  refine (hc.filter _).append ?_
  split
  · exact addedRules_clear hk
  · exact fun _ hr => by cases hr

/-- Blocking one port on an empty chain and asking for the status is a good run. -/
theorem port_80_consistent :
    RunConsistent Machine.terminal [] [disableStep (lit "--ports=80"), statusStep] := by
  have hempty := empty_clear Machine.terminal (lit "alumno")
  have hports : hasPorts (lit "--ports=80") = true := by with_unfolding_all decide
  have hyes : lit "yes" ≠ lit "no" := by with_unfolding_all decide
  have hleft : succeeds .started (lit "yes") (lit "--ports=80") = false → Flushable Machine.terminal
      (lit "alumno") (lit "yes") (([] : Chain).filter (fun r => !wanted Machine.terminal (lit "alumno")
        (lit "yes") r) ++ addedRules .started (lit "yes") (lit "--ports=80") classroom 1000) :=
          fun h => by
    rw [succeeds, if_neg hyes, hports] at h
    exact absurd h (by decide)
  refine run_consistent _ _ _ ⟨⟨1000, classroom, alumno_known, hempty, empty_flushable _,
    port_80_appends, fun _ => .inl ?_, started_opens _ _, hleft⟩, ?_, ⟨1000, alumno_known, ?_, rfl⟩, by simp,
      trivial⟩
  · with_unfolding_all decide
  · intro y hy
    obtain rfl : statusStep = y := by simpa using hy
    exact fun _ _ _ _ _ _ _ _ _ hstatus => by cases hstatus
  · have hexec := exec_disable alumno_known hempty (empty_flushable _) port_80_appends
      (started_opens [] []) hleft
    rw [disableStep, hexec]
    exact disabledChain_clear alumno_known hempty

def Step.user : Step → Text
  | .disable _ _ _ user _ _ => user
  | .enable _ user _ => user
  | .status user _ => user

/-- A port of the blacklist is not blocked, and the answer is `disabled` all the same. -/
theorem blacklisted_port_disabled :
    ¬ ∀ c steps, (∀ s ∈ steps, (Machine.terminal.passwd (Step.user s)).isSome = true) →
      RunConsistent Machine.terminal c steps := by
  intro h
  have hknown : (Machine.terminal.passwd (lit "alumno")).isSome = true := by
    rw [alumno_known.passwd, Option.isSome_some]
  have hrun := h [] [disableStep (lit "--ports=8998"), statusStep] fun s hs => by
    rcases List.mem_pair.mp hs with rfl | rfl <;> exact hknown
  have hports : hasPorts (lit "--ports=8998") = true := by with_unfolding_all decide
  have hblocked : blockedPorts (lit "--ports=8998") = [] := by with_unfolding_all decide
  have hyes : lit "yes" ≠ lit "no" := by with_unfolding_all decide
  have hexec : exec Machine.terminal [] (disableStep (lit "--ports=8998")) = ⟨.disabled, []⟩ := by
    have hflush := ((empty_flushable (lit "yes")).flush alumno_known
      (empty_clear _ _) (started_opens [] [])).2
    have hadd : addIptablesUser Machine.terminal .started (onlyPortsArg (lit "yes")) (lit "--ports=8998")
        (lit "eth0") (lit "alumno") [] = (true, []) := by
      have hcall : AddCall.started.flush = .started [] [] := rfl
      have hroute : AddCall.started.routeOpens = true := rfl
      simp only [addIptablesUser, hcall, hroute, hflush, onlyPorts_arg, hyes, hports, hblocked,
        Bool.not_true, Bool.false_eq_true, if_false, List.zipIdx_nil, List.foldl_nil, List.filter_nil]
    rw [disableStep, exec, hadd]
    rfl
  have hstatus := (hrun [] _ _ [] rfl).disabled _ _ _ _ _ _ _ rfl rfl
    (by rw [run, List.foldl_nil, hexec])
  rw [run, List.foldl_nil, hexec] at hstatus
  have hopens : (Call.started [] []).statusOpens = true := rfl
  rcases exec_status alumno_known (empty_clear _ _) hopens with ⟨⟨r, hr, _⟩, _⟩ | ⟨_, he⟩
  · cases hr
  · rw [statusStep, he] at hstatus
    exact absurd hstatus (by decide)

end Tcos.Tnc
