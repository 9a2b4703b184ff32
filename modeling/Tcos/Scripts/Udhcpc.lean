import Tcos.Lists.Overwrite
import Tcos.Scripts.Hostname
import Tcos.Systems.Run

/-! The events of udhcpc.

udhcpc-script is called for each event with the values of the lease in its environment. `events_leave` says
what any sequence of events leaves: the record is that of the last lease, the name servers are those of all
leases since the last one that names a domain, and no default route through an interface is left of a lease
before the last one that names a router for it.

The kernel's routes are not the script's. What ifconfig and route do to them is a `Routing`, and
`Documented` is what is asked of it: only `route add` makes a default route, through its own device, and
`route del default` takes one away as long as there is one. An address that goes may take routes with it. -/
namespace Tcos.Scripts.Udhcpc
open Shell (Text lit Sh)
open Overwrite (last since)
open Systems (run)
open Hostname (record)

/-- The values that udhcpc sets for an event. -/
abbrev Values := Text → Text

/-- What the script is called with. -/
inductive Event where
  | deconfig (value : Values)
  | renew (value : Values)
  | bound (value : Values)
  /-- `nak`, `leasefail` and anything else. -/
  | other

/-! ### Routes -/

/-- What ifconfig and route do to the routes. A device is the words that the script hands over for it. -/
structure Routing (K : Type) where
  ifconfig : List Text → K → K
  /-- `route del default gw 0.0.0.0 dev …`; none if it fails. -/
  del : List Text → K → Option K
  /-- `route add default gw … dev …`. -/
  add : List Text → List Text → K → K
  /-- The gateways of the default routes through a device, as they were given. -/
  gateways : K → List Text → List Text

structure Documented {K : Type} (R : Routing K) : Prop where
  ifconfig : ∀ args k dev, R.gateways (R.ifconfig args k) dev ⊆ R.gateways k dev
  del_none : ∀ dev k, R.del dev k = none ↔ R.gateways k dev = []
  del_one : ∀ dev k k', R.del dev k = some k' →
    (R.gateways k' dev).length + 1 = (R.gateways k dev).length ∧ ∀ d, R.gateways k' d ⊆ R.gateways k d
  add : ∀ ws dev k, R.gateways (R.add ws dev k) dev ⊆ ws ++ R.gateways k dev
  add_other : ∀ ws dev k d, d ≠ dev → R.gateways (R.add ws dev k) d ⊆ R.gateways k d

/-! ### The script -/

structure Network (K : Type) where
  netData : Text
  resolvConf : Text
  /-- The arguments of the last ifconfig. -/
  ifconfig : List Text
  routes : K

section Script
variable (sh : Sh) {K : Type} (R : Routing K)

/-- The words of an option that is left out if it is empty. -/
def optional (name value : Text) : List Text :=
  if value = [] then [] else sh.expand (name ++ ' ' :: value)

def device (value : Values) : List Text := sh.expand (value (lit "interface"))

def ifconfigArgs (value : Values) : List Text :=
  device sh value ++ sh.expand (value (lit "ip")) ++
    optional sh (lit "broadcast") (value (lit "broadcast")) ++ optional sh (lit "netmask") (value (lit "subnet"))

/-- `while route del …; do :; done`, of at most as many turns as there are routes. -/
def clear (dev : List Text) : Nat → K → K
  | 0, k => k
  | n + 1, k =>
    match R.del dev k with
    | none => k
    | some k' => clear dev n k'

def cleared (dev : List Text) (k : K) : K := clear R dev (R.gateways k dev).length k

/-- `for i in $router; do route add …; done`. -/
def addRoutes (value : Values) (k : K) : K :=
  (sh.expand (value (lit "router"))).foldl (fun k i => R.add (sh.expand i) (device sh value) k) k

def routesAfter (value : Values) (k : K) : K :=
  if value (lit "router") = [] then k else addRoutes sh R value (cleared R (device sh value) k)

def searchLine (value : Values) : Text := sh.echo (lit "search" :: sh.expand (value (lit "domain")))

def nameservers (value : Values) : Text :=
  (sh.expand (value (lit "dns"))).flatMap fun i => sh.echo (lit "nameserver" :: sh.expand i)

def hasDomain (value : Values) : Bool := value (lit "domain") != []

def lease (s : Network K) (value : Values) : Network K where
  netData := record sh value
  ifconfig := ifconfigArgs sh value
  routes := routesAfter sh R value (R.ifconfig (ifconfigArgs sh value) s.routes)
  resolvConf := (if hasDomain value then searchLine sh value else s.resolvConf) ++ nameservers sh value

def step (s : Network K) : Event → Network K
  | .deconfig value =>
    let args := device sh value ++ [lit "0.0.0.0"]
    { s with ifconfig := args, routes := R.ifconfig args s.routes }
  | .renew value | .bound value => lease sh R s value
  | .other => s

end Script

/-! ### What is left -/

/-- The lease of an event. -/
def Event.lease : Event → Option Values
  | .renew value | .bound value => some value
  | _ => none

section Events
variable (sh : Sh) {K : Type} (R : Routing K)

/-- The arguments of ifconfig at an event. -/
def Event.ifconfig : Event → Option (List Text)
  | .deconfig value => some (device sh value ++ [lit "0.0.0.0"])
  | .renew value | .bound value => some (ifconfigArgs sh value)
  | .other => none

def routerWords (value : Values) : List Text := (sh.expand (value (lit "router"))).flatMap sh.expand

/-- The routers of a lease that names some, for a device. -/
def Event.routers (dev : List Text) (e : Event) : Option (List Text) :=
  e.lease.bind fun value =>
    if value (lit "router") = [] ∨ device sh value ≠ dev then none else some (routerWords sh value)

/-- The name servers of these leases, in order, after the domain that the first of them names. -/
def resolv (leases : List Values) : Text :=
  (leases.head?.filter hasDomain).elim [] (searchLine sh) ++ leases.flatMap (nameservers sh)

/-- **What the events leave of the network as it was.** -/
structure Leaves (s : Network K) (es : List Event) (s' : Network K) : Prop where
  netData : s'.netData = (last (fun e => e.lease.map (record sh)) es).getD s.netData
  ifconfig : s'.ifconfig = (last (Event.ifconfig sh) es).getD s.ifconfig
  /-- A default route is via a router of the last lease that names some for its device. -/
  gateways : ∀ dev, R.gateways s'.routes dev ⊆
    (last (Event.routers sh dev) es).getD (R.gateways s.routes dev)
  /-- Right after such a lease its routers were added, in order, where there was no route. -/
  routed : ∀ earlier e value, es = earlier ++ [e] → e.lease = some value → value (lit "router") ≠ [] →
    ∃ k, R.gateways k (device sh value) = [] ∧ s'.routes = addRoutes sh R value k
  resolvConf : s'.resolvConf =
    (if (es.filterMap Event.lease).any hasDomain then [] else s.resolvConf) ++
      resolv sh (since hasDomain (es.filterMap Event.lease))

/-- A variable of the state that the events overwrite. -/
theorem run_overwrite {β : Type} (get : Network K → β) (f : Event → Option β)
    (hstep : ∀ s e, get (step sh R s e) = (f e).getD (get s)) (s : Network K) (es : List Event) :
    get (run (step sh R) s es) = (last f es).getD (get s) := by
  induction es using List.reverseRecOn with
  | nil => rfl
  | append_singleton es e ih =>
    rw [Systems.run_append, Overwrite.last_concat]
    refine (hstep _ e).trans ?_
    rw [ih]
    cases f e <;> rfl

theorem run_resolv (s : Network K) (es : List Event) : (run (step sh R) s es).resolvConf =
    (es.filterMap Event.lease).foldl
      (fun t value => (if hasDomain value then searchLine sh value else t) ++ nameservers sh value)
      s.resolvConf := by
  induction es generalizing s with
  | nil => rfl
  | cons e es ih =>
    refine (ih (step sh R s e)).trans ?_
    cases e <;> rfl

/-! ### The routes -/

variable {R}

/-- The loop ends, and no default route through the device is left. -/
theorem clear_gateways (hR : Documented R) (dev : List Text) {n : Nat} {k : K}
    (hn : (R.gateways k dev).length ≤ n) :
    R.gateways (clear R dev n k) dev = [] ∧ ∀ d, R.gateways (clear R dev n k) d ⊆ R.gateways k d := by
  induction n generalizing k with
  | zero => exact ⟨List.length_eq_zero_iff.mp (Nat.le_zero.mp hn), fun _ => List.Subset.refl _⟩
  | succ n ih =>
    rw [clear]
    cases hdel : R.del dev k with
    | none => exact ⟨(hR.del_none dev k).mp hdel, fun _ => List.Subset.refl _⟩
    | some k' =>
      obtain ⟨hlen, hsub⟩ := hR.del_one dev k k' hdel
      obtain ⟨hnil, hrest⟩ := ih (k := k') (by omega)
      exact ⟨hnil, fun d => List.Subset.trans (hrest d) (hsub d)⟩

theorem cleared_gateways (hR : Documented R) (dev : List Text) (k : K) :
    R.gateways (cleared R dev k) dev = [] ∧ ∀ d, R.gateways (cleared R dev k) d ⊆ R.gateways k d :=
  clear_gateways hR dev le_rfl

theorem addRoutes_gateways (hR : Documented R) (value : Values) (k : K) :
    R.gateways (addRoutes sh R value k) (device sh value) ⊆
        routerWords sh value ++ R.gateways k (device sh value) ∧
      ∀ d ≠ device sh value, R.gateways (addRoutes sh R value k) d ⊆ R.gateways k d := by
  unfold addRoutes routerWords
  generalize sh.expand (value (lit "router")) = words
  induction words generalizing k with
  | nil => exact ⟨List.Subset.refl _, fun _ _ => List.Subset.refl _⟩
  | cons i words ih =>
    obtain ⟨hown, hother⟩ := ih (R.add (sh.expand i) (device sh value) k)
    refine ⟨fun g hg => ?_, fun d hd =>
      List.Subset.trans (hother d hd) (hR.add_other _ _ k d hd)⟩
    rw [List.foldl_cons] at hg
    have hlast := hR.add (sh.expand i) (device sh value) k
    rcases List.mem_append.mp (hown hg) with hg | hg
    · exact List.mem_append_left _ (by simp only [List.flatMap_cons]; exact List.mem_append_right _ hg)
    · rcases List.mem_append.mp (hlast hg) with hg | hg
      · exact List.mem_append_left _ (by simp only [List.flatMap_cons]; exact List.mem_append_left _ hg)
      · exact List.mem_append_right _ hg

/-- **What an event does to the routes through a device.** -/
theorem step_gateways (hR : Documented R) (s : Network K) (e : Event) (dev : List Text) :
    R.gateways (step sh R s e).routes dev ⊆ (e.routers sh dev).getD (R.gateways s.routes dev) := by
  have hlease : ∀ value, R.gateways (lease sh R s value).routes dev ⊆
      (if value (lit "router") = [] ∨ device sh value ≠ dev then none
        else some (routerWords sh value)).getD (R.gateways s.routes dev) := by
    intro value
    have hifconfig := hR.ifconfig (ifconfigArgs sh value) s.routes dev
    obtain ⟨hnone, hless⟩ := cleared_gateways hR (device sh value)
      (R.ifconfig (ifconfigArgs sh value) s.routes)
    obtain ⟨hown, hother⟩ := addRoutes_gateways sh hR value
      (cleared R (device sh value) (R.ifconfig (ifconfigArgs sh value) s.routes))
    dsimp only [lease, routesAfter]
    split_ifs with h1 h2 h3
    · exact hifconfig
    · exact absurd (Or.inl h1) h2
    · exact List.Subset.trans (hother dev (h3.resolve_left h1).symm)
        (List.Subset.trans (hless dev) hifconfig)
    · have hdev : device sh value = dev := not_not.mp fun h => h3 (.inr h)
      rw [hnone, List.append_nil] at hown
      exact hdev ▸ hown
  cases e with
  | deconfig value => exact hR.ifconfig _ s.routes dev
  | renew value => exact hlease value
  | bound value => exact hlease value
  | other => exact List.Subset.refl _

theorem run_gateways (hR : Documented R) (s : Network K) (es : List Event) (dev : List Text) :
    R.gateways (run (step sh R) s es).routes dev ⊆
      (last (Event.routers sh dev) es).getD (R.gateways s.routes dev) := by
  induction es using List.reverseRecOn with
  | nil => exact List.Subset.refl _
  | append_singleton es e ih =>
    rw [Systems.run_append, Overwrite.last_concat]
    have hstep := step_gateways sh hR (run (step sh R) s es) e dev
    cases he : e.routers sh dev with
    | none =>
      rw [he] at hstep
      exact List.Subset.trans hstep ih
    | some gs =>
      rw [he] at hstep
      exact hstep

/-- **After any events.** -/
theorem events_leave (hR : Documented R) (s : Network K) (es : List Event) :
    Leaves sh R s es (run (step sh R) s es) := by
  refine ⟨?_, ?_, run_gateways sh hR s es, ?_, ?_⟩
  · exact run_overwrite sh R Network.netData _ (fun s e => by cases e <;> rfl) s es
  · exact run_overwrite sh R Network.ifconfig (Event.ifconfig sh) (fun s e => by cases e <;> rfl) s es
  · rintro earlier e value rfl hlease hrouter
    have hlast : ∀ s : Network K, (step sh R s e).routes = addRoutes sh R value
        (cleared R (device sh value) (R.ifconfig (ifconfigArgs sh value) s.routes)) := by
      intro s
      cases e <;> simp only [Event.lease, Option.some.injEq, reduceCtorEq] at hlease <;> subst hlease <;>
        exact if_neg hrouter
    rw [Systems.run_append]
    exact ⟨_, (cleared_gateways hR (device sh value) _).1, hlast _⟩
  · rw [run_resolv, Overwrite.foldl_log hasDomain (searchLine sh) (nameservers sh), resolv, List.append_assoc]

end Events

/-! ### A table of routes -/

/-- A device, and a gateway. -/
abbrev Table := List (List Text × Text)

/-- Routes are kept in the order of their making; one that is there is not made again, and an address that
goes takes the routes of its device with it. -/
def tableRouting : Routing Table where
  ifconfig args k := if args.getLast? = some (lit "0.0.0.0") then k.filter (·.1 ≠ args.dropLast) else k
  del dev k := if k.any (·.1 = dev) then some (k.eraseP (·.1 = dev)) else none
  add ws dev k :=
    match ws with
    | [g] => if k.contains (dev, g) then k else k ++ [(dev, g)]
    | _ => k
  gateways k dev := (k.filter (·.1 = dev)).map Prod.snd

theorem filter_eraseP {α : Type} (p : α → Bool) (l : List α) :
    (l.eraseP p).filter p = (l.filter p).tail := by
  induction l with
  | nil => rfl
  | cons a l ih =>
    by_cases h : p a = true
    · simp [h]
    · simp [h, ih]

theorem tableRouting_documented : Documented tableRouting where
  ifconfig args k dev := by
    dsimp only [tableRouting]
    split
    · exact ((List.filter_sublist.filter _).map _).subset
    · exact List.Subset.refl _
  del_none dev k := by
    have hany : (k.filter fun r => decide (r.1 = dev)).map Prod.snd = [] ↔
        k.any (fun r => decide (r.1 = dev)) = false := by
      rw [List.map_eq_nil_iff, List.filter_eq_nil_iff, List.any_eq_false]
    dsimp only [tableRouting]
    rw [hany]
    cases k.any fun r => decide (r.1 = dev) <;> simp
  del_one dev k k' h := by
    dsimp only [tableRouting] at h ⊢
    split at h
    case isTrue hany =>
      obtain rfl := Option.some.inj h
      refine ⟨?_, fun d => (((List.eraseP_sublist).filter _).map _).subset⟩
      obtain ⟨x, hx, hdev⟩ := List.any_eq_true.mp hany
      have hpos : 0 < (k.filter fun r => decide (r.1 = dev)).length :=
        List.length_pos_of_mem (List.mem_filter.mpr ⟨hx, hdev⟩)
      rw [filter_eraseP, List.length_map, List.length_map, List.length_tail]
      omega
    case isFalse => exact absurd h (by simp)
  add ws dev k := by
    dsimp only [tableRouting]
    split
    · split
      · exact List.subset_append_right _ _
      · intro g hg
        simp only [List.filter_append, List.map_append, List.mem_append] at hg ⊢
        simpa [or_comm] using hg
    · exact List.subset_append_right _ _
  add_other ws dev k d hd := by
    dsimp only [tableRouting]
    split
    · split
      · exact List.Subset.refl _
      · simp [List.filter_append, Ne.symm hd]
    · exact List.Subset.refl _

/-- A server that gives an address and a router. -/
def routed (v : Text) : Text :=
  if v = lit "interface" then lit "eth0" else if v = lit "ip" then lit "10.0.0.2"
  else if v = lit "router" then lit "10.0.0.1" else []

/-- The address goes, and with it the route. -/
theorem events_leave_none : Leaves Hostname.ash tableRouting ⟨[], [], [], []⟩
    [.bound routed, .deconfig routed] ⟨record Hostname.ash routed, [], [lit "eth0", lit "0.0.0.0"], []⟩ := by
  have h := events_leave Hostname.ash tableRouting_documented ⟨[], [], [], []⟩
    [.bound routed, .deconfig routed]
  have hrun : run (step Hostname.ash tableRouting) ⟨[], [], [], []⟩ [.bound routed, .deconfig routed] =
      ⟨record Hostname.ash routed, [], [lit "eth0", lit "0.0.0.0"], []⟩ := by
    with_unfolding_all rfl
  rw [hrun] at h
  exact h

end Tcos.Scripts.Udhcpc
