import Tcos.Grep.Dots
import Tcos.Scripts.Cmdline
import Tcos.Scripts.Hostname

/-! Where a client finds its servers.

05network writes the addresses of the servers to /etc/hosts, from the lease and the kernel command
line; the scripts after it look them up there with `read_server`. `readServer_role` follows an address
from the lease to the lookup: a client whose own name has the name of a server in it does not get it. -/
namespace Tcos.Scripts.Servers
open Shell (Text lit Sh captured lines unlines fields awkField isIfs isInert)
open Grep (selects)
open Cmdline (Setting cmdline effective readCmdlineVar IsClear)
open Hostname (optionNames record netData network isLegal IsName assignment)
open Libc (tokens_append)

/-! ### 05network -/

section Network
variable (sh : Sh) (data line : Text)

def dhcpserver : Text := netData (lit "serverid") data
def xserver : Text := netData (lit "swapsrv") data
def myip : Text := netData (lit "ip") data

def tcosTftpServer : Text := captured (readCmdlineVar sh (lit "tftpserver") (dhcpserver data) line)

/-- The other servers, each with a setting of its own. -/
def tcosServer (setting : Text) : Text :=
  if xserver data ≠ [] then captured (readCmdlineVar sh setting (xserver data) line)
  else captured (readCmdlineVar sh setting (dhcpserver data) line)

/-- The lines of /etc/hosts: an address and its names. -/
def entries (hostname : Text) : List (Text × Text) :=
  [(lit "127.0.0.1", lit "localhost.localdomain localhost"),
    (lit "127.0.1.1", hostname),
    (myip data, hostname),
    (tcosServer sh data line (lit "server"), lit "tcos-server"),
    (tcosTftpServer sh data line, lit "tftp-server"),
    (tcosServer sh data line (lit "xserver"), lit "xdmcp-server"),
    (tcosServer sh data line (lit "rdesktop"), lit "rdesktop-server"),
    (tcosServer sh data line (lit "nfsserver"), lit "nfs-server"),
    (tcosServer sh data line (lit "fontserver"), lit "font-server")]

def entryLine (e : Text × Text) : Text := e.1 ++ ' ' :: e.2

/-- `[ -z $hostname ]`; several words are no test. -/
def isMissing : List Text → Bool
  | [] => true
  | [w] => w.isEmpty
  | _ => false

/-- /etc/hosts; without a host name the boot stops. -/
def hosts (environment : Text) (executable : Bool) : Option Text :=
  (network sh environment executable data).bind fun hostname =>
    if isMissing (sh.expand hostname) then none
    else some (unlines ((entries sh data line hostname).map entryLine))

end Network

/-! ### tcos-run-functions.sh -/

section Functions
variable (sh : Sh)

/-- `[ ${TCOS_FORCE_SERVER} ]`; several words are no test. -/
def isForced : List Text → Bool
  | [w] => !w.isEmpty
  | _ => false

/-- What it prints; without /tmp/net.data the boot stops. -/
def getServer (force : Text) (data : Option Text) (line : Text) : Option Text :=
  if isForced (sh.expand force) then some (sh.echo (sh.expand force))
  else data.map fun data =>
    sh.echo [captured (readCmdlineVar sh (lit "server") (netData (lit "serverid") data) line)]

/-- `grep "$1" /etc/hosts | awk '{print $1}' | head -1`. -/
def lookup (role file : Text) : Text :=
  unlines ((lines (((lines file).filter (selects role)).flatMap fun l =>
    (fields l).headD [] ++ ['\n'])).take 1)

def readServer (role file force : Text) (data : Option Text) (line : Text) : Option Text :=
  let nServer := captured (lookup role file)
  if nServer = [] then (getServer sh force data line).map fun t => sh.echo [captured t]
  else some (sh.echo [nServer])

end Functions

/-! ### What a client is meant to find -/

/-- The names of the servers and their settings. -/
def roles : List (Text × Text) :=
  [(lit "tcos-server", lit "server"), (lit "tftp-server", lit "tftpserver"),
    (lit "xdmcp-server", lit "xserver"), (lit "rdesktop-server", lit "rdesktop"),
    (lit "nfs-server", lit "nfsserver"), (lit "font-server", lit "fontserver")]

/-- An address or a name without the name of a server in it. -/
structure IsAddress (t : Text) : Prop where
  nonempty : t ≠ []
  legal : ∀ c ∈ t, isLegal c = true
  dash : t.head? ≠ some '-'
  free : ∀ r ∈ roles, ¬ r.1 <:+: t

/-- The server of a role: the setting counts, then the `swapsrv` of the lease, then its `serverid`;
files come from the latter. -/
def address (value : Text → Text) (settings : List Setting) (setting : Text) : Text :=
  effective settings setting
    (if setting ≠ lit "tftpserver" ∧ value (lit "swapsrv") ≠ [] then value (lit "swapsrv")
      else value (lit "serverid"))

/-- A lease with the addresses that the script uses. -/
structure Lease (value : Text → Text) : Prop where
  line : ∀ v ∈ optionNames, '\n' ∉ value v ∧ '\\' ∉ value v
  ip : IsAddress (value (lit "ip"))
  serverid : IsAddress (value (lit "serverid"))
  swapsrv : value (lit "swapsrv") = [] ∨ IsAddress (value (lit "swapsrv"))

/-! ### The lease -/

section Lease
variable {value : Text → Text}

theorem prefix_assignment {v w : Text} (hv : v ∈ optionNames) (hw : w ∈ optionNames) :
    (v ++ ['=']).isPrefixOf (assignment value w) = decide (w = v) := by
  rw [Bool.eq_iff_iff, List.isPrefixOf_iff_prefix, decide_eq_true_iff]
  constructor
  · rintro ⟨s, hs⟩
    rw [List.append_assoc, List.singleton_append] at hs
    exact (Shell.cut_unique (Hostname.names_plain v hv).1 (Hostname.names_plain w hw).1 hs).1.symm
  · rintro rfl
    exact ⟨value w, by simp [assignment]⟩

/-- The lines of one option. -/
theorem found_record (sh : Sh) (hvalues : ∀ v ∈ optionNames, '\n' ∉ value v ∧ '\\' ∉ value v) {v : Text}
    (hv : v ∈ optionNames) : (lines (record sh value)).filter (v ++ ['=']).isPrefixOf =
      if value v = [] then [] else [assignment value v] := by
  obtain ⟨hplain, hfile, hnodup⟩ : '=' ∉ lit "# created by /bin/udhcpc-script" ∧
      '\n' ∉ lit "# created by /bin/udhcpc-script" ∧ optionNames.Nodup := by
    with_unfolding_all decide
  have hlines : ∀ l ∈ lit "# created by /bin/udhcpc-script" ::
      (optionNames.filter fun v => value v ≠ []).map (assignment value), '\n' ∉ l := by
    intro l hl
    rcases List.mem_cons.mp hl with rfl | hl
    · exact hfile
    · obtain ⟨w, hw, rfl⟩ := List.mem_map.mp hl
      have hmem := List.mem_of_mem_filter hw
      simp [assignment, (Hostname.names_plain w hmem).2.1, (hvalues w hmem).1]
  have hskip : (v ++ ['=']).isPrefixOf (lit "# created by /bin/udhcpc-script") = false := by
    rw [Bool.eq_false_iff, ne_eq, List.isPrefixOf_iff_prefix]
    exact fun h => hplain (h.subset (by simp))
  have hown : (optionNames.filter fun v => value v ≠ []).filter
      ((v ++ ['=']).isPrefixOf ∘ assignment value) = (optionNames.filter (· = v)).filter
        fun v => value v ≠ [] := by
    rw [List.filter_filter, List.filter_filter]
    refine List.filter_congr fun w hw => ?_
    rw [Function.comp_apply, prefix_assignment hv hw, Bool.and_comm]
  have hone : optionNames.filter (· = v) = [v] := by
    rw [List.filter_eq, List.count_eq_one_of_mem hnodup hv]
    rfl
  rw [Hostname.record_lines sh hvalues, Shell.lines_unlines hlines, List.filter_cons, hskip,
    List.filter_map, hown, hone]
  by_cases hnil : value v = [] <;> simp [hnil]

/-- **A value without an `=` comes back, the empty one too.** -/
theorem netData_record (sh : Sh) (hvalues : ∀ v ∈ optionNames, '\n' ∉ value v ∧ '\\' ∉ value v)
    {v : Text} (hv : v ∈ optionNames) (heq : '=' ∉ value v) : netData v (record sh value) = value v := by
  rw [netData, found_record sh hvalues hv]
  by_cases hnil : value v = []
  · simp [hnil, captured]
  · have hfield : awkField '=' 2 (assignment value v) = value v := by
      rw [assignment, Shell.awkField_next (Hostname.names_plain v hv).1, (Shell.awkField_whole heq).1]
    rw [if_neg hnil, List.flatMap_singleton, hfield, Shell.captured_line (hvalues v hv).1]

end Lease

/-! ### The lookup -/

/-- A text without the byte between two others stands in one of them. -/
theorem infix_cut {c : Char} {q a b : Text} (hc : c ∉ q) :
    q <:+: a ++ c :: b ↔ q <:+: a ∨ q <:+: b := by
  constructor
  · intro h
    rcases List.infix_append_iff.mp h with h | h | ⟨s, t, rfl, hs, ht⟩
    · exact .inl h
    · rcases List.infix_cons_iff.mp h with h | h
      · rcases List.prefix_cons_iff.mp h with rfl | ⟨t, rfl, -⟩
        · exact .inl List.nil_infix
        · exact absurd (List.mem_cons_self ..) hc
      · exact .inr h
    · rcases List.prefix_cons_iff.mp ht with rfl | ⟨t, rfl, -⟩
      · exact .inl (by simpa using hs.isInfix)
      · exact absurd (by simp) hc
  · rintro (h | h)
    · exact List.infix_append_of_infix_left h
    · exact List.infix_append_of_infix_right (h.trans (List.suffix_cons c b).isInfix)

/-- The name of a server, as a pattern. -/
structure IsRole (role : Text) : Prop where
  dotted : Grep.Dotted role
  dot : '.' ∉ role
  blank : ' ' ∉ role

/-- **The first line with the role in it is found, and the address before its names.** -/
theorem lookup_entries {role : Text} (hrole : IsRole role) {es : List (Text × Text)}
    (h : ∀ e ∈ es, (e.1 ≠ [] ∧ ∀ c ∈ e.1, isIfs c = false) ∧ '\n' ∉ e.2) :
    lookup role (unlines (es.map entryLine)) =
      ((es.find? fun e => role <:+: e.1 ∨ role <:+: e.2).map fun e => e.1 ++ ['\n']).getD [] := by
  have hlines : ∀ l ∈ es.map entryLine, '\n' ∉ l := by
    intro l hl
    obtain ⟨e, he, rfl⟩ := List.mem_map.mp hl
    have hbreak : '\n' ∉ e.1 := fun hmem => absurd ((h e he).1.2 _ hmem) (by decide)
    simp [entryLine, hbreak, (h e he).2]
  have hfirst : ∀ e ∈ es, (fields (entryLine e)).headD [] = e.1 := by
    intro e he
    obtain ⟨⟨hne, hword⟩, -⟩ := h e he
    rw [entryLine, fields, tokens_append hword rfl, if_neg hne]
    rfl
  have hselect : ∀ e ∈ es, (selects role ∘ entryLine) e = decide (role <:+: e.1 ∨ role <:+: e.2) := by
    intro e _
    rw [Function.comp_apply, Grep.selects_contained hrole.dotted hrole.dot, entryLine]
    exact decide_eq_decide.mpr (infix_cut hrole.blank)
  have hprinted : ∀ fs : List (Text × Text), fs.Sublist es →
      ((fs.map entryLine).flatMap fun l => (fields l).headD [] ++ ['\n']) = unlines (fs.map Prod.fst) := by
    intro fs hfs
    rw [unlines, List.flatMap_map, List.flatMap_map]
    exact List.flatMap_congr fun e he => by rw [hfirst e (hfs.subset he)]
  rw [lookup, Shell.lines_unlines hlines, List.filter_map, List.filter_congr hselect,
    hprinted _ List.filter_sublist, Shell.lines_unlines, ← List.map_take, ← List.head?_filter]
  · cases (es.filter fun e => decide (role <:+: e.1 ∨ role <:+: e.2)) <;> simp [unlines]
  · intro l hl
    obtain ⟨e, he, rfl⟩ := List.mem_map.mp hl
    exact fun hmem => absurd ((h e (List.mem_of_mem_filter he)).1.2 _ hmem) (by decide)

/-! ### The servers of the file -/

theorem roles_plain : ∀ r ∈ roles, IsRole r.1 ∧ '\n' ∉ r.1 ∧ Cmdline.IsVar r.2 := by
  have h : (roles.all fun r => r.1.all Grep.isSimple && decide (r.1.head? ≠ some '^') &&
      decide (r.1.getLast? ≠ some '$') && decide ('.' ∉ r.1 ∧ ' ' ∉ r.1 ∧ '\n' ∉ r.1 ∧ '=' ∉ r.2) &&
        r.2.all fun c => decide (Shell.isPattern c = false ∧ c ≠ '\\')) = true := by
    with_unfolding_all decide
  intro r hr
  have := List.all_eq_true.mp h r hr
  simp only [Bool.and_eq_true, List.all_eq_true, decide_eq_true_iff] at this
  obtain ⟨⟨⟨⟨hsimple, hhead⟩, hlast⟩, hdot, hblank, hline, hequals⟩, hplain⟩ := this
  exact ⟨⟨⟨hsimple, hhead, hlast⟩, hdot, hblank⟩, hline, hequals, hplain⟩

/-- No role is a part of another. -/
theorem roles_apart : ∀ r ∈ roles, ∀ q ∈ roles, r.1 <:+: q.1 ↔ q = r := by
  have h : (roles.all fun r => roles.all fun q => decide (r.1 <:+: q.1 ↔ q = r)) = true := by
    with_unfolding_all decide
  intro r hr q hq
  exact of_decide_eq_true (List.all_eq_true.mp (List.all_eq_true.mp h r hr) q hq)

theorem roles_local : ∀ r ∈ roles, (¬ r.1 <:+: lit "127.0.0.1" ∧
    ¬ r.1 <:+: lit "localhost.localdomain localhost") ∧ ¬ r.1 <:+: lit "127.0.1.1" := by
  have h : (roles.all fun r => decide ((¬ r.1 <:+: lit "127.0.0.1" ∧
      ¬ r.1 <:+: lit "localhost.localdomain localhost") ∧ ¬ r.1 <:+: lit "127.0.1.1")) = true := by
    with_unfolding_all decide
  intro r hr
  exact of_decide_eq_true (List.all_eq_true.mp h r hr)

theorem IsAddress.clear {t : Text} (h : IsAddress t) : IsClear t :=
  ⟨fun hc => absurd (h.legal _ hc) (by decide), h.dash, fun hc => absurd (h.legal _ hc) (by decide)⟩

theorem IsAddress.equals {t : Text} (h : IsAddress t) : '=' ∉ t := fun hc =>
  absurd (h.legal _ hc) (by decide)

theorem legal_ifs {t : Text} (h : ∀ c ∈ t, isLegal c = true) : ∀ c ∈ t, isIfs c = false :=
  (Hostname.tame (by decide) h).ifs

section Boot
variable (sh : Sh) {value : Text → Text} {settings : List Setting}

/-- The settings for the servers have addresses, or nothing. -/
def Addressed (settings : List Setting) : Prop :=
  ∀ s ∈ settings, (∃ r ∈ roles, s.name = r.2) → s.content = [] ∨ IsAddress s.content

theorem effective_address (hset : Addressed settings) {r : Text × Text} (hr : r ∈ roles) {default : Text}
    (hdefault : IsAddress default) : IsAddress (effective settings r.2 default) := by
  unfold effective
  cases hlast : Overwrite.last (Setting.sets r.2) settings with
  | none => simpa using hdefault
  | some v =>
    obtain ⟨before, s, after, rfl, hs, -⟩ := Overwrite.last_eq_some.mp hlast
    unfold Setting.sets at hs
    split at hs
    case isFalse => exact absurd hs (by simp)
    case isTrue hname =>
      cases hs
      have hcontent := hset s (by simp) ⟨r, hr, hname⟩
      show IsAddress (if s.content = [] then default else s.content)
      split
      case isTrue => exact hdefault
      case isFalse hne => exact hcontent.resolve_left hne

theorem isAddress_address (hlease : Lease value) (hset : Addressed settings) {r : Text × Text}
    (hr : r ∈ roles) : IsAddress (address value settings r.2) := by
  refine effective_address hset hr ?_
  split
  case isTrue h => exact hlease.swapsrv.resolve_left h.2
  case isFalse => exact hlease.serverid

theorem option_names : lit "ip" ∈ optionNames ∧ lit "serverid" ∈ optionNames ∧
    lit "swapsrv" ∈ optionNames := by
  with_unfolding_all decide

theorem lease_read (hlease : Lease value) : myip (record sh value) = value (lit "ip") ∧
    dhcpserver (record sh value) = value (lit "serverid") ∧
      xserver (record sh value) = value (lit "swapsrv") := by
  obtain ⟨hip, hserver, hswap⟩ := option_names
  refine ⟨netData_record sh hlease.line hip hlease.ip.equals,
    netData_record sh hlease.line hserver hlease.serverid.equals,
    netData_record sh hlease.line hswap ?_⟩
  rcases hlease.swapsrv with hnil | haddress
  · simp [hnil]
  · exact haddress.equals

/-- What 05network writes for a role. -/
theorem server_address (hlease : Lease value) (hset : Addressed settings) {r : Text × Text}
    (hr : r ∈ roles) : (if r.2 = lit "tftpserver" then
        tcosTftpServer sh (record sh value) (cmdline settings)
      else tcosServer sh (record sh value) (cmdline settings) r.2) = address value settings r.2 := by
  obtain ⟨-, hserver, hswap⟩ := lease_read sh hlease
  have hread : ∀ default, IsAddress default →
      captured (readCmdlineVar sh r.2 default (cmdline settings)) = effective settings r.2 default :=
    fun default hdefault => Cmdline.captured_settings sh settings (roles_plain r hr).2.2
      (effective_address hset hr hdefault).clear
  unfold address
  by_cases htftp : r.2 = lit "tftpserver"
  · rw [htftp] at hread
    simp only [htftp, if_true, ne_eq, not_true_eq_false, false_and, if_false]
    rw [tcosTftpServer, hserver, hread _ hlease.serverid]
  · rw [if_neg htftp, tcosServer, hserver, hswap]
    by_cases hnil : value (lit "swapsrv") = []
    · simp [hnil, hread _ hlease.serverid]
    · simp [hnil, htftp, hread _ (hlease.swapsrv.resolve_left hnil)]

/-- The lines for the servers, after three for the client. -/
theorem entries_roles (hlease : Lease value) (hset : Addressed settings) (hostname : Text) :
    entries sh (record sh value) (cmdline settings) hostname =
      [(lit "127.0.0.1", lit "localhost.localdomain localhost"), (lit "127.0.1.1", hostname),
        (value (lit "ip"), hostname)] ++ roles.map fun r => (address value settings r.2, r.1) := by
  have hnames : lit "server" ≠ lit "tftpserver" ∧ lit "xserver" ≠ lit "tftpserver" ∧
      lit "rdesktop" ≠ lit "tftpserver" ∧ lit "nfsserver" ≠ lit "tftpserver" ∧
        lit "fontserver" ≠ lit "tftpserver" := by
    with_unfolding_all decide
  have hserver := fun r hr => server_address (r := r) sh hlease hset hr
  simp only [roles, List.forall_mem_cons, hnames, if_true, if_false] at hserver
  obtain ⟨hserver, htftp, hx, hrdesktop, hnfs, hfont, -⟩ := hserver
  simp only [entries, (lease_read sh hlease).1, hserver, htftp, hx, hrdesktop, hnfs, hfont, roles,
    List.map_cons, List.map_nil, List.cons_append, List.nil_append]

/-- The first line that a role finds. -/
theorem find_entries (hlease : Lease value) (hset : Addressed settings) (hostname : Text)
    {r : Text × Text} (hr : r ∈ roles) :
    ((entries sh (record sh value) (cmdline settings) hostname).find? fun e =>
        r.1 <:+: e.1 ∨ r.1 <:+: e.2).map Prod.fst =
      some (if r.1 <:+: hostname then lit "127.0.1.1" else address value settings r.2) := by
  obtain ⟨⟨hloop, hlocal⟩, hself⟩ := roles_local r hr
  have hip : ¬ r.1 <:+: value (lit "ip") := hlease.ip.free r hr
  have hrest : (roles.map fun q => (address value settings q.2, q.1)).find? (fun e =>
      decide (r.1 <:+: e.1 ∨ r.1 <:+: e.2)) = some (address value settings r.2, r.1) := by
    have hown : ∀ q ∈ roles, decide (r.1 <:+: address value settings q.2 ∨ r.1 <:+: q.1) =
        decide (q = r) := fun q hq => by
      have hfree := (isAddress_address hlease hset hq).free r hr
      exact decide_eq_decide.mpr (by rw [← roles_apart r hr q hq]; simp [hfree])
    rw [List.find?_map, ← List.head?_filter, Function.comp_def, List.filter_congr hown, List.filter_eq,
      List.count_eq_one_of_mem (by with_unfolding_all decide) hr]
    rfl
  rw [entries_roles sh hlease hset]
  by_cases hhost : r.1 <:+: hostname
  · simp [hloop, hlocal, hhost]
  · simp only [List.cons_append, List.nil_append, List.find?_cons, hloop, hlocal, hself, hhost, hip,
      or_self, decide_false, hrest]
    rfl

/-- The lines are cut where they were put together. -/
theorem entries_words (hlease : Lease value) (hset : Addressed settings) {hostname : Text}
    (hname : IsName hostname) : ∀ e ∈ entries sh (record sh value) (cmdline settings) hostname,
      (e.1 ≠ [] ∧ ∀ c ∈ e.1, isIfs c = false) ∧ '\n' ∉ e.2 := by
  have haddress : ∀ t, IsAddress t → t ≠ [] ∧ ∀ c ∈ t, isIfs c = false :=
    fun t ht => ⟨ht.nonempty, legal_ifs ht.legal⟩
  have hlocal : lit "127.0.0.1" ≠ [] ∧ lit "127.0.1.1" ≠ [] ∧
      '\n' ∉ lit "localhost.localdomain localhost" := by
    with_unfolding_all decide
  have hloop : ∀ c ∈ lit "127.0.0.1", isIfs c = false := Shell.each (by with_unfolding_all decide)
  have hself : ∀ c ∈ lit "127.0.1.1", isIfs c = false := Shell.each (by with_unfolding_all decide)
  rw [entries_roles sh hlease hset]
  intro e he
  rcases List.mem_append.mp he with he | he
  · simp only [List.mem_cons, List.not_mem_nil, or_false] at he
    rcases he with rfl | rfl | rfl
    · exact ⟨⟨hlocal.1, hloop⟩, hlocal.2.2⟩
    · exact ⟨⟨hlocal.2.1, hself⟩, hname.tame.line⟩
    · exact ⟨haddress _ hlease.ip, hname.tame.line⟩
  · obtain ⟨q, hq, rfl⟩ := List.mem_map.mp he
    exact ⟨haddress _ (isAddress_address hlease hset hq), (roles_plain q hq).2.1⟩

/-- What `grep`, `awk` and `head` find in the file. -/
theorem lookup_role (hlease : Lease value) (hset : Addressed settings) {hostname : Text}
    (hname : IsName hostname) {r : Text × Text} (hr : r ∈ roles) :
    lookup r.1 (unlines ((entries sh (record sh value) (cmdline settings) hostname).map entryLine)) =
      (if r.1 <:+: hostname then lit "127.0.1.1" else address value settings r.2) ++ ['\n'] := by
  have hfind := find_entries sh hlease hset hostname hr
  rw [lookup_entries (roles_plain r hr).1 (entries_words sh hlease hset hname)]
  obtain ⟨e, he, hfirst⟩ := Option.map_eq_some_iff.mp hfind
  rw [he, ← hfirst]
  rfl

/-- It is one word, and printed as it is. -/
theorem found_clear (hlease : Lease value) (hset : Addressed settings) (hostname : Text)
    {r : Text × Text} (hr : r ∈ roles) {found : Text}
    (hfound : (if r.1 <:+: hostname then lit "127.0.1.1" else address value settings r.2) = found) :
    IsClear found ∧ found ≠ [] := by
  rw [← hfound]
  split
  · exact ⟨⟨by with_unfolding_all decide, by with_unfolding_all decide, by with_unfolding_all decide⟩,
      by with_unfolding_all decide⟩
  · have haddress := isAddress_address hlease hset hr
    exact ⟨haddress.clear, haddress.nonempty⟩

end Boot

/-- **A client finds each server where the lease and the command line have it, unless the name of the
server stands in its own.** -/
theorem readServer_role (sh : Sh) (environment : Text) (executable : Bool) {value : Text → Text}
    {settings : List Setting} (hlease : Lease value) (hset : Addressed settings) {hostname : Text}
    (hname : IsName hostname) (hnet : network sh environment executable (record sh value) = some hostname)
    {r : Text × Text} (hr : r ∈ roles) (force : Text) :
    ((hosts sh (record sh value) (cmdline settings) environment executable).bind fun file =>
        (readServer sh r.1 file force (some (record sh value)) (cmdline settings)).map captured) =
      some (if r.1 <:+: hostname then lit "127.0.1.1" else address value settings r.2) := by
  have hword : isMissing (sh.expand hostname) = false := by
    rw [Hostname.expand_tame sh hname.tame hname.nonempty]
    simp [isMissing, hname.nonempty]
  have hlookup := lookup_role sh hlease hset hname hr
  generalize hfound : (if r.1 <:+: hostname then lit "127.0.1.1" else address value settings r.2) =
    found at hlookup ⊢
  obtain ⟨hclear, hsome⟩ := found_clear hlease hset hostname hr hfound
  rw [hosts, hnet, Option.bind_some, hword, if_neg (by simp), Option.bind_some, readServer, hlookup,
    Shell.captured_line hclear.line]
  simp only [hsome, if_false, Option.map_some]
  rw [Shell.echo_plain sh hclear.slash hclear.dash, Shell.captured_line hclear.line]

/-- A name that the server gave plainly. -/
theorem network_plain (sh : Sh) (environment : Text) (executable : Bool) {value : Text → Text}
    (hlease : Lease value) (hname : IsName (value (lit "hostname"))) :
    network sh environment executable (record sh value) = some (value (lit "hostname")) := by
  have hmem : lit "hostname" ∈ optionNames := by with_unfolding_all decide
  rw [network, netData_record sh hlease.line hmem hname.tame.equals,
    Hostname.isHexadecimal_plain sh hname]
  rfl

/-! ### A client -/

/-- A server that gives the addresses and a name. -/
def given (v : Text) : Text :=
  if v = lit "ip" then lit "10.0.0.2" else if v = lit "serverid" then lit "10.0.0.1"
  else if v = lit "swapsrv" then lit "10.0.0.9" else if v = lit "hostname" then lit "pc-nfs-server"
  else []

theorem given_address {t : Text} (h : t ∈ [lit "10.0.0.2", lit "10.0.0.1", lit "10.0.0.9"]) :
    IsAddress t := by
  have hall : ([lit "10.0.0.2", lit "10.0.0.1", lit "10.0.0.9"].all fun t =>
      decide (t ≠ []) && t.all isLegal && decide (t.head? ≠ some '-') &&
        roles.all fun r => decide (¬ r.1 <:+: t)) = true := by
    with_unfolding_all decide
  have := List.all_eq_true.mp hall t h
  simp only [Bool.and_eq_true, decide_eq_true_iff, List.all_eq_true] at this
  exact ⟨this.1.1.1, this.1.1.2, this.1.2, this.2⟩

theorem given_lease : Lease given := by
  obtain ⟨hip, hserver, hswap⟩ : given (lit "ip") = lit "10.0.0.2" ∧
      given (lit "serverid") = lit "10.0.0.1" ∧ given (lit "swapsrv") = lit "10.0.0.9" := by
    with_unfolding_all decide
  refine ⟨fun v _ => ?_, ?_, ?_, .inr ?_⟩
  · unfold given
    split_ifs
    all_goals with_unfolding_all decide
  · exact hip ▸ given_address (by simp)
  · exact hserver ▸ given_address (by simp)
  · exact hswap ▸ given_address (by simp)

/-- The address of the graphical server comes from the lease, that of the files is lost. -/
theorem readServer_role_given : ∃ file,
    hosts Hostname.ash (record Hostname.ash given) (cmdline []) [] true = some file ∧
      (readServer Hostname.ash (lit "xdmcp-server") file [] (some (record Hostname.ash given))
        (cmdline [])).map captured = some (lit "10.0.0.9") ∧
      (readServer Hostname.ash (lit "nfs-server") file [] (some (record Hostname.ash given))
        (cmdline [])).map captured = some (lit "127.0.1.1") := by
  have hname : IsName (given (lit "hostname")) :=
    ⟨by with_unfolding_all decide, Shell.each (by with_unfolding_all decide)⟩
  have hnet := network_plain Hostname.ash [] true given_lease hname
  have hset : Addressed [] := fun s hs => absurd hs List.not_mem_nil
  have hmem : (lit "xdmcp-server", lit "xserver") ∈ roles ∧ (lit "nfs-server", lit "nfsserver") ∈ roles := by
    with_unfolding_all decide
  have hx := readServer_role Hostname.ash [] true given_lease hset hname hnet hmem.1 []
  have hnfs := readServer_role Hostname.ash [] true given_lease hset hname hnet hmem.2 []
  obtain ⟨file, hfile, hxfound⟩ := Option.bind_eq_some_iff.mp hx
  rw [hfile, Option.bind_some] at hnfs
  refine ⟨file, hfile, hxfound.trans ?_, hnfs.trans ?_⟩
  all_goals with_unfolding_all decide

end Tcos.Scripts.Servers
