import Tcos.Libc.Hex
import Tcos.Libc.Strtok
import Tcos.Shell.Echo

/-! The host name of 05network.

udhcpc-script records the name that the server gave, plainly or as the hexadecimal numbers of its
bytes with a colon between each two. 05network counts the pieces and lets hex2ascii.c translate the
numbers. `hostname_kept` says that the name comes out either way. -/
namespace Tcos.Scripts.Hostname
open Shell (Text lit Sh captured lines unlines awkField isInert isIfs isPattern)
open Libc

/-! ### hex2ascii.c -/

/-- `io_hex[0]` and `io_hex[1]`. -/
def hexToAscii (c d : Char) : Char := Char.ofNat (strtolHex (cstr ['0', 'x', c, d, nul] 0) % 256).toNat

def isColon (c : Char) : Bool := c == ':'

/-- The loop: what it prints. -/
def translate : Nat → Process → Option Nat → Option Text
  | 0, _, _ => none
  | _ + 1, _, none => some []
  | fuel + 1, m, some p =>
    let next := strtok isColon m none
    (translate fuel next.1 next.2).map (hexToAscii (byte m.mem p) (byte m.mem (p + 1)) :: ·)

def usage : Text :=
  lit "hex2ascii converter usage:\n\n" ++ lit "          hex2ascii xx:xx:xx:xx:xx:xx\n"

/-- What is printed and returned, of the arguments and what stands behind them in memory; a call
ends each token. -/
def hex2ascii (environment : Text) : List Text → Option (Text × Nat)
  | [] => some (usage, 1)
  | arg :: args =>
    let first := strtok isColon { mem := block (arg :: args) environment } (some 0)
    (translate (arg.length + 1) first.1 first.2).map fun t => (t ++ ['\n'], 0)

/-! ### udhcpc-script -/

def optionNames : List Text :=
  [lit "boot_file", lit "bootfile", lit "bootsize", lit "broadcast", lit "clientid", lit "cookiesrv",
    lit "dhcptype", lit "dns", lit "domain", lit "hostname", lit "interface", lit "ip", lit "ipttl",
    lit "lease", lit "logsrv", lit "lprsrv", lit "message", lit "mtu", lit "namesrv", lit "nisdomain",
    lit "nissrv", lit "ntpsrv", lit "requestip", lit "rootpath", lit "router", lit "search",
    lit "serverid", lit "siaddr", lit "sname", lit "staticroutes", lit "subnet", lit "swapsrv",
    lit "tftp", lit "timesrv", lit "timezone", lit "userclass", lit "vendorclass", lit "wins",
    lit "wpad", lit "sipsrv"]

/-- /tmp/net.data, of the values that udhcpc sets. -/
def record (sh : Sh) (value : Text → Text) : Text :=
  sh.echo [lit "# created by /bin/udhcpc-script"] ++
    (optionNames.filter fun v => value v ≠ []).flatMap fun v => sh.echo [v ++ '=' :: value v]

/-! ### 05network -/

/-- `$(awk -F"=" '/^key=/ {print $2}' /tmp/net.data)`. -/
def netData (key file : Text) : Text :=
  captured (((lines file).filter (key ++ ['=']).isPrefixOf).flatMap fun l => awkField '=' 2 l ++ ['\n'])

/-- `awk '{print split($1, A, ":")}'`. -/
def pieces (input : Text) : Text :=
  (lines input).flatMap fun l =>
    let first := (Shell.fields l).headD []
    Nat.toDigits 10 (if first = [] then 0 else (first.splitOn ':').length) ++ ['\n']

/-- `[ ... -gt k ]` of these words; anything but one number is an error. -/
def greater (k : Nat) : List Text → Bool
  | [w] => !w.isEmpty && w.all Char.isDigit && decide (k < Nat.ofDigitChars 10 w 0)
  | _ => false

section Network
variable (sh : Sh) (environment : Text)

/-- More than one piece. -/
def isHexadecimal (hostname : Text) : Bool :=
  greater 1 (sh.expand (captured (pieces (sh.echo (sh.expand hostname)))))

/-- The name in the end; `executable` is `[ -x /bin/hex2ascii ]`. The shell keeps no zero bytes. -/
def network (executable : Bool) (file : Text) : Option Text :=
  let hostname := netData (lit "hostname") file
  if isHexadecimal sh hostname && executable then
    (hex2ascii environment (sh.expand hostname)).map fun r => captured (r.1.filter (· != nul))
  else some hostname

end Network

/-! ### Names -/

def isLegal (c : Char) : Bool := c.isAlphanum || c == '-' || c == '.'

/-- Two legal characters or more. -/
structure IsName (name : Text) : Prop where
  long : 2 ≤ name.length
  legal : ∀ c ∈ name, isLegal c = true

/-- The two digits of a byte, in either case. -/
def IsPair (b : Char) (t : Text) : Prop :=
  ∃ c d, t = [c, d] ∧ isHexDigit c = true ∧ isHexDigit d = true ∧ 16 * hexValue c + hexValue d = b.toNat

/-- The hexadecimal form of a name. -/
def IsHexForm (name t : Text) : Prop :=
  ∃ pairs, List.Forall₂ IsPair name pairs ∧ t = [':'].intercalate pairs

/-- The file has one line for the host name, with this text. -/
def Records (file t : Text) : Prop :=
  ∃ before after, file = unlines (before ++ (lit "hostname=" ++ t) :: after) ∧
    ∀ l ∈ before ++ after, '\n' ∉ l ∧ ¬ lit "hostname=" <+: l

/-! ### What hex2ascii prints -/

/-- The byte of a token. -/
def asciiOf (t : Text) : Char := hexToAscii (t.getD 0 nul) (t.getD 1 nul)

/-- **The loop prints a byte for each token.** -/
theorem translate_tokens {m : Process} {w e : Nat} {ts : List Text} {token : Option Nat}
    (h : Scanning isColon m w e ts token) (he : e < m.mem.length) (hne : ∀ t ∈ ts, t ≠ []) {fuel : Nat}
    (hfuel : ts.length < fuel) : translate fuel m token = some (ts.map asciiOf) := by
  obtain ⟨fuel, rfl⟩ : ∃ k, fuel = k + 1 := Nat.exists_eq_add_one.mpr (by omega)
  induction ts generalizing m token fuel with
  | nil =>
    cases h
    rfl
  | cons t ts ih =>
    obtain ⟨p, rfl, hread, -⟩ := h.read
    obtain ⟨⟨c, rest, rfl⟩, hts⟩ := (List.forall_mem_cons.mp hne).imp_left List.exists_cons_of_ne_nil
    rw [List.length_cons] at hfuel
    obtain ⟨fuel, rfl⟩ : ∃ k, fuel = k + 1 := Nat.exists_eq_add_one.mpr (by omega)
    have hnext := strtok_next h he
    have hrest := ih hnext.scanning (by rw [hnext.length]; exact he) hts fuel (by omega)
    have hfirst := byte_string hread (Nat.zero_le _)
    have hsecond := @byte_string _ _ _ hread 1 (by simp)
    rw [Nat.add_zero] at hfirst
    rw [translate, hrest, hfirst, hsecond]
    rfl

theorem tokens_length (delim : Char → Bool) (s : Text) : (tokens delim s).length ≤ s.length := by
  have hlen := congrArg List.length (tokens_flatten delim s)
  have hone : (tokens delim s).length ≤ ((tokens delim s).map List.length).sum := by
    rw [← List.length_map (f := List.length)]
    refine List.length_le_sum_of_one_le _ fun n hn => ?_
    obtain ⟨t, ht, rfl⟩ := List.mem_map.mp hn
    exact List.length_pos_iff.mpr (mem_tokens ht).1
  rw [List.length_flatten] at hlen
  exact hone.trans (hlen.le.trans (List.length_filter_le _ _))

/-- **It ends, and prints the bytes of the tokens.** -/
theorem hex2ascii_prints (environment : Text) {arg : Text} (harg : nul ∉ arg) (args : List Text) :
    hex2ascii environment (arg :: args) = some ((tokens isColon arg).map asciiOf ++ ['\n'], 0) := by
  have hmem : block (arg :: args) environment = [] ++ block [arg] (block args environment) := by
    simp [block]
  have hread : cstr (block (arg :: args) environment) 0 = arg := by
    have hholds := @holds_block [arg] (by simpa using harg) [] (block args environment)
    rw [hmem]
    exact hholds.1
  have hinside : arg.length < (block (arg :: args) environment).length := by simp [block]
  have hfirst := @strtok_first isColon { mem := block (arg :: args) environment } 0 arg.length 0
    (Nat.le_refl 0) (by rw [hread, Nat.zero_add]) hinside
  have hrounds : (tokens isColon (cstr (block (arg :: args) environment) 0)).length <
      arg.length + 1 := by
    rw [hread]
    exact Nat.lt_succ_of_le (tokens_length isColon arg)
  have hprinted := translate_tokens hfirst.scanning (by rw [hfirst.length]; exact hinside)
    (fun t ht => (mem_tokens ht).1) hrounds
  rw [hex2ascii, hprinted, hread]
  rfl

/-! ### Hexadecimal forms -/

/-- Bytes that the scripts do not leave alone. -/
def delicate : Text := [' ', '\t', '\n', '*', '?', '[', '\\', '=', nul]

/-- A word without them. -/
structure Tame (t : Text) : Prop where
  inert : ∀ c ∈ t, isInert c = true
  slash : '\\' ∉ t
  equals : '=' ∉ t
  line : '\n' ∉ t
  zero : nul ∉ t

theorem tame {p : Char → Bool} (hp : (delicate.all fun k => !p k) = true) {t : Text}
    (ht : ∀ c ∈ t, p c = true) : Tame t := by
  have hno : ∀ k ∈ delicate, k ∉ t := fun k hk hmem => by
    have hnot := List.all_eq_true.mp hp k hk
    rw [ht k hmem] at hnot
    exact absurd hnot (by decide)
  have hne : ∀ c ∈ t, ∀ k ∈ delicate, c ≠ k := fun c hc k hk h => hno k hk (h ▸ hc)
  refine ⟨fun c hc => ?_, hno _ (by decide), hno _ (by decide), hno _ (by decide), hno _ (by decide)⟩
  have hblank := hne c hc ' ' (by decide)
  have htab := hne c hc '\t' (by decide)
  have hbreak := hne c hc '\n' (by decide)
  have hstar := hne c hc '*' (by decide)
  have hmark := hne c hc '?' (by decide)
  have hclass := hne c hc '[' (by decide)
  simp [isInert, isIfs, isPattern, hblank, htab, hbreak, hstar, hmark, hclass]

theorem Tame.ifs {t : Text} (h : Tame t) : ∀ c ∈ t, isIfs c = false := fun c hc => by
  have := h.inert c hc
  simp only [isInert, Bool.and_eq_true, Bool.not_eq_true'] at this
  exact this.1

/-- The bytes of a hexadecimal form. -/
def isFormChar (c : Char) : Bool := isHexDigit c || isColon c

section Form
variable {name t : Text} {pairs : List Text}

theorem pair_ascii {b : Char} {u : Text} (h : IsPair b u) : asciiOf u = b := by
  obtain ⟨c, d, rfl, hc, hd, hvalue⟩ := h
  have hno : ∀ k, isHexDigit k = true → k ≠ nul := by
    rintro k hk rfl
    exact absurd hk (by decide)
  have hhex : cstr ['0', 'x', c, d, nul] 0 = ['0', 'x', c, d] := by
    have h0 : '0' ≠ nul ∧ 'x' ≠ nul := by decide
    simp [cstr, h0, hno c hc, hno d hd]
  have hc' := hexValue_lt hc
  have hd' := hexValue_lt hd
  show hexToAscii c d = b
  rw [hexToAscii, hhex, strtolHex_pair hc hd]
  have hsmall : ((16 * hexValue c + hexValue d : Nat) % 256 : Int).toNat = 16 * hexValue c +
    hexValue d := by omega
  rw [hsmall, hvalue, Char.ofNat_toNat]

theorem pairs_ascii (h : List.Forall₂ IsPair name pairs) : pairs.map asciiOf = name := by
  induction h with
  | nil => rfl
  | cons hpair _ ih => rw [List.map_cons, pair_ascii hpair, ih]

theorem pair_digits {b : Char} {u : Text} (h : IsPair b u) : u ≠ [] ∧ ∀ c ∈ u, isHexDigit c = true := by
  obtain ⟨c, d, rfl, hc, hd, -⟩ := h
  simp [hc, hd]

theorem pairs_digits (h : List.Forall₂ IsPair name pairs) :
    ∀ u ∈ pairs, u ≠ [] ∧ ∀ c ∈ u, isHexDigit c = true := by
  induction h with
  | nil => simp
  | cons hpair _ ih => exact List.forall_mem_cons.mpr ⟨pair_digits hpair, ih⟩

theorem form_chars (h : List.Forall₂ IsPair name pairs) :
    ∀ c ∈ [':'].intercalate pairs, isFormChar c = true := by
  intro c hc
  by_cases hcolon : c = ':'
  · rw [hcolon]
    rfl
  · obtain ⟨u, hu, hmem⟩ := Shell.mem_intercalate hc hcolon
    rw [isFormChar, (pairs_digits h u hu).2 c hmem, Bool.true_or]

theorem form_tame (h : List.Forall₂ IsPair name pairs) : Tame ([':'].intercalate pairs) :=
  tame (by decide) (form_chars h)

/-- It starts with a digit. -/
theorem form_head (h : List.Forall₂ IsPair name pairs) (hne : name ≠ []) :
    ∃ c, ([':'].intercalate pairs).head? = some c ∧ isHexDigit c = true := by
  cases h with
  | nil => exact absurd rfl hne
  | @cons _ u _ us hpair hrest =>
    obtain ⟨c, d, rfl, hc, -, -⟩ := hpair
    exact ⟨c, by cases us <;> simp [List.intercalate_cons_cons], hc⟩

theorem form_nonempty (h : List.Forall₂ IsPair name pairs) (hne : name ≠ []) :
    [':'].intercalate pairs ≠ [] := by
  obtain ⟨c, hhead, -⟩ := form_head h hne
  intro hnil
  rw [hnil] at hhead
  exact absurd hhead (by simp)

/-- **hex2ascii gives the name back, of any length.** -/
theorem hex2ascii_form (environment : Text) (h : IsHexForm name t) :
    hex2ascii environment [t] = some (name ++ ['\n'], 0) := by
  obtain ⟨pairs, hpairs, rfl⟩ := h
  have hplain : ∀ u ∈ pairs, u ≠ [] ∧ ∀ c ∈ u, isColon c = false := fun u hu => by
    obtain ⟨hne, hdigits⟩ := pairs_digits hpairs u hu
    refine ⟨hne, fun c hc => ?_⟩
    have hdigit := hdigits c hc
    rw [isColon, beq_eq_false_iff_ne]
    rintro rfl
    exact absurd hdigit (by decide)
  rw [hex2ascii_prints environment (form_tame hpairs).zero, tokens_intercalate rfl hplain,
    pairs_ascii hpairs]

end Form

/-! ### What udhcpc-script records -/

/-- A line with a value. -/
def assignment (value : Text → Text) (v : Text) : Text := v ++ '=' :: value v

theorem names_plain : ∀ v ∈ optionNames, '=' ∉ v ∧ '\n' ∉ v ∧ '\\' ∉ v ∧ v ≠ [] ∧
    v.head? ≠ some '-' := by
  have h : (optionNames.all fun v =>
    decide ('=' ∉ v ∧ '\n' ∉ v ∧ '\\' ∉ v ∧ v ≠ [] ∧ v.head? ≠ some '-')) = true := by
    with_unfolding_all decide
  simpa using h

theorem assignment_other {value : Text → Text} {v : Text} (hv : v ∈ optionNames)
    (hne : v ≠ lit "hostname") : ¬ lit "hostname=" <+: assignment value v := by
  have hkey : lit "hostname=" = lit "hostname" ++ ['='] ∧ '=' ∉ lit "hostname" := by
    with_unfolding_all decide
  rintro ⟨s, hs⟩
  rw [hkey.1, List.append_assoc, List.singleton_append] at hs
  exact hne (Shell.cut_unique hkey.2 (names_plain v hv).1 hs).1.symm

theorem record_lines (sh : Sh) {value : Text → Text}
    (hvalues : ∀ v ∈ optionNames, '\n' ∉ value v ∧ '\\' ∉ value v) :
    record sh value = unlines (lit "# created by /bin/udhcpc-script" ::
      (optionNames.filter fun v => value v ≠ []).map (assignment value)) := by
  have hecho : ∀ v ∈ optionNames, sh.echo [assignment value v] = assignment value v ++ ['\n'] := by
    intro v hv
    obtain ⟨-, -, hslash, hne, hdash⟩ := names_plain v hv
    refine Shell.echo_plain sh (by simp [assignment, hslash, (hvalues v hv).2]) ?_
    rwa [assignment, List.head?_append_of_ne_nil _ hne]
  have hheader : sh.echo [lit "# created by /bin/udhcpc-script"] =
    lit "# created by /bin/udhcpc-script" ++ ['\n'] :=
    Shell.echo_plain sh (by with_unfolding_all decide) (by with_unfolding_all decide)
  have hlines : ((optionNames.filter fun v => value v ≠ []).flatMap fun v =>
    sh.echo [v ++ '=' :: value v]) =
      unlines ((optionNames.filter fun v => value v ≠ []).map (assignment value)) := by
    rw [unlines, List.flatMap_map]
    exact List.flatMap_congr fun v hv => hecho v (List.mem_of_mem_filter hv)
  rw [record, hheader, hlines]
  rfl

/-- **Values of one line, without backslashes.** -/
theorem records_record (sh : Sh) {value : Text → Text}
    (hvalues : ∀ v ∈ optionNames, '\n' ∉ value v ∧ '\\' ∉ value v)
    (hsome : value (lit "hostname") ≠ []) : Records (record sh value) (value (lit "hostname")) := by
  have hmem : lit "hostname" ∈ optionNames ∧ optionNames.count (lit "hostname") = 1 := by
    with_unfolding_all decide
  obtain ⟨before, after, hnames, hbefore⟩ := List.eq_append_cons_of_mem hmem.1
  have hafter : lit "hostname" ∉ after := by
    have hone := hmem.2
    rw [hnames, List.count_append, List.count_cons_self, List.count_eq_zero.mpr hbefore] at hone
    exact List.count_eq_zero.mp (by omega)
  have hsub : ∀ v, v ∈ before ∨ v ∈ after → v ∈ optionNames ∧ v ≠ lit "hostname" := by
    intro v hv
    rw [hnames]
    refine ⟨by rcases hv with hv | hv <;> simp [hv], ?_⟩
    rintro rfl
    exact hv.elim hbefore hafter
  have hother : ∀ v, v ∈ before ∨ v ∈ after → '\n' ∉ assignment value v ∧
    ¬ lit "hostname=" <+: assignment value v := by
    intro v hv
    obtain ⟨hname, hne⟩ := hsub v hv
    exact ⟨by simp [assignment, (names_plain v hname).2.1, (hvalues v hname).1],
      assignment_other hname hne⟩
  refine ⟨lit "# created by /bin/udhcpc-script" :: (before.filter fun v => value v ≠ []).map
    (assignment value), (after.filter fun v => value v ≠ []).map (assignment value), ?_, fun l hl =>
    ?_⟩
  · have hkey : lit "hostname=" = lit "hostname" ++ ['='] := by with_unfolding_all decide
    rw [record_lines sh hvalues, hnames, List.filter_append,
      List.filter_cons_of_pos (by simpa using hsome)]
    simp [assignment, hkey]
  · rcases List.mem_append.mp hl with hl | hl
    · rcases List.mem_cons.mp hl with rfl | hl
      · exact ⟨by with_unfolding_all decide, by with_unfolding_all decide⟩
      · obtain ⟨v, hv, rfl⟩ := List.mem_map.mp hl
        exact hother v (.inl (List.mem_of_mem_filter hv))
    · obtain ⟨v, hv, rfl⟩ := List.mem_map.mp hl
      exact hother v (.inr (List.mem_of_mem_filter hv))

/-! ### What is read of the record -/

theorem netData_records {file t : Text} (h : Records file t) (hline : '\n' ∉ t) (heq : '=' ∉ t) :
    netData (lit "hostname") file = t := by
  obtain ⟨before, after, rfl, hothers⟩ := h
  have hkey : lit "hostname" ++ ['='] = lit "hostname=" := by with_unfolding_all decide
  have hfixed : '\n' ∉ lit "hostname=" ∧ '=' ∉ lit "hostname" := by with_unfolding_all decide
  have hlines : ∀ l ∈ before ++ (lit "hostname=" ++ t) :: after, '\n' ∉ l := by
    intro l hl
    rcases List.mem_append.mp hl with hl | hl
    · exact (hothers l (List.mem_append_left _ hl)).1
    · rcases List.mem_cons.mp hl with rfl | hl
      · simp [hfixed.1, hline]
      · exact (hothers l (List.mem_append_right _ hl)).1
  have hskip : ∀ ls : List Text, (∀ l ∈ ls, ¬ lit "hostname=" <+: l) →
    ls.filter (lit "hostname=").isPrefixOf = [] := by
    intro ls hls
    refine List.filter_eq_nil_iff.mpr fun l hl => ?_
    rw [List.isPrefixOf_iff_prefix]
    exact hls l hl
  have hfound : ((lines (unlines (before ++ (lit "hostname=" ++ t) :: after))).filter
    (lit "hostname=").isPrefixOf) =
      [lit "hostname=" ++ t] := by
    rw [Shell.lines_unlines hlines, List.filter_append, hskip _ fun l hl =>
      (hothers l (List.mem_append_left _ hl)).2, List.filter_cons_of_pos (by simp),
      hskip _ fun l hl => (hothers l (List.mem_append_right _ hl)).2, List.nil_append]
  have hfield : awkField '=' 2 (lit "hostname=" ++ t) = t := by
    rw [← hkey, List.append_assoc, List.singleton_append, Shell.awkField_next hfixed.2,
      (Shell.awkField_whole heq).1]
  rw [netData, hkey, hfound, List.flatMap_singleton, hfield, Shell.captured_line hline]

/-! ### Which form it is -/

section Test
variable (sh : Sh)

theorem greater_count (k n : Nat) :
    greater k (sh.expand (captured (Nat.toDigits 10 n ++ ['\n']))) = decide (k < n) := by
  have hdigit := toDigits_digit n
  have htame : Tame (Nat.toDigits 10 n) := tame (by decide) hdigit
  rw [Shell.captured_line htame.line, Sh.expand, Shell.expand_word _ Nat.toDigits_ne_nil htame.inert]
  have hall : (Nat.toDigits 10 n).all Char.isDigit = true := List.all_eq_true.mpr hdigit
  simp [greater, hall, Nat.ofDigitChars_ten_toDigits, Nat.toDigits_ne_nil]

/-- One word without backslashes: it is printed, or taken for an option. -/
theorem echo_word {w : Text} (hslash : '\\' ∉ w) :
    sh.echo [w] = w ++ ['\n'] ∨ sh.echo [w] = [] ∨ sh.echo [w] = ['\n'] := by
  by_cases hoption : sh.isOption w = true
  · refine .inr ?_
    have hoptions : sh.options [w] = [w] := by
      unfold Sh.isOption at hoption
      unfold Sh.options
      split at hoption <;> simp_all
    have hline : ∀ b : Bool, Shell.unescape sh.more 0 (if b then [] else ['\n']) =
        if b then [] else ['\n'] := by
      intro b
      cases b <;> simp [Shell.unescape, Shell.Escapes.opens]
    rw [Sh.echo, hoptions]
    simp only [List.length_singleton, List.drop_one, List.tail_cons]
    have hnone : Shell.unwords [] = [] := rfl
    rw [hnone, List.nil_append, hline, ite_self]
    split
    · exact .inl rfl
    · exact .inr rfl
  · refine .inl ?_
    have hraw : Shell.isRaw sh.more (w ++ ['\n']) = true := Shell.isRaw_of_not_mem (by simp [hslash])
    rw [Shell.echo_words sh (by simpa using hoption), (Shell.print_iff ..).mpr fun _ => by
      simpa [Shell.unwords] using hraw]
    simp [Shell.unwords]

theorem pieces_word {w : Text} (hne : w ≠ []) (hifs : ∀ c ∈ w, isIfs c = false) :
    pieces (w ++ ['\n']) = Nat.toDigits 10 (w.splitOn ':').length ++ ['\n'] := by
  have hline : '\n' ∉ w := fun h => absurd (hifs _ h) (by decide)
  rw [pieces, Shell.lines_cons hline]
  simp [lines, Shell.fields_word hne hifs, hne]

variable {name : Text}

theorem IsName.tame (h : IsName name) : Tame name := Hostname.tame (by decide) h.legal

theorem IsName.nonempty (h : IsName name) : name ≠ [] :=
  List.ne_nil_of_length_pos (by have := h.long; omega)

theorem IsName.plain (h : IsName name) : ':' ∉ name := fun hmem => absurd (h.legal _ hmem) (by decide)

theorem expand_tame {w : Text} (h : Tame w) (hne : w ≠ []) : sh.expand w = [w] :=
  Shell.expand_word _ hne h.inert

/-- One piece at most. -/
theorem isHexadecimal_plain (h : IsName name) : isHexadecimal sh name = false := by
  have hempty : pieces ['\n'] = Nat.toDigits 10 0 ++ ['\n'] := by decide
  rw [isHexadecimal, expand_tame sh h.tame h.nonempty]
  rcases echo_word sh h.tame.slash with hecho | hecho | hecho
  · rw [hecho, pieces_word h.nonempty h.tame.ifs, Shell.splitOn_whole h.plain]
    exact greater_count sh 1 1
  · rw [hecho]
    rfl
  · rw [hecho, hempty]
    exact greater_count sh 1 0

/-- As many pieces as bytes. -/
theorem isHexadecimal_form {pairs : List Text} (hlong : 2 ≤ name.length)
    (h : List.Forall₂ IsPair name pairs) : isHexadecimal sh ([':'].intercalate pairs) = true := by
  have hname : name ≠ [] := List.ne_nil_of_length_pos (by omega)
  have htame := form_tame h
  have hne := form_nonempty h hname
  have hpairs : 1 < pairs.length := by
    rw [← h.length_eq]
    omega
  have hdash : ([':'].intercalate pairs).head? ≠ some '-' := by
    obtain ⟨c, hhead, hdigit⟩ := form_head h hname
    rw [hhead]
    rintro hc
    rw [Option.some.inj hc] at hdigit
    exact absurd hdigit (by decide)
  have hsplit : ([':'].intercalate pairs).splitOn ':' = pairs := by
    refine List.splitOn_intercalate ':' (fun u hu hmem => ?_) (List.ne_nil_of_length_pos (by omega))
    exact absurd ((pairs_digits h u hu).2 _ hmem) (by decide)
  rw [isHexadecimal, expand_tame sh htame hne, Shell.echo_plain sh htame.slash hdash,
    pieces_word hne htame.ifs, hsplit, greater_count sh]
  exact decide_eq_true hpairs

end Test

/-! ### The name in the end -/

/-- **hex2ascii gives every name back; of two characters on, the count of the pieces tells the forms
apart, and 05network ends up with the name.** -/
theorem hostname_kept (sh : Sh) (environment : Text) :
    (∀ name t, IsHexForm name t → hex2ascii environment [t] = some (name ++ ['\n'], 0)) ∧
      ∀ name, IsName name → ∀ t, t = name ∨ IsHexForm name t → ∀ file, Records file t →
        (isHexadecimal sh (netData (lit "hostname") file) = true ↔ IsHexForm name t) ∧
          network sh environment true file = some name := by
  refine ⟨fun name t h => hex2ascii_form environment h, fun name hname t ht file hfile => ?_⟩
  have hplain := isHexadecimal_plain sh hname
  rcases ht with rfl | hform
  · have hnot : ¬ IsHexForm t t := by
      rintro ⟨pairs, hpairs, htext⟩
      have hform := isHexadecimal_form sh hname.long hpairs
      rw [← htext, hplain] at hform
      exact absurd hform (by decide)
    have hread := netData_records hfile hname.tame.line hname.tame.equals
    simp [network, hread, hplain, hnot]
  · have hprinted := hex2ascii_form environment hform
    have hiff : (True ↔ IsHexForm name t) := iff_of_true trivial hform
    obtain ⟨pairs, hpairs, rfl⟩ := hform
    have htame := form_tame hpairs
    have hread := netData_records hfile htame.line htame.equals
    have hhex := isHexadecimal_form sh hname.long hpairs
    have hzero : (name ++ ['\n']).filter (· != nul) = name ++ ['\n'] := by
      refine List.filter_eq_self.mpr fun c hc => ?_
      rw [bne_iff_ne]
      rintro rfl
      exact absurd hc (by simp [hname.tame.zero]; decide)
    simp only [network, hread, hhex]
    rw [expand_tame sh htame (form_nonempty hpairs hname.nonempty), hprinted]
    refine ⟨hiff, ?_⟩
    simp [hzero, Shell.captured_line hname.tame.line]

/-- A server that gives the host name only. -/
def served (t : Text) (v : Text) : Text := if v = lit "hostname" then t else []

theorem served_one {t : Text} (ht : '\n' ∉ t ∧ '\\' ∉ t) (v : Text) :
    '\n' ∉ served t v ∧ '\\' ∉ served t v := by
  unfold served
  split
  · exact ht
  · simp

theorem pc_form : IsHexForm ['p', 'c'] ['7', '0', ':', '6', '3'] :=
  ⟨[['7', '0'], ['6', '3']],
    .cons ⟨'7', '0', rfl, by decide, by decide, by decide⟩
    (.cons ⟨'6', '3', rfl, by decide, by decide, by decide⟩ .nil), rfl⟩

/-- The shell of an initramfs without files that match. -/
def ash : Sh := ⟨false, .standard, fun w => [w], Shell.names_self⟩

/-- The name `pc`, as `70:63`. -/
theorem hostname_kept_pc :
    network ash [] true (record ash (served ['7', '0', ':', '6', '3'])) = some ['p', 'c'] := by
  have hvalue : served ['7', '0', ':', '6', '3'] (lit "hostname") = ['7', '0', ':', '6', '3'] :=
    if_pos rfl
  have hrecord := records_record ash
    (fun v _ => served_one (t := ['7', '0', ':', '6', '3']) (by decide) v)
    (by rw [hvalue]; simp)
  rw [hvalue] at hrecord
  exact ((hostname_kept ash []).2 ['p', 'c'] ⟨by decide, Shell.each (by decide)⟩ _
    (.inr pc_form) _ hrecord).2

end Tcos.Scripts.Hostname
