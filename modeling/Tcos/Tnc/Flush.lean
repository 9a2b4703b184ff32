import Tcos.Libc.Table
import Tcos.Tnc.Chain
import Tcos.Tnc.Ports

/-! `status_iptables_user` and `flush_iptables_user`.

A flush lists the chain once, keeps the numbers of the lines that awk prints in one
buffer, and deletes by these numbers, the last rule first. `flush_exact_iff` says for
which chains and users what is left is the chain without the user's rules. -/
namespace Tcos.Tnc
open Shell (Text lit)
open Libc
open Numbered

/-! ### The commands -/

def listCommand : Text := lit "/sbin/iptables -L OUTPUT --line-numbers -n 2>/dev/null | grep TCOS_TNC | awk "

/-- `$(NF-3) == uid || $(NF-3) == "user"` as the program writes it. -/
def ownCondition (m : Machine) (user : Text) : Text :=
  lit "$(NF-3) == " ++ decimal (toInt (getUid m user).toNat) ++ lit " || $(NF-3) == \x22" ++ user ++
  lit "\x22"

def statusLine (m : Machine) (user : Text) : Text :=
  listCommand ++ lit "'BEGIN\x7bcount=0\x7d\x7bif (" ++ ownCondition m user ++
    lit ") count++\x7dEND\x7bprint count\x7d'"

/-- What follows `--only-ports=`. A shorter argument makes the source copy from behind
its end. -/
def onlyPorts (arg2 : Text) : Text := arg2.drop 13

def flushLine (m : Machine) (user only : Text) : Text :=
  if only = lit "no" then
    listCommand ++ lit "'\x7bif (" ++ ownCondition m user ++
    lit ") print $1\x7d' | tac | tr \x22\\n\x22 \x22 \x22"
  else
    listCommand ++ lit "'\x7bif ((" ++ ownCondition m user ++
      lit ")  && ($3 == \x22tcp\x22)) print $1\x7d' | tac | tr \x22\\n\x22 \x22 \x22"

/-- The name stays inside the string of the awk program. -/
def isPlainName (user : Text) : Bool :=
  user.all (fun c => c != '\x27' && c != '\x22' && c != '\n') && user.getLast? != some '\\'

/-- The shell and awk read the command as it was meant. -/
def isReadable (line user : Text) : Bool := decide (line.length < bsize) && isPlainName user

theorem decimal_length {n : Int} (h : n.natAbs < 10 ^ 10) : (decimal n).length ≤ 11 := by
  have hlen := (Nat.length_toDigits_le_iff (b := 10) (n := n.natAbs) (k := 10) (by decide)
    (by decide)).mpr h
  unfold decimal
  split
  · rw [List.length_cons]
    omega
  · omega

theorem ownCondition_length (m : Machine) (user : Text) :
    (ownCondition m user).length ≤ user.length + 40 := by
  have hnum : (decimal (toInt (getUid m user).toNat)).length ≤ 11 := decimal_length (by
    have := (getUid m user).toNat_lt
    unfold toInt
    omega)
  have h1 : (lit "$(NF-3) == ").length = 11 := by with_unfolding_all decide
  have h2 : (lit " || $(NF-3) == \x22").length = 16 := by with_unfolding_all decide
  have h3 : (lit "\x22").length = 1 := by with_unfolding_all decide
  simp only [ownCondition, List.length_append, h1, h2, h3]
  omega

/-- A name of moderate length without quotes keeps every command readable. -/
theorem readable_of_plain (m : Machine) {user : Text} (hp : isPlainName user = true)
    (hlen : user.length ≤ 800) (only : Text) :
    isReadable (statusLine m user) user = true ∧ isReadable (flushLine m user only) user = true := by
  have hcond := ownCondition_length m user
  have hlist : listCommand.length = 77 := by with_unfolding_all decide
  have h1 : (lit "'BEGIN\x7bcount=0\x7d\x7bif (").length = 20 := by with_unfolding_all decide
  have h2 : (lit ") count++\x7dEND\x7bprint count\x7d'").length = 27 := by with_unfolding_all decide
  have h3 : (lit "'\x7bif (").length = 6 := by with_unfolding_all decide
  have h4 : (lit ") print $1\x7d' | tac | tr \x22\\n\x22 \x22 \x22").length = 32 := by
    with_unfolding_all decide
  have h5 : (lit "'\x7bif ((").length = 7 := by with_unfolding_all decide
  have h6 : (lit ")  && ($3 == \x22tcp\x22)) print $1\x7d' | tac | tr \x22\\n\x22 \x22 \x22").length =
    51 := by
    with_unfolding_all decide
  rw [isReadable, isReadable, hp, Bool.and_true, Bool.and_true, decide_eq_true_eq, decide_eq_true_eq,
    bsize]
  constructor
  · simp only [statusLine, List.length_append, hlist, h1, h2]
    omega
  · unfold flushLine
    split
    · simp only [List.length_append, hlist, h3, h4]
      omega
    · simp only [List.length_append, hlist, h5, h6]
      omega

/-! ### One call -/

/-- What the world does during one flush. -/
structure Call where
  /-- `popen` gave a stream for the status command. -/
  statusOpens : Bool
  listOpens : Bool
  /-- For the command of the token with this index. -/
  deleteOpens : Nat → Bool
  /-- What the line buffers hold before anything is read into them. -/
  statusJunk : Text
  lineJunk : Text
  /-- What a command prints that is not read as it was meant. -/
  prints : Text → Text
  /-- What deleting by a text does that is no number. -/
  strays : Text → Chain → Chain

def dropBreak (s : Text) : Text := if s.getLast? = some '\n' then s.dropLast else s

/-- The line buffer after `fgets`: with nothing to read it keeps what it held. -/
def readLine (junk out : Text) : Text := dropBreak (if out = [] then junk else fgets bsize out)

def statusOutput (m : Machine) (call : Call) (user : Text) (c : Chain) : Text :=
  if isReadable (statusLine m user) user then decimal (c.countP (statusPicks m user)) ++ ['\n']
  else call.prints (statusLine m user)

def statusIptablesUser (m : Machine) (call : Call) (user : Text) (c : Chain) : Bool :=
  call.statusOpens && readLine call.statusJunk (statusOutput m call user c) != lit "0"

def flushOutput (m : Machine) (call : Call) (user only : Text) (c : Chain) : Text :=
  if isReadable (flushLine m user only) user then listing (numbers (flushPicks m user only) c).reverse
  else call.prints (flushLine m user only)

/-- The rule `iptables -D OUTPUT` is asked for. -/
def ruleNumber (token : Text) : Option Nat :=
  if token ≠ [] ∧ token.head? ≠ some '0' ∧ token.all Char.isDigit then some (Nat.ofDigitChars 10 token 0)
  else none

def deleteToken (call : Call) (c : Chain) (token : Text) : Chain :=
  match ruleNumber token with
  | some n => delete n c
  | none => call.strays token c

structure FlushRun where
  code : Bool
  /-- The numbers given to `iptables -D`, in order. -/
  issued : List Text
  chain : Chain

def issue (call : Call) (tokens : List Text) : List Text :=
  (tokens.zipIdx.filter fun t => call.deleteOpens t.2).map Prod.fst

def flushIptablesUser (m : Machine) (call : Call) (user arg2 : Text) (c : Chain) : FlushRun :=
  if !statusIptablesUser m call user c then ⟨true, [], c⟩
  else if call.listOpens then
    let line := readLine call.lineJunk (flushOutput m call user (onlyPorts arg2) c)
    let tokens := issue call (split (· == ' ') line)
    ⟨true, tokens, tokens.foldl (deleteToken call) c⟩
  else ⟨false, [], c⟩

/-- Every command of the flush is started. -/
structure Call.Opens (call : Call) : Prop where
  status : call.statusOpens = true
  list : call.listOpens = true
  delete : ∀ i, call.deleteOpens i = true

theorem issue_of_opens {call : Call} (h : call.Opens) (tokens : List Text) :
    issue call tokens = tokens := by
  rw [issue, List.filter_eq_self.mpr fun t _ => h.delete t.2, List.zipIdx_map_fst]

/-! ### The line buffer -/

theorem firstLine_of_no_break {s : Text} (h : '\n' ∉ s) : firstLine s = s := by
  induction s with
  | nil => rfl
  | cons c s ih =>
    rw [List.mem_cons, not_or] at h
    rw [firstLine, if_neg (Ne.symm h.1), ih h.2]

theorem firstLine_break {s : Text} (h : '\n' ∉ s) : firstLine (s ++ ['\n']) = s ++ ['\n'] := by
  induction s with
  | nil => rfl
  | cons c s ih =>
    rw [List.mem_cons, not_or] at h
    rw [List.cons_append, firstLine, if_neg (Ne.symm h.1), ih h.2]

theorem dropBreak_of_no_break {s : Text} (h : '\n' ∉ s) : dropBreak s = s :=
  if_neg fun hlast => h (List.mem_of_getLast? hlast)

theorem head_dropBreak {s : Text} {c : Char} (h : (dropBreak s).head? = some c) : s.head? = some c := by
  unfold dropBreak at h
  split at h
  · cases s with
    | nil => exact h
    | cons d s => cases s <;> simp_all
  · exact h

theorem listing_no_break (ns : List Nat) : '\n' ∉ listing ns := by
  intro h
  obtain ⟨n, _, hn⟩ := List.mem_flatMap.mp h
  rcases List.mem_append.mp hn with hn | hn
  · exact not_mem_toDigits (by decide) n hn
  · exact absurd hn (by decide)

theorem readLine_zero (junk : Text) : readLine junk (decimal (0 : Nat) ++ ['\n']) = lit "0" := by
  rw [readLine, if_neg (by simp)]
  with_unfolding_all decide

theorem readLine_count (junk : Text) {n : Nat} (hn : 0 < n) :
    readLine junk (decimal n ++ ['\n']) ≠ lit "0" := by
  rw [decimal_nat]
  intro h
  have hread : dropBreak (cut bsize (Nat.toDigits 10 n ++ ['\n'])) = lit "0" := by
    rw [readLine, if_neg (by simp), fgets, firstLine_break (not_mem_toDigits (by decide) n)] at h
    exact h
  have hzero : (lit "0").head? = some '0' := by with_unfolding_all decide
  have hhead := head_dropBreak (hread ▸ hzero)
  rw [cut, List.head?_take, if_neg (by decide),
    List.head?_append_of_ne_nil _ Nat.toDigits_ne_nil] at hhead
  exact head_toDigits hn hhead

/-- The numbers that come back from the listing of at least one. -/
theorem split_readLine {ns : List Nat} (hne : ns ≠ []) (junk : Text) :
    split (· == ' ') (readLine junk (listing ns)) = (held 1023 255 ns).map (Nat.toDigits 10) := by
  obtain ⟨n, rest, rfl⟩ := List.exists_cons_of_ne_nil hne
  have hnil : listing (n :: rest) ≠ [] := by simp [listing]
  have hread : readLine junk (listing (n :: rest)) = (listing (n :: rest)).take 1023 := by
    rw [readLine, if_neg hnil, fgets, firstLine_of_no_break (listing_no_break _), cut, bsize]
    exact dropBreak_of_no_break fun h => listing_no_break _ (List.mem_of_mem_take h)
  rw [hread, split, maxTokens, tokens_listing]

/-! ### Deleting the numbers -/

theorem ruleNumber_toDigits {n : Nat} (hn : 1 ≤ n) : ruleNumber (Nat.toDigits 10 n) = some n := by
  have hd : (Nat.toDigits 10 n).all Char.isDigit = true := 
    List.all_eq_true.mpr (toDigits_digit n)
  rw [ruleNumber, if_pos ⟨Nat.toDigits_ne_nil, head_toDigits hn, hd⟩, Nat.ofDigitChars_ten_toDigits]

theorem foldl_deleteToken (call : Call) {ns : List Nat} (h : ∀ n ∈ ns, 1 ≤ n) (c : Chain) :
    (ns.map (Nat.toDigits 10)).foldl (deleteToken call) c = deleteAll ns c := by
  induction ns generalizing c with
  | nil => rfl
  | cons n ns ih =>
    rw [List.map_cons, List.foldl_cons, deleteAll_cons,
      ih (fun m hm => h m (List.mem_cons_of_mem _ hm)), deleteToken,
      ruleNumber_toDigits (h n (List.mem_cons_self ..))]

/-! ### What a flush does to the chain -/

/-- The argument with the value `only`. -/
def onlyPortsArg (only : Text) : Text := lit "--only-ports=" ++ only

@[simp] theorem onlyPorts_arg (only : Text) : onlyPorts (onlyPortsArg only) = only := by
  have h : (lit "--only-ports=").length = 13 := by with_unfolding_all decide
  rw [onlyPorts, onlyPortsArg, ← h, List.drop_left]

theorem status_iff {m : Machine} {user : Text} (hr : isReadable (statusLine m user) user = true)
    {call : Call} (ho : call.statusOpens = true) (c : Chain) :
    statusIptablesUser m call user c = true ↔ ∃ r ∈ c, statusPicks m user r = true := by
  rw [statusIptablesUser, ho, Bool.true_and, statusOutput, if_pos hr, bne_iff_ne]
  rcases Nat.eq_zero_or_pos (c.countP (statusPicks m user)) with h | h
  · rw [h, readLine_zero]
    rw [List.countP_eq_zero] at h
    simpa using h
  · have hex := List.countP_pos_iff.mp h
    exact ⟨fun _ => hex, fun _ => readLine_count _ h⟩

/-- **A flush that finds rules to delete deletes the numbers its line buffer and token
table hold.** -/
theorem flush_run {m : Machine} {user only : Text}
    (hr : isReadable (flushLine m user only) user = true) {call : Call} (ho : call.Opens) {c : Chain}
    (hstatus : statusIptablesUser m call user c = true)
    (hsome : ∃ r ∈ c, flushPicks m user only r = true) :
    flushIptablesUser m call user (onlyPortsArg only) c =
      { code := true
        issued := (held 1023 255 (numbers (flushPicks m user only) c).reverse).map (Nat.toDigits 10)
        chain := deleteAll (held 1023 255 (numbers (flushPicks m user only) c).reverse) c } := by
  obtain ⟨r, hmem, hpick⟩ := hsome
  have hne : (numbers (flushPicks m user only) c).reverse ≠ [] := by
    rw [Ne, List.reverse_eq_nil_iff, numbers_eq_nil]
    exact fun h => by simp [h r hmem] at hpick
  have hdesc := held_descending (numbers_descending (flushPicks m user only) c) 1023 255
  rw [flushIptablesUser, hstatus, Bool.not_true, if_neg (by decide), if_pos ho.list]
  simp only [onlyPorts_arg, flushOutput, if_pos hr, split_readLine hne, issue_of_opens ho,
    foldl_deleteToken call fun n hn => (hdesc.bounds n hn).1]

/-- Without a rule that the status command counts the chain is left alone. -/
theorem flush_idle {m : Machine} {user : Text} (hr : isReadable (statusLine m user) user = true)
    {call : Call} (ho : call.statusOpens = true) {c : Chain}
    (hnone : ∀ r ∈ c, statusPicks m user r = false) (arg2 : Text) :
    flushIptablesUser m call user arg2 c = ⟨true, [], c⟩ := by
  have hstatus : statusIptablesUser m call user c = false := by
    rw [Bool.eq_false_iff, Ne, status_iff hr ho]
    rintro ⟨r, hmem, hpick⟩
    exact absurd hpick (by simp [hnone r hmem])
  rw [flushIptablesUser, hstatus]
  rfl

/-! ### When a flush is exact -/

/-- Whatever the buffers held before, a flush whose commands are started leaves the chain
without the wanted rules, and every number it deletes by is in the listing. -/
def FlushExact (m : Machine) (user only : Text) (c : Chain) : Prop :=
  ∀ call : Call, call.Opens →
    (flushIptablesUser m call user (onlyPortsArg only) c).chain =
        (c.filter fun r => !wanted m user only r) ∧
      ∀ t ∈ (flushIptablesUser m call user (onlyPortsArg only) c).issued,
        ∃ n, 1 ≤ n ∧ n ≤ c.length ∧ t = Nat.toDigits 10 n

/-- No rule looks like the user's to the status command, and none is wanted. -/
def Untouched (m : Machine) (user only : Text) (c : Chain) : Prop :=
  ∀ r ∈ c, statusPicks m user r = false ∧ wanted m user only r = false

/-- The numbers, with a blank between each two, take no more than a line of 1023 bytes and a
table of 255 tokens. -/
structure Fits (ns : List Nat) : Prop where
  line : (listing ns).length ≤ 1024
  table : ns.length ≤ 255

/-- The flush command picks rules, and if their numbers fit it picks the wanted ones. If
they do not, the numbers that still do are by chance those of the wanted rules. -/
structure Recognized (m : Machine) (user only : Text) (c : Chain) : Prop where
  some : ∃ r ∈ c, flushPicks m user only r = true
  whole : Fits (numbers (flushPicks m user only) c) →
    ∀ r ∈ c, flushPicks m user only r = wanted m user only r
  cut : ¬ Fits (numbers (flushPicks m user only) c) →
    held 1023 255 (numbers (flushPicks m user only) c).reverse =
      (numbers (wanted m user only) c).reverse

theorem Fits.reverse_held {ns : List Nat} (h : Fits ns) : held 1023 255 ns.reverse = ns.reverse := by
  have hline : (listing ns.reverse).length = (listing ns).length :=
    (List.reverse_perm ns).flatMap_right _ |>.length_eq
  exact held_of_fits (by rw [hline]; exact h.line) (by rw [List.length_reverse]; exact h.table)

theorem recognized_iff {m : Machine} {user only : Text} {c : Chain} :
    Recognized m user only c ↔ (∃ r ∈ c, flushPicks m user only r = true) ∧
      held 1023 255 (numbers (flushPicks m user only) c).reverse =
        (numbers (wanted m user only) c).reverse := by
  have hfit : Fits (numbers (flushPicks m user only) c) →
      ((∀ r ∈ c, flushPicks m user only r = wanted m user only r) ↔
        held 1023 255 (numbers (flushPicks m user only) c).reverse =
          (numbers (wanted m user only) c).reverse) := fun hf => by
    rw [hf.reverse_held, List.reverse_inj, numbers_eq_iff]
  constructor
  · intro h
    by_cases hf : Fits (numbers (flushPicks m user only) c)
    · exact ⟨h.some, (hfit hf).mp (h.whole hf)⟩
    · exact ⟨h.some, h.cut hf⟩
  · rintro ⟨hsome, hheld⟩
    exact ⟨hsome, fun hf => (hfit hf).mpr hheld, fun _ => hheld⟩

/-- What a flush needs of the user and the chain. -/
structure FlushReads (m : Machine) (user only : Text) (c : Chain) : Prop where
  status : isReadable (statusLine m user) user = true
  rules : Untouched m user only c ∨
    isReadable (flushLine m user only) user = true ∧ Recognized m user only c

theorem FlushReads.exact {m : Machine} {user only : Text} {c : Chain} (h : FlushReads m user only c)
    {call : Call} (ho : call.Opens) :
    (flushIptablesUser m call user (onlyPortsArg only) c).code = true ∧
      (flushIptablesUser m call user (onlyPortsArg only) c).chain =
        (c.filter fun r => !wanted m user only r) ∧
      ∀ t ∈ (flushIptablesUser m call user (onlyPortsArg only) c).issued,
        ∃ n, 1 ≤ n ∧ n ≤ c.length ∧ t = Nat.toDigits 10 n := by
  rcases h.rules with hidle | ⟨hflush, hrec⟩
  · rw [flush_idle h.status ho.status fun r hr => (hidle r hr).1]
    refine ⟨rfl, ?_, by simp⟩
    exact (List.filter_eq_self.mpr fun r hr => by simp [(hidle r hr).2]).symm
  · obtain ⟨r, hmem, hpick⟩ := hrec.some
    have hstatus := (status_iff h.status ho.status c).mpr ⟨r, hmem, statusPicks_of_flushPicks hpick⟩
    rw [flush_run hflush ho hstatus hrec.some]
    simp only [(recognized_iff.mp hrec).2, deleteAll_numbers, true_and]
    intro t ht
    obtain ⟨n, hn, rfl⟩ := List.mem_map.mp ht
    obtain ⟨h1, hlen⟩ := numbers_bounds (List.mem_reverse.mp hn)
    exact ⟨n, h1, hlen, rfl⟩

/-- Everything starts; `out` is what an unreadable command prints, `junk` what the buffers hold. -/
def Call.started (out junk : Text) : Call where
  statusOpens := true
  listOpens := true
  deleteOpens _ := true
  statusJunk := junk
  lineJunk := junk
  prints _ := out
  strays _ c := c

theorem started_opens (out junk : Text) : (Call.started out junk).Opens := ⟨rfl, rfl, fun _ => rfl⟩

/-- No rule has the number zero. -/
theorem not_exact_of_zero {m : Machine} {user only : Text} {c : Chain} (h : FlushExact m user only c)
    {call : Call} (ho : call.Opens)
    (hzero : lit "0" ∈ (flushIptablesUser m call user (onlyPortsArg only) c).issued) : False := by
  obtain ⟨n, h1, _, heq⟩ := (h call ho).2 _ hzero
  have hlit : (lit "0").head? = some '0' := by with_unfolding_all decide
  exact head_toDigits h1 (heq ▸ hlit)

/-- A flush that goes on past the status command is exact only if it recognizes its rules. -/
theorem recognized_of_exact {m : Machine} {user only : Text} {c : Chain} (h : FlushExact m user only c)
    (hstatus : statusIptablesUser m (Call.started (lit "0 ") (lit "0")) user c = true) :
    isReadable (flushLine m user only) user = true ∧ ∃ r ∈ c, flushPicks m user only r = true := by
  have ho := started_opens (lit "0 ") (lit "0")
  have hissued : (flushIptablesUser m (Call.started (lit "0 ") (lit "0")) user
    (onlyPortsArg only) c).issued =
      split (· == ' ') (readLine (lit "0")
      (flushOutput m (Call.started (lit "0 ") (lit "0")) user only c)) := by
    rw [flushIptablesUser, hstatus, Bool.not_true, if_neg (by decide), if_pos ho.list]
    simp only [onlyPorts_arg, issue_of_opens ho]
    rfl
  have hread : isReadable (flushLine m user only) user = true := by
    by_contra hread
    refine not_exact_of_zero h ho ?_
    rw [hissued, flushOutput, if_neg hread]
    show lit "0" ∈ split (· == ' ') (readLine (lit "0") (lit "0 "))
    with_unfolding_all decide
  refine ⟨hread, ?_⟩
  by_contra hnone
  refine not_exact_of_zero h ho ?_
  have hnil : numbers (flushPicks m user only) c = [] :=
    numbers_eq_nil.mpr fun r hr => by
      by_contra hpick
      exact hnone ⟨r, hr, by simpa using hpick⟩
  rw [hissued, flushOutput, if_pos hread, hnil]
  with_unfolding_all decide

/-- An exact flush reads name and chain as they were meant. -/
theorem reads_of_exact {m : Machine} {user only : Text} {c : Chain} (h : FlushExact m user only c) :
    FlushReads m user only c := by
  have hstarted := started_opens (lit "0 ") (lit "0")
  have hkept : ∀ {call : Call}, call.Opens → statusIptablesUser m call user c = false →
      ∀ r ∈ c, wanted m user only r = false := fun ho hstatus r hr => by
    have hchain := (h _ ho).1
    rw [flushIptablesUser, hstatus] at hchain
    have := List.filter_eq_self.mp hchain.symm r hr
    simpa using this
  have hrecognized : statusIptablesUser m (Call.started (lit "0 ") (lit "0")) user c = true →
      isReadable (flushLine m user only) user = true ∧ Recognized m user only c := fun hstatus => by
    obtain ⟨hread, hsome⟩ := recognized_of_exact h hstatus
    have hchain := (h _ hstarted).1
    rw [flush_run hread hstarted hstatus hsome] at hchain
    have hdesc := held_descending (numbers_descending (flushPicks m user only) c) 1023 255
    exact ⟨hread, recognized_iff.mpr ⟨hsome, (deleteAll_eq_filter_iff hdesc _).mp hchain⟩⟩
  by_cases hs : isReadable (statusLine m user) user = true
  · refine ⟨hs, ?_⟩
    cases hstatus : statusIptablesUser m (Call.started (lit "0 ") (lit "0")) user c with
    | true => exact .inr (hrecognized hstatus)
    | false =>
      refine .inl fun r hr => ⟨?_, hkept hstarted hstatus r hr⟩
      rw [Bool.eq_false_iff, Ne, status_iff hs hstarted.status] at hstatus
      by_contra hpick
      exact hstatus ⟨r, hr, by simpa using hpick⟩
  · -- whatever the status command prints, a zero stops the flush and anything else starts it
    have hzero : statusIptablesUser m (Call.started (lit "0\n") (lit "0")) user c = false := by
      rw [statusIptablesUser, statusOutput, if_neg hs]
      show (true && readLine (lit "0") (lit "0\n") != lit "0") = false
      with_unfolding_all decide
    have hother : statusIptablesUser m (Call.started (lit "0 ") (lit "0")) user c = true := by
      rw [statusIptablesUser, statusOutput, if_neg hs]
      show (true && readLine (lit "0") (lit "0 ") != lit "0") = true
      with_unfolding_all decide
    have hnone := hkept (started_opens (lit "0\n") (lit "0")) hzero
    obtain ⟨⟨r, hmem, hpick⟩, hheld⟩ := recognized_iff.mp (hrecognized hother).2
    have hnil : (numbers (wanted m user only) c).reverse = [] := by
      rw [numbers_eq_nil.mpr hnone, List.reverse_nil]
    have hne : (numbers (flushPicks m user only) c).reverse ≠ [] := by
      rw [Ne, List.reverse_eq_nil_iff, numbers_eq_nil]
      exact fun h => by simp [h r hmem] at hpick
    exact absurd (hheld.trans hnil) (held_ne_nil hne 1022 254)

/-- **A flush removes exactly the wanted rules, whatever its buffers held before, exactly
when name and chain let it recognize them.** -/
theorem flush_exact_iff (m : Machine) (user only : Text) (c : Chain) :
    FlushExact m user only c ↔ FlushReads m user only c :=
  ⟨reads_of_exact, fun h _ ho => (h.exact ho).2⟩

/-- A rule for all the traffic of root. -/
def rootRule : Rule where
  target := some drop
  prot := allProtocols
  opt := noOptions
  source := anywhere
  destination := anywhere
  details := [.owner 0, .comment [tag]]

theorem rootRule_picked : statusPicks Machine.terminal (lit "ghost") rootRule = true := by
  have huid : getUid Machine.terminal (lit "ghost") = 0 := by
    have hnone : Machine.terminal.passwd (lit "ghost") = none := by with_unfolding_all decide
    rw [getUid, hnone, Option.getD_none]
  have hlisted : rootRule.listed = true := listed_of_tagged (by simp [Rule.tagged, rootRule])
  have hfield : rootRule.ownerField = Nat.toDigits 10 0 := rfl
  rw [statusPicks, hlisted, ownTest_of_ownerField (by rw [hfield, huid]; rfl) (by rw [huid]; decide)]
  rfl

/-- For a name that nobody has, a flush removes the rules of root. -/
theorem unknown_user_flushes_root :
    ¬ ∀ user only c, FlushExact Machine.terminal user only c := by
  intro h
  have hreads := reads_of_exact (h (lit "ghost") (lit "no") [rootRule])
  rcases hreads.rules with hidle | ⟨_, hrec⟩
  · exact absurd (hidle _ (List.mem_singleton_self _)).1 (by simp [rootRule_picked])
  · have hnone : Machine.terminal.passwd (lit "ghost") = none := by with_unfolding_all decide
    have hwanted : numbers (wanted Machine.terminal (lit "ghost") (lit "no")) [rootRule] = [] :=
      numbers_eq_nil.mpr fun r _ => by simp [wanted, own, hnone]
    obtain ⟨⟨r, hmem, hpick⟩, hheld⟩ := recognized_iff.mp hrec
    have hpicks : (numbers (flushPicks Machine.terminal (lit "ghost") (lit "no"))
      [rootRule]).reverse ≠ [] := by
      rw [Ne, List.reverse_eq_nil_iff, numbers_eq_nil]
      exact fun h => by simp [h r hmem] at hpick
    exact held_ne_nil hpicks 1022 254 (by rw [hheld, hwanted, List.reverse_nil])

end Tcos.Tnc
