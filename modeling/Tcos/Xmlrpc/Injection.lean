import Tcos.Shell.Erase
import Tcos.Shell.Outline
import Tcos.Xmlrpc.Display

/-! What an unauthenticated request can make the server run.

A command line is *harmless* if the shell makes nothing but argument words of the
bytes it took from the request, and reads of the rest what the handler's format has:
the same commands, pipes and redirections, with the format's own arguments. `contained_iff`:
the commands of a request that passes no credential check are harmless, and no file is
written, exactly when the request is `quiet`: the text that four of the handlers copy into a
command without a check does not act from where it stands, leaves what the format has behind
it where it was, and leaves room for it. -/
namespace Tcos.Xmlrpc
open Shell (Text lit Parser Mode scan parse)
open Libc

/-- What a line comes to without the bytes of the request. -/
def outline (l : Line) : List (Shell.Item Char) := (parse Byte.char l).outline Byte.char Byte.requested

/-- The shell, which sees characters only, reads the line's items; the request's bytes in them
stand in argument words and start no expansion; the line is read to its end, and the rest of it
is read as the format is. -/
structure Harmless (format : Text) (l : Line) : Prop where
  items : parse id l.text = (parse Byte.char l).erase Byte.char
  inert : (parse Byte.char l).inert Byte.char Byte.requested = true
  complete : (parse Byte.char l).complete = true
  outline : outline l = outline (own format)

/-- The handler ran its formats in order, each harmless, and wrote nothing. -/
structure Contained (formats : List Text) (o : Outcome) : Prop where
  ran : List.Forall₂ Harmless (formats.take o.ran.length) o.ran
  wrote : o.wrote = []

/-! ### The formats -/

def statusCount : Text := lit "| grep -c \"[1234567890]\""

def standaloneQuiet : Text := lit " 2>/dev/null"

def pciFormat : Text := lit "lspci |grep \"" ++ lit "\" | sed s/\"" ++ lit " \"//g"

/-- The format strings a request reaches without a check, in order, with nothing in the place
of its conversions. -/
def Request.formats (b : Build) : Request → List Text
  | .status _ => [lit "pidof " ++ statusCount]
  | .standalone what _ =>
    if what = lit "get_user" then [standaloneUser]
    else if what = lit "get_exclude" then [standaloneExclude ++ lit "=" ++ standaloneQuiet]
    else if what = lit "get_process" then [standaloneProcess]
    else if what = lit "get_server" then [standaloneServer b ++ lit " " ++ standaloneQuiet]
    else if what = lit "get_multiseat" then [standaloneMultiseat ++ lit " " ++ standaloneQuiet]
    else if what = lit "get_time" then [standaloneTime]
    else []
  | .devices .. => [devicesWrapper b ++ lit " "]
  | .pamusb .. => [pamUsbWrapper b ++ lit " ''"]
  | .pci _ => [pciAll, pciFormat]
  | .info what =>
    ((infoMethods.find? fun m => lit m.1 = what).map fun m => infoCommand b m.2).toList
  | .sound .. | .config .. | .rebootpoweroff .. => [myIpAddress b]
  | _ => []

/-! ### The condition -/

/-- None of the bytes that fit acts, read from `m` on, and no quote is open behind them. -/
def closedFrom (m : Mode) (room : Nat) (t : Text) : Bool := (scan m (t.take room)).any Mode.closed

/-- None of the bytes acts, read from `m` on; they end between words or in an unquoted one, and
leave room for what is behind them. -/
def partedFrom (m : Mode) (room : Nat) (t post : Text) : Bool :=
  (scan m t).any Mode.parted && decide (t.length + post.length ≤ room)

/-- The condition on a request, by the commands it reaches without a check. -/
def Request.quiet (b : Build) (e : Env) : Request → Bool
  | .status app => partedFrom .gap (buffSize - 1 - (lit "pidof ").length) app statusCount
  | .standalone what group =>
    if what = lit "get_exclude" then
      partedFrom (.word false) (bsize - 1 - (standaloneExclude ++ lit "=").length) group
        standaloneQuiet
    else if what = lit "get_server" then
      partedFrom .gap (bsize - 1 - (standaloneServer b ++ lit " ").length) group standaloneQuiet
    else if what = lit "get_multiseat" then
      partedFrom .gap (bsize - 1 - (standaloneMultiseat ++ lit " ").length) group standaloneQuiet
    else true
  | .devices option cmdline _ _ =>
    option != lit "--getxdrivers" ||
      closedFrom .gap (bsize - 1 - (devicesWrapper b).length) (option ++ lit " " ++ cmdline)
  | .pamusb option cmdline _ _ =>
    !decide (initusb <+: option) ||
      closedFrom .gap (bsize - 1 - (pamUsbWrapper b).length)
        (option ++ lit " '" ++ cmdline ++ lit "'")
  | .pci id =>
    id == [] || id == lit "pci_all" || !decide (id <:+: fgets bsize (pciOutput e)) ||
      decide (pciFormat.length + 2 * id.length < bsize)
  | _ => true

/-! ### Lines -/

/-- What own text comes to behind an argument. -/
def behind (s : Text) : List (Shell.Item Char) :=
  (Shell.behind Byte.char (own s)).outline Byte.char Byte.requested

/-- The marks are no matter to the shell. -/
theorem harmless_of {format : Text} {l : Line}
    (hi : (parse Byte.char l).inert Byte.char Byte.requested = true)
    (hc : (parse Byte.char l).complete = true) (ho : outline l = outline (own format)) :
    Harmless format l :=
  ⟨Shell.parse_map Byte.char l, hi, hc, ho⟩

theorem own_facts {t : Text} (h : '\n' ∉ t) :
    ∀ x ∈ own t, x.requested = false ∧ x.char ≠ '\n' := by
  intro x hx
  obtain ⟨c, hc, rfl⟩ := List.mem_map.mp hx
  exact ⟨rfl, fun hn => h (hn ▸ hc)⟩

theorem filling_req (t : Text) : ∀ x ∈ req t, Shell.Filling Byte.char Byte.requested x := by
  intro x hx
  obtain ⟨c, _, rfl⟩ := List.mem_map.mp hx
  exact .inl rfl

/-- Own text before the request's; the reader is in mode `m` behind it. -/
structure Before (size : Nat) (pre : Text) (m : Mode) : Prop where
  fits : pre.length < size
  quiet : (Parser.run Byte.char {} (own pre)).Quiet Byte.char Byte.requested
  mode : (Parser.run Byte.char {} (own pre)).reading.mode = m
  parted : m.parted = true

theorem slashed_pre (l : Line) : (Parser.run Byte.char {} l).Slashed Byte.char :=
  Shell.slashed_run _ (fun q w h _ => absurd h (by simp)) l

/-- Own text behind the request's: it stands apart, does not begin with an argument, and nothing
shorter comes to the same. -/
structure After (post : Text) : Prop where
  oneLine : '\n' ∉ post
  apart : Shell.Apart post
  opening : ∀ c, post.head? = some c → c = ' ' ∨ c = '|'
  complete : (Shell.behind Byte.char (own post)).complete = true
  first : (behind post).head?.map Shell.Item.isArgument = some false
  whole : ∀ n < post.length, (Shell.behind Byte.char (own (post.take n))).complete = true →
    behind (post.take n) ≠ behind post

theorem After.own_take {post : Text} (h : After post) (n : Nat) :
    ∀ x ∈ own (post.take n), x.requested = false ∧ x.char ≠ '\n' :=
  own_facts fun hn => h.oneLine (List.mem_of_mem_take hn)

theorem take_head {c : Char} {t : Text} {n : Nat} (h : (t.take n).head? = some c) :
    t.head? = some c := by
  rw [List.head?_take] at h
  split at h
  · exact absurd h (by simp)
  · exact h

theorem After.closing {t : Text} (h : After t) (n : Nat) :
    Shell.Closing Byte.char Byte.requested (own (t.take n)) := by
  refine ⟨h.own_take n, fun x hx => ?_⟩
  unfold own at hx
  rw [List.head?_map] at hx
  obtain ⟨c, hc, rfl⟩ := Option.map_eq_some_iff.mp hx
  rcases h.opening c (take_head hc) with rfl | rfl <;> simp

theorem After.apart_take {t : Text} (h : After t) (n : Nat) : Shell.Apart (t.take n) := by
  intro c hc
  refine (h.apart c (take_head hc)).imp_right fun ⟨hb, hd⟩ => ⟨hb, fun d hd' => hd d ?_⟩
  rw [List.getElem?_take] at hd'
  split at hd'
  · exact hd'
  · exact absurd hd' (by simp)

/-- The line, cut to its buffer. -/
theorem cut_line {size : Nat} {pre : Text} (hfits : pre.length < size) (t post : Text) :
    cut size (own pre ++ req t ++ own post) =
      own pre ++ (req (t.take (size - 1 - pre.length)) ++
        own (post.take (size - 1 - pre.length - t.length))) := by
  have hn : size - pre.length - 1 = size - 1 - pre.length := by omega
  rw [List.append_assoc, cut_append (by simpa using hfits), cut, List.take_append, own_length, hn]
  simp [own, req, List.map_take]

theorem own_append (s t : Text) : own (s ++ t) = own s ++ own t := by simp [own]

theorem After.ne_nil {post : Text} (h : After post) : post ≠ [] := by
  rintro rfl
  exact absurd h.first (by simp [behind, own, Shell.behind, Parser.finish, Shell.Parse.outline])

/-- What fits of the text behind, after an unquoted word or between words. -/
theorem After.run_parted {post : Text} (h : After post) {q : Parser Byte}
    (hq : q.Quiet Byte.char Byte.requested) (hm : q.reading.mode.parted = true) {n : Nat}
    (hn : n ≠ 0) :
    ((q.run Byte.char (own (post.take n))).finish Byte.char).outline Byte.char Byte.requested =
        q.outline Byte.char Byte.requested ++ behind (post.take n) ∧
      ((q.run Byte.char (own (post.take n))).finish Byte.char).complete =
        (Shell.behind Byte.char (own (post.take n))).complete := by
  obtain ⟨c, rest, hcons⟩ := List.exists_cons_of_ne_nil h.ne_nil
  obtain ⟨k, rfl⟩ := Nat.exists_eq_succ_of_ne_zero hn
  have hc := h.opening c (by rw [hcons]; rfl)
  rw [hcons, List.take_succ_cons]
  exact Shell.behind_outline _ _ hq hm (b := ⟨c, false⟩) hc (own (rest.take k))

/-- **What fits of the text behind is read as in the format exactly when all of it fits and
nothing holds its first byte.** -/
theorem After.read_iff {post : Text} (h : After post) {q : Parser Byte}
    (hq : q.Quiet Byte.char Byte.requested) (hsl : q.Slashed Byte.char) (n : Nat) :
    (((q.run Byte.char (own (post.take n))).finish Byte.char).complete = true ∧
      ((q.run Byte.char (own (post.take n))).finish Byte.char).outline Byte.char Byte.requested =
        q.outline Byte.char Byte.requested ++ behind post) ↔
      q.reading.mode.parted = true ∧ post.length ≤ n := by
  obtain ⟨i, rest, hi⟩ : ∃ i rest, behind post = i :: rest := by
    cases hb : behind post with
    | nil => exact absurd h.first (by simp [hb])
    | cons i rest => exact ⟨i, rest, rfl⟩
  have harg : i.isArgument = false := by simpa [hi] using h.first
  have hself : ∀ xs : List (Shell.Item Char), xs ≠ xs ++ behind post := fun xs hx => by simp [hi] at hx
  constructor
  · rintro ⟨hc, ho⟩
    by_cases hm : q.reading.mode.parted = true
    · refine ⟨hm, ?_⟩
      by_contra hlt
      by_cases hn : n = 0
      · subst hn
        have hend := (Shell.finish_outline _ _ hq hsl).1
        exact hself _ (hend.symm.trans (by simpa [own] using ho))
      obtain ⟨ho', hc'⟩ := h.run_parted hq hm hn
      rw [ho'] at ho
      rw [hc'] at hc
      exact h.whole n (by omega) hc (List.append_cancel_left ho)
    · have hm' : q.reading.mode.parted = false := by simpa using hm
      have hap : Shell.Apart ((own (post.take n)).map Byte.char) := by
        have ht : (own (post.take n)).map Byte.char = post.take n := own_text _
        rw [ht]
        exact h.apart_take n
      rcases Shell.lost_outline _ _ hq hsl hm' (h.own_take n) hap with hl | ⟨w, hl⟩
      · exact absurd (hl.symm.trans ho) (hself _)
      · -- the format goes on with something else than an argument
        rw [ho, List.prefix_append_right_inj, hi, List.cons_prefix_cons] at hl
        rw [← hl.1] at harg
        exact absurd harg (by simp [Shell.Item.isArgument])
  · rintro ⟨hm, hn⟩
    have hpos : n ≠ 0 := fun h0 => h.ne_nil (List.length_eq_zero_iff.mp (by omega))
    obtain ⟨ho, hc⟩ := h.run_parted hq hm hpos
    rw [List.take_of_length_le hn] at ho hc ⊢
    exact ⟨hc.trans h.complete, ho⟩

/-- The outline of a format: what is before its conversion, and what is behind it. -/
theorem format_outline {size : Nat} {pre post : Text} {m : Mode} (hpre : Before size pre m)
    (hpost : After post) :
    outline (own (pre ++ post)) =
      (Parser.run Byte.char {} (own pre)).outline Byte.char Byte.requested ++ behind post := by
  have hparted := hpre.mode ▸ hpre.parted
  have h := ((hpost.read_iff hpre.quiet (slashed_pre _) post.length).mpr ⟨hparted, le_rfl⟩).2
  rw [List.take_length] at h
  rw [outline, parse, own_append, Shell.run_append]
  exact h

/-- **A line with request text in it is harmless exactly when the text scans to a place where the
format goes on, and the line fits.** -/
theorem line_harmless_iff {size : Nat} {pre post : Text} {m : Mode} (hpre : Before size pre m)
    (hpost : After post) (t : Text) :
    Harmless (pre ++ post) (cut size (own pre ++ req t ++ own post)) ↔
      partedFrom m (size - 1 - pre.length) t post = true := by
  have hformat := format_outline hpre hpost
  have hcut := cut_line hpre.fits t post
  generalize size - 1 - pre.length = room at hcut ⊢
  have hmap : ∀ s : Text, (req s).map Byte.char = s := req_text
  have hinert := Shell.inert_iff Byte.char Byte.requested hpre.quiet (filling_req (t.take room))
    (hpost.closing (room - t.length))
  rw [hpre.mode, hmap] at hinert
  have hrun : ∀ {m'}, scan m (t.take room) = some m' → _ := fun {m'} hm' =>
    Shell.run_outline Byte.char Byte.requested hpre.quiet (slashed_pre _) (filling_req (t.take room))
      (by rw [hpre.mode, hmap]; exact hm')
  have hline : parse Byte.char (cut size (own pre ++ req t ++ own post)) =
      ((Parser.run Byte.char {} (own pre)).run Byte.char (req (t.take room) ++
        own (post.take (room - t.length)))).finish Byte.char := by
    rw [hcut, parse, Shell.run_append]
  constructor
  · intro h
    obtain ⟨m', hm'⟩ := Option.isSome_iff_exists.mp (hinert.mp (hline ▸ h.inert))
    obtain ⟨hq, rfl, hout⟩ := hrun hm'
    rw [Shell.run_append] at hline
    have hsl := Shell.slashed_run Byte.char (slashed_pre (own pre)) (req (t.take room))
    have ho := h.outline
    rw [hformat, ← hout, outline, hline] at ho
    obtain ⟨hparted, hroom⟩ := (hpost.read_iff hq hsl _).mp ⟨hline ▸ h.complete, ho⟩
    have hpos := List.length_pos_iff.mpr hpost.ne_nil
    rw [List.take_of_length_le (by omega)] at hm'
    simp only [partedFrom, hm', Option.any_some, Bool.and_eq_true, decide_eq_true_eq]
    rw [List.take_of_length_le (by omega)] at hparted
    exact ⟨hparted, by omega⟩
  · intro h
    simp only [partedFrom, Bool.and_eq_true, decide_eq_true_eq, Option.any_eq_true] at h
    obtain ⟨⟨m', hm', hparted⟩, hroom⟩ := h
    rw [← List.take_of_length_le (i := room) (by omega : t.length ≤ room)] at hm'
    obtain ⟨hq, rfl, hout⟩ := hrun hm'
    have hin := hinert.mpr (by rw [hm']; rfl)
    rw [← hline] at hin
    rw [Shell.run_append] at hline
    have hsl := Shell.slashed_run Byte.char (slashed_pre (own pre)) (req (t.take room))
    obtain ⟨hc, ho⟩ := (hpost.read_iff hq hsl (room - t.length)).mpr ⟨hparted, by omega⟩
    refine harmless_of hin (by rw [hline]; exact hc) ?_
    rw [hformat, ← hout, outline, hline]
    exact ho

theorem quiet_of_gap {p : Parser Byte} (hr : p.reading = .gap) (hn : p.named = true)
    (ht : p.target = false)
    (hi : p.items.all (Shell.Item.inert Byte.char Byte.requested) = true) :
    p.Quiet Byte.char Byte.requested :=
  ⟨hn, ht, hi, by simp [hr], by simp [hr]⟩

abbrev Settled (p : Parser Byte) : Prop := p.Settled Byte.char Byte.requested

/-- In the double quotes of an argument, with nothing acting so far. -/
def Sheltered (p : Parser Byte) : Prop := Settled p ∧ ∃ w, p.InQuotes w

theorem Sheltered.req {p : Parser Byte} (hp : Sheltered p) {t : Line}
    (ht : ∀ x ∈ t, Shell.isDull x.char = true) : Sheltered (p.run Byte.char t) := by
  obtain ⟨hs, w, hw⟩ := hp
  obtain ⟨v, hv, hs'⟩ := Shell.run_dull Byte.char Byte.requested hw hs t ht
  exact ⟨hs', v, hv⟩

/-- The end of a pattern in double quotes, and the blank behind it. -/
theorem pattern_ends {p : Parser Byte} {w : Shell.Word Byte} (hp : p.InQuotes w) :
    ∃ xs : List (Shell.Item Byte), xs.flatMap (Shell.Item.outline Byte.char Byte.requested) =
        p.outline Byte.char Byte.requested ∧
      p.run Byte.char (own ['\x22', ' ']) = Parser.after xs { named := true } := by
  refine ⟨p.items ++ [.word .argument (w ++ [(⟨'\x22', false⟩, .quote)])], ?_, ?_⟩
  · have hquote : Shell.telling Byte.char Byte.requested ⟨'\x22', false⟩ = false := by decide
    simp [Parser.outline, Shell.Reading.outline, hp.reading, Shell.word_untold _ _ hquote]
  · simp [own, Parser.step, hp.reading, Shell.readDouble, Shell.breaks, Shell.isBlank,
      Shell.isOperator, Shell.isRedirect, Parser.closeWord, Parser.slot, hp.named, hp.target,
      Parser.start, Parser.after]

theorem pciBetween_split :
    own (lit "\" | sed s/\"") = own ['\x22', ' '] ++ own (lit "| sed s/\"") := by
  with_unfolding_all decide

theorem sed_quoted : (Parser.run Byte.char { named := true } (own (lit "| sed s/\""))).InQuotes
    [(⟨'s', false⟩, .text), (⟨'/', false⟩, .text), (⟨'\x22', false⟩, .quote)] :=
  ⟨by with_unfolding_all decide, by with_unfolding_all decide, by with_unfolding_all decide⟩

/-- From inside the quotes of the first pattern to inside those of the second. -/
theorem Sheltered.sed {p : Parser Byte} (hp : Sheltered p) :
    Sheltered (p.run Byte.char (own (lit "\" | sed s/\""))) := by
  have hnl : '\n' ∉ lit "\" | sed s/\"" := by with_unfolding_all decide
  refine ⟨Shell.run_settled _ _ hp.1 (own_facts hnl), ?_⟩
  obtain ⟨_, w, hw⟩ := hp
  obtain ⟨xs, -, hxs⟩ := pattern_ends hw
  rw [pciBetween_split, Shell.run_append, hxs, Shell.run_after]
  exact ⟨_, sed_quoted.reading, sed_quoted.named, sed_quoted.target⟩

theorem contained_single {f : Text} {o : Outcome} {l : Line} (hr : o.ran = [l]) (hw : o.wrote = []) :
    Contained [f] o ↔ Harmless f l := by
  refine ⟨fun h => ?_, fun h => ⟨?_, hw⟩⟩
  · have hran := h.ran
    rw [hr] at hran
    exact (List.forall₂_cons.mp hran).1
  · rw [hr]
    exact .cons h .nil

theorem before_gap {size : Nat} {pre : Text} (hfits : pre.length < size)
    (hr : (Parser.run Byte.char {} (own pre)).reading = .gap)
    (hn : (Parser.run Byte.char {} (own pre)).named = true)
    (ht : (Parser.run Byte.char {} (own pre)).target = false)
    (hi : (Parser.run Byte.char {} (own pre)).items.all
      (Shell.Item.inert Byte.char Byte.requested) = true) : Before size pre .gap :=
  ⟨hfits, quiet_of_gap hr hn ht hi, by rw [hr]; rfl, rfl⟩

theorem before_status : Before buffSize (lit "pidof ") .gap :=
  before_gap (by with_unfolding_all decide) (by with_unfolding_all decide)
  (by with_unfolding_all decide) (by with_unfolding_all decide)
    (by with_unfolding_all decide)

theorem after_count : After statusCount := by
  have hhead : statusCount.head? = some '|' := by with_unfolding_all decide
  refine ⟨by with_unfolding_all decide, fun c hc => ?_, fun c hc => ?_, by decide +kernel,
    by decide +kernel, by decide +kernel⟩
  · exact .inl (Option.some.inj (hc.symm.trans hhead))
  · exact .inr (Option.some.inj (hc.symm.trans hhead))

theorem status_iff (e : Env) (b : Build) (app : Text) :
    Contained (Request.formats b (.status app)) (tcosStatus e app) ↔
      Request.quiet b e (.status app) = true :=
  (contained_single rfl rfl).trans (line_harmless_iff before_status after_count app)

end Tcos.Xmlrpc
