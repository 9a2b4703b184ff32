import Tcos.Grep.Dots

/-! daemonize.sh: a program and its arguments, for start-stop-daemon.

The arguments are the words without what the first one, taken as a pattern, matches in them.
`daemonize_exact_iff` says for which names and words these are the arguments that were given. -/
namespace Tcos.Scripts.Daemonize
open Shell (Text lit lines unlines captured unwords fields Host Echo isIfs isPattern isInert isInert_facts)
open Grep (deleteAll parse fits strike isSimple Dotted)

/-! ### The script -/

/-- `PATH`. -/
def path : List Text := [lit "/bin", lit "/sbin", lit "/usr/bin", lit "/usr/sbin", lit "/usr/lib/tcos"]

structure Machine where
  host : Host
  /-- `[ -e … ]`. -/
  present : Text → Bool
  executable : Text → Bool
  /-- What sed prints, of its script and its input. -/
  sed : Text → Text → Text
  /-- Words without backslashes are echoed with blanks between them, unless the first is an option. -/
  echoes : ∀ w ws, w.head? ≠ some '-' → (∀ v ∈ w :: ws, '\\' ∉ v) →
    host.echo.print (w :: ws) = unwords (w :: ws) ++ ['\n']
  deletes : ∀ p input, p ≠ [] → (∀ c ∈ p, c ≠ '|' ∧ c ≠ '\\' ∧ c ≠ '\n') →
    sed (lit "s|" ++ p ++ lit "||g") input = (deleteAll p input).getD []
  /-- After the third bar there are flags, and a bar is none. -/
  fails : ∀ p q input, (∀ c ∈ p ++ q, c ≠ '|' ∧ c ≠ '\\' ∧ c ≠ '\n') →
    sed (lit "s|" ++ (p ++ '|' :: q) ++ lit "||g") input = []

section Script
variable (m : Machine)

/-- `which`: a name with a slash is not searched for. -/
def which (name : Text) : Option Text :=
  if '/' ∈ name then (if m.executable name then some name else none)
  else (path.map fun d => d ++ '/' :: name).find? m.executable

/-- `cmd`. -/
def cmd (name : Text) : Text := if m.present name then name else (which m name).getD []

/-- `args`, of the first parameter and the others. -/
def args (name : Text) (rest : List Text) : Text :=
  captured (m.sed (lit "s|" ++ name ++ lit "||g")
  (m.host.echo.print ((name :: rest).flatMap m.host.glob.expand)))

/-- The words of the last command. -/
def daemonize (name : Text) (rest : List Text) : List Text :=
  [lit "/sbin/start-stop-daemon", lit "--quiet", lit "--background", lit "--start", lit "--exec"] ++
    (m.host.glob.expand (cmd m name) ++ lit "--" :: m.host.glob.expand (args m name rest))

/-! ### What is asked of it -/

/-- The words are given as parameters of their own, or several in one with blanks between
them, and they are the arguments of the program. -/
def Started (name : Text) (ws : List Text) : Prop := ∀ rest : List Text, rest.flatMap fields = ws →
  daemonize m name rest =
    [lit "/sbin/start-stop-daemon", lit "--quiet", lit "--background", lit "--start", lit "--exec",
      cmd m name, lit "--"] ++ ws

/-- The name of a program that is there, free of blanks and patterns. -/
structure Command where
  name : Text
  some : name ≠ []
  inert : ∀ c ∈ name, isInert c = true
  found : m.present name = true ∨ (which m name).isSome

end Script

/-- The words with a blank before each. -/
def trail (ws : List Text) : Text := ws.flatMap fun w => ' ' :: w

/-- With a bar in the name there are no words. Without one the name has no anchor, and it
matches nowhere in the words and the blanks before them. -/
def Untouched (name : Text) (ws : List Text) : Prop :=
  if '|' ∈ name then ws = []
  else name.head? ≠ some '^' ∧ name.getLast? ≠ some '$' ∧ (trail ws).tails.any (fits name) = false

instance (name : Text) (ws : List Text) : Decidable (Untouched name ws) :=
  inferInstanceAs (Decidable (if '|' ∈ name then ws = []
    else name.head? ≠ some '^' ∧ name.getLast? ≠ some '$' ∧ (trail ws).tails.any (fits name) = false))

/-! ### Words and lines -/

theorem unwords_trail (name : Text) (ws : List Text) : unwords (name :: ws) = name ++ trail ws := by
  induction ws generalizing name with
  | nil => simp [unwords, trail]
  | cons w ws ih =>
    rw [Shell.unwords_cons, if_neg (by simp), ih w]
    simp [trail]

/-- What the words of a line need. -/
theorem fields_length (t : Text) : (unwords (fields t)).length ≤ t.length := by
  have hlen := Shell.respaced_length true t
  rw [(Shell.respaced_fields t).2] at hlen
  split at hlen
  case isTrue hnil => simp [hnil, unwords]
  case isFalse => simpa using hlen

theorem fields_trail {ws : List Text} (h : ∀ w ∈ ws, w ≠ [] ∧ ∀ c ∈ w, isIfs c = false) :
    fields (trail ws) = ws := by
  have hblank : isIfs ' ' = true := rfl
  cases ws with
  | nil => rfl
  | cons w ws =>
    rw [List.forall_mem_cons] at h
    have hform : trail (w :: ws) = ' ' :: (w ++ trail ws) := by simp [trail]
    rw [hform, fields, Libc.tokens_delim hblank]
    induction ws generalizing w with
    | nil => simpa [trail] using Libc.tokens_single h.1.2 h.1.1
    | cons v ws ih =>
      rw [List.forall_mem_cons] at h
      have hnext : trail (v :: ws) = ' ' :: (v ++ trail ws) := by simp [trail]
      rw [hnext, Libc.tokens_append h.1.2 hblank, if_neg h.1.1, ih v h.2 hnext]
      rfl

/-- A text whose fields are these words has no more bytes besides blanks. -/
theorem count_fields {t : Text} {ws : List Text} (h : fields t = ws) :
    t.countP (fun c => !isIfs c) = ws.flatten.length := by
  rw [List.countP_eq_length_filter, ← Libc.tokens_flatten, ← h]
  rfl

theorem isIfs_facts {b : Char} (h : isIfs b = true) : isPattern b = false := by
  simp only [isIfs, Bool.or_eq_true, beq_iff_eq] at h
  rcases h with (rfl | rfl) | rfl <;> rfl

/-- The words of a call. -/
structure Words (name : Text) (ws : List Text) : Prop where
  solid : ∀ w ∈ ws, w ≠ [] ∧ ∀ c ∈ w, isInert c = true
  backslash : '\\' ∉ name ∧ ∀ w ∈ ws, '\\' ∉ w
  option : name.head? ≠ some '-'
  bars : name.count '|' ≤ 1

/-- A byte of the words and the blanks before them. -/
theorem mem_trail {ws : List Text} {b : Char} (h : b ∈ trail ws) : b = ' ' ∨ ∃ w ∈ ws, b ∈ w := by
  obtain ⟨w, hw, hb⟩ := List.mem_flatMap.mp h
  exact (List.mem_cons.mp hb).imp_right fun hb => ⟨w, hw, hb⟩

/-- Parameters whose fields have no pattern bytes. -/
theorem expand_params (glob : Shell.Glob) {ws rest : List Text}
    (h : ∀ w ∈ ws, w ≠ [] ∧ ∀ c ∈ w, isInert c = true) (hrest : rest.flatMap fields = ws) :
    rest.flatMap glob.expand = ws := by
  rw [← hrest]
  refine List.flatMap_congr fun p hp => Shell.expand_fields glob fun b hb => ?_
  cases hifs : isIfs b with
  | true => exact isIfs_facts hifs
  | false =>
    have hmem : b ∈ (fields p).flatten := by
      rw [fields, Libc.tokens_flatten]
      simp [hb, hifs]
    obtain ⟨w, hw, hbw⟩ := List.mem_flatten.mp hmem
    exact (isInert_facts ((h w (hrest ▸ List.mem_flatMap.mpr ⟨p, hp, hw⟩)).2 b hbw)).2

/-- The line after the script of sed. -/
def remaining (m : Machine) (name : Text) (ws : List Text) : Text :=
  captured (m.sed (lit "s|" ++ name ++ lit "||g") (name ++ trail ws ++ ['\n']))

section Run
variable {m : Machine} (c : Command m) {ws : List Text} (h : Words c.name ws)
include h

/-- The line that sed is given has no other special bytes. -/
theorem line_facts : ∀ b ∈ c.name ++ trail ws, isPattern b = false ∧ b ≠ '\n' := by
  intro b hb
  have hinert : ∀ b : Char, isInert b = true → isPattern b = false ∧ b ≠ '\n' := by
    intro b hb
    refine ⟨(isInert_facts hb).2, ?_⟩
    rintro rfl
    exact absurd hb (by decide)
  rcases List.mem_append.mp hb with hb | hb
  · exact hinert b (c.inert b hb)
  · rcases mem_trail hb with rfl | ⟨w, hw, hb⟩
    · decide
    · exact hinert b ((h.solid w hw).2 b hb)

theorem echo_line {rest : List Text} (hrest : rest.flatMap fields = ws) :
    m.host.echo.print ((c.name :: rest).flatMap m.host.glob.expand) = c.name ++ trail ws ++ ['\n'] := by
  rw [List.flatMap_cons, Shell.expand_word _ c.some c.inert, expand_params _ h.solid hrest,
    List.singleton_append, m.echoes _ _ h.option (List.forall_mem_cons.mpr h.backslash),
    unwords_trail]

omit h in
/-- The program is the name itself, or the name in a directory of the path. -/
theorem cmd_cases : cmd m c.name = c.name ∨ ∃ d ∈ path, cmd m c.name = d ++ '/' :: c.name := by
  rw [cmd]
  split
  case isTrue => exact .inl rfl
  case isFalse hnot =>
    have hfound := c.found.resolve_left hnot
    rw [which] at hfound ⊢
    split
    case isTrue hslash =>
      rw [if_pos hslash] at hfound
      split
      case isTrue => exact .inl rfl
      case isFalse hno => simp [hno] at hfound
    case isFalse hslash =>
      rw [if_neg hslash, Option.isSome_iff_exists] at hfound
      obtain ⟨p, hp⟩ := hfound
      obtain ⟨d, hd, rfl⟩ := List.mem_map.mp (List.mem_of_find?_eq_some hp)
      exact .inr ⟨d, hd, by rw [hp]; rfl⟩

omit h in
theorem expand_cmd : m.host.glob.expand (cmd m c.name) = [cmd m c.name] := by
  have hdirs : ∀ d ∈ path, d.all isInert = true := by with_unfolding_all decide
  rcases cmd_cases c with hcmd | ⟨d, hd, hcmd⟩
  · rw [hcmd]
    exact Shell.expand_word _ c.some c.inert
  · rw [hcmd]
    refine Shell.expand_word _ (by simp) fun b hb => ?_
    rcases List.mem_append.mp hb with hb | hb
    · exact List.all_eq_true.mp (hdirs d hd) b hb
    · rcases List.mem_cons.mp hb with rfl | hb
      · decide
      · exact c.inert b hb

/-- The call depends on what sed leaves of the line. -/
theorem started_iff : Started m c.name ws ↔ m.host.glob.expand (remaining m c.name ws) = ws := by
  have hcall : ∀ rest, rest.flatMap fields = ws → (daemonize m c.name rest =
      [lit "/sbin/start-stop-daemon", lit "--quiet", lit "--background", lit "--start", lit "--exec",
        cmd m c.name, lit "--"] ++ ws ↔ m.host.glob.expand (remaining m c.name ws) = ws) := by
    intro rest hrest
    rw [daemonize, args, echo_line c h hrest, expand_cmd c, remaining]
    simp
  constructor
  · intro hall
    have hself : ws.flatMap fields = ws := by
      have hword : ∀ w ∈ ws, fields w = [w] := fun w hw =>
        Shell.fields_word (h.solid w hw).1 fun b hb => (isInert_facts ((h.solid w hw).2 b hb)).1
      rw [List.flatMap_congr hword, List.flatMap_singleton']
    exact (hcall ws hself).mp (hall ws hself)
  · exact fun heq rest hrest => (hcall rest hrest).mpr heq

/-- A script with a second bar too many prints nothing. -/
theorem remaining_bar (hbar : '|' ∈ c.name) : remaining m c.name ws = [] := by
  obtain ⟨p, q, hname⟩ := List.append_of_mem hbar
  have hcount := h.bars
  rw [hname, List.count_append, List.count_cons_self] at hcount
  have hp : '|' ∉ p := List.count_eq_zero.mp (by omega)
  have hq : '|' ∉ q := List.count_eq_zero.mp (by omega)
  have hplain : ∀ b ∈ p ++ q, b ≠ '|' ∧ b ≠ '\\' ∧ b ≠ '\n' := by
    intro b hb
    have hmem : b ∈ c.name := by
      rw [hname]
      rcases List.mem_append.mp hb with hb | hb <;> simp [hb]
    refine ⟨?_, ?_, (line_facts c h b (by simp [hmem])).2⟩
    · rintro rfl
      exact (List.mem_append.mp hb).elim hp hq
    · rintro rfl
      exact h.backslash.1 hmem
  rw [remaining, hname, m.fails p q _ hplain]
  rfl

/-- Otherwise the pattern is struck out of the line. -/
theorem remaining_delete (hbar : '|' ∉ c.name) {r : Grep.Regex} (hr : parse c.name = some r)
    (hsub : ∀ b ∈ r.delete none 0 (c.name ++ trail ws), b ∈ c.name ++ trail ws) :
    remaining m c.name ws = r.delete none 0 (c.name ++ trail ws) := by
  have hfacts := line_facts c h
  have hplain : ∀ b ∈ c.name, b ≠ '|' ∧ b ≠ '\\' ∧ b ≠ '\n' := by
    intro b hb
    refine ⟨?_, ?_, (hfacts b (by simp [hb])).2⟩
    · rintro rfl
      exact hbar hb
    · rintro rfl
      exact h.backslash.1 hb
  have hline : lines (c.name ++ trail ws ++ ['\n']) = [c.name ++ trail ws] :=
    Shell.lines_cons (fun hn => (hfacts _ hn).2 rfl) []
  rw [remaining, m.deletes _ _ c.some hplain, deleteAll, hr, Option.map_some, Option.getD_some, hline]
  have hout : unlines ([c.name ++ trail ws].map (r.delete none 0)) =
      r.delete none 0 (c.name ++ trail ws) ++ ['\n'] := by simp [unlines]
  rw [hout, Shell.captured_line fun hn => (hfacts _ (hsub _ hn)).2 rfl]

theorem name_simple : ∀ b ∈ c.name, isSimple b = true := by
  intro b hb
  obtain ⟨hpat, hbreak⟩ := line_facts c h b (by simp [hb])
  have hslash : b ≠ '\\' := by
    rintro rfl
    exact h.backslash.1 hb
  simp only [isPattern, Bool.or_eq_false_iff, beq_eq_false_iff_ne] at hpat
  simp [isSimple, hslash, hbreak, hpat]

/-- What is left of the line keeps its bytes, so no file is matched. -/
theorem expand_part {t : Text} (hsub : t.Sublist (c.name ++ trail ws)) :
    m.host.glob.expand t = fields t :=
  Shell.expand_fields _ fun b hb => (line_facts c h b (hsub.subset hb)).1

/-- **With dots only, the words are left exactly if the name fits nowhere in them.** -/
theorem dotted_iff (hbar : '|' ∉ c.name) (hdots : Dotted c.name) :
    m.host.glob.expand (remaining m c.name ws) = ws ↔ (trail ws).tails.any (fits c.name) = false := by
  have hname : strike c.name 0 (c.name ++ trail ws) = strike c.name 0 (trail ws) := by
    obtain ⟨b, t, ht⟩ := List.exists_cons_of_ne_nil c.some
    have hself := Grep.fits_self c.name (trail ws)
    rw [ht, List.cons_append] at hself ⊢
    rw [strike, if_pos hself, Grep.strike_skip]
    simp
  have hdelete : ∀ s, (Grep.anchored false false c.name).delete none 0 s = strike c.name 0 s :=
    Grep.delete_dotted c.some none 0
  have hsub : (strike c.name 0 (trail ws)).Sublist (c.name ++ trail ws) :=
    (Grep.strike_sublist ..).trans (List.sublist_append_right ..)
  have hremaining : remaining m c.name ws = strike c.name 0 (trail ws) := by
    rw [remaining_delete c h hbar hdots.parse, hdelete, hname]
    intro b hb
    rw [hdelete, hname] at hb
    exact hsub.subset hb
  rw [hremaining, expand_part c h hsub]
  have hsolid : ∀ w ∈ ws, w ≠ [] ∧ ∀ b ∈ w, isIfs b = false := fun w hw =>
    ⟨(h.solid w hw).1, fun b hb => (isInert_facts ((h.solid w hw).2 b hb)).1⟩
  constructor
  · intro hfields
    by_contra hfits
    rw [Bool.not_eq_false] at hfits
    -- too many bytes are gone for the words, or a byte of one of them
    have hgone := Grep.strike_length c.some hfits
    have hneeded := fields_length (strike c.name 0 (trail ws))
    rw [hfields] at hneeded
    have hpos := List.length_pos_iff.mpr c.some
    obtain ⟨w, us, rfl⟩ : ∃ w us, ws = w :: us := by
      cases ws with
      | nil =>
        rw [show trail [] = [] from rfl, List.length_nil] at hgone
        omega
      | cons w us => exact ⟨w, us, rfl⟩
    have htrail : (trail (w :: us)).length = (unwords (w :: us)).length + 1 := by
      rw [unwords_trail]
      simp [trail]
    obtain ⟨b, hb⟩ : ∃ b, c.name = [b] := List.length_eq_one_iff.mp (by omega)
    rw [hb] at hfits hfields
    obtain ⟨d, hd, hatom⟩ := Grep.fits_single hfits
    have hleft : ∀ v ∈ w :: us, ∀ e ∈ v, Grep.atom b e = false := by
      intro v hv e he
      rw [← hfields] at hv
      exact Grep.strike_single b _ e ((Shell.mem_fields hv).2.2.subset he)
    rcases mem_trail hd with rfl | ⟨v, hv, hdv⟩
    · -- only a dot matches a blank, and it matches every other byte too
      have hdot : b = '.' := by
        by_contra hno
        rw [Grep.atom, if_neg hno, beq_iff_eq] at hatom
        exact absurd (c.inert b (by simp [hb])) (by rw [← hatom]; decide)
      obtain ⟨e, v, hv⟩ := List.exists_cons_of_ne_nil (h.solid w (by simp)).1
      have := hleft w (by simp) e (by simp [hv])
      simp [Grep.atom, hdot] at this
    · rw [hleft v hv d hdv] at hatom
      exact absurd hatom (by simp)
  · intro hfits
    rw [Grep.strike_none hfits, fields_trail hsolid]

/-- **With an anchor something of the name is left.** -/
theorem anchored_never (hbar : '|' ∉ c.name) (hnot : ¬ Dotted c.name) :
    m.host.glob.expand (remaining m c.name ws) ≠ ws := by
  obtain ⟨start, stop, t, hone, -, hshort, hparse⟩ := Grep.exists_anchor (name_simple c h) hnot
  obtain ⟨k, hk, hdelete⟩ := Grep.delete_anchored start stop hone t (c.name ++ trail ws)
  have hsub : ((Grep.anchored start stop t).delete none 0 (c.name ++ trail ws)).Sublist
    (c.name ++ trail ws) := by
    rcases hdelete with hdelete | hdelete
    · rw [hdelete]
      exact List.drop_sublist ..
    · rw [hdelete]
      exact List.take_sublist ..
  rw [remaining_delete c h hbar hparse fun b hb => hsub.subset hb, expand_part c h hsub]
  intro hfields
  have hcount := count_fields hfields
  have hname : c.name.countP (fun b => !isIfs b) = c.name.length := by
    rw [List.countP_eq_length]
    intro b hb
    simp [(isInert_facts (c.inert b hb)).1]
  have htrail := count_fields (fields_trail fun w hw =>
    ⟨(h.solid w hw).1, fun b hb => (isInert_facts ((h.solid w hw).2 b hb)).1⟩)
  have hline : (c.name ++ trail ws).countP (fun b => !isIfs b) = c.name.length + ws.flatten.length := by
    rw [List.countP_append, hname, htrail]
  rcases hdelete with hdelete | hdelete
  · rw [hdelete] at hcount
    rw [← List.take_append_drop k (c.name ++ trail ws), List.countP_append, hcount] at hline
    have hgone := (List.countP_le_length (p := fun b => !isIfs b)).trans
      (List.length_take_le k (c.name ++ trail ws))
    omega
  · rw [hdelete] at hcount
    rw [← List.take_append_drop ((c.name ++ trail ws).length - k) (c.name ++ trail ws),
      List.countP_append, hcount] at hline
    have hgone : ((c.name ++ trail ws).drop ((c.name ++ trail ws).length - k)).countP
      (fun b => !isIfs b) ≤ k :=
      List.countP_le_length.trans (by rw [List.length_drop]; omega)
    omega

end Run

/-- **Exactly these words reach the program as they are.** -/
theorem daemonize_exact_iff (m : Machine) (c : Command m) {ws : List Text} (h : Words c.name ws) :
    Started m c.name ws ↔ Untouched c.name ws := by
  rw [started_iff c h, Untouched]
  split
  case isTrue hbar =>
    rw [remaining_bar c h hbar]
    exact eq_comm
  case isFalse hbar =>
    by_cases hdots : Dotted c.name
    · rw [dotted_iff c h hbar hdots]
      exact ⟨fun hfits => ⟨hdots.start, hdots.stop, hfits⟩, fun hfits => hfits.2.2⟩
    · refine iff_of_false (anchored_never c h hbar hdots) fun huntouched => hdots ?_
      exact ⟨name_simple c h, huntouched.1, huntouched.2.1⟩

/-! ### A machine -/

/-- The sed of a machine: what is no deletion fails. -/
def plainSed (script input : Text) : Text :=
  let p := (script.drop 2).take (script.length - 5)
  if '|' ∈ p then [] else (deleteAll p input).getD []

theorem plainSed_script (p : Text) :
    ((lit "s|" ++ p ++ lit "||g").drop 2).take ((lit "s|" ++ p ++ lit "||g").length - 5) = p := by
  have hstart : (lit "s|").length = 2 := by with_unfolding_all decide
  have hend : (lit "||g").length = 3 := by with_unfolding_all decide
  rw [List.append_assoc, List.drop_left' hstart]
  refine List.take_left' ?_
  simp only [List.length_append, hstart, hend]
  omega

/-- x11vnc is in /usr/bin, and nothing else is anywhere. -/
def plainMachine : Machine where
  host := .bare
  present _ := false
  executable f := f = lit "/usr/bin/x11vnc"
  sed := plainSed
  echoes w ws hw _ := by
    have hne : w ≠ lit "-n" := by
      rintro rfl
      exact hw (by with_unfolding_all decide)
    simp [Host.bare, Echo.simple, hne]
  deletes p input _ hp := by
    have hbar : '|' ∉ p := fun hb => (hp _ hb).1 rfl
    rw [plainSed, plainSed_script, if_neg hbar]
  fails p q input _ := by
    rw [plainSed, plainSed_script, if_pos (by simp)]

def x11vnc : Command plainMachine where
  name := lit "x11vnc"
  some := by with_unfolding_all decide
  inert := Shell.each (by with_unfolding_all decide)
  found := .inr (by with_unfolding_all decide)

/-- A file that is named after the program loses the name. -/
theorem own_name_lost : ¬ Started plainMachine x11vnc.name [lit "-rfbauth", lit "/tmp/x11vnc.pass"] := by
  intro h
  have hcall := h [lit "-rfbauth", lit "/tmp/x11vnc.pass"] (by with_unfolding_all decide)
  exact absurd hcall (by with_unfolding_all decide)

theorem daemonize_shared : Started plainMachine x11vnc.name [lit "-shared", lit "-forever"] := by
  have hwords : Words x11vnc.name [lit "-shared", lit "-forever"] := by
    refine ⟨?_, by with_unfolding_all decide, by with_unfolding_all decide, by with_unfolding_all decide⟩
    intro w hw
    rcases List.mem_cons.mp hw with rfl | hw
    · exact ⟨by with_unfolding_all decide, Shell.each (by with_unfolding_all decide)⟩
    · rw [List.mem_singleton.mp hw]
      exact ⟨by with_unfolding_all decide, Shell.each (by with_unfolding_all decide)⟩
  exact (daemonize_exact_iff plainMachine x11vnc hwords).mpr (by with_unfolding_all decide)

end Tcos.Scripts.Daemonize
