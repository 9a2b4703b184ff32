import Tcos.Shell.Reading

/-! Where a text lands when it is put in a command line unquoted.

`isLiteral t` are the texts the shell reads as one word that stands for itself. Put
between blanks they are one argument, and nothing else is (`argument_iff`): every
other text is cut, joined, expanded or unquoted into something different. At the
end of the line a last backslash is one more thing that is itself
(`last_argument_iff`). -/
namespace Tcos.Shell

section Argument
variable {α : Type} (ch : α → Char)

/-- An argument of a simple command may start here; `s` is the command so far. -/
structure Parser.Awaits (p : Parser α) (s : Simple) : Prop where
  gap : p.reading = .gap
  named : p.named = true
  target : p.target = false
  gathered : gather ch p.items = some s
  tight : s.bytes = itemBytes p.items

/-- Calm bytes that follow an argument; `s` is what they add to the command. -/
structure Follows (r : List α) (s : Simple) : Prop where
  calm : ∀ b ∈ r, isCalm (ch b) = true
  gathered : gather ch ((Parser.run ch { named := true } r).finish ch).items = some s
  complete : ((Parser.run ch { named := true } r).finish ch).complete = true
  tight : s.bytes = solidBytes ch r

theorem Parser.Awaits.bytes_eq {p : Parser α} {s : Simple} (h : p.Awaits ch s) :
    p.bytes = s.bytes := by
  rw [h.tight, Parser.bytes, h.gap, gap_bytes, Nat.add_zero]

/-- Solid bytes go on with the word. -/
theorem run_solid {p : Parser α} {w : Word α} (hp : p.reading = .word .bare w) {s : List α}
    (hs : ∀ b ∈ s, isSolid (ch b) = true) : p.run ch s = p.reads (w ++ marks ch s) := by
  induction s generalizing p w with
  | nil => cases p; simp_all [Parser.reads]
  | cons b s ih =>
    have hb := hs b (List.mem_cons_self ..)
    simp only [isSolid, Bool.and_eq_true, Bool.not_eq_true'] at hb
    have hstep : p.step ch b = p.reads (w ++ [(b, markOf (ch b))]) := by
      rcases readBare_bytes ch w b with ⟨_, he, _⟩ | ⟨hq, _⟩
      · simp [Parser.step, hp, breaks, hb.1.1, hb.1.2, he, Parser.reads]
      · rw [hb.2] at hq
        exact absurd hq (by simp)
    rw [run_cons, hstep, ih (p := p.reads _) rfl fun c hc => hs c (List.mem_cons_of_mem b hc)]
    simp [Parser.reads]

theorem isLiteral_iff (t : Text) : isLiteral t = true ↔
    t ≠ [] ∧ t.head? ≠ some '#' ∧ t.head? ≠ some '~' ∧ (∀ c ∈ t, isSolid c = true) ∧
      (∀ c ∈ t, isPattern c = false) ∧ idle t = true := by
  simp only [isLiteral, Bool.and_eq_true, Bool.not_eq_true', List.isEmpty_eq_false_iff, bne_iff_ne,
    List.all_eq_true]
  grind

/-- A literal text is read as one word. -/
theorem run_literal {p : Parser α} (hp : p.reading = .gap) {t : List α}
    (ht : isLiteral (t.map ch) = true) : p.run ch t = p.reads (marks ch t) := by
  obtain ⟨hne, hhash, _, hsolid, _, _⟩ := (isLiteral_iff _).mp ht
  cases t with
  | nil => exact absurd rfl hne
  | cons b t =>
    have hb : isSolid (ch b) = true := hsolid _ (by simp)
    simp only [isSolid, Bool.and_eq_true, Bool.not_eq_true'] at hb
    have hh : (ch b == '#') = false := by simpa using hhash
    have hstep : p.step ch b = p.reads [(b, markOf (ch b))] := by
      rcases readBare_bytes ch [] b with ⟨_, he, _⟩ | ⟨hq, _⟩
      · simp [Parser.step, hp, Parser.start, hb.1.1, hb.1.2, hh, he, Parser.reads]
      · rw [hb.2] at hq
        exact absurd hq (by simp)
    rw [run_cons, hstep, run_solid ch (p := p.reads _) rfl fun c hc =>
      hsolid _ (List.mem_map_of_mem (List.mem_cons_of_mem b hc))]
    simp [Parser.reads]

/-- A blank ends the word, and what follows is read on its own. -/
theorem finish_blank {p : Parser α} (hn : p.named = true) (ht : p.target = false) (w : Word α)
    {b : α} (hb : ch b = ' ') (r : List α) :
    ((p.reads w).run ch (b :: r)).finish ch =
      ⟨p.items ++ .word .argument w :: ((Parser.run ch { named := true } r).finish ch).items,
        ((Parser.run ch { named := true } r).finish ch).complete⟩ := by
  have hstep : (p.reads w).step ch b =
      Parser.after (p.items ++ [.word .argument w]) { named := true } := by
    simp [Parser.step, Parser.reads, breaks, hb, isBlank, isOperator, isRedirect, Parser.closeWord,
      Parser.slot, Parser.start, Parser.after, hn, ht]
  rw [run_cons, hstep, run_after, finish_after]
  simp

theorem gather_argument {xs : List (Item α)} {s : Simple} (h : gather ch xs = some s) (w : Word α)
    (ys : List (Item α)) : gather ch (xs ++ .word .argument w :: ys) =
      (w.fixed ch).bind fun v => (gather ch ys).map (s.append { args := [v] }).append := by
  rw [gather_append ch h, gather]
  cases w.fixed ch with
  | none => rfl
  | some v => simp [Simple.append_comp]

theorem fixed_literal {t : List α} (ht : isLiteral (t.map ch) = true) :
    (marks ch t).fixed ch = some (t.map ch) := by
  obtain ⟨_, _, htilde, _, hpat, hidle⟩ := (isLiteral_iff _).mp ht
  have hall : ((t.map ch).all fun c => !isPattern c) = true := by
    rw [List.all_eq_true]
    intro c hc
    rw [hpat c hc]
    rfl
  rw [fixed_marks, hidle, hall, if_pos (by simpa using htilde)]

theorem literal_of_fixed {t : List α} (hne : t ≠ []) (hhash : (t.map ch).head? ≠ some '#')
    (hsolid : Word.active ch (marks ch t) = false → ∀ b ∈ t, isSolid (ch b) = true)
    {v : Text} (hv : (marks ch t).fixed ch = some v) : isLiteral (t.map ch) = true := by
  rw [fixed_marks] at hv
  split at hv
  case isFalse => exact absurd hv (by simp)
  case isTrue h =>
    simp only [Bool.and_eq_true, List.all_eq_true, bne_iff_ne] at h
    obtain ⟨⟨hidle, hpat⟩, htilde⟩ := h
    refine (isLiteral_iff _).mpr ⟨by simpa using hne, hhash, htilde, ?_, ?_, hidle⟩
    · intro c hc
      obtain ⟨b, hb, rfl⟩ := List.mem_map.mp hc
      exact hsolid (by rw [active_marks, hidle]; rfl) b hb
    · intro c hc
      simpa using hpat c hc

/-- **A literal text put between blanks is one more argument of the command.** -/
theorem argument_literal {p : Parser α} {s u : Simple} (hp : p.Awaits ch s) {b : α}
    (hb : ch b = ' ') {r : List α} (hr : Follows ch r u) {t : List α}
    (ht : isLiteral (t.map ch) = true) :
    ((p.run ch (t ++ b :: r)).finish ch).simple ch =
      some ((s.append { args := [t.map ch] }).append u) := by
  rw [run_append, run_literal ch hp.gap ht, finish_blank ch hp.named hp.target _ hb]
  simp [Parse.simple, hr.complete, gather_argument ch hp.gathered, fixed_literal ch ht, hr.gathered]

/-- A literal text and the blank after it are one more argument. -/
theorem Parser.Awaits.argument {p : Parser α} {s : Simple} (hp : p.Awaits ch s) {t : List α}
    (ht : isLiteral (t.map ch) = true) {b : α} (hb : ch b = ' ') :
    (p.run ch (t ++ [b])).Awaits ch (s.append { args := [t.map ch] }) := by
  have hrun : p.run ch (t ++ [b]) = Parser.after (p.items ++ [.word .argument (marks ch t)])
      { named := true } := by
    rw [run_append, run_literal ch hp.gap ht]
    simp [Parser.step, Parser.reads, breaks, hb, isBlank, isOperator, isRedirect, Parser.closeWord,
      Parser.slot, Parser.start, Parser.after, hp.named, hp.target]
  have hitems : (p.run ch (t ++ [b])).items = p.items ++ [.word .argument (marks ch t)] := by
    rw [hrun]
    simp [Parser.after]
  rw [hrun] at *
  refine ⟨rfl, rfl, rfl, ?_, ?_⟩
  · rw [hitems, gather_argument ch hp.gathered, fixed_literal ch ht]
    simp [gather, Simple.append]
  · have hbytes : Word.bytes (marks ch t) = t.length := by
      have hq : (marks ch t).filter (fun x => x.2 != .quote) = marks ch t := by
        rw [List.filter_eq_self]
        intro x hx
        obtain ⟨b, _, rfl⟩ := List.mem_map.mp hx
        simpa using (markOf_ne (ch b)).1
      rw [Word.bytes, hq]
      simp [marks]
    rw [hitems, Simple.bytes_append, hp.tight, itemBytes_append]
    simp [Simple.bytes, Item.bytes, hbytes]

/-- Bytes that are themselves in any word. -/
def isPlain (c : Char) : Bool := c.isAlphanum || c ∈ ['-', '.', '_', ':', '/', '=', ',', '+', '@', '%']

theorem isPlain_facts {c : Char} (h : isPlain c = true) :
    isSolid c = true ∧ isPattern c = false ∧ c ≠ '#' ∧ c ≠ '~' ∧ c ≠ '$' ∧ c ≠ '\x60' := by
  have hno : ∀ d : Char, isPlain d = false → c ≠ d := fun d hd hcd => by
    rw [hcd, hd] at h
    exact absurd h (by simp)
  have hall : c ≠ ' ' ∧ c ≠ '\t' ∧ c ≠ '\n' ∧ c ≠ '|' ∧ c ≠ '&' ∧ c ≠ ';' ∧ c ≠ '(' ∧ c ≠ ')' ∧
      c ≠ '<' ∧ c ≠ '>' ∧ c ≠ '\\' ∧ c ≠ '\x27' ∧ c ≠ '\x22' ∧ c ≠ '*' ∧ c ≠ '?' ∧ c ≠ '[' := by
    refine ⟨?_, ?_, ?_, ?_, ?_, ?_, ?_, ?_, ?_, ?_, ?_, ?_, ?_, ?_, ?_, ?_⟩ <;> exact hno _ (by decide)
  refine ⟨?_, ?_, hno _ (by decide), hno _ (by decide), hno _ (by decide), hno _ (by decide)⟩
  · simp [isSolid, isBlank, isOperator, isRedirect, isQuoting, hall]
  · simp [isPattern, hall]

theorem isLiteral_of_plain {t : Text} (hne : t ≠ []) (ht : ∀ c ∈ t, isPlain c = true) :
    isLiteral t = true := by
  have hidle : ∀ s : Text, (∀ c ∈ s, isPlain c = true) → idle s = true := by
    intro s hs
    induction s with
    | nil => rfl
    | cons c s ih =>
      obtain ⟨_, _, _, _, hd, hb⟩ := isPlain_facts (hs c (List.mem_cons_self ..))
      simp [idle, hd, hb, ih fun d hd => hs d (List.mem_cons_of_mem c hd)]
  refine (isLiteral_iff t).mpr ⟨hne, fun h => ?_, fun h => ?_, fun c hc => (isPlain_facts (ht c hc)).1,
    fun c hc => (isPlain_facts (ht c hc)).2.1, hidle t ht⟩
  · exact (isPlain_facts (ht _ (List.mem_of_mem_head? h))).2.2.1 rfl
  · exact (isPlain_facts (ht _ (List.mem_of_mem_head? h))).2.2.2.1 rfl

/-- The first word read from inside a word goes on with it. -/
theorem first_item {p : Parser α} {w : Word α} (hp : p.reading = .word .bare w)
    (s : List α) (hs : ∀ b ∈ s, isCalm (ch b) = true) :
    ∃ g u rest, ((p.run ch s).finish ch).items =
      p.items ++ .word (p.slot ch g (w ++ u)) (w ++ u) :: rest := by
  induction s generalizing p w with
  | nil =>
    refine ⟨false, [], [], ?_⟩
    simp [Parser.finish, hp, Parser.closeWord]
  | cons b s ih =>
    by_cases hbr : breaks w (ch b) = true
    · obtain ⟨q, hq⟩ : ∃ q, p.closeWord ch (isRedirect (ch b)) w =
          Parser.after (p.items ++ [.word (p.slot ch (isRedirect (ch b)) w) w]) q :=
        ⟨{ p.closeWord ch (isRedirect (ch b)) w with items := [] },
          by simp [Parser.closeWord, Parser.after]⟩
      refine ⟨isRedirect (ch b), [], ((Parser.run ch (q.start ch b) s).finish ch).items, ?_⟩
      have hstep : p.step ch b = (p.closeWord ch (isRedirect (ch b)) w).start ch b := by
        simp [Parser.step, hp, hbr]
      rw [run_cons, hstep, hq, start_after, run_after, finish_after]
      simp
    · obtain ⟨v, hv, _⟩ := readBare_calm ch w (hs b (List.mem_cons_self ..))
      have hvw : v = w ++ [(b, markOf (ch b))] := by
        rcases readBare_bytes ch w b with ⟨_, he, _⟩ | ⟨hq, _⟩
        · rw [he] at hv
          simpa using hv.symm
        · rw [(calm_facts (hs b (List.mem_cons_self ..))).1] at hq
          exact absurd hq (by simp)
      have hstep : p.step ch b = p.reads v := by simp [Parser.step, hp, hbr, hv, Parser.reads]
      obtain ⟨g, u, rest, h⟩ := ih (p := p.reads v) rfl fun c hc => hs c (List.mem_cons_of_mem b hc)
      refine ⟨g, (b, markOf (ch b)) :: u, rest, ?_⟩
      rw [run_cons, hstep, h, hvw]
      simp [Parser.reads, Parser.slot]

theorem value_marks_append (s : List α) (w : Word α) :
    (marks ch s ++ w).value ch = s ++ w.value ch := by
  induction s with
  | nil => rfl
  | cons b s ih =>
    obtain ⟨hq, hs, _⟩ := markOf_ne (ch b)
    rw [marks_cons, List.cons_append, List.cons_append, ← ih]
    cases h : marks ch s ++ w with
    | nil => simp [Word.value, hq]
    | cons x w => simp [Word.value, hq, hs]

/-- An argument as long as the text behind it loses no byte of the text. -/
theorem argument_bytes {p : Parser α} {s u : Simple} (hp : p.Awaits ch s) {q : Parse α} {t : List α}
    (h : q.simple ch = some ((s.append { args := [t.map ch] }).append u)) :
    q.complete = true ∧ gather ch q.items = some ((s.append { args := [t.map ch] }).append u) ∧
      p.bytes + t.length + u.bytes ≤ itemBytes q.items := by
  unfold Parse.simple at h
  split at h
  case isFalse => exact absurd h (by simp)
  case isTrue hc =>
    have := gather_bytes ch h
    rw [Simple.bytes_append, Simple.bytes_append] at this
    refine ⟨hc, h, ?_⟩
    rw [hp.bytes_eq]
    simpa [Simple.bytes] using this

/-- A text read without loss is nothing, or one literal-looking word. -/
theorem run_lossless {p : Parser α} (hp : p.reading = .gap) {t : List α}
    (h : p.bytes + t.length ≤ (p.run ch t).bytes) :
    t = [] ∨ (t ≠ [] ∧ p.run ch t = p.reads (marks ch t) ∧ (t.map ch).head? ≠ some '#' ∧
      (Word.active ch (marks ch t) = false → ∀ b ∈ t, isSolid (ch b) = true)) := by
  by_cases hne : t = []
  · exact .inl hne
  · obtain ⟨hrun, hsolid, hhash⟩ := run_tight ch (.inl ⟨hp, rfl⟩) hne h
    exact .inr ⟨hne, hrun, hhash hp, hsolid⟩

theorem append_args_ne (s u : Simple) (t : Text) :
    s.append u ≠ (s.append { args := [t] }).append u := by
  intro h
  have := congrArg (fun x : Simple => x.args.length) h
  simp [Simple.append] at this

/-- After an open backslash the blank belongs to the word, which is then not the text. -/
theorem escaped_argument {p : Parser α} {s u : Simple} (hp : p.Awaits ch s) {b : α} (hb : ch b = ' ')
    {r : List α} (hr : ∀ c ∈ r, isCalm (ch c) = true) {t : List α} {c : α} (hc : ch c = '\\')
    (h : gather ch (({ p with reading := .word .escaped (marks ch t ++ [(c, .quote)]) } : Parser α).run
        ch (b :: r) |>.finish ch).items =
      some ((s.append { args := [(t ++ [c]).map ch] }).append u)) : False := by
  have hstep : Parser.step ch { p with reading := .word .escaped (marks ch t ++ [(c, .quote)]) } b =
      p.reads (marks ch t ++ [(c, .quote), (b, .quoted)]) := by
    simp [Parser.step, hb, Parser.reads]
  obtain ⟨g, w, rest, hitems⟩ := first_item ch (p := p.reads _) rfl r hr
  rw [run_cons, hstep, hitems] at h
  have hslot : (p.reads (marks ch t ++ [(c, .quote), (b, .quoted)])).slot ch g
      (marks ch t ++ [(c, .quote), (b, .quoted)] ++ w) = .argument := by
    simp [Parser.slot, Word.digits, Parser.reads, hp.target, hp.named]
  rw [hslot] at h
  rw [show (p.reads (marks ch t ++ [(c, Mark.quote), (b, Mark.quoted)])).items = p.items from rfl,
    gather_argument ch hp.gathered] at h
  simp only [Option.bind_eq_some_iff, Option.map_eq_some_iff] at h
  obtain ⟨v, hv, x, _, hx⟩ := h
  have hv' : v = t.map ch ++ ' ' :: (w.value ch).map ch := by
    have hval : Word.value ch ([(c, Mark.quote), (b, Mark.quoted)] ++ w) = b :: w.value ch := by
      cases w <;> simp [Word.value]
    unfold Word.fixed at hv
    split at hv
    · exact absurd hv (by simp)
    · rw [List.append_assoc, value_marks_append, hval] at hv
      simpa [hb] using hv.symm
  have hargs := congrArg Simple.args hx
  simp only [Simple.append, List.append_assoc, List.append_cancel_left_eq, List.cons_append,
    List.nil_append, List.cons.injEq] at hargs
  rw [hv'] at hargs
  simp [hc] at hargs

/-- **Between blanks, only a literal text is an argument that is the text itself.** -/
theorem argument_iff {p : Parser α} {s u : Simple} (hp : p.Awaits ch s) {b : α} (hb : ch b = ' ')
    {r : List α} (hr : Follows ch r u) (t : List α) :
    ((p.run ch (t ++ b :: r)).finish ch).simple ch =
        some ((s.append { args := [t.map ch] }).append u) ↔ isLiteral (t.map ch) = true := by
  refine ⟨fun h => ?_, argument_literal ch hp hb hr⟩
  obtain ⟨hcomplete, hgather, hbytes⟩ := argument_bytes ch hp h
  have hcalm : ∀ c ∈ b :: r, isCalm (ch c) = true := by
    intro c hc
    rcases List.mem_cons.mp hc with rfl | hc
    · rw [hb]; rfl
    · exact hr.calm c hc
  have hsolid : solidBytes ch (b :: r) = u.bytes := by
    rw [solidBytes_cons, hb, hr.tight]
    simp [isSolid, isBlank]
  rw [run_append] at hcomplete hgather hbytes
  -- outside quotes nothing of the text was lost, so it is one word
  have hopen : (p.run ch t).Open → isLiteral (t.map ch) = true := by
    intro ho
    obtain ⟨hopen, hle⟩ := run_calm ch ho hcalm
    rw [finish_bytes ch _ hopen.bare] at hbytes
    rcases run_lossless ch hp.gap (t := t) (by omega) with rfl | ⟨hne, hrun, hhash, hsol⟩
    · have hstep : p.step ch b = Parser.after p.items { named := true } := by
        simp [Parser.step, hp.gap, Parser.start, hb, isBlank, Parser.after, hp.named, hp.target]
      rw [run_nil, run_cons, hstep, run_after, finish_after] at hgather
      simp only [gather_append ch hp.gathered, hr.gathered, Option.map_some,
        Option.some.injEq] at hgather
      exact absurd hgather (append_args_ne _ _ _)
    · rw [hrun, finish_blank ch hp.named hp.target _ hb, gather_argument ch hp.gathered] at hgather
      obtain ⟨v, hv, _⟩ := Option.bind_eq_some_iff.mp hgather
      exact literal_of_fixed ch hne hhash hsol hv
  cases hread : (p.run ch t).reading with
  | gap => exact hopen (.inl hread)
  | operator op => exact hopen (.inr (.inl ⟨op, hread⟩))
  | comment =>
    rw [run_comment ch hread fun b hb => (calm_facts (hcalm b hb)).2.2.1] at hbytes
    have hitems : itemBytes ((p.run ch t).finish ch).items = (p.run ch t).bytes := by
      simp [Parser.finish, Parser.bytes, hread]
    rw [hitems] at hbytes
    rcases run_lossless ch hp.gap (t := t) (by omega) with rfl | ⟨_, hrun, _⟩
    · rw [run_nil, hp.gap] at hread
      exact absurd hread (by simp)
    · rw [hrun] at hread
      exact absurd hread (by simp [Parser.reads])
  | word q w =>
    have hquoted : (p.run ch t).Quoted → False := by
      intro hq
      rw [finish_quoted ch (run_quoted ch hq hcalm)] at hcomplete
      exact absurd hcomplete (by simp)
    cases q with
    | bare => exact hopen (.inr (.inr ⟨w, hread⟩))
    | single => exact (hquoted ⟨_, w, hread, .inl rfl⟩).elim
    | double => exact (hquoted ⟨_, w, hread, .inr (.inl rfl)⟩).elim
    | escapedDouble => exact (hquoted ⟨_, w, hread, .inr (.inr rfl)⟩).elim
    | escaped =>
      have hstep : (p.run ch t).step ch b = (p.run ch t).reads (w ++ [(b, .quoted)]) := by
        simp [Parser.step, hread, hb, Parser.reads]
      have hopen' : ((p.run ch t).step ch b).Open := by rw [hstep]; exact .inr (.inr ⟨_, rfl⟩)
      obtain ⟨ho, hle⟩ := run_calm ch hopen' hr.calm
      have hone := step_bytes ch (p.run ch t) b
      rw [run_cons, finish_bytes ch _ ho.bare] at hbytes
      obtain ⟨t', c, rfl, hc, _, _, hrun⟩ :=
        run_escaped ch hp.gap hread (by rw [← hr.tight] at hle; omega)
      rw [hrun] at hgather
      exact (escaped_argument ch hp hb hr.calm hc hgather).elim

/-! ### The last argument of a line -/

/-- Texts that stand for themselves at the end of a line. -/
def isLastLiteral (t : Text) : Bool :=
  isLiteral t || (t.getLast? == some '\\' && (t.dropLast.isEmpty || isLiteral t.dropLast))

theorem active_append {w : Word α} {b : α} (hb : isExpansionStart (ch b) = false) :
    Word.active ch (w ++ [(b, .quoted)]) = w.active ch := by
  induction w with
  | nil => simp [Word.active]
  | cons x w ih =>
    have he : Word.expands ch (w ++ [(b, Mark.quoted)]) = Word.expands ch w := by
      cases w <;> simp [Word.expands, hb]
    rw [List.cons_append, Word.active, Word.active, ih, he]

theorem fixed_escaped (t : List α) {c : α} (hc : ch c = '\\') :
    Word.fixed ch (marks ch t ++ [(c, .quoted)]) =
      ((marks ch t).fixed ch).map fun v => v ++ ['\\'] := by
  have hact := active_append ch (w := marks ch t) (b := c) (by rw [hc]; decide)
  have hval : Word.value ch [(c, Mark.quoted)] = [c] := by simp [Word.value]
  have hhead : ((marks ch t ++ [(c, Mark.quoted)]).head?.map
      fun x => x.2 == .text && ch x.1 == '~').getD false =
      ((marks ch t).head?.map fun x => x.2 == .text && ch x.1 == '~').getD false := by
    cases t <;> simp
  unfold Word.fixed
  have hany : (marks ch t ++ [(c, Mark.quoted)]).any (fun x => x.2 == .text && isPattern (ch x.1)) =
      (marks ch t).any (fun x => x.2 == .text && isPattern (ch x.1)) := by simp
  rw [hact, hhead, hany, value_marks_append, hval, value_marks]
  split
  · rfl
  · simp [hc]

theorem finish_reads {p : Parser α} (hn : p.named = true) (ht : p.target = false) (w : Word α) :
    (p.reads w).finish ch = ⟨p.items ++ [.word .argument w], true⟩ := by
  simp [Parser.finish, Parser.reads, Parser.closeWord, Parser.slot, hn, ht]

theorem finish_open_backslash {p : Parser α} (hn : p.named = true) (ht : p.target = false)
    (w : Word α) (c : α) :
    ({ p with reading := .word .escaped (w ++ [(c, .quote)]) } : Parser α).finish ch =
      ⟨p.items ++ [.word .argument (w ++ [(c, .quoted)])], true⟩ := by
  simp [Parser.finish, Parser.closeWord, Parser.slot, hn, ht]

/-- At the end of a line a text of which no byte is lost stands for itself. -/
theorem last_lossless {p : Parser α} {s : Simple} (hp : p.Awaits ch s) {t : List α} (hne : t ≠ [])
    {s' : Simple} (h : ((p.run ch t).finish ch).simple ch = some s')
    (hbytes : s.bytes + t.length ≤ s'.bytes) : isLastLiteral (t.map ch) = true := by
  unfold Parse.simple at h
  split at h
  case isFalse => exact absurd h (by simp)
  case isTrue hcomplete =>
    have hitems := gather_bytes ch h
    rw [← hp.bytes_eq] at hbytes
    have hlit : p.bytes + t.length ≤ (p.run ch t).bytes → isLiteral (t.map ch) = true := by
      intro hle
      rcases run_lossless ch hp.gap hle with rfl | ⟨_, hrun, hhash, hsol⟩
      · exact absurd rfl hne
      · rw [hrun, finish_reads ch hp.named hp.target, gather_argument ch hp.gathered] at h
        obtain ⟨v, hv, _⟩ := Option.bind_eq_some_iff.mp h
        exact literal_of_fixed ch hne hhash hsol hv
    have hopen : (p.run ch t).Open → isLiteral (t.map ch) = true := fun ho =>
      hlit (by rw [finish_bytes ch _ ho.bare] at hitems; omega)
    unfold isLastLiteral
    rw [Bool.or_eq_true]
    cases hread : (p.run ch t).reading with
    | gap => exact .inl (hopen (.inl hread))
    | operator op => exact .inl (hopen (.inr (.inl ⟨op, hread⟩)))
    | comment =>
      have hfinish : itemBytes ((p.run ch t).finish ch).items = (p.run ch t).bytes := by
        simp [Parser.finish, Parser.bytes, hread]
      exact .inl (hlit (by omega))
    | word q w =>
      have hquoted : (p.run ch t).Quoted → False := by
        intro hq
        rw [finish_quoted ch hq] at hcomplete
        exact absurd hcomplete (by simp)
      cases q with
      | bare => exact .inl (hopen (.inr (.inr ⟨w, hread⟩)))
      | single => exact (hquoted ⟨_, w, hread, .inl rfl⟩).elim
      | double => exact (hquoted ⟨_, w, hread, .inr (.inl rfl)⟩).elim
      | escapedDouble => exact (hquoted ⟨_, w, hread, .inr (.inr rfl)⟩).elim
      | escaped =>
        right
        have hle : itemBytes ((p.run ch t).finish ch).items ≤ (p.run ch t).bytes + 1 := by
          have h1 := wordBytes_dropLast w
          have h2 : Word.bytes ((w.getLast?.map fun x => (x.1, Mark.quoted)).toList) ≤ 1 := by
            cases w.getLast? <;> simp
          simp only [Parser.finish, Parser.bytes, Parser.closeWord, hread, itemBytes_append,
            itemBytes_cons, itemBytes_nil, Item.bytes, wordBytes_append, word_bytes]
          omega
        obtain ⟨t', c, rfl, hc, hhash, hsol, hrun⟩ := run_escaped ch hp.gap hread (by omega)
        rw [hrun, finish_open_backslash ch hp.named hp.target, gather_argument ch hp.gathered,
          fixed_escaped ch t' hc] at h
        obtain ⟨v, hv, _⟩ := Option.bind_eq_some_iff.mp h
        obtain ⟨u, hu, _⟩ := Option.map_eq_some_iff.mp hv
        rw [List.map_append, List.map_cons, List.map_nil, hc]
        by_cases hnone : t' = []
        · simp [hnone]
        · simp [literal_of_fixed ch hnone hhash hsol hu]

/-- **At the end of a line, only these texts are an argument that is the text itself.** -/
theorem last_argument_iff {p : Parser α} {s : Simple} (hp : p.Awaits ch s) (t : List α) :
    ((p.run ch t).finish ch).simple ch = some (s.append { args := [t.map ch] }) ↔
      isLastLiteral (t.map ch) = true := by
  have hend : ∀ (w : Word α), gather ch (p.items ++ [.word .argument w]) =
      (w.fixed ch).map fun v => s.append { args := [v] } := by
    intro w
    rw [gather_argument ch hp.gathered]
    cases w.fixed ch <;> simp [gather, Simple.append]
  constructor
  · intro h
    have hne : t ≠ [] := by
      rintro rfl
      have hfin : ((p.run ch []).finish ch).simple ch = some s := by
        simp [Parser.finish, Parse.simple, hp.gap, hp.gathered]
      have := congrArg (fun x : Simple => x.args.length) (Option.some.inj (hfin.symm.trans h))
      simp [Simple.append] at this
    refine last_lossless ch hp hne h ?_
    rw [Simple.bytes_append]
    simp [Simple.bytes]
  · intro h
    unfold isLastLiteral at h
    rcases Bool.or_eq_true _ _ ▸ h with hl | hl
    · rw [run_literal ch hp.gap hl, finish_reads ch hp.named hp.target]
      simp [Parse.simple, hend, fixed_literal ch hl]
    · simp only [Bool.and_eq_true, beq_iff_eq, Bool.or_eq_true] at hl
      obtain ⟨hlast, hinit⟩ := hl
      obtain ⟨t', c, rfl⟩ : ∃ t' c, t = t' ++ [c] := by
        rcases List.eq_nil_or_concat t with rfl | ⟨t', c, rfl⟩
        · exact absurd hlast (by simp)
        · exact ⟨t', c, by simp⟩
      have hc : ch c = '\\' := by simpa using hlast
      have hinit' : t' = [] ∨ isLiteral (t'.map ch) = true := by simpa using hinit
      have hfix : (marks ch t').fixed ch = some (t'.map ch) := by
        rcases hinit' with rfl | hl
        · rfl
        · exact fixed_literal ch hl
      have hrun : p.run ch (t' ++ [c]) =
          { p with reading := .word .escaped (marks ch t' ++ [(c, .quote)]) } := by
        rw [run_append]
        rcases hinit' with rfl | hl
        · simp [Parser.step, hp.gap, Parser.start, hc, isBlank, isOperator, isRedirect, readBare]
        · rw [run_literal ch hp.gap hl]
          simp [Parser.step, Parser.reads, hc, breaks, isBlank, isOperator, isRedirect, readBare]
      rw [hrun, finish_open_backslash ch hp.named hp.target]
      simp [Parse.simple, hend, fixed_escaped ch t' hc, hfix, hc]

end Argument
end Tcos.Shell
