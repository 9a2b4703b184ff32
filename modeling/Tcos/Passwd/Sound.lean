import Tcos.Passwd.Writers

/-! When the writers of the password file are sound.

Sufficiency is the script run on what it passes through as it is. For necessity the run is
looked at where every pattern matches a file of another name (`wiping`), and where none
matches (`plain`): what is written may depend on the hash, so the key that was encrypted must
be the password, and the user and the hash must come out of the file. -/
namespace Tcos.Passwd
open Shell
open Libc

/-! ### Writing -/

theorem UserName.noIfs (u : UserName) : ∀ b ∈ u.name, isIfs b = false := by
  intro b hb
  have h := (u.chars b hb).2
  simp only [Char.isWhitespace, Bool.or_eq_false_iff, decide_eq_false_iff_not] at h
  simp [isIfs, h]

theorem UserName.inLine (u : UserName) : ∀ b ∈ u.name, b ≠ ':' ∧ b ≠ '\n' := by
  refine fun b hb => ⟨(u.chars b hb).1, fun hn => ?_⟩
  have h := u.noIfs b hb
  rw [hn] at h
  exact absurd h (by decide)

theorem isInert_iff (c : Char) : isInert c = true ↔ isIfs c = false ∧ isPattern c = false := by
  simp [isInert]

theorem mem_unwords {ws : List Text} {c : Char} (h : c ∈ unwords ws) : c = ' ' ∨ ∃ w ∈ ws, c ∈ w := by
  induction ws with
  | nil => exact absurd h (by simp [unwords])
  | cons w ws ih =>
    rw [unwords_cons] at h
    rcases List.mem_append.mp h with h | h
    · exact .inr ⟨w, List.mem_cons_self .., h⟩
    · split at h
      · exact absurd h (by simp)
      · rcases List.mem_cons.mp h with h | h
        · exact .inl h
        · rcases ih h with h | ⟨v, hv, hc⟩
          · exact .inl h
          · exact .inr ⟨v, List.mem_cons_of_mem w hv, hc⟩

/-- The line that is echoed for a user and a hash. -/
theorem echoed_line (glob : Glob) {name hash : Text} (hname : ∀ c ∈ name, isInert c = true)
    (hhash : ∀ c ∈ hash, isPattern c = false) :
    unwords (glob.expand (name ++ ':' :: hash)) = name ++ ':' :: respaced false hash := by
  have hpattern : ∀ c ∈ name ++ ':' :: hash, isPattern c = false := by
    intro c hc
    rcases List.mem_append.mp hc with hc | hc
    · exact ((isInert_iff c).mp (hname c hc)).2
    · rcases List.mem_cons.mp hc with rfl | hc
      · rfl
      · exact hhash c hc
  have hword : ∀ c ∈ name ++ [':'], isIfs c = false := by
    intro c hc
    rcases List.mem_append.mp hc with hc | hc
    · exact ((isInert_iff c).mp (hname c hc)).1
    · rw [List.mem_singleton.mp hc]
      rfl
  have h := unwords_fields (w := name ++ [':']) (by simp) hword hash
  rw [List.append_assoc, List.singleton_append] at h
  rw [expand_fields glob hpattern, h]
  simp

/-- What the script writes in a call, once it knows the user. -/
theorem write_call (w : World) (c : Call) {u : UserName} {p : Password}
    (hu : ∀ b ∈ u.name, isInert b = true) (hp : ∀ b ∈ p.text, isInert b = true)
    (username passwd : Text) {rest hash : Text} (hname : ∀ b ∈ username, isInert b = true)
    (hhash : ∀ b ∈ hash, isPattern b = false) (hagreed : c.silent = false → (readVar rest).1 ≠ lit "n") :
    w.write ⟨w.options (c.args u p), tcospasswdFile, username, passwd, rest⟩ hash =
      some ⟨tcospasswdFile, username ++ ':' :: respaced false hash ++ ['\n'], false⟩ := by
  have hoptions := options_call w c hu hp
  have hline := echoed_line w.glob hname hhash
  have hfile := expand_word w.glob tcospasswdFile_inert.1 tcospasswdFile_inert.2
  have hetc : w.noDir tcospasswdFile = false := w.etc
  cases hs : c.silent
  · simp [World.write, hoptions, hs, hetc, hagreed hs, hline, World.echoTo, hfile]
  · simp [World.write, hoptions, hs, hline, World.echoTo, hfile]

theorem entered_word (option : Bool) {v : Text}
    (hv : ∀ b ∈ v, isIfs b = false ∧ (option = false → b ≠ '\\'))
    (rest : Text) : entered option v rest = (v, rest) := by
  cases option
  · exact readVar_word (fun b hb => ⟨(hv b hb).1, (hv b hb).2 rfl⟩) rest
  · rfl

/-- A word without patterns is the key. -/
theorem makePasswd_word (w : World) {v : Text} (hne : v ≠ []) (hv : ∀ c ∈ v, isInert c = true) :
    w.makePasswd v = v := by
  simp [World.makePasswd, expand_word w.glob hne hv, World.key]

/-! ### Sufficiency -/

theorem Call.sound {c : Call} {hashes : Set Hash} {u : UserName} {p : Password}
    (h : c.Keeps hashes u p) : (Writer.script c).Sound hashes u p := by
  intro crypt hrange w rest hagreed
  have hu : ∀ b ∈ u.name, isInert b = true := fun b hb =>
    (isInert_iff b).mpr ⟨u.noIfs b hb, (h.user b hb).1⟩
  have hp : ∀ b ∈ p.text, isInert b = true := fun b hb => (h.passwd b hb).1
  have huser : ∀ s, entered c.userOption u.name s = (u.name, s) := fun s =>
    entered_word _ (fun b hb => ⟨u.noIfs b hb, (h.user b hb).2⟩) s
  have hpasswd : entered c.passwdOption p.text rest = (p.text, rest) :=
    entered_word _ (fun b hb => ⟨((isInert_iff b).mp (hp b hb)).1, (h.passwd b hb).2⟩) rest
  obtain ⟨hpattern, hspaced, hfits⟩ := h.hash _ (hrange p.text)
  have hask := ask_call w c hu hp rest
  simp only [huser, Call.passwdLine, askValue_entered w c.passwdOption p.some hp, hpasswd] at hask
  have hwrite := write_call w c hu hp u.name p.text hu hpattern hagreed
  rw [of_decide_eq_true hspaced] at hwrite
  refine ⟨u.name ++ ':' :: (crypt p.text).text ++ ['\n'], ?_, (logsIn_iff ..).mpr fun stray => ?_⟩
  · rw [Writer.run, World.updateTcospasswd, hask, Option.bind_some, makePasswd_word w p.some hp, hwrite]
  · exact readLogin_written u.inLine u.some (crypt p.text).chars hfits stray

/-! ### What soundness says of a run -/

theorem written_content {file file' content content' : Text} {others others' : Bool}
    (h : some (Written.mk file content others) = some ⟨file', content', others'⟩) : content' = content :=
  (congrArg Written.content (Option.some.inj h)).symm

/-- **A writer that only passes a hash on: the key must be the password, and each hash must
come out of the file.** -/
theorem key_of_sound {hashes : Set Hash} (htwo : hashes.Nontrivial) {u : UserName} {p : Password}
    (write : Hash → Option Written) (key : Text)
    (h : ∀ crypt : Crypt, (∀ k, crypt k ∈ hashes) →
      ∃ content, write (crypt key) = some ⟨tcospasswdFile, content, false⟩ ∧ LogsIn crypt content u p) :
    key = p.text ∧ ∀ k ∈ hashes, ∃ content, write k = some ⟨tcospasswdFile, content, false⟩ ∧
      readLogin [] content = (u.name, k.text) := by
  have heach : ∀ k ∈ hashes, ∃ content, write k = some ⟨tcospasswdFile, content, false⟩ ∧
      readLogin [] content = (u.name, k.text) := by
    intro k hk
    obtain ⟨content, hwrite, hlogs⟩ := h (fun _ => k) fun _ => hk
    exact ⟨content, hwrite, (logsIn_iff ..).mp hlogs []⟩
  refine ⟨by_contra fun hne => ?_, heach⟩
  -- with a crypt that gives the password alone another hash, the file is still that of `b`
  obtain ⟨a, ha, b, hb, hab⟩ := htwo
  obtain ⟨content, hwrite, hread⟩ := heach b hb
  obtain ⟨other, hother, hlogs⟩ := h (fun k => if k = p.text then a else b) fun k => by
    split
    · exact ha
    · exact hb
  rw [if_neg hne, hwrite] at hother
  have hsame : content = other := congrArg Written.content (Option.some.inj hother)
  have hreads := (logsIn_iff ..).mp hlogs []
  rw [← hsame, hread, if_pos rfl] at hreads
  exact hab (Hash.ext_text (Prod.ext_iff.mp hreads).2.symm)

/-- What a sound call asks for, and writes. -/
theorem Call.asks {c : Call} {hashes : Set Hash} (htwo : hashes.Nontrivial) {u : UserName} {p : Password}
    (h : (Writer.script c).Sound hashes u p) (w : World) {rest : Text}
    (hagreed : (Writer.script c).Agreed rest) :
    ∃ a, w.ask (c.args u p) (c.stdin u p rest) = some a ∧ w.makePasswd a.passwd = p.text ∧
      ∀ k ∈ hashes, ∃ content, w.write a k.text = some ⟨tcospasswdFile, content, false⟩ ∧
        readLogin [] content = (u.name, k.text) := by
  obtain ⟨k, hk⟩ := htwo.nonempty
  obtain ⟨content, hrun, _⟩ := h (fun _ => k) (fun _ => hk) w rest hagreed
  obtain ⟨a, hask, _⟩ := Option.bind_eq_some_iff.mp hrun
  obtain ⟨hkey, heach⟩ := key_of_sound htwo (fun k => w.write a k.text) (w.makePasswd a.passwd)
    fun crypt hrange => by
      have hrun := h crypt hrange w rest hagreed
      rwa [Writer.run, World.updateTcospasswd, hask] at hrun
  exact ⟨a, hask, hkey, heach⟩

/-! ### Necessity -/

/-- A world in which nobody types the password, with these files. -/
def World.with (glob : Glob) (p : Password) : World where
  glob := glob
  manyWords _ := false
  tty := 'x' :: p.text
  noDir _ := false
  etc := rfl
  sh _ := ([], true)
  repr _ := []

/-- No pattern matches. -/
def plain : Glob := fun v => [v]

/-- Every pattern matches a file named `x`. -/
def wiping : Glob := fun _ => [['x']]

theorem key_args {glob : Glob} {p : Password} {args : List Text}
    (h : (World.with glob p).key args = p.text) : args = [p.text] := by
  have htty : 'x' :: p.text ≠ p.text := List.cons_ne_self _ _
  match args with
  | [] => exact absurd h htty
  | [key] => rw [show key = p.text from h]
  | _ :: _ :: _ => exact absurd h htty

/-- The key is not typed, so it is a word. -/
theorem key_word {glob : Glob} {p : Password} {passwd : Text}
    (h : (World.with glob p).makePasswd passwd = p.text) :
    p.text ∈ glob.expand ((glob.expand passwd).headD []) := by
  have hwords : glob.expand ((glob.expand passwd).headD []) = [p.text] := key_args h
  rw [hwords]
  exact List.mem_singleton_self _

theorem mem_plain {t k : Text} (h : k ∈ Glob.expand plain t) : k ∈ fields t := by
  have hfields : Glob.expand plain t = fields t := expand_unmatched t
  rwa [hfields] at h

theorem mem_wiping {t k : Text} (h : k ∈ Glob.expand wiping t) : ∀ c ∈ k, isPattern c = false := by
  rcases mem_expand h with ⟨_, hk⟩ | ⟨_, _, hk⟩
  · exact hk
  · rw [List.mem_singleton.mp hk]
    intro c hc
    rw [List.mem_singleton.mp hc]
    rfl

theorem plain_key_length {p : Password} {passwd : Text}
    (h : (World.with plain p).makePasswd passwd = p.text) : p.text.length ≤ passwd.length := by
  have hkey := mem_fields (mem_plain (key_word h))
  have hhead : ((Glob.expand plain passwd).headD []).length ≤ passwd.length := by
    cases hwords : Glob.expand plain passwd with
    | nil => simp
    | cons v vs =>
      have hv : v ∈ Glob.expand plain passwd := by simp [hwords]
      exact (mem_fields (mem_plain hv)).2.2.length_le
  exact hkey.2.2.length_le.trans hhead

/-- Where every pattern is replaced, no byte of a pattern is written. -/
theorem written_wiping {p : Password} {a : Asked} {hash content : Text}
    (h : (World.with wiping p).write a hash = some ⟨tcospasswdFile, content, false⟩) :
    ∀ c ∈ content, isPattern c = false := by
  have hsecret : secretFile ≠ tcospasswdFile := by with_unfolding_all decide
  have hexpand : Glob.expand wiping secretFile = [secretFile] :=
    expand_word _ (by with_unfolding_all decide) (each (by with_unfolding_all decide))
  have hecho : ∀ fpass line, (World.with wiping p).echoTo fpass line =
      some ⟨tcospasswdFile, content, false⟩ → content = line ++ ['\n'] := by
    intro fpass line hline
    unfold World.echoTo at hline
    split at hline
    · exact written_content hline
    · exact absurd hline (by simp)
  have hline : ∀ t : Text, ∀ c ∈ unwords ((World.with wiping p).glob.expand t) ++ ['\n'],
      isPattern c = false := by
    intro t c hc
    rcases List.mem_append.mp hc with hc | hc
    · rcases mem_unwords hc with rfl | ⟨k, hk, hc⟩
      · rfl
      · exact mem_wiping hk c hc
    · rw [List.mem_singleton.mp hc]
      rfl
  unfold World.write at h
  split at h
  · rw [World.echoTo] at h
    have hdir : (World.with wiping p).noDir secretFile = false := rfl
    have hglob : (World.with wiping p).glob.expand secretFile = [secretFile] := hexpand
    rw [hdir, hglob] at h
    exact absurd (congrArg Written.file (Option.some.inj h)) hsecret
  · dsimp only at h
    split at h
    · rw [hecho _ _ h]
      exact hline _
    · split at h
      · exact absurd h (by simp)
      · split at h
        · exact absurd h (by simp)
        · rw [hecho _ _ h]
          exact hline _

theorem agreed_nil (x : Writer) : x.Agreed [] := by
  cases x with
  | script c => exact fun _ => by rw [readVar_nil]; with_unfolding_all decide
  | standalone => trivial

section Script
variable {c : Call} {hashes : Set Hash} {u : UserName} {p : Password}

/-- The password is one word without patterns. -/
theorem Call.passwd_inert (htwo : hashes.Nontrivial) (h : (Writer.script c).Sound hashes u p) :
    ∀ b ∈ p.text, isInert b = true := by
  intro b hb
  obtain ⟨_, -, hplain, -⟩ := Call.asks htwo h (World.with plain p) (agreed_nil _)
  obtain ⟨_, -, hwiping, -⟩ := Call.asks htwo h (World.with wiping p) (agreed_nil _)
  exact (isInert_iff b).mpr ⟨(mem_fields (mem_plain (key_word hplain))).2.1 b hb,
    mem_wiping (key_word hwiping) b hb⟩

theorem Call.no_patterns (htwo : hashes.Nontrivial) (h : (Writer.script c).Sound hashes u p) :
    (∀ b ∈ u.name, isPattern b = false) ∧ ∀ k ∈ hashes, ∀ b ∈ k.text, isPattern b = false := by
  obtain ⟨a, -, -, heach⟩ := Call.asks htwo h (World.with wiping p) (agreed_nil _)
  have hkeep : ∀ k ∈ hashes, (∀ b ∈ u.name, isPattern b = false) ∧ ∀ b ∈ k.text,
    isPattern b = false := by
    intro k hk
    obtain ⟨content, hwrite, hread⟩ := heach k hk
    have hmem := mem_readLogin content
    rw [hread] at hmem
    exact ⟨fun b hb => written_wiping hwrite b ((hmem b).1 hb),
      fun b hb => written_wiping hwrite b ((hmem b).2 hb)⟩
  obtain ⟨k, hk, -⟩ := htwo
  exact ⟨(hkeep k hk).1, fun k hk => (hkeep k hk).2⟩

/-- With the user known to be inert, what is written is computed. -/
theorem Call.reads (htwo : hashes.Nontrivial) (h : (Writer.script c).Sound hashes u p) :
    let user := entered c.userOption u.name (c.passwdLine p)
    let passwd := (World.with plain p).askValue (if c.passwdOption then p.text else []) user.2
    (World.with plain p).makePasswd passwd.1 = p.text ∧
      ((∀ b ∈ user.1, isInert b = true ∧ b ≠ ':') → (readVar passwd.2).1 ≠ lit "n" → ∀ k ∈ hashes,
        user.1 = u.name ∧ k.text =
          ((respaced false k.text ++ ['\n']).take (498 - u.name.length)).dropLast) := by
  have hp := passwd_inert htwo h
  obtain ⟨hpattern, hhash⟩ := no_patterns htwo h
  have hu : ∀ b ∈ u.name, isInert b = true :=
    fun b hb => (isInert_iff b).mpr ⟨u.noIfs b hb, hpattern b hb⟩
  obtain ⟨a, hask, hkey, heach⟩ := asks htwo h (World.with plain p) (agreed_nil _)
  have hcall := ask_call (World.with plain p) c hu hp []
  simp only [hask, List.append_nil, Option.some.injEq] at hcall
  rw [hcall] at hkey heach
  refine ⟨hkey, fun hname hanswer k hk => ?_⟩
  obtain ⟨content, hwrite, hread⟩ := heach k hk
  rw [write_call _ c hu hp _ _ (fun b hb => (hname b hb).1) (hhash k hk) fun _ => hanswer] at hwrite
  rw [written_content hwrite] at hread
  have hline : ∀ b ∈ respaced false k.text, b ≠ ':' ∧ b ≠ '\n' := by
    intro b hb
    rcases mem_respaced hb with rfl | hb
    · decide
    · exact k.chars b hb
  have hnl : ∀ b, isInert b = true → b ≠ '\n' := fun b hb hn => by
    rw [hn] at hb
    exact absurd hb (by decide)
  obtain ⟨huser, -, hout⟩ := readLogin_parts
    (fun b hb => ⟨(hname b hb).2, hnl b (hname b hb).1⟩) hline k.some hread
  rw [← huser] at hout
  exact ⟨huser.symm, hout⟩

/-- The last line of the input leaves nothing. -/
theorem readLine_last {t : Text} (ht : '\n' ∉ t) : (readLine (t ++ '\n' :: [])).2 = [] := by
  obtain ⟨_, -, -, ⟨h, -⟩ | ⟨-, h⟩⟩ := readLine_line t [] ht
  · rw [h]
  · simp [h, readLine]

theorem readVar_shorter {t s : Text} {l : List (Char × Bool)} (h : (readLine s).1 = l)
    (hlt : l.length < t.length) : (readVar s).1.length < t.length := by
  have := readVar_length s
  rw [h] at this
  omega

theorem answer_nil : (readVar []).1 ≠ lit "n" := by
  rw [readVar_nil]
  with_unfolding_all decide

theorem UserName.oneLine (u : UserName) : '\n' ∉ u.name := fun h => (u.inLine _ h).2 rfl

/-- What is left after the password line. -/
theorem passwd_last (c : Call) (p : Password) : (readLine (c.passwdLine p)).2 = [] := by
  unfold Call.passwdLine
  cases c.passwdOption
  · exact readLine_last p.oneLine
  · simp [readLine]

/-- A user that is typed has no backslash: `read` removes it, or takes the password along. -/
theorem Call.user_typed (htwo : hashes.Nontrivial) (h : (Writer.script c).Sound hashes u p)
    (htyped : c.userOption = false) : ∀ b ∈ u.name, b ≠ '\\' := by
  rintro _ hb rfl
  have hp := passwd_inert htwo h
  obtain ⟨hpattern, -⟩ := no_patterns htwo h
  obtain ⟨hkey, hreads⟩ := reads htwo h
  obtain ⟨k, hk⟩ := htwo.nonempty
  simp only [htyped, entered, Bool.false_eq_true, if_false] at hkey hreads
  obtain ⟨l, hmem, ⟨-, hlt⟩, hline⟩ := readLine_line u.name (c.passwdLine p) u.oneLine
  generalize hstdin : u.name ++ '\n' :: c.passwdLine p = stdin at hkey hreads hline
  -- what is read of the user alone is too short
  have hshort : (readLine stdin).1 = l →
      (readVar ((World.with plain p).askValue (if c.passwdOption then p.text else [])
        (readVar stdin).2).2).1 ≠ lit "n" → False := by
    intro hl hanswer
    have hinert : ∀ b ∈ (readVar stdin).1, isInert b = true ∧ b ≠ ':' := by
      intro b hb
      obtain ⟨x, hx, rfl⟩ := mem_readVar hb
      rw [hl] at hx
      have hxu := hmem x hx
      exact ⟨(isInert_iff _).mpr ⟨u.noIfs _ hxu, hpattern _ hxu⟩, (u.inLine _ hxu).1⟩
    have hname := (hreads hinert hanswer k hk).1
    have hlen := readVar_shorter hl (hlt hb)
    rw [hname] at hlen
    omega
  rcases hline with ⟨hline, -⟩ | ⟨-, hline⟩
  · refine hshort (by rw [hline]) ?_
    have hnext := askValue_entered (World.with plain p) c.passwdOption p.some hp []
    have hrest : (readVar stdin).2 = c.passwdLine p := by simp [readVar, hline]
    rw [List.append_nil] at hnext
    rw [hrest, Call.passwdLine, hnext]
    cases c.passwdOption
    · simp only [entered, Bool.false_eq_true, if_false, readVar, readLine_last p.oneLine]
      exact answer_nil
    · exact answer_nil
  · have hrest : (readVar stdin).2 = [] := by simp [readVar, hline, passwd_last]
    rw [hrest] at hkey hshort
    cases hopt : c.passwdOption
    · -- the line of the password went into the user
      rw [hopt] at hkey
      simp only [Bool.false_eq_true, if_false, World.askValue, isEmpty_nil, if_true, readVar_nil] at hkey
      have := plain_key_length hkey
      exact p.some (List.length_eq_zero_iff.mp (by simpa using this))
    · refine hshort ?_ ?_
      · simp [hline, Call.passwdLine, hopt, readLine]
      · simp only [hopt, if_true, World.askValue, isEmpty_word _ p.some hp, Bool.false_eq_true, if_false]
        exact answer_nil

/-- A password that is typed has no backslash. -/
theorem Call.passwd_typed (htwo : hashes.Nontrivial) (h : (Writer.script c).Sound hashes u p)
    (htyped : c.passwdOption = false) : ∀ b ∈ p.text, b ≠ '\\' := by
  rintro _ hb rfl
  have huser : ∀ s, entered c.userOption u.name s = (u.name, s) := fun s =>
    entered_word _ (fun b hb => ⟨u.noIfs b hb, fun ht => user_typed htwo h ht b hb⟩) s
  obtain ⟨hkey, -⟩ := reads htwo h
  simp only [huser, htyped, Call.passwdLine, Bool.false_eq_true, if_false, World.askValue, isEmpty_nil,
    if_true] at hkey
  obtain ⟨l, -, ⟨-, hlt⟩, hline⟩ := readLine_line p.text [] p.oneLine
  have hl : (readLine (p.text ++ ['\n'])).1 = l := by
    rcases hline with ⟨hline, -⟩ | ⟨-, hline⟩
    · rw [hline]
    · simp [hline, readLine]
  have hlen := readVar_shorter hl (hlt hb)
  have := plain_key_length hkey
  omega

theorem Call.keeps (htwo : hashes.Nontrivial) (h : (Writer.script c).Sound hashes u p) :
    c.Keeps hashes u p := by
  have hp := passwd_inert htwo h
  obtain ⟨hpattern, hhash⟩ := no_patterns htwo h
  have hu : ∀ b ∈ u.name, isIfs b = false ∧ (c.userOption = false → b ≠ '\\') := fun b hb =>
    ⟨u.noIfs b hb, fun ht => user_typed htwo h ht b hb⟩
  have hpt : ∀ b ∈ p.text, isIfs b = false ∧ (c.passwdOption = false → b ≠ '\\') := fun b hb =>
    ⟨((isInert_iff b).mp (hp b hb)).1, fun ht => passwd_typed htwo h ht b hb⟩
  obtain ⟨-, hreads⟩ := reads htwo h
  have hnext := askValue_entered (World.with plain p) c.passwdOption p.some hp []
  rw [List.append_nil, entered_word _ hpt] at hnext
  simp only [entered_word _ hu, Call.passwdLine, hnext] at hreads
  have hinert : ∀ b ∈ u.name, isInert b = true ∧ b ≠ ':' := fun b hb =>
    ⟨(isInert_iff b).mpr ⟨u.noIfs b hb, hpattern b hb⟩, (u.inLine b hb).1⟩
  refine ⟨fun b hb => ⟨hpattern b hb, (hu b hb).2⟩, fun b hb => ⟨hp b hb, (hpt b hb).2⟩, fun k hk => ?_⟩
  obtain ⟨-, hout⟩ := hreads hinert answer_nil k hk
  have hlen := congrArg List.length hout
  have hle := respaced_length false k.text
  simp only [List.length_dropLast, List.length_take, List.length_append, List.length_singleton,
    Bool.false_eq_true, if_false] at hlen hle
  have hsome : k.text.length ≠ 0 := fun h0 => k.some (List.length_eq_zero_iff.mp h0)
  rw [List.take_of_length_le (by simp; omega), List.dropLast_concat] at hout
  refine ⟨hhash k hk, decide_eq_true hout.symm, ?_⟩
  unfold Fits Xmlrpc.bsize
  omega

end Script

/-! ### tcos-standalone -/

section Standalone
variable {hashes : Set Hash} {u : UserName} {p : Password}

end Standalone

def root : UserName := ⟨lit "root", by with_unfolding_all decide, each (by with_unfolding_all decide)⟩

end Tcos.Passwd
