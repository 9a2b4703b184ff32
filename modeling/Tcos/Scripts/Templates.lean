import Tcos.Shell.Echo

/-! tcos-generation-functions.sh: which templates are sourced, and in what order.

`tcos_get_templates` collects the base of each personalised template, but keeps only one of the
personalised ones. `effective_iff` says for which files, in which order of `find`, each variable of
a personalised template keeps the value of a personalised template. -/
namespace Tcos.Scripts.Templates
open Shell (Text lit lines unlines captured awkField fields isIfs isInert isPattern isBlank Sh)

/-! ### The files -/

/-- `awk -F"=" '/^NAME=/ {print $2}'`. -/
def assigned (name content : Text) : Text :=
  ((lines content).filter fun l => decide (name ++ ['='] <+: l)).flatMap fun l =>
    awkField '=' 2 l ++ ['\n']

/-- The template that a file names. -/
def tplOf (content : Text) : Text :=
  let tpl := captured (assigned (lit "TCOS_TEMPLATE") content)
  if tpl = [] then captured (assigned (lit "TCOS_BASED_TEMPLATE") content) else tpl

/-- The directories of the templates. Names have no blanks, patterns and backslashes, and the names
of templates no patterns and backslashes. -/
structure Files (ι : Type) where
  tcosDir : Text
  /-- The personalised templates, as `find` prints them. -/
  found : List Text
  /-- The file at a path. -/
  node : Text → Option ι
  content : ι → Text
  /-- The variables that a file sets when it is sourced. -/
  sets : ι → Text → Bool
  /-- `[ -f ... ]` of three words and more. -/
  test : List Text → Bool
  rooted : tcosDir.head? = some '/'
  dir : ∀ c ∈ tcosDir, isInert c = true ∧ c ≠ '\\'
  paths : ∀ f ∈ found, (node f).isSome = true ∧ f ≠ [] ∧ ∀ c ∈ f, isInert c = true ∧ c ≠ '\\'
  names : ∀ i, ∀ c ∈ tplOf (content i), isPattern c = false ∧ c ≠ '\\'

/-! ### The script -/

section Script
variable {ι : Type} (sh : Sh) (F : Files ι)

/-- `[ -f ... ]`. -/
def isFile : List Text → Bool
  | [w] => (F.node w).isSome
  | [_, _] => false
  | ws => F.test ws

/-- What it prints, as it is captured. -/
def readTemplate (path : Text) : Text :=
  match F.node path with
  | none => []
  | some i =>
    let tpl := tplOf (F.content i)
    if tpl = [] then []
    else
      match [F.tcosDir ++ lit "/templates", lit "/etc/tcos/templates"].find? fun tdir =>
        isFile F (sh.expand (tdir ++ '/' :: tpl)) with
      | some tdir => captured (sh.echo [tdir ++ '/' :: tpl])
      | none => []

/-- A turn of the loop, on `tpl2` and `personalized`. -/
def turn (st : Text × Text) (tfile : Text) : Text × Text :=
  if isFile F (sh.expand tfile) then (st.1 ++ ' ' :: readTemplate sh F tfile, tfile) else st

def baseConf : Text := F.tcosDir ++ lit "/templates/base.conf"

def tcosGetTemplates : Text :=
  let tpl1 := readTemplate sh F (lit "/etc/tcos/tcos.conf")
  let st := (sh.expand (captured (unlines F.found))).foldl (turn sh F) ([], [])
  if captured ((sh.echo (sh.expand st.1)).filter fun c => !isBlank c) ≠ [] then
    sh.echo [baseConf F ++ ' ' :: st.1 ++ ' ' :: st.2]
  else sh.echo [baseConf F ++ ' ' :: tpl1]

/-- The files that are sourced. -/
def sourced : List Text := sh.expand (captured (tcosGetTemplates sh F))

/-! ### Values -/

/-- The file whose value a variable keeps. -/
def kept (ws : List Text) (v : Text) : Option ι := (ws.filterMap F.node).reverse.find? fun i =>
    F.sets i v

def IsPersonal (i : ι) : Prop := ∃ f ∈ F.found, F.node f = some i

/-- The variable is set by a personalised template. -/
def IsOwn (v : Text) : Prop := ∃ i, IsPersonal F i ∧ F.sets i v = true

/-- Each of these variables keeps the value of a personalised template. -/
def Effective : Prop := ∀ v, IsOwn F v → ∃ i, kept F (sourced sh F) v = some i ∧ IsPersonal F i

/-- The bases of the personalised templates. -/
def bases : List Text := F.found.flatMap fun f => fields (readTemplate sh F f)

/-- What is sourced before the personalised template. -/
def below : List Text :=
  baseConf F :: if bases sh F = [] then fields (readTemplate sh F (lit "/etc/tcos/tcos.conf"))
  else bases sh F

/-- The personalised template that is sourced: the last that is found, if any has a base. -/
def last : Option ι := if bases sh F = [] then none else F.found.getLast?.bind F.node

/-- The one that is sourced sets the variable, or of what is sourced before it the last that sets
the variable is a personalised template too. -/
def Fits (v : Text) : Prop :=
  (∃ i, last sh F = some i ∧ F.sets i v = true) ∨ ∃ i, kept F (below sh F) v = some i ∧ IsPersonal F i

/-! ### Words -/

variable {sh F}

/-- Captured and left unquoted. -/
theorem expand_printed {t : Text} (h : ∀ c ∈ t, isPattern c = false) :
    sh.expand (captured (t ++ ['\n'])) = fields t := by
  have hsub : ∀ c ∈ captured (t ++ ['\n']), isPattern c = false := by
    intro c hc
    obtain ⟨k, hk⟩ := Shell.captured_newlines (t ++ ['\n'])
    have hmem : c ∈ t ++ ['\n'] := hk ▸ List.mem_append_left _ hc
    rcases List.mem_append.mp hmem with hmem | hmem
    · exact h c hmem
    · rw [List.mem_singleton] at hmem
      subst hmem
      rfl
  rw [Sh.expand, Shell.expand_fields _ hsub, Shell.fields_captured, fields, Libc.tokens_append_delim rfl]
  rfl

/-- The first word of a path. -/
theorem fields_rooted {t : Text} (h : t.head? = some '/') : ∃ w ws, fields t = w :: ws ∧
    w.head? = some '/' := by
  obtain ⟨s, rfl⟩ : ∃ s, t = '/' :: s := List.head?_eq_some_iff.mp h
  obtain ⟨hsome, htext⟩ := (Shell.respaced_fields s).1 ['/'] (by simp) (by simp [isIfs])
  obtain ⟨w, ws, hws⟩ := List.exists_cons_of_ne_nil hsome
  refine ⟨w, ws, hws, ?_⟩
  have hw := (Shell.mem_fields (hws ▸ List.mem_cons_self ..)).1
  rw [hws, Shell.unwords_cons] at htext
  rw [← List.head?_append_of_ne_nil w hw, htext]
  rfl

/-- A path without patterns and backslashes, if there is one. -/
structure IsRead (t : Text) : Prop where
  plain : ∀ c ∈ t, isPattern c = false ∧ c ≠ '\\'
  rooted : t ≠ [] → t.head? = some '/'

theorem isRead_nil : IsRead [] := ⟨by simp, fun h => absurd rfl h⟩

theorem isRead_captured {t : Text} (h : IsRead (t ++ ['\n'])) : IsRead (captured (t ++ ['\n'])) := by
  obtain ⟨k, hk⟩ := Shell.captured_newlines (t ++ ['\n'])
  refine ⟨fun c hc => h.plain c (hk ▸ List.mem_append_left _ hc), fun hne => ?_⟩
  rw [← List.head?_append_of_ne_nil _ hne, ← hk]
  exact h.rooted (by simp)

theorem not_pattern {c : Char} (h : isInert c = true) : isPattern c = false := by
  simp only [isInert, Bool.and_eq_true, Bool.not_eq_true'] at h
  exact h.2

theorem fixed_inert {t : Text} (h : (t.all fun c => isInert c && c != '\\') = true) :
    ∀ c ∈ t, isInert c = true ∧ c ≠ '\\' := fun c hc => by
  simpa using List.all_eq_true.mp h c hc

theorem fixed_plain {t : Text} (h : (t.all fun c => isInert c && c != '\\') = true) :
    ∀ c ∈ t, isPattern c = false ∧ c ≠ '\\' :=
  fun c hc => ⟨not_pattern (fixed_inert h c hc).1, (fixed_inert h c hc).2⟩

theorem templates_plain : ((lit "/templates").all fun c => isInert c && c != '\\') = true ∧
    ((lit "/etc/tcos/templates").all fun c => isInert c && c != '\\') = true := by
  with_unfolding_all decide

/-- A path under `TCOS_DIR`. -/
theorem dir_plain (F : Files ι) {t : Text} (h : (t.all fun c => isInert c && c != '\\') = true) :
    (∀ c ∈ F.tcosDir ++ t, isPattern c = false ∧ c ≠ '\\') ∧ (F.tcosDir ++ t).head? = some '/' := by
  refine ⟨fun c hc => ?_, ?_⟩
  · rcases List.mem_append.mp hc with hc | hc
    · exact ⟨not_pattern (F.dir c hc).1, (F.dir c hc).2⟩
    · exact fixed_plain h c hc
  · rw [List.head?_append, F.rooted]
    rfl

theorem readTemplate_isRead (path : Text) : IsRead (readTemplate sh F path) := by
  unfold readTemplate
  split
  · exact isRead_nil
  · rename_i i hi
    dsimp only
    split_ifs
    · exact isRead_nil
    · split
      · rename_i tdir htdir
        have hdir : (∀ c ∈ tdir, isPattern c = false ∧ c ≠ '\\') ∧ tdir.head? = some '/' := by
          rcases List.mem_cons.mp (List.mem_of_find?_eq_some htdir) with rfl | hmem
          · exact dir_plain F templates_plain.1
          · rw [List.mem_singleton.mp hmem]
            exact ⟨fixed_plain templates_plain.2, by with_unfolding_all decide⟩
        have hchars : ∀ c ∈ tdir ++ '/' :: tplOf (F.content i), isPattern c = false ∧ c ≠ '\\' := by
          intro c hc
          rcases List.mem_append.mp hc with hc | hc
          · exact hdir.1 c hc
          · rcases List.mem_cons.mp hc with rfl | hc
            · decide
            · exact F.names i c hc
        have hhead : (tdir ++ '/' :: tplOf (F.content i)).head? = some '/' := by
          rw [List.head?_append, hdir.2]
          rfl
        rw [Shell.echo_plain sh (fun h => (hchars _ h).2 rfl) (by rw [hhead]; decide)]
        refine isRead_captured ⟨fun c hc => ?_, fun _ => ?_⟩
        · rcases List.mem_append.mp hc with hc | hc
          · exact hchars c hc
          · rw [List.mem_singleton.mp hc]
            decide
        · rw [List.head?_append, hhead]
          rfl
      · exact isRead_nil

/-- The loop takes each file that is found. -/
theorem expand_found : sh.expand (captured (unlines F.found)) = F.found := by
  rw [Sh.expand]
  refine Shell.expand_captured _ fun f hf => ?_
  obtain ⟨-, hne, hchars⟩ := F.paths f hf
  exact ⟨hne, fun c hc => (hchars c hc).1⟩

theorem isFile_found {f : Text} (h : f ∈ F.found) : isFile F (sh.expand f) = true := by
  obtain ⟨hnode, hne, hchars⟩ := F.paths f h
  rw [Sh.expand, Shell.expand_word _ hne fun c hc => (hchars c hc).1]
  exact hnode

/-- The loop. -/
theorem turns_found (st : Text × Text) {fs : List Text} (h : ∀ f ∈ fs, f ∈ F.found) :
    fs.foldl (turn sh F) st =
      (st.1 ++ fs.flatMap (fun f => ' ' :: readTemplate sh F f), fs.getLast?.getD st.2) := by
  induction fs generalizing st with
  | nil => simp
  | cons f fs ih =>
    rw [List.forall_mem_cons] at h
    rw [List.foldl_cons, turn, if_pos (isFile_found h.1), ih _ h.2, List.flatMap_cons, List.append_assoc]
    cases fs <;> simp [List.getLast?_cons]

theorem fields_turns (t : Text) (fs : List Text) :
    fields (t ++ fs.flatMap fun f => ' ' :: readTemplate sh F f) =
      fields t ++ fs.flatMap fun f => fields (readTemplate sh F f) := by
  induction fs generalizing t with
  | nil => simp
  | cons f fs ih =>
    rw [List.flatMap_cons, ← List.append_assoc, ih, Shell.fields_split rfl, List.append_assoc, List.flatMap_cons]

theorem captured_some {t : Text} {c : Char} (hc : c ∈ t) (hline : c ≠ '\n') : captured t ≠ [] := by
  obtain ⟨k, hk⟩ := Shell.captured_newlines t
  intro hnil
  rw [hnil, List.nil_append] at hk
  rw [hk] at hc
  exact hline (List.eq_of_mem_replicate hc)

/-- The test of `tpl2`. -/
theorem tested_iff {t : Text} (hplain : ∀ c ∈ t, isPattern c = false ∧ c ≠ '\\')
    (hfirst : ∀ w, (fields t).head? = some w → w.head? = some '/') :
    captured ((sh.echo (sh.expand t)).filter fun c => !isBlank c) ≠ [] ↔ fields t ≠ [] := by
  have hwords : sh.expand t = fields t := Shell.expand_fields _ fun c hc => (hplain c hc).1
  have hecho : sh.echo (fields t) = Shell.unwords (fields t) ++ ['\n'] := by
    refine Shell.echo_raw sh (fun w hw hslash => ?_) fun w hw => by rw [hfirst w hw]; decide
    exact (hplain _ ((Shell.mem_fields hw).2.2.subset hslash)).2 rfl
  rw [hwords, hecho]
  constructor
  · rintro h hnil
    rw [hnil] at h
    exact h (by decide)
  · intro hne
    obtain ⟨w, ws, hws⟩ := List.exists_cons_of_ne_nil hne
    have hw : w.head? = some '/' := hfirst w (by rw [hws]; rfl)
    refine captured_some (c := '/') (List.mem_filter.mpr ⟨?_, by decide⟩) (by decide)
    rw [hws, Shell.unwords_cons]
    exact List.mem_append_left _ (List.mem_append_left _ (List.mem_of_mem_head? hw))

theorem head_fields {ts : List Text} (h : ∀ t ∈ ts, IsRead t) (w : Text)
    (hw : (ts.flatMap fields).head? = some w) : w.head? = some '/' := by
  induction ts with
  | nil => simp at hw
  | cons t ts ih =>
    rw [List.forall_mem_cons] at h
    rw [List.flatMap_cons] at hw
    by_cases ht : t = []
    · rw [ht] at hw
      exact ih h.2 hw
    · obtain ⟨v, vs, hvs, hv⟩ := fields_rooted (h.1.rooted ht)
      rw [hvs] at hw
      rwa [← Option.some.inj hw]

theorem baseConf_plain (F : Files ι) :
    ((∀ c ∈ baseConf F, isPattern c = false ∧ c ≠ '\\') ∧ (baseConf F).head? = some '/') ∧
      fields (baseConf F) = [baseConf F] := by
  have hfixed : ((lit "/templates/base.conf").all fun c => isInert c && c != '\\') = true := by
    with_unfolding_all decide
  have hdir := dir_plain F hfixed
  refine ⟨hdir, Shell.fields_word ?_ fun c hc => ?_⟩
  · intro hnil
    rw [baseConf] at hnil
    rw [hnil] at hdir
    exact absurd hdir.2 (by simp)
  · have hinert : isInert c = true := by
      rcases List.mem_append.mp hc with hc | hc
      · exact (F.dir c hc).1
      · exact (fixed_inert hfixed c hc).1
    rw [isInert, Bool.and_eq_true] at hinert
    simpa using hinert.1

/-- What is echoed behind `base.conf`. -/
theorem expand_echo {t : Text} (h : ∀ c ∈ t, isPattern c = false ∧ c ≠ '\\') :
    sh.expand (captured (sh.echo [baseConf F ++ ' ' :: t])) = baseConf F :: fields t := by
  obtain ⟨⟨hbase, hrooted⟩, hfields⟩ := baseConf_plain F
  have hchars : ∀ c ∈ baseConf F ++ ' ' :: t, isPattern c = false ∧ c ≠ '\\' := by
    intro c hc
    rcases List.mem_append.mp hc with hc | hc
    · exact hbase c hc
    · rcases List.mem_cons.mp hc with rfl | hc
      · decide
      · exact h c hc
  have hhead : (baseConf F ++ ' ' :: t).head? = some '/' := by
    rw [List.head?_append, hrooted]
    rfl
  rw [Shell.echo_plain sh (fun hc => (hchars _ hc).2 rfl) (by rw [hhead]; decide),
    expand_printed fun c hc => (hchars c hc).1, Shell.fields_split rfl, hfields]
  rfl

/-- **What is sourced: the base templates, and one personalised template.** -/
theorem sourced_eq : sourced sh F = below sh F ++ if bases sh F = [] then []
    else F.found.getLast?.toList := by
  have hread : ∀ t ∈ F.found.map (readTemplate sh F), IsRead t := fun t ht => by
    obtain ⟨f, -, rfl⟩ := List.mem_map.mp ht
    exact readTemplate_isRead f
  have htpl2 : fields (F.found.flatMap fun f => ' ' :: readTemplate sh F f) = bases sh F := by
    have := @fields_turns _ sh F [] F.found
    rwa [List.nil_append] at this
  have hplain : ∀ c ∈ F.found.flatMap fun f => ' ' :: readTemplate sh F f, isPattern c = false ∧
    c ≠ '\\' := by
    intro c hc
    obtain ⟨f, -, hc⟩ := List.mem_flatMap.mp hc
    rcases List.mem_cons.mp hc with rfl | hc
    · decide
    · exact (readTemplate_isRead f).plain c hc
  have hfirst : ∀ w, (bases sh F).head? = some w → w.head? = some '/' := by
    have := head_fields hread
    rwa [List.flatMap_map] at this
  have hturns := @turns_found _ sh F ([], []) F.found fun f hf => hf
  rw [sourced, tcosGetTemplates, expand_found, hturns]
  simp only [List.nil_append, tested_iff hplain (htpl2 ▸ hfirst), htpl2]
  by_cases hnone : bases sh F = []
  · rw [if_neg (by simpa using hnone), expand_echo (readTemplate_isRead _).plain, below, if_pos hnone,
      if_pos hnone]
    simp
  · rw [if_pos hnone, below, if_neg hnone, if_neg hnone]
    obtain ⟨f, hf⟩ : ∃ f, F.found.getLast? = some f := by
      cases hlast : F.found.getLast? with
      | some f => exact ⟨f, rfl⟩
      | none =>
        rw [List.getLast?_eq_none_iff] at hlast
        exact absurd (by rw [bases, hlast]; rfl) hnone
    obtain ⟨-, hne, hchars⟩ := F.paths f (List.mem_of_getLast? hf)
    have hword : fields f = [f] := Shell.fields_word hne fun c hc => by
      have := (hchars c hc).1
      rw [isInert, Bool.and_eq_true] at this
      simpa using this.1
    rw [hf, Option.getD_some, List.append_assoc, List.cons_append, expand_echo, Shell.fields_split rfl, htpl2,
      hword]
    · rfl
    · intro c hc
      rcases List.mem_append.mp hc with hc | hc
      · exact hplain c hc
      · rcases List.mem_cons.mp hc with rfl | hc
        · decide
        · exact ⟨not_pattern (hchars c hc).1, (hchars c hc).2⟩

/-! ### What keeps its value -/

theorem kept_append (ws : List Text) (w v : Text) :
    kept F (ws ++ [w]) v = match F.node w with
      | none => kept F ws v
      | some i => if F.sets i v then some i else kept F ws v := by
  rw [kept, List.filterMap_append]
  cases hnode : F.node w with
  | none => simp [hnode, kept]
  | some i =>
    simp only [List.filterMap_cons, hnode, List.filterMap_nil, List.reverse_append,
      List.reverse_singleton, List.singleton_append, List.find?_cons, kept]
    split <;> simp_all

/-- **Each variable of a personalised template keeps the value of one if it is set by the one that
is sourced, or else by a personalised template that is also the last base to set it.** -/
theorem effective_iff : Effective sh F ↔ ∀ v, IsOwn F v → Fits sh F v := by
  refine forall_congr' fun v => imp_congr_right fun _ => ?_
  rw [sourced_eq, Fits, last]
  split
  · simp
  · cases hlast : F.found.getLast? with
    | none => simp
    | some f =>
      have hf := List.mem_of_getLast? hlast
      obtain ⟨i, hi⟩ := Option.isSome_iff_exists.mp (F.paths f hf).1
      rw [Option.toList_some, kept_append, hi, Option.bind_some, hi]
      by_cases hset : F.sets i v = true
      · exact iff_of_true ⟨i, if_pos hset, f, hf, hi⟩ (.inl ⟨i, rfl, hset⟩)
      · rw [or_iff_right fun ⟨j, hj, hsets⟩ => hset (Option.some.inj hj ▸ hsets)]
        simp only [if_neg hset]

/-- Where no base is a personalised template, the one that is sourced sets them all. -/
theorem effective_foreign (h : ∀ w ∈ below sh F, ∀ i, F.node w = some i → ¬ IsPersonal F i) :
    Effective sh F ↔ ∀ v, IsOwn F v → ∃ i, last sh F = some i ∧ F.sets i v = true := by
  rw [effective_iff]
  refine forall_congr' fun v => imp_congr_right fun _ => or_iff_left ?_
  rintro ⟨i, hkept, hpersonal⟩
  have hmem := List.mem_reverse.mp (List.mem_of_find?_eq_some hkept)
  obtain ⟨w, hw, hnode⟩ := List.mem_filterMap.mp hmem
  exact h w hw i hnode hpersonal

end Script

/-! ### Two templates -/

/-- The five files. -/
def paths : List Text :=
  [lit "/usr/share/tcos/templates/base.conf", lit "/usr/share/tcos/templates/tcos.conf.all",
    lit "/etc/tcos/tcos.conf", lit "/etc/tcos/templates/a.conf", lit "/etc/tcos/templates/b.conf"]

def contents : List Text :=
  [lit "TCOS_DEBUG_TOOLS=\n", lit "TCOS_DEBUG_TOOLS=1\n", lit "TCOS_TEMPLATE=tcos.conf.all\n",
    lit "TCOS_BASED_TEMPLATE=tcos.conf.all\nTCOS_DEBUG_TOOLS=2\n",
    lit "TCOS_BASED_TEMPLATE=tcos.conf.all\n"]

/-- `a.conf` asks for other debug tools, `b.conf` does not; both are based on `tcos.conf.all`. -/
def twoTemplates : Files (Fin 5) where
  tcosDir := lit "/usr/share/tcos"
  found := paths.drop 3
  node w := paths.finIdxOf? w
  content i := contents.get i
  sets i v := decide (v = lit "TCOS_DEBUG_TOOLS" ∧ i ≠ 2 ∧ i ≠ 4)
  test _ := false
  rooted := by with_unfolding_all decide
  dir := fixed_inert (by with_unfolding_all decide)
  paths f hf := by
    have h : ((paths.drop 3).all fun f => (paths.finIdxOf? f).isSome && !f.isEmpty &&
        f.all fun c => isInert c && c != '\\') = true := by with_unfolding_all decide
    have := List.all_eq_true.mp h f hf
    simp only [Bool.and_eq_true, Bool.not_eq_true', List.isEmpty_eq_false_iff] at this
    exact ⟨this.1.1, this.1.2, fixed_inert this.2⟩
  names i := by
    have h : ((List.finRange 5).all fun i => (tplOf (contents.get i)).all fun c =>
      isInert c && c != '\\') = true := by
      with_unfolding_all decide
    exact fixed_plain (List.all_eq_true.mp h i (List.mem_finRange i))

def bash : Sh := ⟨false, .standard, fun w => [w], Shell.names_self⟩

/-- The value that is kept is that of the base. -/
theorem first_dropped : ¬ Effective bash twoTemplates := by
  intro h
  obtain ⟨i, hkept, hpersonal⟩ :=
    h (lit "TCOS_DEBUG_TOOLS") ⟨3, ⟨_, List.mem_cons_self .., by with_unfolding_all decide⟩,
    by with_unfolding_all decide⟩
  have hbase : kept twoTemplates (sourced bash twoTemplates) (lit "TCOS_DEBUG_TOOLS") = some 1 := by
    with_unfolding_all decide
  rw [hbase, Option.some_inj] at hkept
  subst hkept
  obtain ⟨f, hf, hnode⟩ := hpersonal
  revert f
  with_unfolding_all decide

end Tcos.Scripts.Templates
