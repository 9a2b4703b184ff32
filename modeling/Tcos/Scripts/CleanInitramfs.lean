import Tcos.Files.Links
import Tcos.Libc.Text
import Tcos.Systems.Run

/-! The links of clean_initramfs.

When the image is built, `create_link` removes a file that is equal to another one and notes a link
for it; at boot 00linkcreator makes the links. `preserved_iff` says for which trees no file is lost
and no path leads back to itself: those in which no call removes a path that the other one leads
through. -/
namespace Tcos.Scripts.CleanInitramfs
open Shell (Text lit)
open Libc
open Files
open Systems (Every run)

/-! ### The scripts -/

/-- The names of a path. `//` is one slash. -/
abbrev Path := List Text

def place (t : Text) : Path := tokens (· == '/') t

structure State (C : Type) where
  tree : Tree Path C
  /-- `/conf/links`: of each line the target and the link. -/
  links : List (Text × Text)

section Scripts
variable {C : Type} [DecidableEq C]

/-- `-e` of both, `cmp`, `rm -f` and the note. All three follow links but `rm`. -/
def createLink (s : State C) (arg : Text × Text) : State C :=
  match s.tree.read (place arg.1), s.tree.read (place arg.2) with
  | some c, some d =>
    if c = d then ⟨s.tree.rm (place arg.1), s.links ++ [(arg.2, arg.1)]⟩ else s
  | _, _ => s

/-- `ln -s $line`. -/
def lnLine (t : Tree Path C) (line : Text × Text) : Tree Path C := t.ln (place line.1) (place line.2)

/-- 00linkcreator. -/
def linkcreator (s : State C) : Tree Path C := s.links.foldl lnLine s.tree

/-- The calls, in their order. `LIB_MULTIARCH` is `/lib/` where there is no multiarch. -/
def calls (libMultiarch : Text) : List (Text × Text) :=
  [(lit "/usr/bin/mcopy", lit "/usr/bin/mattrib"), (lit "/usr/bin/mcopy", lit "/usr/bin/mcat"),
    (lit "/usr/bin/mcopy", lit "/usr/bin/mcopy"), (lit "/usr/bin/mcopy", lit "/usr/bin/mdel"),
    (lit "/usr/bin/mcopy", lit "/usr/bin/mformat"), (lit "/usr/bin/mcopy", lit "/usr/bin/minfo"),
    (lit "/usr/bin/mcopy", lit "/usr/bin/mlabel"), (lit "/usr/bin/mcopy", lit "/usr/bin/mmove"),
    (lit "/usr/bin/mcopy", lit "/usr/bin/mmount"), (lit "/usr/bin/mcopy", lit "/usr/bin/mtype"),
    (libMultiarch ++ lit "/libpci.so.3", lit "/lib/libpci.so.3"),
      (lit "/usr/lib/libz.so.1", lit "/lib/libz.so.1"),
    (lit "/etc/console/boottime.kmap.gz", lit "/etc/boottime.kmap.gz"),
    (lit "/usr/share/X11/xkb/symbols/sun_vndr/cz", lit "/usr/share/X11/xkb/symbols/sun_vndr/cs"),
    (lit "/usr/lib/xorg/modules/drivers/i810_drv.so", lit "/usr/lib/xorg/modules/drivers/intel_drv.so"),
    (lit "/usr/share/X11/xkb/rules/evdev.lst", lit "/usr/share/X11/xkb/rules/base.lst"),
    (lit "/sbin/mke2fs", lit "/sbin/mkfs.ext3"), (lit "/sbin/mke2fs", lit "/sbin/mkfs.ext4")]

/-- The tree after the calls and the boot. -/
def booted (t : Tree Path C) (args : List (Text × Text)) : Tree Path C :=
  linkcreator (run createLink ⟨t, []⟩ args)

/-! ### What should be preserved -/

structure Preserved (before after : Tree Path C) : Prop where
  /-- What resolved to a file resolves to the same content. -/
  content : ∀ p c, before.read p = some c → after.read p = some c
  acyclic : Acyclic after.get

/-- If the call removes its first path, the second one does not lead through it. -/
def Apart (s : State C) (arg : Text × Text) : Prop :=
  ∀ c, s.tree.read (place arg.1) = some c → s.tree.read (place arg.2) = some c →
    ¬ Visits s.tree.get (place arg.2) (place arg.1)

/-- There is no cycle, and every call keeps its two paths apart. -/
def Sound (t : Tree Path C) (args : List (Text × Text)) : Prop :=
  Acyclic t.get ∧ Every createLink Apart ⟨t, []⟩ args

/-! ### One call -/

/-- A call does nothing, or replaces a file by a note. -/
theorem createLink_cases (s : State C) (arg : Text × Text) :
    createLink s arg = s ∨ ∃ c, Reads s.tree.get (place arg.1) c ∧ Reads s.tree.get (place arg.2) c ∧
      createLink s arg = ⟨s.tree.rm (place arg.1), s.links ++ [(arg.2, arg.1)]⟩ := by
  unfold createLink
  cases ha : s.tree.read (place arg.1) with
  | none => exact .inl rfl
  | some c =>
    cases hb : s.tree.read (place arg.2) with
    | none => exact .inl rfl
    | some d =>
      by_cases hcd : c = d
      · subst hcd
        exact .inr ⟨c, (Tree.read_iff ..).mp ha, (Tree.read_iff ..).mp hb, by simp⟩
      · exact .inl (by simp [hcd])

/-- Each link that is noted has no file in its place. -/
def Noted (s : State C) : Prop := ∀ line ∈ s.links, s.tree.get (place line.2) = none

theorem within_createLink (s : State C) (arg : Text × Text) :
    Within (createLink s arg).tree.get s.tree.get := by
  rcases createLink_cases s arg with h | ⟨c, -, -, h⟩
  · rw [h]
    exact fun _ _ hp => hp
  · rw [h]
    intro p n hp
    rw [Tree.get_rm] at hp
    by_cases hpa : p = place arg.1
    · simp [hpa] at hp
    · simpa [hpa] using hp

theorem noted_createLink {s : State C} (h : Noted s) (arg : Text × Text) : Noted (createLink s arg) := by
  have hgone : ∀ p, s.tree.get p = none → (createLink s arg).tree.get p = none := by
    intro p hp
    cases hn : (createLink s arg).tree.get p with
    | none => rfl
    | some n => exact absurd (within_createLink s arg p n hn) (by simp [hp])
  intro line hline
  rcases createLink_cases s arg with hsame | ⟨c, -, -, hcall⟩
  · rw [hsame] at hline ⊢
    exact h line hline
  · rw [hcall] at hline
    rcases List.mem_append.mp hline with hold | hnew
    · exact hgone _ (h line hold)
    · rw [List.mem_singleton.mp hnew, hcall, Tree.get_rm]
      exact Function.update_self ..

/-! ### The boot -/

omit [DecidableEq C] in
theorem within_lnLine (t : Tree Path C) (line : Text × Text) : Within t.get (lnLine t line).get :=
  t.within_ln _ _

omit [DecidableEq C] in
theorem within_lines (t : Tree Path C) (lines : List (Text × Text)) :
    Within t.get (lines.foldl lnLine t).get := by
  induction lines generalizing t with
  | nil => exact fun _ _ hp => hp
  | cons line lines ih => exact fun p n hp => ih _ p n (within_lnLine t line p n hp)

omit [DecidableEq C] in
/-- Lines for other places make no difference at `a`, and it makes none to them. -/
theorem lines_apart {t u : Tree Path C} {a : Path} {n : Option (Node Path C)}
    (hu : u.get = Function.update t.get a n) {lines : List (Text × Text)}
    (hlines : ∀ line ∈ lines, place line.2 ≠ a) :
    (lines.foldl lnLine u).get = Function.update (lines.foldl lnLine t).get a n := by
  induction lines generalizing t u with
  | nil => exact hu
  | cons line lines ih =>
    rw [List.forall_mem_cons] at hlines
    refine ih ?_ hlines.2
    have hget : u.get (place line.2) = t.get (place line.2) := by
      rw [hu, Function.update_of_ne hlines.1]
    cases h : t.get (place line.2) with
    | none =>
      rw [lnLine, lnLine, Tree.get_ln _ (hget.trans h), Tree.get_ln _ h, hu,
        Function.update_comm hlines.1]
    | some m =>
      rw [lnLine, lnLine, Tree.ln, Tree.ln, hget, h]
      exact hu

omit [DecidableEq C] in
theorem lines_absent {t : Tree Path C} {a : Path} (ha : t.get a = none) {lines : List (Text × Text)}
    (hlines : ∀ line ∈ lines, place line.2 ≠ a) : (lines.foldl lnLine t).get a = none := by
  have hsame : t.get = Function.update t.get a none := by rw [← ha, Function.update_eq_self]
  rw [lines_apart hsame hlines]
  exact Function.update_self ..

omit [DecidableEq C] in
/-- **A file that is removed and noted is a link after the boot, and all else is as it was.** -/
theorem boot_removed {s : State C} (hnoted : Noted s) {a b : Text} (ha : s.tree.get (place a) ≠ none) :
    (linkcreator (⟨s.tree.rm (place a), s.links ++ [(b, a)]⟩ : State C)).get =
      Function.update (linkcreator s).get (place a) (some (.link (place b))) := by
  have hlines : ∀ line ∈ s.links, place line.2 ≠ place a := by
    intro line hline heq
    exact ha (heq ▸ hnoted line hline)
  have hrest := lines_apart (Tree.get_rm s.tree (place a)) hlines
  have hgone : (s.links.foldl lnLine (s.tree.rm (place a))).get (place a) = none := by
    rw [hrest]
    exact Function.update_self ..
  rw [linkcreator, List.foldl_append, List.foldl_cons, List.foldl_nil, lnLine, Tree.get_ln _ hgone,
    hrest, Function.update_idem]
  rfl

/-! ### Calls that keep their paths apart -/

/-- The image could be booted now. -/
structure Bootable (t : Tree Path C) (s : State C) : Prop where
  noted : Noted s
  content : ∀ p c, Reads t.get p c → Reads (linkcreator s).get p c
  acyclic : Acyclic (linkcreator s).get

theorem bootable_step (t : Tree Path C) (s : State C) (arg : Text × Text) (h : Bootable t s)
    (hapart : Apart s arg) : Bootable t (createLink s arg) := by
  rcases createLink_cases s arg with hsame | ⟨c, ha, hb, hcall⟩
  · rw [hsame]
    exact h
  · have hwithin := within_lines s.tree s.links
    have haway : ¬ Visits (linkcreator s).get (place arg.2) (place arg.1) := by
      -- the way to a file is all there before the boot
      intro hvisit
      refine hapart c ((Tree.read_iff ..).mpr ha) ((Tree.read_iff ..).mpr hb) ?_
      exact hb.visits_within hwithin hvisit
    have hboot : (linkcreator (createLink s arg)).get =
        Function.update (linkcreator s).get (place arg.1) (some (.link (place arg.2))) := by
      rw [hcall, boot_removed h.noted ha.present]
    refine ⟨noted_createLink h.noted arg, fun p d hd => ?_, ?_⟩
    · rw [hboot]
      exact reads_relink (ha.mono hwithin) (hb.mono hwithin) haway (h.content p d hd)
    · rw [hboot]
      exact acyclic_relink h.acyclic (hb.mono hwithin) haway

theorem preserved_of_sound {t : Tree Path C} {args : List (Text × Text)} (h : Sound t args) :
    Preserved t (booted t args) := by
  have hstart : Bootable t (⟨t, []⟩ : State C) :=
    ⟨fun _ hline => absurd hline (by simp), fun _ _ hc => hc, h.1⟩
  have hend := Systems.invariant_of_every (bootable_step t) hstart h.2
  refine ⟨fun p c hc => ?_, hend.acyclic⟩
  exact (Tree.read_iff ..).mpr (hend.content p c ((Tree.read_iff ..).mp hc))

/-! ### Calls that do not -/

theorem within_run (s : State C) (args : List (Text × Text)) :
    Within (run createLink s args).tree.get s.tree.get := by
  induction args generalizing s with
  | nil => exact fun _ _ hp => hp
  | cons arg args ih => exact fun p n hp => within_createLink s arg p n (ih _ p n hp)

theorem links_run (s : State C) (args : List (Text × Text)) :
    ∃ more, (run createLink s args).links = s.links ++ more := by
  induction args generalizing s with
  | nil => exact ⟨[], by simp [run]⟩
  | cons arg args ih =>
    obtain ⟨more, hmore⟩ := ih (createLink s arg)
    rcases createLink_cases s arg with hsame | ⟨c, -, -, hcall⟩
    · exact ⟨more, hmore.trans (congrArg (fun s => s.links ++ more) hsame)⟩
    · exact ⟨(arg.2, arg.1) :: more, hmore.trans (by rw [hcall]; simp)⟩

/-- What does not resolve is not removed. -/
theorem stuck_createLink {s : State C} {p : Path} {n : Node Path C} (hp : s.tree.get p = some n)
    (hstuck : ∀ c, ¬ Reads s.tree.get p c) (arg : Text × Text) :
    (createLink s arg).tree.get p = some n := by
  rcases createLink_cases s arg with hsame | ⟨c, ha, -, hcall⟩
  · rw [hsame]
    exact hp
  · have hne : p ≠ place arg.1 := by
      rintro rfl
      exact hstuck c ha
    rw [hcall, Tree.get_rm, Function.update_of_ne hne]
    exact hp

theorem stuck_run {s : State C} {p : Path} {n : Node Path C} (hp : s.tree.get p = some n)
    (hstuck : ∀ c, ¬ Reads s.tree.get p c) (args : List (Text × Text)) :
    (run createLink s args).tree.get p = some n := by
  induction args generalizing s with
  | nil => exact hp
  | cons arg args ih =>
    refine ih (stuck_createLink hp hstuck arg) fun c hc => hstuck c ?_
    exact hc.mono (within_createLink s arg)

/-- Nor is a way that leads nowhere. -/
theorem visits_run {s : State C} {p q : Path} (hpq : Visits s.tree.get p q)
    (hstuck : ∀ c, ¬ Reads s.tree.get q c) (args : List (Text × Text)) :
    Visits (run createLink s args).tree.get p q := by
  induction hpq using Relation.ReflTransGen.head_induction_on with
  | refl => exact .refl
  | head hnext hrest ih =>
    refine .head (stuck_run hnext (fun c hc => ?_) args) ih
    exact hstuck c (hc.visited (.head hnext hrest))

/-- A cycle stays one. -/
theorem acyclic_of_booted {t : Tree Path C} {args : List (Text × Text)}
    (h : Acyclic (booted t args).get) : Acyclic t.get := by
  intro p hcycle
  obtain ⟨q, hnext, hback⟩ := Relation.TransGen.head'_iff.mp hcycle
  have hstuck : ∀ c, ¬ Reads t.get p c := fun c hc => hc.not_cycle hcycle
  have hwithin := within_lines (run createLink (⟨t, []⟩ : State C) args).tree
    (run createLink (⟨t, []⟩ : State C) args).links
  have hfirst := stuck_run (s := ⟨t, []⟩) hnext hstuck args
  have hrest := visits_run (s := ⟨t, []⟩) hback hstuck args
  exact h p (Relation.TransGen.head' (hwithin _ _ hfirst) (hrest.within hwithin))

/-- A removed path that the other one leads through is on a cycle after the boot. -/
theorem cycle_of_removed {s : State C} (hnoted : Noted s) {a b : Text} {c : C}
    (ha : Reads s.tree.get (place a) c) (hvisit : Visits s.tree.get (place b) (place a))
    {s' : State C} (hs' : s' = ⟨s.tree.rm (place a), s.links ++ [(b, a)]⟩) (args : List (Text × Text)) :
    ¬ Acyclic (linkcreator (run createLink s' args)).get := by
  have hget : s'.tree.get = Function.update s.tree.get (place a) none := by rw [hs', Tree.get_rm]
  have hgone : s'.tree.get (place a) = none := by rw [hget, Function.update_self]
  have hback : Visits s'.tree.get (place b) (place a) := hget ▸ visits_until hvisit none
  have hstuck : ∀ c, ¬ Reads s'.tree.get (place a) c := fun c hc => hc.present hgone
  obtain ⟨more, hmore⟩ := links_run s' args
  have hlinks : (run createLink s' args).links = s.links ++ (b, a) :: more := by
    rw [hmore, hs', List.append_assoc, List.singleton_append]
  have hend : (run createLink s' args).tree.get (place a) = none := by
    cases hn : (run createLink s' args).tree.get (place a) with
    | none => rfl
    | some n => exact absurd (within_run s' args _ n hn) (by simp [hgone])
  -- the note makes the link, and no other one does
  have hfirst : ((s.links.foldl lnLine (run createLink s' args).tree)).get (place a) = none := by
    refine lines_absent hend fun line hline heq => ?_
    exact ha.present (heq ▸ hnoted line hline)
  have hlink : Next (linkcreator (run createLink s' args)).get (place a) (place b) := by
    rw [linkcreator, hlinks, List.foldl_append, List.foldl_cons]
    refine within_lines _ more _ _ ?_
    rw [lnLine, Tree.get_ln _ hfirst]
    exact Function.update_self ..
  have hway := Visits.within (within_lines (run createLink s' args).tree (run createLink s' args).links)
    (visits_run hback hstuck args)
  exact fun hacyclic => hacyclic _ (Relation.TransGen.head' hlink hway)

theorem apart_of_acyclic {s : State C} (hnoted : Noted s) {args : List (Text × Text)}
    (h : Acyclic (linkcreator (run createLink s args)).get) : Every createLink Apart s args := by
  induction args generalizing s with
  | nil => trivial
  | cons arg args ih =>
    refine ⟨fun c ha hb hvisit => ?_, ih (noted_createLink hnoted arg) h⟩
    have hcall : createLink s arg = ⟨s.tree.rm (place arg.1), s.links ++ [(arg.2, arg.1)]⟩ := by
      simp [createLink, ha, hb]
    exact cycle_of_removed hnoted ((Tree.read_iff ..).mp ha) hvisit hcall args h

/-- **After the boot every file is there and no path leads back to itself exactly if no path did
before and every call keeps its two paths apart.** -/
theorem preserved_iff (libMultiarch : Text) (t : Tree Path C) :
    Preserved t (booted t (calls libMultiarch)) ↔ Sound t (calls libMultiarch) := by
  refine ⟨fun h => ⟨acyclic_of_booted h.acyclic, ?_⟩, preserved_of_sound⟩
  exact apart_of_acyclic (fun _ hline => absurd hline (by simp)) h.acyclic

/-! ### An image with one of the mtools -/

/-- The paths that are named resolve or are absent. -/
def Plain (libMultiarch : Text) (t : Tree Path C) : Prop :=
  ∀ arg ∈ calls libMultiarch, ∀ p, p = place arg.1 ∨ p = place arg.2 →
    t.get p = none ∨ ∃ c, t.read p = some c

def onlyMcopy : Tree Path Text := [(place (lit "/usr/bin/mcopy"), .file [])]

theorem onlyMcopy_get (p : Path) :
    onlyMcopy.get p = if p = place (lit "/usr/bin/mcopy") then some (.file []) else none :=
  Tree.get_cons ..

theorem onlyMcopy_read : onlyMcopy.read (place (lit "/usr/bin/mcopy")) = some [] :=
  (Tree.read_iff ..).mpr (.file (by rw [onlyMcopy_get, if_pos rfl]))

/-- A call with an absent second path. -/
theorem createLink_absent {s : State C} {arg : Text × Text} (h : s.tree.get (place arg.2) = none) :
    createLink s arg = s := by
  rcases createLink_cases s arg with hsame | ⟨c, -, hb, -⟩
  · exact hsame
  · exact absurd h hb.present

/-- The only copy of the file is removed for a link to itself. -/
theorem only_mcopy_lost : ¬ ∀ (libMultiarch : Text) (t : Tree Path Text), Plain libMultiarch t →
    Preserved t (booted t (calls libMultiarch)) := by
  intro hall
  have hplain : Plain (lit "/lib/i386-linux-gnu") onlyMcopy := by
    intro arg _ p _
    by_cases hp : p = place (lit "/usr/bin/mcopy")
    · exact .inr ⟨[], by rw [hp, onlyMcopy_read]⟩
    · exact .inl (by rw [onlyMcopy_get, if_neg hp])
  have hevery := apart_of_acyclic (s := ⟨onlyMcopy, []⟩) (fun _ hline => absurd hline (by simp))
    (hall _ _ hplain).acyclic
  have hsame : ∀ b, place b ≠ place (lit "/usr/bin/mcopy") →
      createLink ⟨onlyMcopy, []⟩ (lit "/usr/bin/mcopy", b) = ⟨onlyMcopy, []⟩ := fun b hb =>
    createLink_absent (by rw [onlyMcopy_get, if_neg hb])
  have hfirst := hsame (lit "/usr/bin/mattrib") (by with_unfolding_all decide)
  have hsecond := hsame (lit "/usr/bin/mcat") (by with_unfolding_all decide)
  have hthird : Apart (run createLink (⟨onlyMcopy, []⟩ : State Text)
    [(lit "/usr/bin/mcopy", lit "/usr/bin/mattrib"),
      (lit "/usr/bin/mcopy", lit "/usr/bin/mcat")]) (lit "/usr/bin/mcopy", lit "/usr/bin/mcopy") :=
        Every.at hevery
  simp only [run, List.foldl_cons, List.foldl_nil, hfirst, hsecond] at hthird
  exact hthird [] onlyMcopy_read onlyMcopy_read .refl

end Scripts

end Tcos.Scripts.CleanInitramfs
