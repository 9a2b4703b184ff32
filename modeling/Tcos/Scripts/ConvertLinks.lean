import Tcos.Files.Walk
import Tcos.Grep.Regex
import Tcos.Shell.Commands
import Tcos.Systems.Run

/-! The links that convert_links2files makes files.

Each link below a directory of the image is removed, and then a copy is made in its place: of the
host's file of that name, or of what the link's text names in the directory of the image.
`converted_iff` says for which images nothing is lost: at each turn, what is copied is there and is
what the link led to. -/
namespace Tcos.Scripts.ConvertLinks
open Shell (Text lit lines unlines captured isInert Glob Echo)
open Files
open Systems (run Every)

/-! ### The function -/

structure Setting (C : Type) where
  /-- `$DESTDIR`, where the function changes to. -/
  dest : Path
  /-- `$TCOS_PKG_CACHE`. -/
  cache : Text
  /-- The files are matched that are there. -/
  glob : Disk C → Glob
  echo : Echo

section Function
variable {C : Type} (s : Setting C)

/-- `$DESTDIR/$xfile`, for the name of an entry. -/
def Setting.place (xfile : Text) : Path := (components xfile).reverse ++ s.dest

/-- `$(readlink $xfile)`. -/
def Setting.readlink (now : Disk C) (xfile : Text) : Text :=
  match now (s.place xfile) with
  | some (.link t) => captured (t ++ ['\n'])
  | _ => []

/-- `$(echo $_link | grep -c ${TCOS_PKG_CACHE}) != 0`. -/
def Setting.cached (now : Disk C) (link : Text) : Bool :=
  (lines (s.echo.print ((s.glob now).expand link))).any (Grep.selects s.cache)

/-- `rm -f $DESTDIR/$xfile`. -/
def Setting.rm (now : Disk C) (xfile : Text) : Disk C := Function.update now (s.place xfile) none

/-- What `cp -f $_link` copies: one file, read in `$DESTDIR`. -/
def Setting.linked (now : Disk C) (link : Text) : Option C :=
  match (s.glob now).expand link with
  | [w] => if w.head? = some '-' then none else content now maxLinks (origin s.dest w) (components w)
  | _ => none

/-- What `/$xfile` is, if it is a file. -/
def host (now : Disk C) (xfile : Text) : Option C := content now maxLinks [] (components xfile)

/-- What is copied after the link is gone. -/
def Setting.copied (now : Disk C) (xfile : Text) : Option C :=
  let link := s.readlink now xfile
  if s.cached now link = true then s.linked (s.rm now xfile) link
  else if (host now xfile).isSome then host (s.rm now xfile) xfile
  else s.linked (s.rm now xfile) link

def Setting.turn (now : Disk C) (xfile : Text) : Disk C :=
  Function.update (s.rm now xfile) (s.place xfile) ((s.copied now xfile).map .file)

end Function

/-- `$1`, as names. -/
def subdirOf : List Text → List Text
  | [] => [lit "usr"]
  | subdir => subdir

/-- An image on the host's disk, and the links that `find` prints of it, in any order. -/
structure Image (C : Type) extends Setting C where
  disk : Disk C
  rooted : Rooted disk
  inside : disk dest = some .dir
  /-- One word, and no option of `grep`. -/
  pattern : cache ≠ [] ∧ cache.head? ≠ some '-' ∧ ∀ c ∈ cache, isInert c = true
  subdir : List Text
  /-- `find` starts there: at names that are no option, and through directories. -/
  start : (slashed (subdirOf subdir)).head? ≠ some '-' ∧
    ∀ n ∈ subdirOf subdir, IsName n ∧ ∀ c ∈ n, isInert c = true
  straight : ∀ d e t, subdirOf subdir = d ++ e → e ≠ [] → disk (d.reverse ++ dest) ≠ some (.link t)
  found : List (List Text)
  nodup : found.Nodup
  names : ∀ x ∈ found, ∀ n ∈ x, IsName n
  /-- The loop reads each of them as one word. -/
  plain : ∀ x ∈ found, ∀ n ∈ x, ∀ c ∈ n, isInert c = true
  listed : ∀ p, (∃ x ∈ found, p = x.reverse ++ dest) ↔
    (subdirOf subdir).reverse ++ dest <:+ p ∧ ∃ t, disk p = some (.link t)

section Image
variable {C : Type} (i : Image C)

/-- `$(find "$subdir" -type l)`. -/
def Image.xfiles : List Text := (i.glob i.disk).expand (captured (unlines (i.found.map slashed)))

def convertLinks2files : Disk C := run i.turn i.disk i.xfiles

/-! ### What should be kept -/

/-- With links and directories on the way, in the image and outside. -/
structure Kept (disk' : Disk C) : Prop where
  /-- A link to a file is a file. -/
  files : ∀ x ∈ i.found, ∀ c, content i.disk maxLinks i.dest x = some c →
    disk' (x.reverse ++ i.dest) = some (.file c)
  read : ∀ cur ns c, i.disk cur = some .dir → content i.disk maxLinks cur ns = some c →
    content disk' maxLinks cur ns = some c
  dirs : ∀ cur ns q, i.disk cur = some .dir → walk i.disk maxLinks cur ns = some q →
    i.disk q = some .dir → ∃ q', walk disk' maxLinks cur ns = some q' ∧ disk' q' = some .dir
  present : ∀ p, i.disk p ≠ none → disk' p ≠ none

/-- There is something to copy, and the link led to nothing else. -/
def Copies (now : Disk C) (xfile : Text) : Prop := ∃ c, i.copied now xfile = some c ∧
  ∀ q, walk i.disk maxLinks i.dest (components xfile) = some q → i.disk q = some (.file c)

/-! ### Names -/

theorem mem_slashed {x : List Text} {c : Char} (h : c ∈ slashed x) : c = '/' ∨ ∃ n ∈ x, c ∈ n := by
  induction x with
  | nil => exact absurd h (by simp [slashed])
  | cons n x ih =>
    by_cases hx : x = []
    · subst hx
      exact .inr ⟨n, by simp, by simpa [slashed] using h⟩
    · rw [slashed, List.intercalate_cons_of_ne_nil hx, ← slashed] at h
      rcases List.mem_append.mp h with h | h
      · rcases List.mem_append.mp h with h | h
        · exact .inr ⟨n, by simp, h⟩
        · exact .inl (List.mem_singleton.mp h)
      · rcases ih h with h | ⟨m, hm, hc⟩
        · exact .inl h
        · exact .inr ⟨m, List.mem_cons_of_mem n hm, hc⟩

/-- A link is not the directory of the image itself. -/
theorem found_some {x : List Text} (hx : x ∈ i.found) : x ≠ [] := by
  rintro rfl
  obtain ⟨-, t, ht⟩ := (i.listed i.dest).mp ⟨[], hx, rfl⟩
  rw [i.inside] at ht
  exact absurd ht (by simp)

/-- The words of the loop are the names. -/
theorem xfiles_eq : i.xfiles = i.found.map slashed := by
  rw [Image.xfiles]
  refine Shell.expand_captured _ fun w hw => ?_
  obtain ⟨x, hx, rfl⟩ := List.mem_map.mp hw
  refine ⟨fun hnil => ?_, fun c hc => ?_⟩
  · have hback := components_slashed (i.names x hx)
    rw [hnil] at hback
    exact found_some i hx hback.symm
  · rcases mem_slashed hc with rfl | ⟨n, hn, hc⟩
    · decide
    · exact i.plain x hx n hn c hc

theorem place_slashed {x : List Text} (hx : x ∈ i.found) :
    i.place (slashed x) = x.reverse ++ i.dest := by
  rw [Setting.place, components_slashed (i.names x hx)]

/-! ### One turn -/

theorem turn_here (s : Setting C) (now : Disk C) (xfile : Text) :
    s.turn now xfile (s.place xfile) = (s.copied now xfile).map .file :=
  Function.update_self ..

theorem turn_away (s : Setting C) (now : Disk C) {xfile : Text} {p : Path} (h : p ≠ s.place xfile) :
    s.turn now xfile p = now p := by
  rw [Setting.turn, Function.update_of_ne h, Setting.rm, Function.update_of_ne h]

theorem run_away (s : Setting C) {xfiles : List Text} {p : Path} (h : ∀ w ∈ xfiles, p ≠ s.place w)
    (now : Disk C) : run s.turn now xfiles p = now p := by
  induction xfiles generalizing now with
  | nil => rfl
  | cons w ws ih =>
    rw [List.forall_mem_cons] at h
    exact (ih h.2 _).trans (turn_away s now h.1)

/-- What the turn of a link leaves in its place stays there. -/
theorem converted_at {before after : List (List Text)} {x : List Text}
    (h : i.found = before ++ x :: after) : convertLinks2files i (x.reverse ++ i.dest) =
      (i.copied (run i.turn i.disk (before.map slashed)) (slashed x)).map .file := by
  have hx : x ∈ i.found := by simp [h]
  have hlater : ∀ w ∈ after.map slashed, x.reverse ++ i.dest ≠ i.place w := by
    intro w hw heq
    obtain ⟨y, hy, rfl⟩ := List.mem_map.mp hw
    rw [place_slashed i (show y ∈ i.found by simp [h, hy]), List.append_cancel_right_eq,
      List.reverse_inj] at heq
    have hnodup := i.nodup
    rw [h, List.nodup_append] at hnodup
    exact (List.nodup_cons.mp hnodup.2.1).1 (heq ▸ hy)
  have hrun : convertLinks2files i = run i.turn
    (i.turn (run i.turn i.disk (before.map slashed)) (slashed x))
      (after.map slashed) := by
    rw [convertLinks2files, xfiles_eq, h, List.map_append, List.map_cons, Systems.run_append]
    rfl
  rw [hrun, run_away i.toSetting hlater, ← place_slashed i hx, turn_here]

/-- A link of the image is in a directory. -/
theorem found_in {x : List Text} (hx : x ∈ i.found) : ∃ d n t, x.reverse ++ i.dest = n :: d ∧ IsName n ∧
    i.disk d = some .dir ∧ i.disk (n :: d) = some (.link t) ∧
    walk i.disk maxLinks i.dest x = walk i.disk maxLinks d [n] := by
  obtain ⟨-, t, ht⟩ := (i.listed _).mp ⟨x, hx, rfl⟩
  obtain ⟨d, n, rfl⟩ : ∃ d n, x = d ++ [n] := by
    rcases List.eq_nil_or_concat x with hnil | ⟨d, n, hx'⟩
    · exact absurd hnil (found_some i hx)
    · exact ⟨d, n, by rw [hx', List.concat_eq_append]⟩
  have hnames := i.names _ hx
  have hplace : (d ++ [n]).reverse ++ i.dest = n :: (d.reverse ++ i.dest) := by simp
  rw [hplace] at ht ⊢
  have hdir : i.disk (d.reverse ++ i.dest) = some .dir := i.rooted.parent n _ (by rw [ht]; simp)
  refine ⟨_, n, t, rfl, hnames n (by simp), hdir, ht, ?_⟩
  exact advance_down i.rooted _ (fun m hm => hnames m (by simp [hm])) hdir [n]

/-- The way from a link. -/
theorem walk_link {disk : Disk C} {d : Path} {n t : Text} (hn : IsName n)
    (ht : disk (n :: d) = some (.link t)) : walk disk maxLinks d [n] = walk disk 39 (origin d t)
    (components t) := by
  have hmax : walk disk maxLinks = advance disk (walk disk 39) := rfl
  rw [hmax, advance, if_neg hn.dot, if_neg hn.dots, ht]
  simp

/-- The way to a file. -/
theorem walk_file {disk : Disk C} {d : Path} {n : Text} {c : C} (hn : IsName n)
    (hc : disk (n :: d) = some (.file c)) : walk disk maxLinks d [n] = some (n :: d) := by
  have hmax : walk disk maxLinks = advance disk (walk disk 39) := rfl
  rw [hmax, advance, if_neg hn.dot, if_neg hn.dots, hc]
  simp

/-! ### Turns that copy -/

/-- So far links are replaced by what they led to. -/
theorem replaced_turn {now : Disk C} (h : Replaced 39 i.disk now) {x : List Text} (hx : x ∈ i.found)
    (hcopies : Copies i now (slashed x)) : Replaced 39 i.disk (i.turn now (slashed x)) := by
  intro p
  by_cases hp : p = i.place (slashed x)
  · subst hp
    obtain ⟨d, n, t, hplace, hn, -, ht, hway⟩ := found_in i hx
    obtain ⟨c, hc, hleads⟩ := hcopies
    rw [components_slashed (i.names x hx), hway, walk_link hn ht] at hleads
    have hturn := turn_here i.toSetting now (slashed x)
    rw [hc, place_slashed i hx, hplace] at hturn
    rw [place_slashed i hx, hplace]
    exact .inr ⟨t, c, ht, hturn, hleads⟩
  · rw [turn_away i.toSetting now hp]
    exact h p

theorem replaced_run {now : Disk C} (h : Replaced 39 i.disk now) {xs : List (List Text)}
    (hxs : ∀ x ∈ xs, x ∈ i.found) (hevery : Every i.turn (Copies i) now (xs.map slashed)) :
    Replaced 39 i.disk (run i.turn now (xs.map slashed)) := by
  induction xs generalizing now with
  | nil => exact h
  | cons x xs ih =>
    rw [List.forall_mem_cons] at hxs
    exact ih (replaced_turn i h hxs.1 hevery.1) hxs.2 hevery.2

/-- Where every turn copies, each link is what it led to. -/
theorem kept_of_copies (h : Every i.turn (Copies i) i.disk i.xfiles) :
    Kept i (convertLinks2files i) := by
  rw [xfiles_eq] at h
  have hreplaced : Replaced 39 i.disk (convertLinks2files i) := by
    rw [convertLinks2files, xfiles_eq]
    exact replaced_run i (Replaced.refl 39 i.disk) (fun _ hx => hx) h
  have halike := walk_replaced i.rooted hreplaced (j := maxLinks) (by decide)
  refine ⟨fun x hx c hc => ?_, fun cur ns c hcur hc => ?_, fun cur ns q hcur hq hdir => ?_,
    fun p hp => ?_⟩
  · obtain ⟨before, after, hfound⟩ := List.append_of_mem hx
    have hturn : Copies i (run i.turn i.disk (before.map slashed)) (slashed x) := by
      rw [hfound, List.map_append, List.map_cons] at h
      exact h.at
    obtain ⟨d, hd, hleads⟩ := hturn
    rw [components_slashed (i.names x hx)] at hleads
    obtain ⟨q, hq, hfile⟩ := content_eq_some.mp hc
    rw [converted_at i hfound, hd, ← hfile, hleads q hq]
    rfl
  · obtain ⟨q, hq, hfile⟩ := content_eq_some.mp hc
    exact content_eq_some.mpr ((halike cur ns q hcur hq).2 c hfile)
  · exact ⟨q, (halike cur ns q hcur hq).1 hdir, hreplaced.dir hdir⟩
  · rcases hreplaced p with hsame | ⟨t, c, -, hfile, -⟩
    · rwa [hsame]
    · rw [hfile]
      simp

/-- What is kept was copied. -/
theorem copies_of_kept (h : Kept i (convertLinks2files i)) {before after : List (List Text)}
    {x : List Text} (hfound : i.found = before ++ x :: after) :
    Copies i (run i.turn i.disk (before.map slashed)) (slashed x) := by
  have hx : x ∈ i.found := by simp [hfound]
  have hat := converted_at i hfound
  obtain ⟨d, n, t, hplace, hn, hd, ht, hway⟩ := found_in i hx
  rw [hplace] at hat
  cases hc : i.copied (run i.turn i.disk (before.map slashed)) (slashed x) with
  | none =>
    rw [hc] at hat
    exact absurd hat (h.present _ (by rw [ht]; simp))
  | some c =>
    rw [hc] at hat
    refine ⟨c, hc, fun q hq => ?_⟩
    rw [components_slashed (i.names x hx)] at hq
    rcases walk_lands i.rooted maxLinks i.dest x q i.inside hq with hdir | ⟨e, he⟩
    · -- a link to a directory would be a file now
      obtain ⟨q', hq', hdir'⟩ := h.dirs d [n] q hd (hway ▸ hq) hdir
      rw [walk_file hn hat, Option.some_inj] at hq'
      rw [← hq', hat] at hdir'
      exact absurd hdir' (by simp)
    · have hkept := h.files x hx e (content_eq_some.mpr ⟨q, hq, he⟩)
      rw [hplace, hat] at hkept
      rw [he]
      simpa using hkept.symm

/-- **Exactly these images are kept.** -/
theorem converted_iff : Kept i (convertLinks2files i) ↔ Every i.turn (Copies i) i.disk i.xfiles := by
  refine ⟨fun h => ?_, kept_of_copies i⟩
  rw [xfiles_eq, Systems.every_iff]
  intro before w after hsplit
  obtain ⟨ws, rest, hfound, rfl, hrest⟩ := List.map_eq_append_iff.mp hsplit
  obtain ⟨x, xs, rfl, rfl, -⟩ := List.map_eq_cons_iff.mp hrest
  exact copies_of_kept i h hfound

end Image

/-! ### A relative link -/

/-- `lib/z` is a link to `z1`, next to it; the host has neither. -/
def relativeDisk : Disk Nat := fun p =>
  if p = [] ∨ p = [['d']] ∨ p = [['l', 'i', 'b'], ['d']] then some .dir
  else if p = [['z', '1'], ['l', 'i', 'b'], ['d']] then some (.file 1)
  else if p = [['z'], ['l', 'i', 'b'], ['d']] then some (.link ['z', '1'])
  else none

def relativePaths : List Path :=
  [[], [['d']], [['l', 'i', 'b'], ['d']], [['z', '1'], ['l', 'i', 'b'], ['d']],
    [['z'], ['l', 'i', 'b'], ['d']]]

theorem mem_relativePaths {p : Path} (h : relativeDisk p ≠ none) : p ∈ relativePaths := by
  by_contra hno
  simp only [relativePaths, List.mem_cons, List.not_mem_nil, or_false, not_or] at hno
  obtain ⟨hroot, hdest, hlib, hfile, hlink⟩ := hno
  refine h ?_
  rw [relativeDisk, if_neg (by rintro (h | h | h) <;> contradiction), if_neg hfile, if_neg hlink]

def relative : Image Nat where
  dest := [['d']]
  cache := lit "/var/cache/tcos/packages"
  glob _ w := [w]
  echo := .simple
  disk := relativeDisk
  rooted := by
    refine ⟨by decide, fun n p h => ?_⟩
    have hall : ∀ q ∈ relativePaths, q = [] ∨ relativeDisk q.tail = some .dir := by decide
    simpa using hall _ (mem_relativePaths h)
  inside := by decide
  pattern := ⟨by with_unfolding_all decide, by with_unfolding_all decide,
    List.all_eq_true.mp (by with_unfolding_all decide)⟩
  subdir := [['l', 'i', 'b']]
  start := by
    refine ⟨by decide, fun n hn => ?_⟩
    rw [List.mem_singleton.mp hn]
    exact ⟨⟨by decide, by decide, by decide, by decide⟩,
      List.all_eq_true.mp (by with_unfolding_all decide)⟩
  straight d e t h he := by
    rcases List.append_eq_cons_iff.mp h.symm with ⟨rfl, -⟩ | ⟨d, rfl, hnil⟩
    · rw [show relativeDisk ([].reverse ++ [['d']]) = some .dir by decide]
      simp
    · exact absurd (List.append_eq_nil_iff.mp hnil.symm).2 he
  found := [[['l', 'i', 'b'], ['z']]]
  nodup := by decide
  names x hx n hn := by
    rw [List.mem_singleton.mp hx] at hn
    have hnames : ∀ n ∈ [['l', 'i', 'b'], ['z']], n ≠ [] ∧ '/' ∉ n ∧ n ≠ ['.'] ∧ n ≠ ['.', '.'] := by
      decide
    exact ⟨(hnames n hn).1, (hnames n hn).2.1, (hnames n hn).2.2.1, (hnames n hn).2.2.2⟩
  plain x hx n hn := by
    rw [List.mem_singleton.mp hx] at hn
    have hplain : ∀ n ∈ [['l', 'i', 'b'], ['z']], n.all isInert = true := by with_unfolding_all decide
    exact List.all_eq_true.mp (hplain n hn)
  listed p := by
    constructor
    · rintro ⟨x, hx, rfl⟩
      rw [List.mem_singleton.mp hx]
      exact ⟨by decide, ['z', '1'], by decide⟩
    · rintro ⟨-, t, ht⟩
      have hall : ∀ q ∈ relativePaths, q = [['z'], ['l', 'i', 'b'], ['d']] ∨ relativeDisk q = some .dir ∨
        relativeDisk q = some (.file 1) := by decide
      rcases hall p (mem_relativePaths (by rw [ht]; simp)) with h | h | h
      · exact ⟨_, List.mem_singleton_self _, h⟩
      · exact absurd (h.symm.trans ht) (by simp)
      · exact absurd (h.symm.trans ht) (by simp)

/-- The link is removed, and its text names nothing where it is read. -/
theorem relative_lost : ¬ Kept relative (convertLinks2files relative) := by
  intro h
  have hlinked : relative.linked (relative.rm relative.disk (slashed [['l', 'i', 'b'], ['z']]))
    ['z', '1'] = none := by
    decide
  have hhost : host relative.disk (slashed [['l', 'i', 'b'], ['z']]) = none := by decide
  have hlink : relative.readlink relative.disk (slashed [['l', 'i', 'b'], ['z']]) = ['z', '1'] := by
    decide
  have hcopied : relative.copied relative.disk (slashed [['l', 'i', 'b'], ['z']]) = none := by
    rw [Setting.copied, hlink, hlinked, hhost]
    simp
  have hfound : relative.found = [] ++ [['l', 'i', 'b'], ['z']] :: [] := rfl
  have hat := converted_at relative hfound
  rw [List.map_nil, run, List.foldl_nil, hcopied] at hat
  exact h.present [['z'], ['l', 'i', 'b'], ['d']] (by decide) hat

end Tcos.Scripts.ConvertLinks
