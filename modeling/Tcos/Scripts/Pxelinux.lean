import Tcos.Shell.Echo
import Tcos.Sed.Commands

/-! tcos-generation-functions.sh: the boot menu.

`parse_pxelinuxcfg` copies a template and replaces the names in it by one `sed` of ten commands, in
which the values stand as they are. `literal_of_fits` says for which values the menu is the template
with each name replaced; `unknown_option` and `literal_iff` are about the others. -/
namespace Tcos.Scripts.Pxelinux
open Shell (Text lit Sh)
open Sed

/-! ### The script -/

/-- What the menu is made of. -/
structure Boot where
  /-- `[ $TCOS_NETBOOT_MENU ] && [ -z $2 ]`. -/
  menu : Bool
  /-- `[ $TCOS_NETBOOT_MENU_VESA ]`, and so on. -/
  vesa : Bool
  hideInstall : Bool
  hideLocal : Bool
  conf : Text
  pxecfgMenu : Text
  pxecfg : Text
  kernel : Text
  rootPasswd : Text
  logoJpg : Text
  msgHelp1 : Text
  msgHelp2 : Text
  msg : Text
  /-- `date`, in the header and in the commands. -/
  generated : Text
  date : Text
  /-- The text of a template. -/
  cat : Text → Text
  /-- `/etc/tcos/conf.d/` is there. -/
  confd : Bool
  /-- The texts of `pxelinux.menu*.tpl` and of `pxelinux.nomenu*.tpl`. -/
  menus : List Text
  nomenus : List Text

section Parse
variable (sh : Sh) (S : Editor) (b : Boot)

def template : Text := b.conf ++ '/' :: (if b.menu then b.pxecfgMenu else b.pxecfg)

def header : Text :=
  sh.echo [lit "## Generated file don't edit, edit " ++ template b ++ lit " instead"] ++
    sh.echo [lit "## File generated by gentcos on " ++ b.generated]

/-- The template and the extra ones. -/
def body : Text :=
  b.cat (template b) ++ if b.confd then (if b.menu then b.menus else b.nomenus).flatten else []

/-- The names and their values, in the order of the commands. -/
def values : List (Text × Text) :=
  [(lit "__TCOS_KERNEL__", b.kernel),
    (lit "__DATE__", b.date),
    (lit "__TCOS_MENU_TYPE__", if b.vesa then lit "vesamenu.c32" else lit "menu.c32"),
    (lit "__TCOS_NETBOOT_HIDE_INSTALL__", if b.hideInstall then [] else ['#']),
    (lit "__TCOS_NETBOOT_HIDE_LOCAL__", if b.hideLocal then [] else ['#']),
    (lit "__TCOS_MENU_PASSWD__", b.rootPasswd),
    (lit "__TFTP_LOGO_JPG__", b.logoJpg),
    (lit "__TFTP_MSG_HELP1__", b.msgHelp1),
    (lit "__TFTP_MSG_HELP2__", b.msgHelp2),
    (lit "__TFTP_MSG__", b.msg)]

/-- `sed -i`: the file that it writes, if it does. -/
def replaced : Option Text := S.run ((values b).map replacing) (header sh b ++ body b)

/-- `DESTFILE`, before the hooks. -/
def parsePxelinuxcfg : Text := (replaced sh S b).getD (header sh b ++ body b)

/-- The header as it is, and the names of the rest. -/
def parts : List Piece := .text (header sh b) :: pieces ((values b).map Prod.fst) 0 (body b)

/-- No command fails, and the menu is header and template, each name with the value. -/
structure Literal : Prop where
  succeeds : replaced sh S b ≠ none
  file : parsePxelinuxcfg sh S b = header sh b ++ filled (values b)
    (pieces ((values b).map Prod.fst) 0 (body b))

/-! ### Menus -/

theorem isName_values : ∀ x ∈ values b, IsName x.1 ∧ 1 < x.1.length := by
  have hfixed : ([lit "__TCOS_KERNEL__", lit "__DATE__", lit "__TCOS_MENU_TYPE__",
    lit "__TCOS_NETBOOT_HIDE_INSTALL__",
      lit "__TCOS_NETBOOT_HIDE_LOCAL__", lit "__TCOS_MENU_PASSWD__", lit "__TFTP_LOGO_JPG__",
      lit "__TFTP_MSG_HELP1__", lit "__TFTP_MSG_HELP2__", lit "__TFTP_MSG__"].all fun p =>
        decide (1 < p.length) && p.all fun c => c.isAlphanum || c == '_') = true := by
    with_unfolding_all decide
  intro x hx
  have hmem : x.1 ∈ (values b).map Prod.fst := List.mem_map_of_mem hx
  have := List.all_eq_true.mp hfixed x.1 hmem
  simp only [Bool.and_eq_true, decide_eq_true_eq, List.all_eq_true, Bool.or_eq_true, beq_iff_eq] at this
  exact ⟨⟨List.ne_nil_of_length_pos (by omega), this.2⟩, this.1⟩

theorem distinct_values : ((values b).map Prod.fst).Nodup := by
  have hfixed : [lit "__TCOS_KERNEL__", lit "__DATE__", lit "__TCOS_MENU_TYPE__",
    lit "__TCOS_NETBOOT_HIDE_INSTALL__",
      lit "__TCOS_NETBOOT_HIDE_LOCAL__", lit "__TCOS_MENU_PASSWD__", lit "__TFTP_LOGO_JPG__",
      lit "__TFTP_MSG_HELP1__", lit "__TFTP_MSG_HELP2__", lit "__TFTP_MSG__"].Nodup := by
    with_unfolding_all decide
  exact hfixed

/-- Cut into pieces and put together again. -/
theorem shown_parts : shown (parts sh b) = header sh b ++ body b := by
  have hnames : ∀ p ∈ (values b).map Prod.fst, p ≠ [] := by
    intro p hp
    obtain ⟨x, hx, rfl⟩ := List.mem_map.mp hp
    exact (isName_values b x hx).1.1
  rw [parts, shown_cons, shown_pieces hnames]
  rfl

theorem literal_eq : Literal sh S b ↔ replaced sh S b = some (filled (values b) (parts sh b)) := by
  have hparts : filled (values b) (parts sh b) =
      header sh b ++ filled (values b) (pieces ((values b).map Prod.fst) 0 (body b)) := rfl
  rw [hparts]
  constructor
  · rintro ⟨hsome, hfile⟩
    obtain ⟨t, ht⟩ := Option.ne_none_iff_exists'.mp hsome
    rw [parsePxelinuxcfg, ht] at hfile
    rw [ht, ← hfile]
    rfl
  · intro h
    exact ⟨by rw [h]; simp, by rw [parsePxelinuxcfg, h]; rfl⟩

/-- **The menu that the template and the values are for**: each value is read as one replacement,
has no `&` and no backslash where its name stands in the template, and no command reads its name
anywhere else. -/
theorem literal_of_fits (h : Fits (values b) (parts sh b)) : Literal sh S b := by
  rw [literal_eq, replaced, ← shown_parts sh b]
  exact run_fits S (fun x hx => (isName_values b x hx).1) h

/-- **A slash with a letter behind it that is no flag: the menu keeps all its names.** -/
theorem unknown_option {x : Text × Text} (hx : x ∈ values b) {v w : Text} {c : Char}
    (hvalue : x.2 = v ++ '/' :: c :: w) (hclosed : isClosed v = true) (hletter : c.isAlpha = true)
    (hflag : isFlag c = false) : ¬ Literal sh S b ∧ parsePxelinuxcfg sh S b = header sh b ++ body b :=
    by
  obtain ⟨before, after, hsplit⟩ := List.append_of_mem hx
  have hnone : replaced sh S b = none := by
    rw [replaced, hsplit, List.map_append, List.map_cons, ← Prod.mk.eta (p := x), hvalue]
    exact S.refuses _ _ _ _ _ _ (isName_values b x hx).1 hclosed hletter hflag _
  exact ⟨fun h => h.succeeds hnone, by rw [parsePxelinuxcfg, hnone]; rfl⟩

/-- **Values without slashes and backslashes, and names read in the template only: the menu is that
of the template if none with an `&` is put into it.** -/
theorem literal_iff (hclosed : ∀ x ∈ values b, isClosed x.2 = true ∧ '\\' ∉ x.2)
    (hown : OwnAll ((values b).map fun x => (x.1, matched x.2 x.1)) (parts sh b)) :
    Literal sh S b ↔ ∀ x ∈ values b, .name x.1 ∈ parts sh b → '&' ∉ x.2 := by
  rw [literal_eq, replaced, ← shown_parts sh b]
  exact run_plain_iff S (isName_values b) (distinct_values b) hclosed hown

end Parse

/-- A menu with a password. -/
def locked (rootPasswd : Text) : Boot where
  menu := true
  vesa := false
  hideInstall := true
  hideLocal := false
  conf := lit "/etc/tcos"
  pxecfgMenu := lit "pxelinux.menu.cfg.tpl"
  pxecfg := lit "pxelinux.cfg.tpl"
  kernel := lit "2.6.32"
  rootPasswd
  logoJpg := lit "pxetcos.jpg"
  msgHelp1 := lit "help.msg"
  msgHelp2 := lit "help2.msg"
  msg := lit "tcos.msg"
  generated := lit "Mon"
  date := lit "Mon"
  cat _ := lit "DEFAULT __TCOS_MENU_TYPE__\nMENU MASTER PASSWD __TCOS_MENU_PASSWD__\nKERNEL vmlinuz-__TCOS_KERNEL__\n"
  confd := false
  menus := []
  nomenus := []

def dash : Sh := ⟨true, .dash, fun w => [w], Shell.names_self⟩

set_option maxRecDepth 8000 in
theorem literal_of_fits_locked : Literal dash plainSed (locked (lit "secret")) :=
  literal_of_fits _ _ _ ⟨by with_unfolding_all decide, by with_unfolding_all decide,
  by with_unfolding_all decide⟩

set_option maxRecDepth 8000 in
/-- An `&` is the name of the password again. -/
theorem password_spliced : ¬ Literal dash plainSed (locked (lit "r&d")) := fun h =>
  absurd h.file (by with_unfolding_all decide)

end Tcos.Scripts.Pxelinux
