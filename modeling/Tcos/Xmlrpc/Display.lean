import Tcos.Xmlrpc.Handlers

/-! Whose display the cookie check asks.

`handle_xauth` opens the display of the servername, and takes any address for one.
Three handlers give it the servername of the request as it stands; `own_display_iff`
says when a request can still only be let in by a display of this machine. -/
namespace Tcos.Xmlrpc
open Shell (Text lit)

/-- If the cookie check passed, the display that opened is this machine's own. -/
def OwnDisplay (e : Env) (addresses : List Text) (o : Outcome) : Prop :=
  ∀ run, o.check = some (.xauth run) → run.code = .ok →
    ∃ d, run.display = some (d ++ lit ":0") ∧ (d = e.hostname.name ∨ d ∈ addresses)

/-- The servername a request gives to the cookie check, and its cookie. -/
def asked (e : Env) : Request → Option (Text × Text)
  | .xauth cookie hostname => some (cookie, hostname)
  | .devices option _ cookie hostname =>
    if option = lit "--getxdrivers" then none else some (cookie, hostname)
  | .pamusb option _ cookie hostname => if initusb <+: option then none else some (cookie, hostname)
  | .config _ _ user pass | .sound _ _ user pass | .rebootpoweroff _ _ user pass =>
    -- these three compare the name with their own first
    if pass = e.hostname.name ∨ pass = (checkIpAddress e.ownStack e.ipString).ipstr then
      some (user, pass)
    else none
  | _ => none

/-! ### The check a request meets -/

@[simp] theorem needXauth_check (e : Env) (cookie hostname refused : Text) (go : Outcome) :
    (needXauth e cookie hostname refused go).check = some (.xauth (handleXauth e cookie hostname)) := by
  unfold needXauth
  dsimp only
  split <;> rfl

@[simp] theorem needLogin_check (e : Env) (user pass : Text) (refused : Text → List Text)
(go : Outcome) :
    (needLogin e user pass refused go).check = some (.login (e.validateLogin user pass)) := by
  unfold needLogin
  dsimp only
  split <;> rfl

theorem needOwn_check (b : Build) (e : Env) (user pass : Text) (go : Outcome) :
    (needOwnXauthOrLogin b e user pass go).check =
      if pass = e.hostname.name ∨ pass = (checkIpAddress e.ownStack e.ipString).ipstr then
        some (.xauth (handleXauth e user pass))
      else some (.login (e.validateLogin user pass)) := by
  unfold needOwnXauthOrLogin
  dsimp only
  split <;> simp

@[simp] theorem answerLine_check (e : Env) (size : Nat) (before : Text) (failed : Option Text)
    (cmd : Line) : (answerLine e size before failed cmd).check = none := rfl

theorem standalone_check (b : Build) (e : Env) (info group : Text) :
    (tcosStandalone b e info group).check = none := by
  unfold tcosStandalone
  dsimp only
  split_ifs <;> rfl

theorem pci_check (e : Env) (pci : Text) : (tcosPci e pci).check = none := by
  unfold tcosPci
  dsimp only
  split_ifs <;> rfl

theorem info_check (b : Build) (e : Env) (info : Text) : (tcosInfo b e info).check = none := by
  unfold tcosInfo
  split <;> rfl

/-- An option that starts with `initusb` is neither a pad to read nor one to write. -/
theorem initusb_facts {option : Text} (h : initusb <+: option) :
    option ≠ lit "getpad" ∧ ¬ lit "/mnt/" <+: option ∧ ¬ lit "//mnt/" <+: option := by
  refine ⟨?_, fun h' => ?_, fun h' => ?_⟩
  · rintro rfl
    exact absurd h (by with_unfolding_all decide)
  · exact absurd (List.prefix_of_prefix_length_le h' h (by with_unfolding_all decide))
      (by with_unfolding_all decide)
  · exact absurd (List.prefix_of_prefix_length_le h' h (by with_unfolding_all decide))
      (by with_unfolding_all decide)

/-- Such an option reaches the wrapper without a check. -/
theorem pamUsb_initusb (b : Build) (e : Env) {option : Text} (h : initusb <+: option)
    (cmdline cookie hostname : Text) :
    tcosPamUsb b e option cmdline cookie hostname =
      answerLine e bsize (lit "error: device action error.") (some pamUsbReadingError)
        (Libc.cut bsize (own (pamUsbWrapper b) ++ req option ++ own (lit " '") ++ req cmdline ++
          own (lit "'"))) := by
  obtain ⟨h1, h2, h3⟩ := initusb_facts h
  simp only [tcosPamUsb, if_pos h, if_neg h1, if_neg h2, if_neg h3]

/-- A request's cookie check is the one of the name it asks for. -/
theorem serve_check (b : Build) (e : Env) (r : Request) (run : XauthRun) :
    (serve b e r).check = some (.xauth run) ↔
      ∃ c d, asked e r = some (c, d) ∧ run = handleXauth e c d := by
  cases r with
  | xauth cookie hostname => simp [serve, tcosXauth, asked, eq_comm]
  | devices option cmdline cookie hostname =>
    simp only [serve, tcosDevices, asked]
    split <;> simp [eq_comm]
  | pamusb option cmdline cookie hostname =>
    simp only [serve, asked]
    split
    case isTrue h => simp [pamUsb_initusb b e h]
    case isFalse h => simp [tcosPamUsb, h, eq_comm]
  | config option cmdline user pass | sound option cmdline user pass
  | rebootpoweroff option timeout user pass =>
    simp only [serve, tcosConfig, tcosSound, tcosRebootPoweroff, asked, needOwn_check]
    split <;> simp [eq_comm]
  | standalone info group => simp [serve, asked, standalone_check]
  | pci pci => simp [serve, asked, pci_check]
  | info info => simp [serve, asked, info_check]
  | version | echo | status | login | logout =>
    simp [serve, asked, tcosVersion, tcosEcho, tcosStatus, tcosLogin, tcosLogout, answer]
  | dbus | exe | kill | xorg | lockscreen | unlockscreen | lockcontroller | unlockcontroller | vnc
  | getscreenshot | vlc | rtp | tnc | dpms =>
    simp [serve, asked, tcosDbus, tcosExe, tcosKill, tcosXorg, tcosLockscreen, tcosUnlockscreen,
      tcosLockcontroller, tcosUnlockcontroller, tcosVnc, tcosGetScreenshot, tcosVlc, tcosRtp, tcosTnc,
      tcosDpms]

/-! ### The display -/

/-- An address of another machine. -/
def Elsewhere (e : Env) (addresses : List Text) (d : Text) : Prop :=
  (checkIpAddress e.xauthStack d).isIp = true ∧ d ≠ e.hostname.name ∧ d ∉ addresses

theorem handleXauth_display {e : Env} {c d : Text} (h : (handleXauth e c d).code = .ok) :
    Named e d ∧ (handleXauth e c d).display = some (d ++ lit ":0") := by
  by_cases hn : Named e d
  · refine ⟨hn, ?_⟩
    rw [handleXauth_named hn] at h ⊢
    cases hm : e.mkstemp with
    | none => simp [hm] at h
    | some s => rfl
  · rw [handleXauth_unnamed hn] at h
    exact absurd h (by simp)

/-- The machine with other X servers and another temporary file. -/
def Env.facing (e : Env) (opens : Text → Text → Bool) (mkstemp : Option TempSuffix) : Env :=
  { e with opens, mkstemp }

/-- **Whatever the X servers answer, a request is let in by an own display only, exactly
when the name it gives to the cookie check is no address of another machine.** -/
theorem own_display_iff (b : Build) (e : Env) (addresses : List Text) (r : Request) :
    (∀ opens mkstemp, OwnDisplay e addresses (serve b (e.facing opens mkstemp) r)) ↔
      ∀ c d, asked e r = some (c, d) → ¬ Elsewhere e addresses d := by
  have hasked : ∀ opens mkstemp, asked (e.facing opens mkstemp) r = asked e r := fun _ _ => by
    cases r <;> rfl
  constructor
  · intro h c d hd ⟨hip, hname, haddr⟩
    let s : TempSuffix := ⟨lit "a1B2c3", Shell.each (by with_unfolding_all decide),
      by with_unfolding_all decide⟩
    -- an X server that takes every cookie
    let e' := e.facing (fun _ _ => true) (some s)
    have hn : Named e' d := .inl hip
    have hcheck := (serve_check b e' r _).mpr ⟨c, d, (hasked _ _).trans hd, rfl⟩
    have hrun : handleXauth e' c d = _ := handleXauth_named hn
    obtain ⟨d', hdisp, hown⟩ := h _ _ _ hcheck (by rw [hrun]; rfl)
    rw [hrun] at hdisp
    obtain rfl : d = d' := List.append_cancel_right (Option.some.inj hdisp)
    exact hown.elim hname haddr
  · intro h opens mkstemp run hcheck hcode
    obtain ⟨c, d, hd, rfl⟩ := (serve_check b _ r run).mp hcheck
    rw [hasked] at hd
    obtain ⟨hn, hdisp⟩ := handleXauth_display hcode
    refine ⟨d, hdisp, ?_⟩
    rcases hn with hip | hname
    · by_contra hcon
      rw [not_or] at hcon
      exact h c d hd ⟨hip, hcon.1, hcon.2⟩
    · exact .inl hname

/-- A terminal at 10.0.0.7 takes the word of a display at 10.9.8.7. -/
theorem foreign_display_accepted :
    ¬ ∀ b e addresses r, OwnDisplay e addresses (serve b e r) := by
  intro h
  have hrun : handleXauth Env.client (lit "f00d") (lit "10.9.8.7") =
      { code := .ok
        cmd := some (xauthLine (lit "/tmp/.tmpxautha1B2c3") (lit "10.9.8.7") (lit "f00d"))
        display := some (lit "10.9.8.7" ++ lit ":0") } := by with_unfolding_all decide
  have hcheck : (serve .thinClient Env.client
      (.devices (lit "--showdevices") [] (lit "f00d") (lit "10.9.8.7"))).check = some (.xauth _) :=
    (serve_check _ _ _ _).mpr ⟨lit "f00d", lit "10.9.8.7", by with_unfolding_all decide, hrun.symm⟩
  obtain ⟨d, hd, hown⟩ := h _ _ [lit "10.0.0.7"] _ _ hcheck rfl
  obtain rfl : lit "10.9.8.7" = d := List.append_cancel_right (Option.some.inj hd)
  exact absurd hown (by with_unfolding_all decide)

end Tcos.Xmlrpc
