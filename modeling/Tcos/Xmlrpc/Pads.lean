import Tcos.Xmlrpc.Base64
import Tcos.Xmlrpc.Handlers

/-! The one-time pads of pam-usb.c.

A pad is read from a file and answered in base 64 (`getpad`), and written to a file either
decoded (`newpad`) or encoded (`savepad`). `pad_survives`: what `getpad` answers is what
`newpad` makes the file of. `pad_all_or_nothing_iff` says which requests leave the file either
as asked or as it was. -/
namespace Tcos.Xmlrpc
open Shell (Text lit)
open Libc

/-! ### The branches -/

/-- The two branches that write a pad. -/
inductive PadBranch where
  | savepad
  | newpad
  deriving DecidableEq, Repr

/-- How the option of the branch starts. -/
def PadBranch.start : PadBranch → Text
  | .savepad => lit "/mnt/"
  | .newpad => lit "//mnt/"

/-- What the branch is to write. -/
def PadBranch.content (cmdline : Text) : PadBranch → Option (List UInt8)
  | .savepad => some (bytes (base64Encode (bytes cmdline)))
  | .newpad => base64Decode cmdline

/-- What the branch does once the cookie was accepted. -/
def PadBranch.run (e : Env) (option cmdline : Text) : PadBranch → Outcome
  | .savepad =>
    savePad e option (bytes (base64Encode ((bytes cmdline ++ 0 :: e.beyond).take e.strayLength)))
      (some [lit "ok"])
  | .newpad =>
    match base64Decode cmdline with
    | some out => savePad e option out (some [lit "ok"])
    | none => savePad e option [] (if e.strayOutput = 0 then some [lit "ok"] else none)

theorem start_facts {branch : PadBranch} {option : Text} (h : branch.start <+: option) :
    ¬ initusb <+: option ∧ option ≠ lit "getpad" ∧
      (lit "/mnt/" <+: option ↔ branch = .savepad) ∧ (lit "//mnt/" <+: option ↔ branch = .newpad) := by
  have hother : ∀ t : Text, ¬ t <+: branch.start ∧ ¬ branch.start <+: t → ¬ t <+: option := by
    intro t ht hp
    rcases List.prefix_or_prefix_of_prefix hp h with h' | h'
    · exact ht.1 h'
    · exact ht.2 h'
  have hfacts : ∀ branch : PadBranch,
      (¬ initusb <+: branch.start ∧ ¬ branch.start <+: initusb) ∧
        (¬ lit "getpad" <+: branch.start ∧ ¬ branch.start <+: lit "getpad") := by
    intro branch
    cases branch <;> with_unfolding_all decide
  obtain ⟨hinit, hget⟩ := hfacts branch
  refine ⟨hother _ hinit, fun he => ?_, ?_⟩
  · rw [he] at h
    exact hget.2 h
  · cases branch with
    | savepad =>
      have hno := hother (lit "//mnt/") (by with_unfolding_all decide)
      exact ⟨⟨fun _ => rfl, fun _ => h⟩, ⟨fun hp => absurd hp hno, nofun⟩⟩
    | newpad =>
      have hno := hother (lit "/mnt/") (by with_unfolding_all decide)
      exact ⟨⟨fun hp => absurd hp hno, nofun⟩, ⟨fun _ => rfl, fun _ => h⟩⟩

/-- The option decides the branch. -/
theorem tcosPamUsb_branch (b : Build) (e : Env) (branch : PadBranch) {option : Text}
    (h : branch.start <+: option) (cmdline cookie hostname : Text) :
    tcosPamUsb b e option cmdline cookie hostname =
      needXauth e cookie hostname xauthDenied (branch.run e option cmdline) := by
  obtain ⟨hinit, hget, hsave, hnew⟩ := start_facts h
  cases branch with
  | savepad => simp [tcosPamUsb, hinit, hget, hsave, PadBranch.run]
  | newpad =>
    cases hd : base64Decode cmdline <;> simp [tcosPamUsb, hinit, hget, hsave, hnew, PadBranch.run, hd]

/-! ### The transfer -/

/-- **Every pad comes out of the transfer as it was, and no buffer is overrun on the way.** -/
theorem pad_survives (b b' : Build) (e e' : Env) {pad : List UInt8} {file option cookie hostname : Text}
    (hfile : e.readfile file = some pad) (haccepted : (handleXauth e cookie hostname).code = .ok)
    (haccepted' : (handleXauth e' cookie hostname).code = .ok) (hoption : lit "//mnt/" <+: option)
    (hopens : e'.canWrite option = true) :
    (∃ answered, (tcosPamUsb b e (lit "getpad") file cookie hostname).reply = some [answered] ∧
      (tcosPamUsb b' e' option answered cookie hostname).wrote = [(option, pad)] ∧
      (tcosPamUsb b' e' option answered cookie hostname).reply = some [lit "ok"]) ∧
    (∀ (s : SizeT) (src : List UInt8), src.length * 4 < s.max →
      base64EncodeC s src = some (base64Encode src ++ ['\x00'])) ∧
    ∀ src : Text, base64DecodeC src = some (base64Decode src) := by
  refine ⟨⟨base64Encode pad, ?_, ?_⟩, fun s src h => encode_in_bounds h, decode_in_bounds⟩
  · have hinit : ¬ initusb <+: lit "getpad" := by with_unfolding_all decide
    simp [tcosPamUsb, hinit, needXauth, haccepted, hfile, answer]
  · have hrun := tcosPamUsb_branch b' e' .newpad hoption (base64Encode pad) cookie hostname
    simp only [PadBranch.run, base64_roundtrip, needXauth, haccepted', savePad, hopens, if_true] at hrun
    rw [hrun]
    exact ⟨rfl, rfl⟩

/-- A client on which the file holds the pad. -/
def Env.withPad (pad : List UInt8) : Env := { Env.client with readfile := fun _ => some pad }

theorem client_accepts : (handleXauth Env.client (lit "f00d") (lit "tcos")).code = .ok := by
  with_unfolding_all decide

/-- A pad of four bytes that are no text. -/
theorem four_bytes_survive :
    ∃ answered, (tcosPamUsb .thinClient (Env.withPad [0, 255, 10, 61]) (lit "getpad") (lit "/mnt/U/pad")
      (lit "f00d") (lit "tcos")).reply = some [answered] ∧
      (tcosPamUsb .thinClient Env.client (lit "//mnt/U/pad") answered (lit "f00d") (lit "tcos")).wrote =
        [(lit "//mnt/U/pad", [0, 255, 10, 61])] ∧
      (tcosPamUsb .thinClient Env.client (lit "//mnt/U/pad") answered (lit "f00d") (lit "tcos")).reply =
        some [lit "ok"] :=
  (pad_survives .thinClient .thinClient (Env.withPad [0, 255, 10, 61]) Env.client rfl client_accepts
    client_accepts (by with_unfolding_all decide) rfl).1

/-! ### All or nothing -/

/-- The file at the path after the handler ran. -/
def Outcome.fileAfter (o : Outcome) (path : Text) (old : List UInt8) : List UInt8 :=
  ((o.wrote.find? fun w => w.1 = path).map Prod.snd).getD old

/-- The machine with other values in the variables that were never set. -/
def Env.stray (e : Env) (len elen : Nat) (beyond : List UInt8) : Env :=
  { e with strayLength := len, strayOutput := elen, beyond := beyond }

/-- The answer is that all went well and the file is as asked, or it is an error and the file is
as it was, whatever the variables that were never set hold. -/
def AllOrNothing (b : Build) (e : Env) (branch : PadBranch) (option cmdline cookie hostname : Text) :
    Prop :=
  ∀ (len elen : Nat) (beyond old : List UInt8),
    let o := tcosPamUsb b (e.stray len elen beyond) option cmdline cookie hostname
    (o.reply = some [lit "ok"] ∧ ∃ content, branch.content cmdline = some content ∧
      o.fileAfter option old = content) ∨
    (∃ t, o.reply = some [t] ∧ isError t = true) ∧ o.fileAfter option old = old

/-- The bytes of the text that count come in whole blocks. -/
def isWhole (cmdline : Text) : Bool :=
  decide ((cmdline.filter fun c => (base64Value c).isSome).length % 4 = 0)

theorem base64Decode_isSome (cmdline : Text) : (base64Decode cmdline).isSome = isWhole cmdline := by
  simp only [base64Decode, isWhole]
  split
  · simp [*]
  · simp_all

theorem ok_no_error : isError (lit "ok") = false := by with_unfolding_all decide

/-- The check of the cookie reads none of these variables. -/
theorem pamUsb_stray (b : Build) (e : Env) {branch : PadBranch} {option : Text}
    (h : branch.start <+: option) (len elen : Nat) (beyond : List UInt8)
    (cmdline cookie hostname : Text) : tcosPamUsb b
    (e.stray len elen beyond) option cmdline cookie hostname =
      needXauth e cookie hostname xauthDenied (branch.run (e.stray len elen beyond) option cmdline) :=
  tcosPamUsb_branch b _ _ h cmdline cookie hostname

/-- What a branch writes and answers, where the file opens. -/
def PadBranch.written (len elen : Nat) (beyond : List UInt8) (cmdline : Text) :
    PadBranch → List UInt8 × Option (List Text)
  | .savepad => (bytes (base64Encode ((bytes cmdline ++ 0 :: beyond).take len)), some [lit "ok"])
  | .newpad =>
    match base64Decode cmdline with
    | some out => (out, some [lit "ok"])
    | none => ([], if elen = 0 then some [lit "ok"] else none)

theorem run_stray (e : Env) (branch : PadBranch) (len elen : Nat) (beyond : List UInt8)
    (option cmdline : Text) : branch.run (e.stray len elen beyond) option cmdline =
      if e.canWrite option then
        { wrote := [(option, (branch.written len elen beyond cmdline).1)]
          reply := (branch.written len elen beyond cmdline).2 }
      else answer pamUsbReadingError := by
  cases branch with
  | savepad => rfl
  | newpad =>
    cases hd : base64Decode cmdline <;> simp [PadBranch.run, PadBranch.written, hd, savePad] <;> rfl

/-- Without the cookie, or without the file, the answer is an error and nothing is written. -/
theorem allOrNothing_refused (b : Build) {e : Env} {branch : PadBranch} {option : Text}
    (hoption : branch.start <+: option) (cmdline : Text) {cookie hostname : Text}
    (h : (handleXauth e cookie hostname).code = .ok → e.canWrite option = false) :
    AllOrNothing b e branch option cmdline cookie hostname := by
  intro len elen beyond old
  right
  have herrors : isError xauthDenied = true ∧ isError pamUsbReadingError = true := by
    with_unfolding_all decide
  simp only [pamUsb_stray b e hoption, needXauth]
  by_cases hok : (handleXauth e cookie hostname).code = .ok
  · rw [if_pos hok, run_stray, h hok]
    exact ⟨⟨_, rfl, herrors.2⟩, rfl⟩
  · rw [if_neg hok]
    exact ⟨⟨_, rfl, herrors.1⟩, rfl⟩

/-- Where the file opens it is always written, so that must be what was asked. -/
theorem allOrNothing_opened (b : Build) {e : Env} (branch : PadBranch) {option : Text}
    (hoption : branch.start <+: option) (cmdline : Text) {cookie hostname : Text}
    (hok : (handleXauth e cookie hostname).code = .ok) (hopens : e.canWrite option = true) :
    AllOrNothing b e branch option cmdline cookie hostname ↔ ∀ len elen beyond,
      (branch.written len elen beyond cmdline).2 = some [lit "ok"] ∧
        branch.content cmdline = some (branch.written len elen beyond cmdline).1 := by
  have hnoerror : ∀ len elen beyond,
      ¬ ∃ t, (branch.written len elen beyond cmdline).2 = some [t] ∧ isError t = true := by
    rintro len elen beyond ⟨t, hreply, herror⟩
    have ht : t = lit "ok" := by
      cases branch with
      | savepad => simpa [PadBranch.written, eq_comm] using hreply
      | newpad =>
        cases hd : base64Decode cmdline with
        | some out => simpa [PadBranch.written, hd, eq_comm] using hreply
        | none =>
          by_cases he : elen = 0
          · simpa [PadBranch.written, hd, he, eq_comm] using hreply
          · simp [PadBranch.written, hd, he] at hreply
    rw [ht, ok_no_error] at herror
    exact absurd herror (by simp)
  have hrun : ∀ len elen beyond, tcosPamUsb b (e.stray len elen beyond) option cmdline cookie hostname =
      { check := some (.xauth (handleXauth e cookie hostname))
        wrote := [(option, (branch.written len elen beyond cmdline).1)]
        reply := (branch.written len elen beyond cmdline).2 } := by
    intro len elen beyond
    simp only [pamUsb_stray b e hoption, run_stray, if_pos hopens, needXauth, if_pos hok]
  unfold AllOrNothing
  simp only [hrun, Outcome.fileAfter, List.find?_cons_of_pos, decide_true, Option.map_some,
    Option.getD_some]
  constructor
  · intro h len elen beyond
    rcases h len elen beyond [] with ⟨hreply, content, hcontent, hfile⟩ | ⟨herror, -⟩
    · exact ⟨hreply, by rw [hcontent, hfile]⟩
    · exact absurd herror (hnoerror len elen beyond)
  · intro h len elen beyond old
    obtain ⟨hreply, hcontent⟩ := h len elen beyond
    exact .inl ⟨hreply, _, hcontent, rfl⟩

/-- The length that was never set shows in what is saved. -/
theorem savepad_strays (cmdline : Text) :
    (PadBranch.savepad.written (cmdline.length + 3) 0 [0, 0] cmdline).1 ≠
      bytes (base64Encode (bytes cmdline)) := by
  intro h
  have hlen := congrArg List.length h
  simp only [PadBranch.written, bytes, List.length_map, base64Encode_length, List.length_take,
    List.length_append, List.length_cons, List.length_nil] at hlen
  omega

/-- **All or nothing holds of a request that writes nothing, and of a new pad in whole
blocks.** -/
theorem pad_all_or_nothing_iff (b : Build) (e : Env) (branch : PadBranch)
    (path cmdline cookie hostname : Text) : AllOrNothing b e branch
    (branch.start ++ path) cmdline cookie hostname ↔
      ((handleXauth e cookie hostname).code = .ok → e.canWrite (branch.start ++ path) = true →
        branch = .newpad ∧ isWhole cmdline = true) := by
  have hoption : branch.start <+: branch.start ++ path := List.prefix_append _ _
  by_cases hopened : (handleXauth e cookie hostname).code = .ok ∧
    e.canWrite (branch.start ++ path) = true
  · obtain ⟨hok, hopens⟩ := hopened
    rw [allOrNothing_opened b _ hoption cmdline hok hopens]
    simp only [hok, hopens, forall_const]
    cases branch with
    | savepad =>
      refine ⟨fun h => ?_, fun h => absurd h.1 (by simp)⟩
      have hcontent := (h (cmdline.length + 3) 0 [0, 0]).2
      exact absurd (Option.some.inj hcontent).symm (savepad_strays cmdline)
    | newpad =>
      rw [← base64Decode_isSome]
      cases hd : base64Decode cmdline with
      | some out => simp [PadBranch.written, PadBranch.content, hd]
      | none => simp [PadBranch.content, hd]
  · refine iff_of_true (allOrNothing_refused b hoption cmdline fun hok => ?_) fun hok hopens => ?_
    · exact Bool.eq_false_iff.mpr fun hopens => hopened ⟨hok, hopens⟩
    · exact absurd ⟨hok, hopens⟩ hopened

/-- A new pad of one byte that counts is rejected, and the file is empty all the same. -/
theorem rejected_pad_truncates :
    ¬ ∀ (b : Build) (e : Env) (branch : PadBranch) (path cmdline cookie hostname : Text),
      AllOrNothing b e branch (branch.start ++ path) cmdline cookie hostname := by
  intro h
  have hall := h .thinClient Env.client .newpad (lit "U/pad") (lit "A") (lit "f00d") (lit "tcos")
  have hopened := (allOrNothing_opened .thinClient .newpad (List.prefix_append _ _) (lit "A")
    client_accepts rfl).mp hall 0 0 []
  have hnone : base64Decode (lit "A") = none := by with_unfolding_all decide
  rw [PadBranch.content, hnone] at hopened
  exact absurd hopened.2 (by simp)

end Tcos.Xmlrpc
