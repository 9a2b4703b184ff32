import Tcos.Libc.Printed
import Tcos.Scripts.Daemonize
import Tcos.Systems.Run

/-! Broadcasts of sound: rtp-controller.sh and pactl-controller.sh over runs.

To stop a broadcast the controller asks pactl for the modules, takes the line before the first one that names
the module, and unloads the number that it finds in the third field. `run_queues` says what this makes of
the modules if pactl prints the number there: two queues, and `run_piles` what it makes of them if it prints it
elsewhere.

What pactl does to pulseaudio is not the scripts': it is a `Pulse`, and `Pulse.Documented` is what is asked of
it. The scripts are those of a thin client whose pulseaudio passes the check of its version, and a script that
runs in the background is taken to end before the next request. -/
namespace Tcos.Scripts.Rtp
open Shell (Text lit fields isInert)
open Libc (decimal)
open Daemonize (Machine daemonize trail)
open Systems (run)

/-! ### The sound server -/

structure Module where
  index : Nat
  name : Text
  argument : Text

/-- pulseaudio, as pactl shows and changes it. -/
structure Pulse (K : Type) where
  /-- In the order of the list. -/
  modules : K → List Module
  /-- `pactl load-module`, and whether the module is loaded. -/
  load : K → Bool → Text → Text → K
  /-- `pactl unload-module`, of the words after it. -/
  unload : K → List Text → K

/-- What pactl and pulseaudio are documented to do. -/
structure Pulse.Documented {K : Type} (D : Pulse K) : Prop where
  /-- A new module is the last, with a number of its own. -/
  loaded : ∀ k name argument, ∃ n, (∀ x ∈ D.modules k, x.index ≠ n) ∧
    D.modules (D.load k true name argument) = D.modules k ++ [⟨n, name, argument⟩]
  refused : ∀ k name argument, D.modules (D.load k false name argument) = D.modules k
  unloaded : ∀ k, ∀ x ∈ D.modules k, D.modules (D.unload k [decimal x.index]) =
    (D.modules k).filter fun y => y.index ≠ x.index
  /-- Without a number there is a message only. -/
  nothing : ∀ k, D.modules (D.unload k []) = D.modules k

def recvName : Text := lit "module-rtp-recv"

def sendName : Text := lit "module-rtp-send"

/-- What `pactl list` prints. -/
structure Printer where
  /-- The line that starts a module. -/
  header : Nat → Text
  /-- The lines after its name. -/
  details : Module → List Text
  /-- The other sections. -/
  others : List Module → List Text

def nameLine (name : Text) : Text := lit "Name: " ++ name

def Printer.lines (P : Printer) (x : Module) : List Text :=
  P.header x.index :: nameLine x.name :: P.details x

def Printer.list (P : Printer) (modules : List Module) : List Text :=
  modules.flatMap P.lines ++ P.others modules

/-! ### The scripts -/

/-- `grep -B1 TEXT | head -1`. -/
def grepBefore (text : Text) : List Text → Option Text
  | [] => none
  | [a] => if text <:+: a then some a else none
  | a :: b :: rest => if text <:+: a ∨ text <:+: b then some a else grepBefore text (b :: rest)

/-- `awk '\x7bprintf $3\x7d' | sed 's/#//g'`. -/
def thirdField (line : Text) : Text := (((fields line)[2]?).getD []).filter (· ≠ '#')

def indexOf (P : Printer) (modules : List Module) (name : Text) : Text :=
  ((grepBefore name (P.list modules)).map thirdField).getD []

/-- Whether pactl loads the modules. -/
structure Works where
  send : Bool
  recv : Bool

def sendArgument (destination : Text) : Text :=
  lit "format=s16be channels=2 rate=44100 source=@DEFAULT_SOURCE@ loop=0 destination=" ++ destination

def recvArgument (address : Text) : Text := lit "sap_address=" ++ address

inductive Action where
  | startRecv | stopRecv | startSend | stopSend | startChat | stopChat
  deriving DecidableEq

/-- The patterns of the cases of pactl-controller.sh. -/
def Action.verb : Action → Text
  | .startRecv => lit "start-recv"
  | .stopRecv => lit "stop-recv"
  | .startSend => lit "start-send"
  | .stopSend => lit "stop-send"
  | .startChat => lit "start-chat"
  | .stopChat => lit "stop-chat"

def actionOf (word : Text) : Option Action :=
  [Action.startRecv, .stopRecv, .startSend, .stopSend, .startChat, .stopChat].find? (·.verb = word)

/-- pactl-controller.sh with these parameters. -/
def pactlController {K : Type} (D : Pulse K) (k : K) (works : Works) (params : List Text) : K :=
  let second := (params[1]?).toList
  let third := (params[2]?).toList
  let send := fun k => D.load k works.send sendName (sendArgument second.flatten)
  let recv := fun k => D.load k works.recv recvName (recvArgument second.flatten)
  match params.head?.bind actionOf with
  | none => k
  | some .startRecv => recv k
  | some .stopRecv => D.unload k second
  | some .startSend => send k
  | some .stopSend => D.unload k second
  | some .startChat => recv (send k)
  | some .stopChat => D.unload (D.unload k second) third

/-- `PACTL`. -/
def pactl : Text := lit "/sbin/pactl-controller.sh"

/-- The second parameter of daemonize.sh. -/
def params (P : Printer) (modules : List Module) (address : Text) (action : Action) : Text :=
  action.verb ++ ' ' :: match action with
    | .startRecv | .startSend | .startChat => address
    | .stopRecv => indexOf P modules recvName
    | .stopSend => indexOf P modules sendName
    | .stopChat => indexOf P modules sendName ++ ' ' :: indexOf P modules recvName

structure Request where
  action : Action
  address : Text
  works : Works

/-- rtp-controller.sh; the words after `--` are for the program that is started. -/
def rtpController {K : Type} (m : Machine) (P : Printer) (D : Pulse K) (supported : Bool) (k : K)
    (r : Request) : K :=
  if supported then
    pactlController D k r.works ((daemonize m pactl [params P (D.modules k) r.address r.action]).drop 7)
  else k

/-! ### What is asked of them -/

def IsRtp (name : Text) : Prop := name = recvName ∨ name = sendName

/-- No other line names one of the modules. -/
structure Documented (P : Printer) : Prop where
  header : ∀ name, IsRtp name → ∀ n, ¬ name <:+: P.header n
  details : ∀ name, IsRtp name → ∀ x, ∀ line ∈ P.details x, name <:+: line → x.name = name
  others : ∀ name, IsRtp name → ∀ modules, ∀ line ∈ P.others modules, name <:+: line →
    ∃ x ∈ modules, x.name = name

/-- No two modules have one number, and no other module's name contains one of the two. -/
structure Sound (modules : List Module) : Prop where
  distinct : (modules.map Module.index).Nodup
  quiet : ∀ x ∈ modules, ∀ name, IsRtp name → name <:+: nameLine x.name → x.name = name

/-- An address is a word without slashes and special bytes. -/
def IsAddress (address : Text) : Prop := address ≠ [] ∧ ∀ c ∈ address, isInert c = true ∧ c ≠ '\\' ∧ c ≠ '/'

/-- Broadcasts that are sent and received, the oldest first. -/
structure Queues where
  send : List Text
  recv : List Text

def Queues.step (q : Queues) (r : Request) : Queues :=
  let send := if r.works.send then q.send ++ [r.address] else q.send
  let recv := if r.works.recv then q.recv ++ [r.address] else q.recv
  match r.action with
  | .startRecv => { q with recv := recv }
  | .stopRecv => { q with recv := q.recv.tail }
  | .startSend => { q with send := send }
  | .stopSend => { q with send := q.send.tail }
  | .startChat => ⟨send, recv⟩
  | .stopChat => ⟨q.send.tail, q.recv.tail⟩

/-- The modules of a name, by what they were loaded with. -/
def named (name : Text) (modules : List Module) : List Text :=
  (modules.filter (·.name = name)).map Module.argument

/-- All other modules. -/
def rest (modules : List Module) : List Module :=
  modules.filter fun x => x.name ≠ sendName ∧ x.name ≠ recvName

structure Refines (others modules : List Module) (q : Queues) : Prop where
  sound : Sound modules
  send : named sendName modules = q.send.map sendArgument
  recv : named recvName modules = q.recv.map recvArgument
  rest : rest modules = others

/-! ### Words for the program -/

section Words
variable {m : Machine}

theorem fits_slash (t s : Text) (h : '/' ∉ s) : s.tails.any (Grep.fits ('/' :: t)) = false := by
  rw [List.any_eq_false]
  intro u hu
  cases u with
  | nil => simp [Grep.fits]
  | cons d u =>
    have hne : d ≠ '/' := by
      rintro rfl
      exact h (((List.mem_tails _ _).mp hu).subset (by simp))
    simp [Grep.fits, Grep.atom, hne]

/-- pactl-controller.sh, as daemonize.sh takes it. -/
def pactlCommand (h : m.present pactl = true) : Daemonize.Command m where
  name := pactl
  some := by with_unfolding_all decide
  inert := Shell.each (by with_unfolding_all decide)
  found := .inl h

theorem pactl_words (h : m.present pactl = true) {line : Text}
    (hline : ∀ w ∈ fields line, ∀ c ∈ w, isInert c = true ∧ c ≠ '\\' ∧ c ≠ '/') :
    Daemonize.Words (pactlCommand h).name (fields line) where
  solid w hw := ⟨(Shell.mem_fields hw).1, fun c hc => (hline w hw c hc).1⟩
  backslash := ⟨show '\\' ∉ pactl by with_unfolding_all decide, fun w hw hc => (hline w hw _ hc).2.1 rfl⟩
  option := show pactl.head? ≠ some '-' by with_unfolding_all decide
  bars := show pactl.count '|' ≤ 1 by with_unfolding_all decide

/-- The words of a line without slashes are the parameters. -/
theorem daemonize_words (h : m.present pactl = true) {line : Text}
    (hline : ∀ w ∈ fields line, ∀ c ∈ w, isInert c = true ∧ c ≠ '\\' ∧ c ≠ '/') :
    (daemonize m pactl [line]).drop 7 = fields line := by
  have hwords := pactl_words h hline
  have hdots : Grep.Dotted (pactlCommand h).name := ⟨Daemonize.name_simple _ hwords,
    show pactl.head? ≠ some '^' by with_unfolding_all decide,
    show pactl.getLast? ≠ some '$' by with_unfolding_all decide⟩
  have hslash : '/' ∉ trail (fields line) := by
    intro hc
    rcases Daemonize.mem_trail hc with heq | ⟨w, hw, hc⟩
    · exact absurd heq (by decide)
    · exact (hline w hw _ hc).2.2 rfl
  obtain ⟨t, ht⟩ : ∃ t, pactl = '/' :: t := ⟨pactl.tail, by with_unfolding_all rfl⟩
  have hnowhere : (trail (fields line)).tails.any (Grep.fits (pactlCommand h).name) = false := by
    have := fits_slash t _ hslash
    rwa [← ht] at this
  have hstarted := (Daemonize.started_iff _ hwords).mpr ((Daemonize.dotted_iff _ hwords
    (show '|' ∉ pactl by with_unfolding_all decide) hdots).mpr hnowhere)
  exact congrArg (List.drop 7) (hstarted [line] (by simp))

end Words

/-! ### The first module -/

section First
variable {P : Printer} {name : Text} {modules : List Module}

theorem grepBefore_none {l : List Text} (h : ∀ a ∈ l, ¬ name <:+: a) : grepBefore name l = none := by
  induction l with
  | nil => rfl
  | cons a l ih =>
    obtain ⟨ha, hl⟩ := List.forall_mem_cons.mp h
    cases l with
    | nil => simp [grepBefore, ha]
    | cons b l => rw [grepBefore, if_neg (by simp [ha, hl b (by simp)]), ih hl]

/-- The line before the first that contains the text. -/
theorem grepBefore_first {l rest : List Text} {a b : Text} (h : ∀ x ∈ l ++ [a], ¬ name <:+: x)
    (hb : name <:+: b) : grepBefore name (l ++ a :: b :: rest) = some a := by
  induction l with
  | nil => simp [grepBefore, hb]
  | cons c l ih =>
    obtain ⟨hc, hl⟩ := List.forall_mem_cons.mp h
    cases l with
    | nil =>
      have ha := hl a (by simp)
      rw [List.singleton_append, grepBefore, if_neg (by simp [hc, ha])]
      exact ih hl
    | cons d l =>
      rw [List.cons_append, List.cons_append, grepBefore, if_neg (by simp [hc, hl d (by simp)])]
      exact ih hl

theorem lines_quiet (hP : Documented P) (hname : IsRtp name) (hp : Sound modules) {x : Module} (hx : x ∈ modules)
    (hne : x.name ≠ name) : ∀ line ∈ P.lines x, ¬ name <:+: line := by
  intro line hline
  rcases List.mem_cons.mp hline with rfl | hline
  · exact hP.header name hname x.index
  rcases List.mem_cons.mp hline with rfl | hline
  · exact fun h => hne (hp.quiet x hx name hname h)
  · exact fun h => hne (hP.details name hname x line hline h)

theorem infix_nameLine (name : Text) : name <:+: nameLine name := ⟨lit "Name: ", [], by simp [nameLine]⟩

/-- **The third field of the first line of the first module of the name, or nothing.** -/
theorem indexOf_first (hP : Documented P) (hname : IsRtp name) (hp : Sound modules) :
    indexOf P modules name =
      ((modules.filter (·.name = name)).head?.map fun x => thirdField (P.header x.index)).getD [] := by
  cases hfirst : modules.filter (·.name = name) with
  | nil =>
    have hother : ∀ x ∈ modules, x.name ≠ name := fun x hx => by
      simpa using List.filter_eq_nil_iff.mp hfirst x hx
    have hnone : ∀ line ∈ P.list modules, ¬ name <:+: line := by
      intro line hline
      rcases List.mem_append.mp hline with hline | hline
      · obtain ⟨x, hx, hline⟩ := List.mem_flatMap.mp hline
        exact lines_quiet hP hname hp hx (hother x hx) line hline
      · intro h
        obtain ⟨x, hx, heq⟩ := hP.others name hname _ line hline h
        exact hother x hx heq
    rw [indexOf, grepBefore_none hnone]
    rfl
  | cons x rest =>
    obtain ⟨before, after, hmodules, hbefore, hx, -⟩ := List.filter_eq_cons_iff.mp hfirst
    have hxname : x.name = name := by simpa using hx
    have hquiet : ∀ line ∈ before.flatMap P.lines ++ [P.header x.index], ¬ name <:+: line := by
      intro line hline
      rcases List.mem_append.mp hline with hline | hline
      · obtain ⟨y, hy, hline⟩ := List.mem_flatMap.mp hline
        exact lines_quiet hP hname hp (by simp [hmodules, hy]) (by simpa using hbefore y hy) line hline
      · rw [List.mem_singleton.mp hline]
        exact hP.header name hname x.index
    have hlist : P.list modules = before.flatMap P.lines ++ P.header x.index :: nameLine x.name ::
        (P.details x ++ (after.flatMap P.lines ++ P.others modules)) := by
      simp [Printer.list, hmodules, Printer.lines]
    rw [indexOf, hlist, grepBefore_first hquiet (hxname ▸ infix_nameLine x.name)]
    rfl

end First

/-! ### One request -/

section Requests
variable {K : Type} {m : Machine} {P : Printer} {D : Pulse K} {k : K} {r : Request} {modules : List Module}

/-- What the controller finds is a word, or nothing. -/
def Printer.Finds (P : Printer) (modules : List Module) : Prop :=
  ∀ name, IsRtp name → indexOf P modules name = [] ∨ IsAddress (indexOf P modules name)

theorem actionOf_verb (a : Action) : actionOf a.verb = some a := by
  cases a <;> with_unfolding_all decide

theorem fields_address {t : Text} (h : IsAddress t) : fields t = [t] :=
  Shell.fields_word h.1 fun c hc => (Shell.isInert_facts (h.2 c hc).1).1

theorem fields_verb (a : Action) (t : Text) : fields (a.verb ++ ' ' :: t) = a.verb :: fields t := by
  have hverb : fields a.verb = [a.verb] := by cases a <;> with_unfolding_all decide
  rw [Shell.fields_split rfl, hverb, List.singleton_append]

/-- The words after the verb. -/
def wordsOf (P : Printer) (modules : List Module) (address : Text) : Action → List Text
  | .startRecv | .startSend | .startChat => [address]
  | .stopRecv => fields (indexOf P modules recvName)
  | .stopSend => fields (indexOf P modules sendName)
  | .stopChat => fields (indexOf P modules sendName) ++ fields (indexOf P modules recvName)

theorem fields_params {address : Text} (haddress : IsAddress address) (a : Action) :
    fields (params P modules address a) = a.verb :: wordsOf P modules address a := by
  unfold params
  rw [fields_verb]
  cases a <;> simp [wordsOf, fields_address haddress, Shell.fields_split (c := ' ') rfl]

theorem found_words (h : P.Finds modules) {name : Text} (hname : IsRtp name) :
    fields (indexOf P modules name) = [] ∨ ∃ w, IsAddress w ∧ fields (indexOf P modules name) = [w] := by
  rcases h name hname with heq | haddress
  · exact .inl (by rw [heq]; rfl)
  · exact .inr ⟨_, haddress, fields_address haddress⟩

/-- The words that reach pactl-controller.sh. -/
theorem params_words (hm : m.present pactl = true) (hfinds : P.Finds modules) {address : Text}
    (haddress : IsAddress address) (a : Action) :
    (daemonize m pactl [params P modules address a]).drop 7 = a.verb :: wordsOf P modules address a := by
  have hverb : ∀ c ∈ a.verb, isInert c = true ∧ c ≠ '\\' ∧ c ≠ '/' := by
    cases a <;> exact Shell.each (by with_unfolding_all decide)
  have hfound : ∀ name, IsRtp name → ∀ w ∈ fields (indexOf P modules name), ∀ c ∈ w,
      isInert c = true ∧ c ≠ '\\' ∧ c ≠ '/' := by
    intro name hname w hw
    rcases found_words hfinds hname with hnil | ⟨v, hv, heq⟩
    · exact absurd hw (by simp [hnil])
    · rw [heq] at hw
      exact List.mem_singleton.mp hw ▸ hv.2
  have hwords : ∀ w ∈ wordsOf P modules address a, ∀ c ∈ w, isInert c = true ∧ c ≠ '\\' ∧ c ≠ '/' := by
    intro w hw
    cases a with
    | startRecv | startSend | startChat => exact List.mem_singleton.mp hw ▸ haddress.2
    | stopRecv => exact hfound recvName (.inl rfl) w hw
    | stopSend => exact hfound sendName (.inr rfl) w hw
    | stopChat => exact (List.mem_append.mp hw).elim (hfound sendName (.inr rfl) w) (hfound recvName (.inl rfl) w)
  rw [daemonize_words hm, fields_params haddress]
  rw [fields_params haddress]
  exact List.forall_mem_cons.mpr ⟨hverb, hwords⟩

/-- **What a request does.** -/
theorem rtpController_eq (hm : m.present pactl = true) (hfinds : P.Finds (D.modules k))
    (haddress : IsAddress r.address) : rtpController m P D true k r =
      match r.action with
      | .startRecv => D.load k r.works.recv recvName (recvArgument r.address)
      | .stopRecv => D.unload k (fields (indexOf P (D.modules k) recvName))
      | .startSend => D.load k r.works.send sendName (sendArgument r.address)
      | .stopSend => D.unload k (fields (indexOf P (D.modules k) sendName))
      | .startChat => D.load (D.load k r.works.send sendName (sendArgument r.address)) r.works.recv recvName
          (recvArgument r.address)
      | .stopChat =>
        -- without the first number the second one takes its place
        let words := fields (indexOf P (D.modules k) sendName) ++ fields (indexOf P (D.modules k) recvName)
        D.unload (D.unload k (words[0]?).toList) (words[1]?).toList := by
  rw [rtpController, if_pos rfl, params_words hm hfinds haddress, pactlController]
  simp only [List.head?_cons, Option.bind_some, actionOf_verb]
  cases r.action with
  | startRecv | startSend | startChat => simp [wordsOf]
  | stopRecv =>
    rcases found_words hfinds (.inl rfl) with h | ⟨w, -, h⟩ <;> simp [wordsOf, h]
  | stopSend =>
    rcases found_words hfinds (.inr rfl) with h | ⟨w, -, h⟩ <;> simp [wordsOf, h]
  | stopChat => simp [wordsOf]

end Requests

/-! ### Runs -/

section Runs
variable {K : Type} {m : Machine} {P : Printer} {D : Pulse K} {k : K} {q : Queues} {r : Request}
  {others modules : List Module} {name : Text}

/-! #### A module more -/

theorem load_sound (hD : D.Documented) (hp : Sound (D.modules k)) (works : Bool) (hname : IsRtp name)
    (argument : Text) : Sound (D.modules (D.load k works name argument)) := by
  cases works with
  | false => rwa [hD.refused]
  | true =>
    have hapart : ¬ recvName <:+: nameLine sendName ∧ ¬ sendName <:+: nameLine recvName := by
      with_unfolding_all decide
    obtain ⟨n, hfresh, hloaded⟩ := hD.loaded k name argument
    rw [hloaded]
    refine ⟨?_, fun x hx name' hname' hin => ?_⟩
    · rw [List.map_append, List.nodup_append]
      refine ⟨hp.distinct, List.nodup_singleton _, fun i hi i' hi' => ?_⟩
      obtain ⟨x, hx, rfl⟩ := List.mem_map.mp hi
      rw [List.mem_singleton.mp hi']
      exact hfresh x hx
    · rcases List.mem_append.mp hx with hx | hx
      · exact hp.quiet x hx name' hname' hin
      · rw [List.mem_singleton.mp hx] at hin ⊢
        rcases hname with rfl | rfl <;> rcases hname' with rfl | rfl
        · rfl
        · exact absurd hin hapart.2
        · exact absurd hin hapart.1
        · rfl

theorem named_load (hD : D.Documented) (works : Bool) (argument n : Text) :
    named n (D.modules (D.load k works name argument)) =
      named n (D.modules k) ++ if works = true ∧ name = n then [argument] else [] := by
  cases works with
  | false => simp [hD.refused]
  | true =>
    obtain ⟨i, -, hloaded⟩ := hD.loaded k name argument
    rw [hloaded]
    by_cases h : name = n <;> simp [named, h]

theorem rest_load (hD : D.Documented) (works : Bool) (hname : IsRtp name) (argument : Text) :
    rest (D.modules (D.load k works name argument)) = rest (D.modules k) := by
  cases works with
  | false => rw [hD.refused]
  | true =>
    obtain ⟨i, -, hloaded⟩ := hD.loaded k name argument
    rw [hloaded]
    rcases hname with rfl | rfl <;> simp [rest]

/-! #### A module less -/

/-- The first module of the name. -/
def first (name : Text) (modules : List Module) : Option Module := (modules.filter (·.name = name)).head?

/-- It goes. -/
def dropFirst (name : Text) (modules : List Module) : List Module :=
  match first name modules with
  | none => modules
  | some x => modules.filter fun y => y.index ≠ x.index

theorem first_mem {x : Module} (h : first name modules = some x) : x ∈ modules ∧ x.name = name := by
  have hx := List.mem_filter.mp (List.mem_of_mem_head? h)
  exact ⟨hx.1, by simpa using hx.2⟩

theorem dropFirst_sound (hp : Sound modules) (name : Text) : Sound (dropFirst name modules) := by
  unfold dropFirst
  split
  · exact hp
  · have hsub : ∀ Q : Module → Bool, (modules.filter Q).Sublist modules := fun _ => List.filter_sublist
    exact ⟨hp.distinct.sublist ((hsub _).map _), fun x hx => hp.quiet x ((hsub _).subset hx)⟩

/-- The modules of other names stay. -/
theorem filter_dropFirst (hp : Sound modules) {Q : Module → Bool} (hQ : ∀ x : Module, x.name = name → Q x = false) :
    (dropFirst name modules).filter Q = modules.filter Q := by
  unfold dropFirst
  split
  case h_1 => rfl
  case h_2 x hx =>
    obtain ⟨hmem, hname⟩ := first_mem hx
    rw [List.filter_filter]
    refine List.filter_congr fun y hy => ?_
    by_cases hindex : y.index = x.index
    · obtain rfl := List.inj_on_of_nodup_map hp.distinct hy hmem hindex
      simp [hQ y hname]
    · simp [hindex]

/-- Of its own the first goes. -/
theorem filter_dropFirst_own (hp : Sound modules) :
    (dropFirst name modules).filter (·.name = name) = (modules.filter (·.name = name)).tail := by
  have hnodup : ((modules.filter (·.name = name)).map Module.index).Nodup :=
    hp.distinct.sublist (List.filter_sublist.map _)
  unfold dropFirst first
  cases h : modules.filter (·.name = name) with
  | nil => simpa using h
  | cons x rest =>
    rw [h] at hnodup
    dsimp only [List.head?_cons]
    rw [List.filter_comm, h, List.filter_cons_of_neg (by simp), List.tail_cons, List.filter_eq_self]
    intro y hy
    have hne := (List.nodup_cons.mp hnodup).1
    simpa using fun heq : y.index = x.index => hne (heq ▸ List.mem_map_of_mem hy)

theorem named_dropFirst (hp : Sound modules) (n : Text) : named n (dropFirst name modules) =
    if n = name then (named name modules).tail else named n modules := by
  split
  case isTrue h => rw [h, named, filter_dropFirst_own hp, named, List.map_tail]
  case isFalse h =>
    rw [named, filter_dropFirst hp fun x hx => by simp [hx, Ne.symm h]]
    rfl

theorem rest_dropFirst (hp : Sound modules) (hname : IsRtp name) :
    rest (dropFirst name modules) = rest modules := by
  refine filter_dropFirst hp fun x hx => ?_
  rcases hname with rfl | rfl <;> simp [hx]

theorem unload_first (hD : D.Documented) :
    D.modules (D.unload k ((first name (D.modules k)).map fun x => decimal x.index).toList) =
      dropFirst name (D.modules k) := by
  unfold dropFirst
  cases h : first name (D.modules k) with
  | none => exact hD.nothing k
  | some x => exact hD.unloaded k x (first_mem h).1

theorem send_ne_recv : sendName ≠ recvName := by with_unfolding_all decide

/-- The numbers of the first of both. -/
def both (modules : List Module) : List Text :=
  ((first sendName modules).map fun x => decimal x.index).toList ++
    ((first recvName modules).map fun x => decimal x.index).toList

/-- The receiver that was found is still the first one when the sender is gone. -/
theorem unload_both (hD : D.Documented) (hp : Sound (D.modules k)) :
    D.modules (D.unload (D.unload k ((both (D.modules k))[0]?).toList) ((both (D.modules k))[1]?).toList) =
      dropFirst recvName (dropFirst sendName (D.modules k)) := by
  have hkept : first recvName (dropFirst sendName (D.modules k)) = first recvName (D.modules k) := by
    rw [first, first, filter_dropFirst hp fun x hx => by simp [hx, send_ne_recv]]
  have hsend : D.modules (D.unload k ((first sendName (D.modules k)).map fun x => decimal x.index).toList) =
      dropFirst sendName (D.modules k) := unload_first hD
  have hthen : ∀ k', D.modules k' = dropFirst sendName (D.modules k) →
      D.modules (D.unload k' ((first recvName (D.modules k)).map fun x => decimal x.index).toList) =
        dropFirst recvName (dropFirst sendName (D.modules k)) := by
    intro k' hk'
    rw [← hkept, ← hk']
    exact unload_first hD
  cases hfirst : first sendName (D.modules k) with
  | some x =>
    rw [hfirst] at hsend
    have hwords : both (D.modules k) = decimal x.index ::
        ((first recvName (D.modules k)).map fun x => decimal x.index).toList := by
      rw [both, hfirst]
      rfl
    rw [hwords]
    refine Eq.trans ?_ (hthen _ hsend)
    cases first recvName (D.modules k) <;> rfl
  | none =>
    -- the only number is in the first place
    have hsame : dropFirst sendName (D.modules k) = D.modules k := by rw [dropFirst, hfirst]
    have hwords : both (D.modules k) = ((first recvName (D.modules k)).map fun x => decimal x.index).toList := by
      rw [both, hfirst]
      rfl
    have hrecv := hthen k hsame.symm
    rw [hwords]
    cases hsecond : first recvName (D.modules k) with
    | some y =>
      rw [hsecond] at hrecv
      exact (hD.nothing _).trans hrecv
    | none =>
      rw [hsecond] at hrecv
      exact (hD.nothing _).trans hrecv

/-! #### The queues -/

theorem load_send_refines (hD : D.Documented) (h : Refines others (D.modules k) q) (works : Bool)
    (address : Text) : Refines others (D.modules (D.load k works sendName (sendArgument address)))
      { q with send := if works then q.send ++ [address] else q.send } := by
  refine ⟨load_sound hD h.sound works (.inr rfl) _, ?_, ?_, (rest_load hD works (.inr rfl) _).trans h.rest⟩
  · cases works <;> simp [named_load hD, h.send]
  · simp [named_load hD, h.recv, send_ne_recv]

theorem load_recv_refines (hD : D.Documented) (h : Refines others (D.modules k) q) (works : Bool)
    (address : Text) : Refines others (D.modules (D.load k works recvName (recvArgument address)))
      { q with recv := if works then q.recv ++ [address] else q.recv } := by
  refine ⟨load_sound hD h.sound works (.inl rfl) _, ?_, ?_, (rest_load hD works (.inl rfl) _).trans h.rest⟩
  · simp [named_load hD, h.send, send_ne_recv.symm]
  · cases works <;> simp [named_load hD, h.recv]

theorem dropFirst_send_refines (h : Refines others modules q) :
    Refines others (dropFirst sendName modules) { q with send := q.send.tail } := by
  refine ⟨dropFirst_sound h.sound _, ?_, ?_, (rest_dropFirst h.sound (.inr rfl)).trans h.rest⟩
  · rw [named_dropFirst h.sound, if_pos rfl, h.send, List.map_tail]
  · rw [named_dropFirst h.sound, if_neg send_ne_recv.symm, h.recv]

theorem dropFirst_recv_refines (h : Refines others modules q) :
    Refines others (dropFirst recvName modules) { q with recv := q.recv.tail } := by
  refine ⟨dropFirst_sound h.sound _, ?_, ?_, (rest_dropFirst h.sound (.inl rfl)).trans h.rest⟩
  · rw [named_dropFirst h.sound, if_neg send_ne_recv, h.send]
  · rw [named_dropFirst h.sound, if_pos rfl, h.recv, List.map_tail]

/-! #### With the number in the third field -/

/-- The third field is the number of the module, behind a `#`. -/
def Printer.Numbered (P : Printer) : Prop := ∀ n : Nat, thirdField (P.header n) = decimal n

theorem decimal_address (n : Nat) : IsAddress (decimal n) := by
  refine ⟨Libc.decimal_ne_nil _, fun c hc => ?_⟩
  rw [Libc.decimal_nat] at hc
  have hdigit := Libc.toDigits_digit n c hc
  have hno : ∀ d : Char, d.isDigit = false → c ≠ d := by
    rintro d hd rfl
    exact absurd hdigit (by simp [hd])
  have hblank : c ≠ ' ' ∧ c ≠ '\t' ∧ c ≠ '\n' := ⟨hno _ (by decide), hno _ (by decide), hno _ (by decide)⟩
  have hpattern : c ≠ '*' ∧ c ≠ '?' ∧ c ≠ '[' := ⟨hno _ (by decide), hno _ (by decide), hno _ (by decide)⟩
  exact ⟨by simp [isInert, Shell.isIfs, Shell.isPattern, hblank, hpattern], hno _ (by decide), hno _ (by decide)⟩

theorem unload_found (hP : Documented P) (hnumbered : P.Numbered) (hp : Sound modules) (hname : IsRtp name) :
    fields (indexOf P modules name) = ((first name modules).map fun x => decimal x.index).toList := by
  rw [indexOf_first hP hname hp, ← first]
  cases first name modules with
  | none => rfl
  | some x =>
    simp only [Option.map_some, Option.getD_some, hnumbered x.index, Option.toList_some]
    exact fields_address (decimal_address x.index)

theorem finds_numbered (hP : Documented P) (hnumbered : P.Numbered) (hp : Sound modules) : P.Finds modules := by
  intro name hname
  rw [indexOf_first hP hname hp]
  cases (modules.filter (·.name = name)).head? with
  | none => exact .inl rfl
  | some x => exact .inr (by simpa [hnumbered x.index] using decimal_address x.index)

/-- **One request.** -/
theorem step_refines (hm : m.present pactl = true) (hD : D.Documented) (hP : Documented P)
    (hnumbered : P.Numbered) (h : Refines others (D.modules k) q) (haddress : IsAddress r.address) :
    Refines others (D.modules (rtpController m P D true k r)) (q.step r) := by
  rw [rtpController_eq hm (finds_numbered hP hnumbered h.sound) haddress,
    unload_found hP hnumbered h.sound (.inl rfl), unload_found hP hnumbered h.sound (.inr rfl), Queues.step]
  cases r.action with
  | startRecv => exact load_recv_refines hD h _ _
  | startSend => exact load_send_refines hD h _ _
  | startChat => exact load_recv_refines hD (load_send_refines hD h _ _) _ _
  | stopRecv =>
    dsimp only
    rw [unload_first hD]
    exact dropFirst_recv_refines h
  | stopSend =>
    dsimp only
    rw [unload_first hD]
    exact dropFirst_send_refines h
  | stopChat =>
    dsimp only
    rw [← both, unload_both hD h.sound]
    exact dropFirst_recv_refines (dropFirst_send_refines h)

/-- **Over any requests the modules are two queues: a start adds a broadcast at the end, a stop ends the
oldest one.** -/
theorem run_queues (hm : m.present pactl = true) (hD : D.Documented) (hP : Documented P)
    (hnumbered : P.Numbered) (h : Refines others (D.modules k) q) {rs : List Request}
    (hrs : ∀ r ∈ rs, IsAddress r.address) :
    Refines others (D.modules (run (rtpController m P D true) k rs)) (run Queues.step q rs) := by
  induction rs generalizing k q with
  | nil => exact h
  | cons r rs ih =>
    obtain ⟨haddress, hrs⟩ := List.forall_mem_cons.mp hrs
    exact ih (step_refines hm hD hP hnumbered h haddress) hrs

/-! #### With the number elsewhere -/

/-- Broadcasts that are only ever started. -/
def Queues.pile (q : Queues) (r : Request) : Queues :=
  match r.action with
  | .stopRecv | .stopSend | .stopChat => q
  | _ => q.step r

theorem step_piles (hm : m.present pactl = true) (hD : D.Documented) (hP : Documented P)
    (hnone : ∀ n, thirdField (P.header n) = []) (h : Refines others (D.modules k) q)
    (haddress : IsAddress r.address) :
    Refines others (D.modules (rtpController m P D true k r)) (q.pile r) := by
  have hfound : ∀ name, IsRtp name → indexOf P (D.modules k) name = [] := by
    intro name hname
    rw [indexOf_first hP hname h.sound]
    cases ((D.modules k).filter (·.name = name)).head? with
    | none => rfl
    | some x => exact hnone x.index
  have hwords : ∀ name, IsRtp name → fields (indexOf P (D.modules k) name) = [] := by
    intro name hname
    rw [hfound name hname]
    rfl
  rw [rtpController_eq hm (fun name hname => .inl (hfound name hname)) haddress, hwords _ (.inl rfl),
    hwords _ (.inr rfl), Queues.pile, Queues.step]
  cases r.action with
  | startRecv => exact load_recv_refines hD h _ _
  | startSend => exact load_send_refines hD h _ _
  | startChat => exact load_recv_refines hD (load_send_refines hD h _ _) _ _
  | stopRecv | stopSend => exact (hD.nothing k).symm ▸ h
  | stopChat => exact ((hD.nothing _).trans (hD.nothing k)).symm ▸ h

/-- **Where pactl prints the number elsewhere no broadcast ever ends.** -/
theorem run_piles (hm : m.present pactl = true) (hD : D.Documented) (hP : Documented P)
    (hnone : ∀ n, thirdField (P.header n) = []) (h : Refines others (D.modules k) q) {rs : List Request}
    (hrs : ∀ r ∈ rs, IsAddress r.address) :
    Refines others (D.modules (run (rtpController m P D true) k rs)) (run Queues.pile q rs) := by
  induction rs generalizing k q with
  | nil => exact h
  | cons r rs ih =>
    obtain ⟨haddress, hrs⟩ := List.forall_mem_cons.mp hrs
    exact ih (step_piles hm hD hP hnone h haddress) hrs

end Runs

/-! ### Two servers -/

section Servers

/-- `*** Module #5 ***`. -/
def starredHeader (n : Nat) : Text := lit "*** Module" ++ ' ' :: ('#' :: decimal n ++ ' ' :: lit "***")

/-- `Module #5`. -/
def plainHeader (n : Nat) : Text := lit "Module" ++ ' ' :: '#' :: decimal n

def printer (header : Nat → Text) : Printer := ⟨header, fun _ => [lit "Usage counter: n/a"], fun _ => []⟩

theorem fields_number (n : Nat) : fields ('#' :: decimal n) = ['#' :: decimal n] := by
  refine Shell.fields_word (by simp) fun c hc => ?_
  rcases List.mem_cons.mp hc with rfl | hc
  · decide
  · exact (Shell.isInert_facts ((decimal_address n).2 c hc).1).1

theorem starred_third (n : Nat) : thirdField (starredHeader n) = decimal n := by
  have hstart : fields (lit "*** Module") = [lit "***", lit "Module"] := by with_unfolding_all decide
  have hend : fields (lit "***") = [lit "***"] := by with_unfolding_all decide
  have hdigits : ∀ c ∈ decimal n, decide (c ≠ '#') = true := by
    intro c hc
    rw [Libc.decimal_nat] at hc
    have hdigit := Libc.toDigits_digit n c hc
    exact decide_eq_true fun heq => absurd hdigit (by rw [heq]; decide)
  rw [thirdField, starredHeader, Shell.fields_split rfl, Shell.fields_split rfl, hstart, fields_number, hend]
  simpa using hdigits

theorem plain_third (n : Nat) : thirdField (plainHeader n) = [] := by
  have hstart : fields (lit "Module") = [lit "Module"] := by with_unfolding_all decide
  rw [thirdField, plainHeader, Shell.fields_split rfl, hstart, fields_number]
  rfl

/-- The names have an `m`, and no other line has one. -/
theorem printer_documented {header : Nat → Text} (h : ∀ n, 'm' ∉ header n) : Documented (printer header) := by
  have hname : ∀ name, IsRtp name → 'm' ∈ name := by
    rintro name (rfl | rfl) <;> with_unfolding_all decide
  have hline : 'm' ∉ lit "Usage counter: n/a" := by with_unfolding_all decide
  refine ⟨fun name hrtp n hin => h n (hin.subset (hname name hrtp)), fun name hrtp x line hl hin => ?_,
    fun _ _ _ _ hl => absurd hl (by simp [printer])⟩
  rw [List.mem_singleton.mp hl] at hin
  exact absurd (hin.subset (hname name hrtp)) hline

theorem decimal_no_m (n : Nat) : 'm' ∉ decimal n := by
  rw [Libc.decimal_nat]
  exact Libc.not_mem_toDigits (by decide) n

theorem starred_documented : Documented (printer starredHeader) := by
  refine printer_documented fun n => ?_
  have hwords : 'm' ∉ lit "*** Module" ∧ 'm' ∉ lit "***" := by with_unfolding_all decide
  simp [starredHeader, decimal_no_m, hwords]

theorem plain_documented : Documented (printer plainHeader) := by
  refine printer_documented fun n => ?_
  have hword : 'm' ∉ lit "Module" := by with_unfolding_all decide
  simp [plainHeader, decimal_no_m, hword]

/-- Each module gets the number after the highest. -/
def countingPulse : Pulse (List Module) where
  modules k := k
  load k works name argument :=
    if works then k ++ [⟨(k.map Module.index).foldr max 0 + 1, name, argument⟩] else k
  unload k
    | [n] => k.filter fun x => decimal x.index ≠ n
    | _ => k

theorem le_highest {x : Module} {k : List Module} (hx : x ∈ k) :
    x.index ≤ (k.map Module.index).foldr max 0 := by
  induction k with
  | nil => exact absurd hx (by simp)
  | cons y k ih =>
    rcases List.mem_cons.mp hx with rfl | hx
    · exact le_max_left _ _
    · exact (ih hx).trans (le_max_right _ _)

theorem countingPulse_documented : countingPulse.Documented where
  loaded k name argument :=
    ⟨_, fun x hx => ((le_highest hx).trans_lt (Nat.lt_succ_self _)).ne, rfl⟩
  refused _ _ _ := rfl
  unloaded k x _ := by
    refine List.filter_congr fun y _ => ?_
    have hsame : decimal y.index = decimal x.index ↔ y.index = x.index :=
      Libc.decimal_injective.eq_iff.trans Nat.cast_inj
    simp [hsame]
  nothing _ := rfl

/-- A machine that has the script. -/
def pactlMachine : Machine := { Daemonize.plainMachine with present := fun f => decide (f = pactl) }

/-- A broadcast is received, then another one, and one is stopped. -/
def threeRequests : List Request :=
  [⟨.startRecv, lit "225.0.0.1", ⟨true, true⟩⟩, ⟨.startRecv, lit "225.0.0.2", ⟨true, true⟩⟩,
    ⟨.stopRecv, lit "none", ⟨true, true⟩⟩]

theorem threeRequests_addresses : ∀ r ∈ threeRequests, IsAddress r.address := by
  intro r hr
  simp only [threeRequests, List.mem_cons, List.not_mem_nil, or_false] at hr
  rcases hr with rfl | rfl | rfl <;>
    exact ⟨by with_unfolding_all decide, Shell.each (by with_unfolding_all decide)⟩

theorem refines_none : Refines [] (countingPulse.modules []) ⟨[], []⟩ :=
  ⟨⟨List.nodup_nil, fun _ hx => absurd hx (by simp [countingPulse])⟩, rfl, rfl, rfl⟩

theorem run_queues_three : Refines []
    (countingPulse.modules (run (rtpController pactlMachine (printer starredHeader) countingPulse true) []
      threeRequests)) (run Queues.step ⟨[], []⟩ threeRequests) :=
  run_queues (decide_eq_true rfl) countingPulse_documented starred_documented starred_third refines_none
    threeRequests_addresses

theorem run_piles_three : Refines []
    (countingPulse.modules (run (rtpController pactlMachine (printer plainHeader) countingPulse true) []
      threeRequests)) (run Queues.pile ⟨[], []⟩ threeRequests) :=
  run_piles (decide_eq_true rfl) countingPulse_documented plain_documented plain_third refines_none
    threeRequests_addresses

/-- The first broadcast ends, the second goes on. -/
example : run Queues.step ⟨[], []⟩ threeRequests = ⟨[], [lit "225.0.0.2"]⟩ := rfl

end Servers

end Tcos.Scripts.Rtp
