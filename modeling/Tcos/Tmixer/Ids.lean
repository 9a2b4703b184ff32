import Tcos.Libc.Printed
import Tcos.Libc.Strtok
import Tcos.Tmixer.Sset

/-! How tmixer names controls.

`controls` and `sevents` print the identifiers that `cset` and `sset` take. `parseControlId_show` and
`parseSimpleId_show` say which of the printed identifiers are read back: the buffer for the name of a
control is not terminated, and a quote in the name of a simple control ends it. -/
namespace Tcos.Tmixer.Ids
open Shell (Text lit)
open Libc (nul byte cstr overlay atoi decimal)

/-! ### Identifiers -/

/-- The interfaces of the library. -/
inductive Iface where
  | card
  | hwdep
  | mixer
  | pcm
  | rawmidi
  | timer
  | sequencer
  deriving DecidableEq, Repr

/-- `snd_ctl_elem_iface_name`. -/
def Iface.name : Iface → Text
  | .card => lit "CARD"
  | .hwdep => lit "HWDEP"
  | .mixer => lit "MIXER"
  | .pcm => lit "PCM"
  | .rawmidi => lit "RAWMIDI"
  | .timer => lit "TIMER"
  | .sequencer => lit "SEQUENCER"

/-- `snd_ctl_elem_id_t`; it starts out as zeros. -/
structure ElemId where
  numid : BitVec 32 := 0
  iface : Iface := .card
  name : Text := []
  index : BitVec 32 := 0
  device : BitVec 32 := 0
  subdevice : BitVec 32 := 0
  deriving DecidableEq, Repr

/-- `,key=%i`, unless the number is zero. -/
def showNumber (key : Text) (n : BitVec 32) : Text :=
  if n ≠ 0 then ',' :: (key ++ decimal n.toInt) else []

def showControlId (id : ElemId) : Text :=
  lit "numid=" ++ (Nat.toDigits 10 id.numid.toNat ++ (lit ",iface=" ++ (id.iface.name ++
    (lit ",name='" ++ (id.name ++ ('\'' :: (showNumber (lit "index=") id.index ++
      (showNumber (lit "device=") id.device ++ showNumber (lit "subdevice=") id.subdevice))))))))

/-! ### parse_control_id -/

/-- The interfaces that are compared, in order. -/
def ifaces : List (Text × Iface) :=
  [(lit "card", .card), (lit "mixer", .mixer), (lit "pcm", .pcm), (lit "rawmidi", .rawmidi),
    (lit "timer", .timer), (lit "sequencer", .sequencer)]

/-- What is between quotes and what follows them; the second quote may be missing. -/
def betweenQuotes (c : Char) (str : Text) : Text × Text :=
  (str.takeWhile (· != c), (str.dropWhile (· != c)).drop 1)

section Parse
-- `stack` is the memory from `buf` on
variable (setName : Text → Text) (stack : Text)

def nameSize : Nat := 64

/-- What `buf` holds in the end, and what follows the name. Only a name without quotes is terminated. -/
def readName : Text → Text × Text
  | [] => (cstr (overlay stack 0 [nul]) 0, [])
  | c :: str =>
    if c = '\'' ∨ c = '"' then
      (cstr (overlay stack 0 ((betweenQuotes c str).1.take nameSize)) 0, (betweenQuotes c str).2)
    else
      (cstr (overlay stack 0 (((c :: str).takeWhile (· != ',')).take nameSize ++ [nul])) 0,
        (c :: str).dropWhile (· != ','))

/-- One turn of the loop, up to the comma: what follows, and the identifier. -/
def field (str : Text) (id : ElemId) : Option (Text × ElemId) :=
  if startsCase (lit "numid=") str then
    let str := str.drop 6
    if atoi str ≤ 0 then none
    else some (str.dropWhile Char.isDigit, { id with numid := .ofInt 32 (atoi str) })
  else if startsCase (lit "iface=") str then
    let str := str.drop 6
    (ifaces.find? fun i => startsCase i.1 str).map fun i =>
      (str.drop i.1.length, { id with iface := i.2 })
  else if startsCase (lit "name=") str then
    some ((readName stack (str.drop 5)).2, { id with name := setName (readName stack (str.drop 5)).1 })
  else if startsCase (lit "index=") str then
    some ((str.drop 6).dropWhile Char.isDigit, { id with index := .ofInt 32 (atoi (str.drop 6)) })
  else if startsCase (lit "device=") str then
    some ((str.drop 7).dropWhile Char.isDigit, { id with device := .ofInt 32 (atoi (str.drop 7)) })
  else if startsCase (lit "subdevice=") str then
    some ((str.drop 10).dropWhile Char.isDigit, { id with subdevice := .ofInt 32 (atoi (str.drop 10)) })
  else some (str, id)

/-- The loop; `some none` is `-EINVAL`. -/
def fields : Nat → Text → ElemId → Option (Option ElemId)
  | 0, _, _ => none
  | fuel + 1, str, id =>
    if str = [] then some (some id)
    else match field setName stack str id with
      | none => some none
      | some (c :: str, id) => if c = ',' then fields fuel str id else some none
      | some ([], id) => some (some id)

def parseControlId (str : Text) : Option (Option ElemId) :=
  let str := str.dropWhile fun c => c == ' ' || c == '\t'
  if str = [] then some none
  else fields setName stack (str.length + 1) str { iface := .mixer }

end Parse

/-! ### Simple controls -/

/-- `'%s',%i`, as sevents_value and the others print it. -/
def showSimpleId (name : Text) (index : BitVec 32) : Text :=
  '\'' :: (name ++ lit "'," ++ decimal index.toInt)

def simpleNameSize : Nat := 128

/-- The name and what follows it. -/
def simpleName : Text → Text × Text
  | [] => ([], [])
  | c :: str =>
    if c = '"' ∨ c = '\'' then
      ((betweenQuotes c str).1.take (simpleNameSize - 1), (betweenQuotes c str).2)
    else
      (((c :: str).takeWhile (· != ',')).take (simpleNameSize - 1), (c :: str).dropWhile (· != ','))

/-- The name and the index; `none` is `-EINVAL`. -/
def parseSimpleId (setName : Text → Text) (str : Text) : Option (Text × BitVec 32) :=
  let str := str.dropWhile fun c => c == ' ' || c == '\t'
  if str = [] then none
  else match simpleName str with
    | (name, []) => some (setName name, 0)
    | (name, c :: str) =>
      if c ≠ ',' then none
      else if (str.head?.map Char.isDigit).getD false then some (setName name, .ofInt 32 (atoi str))
      else none

/-! ### Words in either case -/

/-- Two texts that differ in a byte, in either case. -/
def differs (key t : Text) : Bool := (key.zip t).any fun x => x.1.toLower != x.2.toLower

theorem startsCase_differs {key t : Text} (h : differs key t = true) (rest : Text) :
    startsCase key (t ++ rest) = false := by
  induction key generalizing t with
  | nil => simp [differs] at h
  | cons c key ih =>
    cases t with
    | nil => simp [differs] at h
    | cons d t =>
      rw [startsCase, List.cons_append, List.length_cons, List.take_succ_cons, List.map_cons,
        List.map_cons, beq_eq_false_iff_ne]
      intro heq
      obtain ⟨hhead, htail⟩ := List.cons.inj heq
      have hrest : differs key t = true := by simpa [differs, hhead] using h
      have := ih hrest
      rw [startsCase, beq_eq_false_iff_ne] at this
      exact this htail

theorem startsCase_same {key t : Text} (hlen : key.length = t.length)
    (h : key.map Char.toLower = t.map Char.toLower) (rest : Text) : startsCase key (t ++ rest) = true := by
  rw [startsCase, hlen, List.take_left, h, beq_self_eq_true]

theorem startsCase_ifaces (i : Iface) (rest : Text) :
    ∀ x ∈ ifaces, startsCase x.1 (i.name ++ rest) = decide (x.2 = i) := by
  have hall : ∀ i : Iface, (ifaces.all fun x => if x.2 = i then decide (x.1.length = i.name.length ∧
      x.1.map Char.toLower = i.name.map Char.toLower) else differs x.1 i.name) = true := by
    intro i
    cases i <;> with_unfolding_all decide
  intro x hx
  have h := List.all_eq_true.mp (hall i) x hx
  by_cases heq : x.2 = i
  · rw [if_pos heq, decide_eq_true_iff] at h
    rw [startsCase_same h.1 h.2, decide_eq_true heq]
  · rw [if_neg heq] at h
    rw [startsCase_differs h, decide_eq_false heq]

/-! ### One field -/

section Field
variable (setName : Text → Text) (stack : Text) (rest : Text) (id : ElemId)

theorem skip_signed (b : BitVec 32) {rest : Text} (hrest : ∀ c ∈ rest.head?, c.isDigit = false) :
    (decimal b.toInt ++ rest).dropWhile Char.isDigit =
      if b.toInt < 0 then decimal b.toInt ++ rest else rest :=
  Libc.skip_printed hrest

theorem field_numid (b : BitVec 32) {rest : Text} (hrest : ∀ c ∈ rest.head?, c.isDigit = false) :
    field setName stack (lit "numid=" ++ (Nat.toDigits 10 b.toNat ++ rest)) id =
      if b.toInt ≤ 0 then none else some (rest, { id with numid := b }) := by
  have hlen : (lit "numid=").length = 6 := by with_unfolding_all decide
  have hskip := (Libc.digits_read (Libc.toDigits_digit b.toNat) hrest).2
  rw [field, startsCase_same rfl rfl, if_pos rfl, List.drop_left' hlen]
  simp only [Libc.atoi_unsigned b hrest, hskip, BitVec.ofInt_toInt]

theorem field_iface (i : Iface) (rest : Text) :
    field setName stack (lit "iface=" ++ (i.name ++ rest)) id =
      if i = .hwdep then none else some (rest, { id with iface := i }) := by
  have hlen : (lit "iface=").length = 6 := by with_unfolding_all decide
  have hfind : (ifaces.find? fun x => startsCase x.1 (i.name ++ rest)) =
      ifaces.find? fun x => decide (x.2 = i) :=
    List.find?_congr fun x hx => startsCase_ifaces i rest x hx
  have hown : ∀ i : Iface, (ifaces.find? fun x => decide (x.2 = i)).map (fun x => (x.1.length, x.2)) =
      if i = .hwdep then none else some (i.name.length, i) := by
    intro i
    cases i <;> with_unfolding_all decide
  rw [field, startsCase_differs (by with_unfolding_all decide), startsCase_same rfl rfl,
    if_neg Bool.false_ne_true, if_pos rfl, List.drop_left' hlen]
  simp only [hfind]
  have hi := hown i
  cases hx : ifaces.find? fun x => decide (x.2 = i) with
  | none =>
    rw [hx, Option.map_none] at hi
    split at hi
    · simp [*]
    · exact absurd hi (by simp)
  | some x =>
    rw [hx, Option.map_some] at hi
    split at hi
    · exact absurd hi (by simp)
    · rename_i hne
      obtain ⟨hlength, hiface⟩ := Prod.mk.inj (Option.some.inj hi)
      rw [if_neg hne, Option.map_some, hlength, hiface, List.drop_left]

/-- What becomes of a name in quotes. -/
def storedName (name : Text) : Text := setName (cstr (overlay stack 0 (name.take nameSize)) 0)

theorem field_name {name : Text} (hname : '\'' ∉ name) (rest : Text) :
    field setName stack (lit "name=" ++ ('\'' :: (name ++ '\'' :: rest))) id =
      some (rest, { id with name := storedName setName stack name }) := by
  have hlen : (lit "name=").length = 5 := by with_unfolding_all decide
  have hall : ∀ c ∈ name, (c != '\'') = true := fun c hc => by
    rw [bne_iff_ne]
    rintro rfl
    exact hname hc
  have hquotes : betweenQuotes '\'' (name ++ '\'' :: rest) = (name, rest) := by
    rw [betweenQuotes, List.takeWhile_append_of_pos hall, List.dropWhile_append_of_pos hall]
    simp
  rw [field, startsCase_differs (by with_unfolding_all decide),
    startsCase_differs (by with_unfolding_all decide), startsCase_same rfl rfl,
    if_neg Bool.false_ne_true, if_neg Bool.false_ne_true, if_pos rfl, List.drop_left' hlen, readName,
    if_pos (.inl rfl), hquotes]
  rfl

/-- The number of a field, read back or left where it stands. -/
def numberRest (b : BitVec 32) (rest : Text) : Text :=
  if b.toInt < 0 then decimal b.toInt ++ rest else rest

/-- The fields with a number. -/
inductive Number where
  | index
  | device
  | subdevice
  deriving DecidableEq, Repr

def Number.key : Number → Text
  | .index => lit "index="
  | .device => lit "device="
  | .subdevice => lit "subdevice="

def Number.get (id : ElemId) : Number → BitVec 32
  | .index => id.index
  | .device => id.device
  | .subdevice => id.subdevice

def Number.put (id : ElemId) (b : BitVec 32) : Number → ElemId
  | .index => { id with index := b }
  | .device => { id with device := b }
  | .subdevice => { id with subdevice := b }

theorem Number.put_get (id : ElemId) (k : Number) : k.put id (k.get id) = id := by
  cases k <;> rfl

theorem field_number (k : Number) (b : BitVec 32) {rest : Text} (hrest : ∀ c ∈ rest.head?, c.isDigit = false) :
    field setName stack (k.key ++ (decimal b.toInt ++ rest)) id =
      some (numberRest b rest, k.put id b) := by
  have hlen : (lit "index=").length = 6 ∧ (lit "device=").length = 7 ∧ (lit "subdevice=").length = 10 := by
    with_unfolding_all decide
  obtain ⟨hindex, hdevice, hsubdevice⟩ := hlen
  have hno : ∀ q ∈ [lit "numid=", lit "iface=", lit "name="],
      startsCase q (k.key ++ (decimal b.toInt ++ rest)) = false := by
    intro q hq
    refine startsCase_differs ?_ _
    revert q
    cases k <;> with_unfolding_all decide
  simp only [List.forall_mem_cons] at hno
  rw [field, hno.1, hno.2.1, hno.2.2.1, if_neg Bool.false_ne_true, if_neg Bool.false_ne_true,
    if_neg Bool.false_ne_true]
  cases k with
  | index =>
    rw [Number.key, startsCase_same rfl rfl, if_pos rfl, List.drop_left' hindex, Libc.atoi_signed b hrest,
      skip_signed b hrest, BitVec.ofInt_toInt]
    rfl
  | device =>
    rw [Number.key, startsCase_differs (by with_unfolding_all decide), startsCase_same rfl rfl,
      if_neg Bool.false_ne_true, if_pos rfl, List.drop_left' hdevice, Libc.atoi_signed b hrest,
      skip_signed b hrest, BitVec.ofInt_toInt]
    rfl
  | subdevice =>
    rw [Number.key, startsCase_differs (by with_unfolding_all decide),
      startsCase_differs (by with_unfolding_all decide), startsCase_same rfl rfl,
      if_neg Bool.false_ne_true, if_neg Bool.false_ne_true, if_pos rfl, List.drop_left' hsubdevice,
      Libc.atoi_signed b hrest, skip_signed b hrest, BitVec.ofInt_toInt]
    rfl

end Field

/-! ### A printed identifier -/

section Loop
variable (setName : Text → Text) (stack : Text) (id : ElemId)

/-- What a turn of the loop does after its field. -/
def finish (fuel : Nat) : Option (Text × ElemId) → Option (Option ElemId)
  | none => some none
  | some (c :: str, id) => if c = ',' then fields setName stack fuel str id else some none
  | some ([], id) => some (some id)

theorem fields_succ {str : Text} (h : str ≠ []) (fuel : Nat) :
    fields setName stack (fuel + 1) str id = finish setName stack fuel (field setName stack str id) := by
  rw [fields, if_neg h]
  cases field setName stack str id with
  | none => rfl
  | some r =>
    obtain ⟨_ | ⟨c, str⟩, id⟩ := r <;> rfl

/-- **A number that is not negative is read back; any other is invalid.** -/
theorem finish_number (k : Number) (hzero : k.get id = 0) (b : BitVec 32) {rest : Text}
    (hrest : ∀ c ∈ rest.head?, c.isDigit = false) (fuel : Nat) : ∃ fuel', fuel ≤ fuel' ∧
      finish setName stack (fuel + 1) (some (showNumber k.key b ++ rest, id)) =
        if b.toInt < 0 then some none else finish setName stack fuel' (some (rest, k.put id b)) := by
  by_cases hb : b = 0
  · have hput : k.put id b = id := by rw [hb, ← hzero, k.put_get]
    refine ⟨fuel + 1, Nat.le_succ fuel, ?_⟩
    rw [hput, hb]
    rfl
  · have hkey : k.key ++ (decimal b.toInt ++ rest) ≠ [] := by
      simp [Libc.decimal_ne_nil]
    refine ⟨fuel, Nat.le_refl fuel, ?_⟩
    rw [showNumber, if_pos hb, List.cons_append, List.append_assoc, finish, if_pos rfl,
      fields_succ setName stack id hkey, field_number setName stack id k b hrest, numberRest]
    split
    case isTrue hneg =>
      rw [decimal, if_pos hneg, List.cons_append, finish, if_neg (by decide)]
    case isFalse => rfl

/-- What a comma or the end begins. -/
theorem head_showNumber (k : Number) (b : BitVec 32) {rest : Text}
    (hrest : ∀ c ∈ rest.head?, c.isDigit = false) :
    ∀ c ∈ (showNumber k.key b ++ rest).head?, c.isDigit = false := by
  intro c hc
  unfold showNumber at hc
  split at hc
  · rw [List.cons_append, List.head?_cons, Option.mem_some_iff] at hc
    rw [← hc]
    rfl
  · exact hrest c hc

/-- The three numbers at the end. -/
theorem finish_numbers (hzero : ∀ k : Number, k.get id = 0) (index device subdevice : BitVec 32)
    (fuel : Nat) : finish setName stack (fuel + 3) (some (showNumber (lit "index=") index ++
        (showNumber (lit "device=") device ++ showNumber (lit "subdevice=") subdevice), id)) =
      if index.toInt < 0 ∨ device.toInt < 0 ∨ subdevice.toInt < 0 then some none
      else some (some { id with index := index, device := device, subdevice := subdevice }) := by
  have hend : ∀ c ∈ ([] : Text).head?, c.isDigit = false := by simp
  have hlast := head_showNumber .subdevice subdevice hend
  have hmiddle := head_showNumber .device device hlast
  obtain ⟨f, hf, hindex⟩ := finish_number setName stack id .index (hzero .index) index hmiddle (fuel + 2)
  obtain ⟨f, rfl⟩ : ∃ k, f = k + 1 := Nat.exists_eq_add_one.mpr (by omega)
  obtain ⟨g, hg, hdevice⟩ := finish_number setName stack (Number.put id index .index) .device
    (hzero .device) device hlast f
  obtain ⟨g, rfl⟩ : ∃ k, g = k + 1 := Nat.exists_eq_add_one.mpr (by omega)
  obtain ⟨h, hh, hsubdevice⟩ := finish_number setName stack
    (Number.put (Number.put id index .index) device .device) .subdevice (hzero .subdevice) subdevice hend g
  rw [List.append_nil] at hindex hdevice hsubdevice hlast hmiddle
  simp only [Number.key] at hindex hdevice hsubdevice
  rw [hindex]
  by_cases h1 : index.toInt < 0
  · simp [h1]
  rw [if_neg h1, hdevice]
  by_cases h2 : device.toInt < 0
  · simp [h2]
  rw [if_neg h2, hsubdevice]
  by_cases h3 : subdevice.toInt < 0
  · simp [h3]
  rw [if_neg h3, if_neg (by simp [h1, h2, h3])]
  rfl

end Loop

section Control
variable (setName : Text → Text) (stack : Text)

/-- What makes a printed identifier invalid. -/
def IsInvalid (id : ElemId) : Prop :=
  id.numid.toInt ≤ 0 ∨ id.iface = .hwdep ∨ id.index.toInt < 0 ∨ id.device.toInt < 0 ∨
    id.subdevice.toInt < 0

instance (id : ElemId) : Decidable (IsInvalid id) := by
  unfold IsInvalid
  infer_instance

/-- **How a printed identifier is read.** -/
theorem parseControlId_printed (id : ElemId) (hname : '\'' ∉ id.name) :
    parseControlId setName stack (showControlId id) = if IsInvalid id then some none
      else some (some { id with name := storedName setName stack id.name }) := by
  have hwords : lit "numid=" = 'n' :: lit "umid=" ∧ lit ",iface=" = ',' :: lit "iface=" ∧
      lit ",name='" = ',' :: (lit "name=" ++ ['\'']) ∧ (lit "numid=").length = 6 := by
    with_unfolding_all decide
  obtain ⟨hnumid, hiface, hquote, hsix⟩ := hwords
  have hne : ∀ {t s : Text}, t ≠ [] → t ++ s ≠ [] := fun ht h => ht (List.append_eq_nil_iff.mp h).1
  have hkeys : lit "iface=" ≠ [] ∧ lit "name=" ≠ [] := by with_unfolding_all decide
  have hcomma : ∀ s : Text, ∀ c ∈ (',' :: s).head?, c.isDigit = false := by
    intro s c hc
    rw [List.head?_cons, Option.mem_some_iff] at hc
    rw [← hc]
    rfl
  have hblank : (showControlId id).dropWhile (fun c => c == ' ' || c == '\t') = showControlId id := by
    rw [showControlId, hnumid, List.cons_append, List.dropWhile_cons, if_neg (by decide)]
  have hsome : showControlId id ≠ [] := by simp [showControlId, hnumid]
  obtain ⟨fuel, hfuel⟩ : ∃ k, (showControlId id).length + 1 = k + 3 + 3 :=
    ⟨(showControlId id).length - 5, by
      have : 6 ≤ (showControlId id).length := by
        rw [showControlId, List.length_append, hsix]
        omega
      omega⟩
  have hzero : ∀ name, ∀ k : Number, k.get { numid := id.numid, iface := id.iface, name } = 0 := by
    intro name k
    cases k <;> rfl
  rw [parseControlId, hblank]
  simp only [hsome, if_false]
  rw [hfuel, fields_succ _ _ _ hsome, showControlId, hiface, List.cons_append,
    field_numid _ _ _ _ (hcomma _)]
  by_cases h1 : id.numid.toInt ≤ 0
  · rw [if_pos h1, if_pos (.inl h1)]
    rfl
  rw [if_neg h1, finish, if_pos rfl, fields_succ _ _ _ (hne hkeys.1), field_iface]
  by_cases h2 : id.iface = .hwdep
  · rw [if_pos h2, if_pos (.inr (.inl h2))]
    rfl
  rw [if_neg h2, hquote, List.cons_append, finish, if_pos rfl, List.append_assoc,
    fields_succ _ _ _ (hne hkeys.2), List.singleton_append, field_name _ _ _ hname,
    finish_numbers _ _ _ (hzero _)]
  simp only [IsInvalid, h1, h2, false_or]

end Control

/-- The name is kept if it fills the library's buffer, or if the stack happens to end it. -/
theorem storedName_iff {setName : Text → Text} {size : Nat} (hset : ∀ t, setName t = t.take size)
    {name : Text} (hnul : nul ∉ name) (hlen : name.length ≤ size) (hsize : size ≤ nameSize) (stack : Text) :
    storedName setName stack name = name ↔ name.length = size ∨ byte stack name.length = nul := by
  have hread : cstr (overlay stack 0 (name.take nameSize)) 0 = name ++ cstr stack name.length := by
    have hall : ∀ c ∈ name, (c != nul) = true := fun c hc => by
      rw [bne_iff_ne]
      rintro rfl
      exact hnul hc
    rw [List.take_of_length_le (hlen.trans hsize), cstr, overlay, List.take_zero, List.nil_append,
      List.drop_zero, List.takeWhile_append_of_pos hall, Nat.zero_add]
    rfl
  rw [storedName, hset, hread, Libc.byte_cstr, List.take_append, List.take_of_length_le hlen,
    List.append_right_eq_self, List.take_eq_nil_iff]
  exact or_congr_left (by omega)

/-- **Which printed controls `cset` finds again.** -/
theorem parseControlId_show {setName : Text → Text} (hset : ∀ t, setName t = t.take 43) (stack : Text)
    {id : ElemId} (hname : '\'' ∉ id.name ∧ nul ∉ id.name) (hlen : id.name.length ≤ 43) :
    parseControlId setName stack (showControlId id) = some (some id) ↔
      (0 < id.numid.toInt ∧ id.iface ≠ .hwdep ∧ 0 ≤ id.index.toInt ∧ 0 ≤ id.device.toInt ∧
        0 ≤ id.subdevice.toInt) ∧ (id.name.length = 43 ∨ byte stack id.name.length = nul) := by
  have hvalid : ¬ IsInvalid id ↔ 0 < id.numid.toInt ∧ id.iface ≠ .hwdep ∧ 0 ≤ id.index.toInt ∧
      0 ≤ id.device.toInt ∧ 0 ≤ id.subdevice.toInt := by
    simp only [IsInvalid, not_or, not_le, not_lt, ne_eq]
  rw [parseControlId_printed setName stack id hname.1, ← hvalid,
    ← storedName_iff hset hname.2 hlen (by decide) stack]
  by_cases h : IsInvalid id
  · simp [h]
  · rw [if_neg h, Option.some.injEq, Option.some.injEq]
    refine ⟨fun heq => ⟨h, congrArg ElemId.name heq⟩, fun heq => ?_⟩
    rw [heq.2]

/-- A control of a sound card. -/
def pcmVolume : ElemId := { numid := 3, iface := .mixer, name := lit "PCM Volume", index := 1 }

/-- With zeros behind the name on the stack. -/
theorem parseControlId_show_pcm :
    parseControlId (·.take 43) [] (showControlId pcmVolume) = some (some pcmVolume) :=
  (parseControlId_show (fun _ => rfl) [] (by with_unfolding_all decide) (by with_unfolding_all decide)).mpr
    ⟨by with_unfolding_all decide, .inr (by with_unfolding_all decide)⟩

/-! ### A printed simple control -/

theorem betweenQuotes_cut {c : Char} {t : Text} (h : c ∉ t) (rest : Text) :
    betweenQuotes c (t ++ c :: rest) = (t, rest) := by
  have hall : ∀ d ∈ t, (d != c) = true := fun d hd => by
    rw [bne_iff_ne]
    rintro rfl
    exact h hd
  rw [betweenQuotes, List.takeWhile_append_of_pos hall, List.dropWhile_append_of_pos hall]
  simp

/-- A name in quotes, and what stands behind it. -/
theorem parseSimpleId_quoted (setName : Text → Text) {t : Text} (h : '\'' ∉ t) (rest : Text) :
    parseSimpleId setName ('\'' :: (t ++ '\'' :: rest)) =
      match rest with
      | [] => some (setName (t.take (simpleNameSize - 1)), 0)
      | c :: str =>
        if c ≠ ',' then none
        else if (str.head?.map Char.isDigit).getD false then
          some (setName (t.take (simpleNameSize - 1)), .ofInt 32 (atoi str))
        else none := by
  have hblank : ('\'' :: (t ++ '\'' :: rest)).dropWhile (fun c => c == ' ' || c == '\t') =
      '\'' :: (t ++ '\'' :: rest) := by
    rw [List.dropWhile_cons, if_neg (by decide)]
  rw [parseSimpleId, hblank]
  simp only [List.cons_ne_nil, if_false, simpleName, or_true, if_true, betweenQuotes_cut h]
  cases rest <;> rfl

/-- Only a negative number begins with no digit. -/
theorem digit_decimal (n : Int) : ((decimal n).head?.map Char.isDigit).getD false = decide (0 ≤ n) := by
  unfold decimal
  split
  case isTrue hneg => simp [hneg]
  case isFalse hneg =>
    obtain ⟨c, t, ht⟩ := List.exists_cons_of_ne_nil (Nat.toDigits_ne_nil (b := 10) (n := n.natAbs))
    have hc := Libc.toDigits_digit n.natAbs c (by simp [ht])
    rw [ht, List.head?_cons, Option.map_some, hc]
    simpa using hneg

/-- **Which printed simple controls `sset` finds again.** -/
theorem parseSimpleId_show {setName : Text → Text} (hset : ∀ t, setName t = t.take 59) {name : Text}
    (hlen : name.length ≤ 59) (index : BitVec 32) :
    parseSimpleId setName (showSimpleId name index) = some (name, index) ↔
      '\'' ∉ name ∧ 0 ≤ index.toInt := by
  have htext : lit "'," = ['\'', ','] := by with_unfolding_all decide
  by_cases hquote : '\'' ∈ name
  · -- the name ends at its first quote
    obtain ⟨a, b, rfl, ha⟩ := List.eq_append_cons_of_mem hquote
    have hshort : setName (a.take (simpleNameSize - 1)) ≠ a ++ '\'' :: b := by
      intro heq
      have hlength := congrArg List.length heq
      simp only [hset, List.length_take, List.length_append, List.length_cons] at hlength
      omega
    have hform : showSimpleId (a ++ '\'' :: b) index =
        '\'' :: (a ++ '\'' :: (b ++ (lit "'," ++ decimal index.toInt))) := by
      simp [showSimpleId]
    rw [hform, parseSimpleId_quoted setName ha]
    refine iff_of_false (fun heq => ?_) (fun h => h.1 hquote)
    split at heq
    · exact hshort (Prod.mk.inj (Option.some.inj heq)).1
    · split_ifs at heq
      exact hshort (Prod.mk.inj (Option.some.inj heq)).1
  · have hform : showSimpleId name index = '\'' :: (name ++ '\'' :: (',' :: decimal index.toInt)) := by
      simp [showSimpleId, htext]
    have hname : setName (name.take (simpleNameSize - 1)) = name := by
      have hfits : name.length ≤ simpleNameSize - 1 := hlen.trans (by decide)
      rw [hset, List.take_of_length_le hfits, List.take_of_length_le hlen]
    have hread : atoi (decimal index.toInt ++ []) = index.toInt := Libc.atoi_signed index (by simp)
    have hdigit := digit_decimal index.toInt
    rw [List.append_nil] at hread
    rw [hform, parseSimpleId_quoted setName hquote]
    simp only [ne_eq, not_true_eq_false, if_false, hname, hread, BitVec.ofInt_toInt, hdigit]
    by_cases h : 0 ≤ index.toInt <;> simp [h, hquote]

theorem parseSimpleId_show_master :
    parseSimpleId (·.take 59) (showSimpleId (lit "Master") 0) = some (lit "Master", 0) :=
  (parseSimpleId_show (fun _ => rfl) (by with_unfolding_all decide) 0).mpr
    ⟨by with_unfolding_all decide, by decide⟩

end Tcos.Tmixer.Ids
