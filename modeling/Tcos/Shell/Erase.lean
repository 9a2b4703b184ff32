import Tcos.Shell.Parser

/-! The marks on bytes change nothing that is read.

A shell sees characters. `parse_map` says that the items of a marked line, with the
marks erased, are the items of the characters alone. -/
namespace Tcos.Shell

section Erase
variable {α : Type} (ch : α → Char)

def Word.erase (w : Word α) : Word Char := w.map fun x => (ch x.1, x.2)

def Item.erase : Item α → Item Char
  | .word s w => .word s (w.erase ch)
  | .control op => .control (op.map ch)
  | .redirect op => .redirect (op.map ch)

def Reading.erase : Reading α → Reading Char
  | .gap => .gap
  | .comment => .comment
  | .operator op => .operator (op.map ch)
  | .word q w => .word q (w.erase ch)

def Parser.erase (p : Parser α) : Parser Char :=
  { p with reading := p.reading.erase ch, items := p.items.map (Item.erase ch) }

def Parse.erase (p : Parse α) : Parse Char := { p with items := p.items.map (Item.erase ch) }

@[simp] theorem erase_append (v w : Word α) :
    Word.erase ch (v ++ w) = Word.erase ch v ++ Word.erase ch w := by simp [Word.erase]

@[simp] theorem erase_single (b : α) (m : Mark) : Word.erase ch [(b, m)] = [(ch b, m)] := rfl

@[simp] theorem erase_dropLast (w : Word α) : Word.erase ch w.dropLast = (Word.erase ch w).dropLast := by
  simp [Word.erase, List.map_dropLast]

@[simp] theorem erase_length (w : Word α) : (Word.erase ch w).length = w.length := by
  simp [Word.erase]

theorem digits_erase (w : Word α) : (Word.erase ch w).digits id = w.digits ch := by
  simp [Word.digits, Word.erase, List.all_map, Function.comp_def]

theorem endsInDollar_erase (w : Word α) : (Word.erase ch w).endsInDollar = w.endsInDollar := by
  simp [Word.endsInDollar, Word.erase, List.getLast?_map, Function.comp_def]

theorem assigns_erase (w : Word α) : (Word.erase ch w).assigns id = w.assigns ch := by
  simp [Word.assigns, Word.erase, List.takeWhile_map, Function.comp_def, ← List.map_drop]

theorem slot_erase (p : Parser α) (g : Bool) (w : Word α) :
    (p.erase ch).slot id g (w.erase ch) = p.slot ch g w := by
  simp only [Parser.slot, digits_erase, assigns_erase, Parser.erase]

theorem closeWord_erase (p : Parser α) (g : Bool) (w : Word α) :
    (p.erase ch).closeWord id g (w.erase ch) = (p.closeWord ch g w).erase ch := by
  simp only [Parser.closeWord, slot_erase]
  simp [Parser.erase, Reading.erase, Item.erase]

theorem closeOperator_erase (p : Parser α) (op : List α) :
    (p.erase ch).closeOperator id (op.map ch) = (p.closeOperator ch op).erase ch := by
  have hh : ((op.map ch).head?.map fun b => isRedirect (id b)) =
      op.head?.map fun b => isRedirect (ch b) := by cases op <;> rfl
  unfold Parser.closeOperator
  rw [hh]
  split <;> simp [Parser.erase, Reading.erase, Item.erase]

theorem readBare_erase (w : Word α) (b : α) :
    readBare id (w.erase ch) (ch b) = (readBare ch w b).erase ch := by
  unfold readBare
  rw [id]
  split <;> simp [Reading.erase, *]

theorem readDouble_erase (w : Word α) (b : α) :
    readDouble id (w.erase ch) (ch b) = (readDouble ch w b).erase ch := by
  unfold readDouble
  rw [id]
  split <;> simp [Reading.erase, *]

theorem start_erase (p : Parser α) (b : α) :
    (p.erase ch).start id (ch b) = (p.start ch b).erase ch := by
  have h := readBare_erase ch [] b
  unfold Parser.start
  simp only [id]
  split_ifs
  · rfl
  · rfl
  · rfl
  · simp only [Parser.erase, ← h]
    rfl

theorem step_erase (p : Parser α) (b : α) : (p.erase ch).step id (ch b) = (p.step ch b).erase ch := by
  have hr : (p.erase ch).reading = p.reading.erase ch := rfl
  unfold Parser.step
  rw [hr]
  cases p.reading with
  | gap => exact start_erase ch p b
  | comment =>
    simp only [Reading.erase, id]
    split
    · exact start_erase ch p b
    · rfl
  | operator op =>
    simp only [Reading.erase, List.map_id_fun, id]
    split
    · simp [Parser.erase, Reading.erase]
    · rw [closeOperator_erase, start_erase]
  | word q w =>
    have hb : breaks (Word.erase ch w) (ch b) = breaks w (ch b) := by
      simp [breaks, endsInDollar_erase]
    cases q <;> simp only [Reading.erase, id]
    · rw [hb]
      split
      · rw [closeWord_erase, start_erase]
      · rw [readBare_erase]
        rfl
    · split <;> simp [Parser.erase, Reading.erase]
    · rw [readDouble_erase]
      rfl
    · rw [erase_length]
      split
      · simp only [Parser.erase]
        split <;> simp [Reading.erase]
      · simp [Parser.erase, Reading.erase]
    · split <;> simp [Parser.erase, Reading.erase]

theorem run_erase (p : Parser α) (s : List α) :
    (p.erase ch).run id (s.map ch) = (p.run ch s).erase ch := by
  induction s generalizing p with
  | nil => rfl
  | cons b s ih =>
    rw [List.map_cons]
    exact (congrArg (fun q => q.run id (s.map ch)) (step_erase ch p b)).trans (ih (p.step ch b))

theorem finish_erase (p : Parser α) : (p.erase ch).finish id = (p.finish ch).erase ch := by
  have hr : (p.erase ch).reading = p.reading.erase ch := rfl
  unfold Parser.finish
  rw [hr]
  cases p.reading with
  | gap => rfl
  | comment => rfl
  | operator op => simp only [Reading.erase, closeOperator_erase]; rfl
  | word q w =>
    cases q <;> simp only [Reading.erase]
    case escaped =>
      have hl : ((Word.erase ch w).getLast?.map fun x => (x.1, Mark.quoted)).toList =
          Word.erase ch (w.getLast?.map fun x => (x.1, Mark.quoted)).toList := by
        unfold Word.erase
        rw [List.getLast?_map]
        cases w.getLast? <;> rfl
      rw [hl, ← erase_dropLast, ← erase_append, closeWord_erase]
      rfl
    all_goals rw [closeWord_erase]; rfl

/-- **Erasing the marks commutes with reading.** -/
theorem parse_map (s : List α) : parse id (s.map ch) = (parse ch s).erase ch := by
  have h : (Parser.erase ch {} : Parser Char) = {} := rfl
  rw [parse, parse, ← finish_erase, ← run_erase, h]

end Erase
end Tcos.Shell
