import TapeChain.Machine.Walk
import TapeChain.Proofs.Machine
import TapeChain.Proofs.Reading

/-! The plain machine: program text run one character at a time, with jumps between matching brackets.
It looks ahead in one place only: a pointer that has left the tape is reported where a run of pointer
steps ends, so excursions inside a run are allowed. It counts cells from the start of the tape only,
their values are numbers that go round at 255, and it takes input and gives output byte by byte.
Compiled text, on either engine, ends exactly as the plain machine does. -/
namespace TapeChain

/-- A place in the text and the machine there. -/
structure Cursor where
  index : Nat
  machine : Machine

namespace Cursor

/-- The number of characters before the bracket that closes `depth` open brackets and one more, where
`deeper` opens a bracket and `shallower` closes one. -/
def distance? (deeper shallower : Char) : Nat → List Char → Option Nat
  | _, [] => none
  | depth, c :: cs =>
    if c = shallower then
      match depth with
      | 0 => some 0
      | depth + 1 => (distance? deeper shallower depth cs).map (· + 1)
    else if c = deeper then (distance? deeper shallower (depth + 1) cs).map (· + 1)
    else (distance? deeper shallower depth cs).map (· + 1)

/-- The index of the partner of an opening bracket; the end of the text if there is none. -/
def closingOf (text : List Char) (index : Nat) : Nat :=
  match distance? '[' ']' 0 (text.drop (index + 1)) with
  | some n => index + 1 + n
  | none => text.length

/-- The index of the partner of a closing bracket; the start of the text if there is none. -/
def openingOf (text : List Char) (index : Nat) : Nat :=
  match distance? ']' '[' 0 (text.take index).reverse with
  | some n => index - 1 - n
  | none => 0

/-- What stands in the current cell, if the pointer stands on one. -/
def value? (m : Machine) : Option Nat :=
  match m.address with
  | .ofNat i => (m.tape.cells.toList[i]?).map UInt8.toNat
  | .negSucc _ => none

/-- One more, and zero after 255. -/
def increment (value : Nat) : Nat := if value = 255 then 0 else value + 1

/-- One less, and 255 after zero. -/
def decrement (value : Nat) : Nat := if value = 0 then 255 else value - 1

/-- The machine with another value in its current cell. -/
def update (value : Nat) (m : Machine) : Machine :=
  { m with tape := ⟨(m.tape.cells.toList.set m.address.toNat (UInt8.ofNat value)).toArray⟩ }

/-- Goes over to another machine by the value of the current cell. -/
def useCell (next : Nat → Machine) (m : Machine) : Effect :=
  match value? m with
  | none => .fault (.noCell m.address) m
  | some value => .done (next value)

def change (f : Nat → Nat) (m : Machine) : Effect := useCell (fun value => update (f value) m) m

def give (m : Machine) : Effect :=
  useCell (fun value => { m with output := (m.output.toList ++ [UInt8.ofNat value]).toArray }) m

def take (m : Machine) : Effect :=
  match m.input.toList[m.position]? with
  | none => .dry m
  | some byte =>
    let m := { m with position := m.position + 1 }
    useCell (fun _ => update byte.toNat m) m

def isPointerStep (c : Char) : Bool := c = '>' || c = '<'

/-- One step of the pointer. Where the run of pointer steps ends, the pointer must stand on a cell. -/
def glide (text : List Char) (offset : Int) (s : Cursor) : Progress Cursor :=
  let m := { s.machine with address := s.machine.address + offset }
  if (text[s.index + 1]?).any isPointerStep || (value? m).isSome then .more ⟨s.index + 1, m⟩
  else .ended ⟨.fault (.offTape m.address m.tape.cells.toList.length), m⟩

def proceed (index : Nat) : Effect → Progress Cursor
  | .done m => .more ⟨index, m⟩
  | .dry m => .ended ⟨.exhausted, m⟩
  | .fault f m => .ended ⟨.fault f, m⟩

/-- Goes on at one of two places, as the current cell is zero or not. -/
def branch (onZero otherwise : Nat) (m : Machine) : Progress Cursor :=
  match value? m with
  | none => .ended ⟨.fault (.noCell m.address), m⟩
  | some value => if value = 0 then .more ⟨onZero, m⟩ else .more ⟨otherwise, m⟩

def step (text : List Char) (s : Cursor) : Progress Cursor :=
  match text[s.index]? with
  | none => .ended ⟨.finished, s.machine⟩
  | some '>' => glide text 1 s
  | some '<' => glide text (-1) s
  | some '+' => proceed (s.index + 1) (change increment s.machine)
  | some '-' => proceed (s.index + 1) (change decrement s.machine)
  | some '.' => proceed (s.index + 1) (give s.machine)
  | some ',' => proceed (s.index + 1) (take s.machine)
  | some '[' => branch (closingOf text s.index + 1) (s.index + 1) s.machine
  | some ']' => branch (s.index + 1) (openingOf text s.index + 1) s.machine
  | some _ => .more ⟨s.index + 1, s.machine⟩

end Cursor

def runText (fuel : Nat) (text : String) (m : Machine) : Option Outcome :=
  runFor (Cursor.step text.toList) fuel ⟨0, m⟩

/-! ### Cells and bytes -/

namespace Cursor

variable {m : Machine}

theorem isSome_value? (m : Machine) : (value? m).isSome = m.onTape := by
  rw [Bool.eq_iff_iff, Machine.onTape_iff, value?, Tape.size]
  split
  · next i address =>
      rw [address, Option.isSome_map, isSome_getElem?, Array.length_toList]
      exact ⟨fun inside => ⟨Int.natCast_nonneg i, Int.ofNat_lt.mpr inside⟩,
        fun inside => Int.ofNat_lt.mp inside.2⟩
  · next i address =>
      rw [address, Option.isSome_none]
      exact ⟨fun missing => absurd missing Bool.false_ne_true,
        fun inside => absurd inside.1 (Int.not_le.mpr (Int.negSucc_lt_zero i))⟩

theorem exists_cell (on : m.onTape) :
    ∃ i, m.tape.slot? m.address = some i ∧ m.address = (i.val : Int) := by
  obtain ⟨low, high⟩ := Machine.onTape_iff.mp on
  obtain ⟨i, slot, same⟩ := Tape.slot?_of_inside low high
  exact ⟨i, slot, by omega⟩

theorem update_of_cell {i : Fin m.tape.cells.size} (here : m.address = (i.val : Int)) (value : Nat) :
    update value m = { m with tape := m.tape.put i (UInt8.ofNat value) } := by
  rw [update, Tape.put, here, Int.toNat_natCast, ← Array.toList_set]

theorem value?_of_onTape (on : m.onTape) : value? m = m.cell?.map UInt8.toNat := by
  obtain ⟨i, slot, here⟩ := exists_cell on
  rw [Machine.cell?_of_slot? slot]
  simp [value?, here]

theorem useCell_of_cell? (on : m.onTape) {value : UInt8} (cell : m.cell? = some value)
    (next : Nat → Machine) : useCell next m = .done (next value.toNat) := by
  rw [useCell, value?_of_onTape on, cell]
  rfl

theorem ofNat_increment (value : UInt8) : UInt8.ofNat (increment value.toNat) = value + 1 := by
  have bound := value.toNat_lt
  apply UInt8.toNat_inj.mp
  rw [UInt8.toNat_ofNat', UInt8.toNat_add, increment]
  split
  · next last => rw [last]; rfl
  · exact congrArg (· % 256) rfl

theorem ofNat_decrement (value : UInt8) : UInt8.ofNat (decrement value.toNat) = value + -1 := by
  have bound := value.toNat_lt
  have below : (-1 : UInt8).toNat = 255 := rfl
  apply UInt8.toNat_inj.mp
  rw [UInt8.toNat_ofNat', UInt8.toNat_add, below, decrement]
  split
  · next first => rw [first]
  · omega

theorem change_eq_add (on : m.onTape) {f : Nat → Nat} {delta : UInt8}
    (adds : ∀ value : UInt8, UInt8.ofNat (f value.toNat) = value + delta) :
    change f m = m.add delta := by
  obtain ⟨i, slot, here⟩ := exists_cell on
  rw [change, useCell_of_cell? on (Machine.cell?_of_slot? slot), update_of_cell here, adds,
    Machine.add_of_slot? delta slot]

theorem give_eq_write (on : m.onTape) : give m = m.write := by
  obtain ⟨value, cell⟩ := Machine.cell?_of_onTape on
  rw [give, useCell_of_cell? on cell, Machine.write, cell, UInt8.ofNat_toNat, ← Array.toList_push]

theorem branch_of_cell? (on : m.onTape) {value : UInt8} (cell : m.cell? = some value)
    (onZero otherwise : Nat) : branch onZero otherwise m =
      if value = 0 then .more ⟨onZero, m⟩ else .more ⟨otherwise, m⟩ := by
  simp only [branch, value?_of_onTape on, cell, Option.map_some, ← UInt8.toNat_inj, UInt8.toNat_zero]

theorem useCell_eq_store (on : m.onTape) (byte : UInt8) :
    useCell (fun _ => update byte.toNat m) m = m.store byte := by
  obtain ⟨i, slot, here⟩ := exists_cell on
  rw [useCell_of_cell? on (Machine.cell?_of_slot? slot), update_of_cell here, UInt8.ofNat_toNat,
    Machine.store_of_slot? byte slot]

theorem take_eq_read (on : m.onTape) : take m = m.read := by
  unfold take Machine.read
  by_cases ahead : m.position < m.input.size
  · simp only [Array.getElem?_toList, Array.getElem?_eq_getElem ahead, dif_pos ahead]
    exact useCell_eq_store (m := { m with position := m.position + 1 }) on _
  · simp only [Array.getElem?_toList, Array.getElem?_eq_none (Nat.le_of_not_lt ahead), dif_neg ahead]

end Cursor

/-! ### Brackets and their partners -/

/-- Text in which every bracket has its partner; `deeper` opens and `shallower` closes. -/
inductive Matched (deeper shallower : Char) : List Char → Prop
  | nil : Matched deeper shallower []
  | plain {c w} : c ≠ deeper → c ≠ shallower → Matched deeper shallower w →
      Matched deeper shallower (c :: w)
  | nest {b w} : Matched deeper shallower b → Matched deeper shallower w →
      Matched deeper shallower (deeper :: (b ++ shallower :: w))

namespace Matched

variable {deeper shallower : Char} {u w : List Char}

theorem append (hu : Matched deeper shallower u) (hw : Matched deeper shallower w) :
    Matched deeper shallower (u ++ w) := by
  induction hu with
  | nil => exact hw
  | plain hd hs _ ih => exact .plain hd hs ih
  | nest hb _ _ ih => simpa only [List.cons_append, List.append_assoc] using Matched.nest hb ih

/-- Read backwards, the brackets change their roles. -/
theorem reverse (h : Matched deeper shallower w) : Matched shallower deeper w.reverse := by
  induction h with
  | nil => exact .nil
  | plain hd hs _ ih =>
      rw [List.reverse_cons]
      exact ih.append (.plain hs hd .nil)
  | nest _ _ ihBody ihRest =>
      simp only [List.reverse_cons, List.reverse_append, List.append_assoc]
      exact ihRest.append (.nest ihBody .nil)

theorem of_run {a : Axis} {run : List Char} (steps : ∀ c ∈ run, a.has c) : Matched '[' ']' run := by
  induction run with
  | nil => exact .nil
  | cons c run ih =>
      obtain ⟨hopen, hclose⟩ := Axis.ne_bracket (steps c List.mem_cons_self)
      exact .plain hopen hclose (ih fun x hx => steps x (List.mem_cons_of_mem _ hx))

/-- Brackets that are partners of each other are passed over. -/
theorem distance? (apart : deeper ≠ shallower) (h : Matched deeper shallower w) (depth : Nat)
    (cs : List Char) :
    Cursor.distance? deeper shallower depth (w ++ cs) =
      (Cursor.distance? deeper shallower depth cs).map (· + w.length) := by
  induction h generalizing depth cs with
  | nil => simp only [List.nil_append, List.length_nil, Nat.add_zero, Option.map_id']
  | plain hd hs _ ih =>
      simp only [List.cons_append, Cursor.distance?, if_neg hd, if_neg hs, ih, Option.map_map]
      rfl
  | nest _ _ ihBody ihRest =>
      simp only [List.cons_append, List.append_assoc, Cursor.distance?, if_neg apart, if_true, ihBody,
        ihRest, Option.map_map, List.length_cons, List.length_append]
      congr 1
      funext n
      simp only [Function.comp_apply]
      omega

end Matched

theorem Reads.split {cs rest : List Char} {c : Chain} (h : Reads cs c rest) :
    ∃ w, cs = w ++ rest ∧ Matched '[' ']' w := by
  induction h with
  | finish => exact ⟨[], rfl, .nil⟩
  | closing rest => exact ⟨[], rfl, .nil⟩
  | @comment c cs chain rest comment _ ih =>
      obtain ⟨w, rfl, hw⟩ := ih
      obtain ⟨hopen, hclose⟩ := Token.ne_bracket_of_comment comment
      exact ⟨c :: w, rfl, .plain hopen hclose hw⟩
  | @run a run cs chain rest _ steps _ _ ih =>
      obtain ⟨w, rfl, hw⟩ := ih
      exact ⟨run ++ w, (List.append_assoc ..).symm, (Matched.of_run steps).append hw⟩
  | output _ ih =>
      obtain ⟨w, rfl, hw⟩ := ih
      exact ⟨'.' :: w, rfl, .plain (by decide) (by decide) hw⟩
  | input _ ih =>
      obtain ⟨w, rfl, hw⟩ := ih
      exact ⟨',' :: w, rfl, .plain (by decide) (by decide) hw⟩
  | loop _ _ ihBody ihNext =>
      obtain ⟨b, rfl, hb⟩ := ihBody
      obtain ⟨w, rfl, hw⟩ := ihNext
      exact ⟨'[' :: (b ++ ']' :: w), by simp only [List.cons_append, List.append_assoc], .nest hb hw⟩

theorem Reads.matched {w rest : List Char} {c : Chain} (h : Reads (w ++ rest) c rest) :
    Matched '[' ']' w := by
  obtain ⟨w', same, hw⟩ := h.split
  rw [List.append_cancel_right same]
  exact hw

namespace Cursor

theorem closingOf_eq {before w after : List Char} (h : Matched '[' ']' w) :
    closingOf (before ++ '[' :: (w ++ ']' :: after)) before.length = before.length + 1 + w.length := by
  have ahead : (before ++ '[' :: (w ++ ']' :: after)).drop (before.length + 1) = w ++ ']' :: after := by
    rw [List.drop_append, List.drop_of_length_le (Nat.le_succ _)]
    simp
  rw [closingOf, ahead, h.distance? (by decide)]
  simp [distance?]

theorem openingOf_eq {before w after : List Char} (h : Matched '[' ']' w) :
    openingOf (before ++ '[' :: (w ++ ']' :: after)) (before.length + 1 + w.length) =
      before.length := by
  have behind : (before ++ '[' :: (w ++ ']' :: after)).take (before.length + 1 + w.length) =
      before ++ '[' :: w := by
    have whole : before ++ '[' :: (w ++ ']' :: after) = (before ++ '[' :: w) ++ ']' :: after := by
      simp only [List.append_assoc, List.cons_append]
    have size : before.length + 1 + w.length = (before ++ '[' :: w).length := by
      simp only [List.length_append, List.length_cons]
      omega
    rw [whole, size, List.take_left']
    rfl
  rw [openingOf, behind, List.reverse_append, List.reverse_cons, List.append_assoc,
    h.reverse.distance? (by decide)]
  simp [distance?]

end Cursor

end TapeChain
