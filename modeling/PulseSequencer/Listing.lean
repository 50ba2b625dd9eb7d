import PulseSequencer.Instruction

/-!
# Listings

A listing shows one instruction a line: its index, its word if asked for, and its disassembly. It is what
`format_instructions` gives.

* `plainRows` — the cells of a row with single blanks between them.
* `columnWidths?` — widths that fit a terminal; wide columns are narrowed first, none below five.
* `alignedRows` — cells cut or filled to the widths of their columns.
* `listing` (`format_instructions`) — aligned if asked for and possible, else plain.
-/

namespace PulseSequencer

/-- How a listing is written, the options of `format_instructions`. -/
structure ListingStyle where
  /-- Whether words are shown (`display_op_codes`). -/
  showWords : Bool := true
  /-- Whether columns are asked for (`align_fields`). -/
  aligned : Bool := true
  terminalWidth : Int := 200

/-- The cells of a row. -/
def rowCells (showWords : Bool) (index : Nat) (w : Int) : Except Fault (List String) := do
  let disassembly ← (Instruction.ofWord w).text
  let word := if showWords then ["0x" ++ paddedHex 16 w] else []
  return s!"{index}:" :: (word ++ [disassembly])

def plainRow (cells : List String) : String := " ".intercalate cells ++ "\n"

def plainRows (rows : List (List String)) : String := String.join (rows.map plainRow)

/-- The width of the longest cell in each of `n` columns. -/
def naturalWidths (n : Nat) (rows : List (List String)) : List Nat :=
  (List.range n).map fun j => (rows.map fun cells => ((cells[j]?).getD "").length).foldl max 0

/-- The narrowest column. -/
def minColumn : Int := 5

/-- The width of a table: two blanks before each column and two at the end. -/
def tableWidth (widths : List Int) : Int := widths.foldr (fun w rest => w + 2 + rest) 2

/-- Shares the first `i + 1` columns' room evenly so that the table fits. -/
def shareRoom (terminal : Int) (i : Nat) (widths : List Int) : List Int :=
  let excess := tableWidth widths - terminal
  let shared := ((widths.take (i + 1)).foldr (· + ·) 0 - excess) / ((i : Int) + 1)
  (widths.take (i + 1)).map (fun _ => shared) ++ widths.drop (i + 1)

/-- Narrows more and more of the columns, widest first, until the table fits. -/
def narrow? (terminal : Int) : List Nat → List Int → Option (List Int)
  | [], _ => none
  | i :: is, widths =>
    let shared := shareRoom terminal i widths
    let first := shared.headD 0
    let narrower := match shared[i + 1]? with
      | some next => first < next
      | none => false
    if !narrower && minColumn ≤ first && tableWidth shared ≤ terminal then some shared
    else narrow? terminal is shared

/-- A column by its place in the rows. -/
structure Column where
  place : Nat
  width : Int

/-- The width of each column, if the rows can be made to fit. -/
def columnWidths? (terminal : Int) (natural : List Nat) : Option (List Nat) :=
  let columns := (natural.mapIdx fun j (w : Nat) => (⟨j, w⟩ : Column)).mergeSort
    fun a b => b.width ≤ a.width
  let widths := columns.map fun c => max minColumn c.width
  let fitted := if tableWidth widths ≤ terminal then some widths
    else narrow? terminal (List.range widths.length) widths
  fitted.map fun ws =>
    let placed := columns.zip ws
    (List.range natural.length).map fun j =>
      ((placed.find? (·.1.place == j)).map (·.2.toNat)).getD 0

/-- A cell cut to a width and filled with blanks. -/
def alignedCell (width : Nat) (cell : String) : String :=
  let shown := cell.toList.take width
  String.ofList (shown ++ List.replicate (width - shown.length) ' ')

def alignedRow (widths : List Nat) (cells : List String) : String :=
  "  " ++ "  ".intercalate (List.zipWith alignedCell widths cells) ++ "  \n"

def alignedRows (widths : List Nat) (rows : List (List String)) : String :=
  String.join (rows.map (alignedRow widths))

/-- The listing of a program (`format_instructions`). -/
def listing (style : ListingStyle) (words : List Int) : Except Fault String := do
  let rows ← (words.mapIdx fun i w => (i, w)).mapM fun (i, w) => rowCells style.showWords i w
  let columns := if style.showWords then 3 else 2
  let widths := if style.aligned then
      columnWidths? style.terminalWidth (naturalWidths columns rows)
    else none
  match widths with
  | some ws => return alignedRows ws rows
  | none => return plainRows rows

end PulseSequencer
