import Mathlib.Data.List.DropRight
import PulseSequencer.Proofs.Rows

/-!
# Aligned and plain listings

On a terminal of 200 characters every column of a listing keeps its natural width, so an aligned listing
differs from the plain one in its blanks only.

* `tidy` — a text without blanks at the ends of its lines and with single blanks inside.
* `tidyLine_alignedLine` — an aligned row whose cells fit, tidied, is the plain row.
* `columnWidths?_of_fits` — columns that fit keep their widths.
* `cellCaps`, `rowCells_caps`, `tableWidth_naturalWidths` — how wide a listing can be.
* `listing_aligned_tidy` — an aligned listing, tidied, is the plain one.
-/

namespace PulseSequencer

/-! ## Tidying -/

/-- Leaves one blank of every run of blanks. -/
def squeeze : List Char → List Char
  | ' ' :: ' ' :: s => squeeze (' ' :: s)
  | c :: s => c :: squeeze s
  | [] => []

/-- Removes the blanks at both ends. -/
def trim (s : List Char) : List Char := (s.dropWhile (· == ' ')).rdropWhile (· == ' ')

def tidyLine (line : List Char) : List Char := trim (squeeze line)

/-- A text with each of its lines tidied. -/
def tidy (text : String) : String :=
  String.ofList (['\n'].intercalate ((text.toList.splitOn '\n').map tidyLine))

theorem squeeze_cons {c : Char} {s : List Char} (h : c = ' ' → s.head? ≠ some ' ') :
    squeeze (c :: s) = c :: squeeze s := by
  rw [squeeze]
  rintro t rfl rfl
  exact h rfl rfl

/-- Nothing changes before the end of a text with single blanks. -/
theorem squeeze_append {s : List Char} (hs : SingleBlanks s) (hlast : ∀ c ∈ s.getLast?, c ≠ ' ')
    (rest : List Char) : squeeze (s ++ rest) = s ++ squeeze rest := by
  induction s with
  | nil => rfl
  | cons c s ih =>
    cases s with
    | nil =>
      have hc : c ≠ ' ' := hlast c rfl
      exact squeeze_cons fun hblank => absurd hblank hc
    | cons d s =>
      obtain ⟨hcd, hs⟩ := List.isChain_cons_cons.1 hs
      have hstep : squeeze (c :: (d :: s ++ rest)) = c :: squeeze (d :: s ++ rest) :=
        squeeze_cons fun hc hd => hcd ⟨hc, Option.some.inj hd⟩
      rw [List.cons_append, hstep, ih hs hlast]
      rfl

/-- A run of blanks is one blank. -/
theorem squeeze_blanks {rest : List Char} (hrest : rest.head? ≠ some ' ') (n : Nat) :
    squeeze (List.replicate (n + 1) ' ' ++ rest) = ' ' :: squeeze rest := by
  induction n with
  | zero => exact squeeze_cons fun _ => hrest
  | succ n ih => rw [← ih]; rfl

theorem trim_of_isNeat {s : List Char} (h : IsNeat s) : trim (' ' :: (s ++ [' '])) = s := by
  have hfirst : (s ++ [' ']).dropWhile (· == ' ') = s ++ [' '] := by
    obtain ⟨c, s, rfl⟩ := List.exists_cons_of_ne_nil h.ne_nil
    exact List.dropWhile_cons_of_neg (by simpa using h.head c rfl)
  have hlast : s.rdropWhile (· == ' ') = s := by
    refine List.rdropWhile_eq_self_iff.2 fun hne => ?_
    simpa using h.last _ (List.getLast?_eq_some_getLast hne)
  rw [trim, List.dropWhile_cons_of_pos (by decide), hfirst,
    List.rdropWhile_concat_pos _ _ _ (by decide), hlast]

/-! ## Aligned rows -/

/-- An aligned row without its end. -/
def alignedLine (widths : List Nat) (cells : List String) : List Char :=
  "  ".toList ++ "  ".toList.intercalate ((List.zipWith alignedCell widths cells).map String.toList) ++
    "  ".toList

theorem toList_alignedRows (widths : List Nat) (rows : List (List String)) :
    (alignedRows widths rows).toList = unlines (rows.map (alignedLine widths)) := by
  simp [alignedRows, alignedRow, alignedLine, unlines, List.flatMap_map]

/-- The cells of a row are no wider than the columns they stand in. -/
def CellsFit (widths : List Nat) (cells : List String) : Prop :=
  List.Forall₂ (fun w cell => cell.length ≤ w) widths cells

/-- A cell that fits is filled and not cut. -/
theorem toList_alignedCell {width : Nat} {cell : String} (h : cell.length ≤ width) :
    (alignedCell width cell).toList = cell.toList ++ List.replicate (width - cell.length) ' ' := by
  have htake : cell.toList.take width = cell.toList :=
    List.take_of_length_le (by rwa [String.length_toList])
  rw [alignedCell, htake, String.toList_ofList, String.length_toList]

/-- Columns with two blanks after each of them. -/
theorem intercalate_append_self {α : Type} {sep : List α} {columns : List (List α)} (h : columns ≠ []) :
    sep.intercalate columns ++ sep = columns.flatMap (· ++ sep) := by
  induction columns with
  | nil => exact absurd rfl h
  | cons column columns ih =>
    cases columns with
    | nil => simp
    | cons next columns =>
      rw [List.flatMap_cons, ← ih (List.cons_ne_nil _ _)]
      simp

/-- Filled cells with two blanks after each of them. -/
def columns (widths : List Nat) (cells : List String) : List Char :=
  ((List.zipWith alignedCell widths cells).map String.toList).flatMap (· ++ "  ".toList)

theorem columns_cons {width : Nat} {cell : String} (h : cell.length ≤ width) (widths : List Nat)
    (cells : List String) : columns (width :: widths) (cell :: cells) =
      cell.toList ++ (List.replicate (width - cell.length + 1 + 1) ' ' ++ columns widths cells) := by
  simp [columns, toList_alignedCell h, List.replicate_succ']

section

variable {widths : List Nat} {cells : List String}

theorem head?_columns (hfit : CellsFit widths cells)
    (hneat : ∀ cell ∈ cells, IsNeat cell.toList) : (columns widths cells).head? ≠ some ' ' := by
  cases hfit with
  | nil => simp [columns]
  | cons hcell _ =>
    have hcell' := (List.forall_mem_cons.1 hneat).1
    rw [columns_cons hcell, List.head?_append_of_ne_nil _ hcell'.ne_nil]
    intro hblank
    exact hcell'.head _ hblank rfl

/-- Filled cells, squeezed, have one blank after each of them. -/
theorem squeeze_columns (hfit : CellsFit widths cells)
    (hneat : ∀ cell ∈ cells, IsNeat cell.toList) :
    squeeze (columns widths cells) = (cells.map String.toList).flatMap (· ++ [' ']) := by
  induction hfit with
  | nil => rfl
  | cons hcell hfit ih =>
    obtain ⟨hneat, hrest⟩ := List.forall_mem_cons.1 hneat
    rw [columns_cons hcell, squeeze_append hneat.singleBlanks hneat.last,
      squeeze_blanks (head?_columns hfit hrest), ih hrest]
    simp

theorem alignedLine_eq_columns (hne : cells ≠ []) (hfit : CellsFit widths cells) :
    alignedLine widths cells = List.replicate 2 ' ' ++ columns widths cells := by
  have hzip : (List.zipWith alignedCell widths cells).map String.toList ≠ [] := by
    have hlength := hfit.length_eq
    have hpos := List.length_pos_iff.2 hne
    rw [← List.length_pos_iff, List.length_map, List.length_zipWith]
    omega
  rw [alignedLine, List.append_assoc, intercalate_append_self hzip]
  rfl

/-- **An aligned row whose cells fit, tidied, is the plain row.** -/
theorem tidyLine_alignedLine (hne : cells ≠ []) (hfit : CellsFit widths cells)
    (hneat : ∀ cell ∈ cells, IsNeat cell.toList) :
    tidyLine (alignedLine widths cells) = plainLine cells := by
  rw [tidyLine, alignedLine_eq_columns hne hfit, squeeze_blanks (head?_columns hfit hneat),
    squeeze_columns hfit hneat, ← intercalate_append_self (by simpa using hne)]
  exact trim_of_isNeat (isNeat_plainLine hne hneat)

theorem newline_not_mem_columns (hfit : CellsFit widths cells)
    (hneat : ∀ cell ∈ cells, IsNeat cell.toList) : '\n' ∉ columns widths cells := by
  induction hfit with
  | nil => simp [columns]
  | cons hcell hfit ih =>
    obtain ⟨hneat, hrest⟩ := List.forall_mem_cons.1 hneat
    rw [columns_cons hcell]
    simp [hneat.not_newline, ih hrest]

theorem newline_not_mem_alignedLine (hne : cells ≠ []) (hfit : CellsFit widths cells)
    (hneat : ∀ cell ∈ cells, IsNeat cell.toList) : '\n' ∉ alignedLine widths cells := by
  rw [alignedLine_eq_columns hne hfit]
  simp [newline_not_mem_columns hfit hneat]

end

/-! ## Tidied texts -/

theorem intercalate_unlines (lines : List (List Char)) :
    ['\n'].intercalate (lines ++ [[]]) = unlines lines := by
  induction lines with
  | nil => rfl
  | cons l lines ih =>
    rw [List.cons_append, List.intercalate_cons_of_ne_nil (by simp), ih]
    simp [unlines]

theorem tidy_unlines {text : String} {lines : List (List Char)} (htext : text.toList = unlines lines)
    (h : ∀ l ∈ lines, '\n' ∉ l) : (tidy text).toList = unlines (lines.map tidyLine) := by
  have hempty : tidyLine [] = [] := by decide
  rw [tidy, htext, splitOn_unlines h, List.map_append, List.map_singleton, hempty,
    intercalate_unlines, String.toList_ofList]

/-- Aligned rows whose cells fit, tidied, are plain rows. -/
theorem tidy_alignedRows {widths : List Nat} {rows : List (List String)}
    (hfit : ∀ cells ∈ rows, CellsFit widths cells)
    (hneat : ∀ cells ∈ rows, cells ≠ [] ∧ ∀ cell ∈ cells, IsNeat cell.toList) :
    tidy (alignedRows widths rows) = plainRows rows := by
  have hlines : ∀ l ∈ rows.map (alignedLine widths), '\n' ∉ l := by
    intro l hl
    obtain ⟨cells, hcells, rfl⟩ := List.mem_map.1 hl
    exact newline_not_mem_alignedLine (hneat cells hcells).1 (hfit cells hcells) (hneat cells hcells).2
  have htidy : (rows.map (alignedLine widths)).map tidyLine = rows.map plainLine := by
    rw [List.map_map]
    refine List.map_congr_left fun cells hcells => ?_
    exact tidyLine_alignedLine (hneat cells hcells).1 (hfit cells hcells) (hneat cells hcells).2
  refine String.toList_injective ?_
  rw [tidy_unlines (toList_alignedRows widths rows) hlines, htidy, toList_plainRows]

/-! ## Widths of columns -/

/-- The order of the columns does not matter. -/
theorem tableWidth_perm {widths widths' : List Int} (h : widths.Perm widths') :
    tableWidth widths = tableWidth widths' := by
  unfold tableWidth
  induction h with
  | nil => rfl
  | cons w _ ih => simp only [List.foldr_cons, ih]
  | swap v w _ =>
    simp only [List.foldr_cons]
    omega
  | trans _ _ ih ih' => rw [ih, ih']

theorem tableWidth_mono {widths widths' : List Int} (h : List.Forall₂ (· ≤ ·) widths widths') :
    tableWidth widths ≤ tableWidth widths' := by
  unfold tableWidth
  induction h with
  | nil => simp
  | cons hw _ ih =>
    simp only [List.foldr_cons]
    omega

/-- Columns by their places. -/
def placedColumns (natural : List Nat) : List Column := natural.mapIdx fun j (w : Nat) => ⟨j, w⟩

/-- Columns, widest first. -/
def sortedColumns (natural : List Nat) : List Column :=
  (placedColumns natural).mergeSort fun a b => b.width ≤ a.width

theorem mem_sortedColumns {natural : List Nat} {c : Column} :
    c ∈ sortedColumns natural ↔ natural[c.place]?.map Int.ofNat = some c.width := by
  rw [sortedColumns, List.mem_mergeSort, placedColumns, List.mem_mapIdx]
  constructor
  · rintro ⟨j, hj, rfl⟩
    simp [hj]
  · intro h
    obtain ⟨w, hw, hwidth⟩ := Option.map_eq_some_iff.1 h
    obtain ⟨hj, rfl⟩ := List.getElem?_eq_some_iff.1 hw
    exact ⟨c.place, hj, by cases c; simp_all⟩

/-- A column is found by its place, in whatever order the columns are. -/
theorem find?_sortedColumns {natural : List Nat} {j w : Nat} (hj : natural[j]? = some w) :
    (sortedColumns natural).find? (·.place == j) = some ⟨j, w⟩ := by
  have hmem : ⟨j, w⟩ ∈ sortedColumns natural := mem_sortedColumns.2 (by simp [hj])
  have hsome : ((sortedColumns natural).find? (·.place == j)).isSome :=
    List.find?_isSome.2 ⟨_, hmem, beq_self_eq_true j⟩
  obtain ⟨c, hfind⟩ := Option.isSome_iff_exists.1 hsome
  have hplace : c.place = j := by simpa using List.find?_some hfind
  have hwidth := mem_sortedColumns.1 (List.mem_of_find?_eq_some hfind)
  rw [hplace, hj] at hwidth
  have hw : c.width = w := (Option.some.inj hwidth).symm
  rw [hfind, ← hplace, ← hw]

/-- Columns that fit keep their widths, but for those below five. -/
theorem columnWidths?_of_fits {terminal : Int} {natural : List Nat}
    (h : tableWidth (natural.map fun (w : Nat) => max minColumn w) ≤ terminal) :
    columnWidths? terminal natural = some (natural.map (max 5)) := by
  have hfits : tableWidth ((sortedColumns natural).map fun c => max minColumn c.width) ≤ terminal := by
    have hmap : (placedColumns natural).map (fun c => max minColumn c.width) =
        natural.map fun (w : Nat) => max minColumn w :=
      List.ext_getElem (by simp [placedColumns]) (by simp [placedColumns])
    rwa [sortedColumns, tableWidth_perm ((List.mergeSort_perm _ _).map _), hmap]
  have hfold : columnWidths? terminal natural =
      (if tableWidth ((sortedColumns natural).map fun c => max minColumn c.width) ≤ terminal then
        some ((sortedColumns natural).map fun c => max minColumn c.width)
      else _).map fun ws => (List.range natural.length).map fun j =>
        ((((sortedColumns natural).zip ws).find? (·.1.place == j)).map (·.2.toNat)).getD 0 := rfl
  rw [hfold, if_pos hfits, Option.map_some]
  refine congrArg some (List.ext_getElem (by simp) fun j hj _ => ?_)
  rw [List.length_map, List.length_range] at hj
  -- sorting does not matter: every place is looked up
  have hzip : (sortedColumns natural).zip ((sortedColumns natural).map fun c => max minColumn c.width) =
      (sortedColumns natural).map fun c => (c, max minColumn c.width) := by
    simpa using List.zip_map' (f := id) (g := fun c : Column => max minColumn c.width)
  have hfind := find?_sortedColumns (List.getElem?_eq_getElem hj)
  rw [List.getElem_map, List.getElem_map, List.getElem_range, hzip, List.find?_map]
  simp only [Function.comp_def, hfind, Option.map_some, Option.getD_some]
  rw [minColumn]
  omega

/-! ## How wide a listing can be -/

theorem foldl_max_le_iff {lengths : List Nat} {a k : Nat} :
    lengths.foldl max a ≤ k ↔ a ≤ k ∧ ∀ n ∈ lengths, n ≤ k := by
  induction lengths generalizing a with
  | nil => simp
  | cons n lengths ih =>
    rw [List.foldl_cons, ih, List.forall_mem_cons, Nat.max_le, and_assoc]

theorem naturalWidths_le_iff {n j k : Nat} {rows : List (List String)}
    (hj : j < (naturalWidths n rows).length) : (naturalWidths n rows)[j] ≤ k ↔
      ∀ cells ∈ rows, ((cells[j]?).getD "").length ≤ k := by
  simp [naturalWidths, foldl_max_le_iff]

/-- Cells fit the natural widths of their columns, also if narrow columns are widened. -/
theorem cellsFit_naturalWidths {n : Nat} {rows : List (List String)} {cells : List String}
    (hcells : cells ∈ rows) (hn : cells.length = n) :
    CellsFit ((naturalWidths n rows).map (max 5)) cells := by
  refine List.forall₂_iff_get.2 ⟨by simp [naturalWidths, hn], fun j hj hj' => ?_⟩
  rw [List.length_map] at hj
  have hcell := (naturalWidths_le_iff hj).1 le_rfl cells hcells
  rw [List.getElem?_eq_getElem hj', Option.getD_some] at hcell
  rw [List.get_eq_getElem, List.get_eq_getElem, List.getElem_map]
  exact hcell.trans (Nat.le_max_right _ _)

/-- Natural widths are no wider than columns that all cells fit. -/
theorem naturalWidths_le {caps : List Nat} {rows : List (List String)}
    (h : ∀ cells ∈ rows, CellsFit caps cells) :
    List.Forall₂ (· ≤ ·) (naturalWidths caps.length rows) caps := by
  refine List.forall₂_iff_get.2 ⟨by simp [naturalWidths], fun j hj hj' => ?_⟩
  refine (naturalWidths_le_iff hj).2 fun cells hcells => ?_
  have hfit := List.forall₂_iff_get.1 (h cells hcells)
  have hlt : j < cells.length := hfit.1 ▸ hj'
  rw [List.getElem?_eq_getElem hlt, Option.getD_some]
  exact hfit.2 j hj' hlt

/-- The longest cells: an index, a word and a disassembly. -/
def cellCaps (showWords : Bool) : List Nat := 9 :: ((if showWords then [18] else []) ++ [149])

theorem length_cellCaps (showWords : Bool) : (cellCaps showWords).length = if showWords then 3 else 2 := by
  cases showWords <;> rfl

theorem length_index {i : Nat} (hi : i < 0x4000000) : (s!"{i}:").length ≤ 9 := by
  have hdigits : (Nat.toDigits 10 i).length ≤ 8 :=
    (Nat.length_toDigits_le_iff (by decide) (by decide)).2 (by omega)
  rw [← String.length_toList, toList_index, List.length_append, List.length_singleton]
  omega

theorem length_word {w : Int} (hw : 0 ≤ w) (hw' : w < 0x10000000000000000) :
    ("0x" ++ paddedHex 16 w).length ≤ 18 := by
  have hdigits : (hexDigits w.natAbs).length ≤ 16 :=
    (Nat.length_toDigits_le_iff (by decide) (by decide)).2 (by omega)
  have hhex : (paddedHex 16 w).toList = padZeros 16 (hexDigits w.natAbs) := by
    rw [paddedHex, if_neg (by omega), String.toList_ofList]
  rw [← String.length_toList, String.toList_append, hhex, List.length_append, length_padZeros hdigits]
  decide

theorem rowCells_caps {showWords : Bool} {i : Nat} {w : Int} {cells : List String} (hi : i < 0x4000000)
    (hw : 0 ≤ w) (hw' : w < 0x10000000000000000) (h : rowCells showWords i w = .ok cells) :
    CellsFit (cellCaps showWords) cells := by
  obtain ⟨s, hs, rfl⟩ := rowCells_eq_ok h
  have hlast : CellsFit [149] [s] := .cons (Instruction.length_text_le hs) .nil
  refine .cons (length_index hi) ?_
  cases showWords with
  | false => exact hlast
  | true => exact .cons (length_word hw hw') hlast

/-- A listing of cells that are no longer than the longest ones fits. -/
theorem tableWidth_naturalWidths {showWords : Bool} {rows : List (List String)}
    (h : ∀ cells ∈ rows, CellsFit (cellCaps showWords) cells) :
    tableWidth ((naturalWidths (if showWords then 3 else 2) rows).map
      fun (w : Nat) => max minColumn w) ≤ 200 := by
  have hle : List.Forall₂ (· ≤ ·)
      ((naturalWidths (cellCaps showWords).length rows).map fun (w : Nat) => max minColumn w)
      ((cellCaps showWords).map fun (w : Nat) => max minColumn w) := by
    rw [List.forall₂_map_left_iff, List.forall₂_map_right_iff]
    refine (naturalWidths_le h).imp fun w cap hcap => ?_
    omega
  rw [← length_cellCaps]
  refine Int.le_trans (tableWidth_mono hle) ?_
  cases showWords <;> decide

/-! ## Listings -/

/-- **Aligned and plain listings agree.** Words of 64 bits that are disassembled are listed, aligned and
plain. On a terminal of 200 characters or more the columns of the aligned listing can be laid out, no
cell is cut, and tidying its lines gives the plain listing. -/
theorem listing_aligned_tidy (showWords : Bool) {words : List Int} (hcount : words.length ≤ 0x4000000)
    (hwords : ∀ w ∈ words, 0 ≤ w ∧ w < 0x10000000000000000 ∧
      ∃ s, (Instruction.ofWord w).text = .ok s) {width : Int} (hwidth : 200 ≤ width) :
    ∃ rows widths, listingRows showWords words = .ok rows ∧ rows.length = words.length ∧
      columnWidths? width (naturalWidths (if showWords then 3 else 2) rows) = some widths ∧
      (∀ cells ∈ rows, CellsFit widths cells) ∧
      listing ⟨showWords, true, width⟩ words = .ok (alignedRows widths rows) ∧
      listing ⟨showWords, false, width⟩ words = .ok (plainRows rows) ∧
      tidy (alignedRows widths rows) = plainRows rows := by
  obtain ⟨rows, hrows⟩ := exists_listingRows showWords fun w hw => (hwords w hw).2.2
  have hcaps : ∀ cells ∈ rows, CellsFit (cellCaps showWords) cells := by
    intro cells hcells
    obtain ⟨i, w, hi, hrow⟩ := exists_of_mem_listingRows hrows hcells
    obtain ⟨hnonneg, hlt, _⟩ := hwords w (List.mem_of_getElem? hi)
    have hindex := (List.getElem?_eq_some_iff.1 hi).1
    exact rowCells_caps (by omega) hnonneg hlt hrow
  have hlayout := columnWidths?_of_fits (Int.le_trans (tableWidth_naturalWidths hcaps) hwidth)
  have hfit : ∀ cells ∈ rows,
      CellsFit ((naturalWidths (if showWords then 3 else 2) rows).map (max 5)) cells := by
    intro cells hcells
    refine cellsFit_naturalWidths hcells ?_
    rw [← (hcaps cells hcells).length_eq, length_cellCaps]
  exact ⟨rows, _, hrows, (listingRows_eq_ok hrows).1.symm, hlayout, hfit, listing_aligned hrows hlayout,
    listing_plain hrows width, tidy_alignedRows hfit fun _ hcells => isNeat_listingRows hrows hcells⟩

/-- The marker word with the longest disassembly, a synchronisation and a reset. -/
theorem listing_aligned_tidy_marker :
    ∃ rows widths, rows.length = 3 ∧
      listing ⟨true, true, 200⟩ [0x1fffffffffffffff, 0x9100800000000000, 0xa1002f0000000000] =
        .ok (alignedRows widths rows) ∧
      listing ⟨true, false, 200⟩ [0x1fffffffffffffff, 0x9100800000000000, 0xa1002f0000000000] =
        .ok (plainRows rows) ∧
      tidy (alignedRows widths rows) = plainRows rows := by
  have hwords : ∀ w ∈ [(0x1fffffffffffffff : Int), 0x9100800000000000, 0xa1002f0000000000],
      0 ≤ w ∧ w < 0x10000000000000000 ∧ ∃ s, (Instruction.ofWord w).text = .ok s := by
    simp only [List.forall_mem_cons]
    exact ⟨⟨by decide, by decide, _, rfl⟩, ⟨by decide, by decide, _, rfl⟩,
      ⟨by decide, by decide, _, rfl⟩, List.forall_mem_nil _⟩
  obtain ⟨rows, widths, _, hlength, _, _, haligned, hplain, htidy⟩ :=
    listing_aligned_tidy true (by decide) hwords (Int.le_refl 200)
  exact ⟨rows, widths, hlength, haligned, hplain, htidy⟩

end PulseSequencer
