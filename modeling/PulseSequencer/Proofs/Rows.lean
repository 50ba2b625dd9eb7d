import PulseSequencer.Listing
import PulseSequencer.Proofs.Disassembly

/-!
# Rows of a listing

A row is one line: its cells hold no end of line, so the lines of a listing are its rows, and a plain
listing tells the disassembly of every word.

* `unlines`, `splitOn_unlines`, `unlines_inj` — texts of lines, each with its end.
* `rowCells_eq_ok`, `isNeat_rowCells` — the cells of a row.
* `listingRows`, `listing_plain`, `listing_aligned` — the rows of a listing and how they are written.
* `plainLine`, `toList_plainRows` — plain rows as lines; `plainRows_inj` — what they tell.
-/

namespace PulseSequencer

/-! ## Lines -/

/-- Lines one after another, each with its end. -/
def unlines (lines : List (List Char)) : List Char := lines.flatMap (· ++ ['\n'])

theorem splitOn_unlines {lines : List (List Char)} (h : ∀ l ∈ lines, '\n' ∉ l) :
    (unlines lines).splitOn '\n' = lines ++ [[]] := by
  induction lines with
  | nil => rfl
  | cons l lines ih =>
    obtain ⟨hl, hlines⟩ := List.forall_mem_cons.1 h
    have hunfold : unlines (l :: lines) = l ++ '\n' :: unlines lines := by
      simp [unlines]
    rw [hunfold, List.splitOn_append_cons_self_of_not_mem hl, ih hlines, List.cons_append]

/-- A text of lines tells its lines. -/
theorem unlines_inj {lines lines' : List (List Char)} (h : ∀ l ∈ lines, '\n' ∉ l)
    (h' : ∀ l ∈ lines', '\n' ∉ l) (heq : unlines lines = unlines lines') : lines = lines' := by
  have hsplit := congrArg (List.splitOn '\n') heq
  rw [splitOn_unlines h, splitOn_unlines h'] at hsplit
  exact List.append_cancel_right hsplit

/-! ## Cells -/

variable {showWords : Bool} {index : Nat} {w : Int} {cells : List String} {words : List Int}
  {rows : List (List String)}

theorem rowCells_eq_ok (h : rowCells showWords index w = .ok cells) :
    ∃ s, (Instruction.ofWord w).text = .ok s ∧
      cells = s!"{index}:" :: ((if showWords then ["0x" ++ paddedHex 16 w] else []) ++ [s]) := by
  obtain ⟨s, hs, h⟩ := bind_eq_ok.1 h
  exact ⟨s, hs, (pure_eq_ok.1 h).symm⟩

theorem toList_index (n : Nat) : (s!"{n}:").toList = Nat.toDigits 10 n ++ [':'] := by
  simp [toString]

theorem isValue_index (n : Nat) : IsValue (s!"{n}:").toList := by
  have hcolon : IsValue [':'] := by decide
  rw [toList_index]
  exact (isValue_toDigits (by decide) (by decide) n).append hcolon

theorem isValue_paddedHex (width : Nat) (w : Int) : IsValue (paddedHex width w).toList := by
  have hdigits : IsValue (hexDigits w.natAbs) := isValue_toDigits (by decide) (by decide) _
  have hsign : IsValue ['-'] := by decide
  rw [paddedHex, String.toList_ofList]
  split
  · exact hsign.append (isValue_padZeros hdigits _)
  · exact isValue_padZeros hdigits _

/-- The cells of a row are neat. -/
theorem isNeat_rowCells (h : rowCells showWords index w = .ok cells) :
    ∀ cell ∈ cells, IsNeat cell.toList := by
  obtain ⟨s, hs, rfl⟩ := rowCells_eq_ok h
  have hmark : IsValue "0x".toList := by decide
  have hword : IsNeat ("0x" ++ paddedHex 16 w).toList := by
    rw [String.toList_append]
    exact (hmark.append (isValue_paddedHex 16 w)).isNeat
  refine List.forall_mem_cons.2 ⟨(isValue_index index).isNeat, List.forall_mem_append.2 ⟨?_, ?_⟩⟩
  · split
    · exact List.forall_mem_singleton.2 hword
    · exact List.forall_mem_nil _
  · exact List.forall_mem_singleton.2 (Instruction.isNeat_text hs)

/-! ## Rows -/

/-- The rows of a listing. -/
def listingRows (showWords : Bool) (words : List Int) : Except Fault (List (List String)) :=
  (words.mapIdx fun i w => (i, w)).mapM fun (i, w) => rowCells showWords i w

theorem listingRows_eq_ok (h : listingRows showWords words = .ok rows) :
    words.length = rows.length ∧ ∀ (i : Nat) (w : Int) (cells : List String),
      words[i]? = some w → rows[i]? = some cells → rowCells showWords i w = .ok cells := by
  obtain ⟨hlength, hget⟩ := mapM_eq_ok_iff.1 h
  refine ⟨by simpa using hlength, fun i w cells hw hcells => ?_⟩
  exact hget i (i, w) cells (by simp [hw]) hcells

theorem exists_of_mem_listingRows (h : listingRows showWords words = .ok rows) (hcells : cells ∈ rows) :
    ∃ (i : Nat) (w : Int), words[i]? = some w ∧ rowCells showWords i w = .ok cells := by
  obtain ⟨hlength, hget⟩ := listingRows_eq_ok h
  obtain ⟨i, hi⟩ := List.mem_iff_getElem?.1 hcells
  have hlt : i < words.length := hlength ▸ (List.getElem?_eq_some_iff.1 hi).1
  have hw := List.getElem?_eq_getElem hlt
  exact ⟨i, words[i], hw, hget i words[i] cells hw hi⟩

theorem isNeat_listingRows (h : listingRows showWords words = .ok rows) (hcells : cells ∈ rows) :
    cells ≠ [] ∧ ∀ cell ∈ cells, IsNeat cell.toList := by
  obtain ⟨i, w, _, hrow⟩ := exists_of_mem_listingRows h hcells
  obtain ⟨s, _, hs⟩ := rowCells_eq_ok hrow
  exact ⟨by simp [hs], isNeat_rowCells hrow⟩

/-- Words that are disassembled have rows. -/
theorem exists_listingRows (showWords : Bool)
    (h : ∀ w ∈ words, ∃ s, (Instruction.ofWord w).text = .ok s) :
    ∃ rows, listingRows showWords words = .ok rows := by
  refine mapM_of_forall fun x hx => ?_
  obtain ⟨i, hi, rfl⟩ := List.mem_mapIdx.1 hx
  obtain ⟨s, hs⟩ := h _ (List.getElem_mem hi)
  exact ⟨_, bind_eq_ok.2 ⟨s, hs, rfl⟩⟩

/-- A plain listing. -/
theorem listing_plain (h : listingRows showWords words = .ok rows) (width : Int) :
    listing ⟨showWords, false, width⟩ words = .ok (plainRows rows) :=
  bind_eq_ok.2 ⟨rows, h, rfl⟩

/-- An aligned listing whose columns fit. -/
theorem listing_aligned (h : listingRows showWords words = .ok rows) {width : Int} {widths : List Nat}
    (hwidths : columnWidths? width (naturalWidths (if showWords then 3 else 2) rows) = some widths) :
    listing ⟨showWords, true, width⟩ words = .ok (alignedRows widths rows) := by
  refine bind_eq_ok.2 ⟨rows, h, ?_⟩
  simp only [if_true, hwidths]
  rfl

/-! ## Plain rows -/

/-- A plain row without its end. -/
def plainLine (cells : List String) : List Char := [' '].intercalate (cells.map String.toList)

theorem toList_plainRows (rows : List (List String)) :
    (plainRows rows).toList = unlines (rows.map plainLine) := by
  simp [plainRows, plainRow, plainLine, unlines, List.flatMap_map]

/-- A row of neat cells is neat. -/
theorem isNeat_plainLine (hne : cells ≠ []) (h : ∀ cell ∈ cells, IsNeat cell.toList) :
    IsNeat (plainLine cells) := by
  have hblank : IsLabel [' '] := by decide
  induction cells with
  | nil => exact absurd rfl hne
  | cons cell cells ih =>
    obtain ⟨hcell, hcells⟩ := List.forall_mem_cons.1 h
    cases cells with
    | nil => simpa [plainLine] using hcell
    | cons next cells =>
      have hrest := ih (List.cons_ne_nil _ _) hcells
      simpa [plainLine] using hblank.isNeat_append hcell hrest

theorem newline_not_mem_plainLines (h : listingRows showWords words = .ok rows) :
    ∀ l ∈ rows.map plainLine, '\n' ∉ l := by
  intro l hl
  obtain ⟨cells, hcells, rfl⟩ := List.mem_map.1 hl
  obtain ⟨hne, hneat⟩ := isNeat_listingRows h hcells
  exact (isNeat_plainLine hne hneat).not_newline

/-- Rows of the same index that are equal as lines show the same disassembly. -/
theorem text_eq_of_plainLine {w' : Int} {cells' : List String}
    (h : rowCells false index w = .ok cells) (h' : rowCells false index w' = .ok cells')
    (hline : plainLine cells = plainLine cells') :
    (Instruction.ofWord w).text = (Instruction.ofWord w').text := by
  obtain ⟨s, hs, rfl⟩ := rowCells_eq_ok h
  obtain ⟨s', hs', rfl⟩ := rowCells_eq_ok h'
  have heq : s = s' := String.toList_injective (by simpa [plainLine] using hline)
  rw [hs, hs', heq]

/-- **A plain listing tells the disassembly of every word.** -/
theorem plainRows_inj {words' : List Int} {rows' : List (List String)}
    (h : listingRows false words = .ok rows) (h' : listingRows false words' = .ok rows')
    (heq : plainRows rows = plainRows rows') :
    words.map (fun w => (Instruction.ofWord w).text) =
      words'.map (fun w => (Instruction.ofWord w).text) := by
  have hlines : rows.map plainLine = rows'.map plainLine := by
    refine unlines_inj (newline_not_mem_plainLines h) (newline_not_mem_plainLines h') ?_
    rw [← toList_plainRows, heq, toList_plainRows]
  obtain ⟨hlength, hget⟩ := listingRows_eq_ok h
  obtain ⟨hlength', hget'⟩ := listingRows_eq_ok h'
  have hrows : rows.length = rows'.length := by simpa using congrArg List.length hlines
  refine List.ext_getElem (by simp only [List.length_map]; omega) fun i hi hi' => ?_
  rw [List.length_map] at hi hi'
  have hr : i < rows.length := by omega
  have hr' : i < rows'.length := by omega
  have hline : plainLine rows[i] = plainLine rows'[i] := by
    simpa [hr, hr'] using congrArg (fun lines => lines[i]?) hlines
  rw [List.getElem_map, List.getElem_map]
  exact text_eq_of_plainLine
    (hget i words[i] rows[i] (List.getElem?_eq_getElem hi) (List.getElem?_eq_getElem hr))
    (hget' i words'[i] rows'[i] (List.getElem?_eq_getElem hi') (List.getElem?_eq_getElem hr')) hline

end PulseSequencer
