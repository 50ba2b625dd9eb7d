import PulseSequencer.Proofs.Readback

/-!
# Constant pulses in one quantum

Samples that are all alike are stored as one quantum, which is played for the whole duration. Playback
takes whole quanta, so a pulse whose length is none of them goes on after its last sample: with zeros if
all samples are stored, with its own value if one quantum is. Zeros that were added are noted in the log.

* `Waveform.played` — what a waveform plays out of the cells stored for it.
* `continuation`, `filled` — what samples go on with, and the samples with it.
* `played_storedCells` — what is played of stored samples.
* `encodeWaveform_played` — what an encoded pulse plays, and when that is the pulse followed by zeros.
* `encodeWaveform_held` — a constant pulse that is not followed by zeros.
-/

namespace PulseSequencer

/-- The cells that a waveform plays out of those stored for it: a quantum again and again, or all. -/
def Waveform.played (w : Waveform) (stored : List Cell) : List Cell :=
  if w.isTa then (List.replicate (w.count + 1).toNat stored).flatten else stored

/-- What samples go on with until their last quantum ends. -/
def continuation (wf : List DacSample) : DacSample :=
  if isConstant wf then wf.headD .zero else .zero

/-- Samples that go on with a given one until their last quantum ends. -/
def filled (fill : DacSample) (wf : List DacSample) : List DacSample :=
  wf ++ List.replicate (Hardware.quantum * quanta wf.length - wf.length) fill

/-- The levels that a cell holds. -/
def Cell.levels (c : Cell) : DacSample := ⟨some c.inPhase.toInt, some c.quadrature.toInt⟩

/-! ## Samples and what they go on with -/

theorem isConstant_cons_iff {s : DacSample} {rest : List DacSample} :
    isConstant (s :: rest) = true ↔ s.isNumber = true ∧ ∀ x ∈ s :: rest, x = s := by
  simp [isConstant]

/-- Constant samples have one value, which is a number. -/
theorem isConstant_iff {wf : List DacSample} (hne : wf ≠ []) :
    isConstant wf = true ↔ ∃ v : DacSample, v.isNumber = true ∧ ∀ x ∈ wf, x = v := by
  cases wf with
  | nil => exact absurd rfl hne
  | cons s rest =>
    rw [isConstant_cons_iff]
    constructor
    · rintro ⟨hnum, hall⟩
      exact ⟨s, hnum, hall⟩
    · rintro ⟨v, hnum, hall⟩
      obtain rfl := hall s List.mem_cons_self
      exact ⟨hnum, hall⟩

theorem quantum_dvd_iff (n : Nat) : Hardware.quantum ∣ n ↔ Hardware.quantum * quanta n = n := by
  constructor
  · rintro ⟨k, rfl⟩
    unfold quanta Hardware.quantum
    omega
  · intro h
    exact ⟨quanta n, h.symm⟩

/-- A number in range is read back from its cell. -/
theorem DacSample.levels_of_cell {s : DacSample} (hrange : s.InRange) (hnum : s.isNumber = true) :
    s.cell.levels = s := by
  obtain ⟨hi, hq⟩ := DacSample.levels_cell hrange hnum
  obtain ⟨i, q⟩ := s
  exact congr (congrArg DacSample.mk hi.symm) hq.symm

/-- What samples go on with is a number, also if the samples are none. -/
theorem continuation_isNumber (wf : List DacSample) : (continuation wf).isNumber = true := by
  unfold continuation
  split
  · rename_i hconst
    cases wf with
    | nil => rfl
    | cons s rest => exact (isConstant_cons_iff.1 hconst).1
  · rfl

theorem continuation_inRange {wf : List DacSample} (h : ∀ x ∈ wf, x.InRange) :
    (continuation wf).InRange := by
  unfold continuation
  split
  · cases wf with
    | nil => exact DacSample.zero_inRange
    | cons s rest => exact h s List.mem_cons_self
  · exact DacSample.zero_inRange

theorem continuation_eq_zero_iff {wf : List DacSample} (hne : wf ≠ []) :
    continuation wf = .zero ↔ isConstant wf = false ∨ ∀ x ∈ wf, x = .zero := by
  unfold continuation
  cases hconst : isConstant wf with
  | false => simp
  | true =>
    cases wf with
    | nil => exact absurd rfl hne
    | cons s rest =>
      obtain ⟨_, hall⟩ := isConstant_cons_iff.1 hconst
      simp only [if_true, List.headD_cons, Bool.true_eq_false, false_or]
      constructor
      · rintro rfl
        exact hall
      · intro hzero
        exact hzero s List.mem_cons_self

/-- Samples that are numbers are read back from their cells, with what they go on with. -/
theorem levels_filled {wf : List DacSample} (hrange : ∀ x ∈ wf, x.InRange)
    (hnum : ∀ x ∈ wf, x.isNumber = true) :
    ((filled (continuation wf) wf).map DacSample.cell).map Cell.levels =
      filled (continuation wf) wf := by
  have hread : ∀ x ∈ filled (continuation wf) wf, (Cell.levels ∘ DacSample.cell) x = id x := by
    intro x hx
    rcases List.mem_append.1 hx with hx | hx
    · exact DacSample.levels_of_cell (hrange x hx) (hnum x hx)
    · obtain ⟨_, rfl⟩ := List.mem_replicate.1 hx
      exact DacSample.levels_of_cell (continuation_inRange hrange) (continuation_isNumber wf)
  rw [List.map_map, List.map_congr_left hread, List.map_id]

/-- Samples go on with zeros unless they are constant, not zero and end within a quantum. -/
theorem filled_cells_eq_iff {wf : List DacSample} (hrange : ∀ x ∈ wf, x.InRange) :
    (filled (continuation wf) wf).map DacSample.cell = (filled .zero wf).map DacSample.cell ↔
      Hardware.quantum ∣ wf.length ∨ continuation wf = .zero := by
  have hmissing : Hardware.quantum * quanta wf.length - wf.length = 0 ↔
      Hardware.quantum ∣ wf.length := by
    have hle := (quantum_mul_quanta wf.length).1
    rw [quantum_dvd_iff]
    omega
  have hcells : (continuation wf).cell = DacSample.zero.cell ↔ continuation wf = .zero := by
    constructor
    · intro h
      rw [← DacSample.levels_of_cell (continuation_inRange hrange) (continuation_isNumber wf), h]
      rfl
    · intro h
      rw [h]
  unfold filled
  rw [List.map_append, List.map_append, List.append_cancel_left_eq, List.map_replicate,
    List.map_replicate, List.replicate_inj, hcells, hmissing]
  exact and_iff_right rfl

/-! ## Playing what is stored -/

/-- **What is played of stored samples.** -/
theorem played_storedCells {w : Waveform} {wf : List DacSample} (hne : wf ≠ [])
    (hta : w.isTa = isConstant wf) (hcount : w.count = quanta wf.length - 1) :
    w.played (storedCells wf) = (filled (continuation wf) wf).map DacSample.cell := by
  unfold Waveform.played continuation
  rw [hta]
  cases hconst : isConstant wf with
  | false => exact storedCells_of_not_constant hconst
  | true =>
    cases wf with
    | nil => exact absurd rfl hne
    | cons s rest =>
      obtain ⟨hstored, _, hall⟩ := storedCells_of_constant hconst
      have hle := (quantum_mul_quanta (s :: rest).length).1
      have htimes : (w.count + 1).toNat = quanta (s :: rest).length := by omega
      have hsamples : s :: rest = List.replicate (s :: rest).length s :=
        List.eq_replicate_iff.2 ⟨rfl, hall⟩
      have hfilled : filled s (s :: rest) =
          List.replicate (Hardware.quantum * quanta (s :: rest).length) s := by
        unfold filled
        rw [hsamples, List.length_replicate, List.replicate_append_replicate]
        congr 1
        omega
      simp only [if_true, List.headD_cons]
      rw [hstored, htimes, hfilled, List.map_replicate, List.map_replicate,
        List.flatten_replicate_replicate, Nat.mul_comm]

/-- In a memory of whole quanta a pulse stands at the address of its record, whatever is stored later. -/
theorem stored_at_address {settings : Settings} {p : Pulse} {s s' : Session} {w : Waveform} {n : Nat}
    (h : encodeWaveform settings p s = .ok w s') (hn : p.sampleCount Hardware.dacClock = .ok n)
    (hwhole : s.memory.Whole) {m : Memory} (hgrows : s'.memory.Grows m) :
    (m.cells.drop (Hardware.quantum * w.address.toNat)).take
      (storedCells (p.shapeLevels settings n)).length = storedCells (p.shapeLevels settings n) := by
  obtain ⟨⟨k, hstored⟩, _⟩ := stored_of_encodeWaveform h hwhole
  obtain rfl : k = n := Except.ok.inj (hstored.samples.symm.trans hn)
  obtain ⟨more, hmore⟩ := hgrows
  obtain ⟨before, after, hcells, hstart⟩ := (hstored.append hmore).exists_cells
  rw [hcells, ← hstart, List.append_assoc, List.drop_left, List.take_left]

/-! ## The log -/

/-- The warnings among notes. -/
def warnings (notes : List Event) : List Event := notes.filter (·.severity = .warning)

/-- What encoding a pulse of `n` samples notes. -/
def encodingNotes (p : Pulse) (w : Waveform) (n : Nat) : List Event :=
  (if !w.isTa && Hardware.quantum * quanta n != n then
    [.padded p.label n (Hardware.quantum * quanta n)] else []) ++
    [.encoded p.label w.address w.count w.isTa]

/-- Only zeros that are added are worth a warning. -/
theorem warnings_encodingNotes (p : Pulse) (w : Waveform) (n : Nat) :
    warnings (encodingNotes p w n) = if w.isTa = false ∧ ¬ Hardware.quantum ∣ n then
      [.padded p.label n (Hardware.quantum * quanta n)] else [] := by
  have hcond : (!w.isTa && Hardware.quantum * quanta n != n) = true ↔
      w.isTa = false ∧ ¬ Hardware.quantum ∣ n := by
    simp [quantum_dvd_iff]
  unfold encodingNotes warnings
  rw [List.filter_append]
  by_cases h : w.isTa = false ∧ ¬ Hardware.quantum ∣ n
  · rw [if_pos (hcond.2 h), if_pos h]
    rfl
  · rw [if_neg fun hnoted => h (hcond.1 hnoted), if_neg h]
    rfl

/-- **What an encoded pulse plays.** Its samples are followed, up to whole quanta, by zeros, or by its
own value if it is constant. So the samples followed by zeros are played if and only if the pulse is not
constant, or is constantly zero, or fills its quanta. There is a warning if and only if zeros were added.
In a memory of whole quanta the cells that are played stand at the address of the record, whatever is
stored later. -/
theorem encodeWaveform_played {settings : Settings} {p : Pulse} {s s' : Session} {w : Waveform}
    (h : encodeWaveform settings p s = .ok w s') :
    ∃ wf stored notes, p.levels settings = .ok wf ∧ 1 ≤ wf.length ∧
      s'.memory.cells = s.memory.cells ++ stored ∧ s'.log.toList = s.log.toList ++ notes ∧
      (w.isTa = true ↔ ∃ v : DacSample, v.isNumber = true ∧ ∀ x ∈ wf, x = v) ∧
      w.played stored = (filled (continuation wf) wf).map DacSample.cell ∧
      ((∀ x ∈ wf, x.isNumber = true) →
        (w.played stored).map Cell.levels = filled (continuation wf) wf) ∧
      (w.played stored = (filled .zero wf).map DacSample.cell ↔
        w.isTa = false ∨ Hardware.quantum ∣ wf.length ∨ ∀ x ∈ wf, x = .zero) ∧
      warnings notes = (if w.isTa = false ∧ ¬ Hardware.quantum ∣ wf.length then
        [.padded p.label wf.length (Hardware.quantum * quanta wf.length)] else []) ∧
      (s.memory.Whole → ∀ m, s'.memory.Grows m →
        (m.cells.drop (Hardware.quantum * w.address.toNat)).take stored.length = stored) := by
  obtain ⟨n, hn, hpos, _, _, _, hw, hs'⟩ := encodeWaveform_eq_ok h
  have hlen : (p.shapeLevels settings n).length = n := Pulse.length_shapeLevels hn
  have hne : p.shapeLevels settings n ≠ [] := List.ne_nil_of_length_pos (by omega)
  have hta : w.isTa = isConstant (p.shapeLevels settings n) := by rw [hw]
  have hcount : w.count = quanta (p.shapeLevels settings n).length - 1 := by rw [hw, hlen]
  have hrange := p.shapeLevels_inRange settings n
  have hplayed := played_storedCells hne hta hcount
  refine ⟨p.shapeLevels settings n, storedCells (p.shapeLevels settings n), encodingNotes p w n, ?_,
    by omega, ?_, ?_, ?_, hplayed, ?_, ?_, ?_, fun hwhole m => stored_at_address h hn hwhole⟩
  · rw [Pulse.levels, hn]
    rfl
  · rw [hs']
  · rw [hs']
    unfold encodingNotes
    split <;> simp
  · rw [hta, isConstant_iff hne]
  · intro hnum
    rw [hplayed, levels_filled hrange hnum]
  · rw [hplayed, filled_cells_eq_iff hrange, continuation_eq_zero_iff hne, hta,
      or_left_comm]
  · rw [hlen, warnings_encodingNotes]

/-- Five samples, the last one lower. -/
def droppedPulse : Pulse where
  uid := 1
  label := "dropped"
  length := 1.0e-8
  shape := .samples (List.replicate 4 (.real 0.5) ++ [.real 0.25])

/-- Three zeros follow five samples that are not all alike, and there is a warning. -/
theorem encodeWaveform_played_dropped : ∃ w s' wf stored notes,
    encodeWaveform {} droppedPulse {} = .ok w s' ∧ droppedPulse.levels {} = .ok wf ∧
    s'.memory.cells = stored ∧ s'.log.toList = notes ∧
    w.played stored = (filled .zero wf).map DacSample.cell ∧
    (w.played stored).map Cell.levels = filled (continuation wf) wf ∧
    warnings notes = [.padded "dropped" 5 8] := by
  have hlevels : (droppedPulse.levels {}).toOption.map (fun wf =>
      (wf.length, wf.all DacSample.isNumber)) = some (5, true) := by
    decide +kernel
  have hrun : (Encoder.value? (encodeWaveform {} droppedPulse {})).map Waveform.isTa = some false := by
    decide +kernel
  obtain ⟨wf, hwf, hsamples⟩ := exists_of_toOption hlevels
  obtain ⟨hlen, hnum⟩ := Prod.mk.inj hsamples
  obtain ⟨w, s', h, hta⟩ := Encoder.exists_of_value? hrun
  obtain ⟨wf', stored, notes, hlevels', _, hcells, hlog, _, _, hread, hzeros, hwarnings, _⟩ :=
    encodeWaveform_played h
  obtain rfl : wf' = wf := Except.ok.inj (hlevels'.symm.trans hwf)
  refine ⟨w, s', wf', stored, notes, h, hwf, hcells, hlog, hzeros.2 (Or.inl hta),
    hread (List.all_eq_true.1 hnum), ?_⟩
  rw [hwarnings, hlen, if_pos ⟨hta, by decide⟩]
  rfl

/-- Five equal samples. -/
def heldPulse : Pulse where
  uid := 0
  label := "held"
  length := 1.0e-8
  shape := .samples (List.replicate 5 (.real 0.5))

/-- A constant pulse of five samples is played for eight, and there is no warning. -/
theorem encodeWaveform_held : ∃ w s' wf, encodeWaveform {} heldPulse {} = .ok w s' ∧
    heldPulse.levels {} = .ok wf ∧ wf = List.replicate 5 ⟨some 4096, some 0⟩ ∧ w.isTa = true ∧
    (w.played s'.memory.cells).map Cell.levels = List.replicate 8 ⟨some 4096, some 0⟩ ∧
    w.played s'.memory.cells ≠ (filled .zero wf).map DacSample.cell ∧ warnings s'.log.toList = [] := by
  have hlevels : (heldPulse.levels {}).toOption.map id =
      some (List.replicate 5 ⟨some 4096, some 0⟩) := by
    decide +kernel
  have hrun : (Encoder.result? (encodeWaveform {} heldPulse {})).map (fun (w, s') =>
      (w.isTa, (w.played s'.memory.cells).map Cell.levels, warnings s'.log.toList)) =
        some (true, List.replicate 8 ⟨some 4096, some 0⟩, []) := by
    decide +kernel
  obtain ⟨wf, hwf, rfl⟩ := exists_of_toOption hlevels
  obtain ⟨w, s', h, hresult⟩ := Encoder.exists_of_result? hrun
  simp only [Prod.mk.injEq] at hresult
  obtain ⟨hta, hplayed, hwarnings⟩ := hresult
  refine ⟨w, s', _, h, hwf, rfl, hta, hplayed, ?_, hwarnings⟩
  intro heq
  rw [heq] at hplayed
  revert hplayed
  decide

end PulseSequencer
