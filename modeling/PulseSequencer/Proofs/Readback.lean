import PulseSequencer.Proofs.Encoding

/-!
# Reading samples back from memory

Levels fit the cells of memory, so what was stored of a pulse can be read from the two images.

* `DacSample.InRange` — both parts are levels of the outputs; `Pulse.shapeLevels_inRange`.
* `Memory.HoldsAt` — samples stand at a place in both images.
* `Stored.holds_constant`, `Stored.holds_samples` — what stands in memory for a pulse.
-/

namespace PulseSequencer

/-! ## Levels -/

/-- A level is within the range of the outputs. -/
theorem Binary64.natAbs_level_le {x : Binary64} {v : Int} (h : x.level = some v) :
    v.natAbs ≤ Hardware.maxLevel := by
  have hsigned : ∀ negative n, (Binary64.signed negative n).natAbs = n := by
    intro negative n
    cases negative <;> simp [Binary64.signed]
  cases x with
  | nan => cases h
  | infinite negative =>
    obtain rfl := Option.some.inj h
    exact Nat.le_of_eq (hsigned negative _)
  | finite negative m =>
    obtain rfl := Option.some.inj h
    rw [hsigned]
    exact Nat.min_le_left _ _

/-- Both parts of a sample, where they are numbers, are levels of the outputs. -/
def DacSample.InRange (s : DacSample) : Prop :=
  (∀ v, s.inPhase = some v → v.natAbs ≤ Hardware.maxLevel) ∧
    ∀ v, s.quadrature = some v → v.natAbs ≤ Hardware.maxLevel

theorem Sample.clamp_inRange (s : Sample) : s.clamp.InRange := by
  unfold Sample.clamp
  split
  · constructor <;> intro v h <;> cases h
  · rename_i q hq
    refine ⟨fun v h => Binary64.natAbs_level_le h, fun v h => ?_⟩
    obtain rfl := Option.some.inj h
    exact Binary64.natAbs_level_le hq

theorem Pulse.shapeLevels_inRange (p : Pulse) (settings : Settings) (n : Nat) :
    ∀ s ∈ p.shapeLevels settings n, s.InRange := by
  intro s hs
  unfold shapeLevels at hs
  dsimp only at hs
  split at hs
  · obtain ⟨_, rfl⟩ := List.mem_replicate.1 hs
    exact Sample.clamp_inRange _
  · obtain ⟨k, _, rfl⟩ := List.mem_mapIdx.1 hs
    exact Sample.clamp_inRange _

/-! ## Cells -/

theorem Level.toInt_stored {v : Int} (h : v.natAbs ≤ Hardware.maxLevel) :
    (Level.stored (some v)).toInt = v := by
  unfold Hardware.maxLevel at h
  change (Int16.ofInt v).toInt = v
  exact Int16.toInt_ofInt_of_le (by omega) (by omega)

/-- The cell of a sample holds its levels. -/
theorem DacSample.levels_cell {s : DacSample} (hrange : s.InRange) (hnum : s.isNumber = true) :
    s.inPhase = some s.cell.inPhase.toInt ∧ s.quadrature = some s.cell.quadrature.toInt := by
  obtain ⟨i, q⟩ := s
  cases i with
  | none => cases hnum
  | some i =>
    cases q with
    | none => cases hnum
    | some q =>
      exact ⟨congrArg some (Level.toInt_stored (hrange.1 i rfl)).symm,
        congrArg some (Level.toInt_stored (hrange.2 q rfl)).symm⟩

/-- The sample with which quanta are filled up. -/
def DacSample.zero : DacSample := ⟨some 0, some 0⟩

theorem DacSample.zero_inRange : DacSample.zero.InRange := by
  constructor <;> intro v h <;> cases h <;> decide

/-! ## Memory -/

namespace Memory

/-- The samples stand in both images from `start` on. -/
def HoldsAt (m : Memory) (start : Nat) (samples : List DacSample) : Prop :=
  ((m.inPhase.drop start).take samples.length).map some = samples.map DacSample.inPhase ∧
    ((m.quadrature.drop start).take samples.length).map some = samples.map DacSample.quadrature

/-- Numbers in range can be read where their cells stand. -/
theorem holdsAt_of_cells {m : Memory} {before after : List Cell} {samples : List DacSample}
    (hcells : m.cells = before ++ samples.map DacSample.cell ++ after)
    (hgood : ∀ s ∈ samples, s.InRange ∧ s.isNumber = true) : m.HoldsAt before.length samples := by
  have hslice : (m.cells.drop before.length).take samples.length = samples.map DacSample.cell := by
    rw [hcells, List.append_assoc, List.drop_left, List.take_left' (List.length_map _)]
  unfold HoldsAt inPhase quadrature
  rw [← List.map_drop, ← List.map_take, ← List.map_drop, ← List.map_take, hslice]
  simp only [List.map_map]
  constructor
  · apply List.map_congr_left
    intro s hs
    exact (DacSample.levels_cell (hgood s hs).1 (hgood s hs).2).1.symm
  · apply List.map_congr_left
    intro s hs
    exact (DacSample.levels_cell (hgood s hs).1 (hgood s hs).2).2.symm

end Memory

/-! ## What stands in memory for a pulse -/

theorem storedCells_of_constant {s : DacSample} {rest : List DacSample}
    (h : isConstant (s :: rest) = true) :
    storedCells (s :: rest) = (List.replicate Hardware.quantum s).map DacSample.cell ∧
      s.isNumber = true ∧ ∀ x ∈ s :: rest, x = s := by
  have hparts : s.isNumber = true ∧ rest.all (· == s) = true := by
    unfold isConstant at h
    exact Bool.and_eq_true_iff.1 h
  refine ⟨?_, hparts.1, ?_⟩
  · unfold storedCells
    rw [if_pos h, List.map_replicate]
    simp
  · intro x hx
    rcases List.mem_cons.1 hx with rfl | hx
    · rfl
    · exact beq_iff_eq.1 (List.all_eq_true.1 hparts.2 x hx)

theorem storedCells_of_not_constant {samples : List DacSample} (h : isConstant samples = false) :
    storedCells samples = (samples ++ List.replicate
      (Hardware.quantum * quanta samples.length - samples.length) DacSample.zero).map
        DacSample.cell := by
  unfold storedCells
  rw [if_neg (by simp [h]), List.map_append, List.map_replicate]
  rfl

section

variable {settings : Settings} {m : Memory} {p : Pulse} {w : Waveform} {n : Nat}

theorem Stored.exists_cells (h : Stored settings m p w n) :
    ∃ before after, m.cells = before ++ storedCells (p.shapeLevels settings n) ++ after ∧
      before.length = Hardware.quantum * w.address.toNat := by
  obtain ⟨before, after, hcells, hstart⟩ := h.cells
  have := h.address_nonneg
  refine ⟨before, after, hcells, ?_⟩
  unfold Hardware.quantum at hstart ⊢
  omega

/-- For a constant pulse one quantum of its value stands in memory. -/
theorem Stored.holds_constant (h : Stored settings m p w n) (hta : w.isTa = true) :
    ∃ v, (∀ s ∈ p.shapeLevels settings n, s = v) ∧
      m.HoldsAt (Hardware.quantum * w.address.toNat) (List.replicate Hardware.quantum v) := by
  have hconst := h.isTa.symm.trans hta
  have hlen : (p.shapeLevels settings n).length = n := Pulse.length_shapeLevels h.samples
  have hrange := p.shapeLevels_inRange settings n
  obtain ⟨before, after, hcells, hstart⟩ := h.exists_cells
  cases hs : p.shapeLevels settings n with
  | nil =>
    have := h.nonempty
    rw [hs, List.length_nil] at hlen
    omega
  | cons s rest =>
    rw [hs] at hconst hcells hrange
    obtain ⟨hstored, hnum, hall⟩ := storedCells_of_constant hconst
    rw [hstored] at hcells
    refine ⟨s, hall, hstart ▸ Memory.holdsAt_of_cells hcells ?_⟩
    intro x hx
    obtain ⟨_, rfl⟩ := List.mem_replicate.1 hx
    exact ⟨hrange x List.mem_cons_self, hnum⟩

/-- For any other pulse all its samples stand in memory, filled up with zeros. -/
theorem Stored.holds_samples (h : Stored settings m p w n) (hta : w.isTa = false)
    (hnum : ∀ s ∈ p.shapeLevels settings n, s.isNumber = true) :
    m.HoldsAt (Hardware.quantum * w.address.toNat) (p.shapeLevels settings n ++
      List.replicate (Hardware.quantum * quanta n - n) DacSample.zero) := by
  have hconst := h.isTa.symm.trans hta
  obtain ⟨before, after, hcells, hstart⟩ := h.exists_cells
  rw [storedCells_of_not_constant hconst, Pulse.length_shapeLevels h.samples] at hcells
  refine hstart ▸ Memory.holdsAt_of_cells hcells ?_
  intro s hs
  rcases List.mem_append.1 hs with hs | hs
  · exact ⟨p.shapeLevels_inRange settings n s hs, hnum s hs⟩
  · obtain ⟨_, rfl⟩ := List.mem_replicate.1 hs
    exact ⟨DacSample.zero_inRange, rfl⟩

end

end PulseSequencer
