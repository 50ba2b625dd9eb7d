import PulseSequencer.Proofs.Decoding
import PulseSequencer.Proofs.MemoryImage

/-!
# Which pulses memory takes

Four limits stand in the way of a pulse, each in its own unit: on its samples, on its quanta, on the size
of memory and on the address at which it is stored. Memory that only encoding has filled runs out of
addresses long before it runs out of room, so the limit on its size is never met.

The address is known once the pulse is stored. So this limit is found too late: the pulse is refused, but
it stays in memory.

* `Memory.Reachable` — what encoding makes of empty memory; `Memory.Reachable.size_le`.
* `encodeWaveform_accepted` — what a pulse that is taken has and does.
* `Verdict` — all that may come of a pulse with samples; `encodeWaveform_verdict`.
* `encodeWaveform_acceptance` — the limits, exactly.
* `exists_reachable_filled` — memory can be filled up to the last address.
* `encodeWaveform_failed` — what a failure leaves of memory; `encodeWaveform_overrun` — not always what
  was there.
-/

namespace PulseSequencer

variable {settings : Settings} {p : Pulse} {s t : Session}

/-! ## Memory that encoding has filled -/

/-- Memory that successful encoding makes of empty memory. -/
inductive Memory.Reachable : Memory → Prop where
  | empty : Reachable {}
  | encode {settings : Settings} {p : Pulse} {s t : Session} {w : Waveform} (hs : Reachable s.memory)
    (h : encodeWaveform settings p s = .ok w t) : Reachable t.memory

/-- Memory with cells added at its end. -/
def Memory.extend (m : Memory) (cells : List Cell) : Memory := ⟨m.cells ++ cells, m.size + cells.length⟩

theorem Memory.size_extend (m : Memory) (cells : List Cell) :
    (m.extend cells).size = m.size + cells.length := rfl

theorem quanta_le_iff (n : Nat) : (quanta n : Int) - 1 ≤ Layout.count.top ↔ n ≤ 0x400000 := by
  rw [Layout.top_count]
  unfold quanta Hardware.quantum
  omega

theorem address_le_iff (size : Int) :
    size / Hardware.quantum ≤ Layout.address.top ↔ size < 0x4000000 := by
  rw [Layout.top_address]
  unfold Hardware.quantum
  omega

/-- A pulse that is not too long for its record takes no more of memory than the longest such pulse. -/
theorem length_storedCells_bounds {wf : List DacSample} (hmin : 1 ≤ wf.length)
    (hmax : wf.length ≤ 0x400000) :
    4 ≤ (storedCells wf).length ∧ (storedCells wf).length ≤ 0x400000 := by
  rw [length_storedCells (List.ne_nil_of_length_pos hmin)]
  unfold quanta Hardware.quantum
  split <;> omega

/-- What a pulse that is taken has and does. -/
theorem encodeWaveform_accepted {w : Waveform} (h : encodeWaveform settings p s = .ok w t) :
    ∃ wf, p.levels settings = .ok wf ∧ 1 ≤ wf.length ∧ wf.length ≤ 0x400000 ∧
      s.memory.size < 0x4000000 ∧ t.memory = s.memory.extend (storedCells wf) := by
  obtain ⟨n, hn, hmin, hcount, _, haddress, _, rfl⟩ := encodeWaveform_eq_ok h
  have hlength : (p.shapeLevels settings n).length = n := Pulse.length_shapeLevels hn
  refine ⟨_, Pulse.levels_of_sampleCount hn, ?_, ?_, (address_le_iff _).1 haddress, rfl⟩
  · rwa [hlength]
  · rw [hlength]
    exact (quanta_le_iff n).1 hcount

namespace Memory.Reachable

variable {m : Memory}

theorem whole (hm : m.Reachable) : m.Whole := by
  induction hm with
  | empty => exact whole_empty
  | encode _ h ih => exact (stored_of_encodeWaveform h ih).2.1

theorem quantum_dvd (hm : m.Reachable) : (4 : Int) ∣ m.size := by
  obtain ⟨hsize, k, hk⟩ := hm.whole
  exact ⟨k, by rw [hsize, hk, Int.natCast_mul]; rfl⟩

theorem size_nonneg (hm : m.Reachable) : 0 ≤ m.size := by
  rw [hm.whole.size]
  exact Int.natCast_nonneg _

/-- The last pulse starts below the last address and ends with the longest pulse at most. -/
theorem size_le (hm : m.Reachable) : m.size ≤ 0x4000000 - 4 + 0x400000 := by
  cases hm with
  | empty => decide
  | encode hs h =>
    obtain ⟨wf, _, hmin, hmax, hroom, hmemory⟩ := encodeWaveform_accepted h
    have hstart := hs.quantum_dvd
    have hlength := (length_storedCells_bounds hmin hmax).2
    rw [hmemory, size_extend]
    omega

/-- There is always room for a pulse that is not too long. -/
theorem room (hm : m.Reachable) {wf : List DacSample} (hmin : 1 ≤ wf.length)
    (hmax : wf.length ≤ 0x400000) :
    0 ≤ m.size + (storedCells wf).length ∧ m.size + (storedCells wf).length ≤ 0x10000000 := by
  have hlength := (length_storedCells_bounds hmin hmax).2
  have hnonneg := hm.size_nonneg
  have hle := hm.size_le
  omega

end Memory.Reachable

/-! ## What comes of a pulse -/

/-- What comes of a pulse with the samples `wf`, when, and what it leaves of memory. -/
inductive Verdict (p : Pulse) (m : Memory) (wf : List DacSample) :
    EStateM.Result Fault Session Waveform → Prop where
  | taken {w : Waveform} {t : Session} (hmin : 1 ≤ wf.length) (hmax : wf.length ≤ 0x400000)
    (hroom : m.size < 0x4000000) (hm : t.memory = m.extend (storedCells wf)) : Verdict p m wf (.ok w t)
  | length {t : Session} (h : wf.length = 0 ∨ 0x10000000 < wf.length) (hm : t.memory = m) :
    Verdict p m wf
      (.error (.outOfRange (.pulseLength p.label) wf.length Hardware.memoryCapacity 1) t)
  | count {t : Session} (hmin : 0x400000 < wf.length) (hmax : wf.length ≤ 0x10000000)
    (hm : t.memory = m) :
    Verdict p m wf
      (.error (.outOfRange (.pulseCount p.label) (quanta wf.length - 1) Layout.count.top 0) t)
  | address {t : Session} (hmin : 1 ≤ wf.length) (hmax : wf.length ≤ 0x400000)
    (hfull : 0x4000000 ≤ m.size) (hm : t.memory = m.extend (storedCells wf)) :
    Verdict p m wf
      (.error (.outOfRange .waveformAddress (m.size / Hardware.quantum) Layout.address.top 0) t)

/-- A failure, traced through the checks in their order. -/
theorem verdict_of_error {wf : List DacSample} {f : Fault} (hs : s.memory.Reachable)
    (hwf : p.levels settings = .ok wf) (h : encodeWaveform settings p s = .error f t) :
    Verdict p s.memory wf (.error f t) := by
  have hcapacity : Hardware.memoryCapacity = 0x10000000 := rfl
  obtain ⟨n, hn, hshape⟩ := map_eq_ok.1 hwf
  obtain rfl : wf.length = n := by rw [← hshape, Pulse.length_shapeLevels hn]
  unfold encodeWaveform at h
  rcases Encoder.bind_eq_error.1 h with hrun | ⟨n, _, hrun, h⟩
  · cases (Encoder.ofExcept_eq_error.1 hrun).1.symm.trans hn
  obtain ⟨hn', rfl⟩ := Encoder.ofExcept_eq_ok.1 hrun
  obtain rfl := Except.ok.inj (hn'.symm.trans hn)
  rcases Encoder.check_eq_error.1 h with ⟨hrange, rfl, rfl⟩ | ⟨⟨hmin, hmax⟩, h⟩
  · exact .length (by omega) rfl
  have hlong := quanta_le_iff wf.length
  rcases Encoder.check_eq_error.1 (Encoder.note_if_eq_iff.1 h) with ⟨hrange, rfl, rfl⟩ | ⟨⟨_, hcount⟩, h⟩
  · have hquanta := (quantum_mul_quanta wf.length).1
    unfold Hardware.quantum at hquanta
    exact .count (by omega) (by omega) rfl
  have hroom := hs.room (by omega) (hlong.1 hcount)
  rcases Encoder.bind_eq_error.1 h with hrun | ⟨_, _, hrun, h⟩
  · -- there is room, so the allocation does not fail
    obtain ⟨hfull, _⟩ := Encoder.error_of_allocate hrun
    rw [hshape] at hfull
    dsimp only at hfull
    omega
  obtain ⟨rfl, _, _, rfl⟩ := Encoder.allocate_eq_ok.1 hrun
  rcases Encoder.check_eq_error.1 h with ⟨hrange, rfl, rfl⟩ | ⟨_, h⟩
  · refine .address (by omega) (hlong.1 hcount) ?_ (by rw [hshape]; rfl)
    have hnonneg := hs.size_nonneg
    have haddress := address_le_iff s.memory.size
    dsimp only at hrange
    unfold Hardware.quantum at hrange haddress
    omega
  · rcases Encoder.bind_eq_error.1 h with hrun | ⟨_, _, _, h⟩
    · cases hrun
    · cases h

theorem encodeWaveform_verdict {wf : List DacSample} (hs : s.memory.Reachable)
    (hwf : p.levels settings = .ok wf) : Verdict p s.memory wf (encodeWaveform settings p s) := by
  cases h : encodeWaveform settings p s with
  | ok w t =>
    obtain ⟨wf', hwf', hmin, hmax, hroom, hmemory⟩ := encodeWaveform_accepted h
    obtain rfl := Except.ok.inj (hwf'.symm.trans hwf)
    exact .taken hmin hmax hroom hmemory
  | error f t => exact verdict_of_error hs hwf h

theorem encodeWaveform_unsampled {f : Fault} (h : p.levels settings = .error f) :
    encodeWaveform settings p s = .error f s := by
  have hn : p.sampleCount Hardware.dacClock = .error f := map_eq_error.1 h
  exact Encoder.bind_eq_error.2 (Or.inl (Encoder.ofExcept_eq_error.2 ⟨hn, rfl⟩))

/-- Pulses without samples have their own faults. -/
theorem Pulse.fault_of_levels {f : Fault} (h : p.levels settings = .error f) :
    (∃ cause, f = .noInteger cause) ∨ ∃ cause, f = .noRoom cause := by
  have hnearest : ∀ x, nearestInt x = .error f → ∃ cause, f = .noInteger cause := by
    intro x hx
    unfold nearestInt at hx
    split at hx
    · cases hx
    · exact ⟨_, (Except.error.inj hx).symm⟩
  have hroom : ∀ room, roomFor room = .error f → ∃ cause, f = .noRoom cause := by
    intro room hx
    cases room with
    | ok n => cases hx
    | error cause => exact ⟨cause, (Except.error.inj hx).symm⟩
  have hcount : p.sampleCount Hardware.dacClock = .error f := map_eq_error.1 h
  unfold sampleCount at hcount
  split at hcount
  · rcases bind_eq_error.1 hcount with hx | ⟨_, _, hx⟩
    · exact Or.inl (hnearest _ hx)
    · exact Or.inr (hroom _ hx)
  · rcases bind_eq_error.1 hcount with hx | ⟨_, _, hx⟩
    · exact Or.inl (hnearest _ hx)
    · exact Or.inr (hroom _ hx)
  · cases hcount

/-- **Which pulses memory takes.** A memory that encoding has filled takes a pulse if and only if the
pulse has a sample and not more of them than its record can count, and memory ends before the last
address. Otherwise the fault is the first of its length, its count and the address. The size of memory
is never at fault. -/
theorem encodeWaveform_acceptance (hs : s.memory.Reachable) :
    ((4 : Int) ∣ s.memory.size ∧ 0 ≤ s.memory.size ∧ s.memory.size ≤ 0x4000000 - 4 + 0x400000) ∧
    ∀ settings p,
      (∀ value limit minimum t,
        encodeWaveform settings p s ≠ .error (.outOfRange .memorySize value limit minimum) t) ∧
      ∀ wf, p.levels settings = .ok wf →
        ((∃ w t, encodeWaveform settings p s = .ok w t) ↔
          1 ≤ wf.length ∧ wf.length ≤ 0x400000 ∧ s.memory.size < 0x4000000) ∧
        ((∃ t, encodeWaveform settings p s = .error
            (.outOfRange (.pulseLength p.label) wf.length Hardware.memoryCapacity 1) t) ↔
          wf.length = 0 ∨ 0x10000000 < wf.length) ∧
        ((∃ t, encodeWaveform settings p s = .error
            (.outOfRange (.pulseCount p.label) (quanta wf.length - 1) Layout.count.top 0) t) ↔
          0x400000 < wf.length ∧ wf.length ≤ 0x10000000) ∧
        ((∃ t, encodeWaveform settings p s = .error
            (.outOfRange .waveformAddress (s.memory.size / Hardware.quantum) Layout.address.top 0) t) ↔
          1 ≤ wf.length ∧ wf.length ≤ 0x400000 ∧ 0x4000000 ≤ s.memory.size) := by
  refine ⟨⟨hs.quantum_dvd, hs.size_nonneg, hs.size_le⟩, fun settings p => ⟨?_, ?_⟩⟩
  · intro value limit minimum t h
    cases hwf : p.levels settings with
    | error f =>
      cases (encodeWaveform_unsampled hwf).symm.trans h
      rcases Pulse.fault_of_levels hwf with ⟨_, hf⟩ | ⟨_, hf⟩ <;> cases hf
    | ok wf =>
      have hverdict := encodeWaveform_verdict hs hwf
      rw [h] at hverdict
      cases hverdict
  · intro wf hwf
    have hverdict := encodeWaveform_verdict hs hwf
    generalize encodeWaveform settings p s = r at hverdict ⊢
    -- the outcomes exclude each other, and so do the conditions
    cases hverdict <;>
    simp only [EStateM.Result.ok.injEq, EStateM.Result.error.injEq, Fault.outOfRange.injEq,
      reduceCtorEq, true_and, and_true, false_and, exists_and_left, exists_eq', exists_false, true_iff,
      false_iff] <;>
    omega

/-- A square pulse with one sample more than a record can count. -/
def longPulse : Pulse where
  uid := 2
  label := "long"
  length := 4194305.0 / 1.2e9

theorem longPulse_levels : ∃ wf, longPulse.levels {} = .ok wf ∧ wf.length = 0x400001 := by
  have hn : longPulse.sampleCount Hardware.dacClock = .ok 0x400001 :=
    eq_ok_of_toOption (by decide +kernel)
  exact ⟨_, Pulse.levels_of_sampleCount hn, Pulse.length_shapeLevels hn⟩

theorem exists_reachable_dropped : ∃ s : Session, s.memory.Reachable ∧ s.memory.size = 8 := by
  have hrun : (Encoder.result? (encodeWaveform {} droppedPulse {})).map (·.2.memory.size) = some 8 := by
    decide +kernel
  obtain ⟨w, s, h, hsize⟩ := Encoder.exists_of_result? hrun
  exact ⟨s, .encode .empty h, hsize⟩

theorem encodeWaveform_acceptance_long : ∃ s wf t, s.memory.Reachable ∧ s.memory.size = 8 ∧
    longPulse.levels {} = .ok wf ∧ wf.length = 0x400001 ∧
    encodeWaveform {} longPulse s = .error (.outOfRange (.pulseCount "long") 0x100000 0xfffff 0) t := by
  obtain ⟨s, hs, hsize⟩ := exists_reachable_dropped
  obtain ⟨wf, hwf, hlength⟩ := longPulse_levels
  obtain ⟨_, _, hcount, _⟩ := ((encodeWaveform_acceptance hs).2 {} longPulse).2 wf hwf
  obtain ⟨t, h⟩ := hcount.2 (by omega)
  rw [hlength] at h
  exact ⟨s, wf, t, hs, hsize, hwf, hlength, h⟩

/-! ## Filling memory up to the last address -/

/-- The first levels of a pulse do not depend on how many there are. -/
theorem Pulse.take_shapeLevels (p : Pulse) (settings : Settings) {k n : Nat} (h : k ≤ n) :
    (p.shapeLevels settings n).take k = p.shapeLevels settings k := by
  have hsamples : (p.shapeSamples Hardware.dacClock n).take k = p.shapeSamples Hardware.dacClock k := by
    unfold shapeSamples
    cases p.shape with
    | square => simp [Nat.min_eq_left h]
    | samples values => simp [← List.map_take, List.take_take, Nat.min_eq_left h]
    | polynomial coefficients scale => simp [← List.map_take, List.take_range, Nat.min_eq_left h]
  unfold shapeLevels
  dsimp only
  split
  · simp [Nat.min_eq_left h]
  · rw [← hsamples]
    apply List.ext_getElem?
    intro i
    simp only [List.getElem?_take, List.getElem?_mapIdx]
    split <;> rfl

theorem isConstant_take {wf : List DacSample} (h : isConstant wf = true) (k : Nat) :
    isConstant (wf.take k) = true := by
  cases wf with
  | nil => rw [List.take_nil]; rfl
  | cons s rest =>
    cases k with
    | zero => rfl
    | succ k =>
      obtain ⟨hnum, hall⟩ := isConstant_cons_iff.1 h
      rw [List.take_succ_cons]
      refine isConstant_cons_iff.2 ⟨hnum, fun x hx => ?_⟩
      rcases List.mem_cons.1 hx with rfl | hx
      · rfl
      · exact hall x (List.mem_cons_of_mem _ (List.mem_of_mem_take hx))

/-- A rising pulse with as many samples as a record can count. -/
def longestPulse : Pulse where
  uid := 3
  label := "longest"
  length := 4194304.0 / 1.2e9
  shape := .polynomial [0.0, 1.0] 1.2e8

theorem longestPulse_levels :
    ∃ wf, longestPulse.levels {} = .ok wf ∧ wf.length = 0x400000 ∧ isConstant wf = false := by
  have hn : longestPulse.sampleCount Hardware.dacClock = .ok 0x400000 :=
    eq_ok_of_toOption (by decide +kernel)
  -- the first two samples differ
  have hstart : isConstant (longestPulse.shapeLevels {} 2) = false := by decide +kernel
  refine ⟨_, Pulse.levels_of_sampleCount hn, Pulse.length_shapeLevels hn, ?_⟩
  refine Bool.eq_false_iff.2 fun hconst => ?_
  have htake := isConstant_take hconst 2
  rw [Pulse.take_shapeLevels _ _ (by decide), hstart] at htake
  cases htake

/-- Up to the last address the longest pulse can be stored again and again. -/
theorem exists_reachable_filled (k : Nat) (hk : k ≤ 16) :
    ∃ s : Session, s.memory.Reachable ∧ s.memory.size = 0x400000 * k := by
  induction k with
  | zero => exact ⟨{}, .empty, rfl⟩
  | succ k ih =>
    obtain ⟨s, hs, hsize⟩ := ih (by omega)
    obtain ⟨wf, hwf, hlength, hvarying⟩ := longestPulse_levels
    have hverdict := encodeWaveform_verdict hs hwf
    cases h : encodeWaveform {} longestPulse s with
    | error f t =>
      rw [h] at hverdict
      cases hverdict <;> omega
    | ok w t =>
      rw [h] at hverdict
      cases hverdict with
      | taken hmin _ _ hmemory =>
        have hstored := length_storedCells (List.ne_nil_of_length_pos hmin)
        rw [hvarying, hlength] at hstored
        refine ⟨t, hs.encode h, ?_⟩
        rw [hmemory, Memory.size_extend, hsize, hstored, Int.natCast_succ, Int.mul_add]
        rfl

/-! ## What a failure leaves -/

/-- A pulse that could be encoded, were memory not filled up to the last address. -/
def Pulse.Overruns (settings : Settings) (p : Pulse) (m : Memory) : Prop :=
  0x4000000 ≤ m.size ∧ ∃ wf, p.levels settings = .ok wf ∧ 1 ≤ wf.length ∧ wf.length ≤ 0x400000

theorem Pulse.overruns_iff {m : Memory} {wf : List DacSample} (hwf : p.levels settings = .ok wf) :
    p.Overruns settings m ↔ 0x4000000 ≤ m.size ∧ 1 ≤ wf.length ∧ wf.length ≤ 0x400000 := by
  simp [Overruns, hwf]

/-- A failure is either no overrun, and memory is as it was, or it is one, and the pulse was stored. -/
theorem encodeWaveform_left {f : Fault} (hs : s.memory.Reachable)
    (h : encodeWaveform settings p s = .error f t) :
    (¬ p.Overruns settings s.memory ∧ t.memory = s.memory ∧
        ∀ value limit minimum, f ≠ .outOfRange .waveformAddress value limit minimum) ∨
      p.Overruns settings s.memory ∧ t.memory = s.memory.extend (p.image settings) ∧
        4 ≤ (p.image settings).length ∧
        f = .outOfRange .waveformAddress (s.memory.size / Hardware.quantum) Layout.address.top 0 := by
  cases hwf : p.levels settings with
  | error g =>
    cases (encodeWaveform_unsampled hwf).symm.trans h
    refine Or.inl ⟨?_, rfl, fun _ _ _ haddress => ?_⟩
    · rintro ⟨_, wf, hwf', _⟩
      cases hwf'.symm.trans hwf
    · subst haddress
      rcases Pulse.fault_of_levels hwf with ⟨_, hf⟩ | ⟨_, hf⟩ <;> cases hf
  | ok wf =>
    have hverdict := encodeWaveform_verdict hs hwf
    rw [h] at hverdict
    rw [Pulse.overruns_iff hwf, Pulse.image_of_levels hwf]
    cases hverdict with
    | length hrange hmemory => exact Or.inl ⟨by omega, hmemory, nofun⟩
    | count hmin hmax hmemory => exact Or.inl ⟨by omega, hmemory, nofun⟩
    | address hmin hmax hfull hmemory =>
      exact Or.inr ⟨⟨hfull, hmin, hmax⟩, hmemory, (length_storedCells_bounds hmin hmax).1, rfl⟩

/-- **What a failure leaves of memory.** Memory is as it was unless the fault is that of the address. Then
the pulse has been stored at the end of memory. This happens if and only if memory was filled up to the
last address and nothing else is wrong with the pulse. -/
theorem encodeWaveform_failed {f : Fault} (hs : s.memory.Reachable)
    (h : encodeWaveform settings p s = .error f t) :
    ((∃ value limit minimum, f = .outOfRange .waveformAddress value limit minimum) ↔
      p.Overruns settings s.memory) ∧
    (¬ p.Overruns settings s.memory → t.memory = s.memory) ∧
    (p.Overruns settings s.memory → t.memory.cells = s.memory.cells ++ p.image settings ∧
      t.memory.size = s.memory.size + (p.image settings).length ∧ 4 ≤ (p.image settings).length) := by
  rcases encodeWaveform_left hs h with ⟨hnot, hmemory, hfault⟩ | ⟨hover, hmemory, hlength, hfault⟩
  · refine ⟨⟨?_, fun hover => absurd hover hnot⟩, fun _ => hmemory, fun hover => absurd hover hnot⟩
    rintro ⟨value, limit, minimum, haddress⟩
    exact absurd haddress (hfault value limit minimum)
  · refine ⟨⟨fun _ => hover, fun _ => ⟨_, _, _, hfault⟩⟩, fun hnot => absurd hover hnot, fun _ => ?_⟩
    rw [hmemory]
    exact ⟨rfl, rfl, hlength⟩

theorem encodeWaveform_failed_long : ∃ s f t, s.memory.Reachable ∧ s.memory.size = 8 ∧
    encodeWaveform {} longPulse s = .error f t ∧ ¬ longPulse.Overruns {} s.memory ∧
    t.memory = s.memory := by
  obtain ⟨s, hs, hsize⟩ := exists_reachable_dropped
  have hnot : ¬ longPulse.Overruns {} s.memory := by
    rintro ⟨hfull, _⟩
    omega
  cases h : encodeWaveform {} longPulse s with
  | ok w t =>
    obtain ⟨wf, hwf, hlength⟩ := longPulse_levels
    obtain ⟨wf', hwf', _, hmax, _⟩ := encodeWaveform_accepted h
    obtain rfl := Except.ok.inj (hwf'.symm.trans hwf)
    omega
  | error f t => exact ⟨s, f, t, hs, hsize, h, hnot, (encodeWaveform_failed hs h).2.1 hnot⟩

/-- **A failure may leave the pulse in memory.** Here memory holds the longest pulse sixteen times. -/
theorem encodeWaveform_overrun : ∃ s f t, s.memory.Reachable ∧ s.memory.size = 0x4000000 ∧
    encodeWaveform {} droppedPulse s = .error f t ∧ t.memory.size = 0x4000008 ∧
    t.memory.cells = s.memory.cells ++ droppedPulse.image {} ∧ t.memory.cells ≠ s.memory.cells := by
  obtain ⟨s, hs, hsize⟩ := exists_reachable_filled 16 (by decide)
  have hlevels : (droppedPulse.levels {}).toOption.map List.length = some 5 := by decide +kernel
  have himage : (droppedPulse.image {}).length = 8 := by decide +kernel
  obtain ⟨wf, hwf, hlength⟩ := exists_of_toOption hlevels
  have hover : droppedPulse.Overruns {} s.memory := ⟨by omega, wf, hwf, by omega, by omega⟩
  cases h : encodeWaveform {} droppedPulse s with
  | ok w t =>
    obtain ⟨_, _, _, _, hroom, _⟩ := encodeWaveform_accepted h
    omega
  | error f t =>
    rcases encodeWaveform_left hs h with ⟨hnot, _⟩ | ⟨_, hmemory, _⟩
    · exact absurd hover hnot
    · refine ⟨s, f, t, hs, hsize, h, ?_, ?_, ?_⟩
      · rw [hmemory, Memory.size_extend, hsize, himage]
        rfl
      · rw [hmemory]
        rfl
      · intro hsame
        have hcells := congrArg List.length hsame
        rw [hmemory, Memory.extend, List.length_append, himage] at hcells
        omega

end PulseSequencer
