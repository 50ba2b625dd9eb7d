import Mathlib.Algebra.GroupWithZero.Nat
import PulseSequencer.Proofs.Compilation
import PulseSequencer.Proofs.Compression

/-!
# The image of waveform memory

Every pulse that is listed is stored, also if it was stored before. So memory is what is stored of each,
one after the other, and a record says how much was stored before the last occurrence of its pulse.

* `Pulse.image` — what is stored of a pulse; `StoredAs` — what that is; `length_storedCells`.
* `Pulse.RecordedAt` — the record of a pulse that is stored at a place; `Waveform.extent` — how much of
  memory a record speaks of.
* `LaidOut` — what pulses leave in a session that was empty; `LaidOut.step`, `LaidOut.run`.
* `LaidOut.holds`, `LaidOut.apart` — the region of a record holds its pulse; regions do not overlap.
* `compile_stored` — a compilation stores the distinct pulses of the analog channel.
* `encodeWaveforms_image` — the image, whole.
-/

namespace PulseSequencer

variable {settings : Settings}

/-! ## One pulse -/

/-- What is stored of a pulse. -/
def Pulse.image (settings : Settings) (p : Pulse) : List Cell :=
  storedCells ((p.levels settings).toOption.getD [])

theorem Pulse.image_of_levels {p : Pulse} {levels : List DacSample} (h : p.levels settings = .ok levels) :
    p.image settings = storedCells levels := by
  rw [image, h]
  rfl

theorem Pulse.levels_of_sampleCount {p : Pulse} {n : Nat} (h : p.sampleCount Hardware.dacClock = .ok n) :
    p.levels settings = .ok (p.shapeLevels settings n) := by
  rw [levels, h]
  rfl

theorem Pulse.shapeLevels_ne_nil {p : Pulse} {n : Nat} (h : p.sampleCount Hardware.dacClock = .ok n)
    (hn : 1 ≤ n) : p.shapeLevels settings n ≠ [] := by
  have hlength : (p.shapeLevels settings n).length = n := Pulse.length_shapeLevels h
  intro hnil
  rw [hnil, List.length_nil] at hlength
  omega

theorem length_storedCells {levels : List DacSample} (hne : levels ≠ []) :
    (storedCells levels).length =
      Hardware.quantum * if isConstant levels then 1 else quanta levels.length := by
  cases hconst : isConstant levels with
  | true =>
    cases levels with
    | nil => exact absurd rfl hne
    | cons s rest =>
      rw [(storedCells_of_constant hconst).1]
      simp
  | false =>
    have := quantum_mul_quanta levels.length
    rw [storedCells_of_not_constant hconst]
    simp only [List.length_map, List.length_append, List.length_replicate, Bool.false_eq_true, if_false]
    omega

/-- What is stored of levels: one quantum if they are all the same number, else all of them, with zeros
up to whole quanta. -/
structure StoredAs (levels : List DacSample) (cells : List Cell) : Prop where
  constant : ∀ v : DacSample, v.isNumber = true → (∀ x ∈ levels, x = v) →
    cells = List.replicate Hardware.quantum v.cell
  varying : (¬ ∃ v : DacSample, v.isNumber = true ∧ ∀ x ∈ levels, x = v) →
    cells = levels.map DacSample.cell ++
      List.replicate (Hardware.quantum * quanta levels.length - levels.length) Cell.zero

theorem storedAs_storedCells {levels : List DacSample} (hne : levels ≠ []) :
    StoredAs levels (storedCells levels) := by
  refine ⟨fun v hv hall => ?_, fun hvarying => ?_⟩
  · have hconst : isConstant levels = true := (isConstant_iff hne).2 ⟨v, hv, hall⟩
    cases levels with
    | nil => exact absurd rfl hne
    | cons s rest =>
      obtain rfl := hall s List.mem_cons_self
      rw [(storedCells_of_constant hconst).1, List.map_replicate]
  · have hconst : isConstant levels ≠ true := fun h => hvarying ((isConstant_iff hne).1 h)
    exact if_neg hconst

/-- The cells that a record speaks of. -/
def Waveform.extent (w : Waveform) : Nat :=
  Hardware.quantum * if w.isTa then 1 else (w.count + 1).toNat

/-- The record of a pulse that is stored from the cell `start` on. -/
structure Pulse.RecordedAt (settings : Settings) (p : Pulse) (start : Nat) (w : Waveform) : Prop where
  address : Hardware.quantum * w.address = start
  levels : ∃ levels, p.levels settings = .ok levels ∧ levels ≠ [] ∧
    w.count = quanta levels.length - 1 ∧ w.isTa = isConstant levels

theorem Pulse.RecordedAt.extent {p : Pulse} {start : Nat} {w : Waveform}
    (h : p.RecordedAt settings start w) : w.extent = (p.image settings).length := by
  obtain ⟨levels, hlevels, hne, hcount, hta⟩ := h.levels
  rw [Pulse.image_of_levels hlevels, length_storedCells hne, Waveform.extent, hta, hcount]
  congr 2
  omega

theorem Pulse.RecordedAt.start {p : Pulse} {start : Nat} {w : Waveform}
    (h : p.RecordedAt settings start w) : Hardware.quantum * w.address.toNat = start := by
  have := h.address
  unfold Hardware.quantum at this ⊢
  omega

/-! ## Pulse after pulse -/

/-- What pulses leave in a session that was empty. -/
structure LaidOut (settings : Settings) (ps : List Pulse) (s : Session) : Prop where
  sampled : ∀ p ∈ ps, ∃ levels, p.levels settings = .ok levels ∧ levels ≠ []
  /-- Memory is what is stored of each, in order. -/
  cells : s.memory.cells = ps.flatMap (Pulse.image settings)
  size : s.memory.size = s.memory.cells.length
  /-- A record is that of the last occurrence of its pulse. -/
  last : ∀ before p after, ps = before ++ p :: after → (∀ q ∈ after, q.uid ≠ p.uid) →
    ∃ w, s.library.find? p.uid = some (.waveform w) ∧
      p.RecordedAt settings (before.flatMap (Pulse.image settings)).length w
  /-- Records are listed in the order in which their pulses came first. -/
  order : s.library.keys = (distinct ps).map Pulse.uid

theorem quantum_dvd_image (settings : Settings) (ps : List Pulse) :
    Hardware.quantum ∣ (ps.flatMap (Pulse.image settings)).length := by
  induction ps with
  | nil => exact Nat.dvd_zero _
  | cons p ps ih =>
    rw [List.flatMap_cons, List.length_append]
    exact Nat.dvd_add (quantum_dvd_storedCells _) ih

/-- What an analog pulse does to memory and the library. -/
theorem encodePulse_analog {p : Pulse} {s t : Session} {u : Unit}
    (h : encodePulse settings .analog p s = .ok u t) :
    ∃ levels, p.levels settings = .ok levels ∧ levels ≠ [] ∧
      t.memory = ⟨s.memory.cells ++ storedCells levels, s.memory.size + (storedCells levels).length⟩ ∧
      t.library = s.library.insert p.uid (.waveform
        ⟨s.memory.size / Hardware.quantum, quanta levels.length - 1, isConstant levels⟩) := by
  obtain ⟨w, s₁, hw, h⟩ := Encoder.bind_eq_ok.1 h
  obtain rfl := Encoder.keep_eq_ok.1 h
  obtain ⟨n, hn, hne, _, _, _, rfl, rfl⟩ := encodeWaveform_eq_ok hw
  refine ⟨p.shapeLevels settings n, Pulse.levels_of_sampleCount hn, Pulse.shapeLevels_ne_nil hn hne,
    rfl, ?_⟩
  rw [Pulse.length_shapeLevels hn]

/-- One more pulse: its cells come last, and so does its record unless its number has one. -/
theorem LaidOut.step {done : List Pulse} {p : Pulse} {s t : Session} {u : Unit}
    (hlaid : LaidOut settings done s) (h : encodePulse settings .analog p s = .ok u t) :
    LaidOut settings (done ++ [p]) t := by
  obtain ⟨levels, hlevels, hne, hmemory, hlibrary⟩ := encodePulse_analog h
  refine ⟨?_, ?_, ?_, ?_, ?_⟩
  · intro q hq
    rcases List.mem_append.1 hq with hq | hq
    · exact hlaid.sampled q hq
    · obtain rfl := List.mem_singleton.1 hq
      exact ⟨levels, hlevels, hne⟩
  · rw [hmemory, List.flatMap_append, List.flatMap_singleton, Pulse.image_of_levels hlevels, hlaid.cells]
  · rw [hmemory, List.length_append, Int.natCast_add, ← hlaid.size]
  · intro before q after hsplit hafter
    rw [hlibrary]
    rcases List.eq_nil_or_concat after with rfl | ⟨after, x, rfl⟩
    · -- the new pulse is the last of its number
      obtain ⟨rfl, hq⟩ := List.append_inj' hsplit rfl
      obtain rfl : p = q := by simpa using hq
      refine ⟨_, Table.find?_insert_self _ _ _, ⟨?_, levels, hlevels, hne, rfl, rfl⟩⟩
      have hdvd := quantum_dvd_image settings done
      rw [← hlaid.cells] at hdvd ⊢
      rw [← hlaid.size]
      refine Int.mul_ediv_cancel' ?_
      rw [hlaid.size]
      exact Int.natCast_dvd_natCast.2 hdvd
    · -- an earlier pulse, of another number
      rw [List.concat_eq_append] at hsplit hafter
      rw [← List.cons_append, ← List.append_assoc] at hsplit
      obtain ⟨hdone, hx⟩ := List.append_inj' hsplit rfl
      obtain rfl : p = x := by simpa using hx
      obtain ⟨w, hw, hrecorded⟩ := hlaid.last before q after hdone fun y hy =>
        hafter y (List.mem_append_left _ hy)
      refine ⟨w, ?_, hrecorded⟩
      rw [Table.find?_insert_of_ne _ (hafter p (by simp))]
      exact hw
  · rw [hlibrary, Table.keys_insert, distinct_append_singleton, map_uid_addPulse, hlaid.order]

theorem LaidOut.run {ps : List Pulse} {log : Array Event} {t : Session} {u : Unit}
    (h : encodeWaveforms settings ps { log := log } = .ok u t) : LaidOut settings ps t := by
  have hstart : LaidOut settings [] { log := log } := by
    refine ⟨?_, rfl, rfl, ?_, rfl⟩
    · intro p hp
      cases hp
    · intro before p after h
      simp at h
  exact Encoder.forM_invariant (f := encodePulse settings .analog)
    (fun _ _ _ _ h hlaid => hlaid.step h) ps [] h hstart

/-! ## Records and regions -/

/-- Every number that occurs has a last occurrence. -/
theorem exists_last {ps : List Pulse} {n : Nat} (h : n ∈ ps.map Pulse.uid) :
    ∃ before p after, ps = before ++ p :: after ∧ p.uid = n ∧ ∀ q ∈ after, q.uid ≠ p.uid := by
  induction ps with
  | nil => cases h
  | cons first ps ih =>
    by_cases hlater : n ∈ ps.map Pulse.uid
    · obtain ⟨before, p, after, rfl, hp, hafter⟩ := ih hlater
      exact ⟨first :: before, p, after, rfl, hp, hafter⟩
    · have hfirst : first.uid = n := by
        rcases List.mem_cons.1 h with h | h
        · exact h.symm
        · exact absurd h hlater
      refine ⟨[], first, ps, rfl, hfirst, fun q hq hqn => hlater ?_⟩
      rw [← hfirst, ← hqn]
      exact List.mem_map_of_mem hq

namespace LaidOut

variable {ps : List Pulse} {s : Session}

theorem mem_keys (hlaid : LaidOut settings ps s) {n : Nat} :
    n ∈ s.library.keys ↔ n ∈ ps.map Pulse.uid := by
  rw [hlaid.order, mem_map_uid, mem_map_uid, any_distinct]

theorem nodup_keys (hlaid : LaidOut settings ps s) : s.library.keys.Nodup := by
  rw [hlaid.order]
  exact nodup_distinct ps

/-- A record belongs to the last occurrence of its number. -/
theorem exists_recorded (hlaid : LaidOut settings ps s) {n : Nat} {w : Waveform}
    (h : s.library.find? n = some (.waveform w)) :
    ∃ before p after, ps = before ++ p :: after ∧ p.uid = n ∧
      p.RecordedAt settings (before.flatMap (Pulse.image settings)).length w := by
  have hmem : n ∈ ps.map Pulse.uid := hlaid.mem_keys.1 (Table.mem_keys_iff.2 ⟨_, h⟩)
  obtain ⟨before, p, after, hsplit, rfl, hafter⟩ := exists_last hmem
  obtain ⟨w', hw', hrecorded⟩ := hlaid.last before p after hsplit hafter
  obtain rfl : w' = w := Record.waveform.inj (Option.some.inj (hw'.symm.trans h))
  exact ⟨before, p, after, hsplit, rfl, hrecorded⟩

/-- The region of a record holds its pulse. -/
theorem holds (hlaid : LaidOut settings ps s) {before after : List Pulse} {p : Pulse} {w : Waveform}
    (hsplit : ps = before ++ p :: after)
    (h : p.RecordedAt settings (before.flatMap (Pulse.image settings)).length w) :
    (s.memory.cells.drop (Hardware.quantum * w.address.toNat)).take w.extent = p.image settings := by
  rw [hlaid.cells, hsplit, List.flatMap_append, List.flatMap_cons, h.start, h.extent, List.drop_left,
    List.take_left]

/-- What was stored for an occurrence ends before a later one starts. -/
theorem stop_le_start {before after before' after' : List Pulse} {p p' : Pulse} {w w' : Waveform}
    (hsplit : before ++ p :: after = before' ++ p' :: after') (hlt : before.length < before'.length)
    (h : p.RecordedAt settings (before.flatMap (Pulse.image settings)).length w)
    (h' : p'.RecordedAt settings (before'.flatMap (Pulse.image settings)).length w') :
    Hardware.quantum * w.address + w.extent ≤ Hardware.quantum * w'.address := by
  have hfirst : before ++ [p] <+: before' ++ p' :: after' := by
    rw [← hsplit]
    exact ⟨after, by simp⟩
  have hsecond : before' <+: before' ++ p' :: after' := List.prefix_append _ _
  obtain ⟨between, rfl⟩ := List.prefix_of_prefix_length_le hfirst hsecond (by simp; omega)
  rw [h.address, h'.address, h.extent]
  simp only [List.flatMap_append, List.flatMap_singleton, List.length_append]
  omega

/-- **The regions of different pulses do not overlap.** -/
theorem apart (hlaid : LaidOut settings ps s) {m n : Nat} (hne : m ≠ n) {w w' : Waveform}
    (h : s.library.find? m = some (.waveform w)) (h' : s.library.find? n = some (.waveform w')) :
    Hardware.quantum * w.address + w.extent ≤ Hardware.quantum * w'.address ∨
      Hardware.quantum * w'.address + w'.extent ≤ Hardware.quantum * w.address := by
  obtain ⟨before, p, after, hsplit, rfl, hrecorded⟩ := hlaid.exists_recorded h
  obtain ⟨before', p', after', hsplit', rfl, hrecorded'⟩ := hlaid.exists_recorded h'
  have heq : before ++ p :: after = before' ++ p' :: after' := hsplit.symm.trans hsplit'
  rcases Nat.lt_trichotomy before.length before'.length with hlt | hlen | hlt
  · exact Or.inl (stop_le_start heq hlt hrecorded hrecorded')
  · obtain ⟨_, hcons⟩ := List.append_inj heq hlen
    exact absurd (congrArg Pulse.uid (List.cons.inj hcons).1) hne
  · exact Or.inr (stop_le_start heq.symm hlt hrecorded' hrecorded)

end LaidOut

/-! ## Compilation -/

theorem encodePulse_marker_memory {index : Nat} {p : Pulse} {s t : Session} {u : Unit}
    (h : encodePulse settings (.marker index) p s = .ok u t) : t.memory = s.memory := by
  obtain ⟨m, s₁, hm, h⟩ := Encoder.bind_eq_ok.1 h
  obtain ⟨_, rfl⟩ := Encoder.ofExcept_eq_ok.1 hm
  obtain rfl := Encoder.keep_eq_ok.1 h
  rfl

/-- Markers take no waveform memory. -/
theorem forM_encodeMarkers_memory {markers : List (Nat × Channel)} {pulses : Repertoire} {s t : Session}
    {u : Unit} (h : markers.forM (fun x => encodeMarkers x.1 (pulses.on x.2)) s = .ok u t) :
    t.memory = s.memory := by
  have hpulse : ∀ (index : Nat) (_ : List Pulse) (p : Pulse) (r r' : Session),
      encodePulse {} (.marker index) p r = .ok () r' → r.memory = s.memory → r'.memory = s.memory :=
    fun _ _ _ _ _ h hr => (encodePulse_marker_memory h).trans hr
  have houtput : ∀ (_ : List (Nat × Channel)) (x : Nat × Channel) (r r' : Session),
      encodeMarkers x.1 (pulses.on x.2) r = .ok () r' → r.memory = s.memory →
      r'.memory = s.memory :=
    fun _ x _ _ h hr => Encoder.forM_invariant (hpulse x.1) (pulses.on x.2) [] h hr
  exact Encoder.forM_invariant houtput markers [] h rfl

/-- A repertoire takes the memory of the pulses that it lists for the analog channel. -/
theorem encodeRepertoire_memory {map : ChannelMap} {pulses : Repertoire} {t : Session} {u : Unit}
    (h : encodeRepertoire settings map pulses {} = .ok u t) :
    t.memory.cells = (map.analog.toList.flatMap pulses.on).flatMap (Pulse.image settings) ∧
      t.memory.size = t.memory.cells.length := by
  unfold encodeRepertoire at h
  obtain ⟨_, s, hanalog, hmarkers⟩ := Encoder.bind_eq_ok.1 h
  rw [forM_encodeMarkers_memory hmarkers]
  cases hmap : map.analog with
  | none =>
    rw [hmap] at hanalog
    obtain rfl := Encoder.forM_nil.1 hanalog
    exact ⟨rfl, rfl⟩
  | some c =>
    rw [hmap] at hanalog
    obtain ⟨s₁, hrun, hnil⟩ := Encoder.forM_cons.1 hanalog
    obtain rfl := Encoder.forM_nil.1 hnil
    have hlaid : LaidOut settings (pulses.on c) s₁ := LaidOut.run hrun
    refine ⟨?_, hlaid.size⟩
    rw [hlaid.cells, Option.toList_some, List.flatMap_singleton]

/-- The pulses of the analog channel of a map, each of them once. -/
def ChannelMap.analogPulses (map : ChannelMap) (entries : List Entry) : List Pulse :=
  map.analog.toList.flatMap fun c => distinct (playedOn entries c)

/-- **A compilation stores every pulse of the analog channel once**, however often it is played. -/
theorem compile_stored {entries : List Entry} {map : ChannelMap} {prog : Program} {t : Session}
    (h : compile entries map none settings = .ok prog t) :
    prog.memory.cells = (map.analogPulses entries).flatMap (Pulse.image settings) ∧
      prog.memory.size = prog.memory.cells.length ∧
      ((map.analogPulses entries).map Pulse.uid).Nodup ∧
      ∀ n, n ∈ (map.analogPulses entries).map Pulse.uid ↔
        ∃ c, map.analog = some c ∧ ∃ p ∈ playedOn entries c, p.uid = n := by
  obtain ⟨_, ⟨s, hencode, hmemory, _⟩, _⟩ := compile_eq_ok h
  obtain ⟨hcells, hsize⟩ := encodeRepertoire_memory hencode
  have hpulses : map.analog.toList.flatMap (collect entries map.channels).on =
      map.analogPulses entries := by
    unfold ChannelMap.analogPulses
    cases hmap : map.analog with
    | none => rfl
    | some c =>
      rw [Option.toList_some, List.flatMap_singleton, List.flatMap_singleton]
      exact collect_on_output (ChannelMap.mem_outputs_analog.2 hmap)
  rw [← hmemory]
  refine ⟨?_, hsize, ?_, fun n => ?_⟩
  · rw [hcells, Option.getD_none, hpulses]
  · unfold ChannelMap.analogPulses
    cases map.analog with
    | none => exact List.nodup_nil
    | some c =>
      rw [Option.toList_some, List.flatMap_singleton]
      exact nodup_distinct _
  · unfold ChannelMap.analogPulses
    cases map.analog with
    | none => simp
    | some c =>
      rw [Option.toList_some, List.flatMap_singleton, List.mem_map, exists_mem_distinct]
      simp

/-- **The image of waveform memory.** Pulses that are encoded from an empty session on, repeated or not,
stand in memory one after the other. A record is that of the last occurrence of its pulse, where memory
ended before it; regions of different pulses do not overlap, and each holds its pulse. Records are listed
in the order in which their pulses came first. A compilation stores each pulse of the analog channel
once. -/
theorem encodeWaveforms_image (settings : Settings) :
    (∀ ps log t, encodeWaveforms settings ps { log := log } = .ok () t →
      t.memory.cells = ps.flatMap (Pulse.image settings) ∧
      (∀ p ∈ ps, ∃ levels, p.levels settings = .ok levels ∧ StoredAs levels (p.image settings) ∧
        (p.image settings).length = if isConstant levels then 4 else 4 * ((levels.length + 3) / 4)) ∧
      t.memory.size = ((ps.map fun p => (p.image settings).length).sum : Nat) ∧ 4 ∣ t.memory.size ∧
      (∀ before p after, ps = before ++ p :: after → (∀ q ∈ after, q.uid ≠ p.uid) →
        ∃ w levels, t.library.find? p.uid = some (.waveform w) ∧ p.levels settings = .ok levels ∧
          4 * w.address = ((before.map fun q => (q.image settings).length).sum : Nat) ∧
          w.count = (levels.length + 3) / 4 - 1 ∧ w.isTa = isConstant levels ∧
          (t.memory.cells.drop (4 * w.address.toNat)).take w.extent = p.image settings) ∧
      (∀ m n w w', m ≠ n → t.library.find? m = some (.waveform w) →
        t.library.find? n = some (.waveform w') →
        4 * w.address + w.extent ≤ 4 * w'.address ∨ 4 * w'.address + w'.extent ≤ 4 * w.address) ∧
      t.library.keys = (distinct ps).map Pulse.uid ∧ t.library.keys.Nodup) ∧
    ∀ entries map prog t, compile entries map none settings = .ok prog t →
      prog.memory.cells = (map.analogPulses entries).flatMap (Pulse.image settings) ∧
      prog.memory.size = prog.memory.cells.length ∧
      ((map.analogPulses entries).map Pulse.uid).Nodup ∧
      ∀ n, n ∈ (map.analogPulses entries).map Pulse.uid ↔
        ∃ c, map.analog = some c ∧ ∃ p ∈ playedOn entries c, p.uid = n := by
  refine ⟨fun ps log t h => ?_, fun entries map prog t h => compile_stored h⟩
  have hlaid := LaidOut.run h
  refine ⟨hlaid.cells, ?_, ?_, ?_, ?_, ?_, hlaid.order, hlaid.nodup_keys⟩
  · intro p hp
    obtain ⟨levels, hlevels, hne⟩ := hlaid.sampled p hp
    have himage := Pulse.image_of_levels hlevels
    refine ⟨levels, hlevels, himage ▸ storedAs_storedCells hne, ?_⟩
    rw [himage, length_storedCells hne]
    split <;> rfl
  · rw [hlaid.size, hlaid.cells, List.length_flatMap]
  · rw [hlaid.size, hlaid.cells]
    exact Int.natCast_dvd_natCast.2 (quantum_dvd_image settings ps)
  · intro before p after hsplit hafter
    obtain ⟨w, hw, hrecorded⟩ := hlaid.last before p after hsplit hafter
    obtain ⟨levels, hlevels, _, hcount, hta⟩ := hrecorded.levels
    refine ⟨w, levels, hw, hlevels, ?_, ?_, hta, hlaid.holds hsplit hrecorded⟩
    · rw [← List.length_flatMap]
      exact hrecorded.address
    · rw [hcount]
      unfold quanta Hardware.quantum
      omega
  · intro m n w w' hne hm hn
    exact hlaid.apart hne hm hn

def fallingPulse : Pulse where
  uid := 0
  label := "a"
  length := 0.0
  shape := .samples (List.replicate 4 (.real 0.5) ++ [.real 0.25])

/-- Five samples, then a constant pulse, then the five samples again. -/
def repeatedPulses : List Pulse :=
  [fallingPulse, { uid := 1, label := "b", length := 0.0, shape := .samples (List.replicate 8 (.real 0.5)) },
    fallingPulse]

theorem encodeWaveforms_image_repeated :
    ∃ t w, encodeWaveforms {} repeatedPulses {} = .ok () t ∧ t.memory.size = 20 ∧
      t.memory.cells = repeatedPulses.flatMap (Pulse.image {}) ∧ t.library.keys = [0, 1] ∧
      t.library.find? 0 = some (.waveform w) ∧ w.address = 3 ∧
      (t.memory.cells.drop 12).take 8 = t.memory.cells.take 8 := by
  have hrun : (Encoder.result? (encodeWaveforms {} repeatedPulses {})).map
      (fun x => (x.2.memory.size, (x.2.memory.cells.drop 12).take 8 == x.2.memory.cells.take 8)) =
      some (20, true) := by decide +kernel
  obtain ⟨_, t, h, ht⟩ := Encoder.exists_of_result? hrun
  obtain ⟨hsize, hagain⟩ := Prod.mk.inj ht
  obtain ⟨hcells, _, _, _, hlast, _, horder, _⟩ := (encodeWaveforms_image {}).1 repeatedPulses #[] t h
  obtain ⟨w, _, hw, _, haddress, _⟩ := hlast (repeatedPulses.take 2) _ [] rfl (fun q hq => by cases hq)
  have hstart : ((repeatedPulses.take 2).map fun q => (q.image {}).length).sum = 12 := by decide +kernel
  refine ⟨t, w, h, hsize, hcells, horder, hw, ?_, by simpa using hagain⟩
  rw [hstart] at haddress
  omega

end PulseSequencer
