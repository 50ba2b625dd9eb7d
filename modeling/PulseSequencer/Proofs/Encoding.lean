import PulseSequencer.Proofs.Repertoire
import PulseSequencer.Proofs.Success

/-!
# What encoding leaves behind

Encoding only adds to waveform memory, and each record of a waveform says where its samples stand.

* `Memory.Whole` — memory holds whole quanta; `Memory.Grows` — memory was only added to.
* `Stored` — a waveform record and what stands in memory for it.
* `encodeWaveform_eq_ok`, `encodeMarker_eq_ok` — what a successful encoder did.
* `ChannelMap.outputs` — the outputs of a map in the order in which they are encoded.
* `Written` — a pulse has the record that an output gives it.
* `encodeRepertoire_spec` — after all outputs a record is that of the last output that lists its pulse.
* `encodeRepertoire_keys` — no pulse has two records.
-/

namespace PulseSequencer

/-! ## Stored samples -/

/-- Memory holds whole quanta and its size is their number of cells. -/
structure Memory.Whole (m : Memory) : Prop where
  size : m.size = m.cells.length
  quanta : Hardware.quantum ∣ m.cells.length

/-- Memory was only added to. -/
def Memory.Grows (m m' : Memory) : Prop := ∃ more, m'.cells = m.cells ++ more

theorem Memory.Grows.refl (m : Memory) : m.Grows m := ⟨[], (List.append_nil _).symm⟩

theorem Memory.Grows.trans {a b c : Memory} (hab : a.Grows b) (hbc : b.Grows c) : a.Grows c := by
  obtain ⟨x, hx⟩ := hab
  obtain ⟨y, hy⟩ := hbc
  exact ⟨x ++ y, by rw [hy, hx, List.append_assoc]⟩

theorem Memory.whole_empty : Memory.Whole {} := ⟨rfl, ⟨0, rfl⟩⟩

theorem quantum_mul_quanta (n : Nat) :
    n ≤ Hardware.quantum * quanta n ∧ Hardware.quantum * quanta n < n + Hardware.quantum := by
  unfold quanta Hardware.quantum
  omega

/-- What is stored of samples are whole quanta. -/
theorem quantum_dvd_storedCells (samples : List DacSample) :
    Hardware.quantum ∣ (storedCells samples).length := by
  unfold storedCells
  split
  · cases samples with
    | nil => exact ⟨0, rfl⟩
    | cons s rest => exact ⟨1, by simp⟩
  · have := quantum_mul_quanta samples.length
    refine ⟨quanta samples.length, ?_⟩
    rw [List.length_append, List.length_map, List.length_replicate]
    omega

/-- The samples of a pulse stand in memory where its record says, and the record fits its word. -/
structure Stored (settings : Settings) (m : Memory) (p : Pulse) (w : Waveform) (n : Nat) : Prop where
  samples : p.sampleCount Hardware.dacClock = .ok n
  nonempty : 1 ≤ n
  count : w.count = quanta n - 1
  count_le : w.count ≤ Layout.count.top
  isTa : w.isTa = isConstant (p.shapeLevels settings n)
  address_nonneg : 0 ≤ w.address
  address_le : w.address ≤ Layout.address.top
  cells : ∃ before after, m.cells = before ++ storedCells (p.shapeLevels settings n) ++ after ∧
    (before.length : Int) = Hardware.quantum * w.address

/-- What is stored stays where it is while memory grows. -/
theorem Stored.append {settings : Settings} {m m' : Memory} {p : Pulse} {w : Waveform} {n : Nat}
    (h : Stored settings m p w n) {more : List Cell} (hm : m'.cells = m.cells ++ more) :
    Stored settings m' p w n := by
  obtain ⟨before, after, hcells, hlen⟩ := h.cells
  exact { h with cells := ⟨before, after ++ more, by rw [hm, hcells, List.append_assoc], hlen⟩ }

/-! ## Single pulses -/

/-- What encoding an analog pulse did, notes of the log included. -/
theorem encodeWaveform_eq_ok {settings : Settings} {p : Pulse} {s s' : Session} {w : Waveform}
    (h : encodeWaveform settings p s = .ok w s') :
    ∃ n, p.sampleCount Hardware.dacClock = .ok n ∧ 1 ≤ n ∧ (quanta n : Int) - 1 ≤ Layout.count.top ∧
      0 ≤ s.memory.size / Hardware.quantum ∧
      s.memory.size / Hardware.quantum ≤ Layout.address.top ∧
      w = ⟨s.memory.size / Hardware.quantum, quanta n - 1, isConstant (p.shapeLevels settings n)⟩ ∧
      s' = {
        memory := ⟨s.memory.cells ++ storedCells (p.shapeLevels settings n),
          s.memory.size + (storedCells (p.shapeLevels settings n)).length⟩
        library := s.library
        log := (if !w.isTa && Hardware.quantum * quanta n != n then
            s.log.push (.padded p.label n (Hardware.quantum * quanta n))
          else s.log).push (.encoded p.label w.address w.count w.isTa) } := by
  unfold encodeWaveform at h
  obtain ⟨n, _, hrun, h⟩ := Encoder.bind_eq_ok.1 h
  obtain ⟨hn, rfl⟩ := Encoder.ofExcept_eq_ok.1 hrun
  obtain ⟨⟨hmin, _⟩, h⟩ := Encoder.check_eq_ok.1 h
  obtain ⟨⟨_, hcount⟩, h⟩ := Encoder.check_eq_ok.1 (Encoder.note_if_eq_iff.1 h)
  obtain ⟨start, _, hrun, h⟩ := Encoder.bind_eq_ok.1 h
  obtain ⟨rfl, _, _, rfl⟩ := Encoder.allocate_eq_ok.1 hrun
  obtain ⟨⟨hnonneg, htop⟩, h⟩ := Encoder.check_eq_ok.1 h
  obtain ⟨_, _, hrun, h⟩ := Encoder.bind_eq_ok.1 h
  obtain rfl := Encoder.note_eq_ok.1 hrun
  obtain ⟨rfl, rfl⟩ := Encoder.pure_eq_ok.1 h
  exact ⟨n, hn, by omega, hcount, hnonneg, htop, rfl, rfl⟩

/-- What an analog pulse leaves in memory. -/
theorem stored_of_encodeWaveform {settings : Settings} {p : Pulse} {s s' : Session} {w : Waveform}
    (h : encodeWaveform settings p s = .ok w s') (hwhole : s.memory.Whole) :
    (∃ n, Stored settings s'.memory p w n) ∧ s'.memory.Whole ∧ s.memory.Grows s'.memory ∧
      s'.library = s.library := by
  obtain ⟨n, hn, hne, hcount, hnonneg, htop, rfl, rfl⟩ := encodeWaveform_eq_ok h
  obtain ⟨hsize, k, hk⟩ := hwhole
  have hstart : s.memory.size / Hardware.quantum = k := by
    rw [hsize, hk]
    unfold Hardware.quantum
    omega
  refine ⟨⟨n, hn, hne, rfl, hcount, rfl, hnonneg, htop, s.memory.cells, [], ?_, ?_⟩, ⟨?_, ?_⟩,
    ⟨_, rfl⟩, rfl⟩
  · rw [List.append_nil]
  · rw [hstart, hk, Int.natCast_mul]
  · rw [List.length_append, hsize, Int.natCast_add]
  · rw [List.length_append, hk]
    exact Nat.dvd_add ⟨k, rfl⟩ (quantum_dvd_storedCells _)

/-- The record of a digital pulse. -/
theorem encodeMarker_eq_ok {p : Pulse} {select : Int} {m : Marker}
    (h : encodeMarker p select = .ok m) :
    ∃ n, toSamples p.length Hardware.dacClock = .ok n ∧ 0 ≤ n ∧ n / Hardware.quantum ≤ Layout.quads.top ∧
      1 ≤ select ∧ select ≤ Hardware.markerCount ∧
      m = ⟨select, p.isHigh, n / Hardware.quantum,
        transitionWord p.isHigh (n % Hardware.quantum).toNat⟩ := by
  unfold encodeMarker at h
  split at h
  · cases h
  · rename_i hselect
    obtain ⟨n, hn, hrest⟩ := bind_eq_ok.1 h
    obtain ⟨_, hlength, hword⟩ := bind_eq_ok.1 hrest
    obtain ⟨rfl, hmin, _⟩ := checkRange_eq_ok.1 hlength
    obtain ⟨_, hcount, hmarker⟩ := bind_eq_ok.1 hword
    obtain ⟨rfl, _, htop⟩ := checkRange_eq_ok.1 hcount
    obtain rfl := pure_eq_ok.1 hmarker
    exact ⟨_, hn, hmin, htop, by omega, by omega, rfl⟩

/-! ## Outputs -/

/-- An output of the sequencer; markers are counted from one. -/
inductive Output where
  | analog
  | marker (index : Nat)
  deriving DecidableEq, Repr

/-- The outputs of a map with their channels, in the order in which they are encoded. -/
def ChannelMap.outputs (m : ChannelMap) : List (Output × Channel) :=
  m.analog.toList.map (.analog, ·) ++ m.markers.map fun x => (.marker x.1, x.2)

/-- A pulse has the record that an output gives it. -/
inductive Written (settings : Settings) (m : Memory) (p : Pulse) : Output → Record → Prop where
  | waveform {w : Waveform} {n : Nat} (h : Stored settings m p w n) :
    Written settings m p .analog (.waveform w)
  | marker {index : Nat} {mk : Marker} (h : encodeMarker p index = .ok mk) :
    Written settings m p (.marker index) (.marker mk)

theorem Written.grows {settings : Settings} {m m' : Memory} {p : Pulse} {o : Output} {r : Record}
    (h : Written settings m p o r) (hm : m.Grows m') : Written settings m' p o r := by
  obtain ⟨more, hm⟩ := hm
  cases h with
  | waveform h => exact .waveform (h.append hm)
  | marker h => exact .marker h

/-- Encodes a pulse for an output. -/
def encodePulse (settings : Settings) : Output → Pulse → Encoder Unit
  | .analog, p => do
    let w ← encodeWaveform settings p
    Encoder.keep p (.waveform w)
  | .marker index, p => do
    let m ← .ofExcept (encodeMarker p index)
    Encoder.keep p (.marker m)

/-- The outputs of a map are encoded one after the other. -/
theorem encodeRepertoire_eq (settings : Settings) (map : ChannelMap) (pulses : Repertoire) :
    encodeRepertoire settings map pulses =
      map.outputs.forM fun x => (pulses.on x.2).forM (encodePulse settings x.1) := by
  unfold encodeRepertoire ChannelMap.outputs
  simp only [List.forM_eq_forM, List.forM_append, List.forM_map]
  rfl

theorem encodePulse_eq_ok {settings : Settings} {o : Output} {p : Pulse} {s t : Session} {u : Unit}
    (h : encodePulse settings o p s = .ok u t) (hwhole : s.memory.Whole) :
    ∃ r, t.library = s.library.insert p.uid r ∧ t.memory.Whole ∧ s.memory.Grows t.memory ∧
      Written settings t.memory p o r := by
  cases o with
  | analog =>
    obtain ⟨w, s₁, hw, h⟩ := Encoder.bind_eq_ok.1 h
    obtain rfl := Encoder.keep_eq_ok.1 h
    obtain ⟨⟨n, hstored⟩, hwhole', hgrows, hlib⟩ := stored_of_encodeWaveform hw hwhole
    exact ⟨.waveform w, by rw [← hlib], hwhole', hgrows, .waveform hstored⟩
  | marker index =>
    obtain ⟨m, s₁, hm, h⟩ := Encoder.bind_eq_ok.1 h
    obtain ⟨hmk, rfl⟩ := Encoder.ofExcept_eq_ok.1 hm
    obtain rfl := Encoder.keep_eq_ok.1 h
    exact ⟨.marker m, rfl, hwhole, .refl _, .marker hmk⟩

/-- What the first pulses of an output leave behind of a session `s`. -/
structure Pass (settings : Settings) (o : Output) (s : Session) (done : List Pulse) (t : Session) :
    Prop where
  whole : t.memory.Whole
  grows : s.memory.Grows t.memory
  others : ∀ n, (∀ p ∈ done, p.uid ≠ n) → t.library.find? n = s.library.find? n
  listed : ∀ q ∈ done, ∃ p ∈ done, p.uid = q.uid ∧
    ∃ r, t.library.find? q.uid = some r ∧ Written settings t.memory p o r

theorem Pass.step {settings : Settings} {o : Output} {s t t' : Session} {done : List Pulse} {p : Pulse}
    {u : Unit} (hpass : Pass settings o s done t) (h : encodePulse settings o p t = .ok u t') :
    Pass settings o s (done ++ [p]) t' := by
  obtain ⟨r, hlib, hwhole, hgrows, hwritten⟩ := encodePulse_eq_ok h hpass.whole
  refine ⟨hwhole, hpass.grows.trans hgrows, ?_, ?_⟩
  · intro n hn
    have hp : p.uid ≠ n := hn p (by simp)
    rw [hlib, Table.find?_insert, if_neg (by simpa using hp)]
    exact hpass.others n fun q hq => hn q (List.mem_append_left _ hq)
  · intro q hq
    by_cases hpq : p.uid = q.uid
    · exact ⟨p, by simp, hpq, r, by rw [hlib, Table.find?_insert, if_pos (by simpa using hpq)], hwritten⟩
    · have hdone : q ∈ done := by
        rcases List.mem_append.1 hq with hq | hq
        · exact hq
        · exact absurd (List.mem_singleton.1 hq ▸ rfl) hpq
      obtain ⟨x, hx, hxq, r', hr', hw'⟩ := hpass.listed q hdone
      refine ⟨x, List.mem_append_left _ hx, hxq, r', ?_, hw'.grows hgrows⟩
      rw [hlib, Table.find?_insert, if_neg (by simpa using hpq)]
      exact hr'

theorem Pass.run {settings : Settings} {o : Output} {s t : Session} {ps : List Pulse} {u : Unit}
    (h : ps.forM (encodePulse settings o) s = .ok u t) (hwhole : s.memory.Whole) :
    Pass settings o s ps t := by
  have hstart : Pass settings o s [] s := ⟨hwhole, .refl _, fun _ _ => rfl, fun _ hq => by cases hq⟩
  exact Encoder.forM_invariant (fun _ _ _ _ h hpass => hpass.step h) ps [] h hstart

/-- What the first outputs leave behind in a new session. -/
structure Passes (settings : Settings) (pulses : Repertoire) (done : List (Output × Channel))
    (t : Session) : Prop where
  whole : t.memory.Whole
  /-- Every pulse that was listed has a record. -/
  listed : ∀ x ∈ done, ∀ p ∈ pulses.on x.2, ∃ r, t.library.find? p.uid = some r
  /-- A record is that of the last output that lists its pulse. -/
  last : ∀ n r, t.library.find? n = some r → ∃ before o c after, done = before ++ (o, c) :: after ∧
    (∃ p ∈ pulses.on c, p.uid = n ∧ Written settings t.memory p o r) ∧
      ∀ x ∈ after, ∀ p ∈ pulses.on x.2, p.uid ≠ n

theorem Passes.step {settings : Settings} {pulses : Repertoire} {done : List (Output × Channel)}
    {t t' : Session} {x : Output × Channel} {u : Unit} (hpasses : Passes settings pulses done t)
    (h : (pulses.on x.2).forM (encodePulse settings x.1) t = .ok u t') :
    Passes settings pulses (done ++ [x]) t' := by
  have hpass := Pass.run h hpasses.whole
  refine ⟨hpass.whole, ?_, ?_⟩
  · intro y hy p hp
    -- a pulse that this output lists has a new record, any other keeps what it had
    by_cases hlisted : ∃ q ∈ pulses.on x.2, q.uid = p.uid
    · obtain ⟨q, hq, hqp⟩ := hlisted
      obtain ⟨_, _, _, r, hr, _⟩ := hpass.listed q hq
      exact ⟨r, hqp ▸ hr⟩
    · have hnot : ∀ q ∈ pulses.on x.2, q.uid ≠ p.uid := fun q hq hqp => hlisted ⟨q, hq, hqp⟩
      rw [hpass.others p.uid hnot]
      rcases List.mem_append.1 hy with hy | hy
      · exact hpasses.listed y hy p hp
      · obtain rfl := List.mem_singleton.1 hy
        exact absurd rfl (hnot p hp)
  · intro n r hr
    by_cases hlisted : ∃ q ∈ pulses.on x.2, q.uid = n
    · obtain ⟨q, hq, rfl⟩ := hlisted
      obtain ⟨p, hp, hpq, r', hr', hw⟩ := hpass.listed q hq
      obtain rfl : r' = r := Option.some.inj (hr'.symm.trans hr)
      exact ⟨done, x.1, x.2, [], rfl, ⟨p, hp, hpq, hw⟩, fun y hy => by cases hy⟩
    · have hnot : ∀ q ∈ pulses.on x.2, q.uid ≠ n := fun q hq hqp => hlisted ⟨q, hq, hqp⟩
      rw [hpass.others n hnot] at hr
      obtain ⟨before, o, c, after, rfl, ⟨p, hp, hpn, hw⟩, hafter⟩ := hpasses.last n r hr
      refine ⟨before, o, c, after ++ [x], by simp, ⟨p, hp, hpn, hw.grows hpass.grows⟩, ?_⟩
      intro y hy
      rcases List.mem_append.1 hy with hy | hy
      · exact hafter y hy
      · obtain rfl := List.mem_singleton.1 hy
        exact hnot

/-- **After all outputs, a record is that of the last output that lists its pulse.** -/
theorem encodeRepertoire_spec {settings : Settings} {map : ChannelMap} {pulses : Repertoire}
    {t : Session} {u : Unit} (h : encodeRepertoire settings map pulses {} = .ok u t) :
    Passes settings pulses map.outputs t := by
  rw [encodeRepertoire_eq] at h
  have hstart : Passes settings pulses [] {} :=
    ⟨Memory.whole_empty, (fun _ hx => by cases hx), (fun _ _ hr => by cases hr)⟩
  exact Encoder.forM_invariant (fun _ _ _ _ h hpasses => hpasses.step h) map.outputs [] h hstart

/-- The library lists every pulse once. -/
theorem encodeRepertoire_keys {settings : Settings} {map : ChannelMap} {pulses : Repertoire}
    {t : Session} {u : Unit} (h : encodeRepertoire settings map pulses {} = .ok u t) :
    t.library.keys.Nodup := by
  rw [encodeRepertoire_eq] at h
  have hpulse : ∀ (o : Output) (_ : List Pulse) (p : Pulse) (s t : Session),
      encodePulse settings o p s = .ok () t → s.memory.Whole ∧ s.library.keys.Nodup →
      t.memory.Whole ∧ t.library.keys.Nodup := by
    rintro o _ p s t h ⟨hwhole, hnodup⟩
    obtain ⟨r, hlib, hwhole', _⟩ := encodePulse_eq_ok h hwhole
    exact ⟨hwhole', hlib ▸ Table.nodup_keys_insert hnodup p.uid r⟩
  have houtput : ∀ (_ : List (Output × Channel)) (x : Output × Channel) (s t : Session),
      (pulses.on x.2).forM (encodePulse settings x.1) s = .ok () t →
      s.memory.Whole ∧ s.library.keys.Nodup → t.memory.Whole ∧ t.library.keys.Nodup :=
    fun _ x _ _ h hs => Encoder.forM_invariant (hpulse x.1) (pulses.on x.2) [] h hs
  exact (Encoder.forM_invariant houtput map.outputs [] h ⟨Memory.whole_empty, List.nodup_nil⟩).2

end PulseSequencer
