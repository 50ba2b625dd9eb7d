import PulseSequencer.Proofs.Encoding
import PulseSequencer.Proofs.Interleaving

/-!
# Elapsed time and real time

The clock of a lane advances by one more than the count of a record. The count of a waveform is its
number of quanta, rounded up, less one; that of a marker is its number of quanta, rounded down. So a
marker of whole quanta advances the clock by one quantum more than it lasts, and what follows on its
lane is taken to start later than it does.

* `Pulse.samplesOn`, `Entry.quantaOn` — the samples and the quanta of an element on a channel.
* `Block.realStart` — when an element starts; `Block.drift` — how many markers of whole quanta are
  before it on its lane.
* `Context.Encoded` — the records of a block were made by the encoders of its channels.
* `Context.serialize_real_start` — starts in the schedule are real starts with the drift, and the two
  agree on lanes without markers of whole quanta.
* `Context.serialize_drift` — a block that is not emitted in the order of real starts.
-/

namespace PulseSequencer

/-- The number of samples of a pulse on a channel. -/
def Pulse.samplesOn (p : Pulse) (channel : Channel) : Nat :=
  if channel.isAnalog then (p.sampleCount Hardware.dacClock).toOption.getD 0
  else ((toSamples p.length Hardware.dacClock).toOption.getD 0).toNat

namespace Entry

/-- The quanta that an element lasts; a frame change takes no time. -/
def quantaOn (channel : Channel) : Entry → Int
  | .pulse p => quanta (p.samplesOn channel)
  | _ => 0

/-- Whether an element is a marker of whole quanta. -/
def isWholeMarker (channel : Channel) : Entry → Bool
  | .pulse p => !channel.isAnalog && decide (Hardware.quantum ∣ p.samplesOn channel)
  | _ => false

theorem isWholeMarker_eq_false {channel : Channel} {p : Pulse} :
    (Entry.pulse p).isWholeMarker channel = false ↔
      channel.isAnalog = true ∨ ¬ Hardware.quantum ∣ p.samplesOn channel := by
  unfold isWholeMarker
  rw [Bool.and_eq_false_iff, Bool.not_eq_false', decide_eq_false_iff_not]

end Entry

namespace Block

/-- When an element starts, in quanta: what the elements before it on its lane last. -/
def realStart (b : Block) (o : Occurrence) : Int :=
  startOf ((b.on o.channel).map (Entry.quantaOn o.channel)) o.index

/-- The number of markers of whole quanta before an element on its lane. -/
def drift (b : Block) (o : Occurrence) : Nat :=
  ((b.on o.channel).take o.index).countP (Entry.isWholeMarker o.channel)

end Block

/-- Quanta rounded down are one less than quanta rounded up, unless they are whole. -/
theorem div_quantum_add_one (n : Nat) :
    (n : Int) / Hardware.quantum + 1 = quanta n + if Hardware.quantum ∣ n then 1 else 0 := by
  unfold quanta Hardware.quantum
  split <;> omega

/-- Two ways to measure items that differ by one on some of them. -/
theorem startOf_eq_add_countP {α : Type} {f g : α → Int} {p : α → Bool} :
    ∀ {as : List α}, (∀ a ∈ as, f a = g a + if p a then 1 else 0) → ∀ j,
      startOf (as.map f) j = startOf (as.map g) j + (as.take j).countP p := by
  intro as
  induction as with
  | nil => intro _ j; simp [startOf]
  | cons a as ih =>
    intro h j
    cases j with
    | zero => simp [startOf_zero]
    | succ j =>
      have hrest := ih (fun x hx => h x (List.mem_cons_of_mem _ hx)) j
      have hfirst := h a List.mem_cons_self
      simp only [startOf, List.map_cons, List.take_succ_cons, List.countP_cons]
      rw [hrest, hfirst]
      split <;> omega

namespace Context

/-- The records that a block needs were made by the encoders: those of analog channels as waveforms,
all others as markers. -/
def Encoded (c : Context) (b : Block) : Prop :=
  ∀ channel ∈ c.channels, ∀ p, Entry.pulse p ∈ b.on channel →
    if channel.isAnalog then
      ∃ settings s s' w, encodeWaveform settings p s = .ok w s' ∧
        c.library.find? p.uid = some (.waveform w)
    else
      ∃ select m, encodeMarker p select = .ok m ∧ c.library.find? p.uid = some (.marker m)

/-- The count of a record from its samples. -/
theorem Encoded.count {c : Context} {b : Block} (h : c.Encoded b) {channel : Channel}
    (hc : channel ∈ c.channels) {p : Pulse} (hp : Entry.pulse p ∈ b.on channel) :
    ∃ r, c.library.find? p.uid = some r ∧ 0 ≤ r.count ∧
      r.count + 1 = quanta (p.samplesOn channel) +
        if (Entry.pulse p).isWholeMarker channel then 1 else 0 := by
  have hencoded := h channel hc p hp
  split at hencoded
  · rename_i hkind
    obtain ⟨settings, s, s', w, hw, hr⟩ := hencoded
    obtain ⟨n, hn, hne, _, _, _, rfl, _⟩ := encodeWaveform_eq_ok hw
    have hsamples : p.samplesOn channel = n := by
      unfold Pulse.samplesOn
      rw [if_pos hkind, hn]
      rfl
    refine ⟨_, hr, ?_, ?_⟩
    · change (0 : Int) ≤ quanta n - 1
      unfold quanta Hardware.quantum
      omega
    · rw [hsamples]
      simp only [Record.count, Entry.isWholeMarker, hkind, Bool.not_true, Bool.false_and]
      simp
  · rename_i hkind
    obtain ⟨select, m, hm, hr⟩ := hencoded
    obtain ⟨n, hn, hnonneg, _, _, _, rfl⟩ := encodeMarker_eq_ok hm
    obtain ⟨k, rfl⟩ := Int.eq_ofNat_of_zero_le hnonneg
    have hsamples : p.samplesOn channel = k := by
      unfold Pulse.samplesOn
      rw [if_neg hkind, hn]
      rfl
    refine ⟨_, hr, Int.ediv_nonneg hnonneg (Int.natCast_nonneg _), ?_⟩
    rw [hsamples]
    simp only [Record.count, Entry.isWholeMarker, hkind, hsamples, Bool.not_false, Bool.true_and,
      decide_eq_true_eq]
    exact div_quantum_add_one k

theorem Encoded.counted {c : Context} {b : Block} (h : c.Encoded b) : c.Counted b := by
  intro channel hc p hp r hr
  obtain ⟨r', hr', hcount, _⟩ := h.count hc hp
  rw [Library.record_eq_ok] at hr
  exact Option.some.inj (hr'.symm.trans hr) ▸ hcount

/-- What an element advances the clock by: what it lasts, and one more for a marker of whole quanta. -/
theorem Encoded.duration {c : Context} {b : Block} (h : c.Encoded b) {channel : Channel}
    (hc : channel ∈ c.channels) {e : Entry} (he : e ∈ b.on channel) :
    c.duration e = e.quantaOn channel + if e.isWholeMarker channel then 1 else 0 := by
  cases e with
  | pulse p =>
    obtain ⟨r, hr, _, hcount⟩ := h.count hc he
    simp only [Context.duration, hr, Option.map_some, Option.getD_some]
    exact hcount
  | _ => rfl

/-- Starts in the schedule are real starts with the drift. -/
theorem Encoded.start {c : Context} {b : Block} (h : c.Encoded b) {x : Slot Occurrence}
    (hx : x ∈ c.schedule b) : x.start = b.realStart x.item + b.drift x.item := by
  obtain ⟨hc, hstart⟩ := start_of_mem_schedule hx
  rw [hstart]
  exact startOf_eq_add_countP (fun e he => h.duration hc he) x.item.index

/-- Where no lane has a marker of whole quanta, nothing drifts. -/
theorem drift_eq_zero {b : Block} {o : Occurrence}
    (h : ∀ e ∈ b.on o.channel, e.isWholeMarker o.channel = false) : b.drift o = 0 := by
  refine List.countP_eq_zero.2 fun e he => ?_
  rw [h e (List.mem_of_mem_take he)]
  exact Bool.false_ne_true

/-- **Elements are emitted in the order of their real starts, each delayed by its drift.** The clock of
a lane advances by what a pulse lasts if and only if the pulse is analog or is not of whole quanta; where
that holds of all pulses, real starts do not decrease along the stream. -/
theorem serialize_real_start {c : Context} {b : Block} {s : Stream} (hencoded : c.Encoded b)
    (h : c.serialize b = .ok s) :
    (∀ channel ∈ c.channels, ∀ p, Entry.pulse p ∈ b.on channel →
        ∃ em, c.pulse channel p = .ok em ∧ (em.duration = quanta (p.samplesOn channel) ↔
          channel.isAnalog = true ∨ ¬ Hardware.quantum ∣ p.samplesOn channel)) ∧
      (∃ emissions, (c.schedule b).mapM (fun x => c.emission x.item) = .ok emissions ∧
        s.words = emissions.flatMap (·.words)) ∧
      (∀ x ∈ c.schedule b, x.start = b.realStart x.item + b.drift x.item) ∧
      (c.schedule b).Pairwise (fun x y =>
        b.realStart x.item + b.drift x.item ≤ b.realStart y.item + b.drift y.item) ∧
      ((∀ channel ∈ c.channels, ∀ e ∈ b.on channel, e.isWholeMarker channel = false) →
        (c.schedule b).Pairwise fun x y => b.realStart x.item ≤ b.realStart y.item) := by
  have hcounted := hencoded.counted
  have hstarts : (c.schedule b).Pairwise fun x y =>
      b.realStart x.item + b.drift x.item ≤ b.realStart y.item + b.drift y.item :=
    (schedule_pairwise hcounted).imp_of_mem fun hx hy hxy => by
      rw [← hencoded.start hx, ← hencoded.start hy]
      exact hxy.start_le
  refine ⟨?_, serialize_eq_ok hcounted h, fun x => hencoded.start, hstarts, ?_⟩
  · intro channel hc p hp
    obtain ⟨_, _, _, hall⟩ := serialize_emissions hcounted h
    obtain ⟨em, _, hem⟩ := hall channel hc _ hp
    refine ⟨em, hem, ?_⟩
    rw [element_duration hem, hencoded.duration hc hp, ← Entry.isWholeMarker_eq_false]
    cases (Entry.pulse p).isWholeMarker channel with
    | false => simp [Entry.quantaOn]
    | true =>
      simp only [Entry.quantaOn, if_true, Bool.true_eq_false, iff_false]
      omega
  · intro hnone
    refine hstarts.imp_of_mem fun {x y} hx hy hxy => ?_
    rw [drift_eq_zero (hnone _ (start_of_mem_schedule hx).1),
      drift_eq_zero (hnone _ (start_of_mem_schedule hy).1)] at hxy
    omega

/-! ## A block that drifts -/

/-- Twelve samples, three quanta. -/
def ramp : Pulse where
  uid := 0
  label := "a"
  length := 1.0e-8
  shape := .samples (.real 0.5 :: List.replicate 11 (.real 0.25))

/-- Four samples, one whole quantum. -/
def tick : Pulse where
  uid := 1
  label := "b"
  length := 3.4e-9

def ticking : Context where
  library := .ofList [(0, .waveform ⟨0, 2, false⟩), (1, .marker ⟨1, true, 1, 15⟩)]
  channels := [.analog "q" 0.0 0, .marker "m"]
  carrier := 0.0
  settings := {}

/-- Two waveforms beside three markers. -/
def tickingBlock : Block := .ofList
  [(.analog "q" 0.0 0, List.replicate 2 (.pulse ramp)), (.marker "m", List.replicate 3 (.pulse tick))]

theorem ticking_encoded : ticking.Encoded tickingBlock := by
  have hanalog : tickingBlock.on (.analog "q" 0.0 0) = List.replicate 2 (.pulse ramp) := rfl
  have hmarker : tickingBlock.on (.marker "m") = List.replicate 3 (.pulse tick) := rfl
  intro channel hc p hp
  rcases List.mem_cons.1 hc with rfl | hc
  · rw [hanalog] at hp
    obtain rfl := Entry.pulse.inj (List.eq_of_mem_replicate hp)
    have hrun : (Encoder.value? (encodeWaveform {} ramp {})).map id = some ⟨0, 2, false⟩ := by
      decide +kernel
    obtain ⟨w, s, hw, rfl⟩ := Encoder.exists_of_value? hrun
    exact ⟨{}, {}, s, _, hw, rfl⟩
  · obtain rfl := List.mem_singleton.1 hc
    rw [hmarker] at hp
    obtain rfl := Entry.pulse.inj (List.eq_of_mem_replicate hp)
    have hrun : (encodeMarker tick 1).toOption.map id = some ⟨1, true, 1, 15⟩ := by decide +kernel
    obtain ⟨m, hm, rfl⟩ := exists_of_toOption hrun
    exact ⟨1, _, hm, rfl⟩

theorem ticking_serialize :
    (ticking.serialize tickingBlock).toOption.map (·.words.length) = some 7 := by decide +kernel

/-- Later slots start later if starts do not decrease. -/
theorem realStart_le_of_start_lt {c : Context} {b : Block} (hcounted : c.Counted b)
    (hreal : (c.schedule b).Pairwise fun x y => b.realStart x.item ≤ b.realStart y.item)
    {x y : Slot Occurrence} (hx : x ∈ c.schedule b) (hy : y ∈ c.schedule b) (hlt : x.start < y.start) :
    b.realStart x.item ≤ b.realStart y.item := by
  have hboth := (schedule_pairwise hcounted).and hreal
  obtain ⟨i, hi, rfl⟩ := List.mem_iff_getElem.1 hx
  obtain ⟨j, hj, rfl⟩ := List.mem_iff_getElem.1 hy
  rw [List.pairwise_iff_getElem] at hboth
  rcases Nat.lt_trichotomy i j with hij | rfl | hij
  · exact (hboth i j hi hj hij).2
  · exact Int.le_refl _
  · have := (hboth j i hj hi hij).1.start_le
    omega

theorem serialize_real_start_ticking :
    ticking.Encoded tickingBlock ∧ ∃ s : Stream, ticking.serialize tickingBlock = .ok s ∧
      s.words.length = 7 ∧
      (∀ x ∈ ticking.schedule tickingBlock,
        x.start = tickingBlock.realStart x.item + tickingBlock.drift x.item) ∧
      (ticking.schedule tickingBlock).Pairwise (fun x y =>
        tickingBlock.realStart x.item + tickingBlock.drift x.item ≤
          tickingBlock.realStart y.item + tickingBlock.drift y.item) := by
  obtain ⟨s, hs, hlen⟩ := exists_of_toOption ticking_serialize
  obtain ⟨_, _, hstart, horder, _⟩ := serialize_real_start ticking_encoded hs
  exact ⟨ticking_encoded, s, hs, hlen, hstart, horder⟩

/-- A block that is not emitted in the order of real starts: the third marker starts after two quanta
and is emitted after the second waveform, which starts after three. -/
theorem serialize_drift :
    ticking.Encoded tickingBlock ∧ (∃ s, ticking.serialize tickingBlock = .ok s) ∧
      (∃ em, ticking.pulse (.marker "m") tick = .ok em ∧
        em.duration ≠ quanta (tick.samplesOn (.marker "m"))) ∧
      ¬ (ticking.schedule tickingBlock).Pairwise fun x y =>
        tickingBlock.realStart x.item ≤ tickingBlock.realStart y.item := by
  have hpulse : (ticking.pulse (.marker "m") tick).toOption.map (·.duration) = some 2 := by
    decide +kernel
  have hlasts : quanta (tick.samplesOn (.marker "m")) = 1 := by decide +kernel
  have hslots : (ticking.slots tickingBlock).map (fun x => (x.start, tickingBlock.realStart x.item)) =
      [(0, 0), (3, 3), (0, 0), (2, 1), (4, 2)] := by decide +kernel
  obtain ⟨s, hs, _⟩ := exists_of_toOption ticking_serialize
  obtain ⟨em, hem, hduration⟩ := exists_of_toOption hpulse
  refine ⟨ticking_encoded, ⟨s, hs⟩, ⟨em, hem, by rw [hduration, hlasts]; decide⟩, fun hreal => ?_⟩
  -- the second waveform and the third marker, each with its start in the schedule and its real start
  have hslot : ∀ a ∈ [((0 : Int), (0 : Int)), (3, 3), (0, 0), (2, 1), (4, 2)],
      ∃ x ∈ ticking.schedule tickingBlock, (x.start, tickingBlock.realStart x.item) = a := by
    intro a ha
    obtain ⟨x, hx, hxa⟩ := List.mem_map.1 (hslots ▸ ha)
    exact ⟨x, (sorted_perm _).mem_iff.2 hx, hxa⟩
  obtain ⟨x, hx, hxa⟩ := hslot (3, 3) (by decide)
  obtain ⟨y, hy, hya⟩ := hslot (4, 2) (by decide)
  obtain ⟨hxs, hxr⟩ := Prod.mk.inj hxa
  obtain ⟨hys, hyr⟩ := Prod.mk.inj hya
  have hle := realStart_le_of_start_lt ticking_encoded.counted hreal hx hy (by omega)
  omega

end Context

end PulseSequencer
