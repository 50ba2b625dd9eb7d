import PulseSequencer.Proofs.WellFormed

/-!
# The duration of a marker in its word

A marker word has a field for whole quanta. The samples left after them are told by the transition word,
through a table that depends on the state of the marker. Neither table has an entry twice, so the word
says how long the marker lasts to the sample.

* `transitions` — the tables.
* `Instruction.Lasts` — how long a marker instruction says that its marker lasts.
* `encodeMarker_eq` — encoding of a digital pulse, with its limits.
* `encodeMarker_reads` — what the word of an encoded pulse says.
* `encodeMarker_lossless` — which pulses are encoded, and that nothing of them is lost.
-/

namespace PulseSequencer

/-! ## Transition words -/

/-- Transition words of a marker, by the samples left after whole quanta. -/
def transitions (state : Bool) : List Nat := if state then Hardware.rising else Hardware.falling

theorem length_transitions (state : Bool) : (transitions state).length = Hardware.quantum := by
  cases state <;> rfl

theorem nodup_transitions (state : Bool) : (transitions state).Nodup := by
  cases state <;> decide

theorem getElem?_transitions (state : Bool) {left : Nat} (h : left < Hardware.quantum) :
    (transitions state)[left]? = some (transitionWord state left) := by
  rw [← length_transitions state] at h
  change _ = some (((transitions state)[left]?).getD 0)
  rw [List.getElem?_eq_getElem h, Option.getD_some]

/-- A transition word has one place in its table. -/
theorem getElem?_transitions_iff (state : Bool) {left : Nat} (h : left < Hardware.quantum) (k : Nat) :
    (transitions state)[k]? = some (transitionWord state left) ↔ k = left := by
  rw [← getElem?_transitions state h, eq_comm, eq_comm (a := k)]
  rw [← length_transitions state] at h
  exact List.getElem?_inj h (nodup_transitions state)

namespace Instruction

/-- A marker instruction says that its marker lasts `n` samples: whole quanta, and as many more as the
place of the transition word in its table. -/
def Lasts (i : Instruction) (n : Int) : Prop :=
  ∃ left : Nat, n = Hardware.quantum * i.quads + left ∧
    ∀ k, (transitions i.state)[k]? = some i.transition ↔ k = left

theorem Lasts.unique {i : Instruction} {n n' : Int} (h : i.Lasts n) (h' : i.Lasts n') : n = n' := by
  obtain ⟨left, rfl, hleft⟩ := h
  obtain ⟨left', rfl, hleft'⟩ := h'
  obtain rfl : left = left' := (hleft' left).1 ((hleft left).2 rfl)
  rfl

end Instruction

/-! ## Encoding -/

variable {p : Pulse} {select n : Int}

/-- Encoding of a digital pulse, with its limits. -/
theorem encodeMarker_eq (hn : toSamples p.length Hardware.dacClock = .ok n) (select : Int) :
    encodeMarker p select =
      if select < 1 ∨ 4 < select then .error (.channelMap (.markerIndex select p.label))
      else if n < 0 ∨ 0xffffffff < n then
        .error (.outOfRange (.markerLength p.label) n Hardware.maxMarkerLength 0)
      else if 0x40000000 ≤ n then
        .error (.outOfRange (.markerCount p.label) (n / Hardware.quantum) Layout.quads.top 0)
      else .ok ⟨select, p.isHigh, n / Hardware.quantum,
        transitionWord p.isHigh (n % Hardware.quantum).toNat⟩ := by
  have hlongest : (Hardware.maxMarkerLength : Int) = 0xffffffff := rfl
  have htop := Layout.top_quads
  unfold encodeMarker
  rw [hn]
  change (if select < 1 ∨ 4 < select then _ else
    checkRange (.markerLength p.label) n Hardware.maxMarkerLength 0 >>= _) = _
  split
  · rfl
  split
  · rw [checkRange_eq_error.2 ⟨by omega, rfl⟩]
    rfl
  rw [checkRange_eq_ok.2 ⟨rfl, by omega, by omega⟩]
  change checkRange (.markerCount p.label) (n / Hardware.quantum) Layout.quads.top 0 >>= _ = _
  have hquanta : n / Hardware.quantum = n / 4 := rfl
  split
  · rw [checkRange_eq_error.2 ⟨by omega, rfl⟩]
    rfl
  · rw [checkRange_eq_ok.2 ⟨rfl, by omega, by omega⟩]
    rfl

/-- **What the word of an encoded pulse says**: its output, its state and how long it lasts. -/
theorem encodeMarker_reads {m : Marker} (hn : toSamples p.length Hardware.dacClock = .ok n)
    (h : encodeMarker p select = .ok m) :
    (Instruction.ofWord m.word).opcode = .ok .marker ∧
      ((Instruction.ofWord m.word).markerSelect : Int) = select ∧
      (Instruction.ofWord m.word).state = p.isHigh ∧ (Instruction.ofWord m.word).Lasts n := by
  obtain ⟨n', hn', hnonneg, htop, hmin, hmax, rfl⟩ := encodeMarker_eq_ok h
  obtain rfl := Except.ok.inj (hn'.symm.trans hn)
  have hsplit : n' = Hardware.quantum * (n' / Hardware.quantum) + (n' % Hardware.quantum).toNat ∧
      0 ≤ n' / Hardware.quantum ∧ (n' % Hardware.quantum).toNat < Hardware.quantum := by
    unfold Hardware.quantum
    omega
  obtain ⟨hdivided, hquads, hleft⟩ := hsplit
  have hword : Marker.Recovered ⟨select, p.isHigh, n' / Hardware.quantum,
      transitionWord p.isHigh (n' % Hardware.quantum).toNat⟩ :=
    Marker.recovered hmin hmax ⟨hquads, htop⟩ (transitionWord_lt _ _)
  refine ⟨hword.opcode, hword.select, hword.state, (n' % Hardware.quantum).toNat, ?_, fun k => ?_⟩
  · rw [hword.count]
    exact hdivided
  · rw [hword.state, hword.transition]
    exact getElem?_transitions_iff p.isHigh hleft k

/-- Encoded pulses have the same word if and only if they have the same output, state and duration. -/
theorem encodeMarker_word_eq_iff {p' : Pulse} {select' n' : Int} {m m' : Marker}
    (hn : toSamples p.length Hardware.dacClock = .ok n)
    (hn' : toSamples p'.length Hardware.dacClock = .ok n') (h : encodeMarker p select = .ok m)
    (h' : encodeMarker p' select' = .ok m') :
    m.word = m'.word ↔ select = select' ∧ p.isHigh = p'.isHigh ∧ n = n' := by
  constructor
  · intro hword
    obtain ⟨_, hselect, hstate, hlasts⟩ := encodeMarker_reads hn h
    obtain ⟨_, hselect', hstate', hlasts'⟩ := encodeMarker_reads hn' h'
    rw [hword] at hselect hstate hlasts
    exact ⟨hselect.symm.trans hselect', hstate.symm.trans hstate', hlasts.unique hlasts'⟩
  · rintro ⟨rfl, hstate, rfl⟩
    obtain ⟨k, hk, _, _, _, _, rfl⟩ := encodeMarker_eq_ok h
    obtain ⟨k', hk', _, _, _, _, rfl⟩ := encodeMarker_eq_ok h'
    obtain rfl := Except.ok.inj (hk.symm.trans hn)
    obtain rfl := Except.ok.inj (hk'.symm.trans hn')
    rw [hstate]

/-- **Nothing of a marker is lost in its word.** A digital pulse of `n` samples is encoded if and only if
there is such an output and the whole quanta fit their field. Otherwise the fault is the first of the
output, the length and the count. The word of an encoded pulse says which output it is for, whether it is
high, and how many samples it lasts, so pulses have the same word if and only if they agree in these. -/
theorem encodeMarker_lossless :
    (∀ p select, select < 1 ∨ 4 < select →
      encodeMarker p select = .error (.channelMap (.markerIndex select p.label))) ∧
    (∀ p select n, toSamples p.length Hardware.dacClock = .ok n →
      ((∃ m, encodeMarker p select = .ok m) ↔ (1 ≤ select ∧ select ≤ 4) ∧ 0 ≤ n ∧ n < 0x40000000) ∧
      (encodeMarker p select = .error (.channelMap (.markerIndex select p.label)) ↔
        select < 1 ∨ 4 < select) ∧
      (encodeMarker p select =
          .error (.outOfRange (.markerLength p.label) n Hardware.maxMarkerLength 0) ↔
        (1 ≤ select ∧ select ≤ 4) ∧ (n < 0 ∨ 0xffffffff < n)) ∧
      (encodeMarker p select =
          .error (.outOfRange (.markerCount p.label) (n / Hardware.quantum) Layout.quads.top 0) ↔
        (1 ≤ select ∧ select ≤ 4) ∧ 0x40000000 ≤ n ∧ n ≤ 0xffffffff) ∧
      ∀ m, encodeMarker p select = .ok m →
        (Instruction.ofWord m.word).opcode = .ok .marker ∧
          ((Instruction.ofWord m.word).markerSelect : Int) = select ∧
          (Instruction.ofWord m.word).state = p.isHigh ∧ (Instruction.ofWord m.word).Lasts n) ∧
    ∀ p p' select select' n n' m m', toSamples p.length Hardware.dacClock = .ok n →
      toSamples p'.length Hardware.dacClock = .ok n' → encodeMarker p select = .ok m →
      encodeMarker p' select' = .ok m' →
      (m.word = m'.word ↔ select = select' ∧ p.isHigh = p'.isHigh ∧ n = n') := by
  refine ⟨fun p select hselect => if_pos hselect, fun p select n hn => ?_, ?_⟩
  · refine ⟨?_, ?_, ?_, ?_, fun m => encodeMarker_reads hn⟩
    all_goals
      rw [encodeMarker_eq hn]
      -- the outcomes exclude each other, and so do the conditions
      repeat' split
      all_goals
        simp only [Except.ok.injEq, Except.error.injEq, Fault.outOfRange.injEq, reduceCtorEq, false_and,
          exists_eq', exists_false, true_iff, false_iff]
        omega
  · intro p p' select select' n n' m m' hn hn' h h'
    exact encodeMarker_word_eq_iff hn hn' h h'

/-- A high marker that lasts a number of samples. -/
def highPulse (samples : Float) : Pulse where
  uid := 0
  label := "high"
  length := samples / 1.2e9

/-- Six and five samples have the same whole quanta, but not the same word. The first number of samples
that does not fit is refused. -/
theorem encodeMarker_lossless_high :
    toSamples (highPulse 6.0).length Hardware.dacClock = .ok 6 ∧
    toSamples (highPulse 5.0).length Hardware.dacClock = .ok 5 ∧
    toSamples (highPulse 1073741824.0).length Hardware.dacClock = .ok 0x40000000 ∧
    (∃ m m', encodeMarker (highPulse 6.0) 2 = .ok m ∧ encodeMarker (highPulse 5.0) 2 = .ok m' ∧
      (Instruction.ofWord m.word).Lasts 6 ∧ m.word ≠ m'.word) ∧
    encodeMarker (highPulse 1073741824.0) 2 =
      .error (.outOfRange (.markerCount "high") 0x10000000 0xfffffff 0) := by
  have hsix : toSamples (highPulse 6.0).length Hardware.dacClock = .ok 6 :=
    eq_ok_of_toOption (by decide +kernel)
  have hfive : toSamples (highPulse 5.0).length Hardware.dacClock = .ok 5 :=
    eq_ok_of_toOption (by decide +kernel)
  have hmany : toSamples (highPulse 1073741824.0).length Hardware.dacClock = .ok 0x40000000 :=
    eq_ok_of_toOption (by decide +kernel)
  obtain ⟨_, hlimits, hwords⟩ := encodeMarker_lossless
  obtain ⟨m, h⟩ := (hlimits _ 2 _ hsix).1.2 (by decide)
  obtain ⟨m', h'⟩ := (hlimits _ 2 _ hfive).1.2 (by decide)
  refine ⟨hsix, hfive, hmany, ⟨m, m', h, h', ((hlimits _ 2 _ hsix).2.2.2.2 m h).2.2.2, ?_⟩, ?_⟩
  · rw [Ne, hwords _ _ _ _ _ _ _ _ hsix hfive h h']
    decide
  · exact (hlimits _ 2 _ hmany).2.2.2.1.2 (by decide)

end PulseSequencer
