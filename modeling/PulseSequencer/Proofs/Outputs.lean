import PulseSequencer.Proofs.Compilation
import PulseSequencer.Proofs.Decoding
import PulseSequencer.Proofs.Interleaving

/-!
# Which output a pulse is played on

Records are kept by pulse, one for each, while the word of a record is made for one output. Outputs are
encoded in the order of their roles, so a pulse that several outputs play keeps the record of the last.

* `Output.Drives` — a word plays on an output.
* `lastOutput` — the last output whose channel plays a pulse.
* `compile_lastOutput` — the record of a pulse is that of the last output that plays it.
* `compile_element` — every element of every block is in the program, in one piece.
* `compile_output` — a pulse is played on the last output whose channel plays it.
* `compile_output_shared` — a pulse that is not played on the output it is scheduled on.
-/

namespace PulseSequencer

/-- The output that a record is for. -/
def Record.output : Record → Output
  | .waveform _ => .analog
  | .marker m => .marker m.select.toNat

/-- A word plays on an output: a waveform on the analog pair, a marker on the output that it names. -/
def Output.Drives (w : Word) : Output → Prop
  | .analog => (Instruction.ofWord w).opcode = .ok .waveform
  | .marker index => (Instruction.ofWord w).opcode = .ok .marker ∧
    (Instruction.ofWord w).markerSelect = index

/-! ## Records and outputs -/

theorem Written.output {settings : Settings} {m : Memory} {p : Pulse} {o : Output} {r : Record}
    (h : Written settings m p o r) : r.output = o := by
  cases h with
  | waveform _ => rfl
  | marker h =>
    obtain ⟨_, _, _, _, _, _, rfl⟩ := encodeMarker_eq_ok h
    rfl

theorem Written.count_nonneg {settings : Settings} {m : Memory} {p : Pulse} {o : Output} {r : Record}
    (h : Written settings m p o r) : 0 ≤ r.count := by
  cases h with
  | @waveform w n h =>
    have hcount : w.count = quanta n - 1 := h.count
    have hne := h.nonempty
    unfold quanta Hardware.quantum at hcount
    change 0 ≤ w.count
    omega
  | marker h =>
    obtain ⟨n, _, hn, _, _, _, rfl⟩ := encodeMarker_eq_ok h
    exact Int.ediv_nonneg hn (Int.natCast_nonneg _)

/-- The word of a record plays on the output that the record is for. -/
theorem Written.drives {settings : Settings} {m : Memory} {p : Pulse} {o : Output} {r : Record}
    (h : Written settings m p o r) : o.Drives r.word := by
  cases h with
  | @waveform w n h => exact w.opcode_word
  | @marker index mk h =>
    obtain ⟨n, _, _, _, hmin, hmax, hmk⟩ := encodeMarker_eq_ok h
    have hselect : mk.select = index := by rw [hmk]
    have hword := mk.select_word (hselect ▸ hmin) (hselect ▸ hmax)
    exact ⟨mk.opcode_word, Int.ofNat_inj.1 (hword.trans hselect)⟩

/-- A word plays on one output at most. -/
theorem Output.Drives.unique {w : Word} {o o' : Output} (h : o.Drives w) (h' : o'.Drives w) :
    o = o' := by
  cases o with
  | analog =>
    cases o' with
    | analog => rfl
    | marker index => cases h.symm.trans h'.1
  | marker index =>
    cases o' with
    | analog => cases h.1.symm.trans h'
    | marker index' => rw [h.2.symm.trans h'.2]

/-! ## Compiled sequences -/

/-- Whether a sequence plays a pulse on a channel. -/
def playsOn (entries : List Entry) (n : Nat) (c : Channel) : Bool :=
  (playedOn entries c).any (·.uid == n)

/-- The last of the outputs whose channels play a pulse. -/
def lastOutput (entries : List Entry) (map : ChannelMap) (n : Nat) : Option Output :=
  ((map.outputs.filter fun x => playsOn entries n x.2).getLast?).map Prod.fst

theorem lastOutput_eq_some {entries : List Entry} {map : ChannelMap} {n : Nat}
    {before after : List (Output × Channel)} {o : Output} {c : Channel}
    (houts : map.outputs = before ++ (o, c) :: after) (hc : playsOn entries n c = true)
    (hafter : ∀ x ∈ after, playsOn entries n x.2 = false) :
    lastOutput entries map n = some o := by
  have hnone : after.filter (fun x => playsOn entries n x.2) = [] :=
    List.filter_eq_nil_iff.2 fun x hx => by simp [hafter x hx]
  unfold lastOutput
  rw [houts, List.filter_append, List.filter_cons, if_pos hc, hnone, List.getLast?_concat]
  rfl

theorem mem_of_lastOutput {entries : List Entry} {map : ChannelMap} {n : Nat} {o : Output}
    (h : lastOutput entries map n = some o) :
    ∃ c, (o, c) ∈ map.outputs ∧ playsOn entries n c = true := by
  obtain ⟨x, hx, rfl⟩ := Option.map_eq_some_iff.1 h
  exact ⟨x.2, List.mem_filter.1 (List.mem_of_getLast? hx)⟩

section

variable {entries : List Entry} {map : ChannelMap} {settings : Settings} {prog : Program} {t : Session}

/-- The record of a pulse is that of the last output that plays it. -/
theorem compile_lastOutput (h : compile entries map none settings = .ok prog t) {n : Nat} {r : Record}
    (hr : prog.library.find? n = some r) :
    ∃ o p, lastOutput entries map n = some o ∧ Written settings prog.memory p o r := by
  obtain ⟨before, o, c, after, houts, ⟨p, hp, hpn, hw⟩, hafter⟩ := compile_record h hr
  refine ⟨o, p, lastOutput_eq_some houts ?_ ?_, hw⟩
  · exact List.any_eq_true.2 ⟨p, hp, by simp [hpn]⟩
  · intro x hx
    exact List.any_eq_false.2 fun q hq => by simpa using hafter x hx q hq

theorem compile_counted {pulses : Option Repertoire}
    (h : compile entries map pulses settings = .ok prog t) (b : Block) :
    (map.context prog.library settings).Counted b := by
  intro channel _ p _ r hr
  obtain ⟨q, o, hw⟩ := compile_written h (Library.record_eq_ok.1 hr)
  exact hw.count_nonneg

/-- The stream of every block is in the program, in one piece. -/
theorem compile_block (h : compile entries map none settings = .ok prog t) {b : Block}
    (hb : Entry.block b ∈ entries) :
    ∃ s, (map.context prog.library settings).serialize b = .ok s ∧ s.words <:+: prog.words := by
  obtain ⟨_, _, prologue, parts, _, hparts, hwords⟩ := compile_eq_ok h
  obtain ⟨words, hmem, hw⟩ := exists_of_mapM_eq_ok hparts hb
  obtain ⟨s, hs, rfl⟩ := map_eq_ok.1 hw
  refine ⟨s, hs, ?_⟩
  rw [hwords]
  exact List.infix_of_mem_flatten hmem

/-- Every element of every block is in the program, in one piece. -/
theorem compile_element (h : compile entries map none settings = .ok prog t) {b : Block}
    (hb : Entry.block b ∈ entries) {c : Channel} (hc : c ∈ map.channels) {e : Entry}
    (he : e ∈ b.on c) :
    ∃ em, (map.context prog.library settings).element c e = .ok em ∧ em.words <:+: prog.words := by
  obtain ⟨s, hs, hinfix⟩ := compile_block h hb
  obtain ⟨emissions, hwords, _, hall⟩ := Context.serialize_emissions (compile_counted h b) hs
  obtain ⟨em, hem, hel⟩ := hall c hc e he
  have hpart : em.words <:+: emissions.flatMap (·.words) :=
    List.infix_of_mem_flatten (List.mem_map_of_mem hem)
  exact ⟨em, hel, (hwords ▸ hpart).trans hinfix⟩

/-- **A pulse is played on the last output whose channel plays it.** The record that a block uses for a
pulse is in the program and plays on that output and on no other; it is the output that the pulse is
scheduled on if no other output plays it. -/
theorem compile_output (h : compile entries map none settings = .ok prog t) {b : Block}
    (hb : Entry.block b ∈ entries) {o : Output} {c : Channel} (hx : (o, c) ∈ map.outputs) {p : Pulse}
    (hp : Entry.pulse p ∈ b.on c) :
    ∃ r em, prog.library.find? p.uid = some r ∧
      (map.context prog.library settings).element c (.pulse p) = .ok em ∧ r.word ∈ em.words ∧
      em.words <:+: prog.words ∧
      lastOutput entries map p.uid = some r.output ∧ (∀ o', o'.Drives r.word ↔ r.output = o') ∧
      ((∀ x ∈ map.outputs, playsOn entries p.uid x.2 = true → x.1 = o) → o.Drives r.word) := by
  obtain ⟨em, hem, hinfix⟩ := compile_element h hb (ChannelMap.mem_channels_of_mem_outputs hx) hp
  obtain ⟨r, hr, hword⟩ := Context.word_mem_of_pulse_eq_ok hem
  obtain ⟨o', q, hlast, hw⟩ := compile_lastOutput h (Library.record_eq_ok.1 hr)
  have houtput := hw.output
  have hdrives := hw.drives
  refine ⟨r, em, Library.record_eq_ok.1 hr, hem, hword, hinfix, ?_, ?_, ?_⟩
  · rw [houtput]
    exact hlast
  · intro o''
    rw [houtput]
    exact ⟨hdrives.unique, fun ho => ho ▸ hdrives⟩
  · intro honly
    obtain ⟨c', hc', hplays⟩ := mem_of_lastOutput hlast
    exact honly _ hc' hplays ▸ hdrives

end

/-! ## A pulse on two channels -/

/-- Three samples; as a marker, three quanta. -/
def sharedPulse : Pulse where
  uid := 0
  label := "p"
  length := 1.0e-8
  shape := .samples [.real 0.5, .real 0.25, .real 0.125]

def ownPulse : Pulse := { sharedPulse with uid := 1, label := "a" }

def sharedMap : ChannelMap where
  analog := some (.analog "q" 0.0 0)
  m1 := some (.marker "m")

/-- One pulse on both channels, then one on the analog channel only. -/
def sharedBlock : Block := .ofList
  [(.analog "q" 0.0 0, [.pulse sharedPulse, .pulse ownPulse]), (.marker "m", [.pulse sharedPulse])]

theorem compile_output_sharedBlock :
    ∃ prog t, compile [.block sharedBlock] sharedMap none {} = .ok prog t ∧
      (∃ r, prog.library.find? sharedPulse.uid = some r ∧ r.output = .marker 1 ∧
        (Output.marker 1).Drives r.word ∧ r.word ∈ prog.words) ∧
      ∃ r, prog.library.find? ownPulse.uid = some r ∧ Output.analog.Drives r.word := by
  have hrun : (Encoder.value? (compile [.block sharedBlock] sharedMap none {})).map (fun _ => ()) =
      some () := by decide +kernel
  obtain ⟨prog, t, h, _⟩ := Encoder.exists_of_value? hrun
  have hblock : Entry.block sharedBlock ∈ [Entry.block sharedBlock] := List.mem_cons_self
  have hanalog : (Output.analog, Channel.analog "q" 0.0 0) ∈ sharedMap.outputs := List.mem_cons_self
  refine ⟨prog, t, h, ?_, ?_⟩
  · obtain ⟨r, em, hr, _, hword, hinfix, hlast, hdrives, _⟩ :=
      compile_output h hblock hanalog (p := sharedPulse) List.mem_cons_self
    have hmarker : lastOutput [.block sharedBlock] sharedMap sharedPulse.uid = some (.marker 1) := by
      decide +kernel
    have houtput : r.output = .marker 1 := Option.some.inj (hlast.symm.trans hmarker)
    exact ⟨r, hr, houtput, (hdrives _).2 houtput, hinfix.subset hword⟩
  · obtain ⟨r, _, hr, _, _, _, _, _, honly⟩ :=
      compile_output h hblock hanalog (p := ownPulse) (List.mem_cons_of_mem _ List.mem_cons_self)
    refine ⟨r, hr, honly ?_⟩
    decide +kernel

/-- A pulse that is not played on the output it is scheduled on: the analog channel plays the record of
a marker. -/
theorem compile_output_shared :
    ∃ prog t, compile [.block sharedBlock] sharedMap none {} = .ok prog t ∧
      (Output.analog, Channel.analog "q" 0.0 0) ∈ sharedMap.outputs ∧
      Entry.pulse sharedPulse ∈ sharedBlock.on (.analog "q" 0.0 0) ∧
      ∃ r, prog.library.find? sharedPulse.uid = some r ∧ ¬ Output.analog.Drives r.word := by
  have hrun : (Encoder.value? (compile [.block sharedBlock] sharedMap none {})).map
      (·.library.find? sharedPulse.uid) = some (some (.marker ⟨1, true, 3, 15⟩)) := by decide +kernel
  obtain ⟨prog, t, h, hr⟩ := Encoder.exists_of_value? hrun
  refine ⟨prog, t, h, List.mem_cons_self, List.mem_cons_self, .marker ⟨1, true, 3, 15⟩, hr, ?_⟩
  intro hd
  cases (Marker.opcode_word _).symm.trans hd

end PulseSequencer
