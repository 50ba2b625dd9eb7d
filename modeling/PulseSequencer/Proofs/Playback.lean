import PulseSequencer.Proofs.Outputs
import PulseSequencer.Proofs.Readback

/-!
# Playback of analog pulses

A waveform word says where its samples stand, and the word before it lets the oscillators run along
them. Both are emitted together, so no other lane comes between.

* `Preceded` — every waveform word follows a word that belongs to it; `Preceded.append`,
  `Preceded.flatten`.
* `PlaysBack` — two words play samples that stand in memory.
* `Stored.playsBack` — the words of an encoded pulse play it.
* `compile_playback` — every waveform word of a program plays a pulse of the analog channel.
-/

namespace PulseSequencer

/-! ## Words that follow another -/

/-- Every word that plays a waveform follows a word to which `R` relates it. -/
def Preceded (R : Word → Word → Prop) (words : List Word) : Prop :=
  ∀ (i : Nat) (w : Word), words[i]? = some w → (Instruction.ofWord w).opcode = .ok .waveform →
    ∃ j m, i = j + 1 ∧ words[j]? = some m ∧ R m w

/-- A word does not play a waveform. -/
def Silent (w : Word) : Prop := (Instruction.ofWord w).opcode ≠ .ok .waveform

namespace Preceded

variable {R : Word → Word → Prop}

theorem of_silent {words : List Word} (h : ∀ w ∈ words, Silent w) : Preceded R words := by
  intro i w hw hplays
  exact absurd hplays (h w (List.mem_of_getElem? hw))

theorem pair {m w : Word} (hm : Silent m)
    (h : (Instruction.ofWord w).opcode = .ok .waveform → R m w) : Preceded R [m, w] := by
  intro i x hx hplays
  cases i with
  | zero =>
    obtain rfl : m = x := by simpa using hx
    exact absurd hplays hm
  | succ j =>
    cases j with
    | zero =>
      obtain rfl : w = x := by simpa using hx
      exact ⟨0, m, rfl, rfl, h hplays⟩
    | succ j => cases hx

theorem append {xs ys : List Word} (hx : Preceded R xs) (hy : Preceded R ys) :
    Preceded R (xs ++ ys) := by
  intro i w hw hplays
  by_cases hi : i < xs.length
  · rw [List.getElem?_append_left hi] at hw
    obtain ⟨j, m, rfl, hm, hR⟩ := hx i w hw hplays
    exact ⟨j, m, rfl, by rw [List.getElem?_append_left (by omega), hm], hR⟩
  · rw [List.getElem?_append_right (by omega)] at hw
    obtain ⟨j, m, hj, hm, hR⟩ := hy _ w hw hplays
    refine ⟨xs.length + j, m, by omega, ?_, hR⟩
    rw [List.getElem?_append_right (by omega), Nat.add_sub_cancel_left, hm]

theorem flatten {parts : List (List Word)} (h : ∀ words ∈ parts, Preceded R words) :
    Preceded R parts.flatten := by
  induction parts with
  | nil => exact of_silent fun w hw => by cases hw
  | cons words parts ih =>
    rw [List.flatten_cons]
    exact (h words List.mem_cons_self).append (ih fun x hx => h x (List.mem_cons_of_mem _ hx))

end Preceded

/-! ## Words without waveforms -/

theorem Marker.silent_word (m : Marker) : Silent m.word := by
  intro h
  cases m.opcode_word.symm.trans h

theorem Modulator.silent {op : ModulationOp} {nco : Int} {x : Except Fault Int} {w : Word}
    (h : (do Word.modulation op nco (← x)) = .ok w) : Silent w := by
  intro hw
  cases (Modulator.opcode_word h).symm.trans hw

theorem Flow.silent {f : Flow} {w : Word} (h : f.word = .ok w) : Silent w := by
  obtain ⟨op, hop, hw⟩ := Flow.opcode_word h
  intro hplays
  cases hw.symm.trans hplays
  exact (Flow.opcode_ne hop).1 rfl

theorem Optionally.silent {cond : Bool} {op : ModulationOp} {nco : Int} {x : Except Fault Int}
    {words : List Word} (h : Optionally cond (do Word.modulation op nco (← x)) words) :
    ∀ w ∈ words, Silent w :=
  h.forall_mem fun _ => Modulator.silent

theorem Context.prologue_silent {c : Context} {words : List Word} (h : c.prologue = .ok words) :
    ∀ w ∈ words, Silent w := by
  unfold prologue at h
  obtain ⟨reset, hreset, h⟩ := bind_eq_ok.1 h
  obtain ⟨tune, htune, h⟩ := bind_eq_ok.1 h
  obtain rfl := pure_eq_ok.1 h
  intro w hw
  simp only [List.mem_cons, List.not_mem_nil, or_false] at hw
  rcases hw with rfl | rfl | rfl
  · exact Flow.silent (f := .sync) rfl
  · exact Modulator.silent (x := pure 0) hreset
  · exact Modulator.silent htune

/-! ## Playback -/

/-- The word `w` plays the samples `wf` from memory, and `m` lets the oscillators run along them. Either
all samples are alike and one quantum of them is played for the whole duration, or all of them are
played, filled up with zeros to whole quanta. -/
structure PlaysBack (settings : Settings) (memory : Memory) (wf : List DacSample) (m w : Word) :
    Prop where
  opcode : (Instruction.ofWord m).opcode = .ok .modulator
  operation : (Instruction.ofWord m).modulationOp = .ok .modulate
  nco : (Instruction.ofWord m).nco = settings.ncoSelect.val
  immediate : (Instruction.ofWord m).immediate = quanta wf.length - 1
  samples :
    ((Instruction.ofWord w).isTa = true ∧ (Instruction.ofWord w).count = 0 ∧
      ∃ v, (∀ s ∈ wf, s = v) ∧ memory.HoldsAt (Hardware.quantum * (Instruction.ofWord w).address)
        (List.replicate Hardware.quantum v)) ∨
    ((Instruction.ofWord w).isTa = false ∧ (Instruction.ofWord w).count = quanta wf.length - 1 ∧
      memory.HoldsAt (Hardware.quantum * (Instruction.ofWord w).address)
        (wf ++ List.replicate (Hardware.quantum * quanta wf.length - wf.length) DacSample.zero))

/-- The words of an encoded pulse play its samples. -/
theorem Stored.playsBack {settings : Settings} {memory : Memory} {p : Pulse} {wave : Waveform}
    {n : Nat} {m : Word} (h : Stored settings memory p wave n)
    (hnum : ∀ s ∈ p.shapeLevels settings n, s.isNumber = true)
    (hm : Modulator.modulate settings.ncoSelect.val wave.count = .ok m) :
    PlaysBack settings memory (p.shapeLevels settings n) m wave.word := by
  have hlen : (p.shapeLevels settings n).length = n := Pulse.length_shapeLevels h.samples
  have hquanta : 1 ≤ quanta n := by
    have := h.nonempty
    unfold quanta Hardware.quantum
    omega
  have hcount := h.count
  have hnonneg := h.address_nonneg
  obtain ⟨hop, hmod, hnco, himm⟩ := Instruction.modulation_fields hm
  obtain ⟨hta, hc, ha⟩ := wave.fields_word ⟨by omega, h.count_le⟩ ⟨hnonneg, h.address_le⟩
  have haddress : (Instruction.ofWord wave.word).address = wave.address.toNat := by omega
  refine ⟨hop, hmod, ?_, ?_, ?_⟩
  · have hlt := settings.ncoSelect.isLt
    omega
  · rw [himm, hlen, hcount]
  · rw [hta, haddress, hlen]
    cases hw : wave.isTa with
    | true =>
      refine Or.inl ⟨rfl, ?_, h.holds_constant hw⟩
      rw [hw, if_pos rfl] at hc
      exact Int.ofNat_inj.1 hc
    | false =>
      refine Or.inr ⟨rfl, ?_, h.holds_samples hw hnum⟩
      rw [hw, if_neg Bool.false_ne_true] at hc
      omega

section

variable {entries : List Entry} {map : ChannelMap} {settings : Settings} {prog : Program} {t : Session}

/-- No sample of a pulse on the analog channel fails to be a number. -/
def Numbers (entries : List Entry) (map : ChannelMap) (settings : Settings) : Prop :=
  ∀ c, map.analog = some c → ∀ p ∈ playedOn entries c, ∀ wf, p.levels settings = .ok wf →
    ∀ s ∈ wf, s.isNumber = true

/-- Two words play a pulse of the analog channel. -/
def PlaysPulse (entries : List Entry) (map : ChannelMap) (settings : Settings) (memory : Memory)
    (m w : Word) : Prop :=
  ∃ c p wf, map.analog = some c ∧ p ∈ playedOn entries c ∧ p.levels settings = .ok wf ∧
    PlaysBack settings memory wf m w

/-- The record of a waveform and the run of the oscillators play a pulse. -/
theorem compile_playsPulse (h : compile entries map none settings = .ok prog t)
    (hnum : Numbers entries map settings) {k : Nat} {wave : Waveform}
    (hr : prog.library.find? k = some (.waveform wave)) {m : Word}
    (hm : Modulator.modulate settings.ncoSelect.val wave.count = .ok m) :
    PlaysPulse entries map settings prog.memory m wave.word := by
  obtain ⟨before, o, c, after, houts, ⟨p, hp, _, hw⟩, _⟩ := compile_record h hr
  cases hw with
  | @waveform _ n hs =>
    have hc : map.analog = some c := ChannelMap.mem_outputs_analog.1 (by simp [houts])
    have hlevels : p.levels settings = .ok (p.shapeLevels settings n) := by
      unfold Pulse.levels
      rw [hs.samples]
      rfl
    exact ⟨c, p, _, hc, hp, hlevels, hs.playsBack (hnum c hc p hp _ hlevels) hm⟩

/-- A pulse on a marker channel has the record of a marker. -/
theorem compile_marker (h : compile entries map none settings = .ok prog t) {index : Nat} {c : Channel}
    (hc : (Output.marker index, c) ∈ map.outputs) {p : Pulse} (hp : p ∈ playedOn entries c) {r : Record}
    (hr : prog.library.find? p.uid = some r) : ∃ mk, r = .marker mk := by
  obtain ⟨before, o, d, after, houts, ⟨q, _, _, hw⟩, hafter⟩ := compile_record h hr
  cases hw with
  | waveform _ => exact absurd rfl (hafter _ (ChannelMap.mem_after_analog houts hc) p hp)
  | @marker _ mk _ => exact ⟨mk, rfl⟩

/-- The words of an element: waveforms come from the analog channel only, and after their run. -/
theorem compile_element_preceded (h : compile entries map none settings = .ok prog t)
    (hnum : Numbers entries map settings) {b : Block} (hb : Entry.block b ∈ entries) {c : Channel}
    (hc : c ∈ map.channels) {e : Entry} (he : e ∈ b.on c) {em : Emission}
    (hem : (map.context prog.library settings).element c e = .ok em) :
    Preceded (PlaysPulse entries map settings prog.memory) em.words := by
  rcases Context.element_cases hem with ⟨p, rfl, hp⟩ | ⟨f, w, rfl, hw, rfl⟩
  · obtain ⟨r, hr, _, hwords⟩ := Context.pulse_eq_ok hp
    have hfind := Library.record_eq_ok.1 hr
    obtain ⟨o, hx⟩ := ChannelMap.exists_output hc
    have hkind := ChannelMap.isAnalog_of_mem_outputs (compile_eq_ok h).1 hx
    cases o with
    | analog =>
      rw [if_pos (by simp [hkind])] at hwords
      obtain ⟨phase, tune, run, restore, hwords, hphase, htune, hrun, hrestore⟩ := hwords
      rw [hwords]
      refine ((Preceded.of_silent hphase.silent).append (.of_silent htune.silent)).append ?_
        |>.append (.of_silent hrestore.silent)
      -- only the record can play a waveform, and the run stands right before it
      refine .pair (Modulator.silent (x := pure r.count) hrun) fun hplays => ?_
      cases r with
      | waveform wave => exact compile_playsPulse h hnum hfind hrun
      | marker mk => exact absurd hplays mk.silent_word
    | marker index =>
      -- the markers are encoded after the analog pair, so no waveform is left on their channels
      rw [if_neg (by simp [hkind])] at hwords
      obtain ⟨mk, rfl⟩ := compile_marker h hx (mem_playedOn.2 ⟨b, hb, he⟩) hfind
      rw [hwords]
      exact .of_silent fun w hw => List.mem_singleton.1 hw ▸ mk.silent_word
  · exact .of_silent fun w' hw' => List.mem_singleton.1 hw' ▸ Modulator.silent hw

theorem compile_entry_preceded (h : compile entries map none settings = .ok prog t)
    (hnum : Numbers entries map settings) {prologue words : List Word}
    (hprologue : (map.context prog.library settings).prologue = .ok prologue) {e : Entry}
    (he : e ∈ entries) (hwords : (map.context prog.library settings).entryWords prologue e = .ok words) :
    Preceded (PlaysPulse entries map settings prog.memory) words := by
  rcases Context.entryWords_eq_ok hwords with ⟨b, s, rfl, hs, rfl⟩ | ⟨f, w, rfl, hw, rfl⟩
  · obtain ⟨emissions, hflat, hall, _⟩ := Context.serialize_emissions (compile_counted h b) hs
    rw [hflat]
    refine .flatten fun words hwords => ?_
    obtain ⟨em, hem, rfl⟩ := List.mem_map.1 hwords
    obtain ⟨c, hc, e, hel, hok⟩ := hall em hem
    exact compile_element_preceded h hnum he hc hel hok
  · have hword : Preceded (PlaysPulse entries map settings prog.memory) [w] :=
      .of_silent fun x hx => List.mem_singleton.1 hx ▸ Flow.silent hw
    split
    · exact (Preceded.of_silent (Context.prologue_silent hprologue)).append hword
    · exact hword

/-- **Every waveform word of a program plays a pulse of the analog channel.** The word before it lets the
oscillators run for the duration of the pulse, and the samples of the pulse stand in memory where the
word says. -/
theorem compile_playback (h : compile entries map none settings = .ok prog t)
    (hnum : Numbers entries map settings) {i : Nat} {w : Word} (hw : prog.words[i]? = some w)
    (hplays : (Instruction.ofWord w).opcode = .ok .waveform) :
    ∃ j m, i = j + 1 ∧ prog.words[j]? = some m ∧
      ∃ c p wf, map.analog = some c ∧ p ∈ playedOn entries c ∧ p.levels settings = .ok wf ∧
        PlaysBack settings prog.memory wf m w := by
  obtain ⟨_, _, prologue, parts, hprologue, hparts, hwords⟩ := compile_eq_ok h
  have hall : Preceded (PlaysPulse entries map settings prog.memory) prog.words := by
    rw [hwords]
    refine .flatten fun words hmem => ?_
    obtain ⟨e, he, hok⟩ := exists_of_mem_mapM hparts hmem
    exact compile_entry_preceded h hnum hprologue he hok
  exact hall i w hw hplays

end

/-- A trigger, then the block whose second analog pulse is not shared. -/
def triggeredEntries : List Entry := [.flow .wait, .block sharedBlock]

theorem triggeredEntries_numbers : Numbers triggeredEntries sharedMap {} := by
  intro c hc p hp wf hwf s hs
  obtain rfl := Option.some.inj hc
  have hall : ∀ p ∈ playedOn triggeredEntries (.analog "q" 0.0 0),
      (p.levels {}).toOption.all (fun wf => wf.all DacSample.isNumber) = true := by decide +kernel
  have hp' := hall p hp
  rw [hwf] at hp'
  exact List.all_eq_true.1 hp' s hs

/-- The last word of the program plays the pulse that is not shared. -/
theorem compile_playback_triggeredEntries :
    ∃ prog t, compile triggeredEntries sharedMap none {} = .ok prog t ∧
      Numbers triggeredEntries sharedMap {} ∧
      ∃ w : Word, prog.words[8]? = some w ∧ (Instruction.ofWord w).opcode = .ok .waveform ∧
        ∃ j m, 8 = j + 1 ∧ prog.words[j]? = some m ∧
          ∃ c p wf, sharedMap.analog = some c ∧ p ∈ playedOn triggeredEntries c ∧
            p.levels {} = .ok wf ∧ PlaysBack {} prog.memory wf m w := by
  have hrun : (Encoder.value? (compile triggeredEntries sharedMap none {})).map (fun prog =>
      (prog.words[8]?).bind fun (w : Word) => (Instruction.ofWord w).opcode.toOption.map id) =
        some (some .waveform) := by decide +kernel
  obtain ⟨prog, t, h, hw⟩ := Encoder.exists_of_value? hrun
  obtain ⟨w, hw, hop⟩ := Option.bind_eq_some_iff.1 hw
  obtain ⟨_, hplays, rfl⟩ := exists_of_toOption hop
  exact ⟨prog, t, h, triggeredEntries_numbers, w, hw, hplays,
    compile_playback h triggeredEntries_numbers hw hplays⟩

end PulseSequencer
