import Mathlib.Data.List.Forall2
import PulseSequencer.Proofs.Coverage
import PulseSequencer.Proofs.MemoryImage
import PulseSequencer.Proofs.Playback

/-!
# The order in which pulses are listed

Two listings of the same pulses put them at different places in memory, and no other difference reaches
the words: what a waveform word plays stands at its address in the memory of its own program. This holds as
long as no two pulses of a channel share a number, under which one record is kept. A copy of a pulse that is
made with another amplitude keeps the number, and then whichever is listed last is played for both.

* `Word.eraseAddress`, `Word.addressed` — a word without its address, and what stands at that address.
* `Word.SamePlay` — two words that differ at most in their addresses, and play the same.
* `Record.Relocated` — two records of one pulse; `Record.Relocated.samePlay`.
* `encodeRepertoire_relisted` — listings of the same pulses give relocated records.
* `Context.Relocates` — a context with relocated records; `Context.Relocates.element`,
  `Context.Relocates.serialize`, `Context.Relocates.parts`.
* `compile_relisted` — the same for compiled sequences; `compile_relisted_copies` — a pulse and its copy.
-/

namespace PulseSequencer

/-! ## Words -/

/-- A word without its address, if it plays a waveform. -/
def Word.eraseAddress (w : Word) : Word :=
  if opcode? w = some .waveform then w - Layout.address.get w else w

/-- The cells of the quanta that a waveform word plays. -/
def Word.addressed (m : Memory) (w : Word) : List Cell :=
  (m.cells.drop (Hardware.quantum * (Instruction.ofWord w).address)).take
    (Hardware.quantum * ((Instruction.ofWord w).count + 1))

/-- Two words differ at most in the address of a waveform, and play the same from two memories. -/
structure Word.SamePlay (m m' : Memory) (w w' : Word) : Prop where
  erased : eraseAddress w = eraseAddress w'
  opcode : opcode? w = opcode? w'
  cells : opcode? w = some .waveform → addressed m w = addressed m' w'
  whole : opcode? w = some .waveform →
    (addressed m w).length = Hardware.quantum * ((Instruction.ofWord w).count + 1)

/-- A word that plays no waveform is the same for all memories. -/
theorem Word.SamePlay.of_silent {m m' : Memory} {w : Word} (h : Silent w) : SamePlay m m' w w := by
  have hop : opcode? w ≠ some .waveform := fun hw => h (opcode?_eq_some.1 hw)
  exact ⟨rfl, rfl, fun hw => absurd hw hop, fun hw => absurd hw hop⟩

theorem Word.SamePlay.forall₂_of_silent {m m' : Memory} {ws : List Word} (h : ∀ w ∈ ws, Silent w) :
    List.Forall₂ (SamePlay m m') ws ws :=
  List.forall₂_same.2 fun w hw => .of_silent (h w hw)

/-- A waveform word without its address. -/
theorem Word.sub_address (address count : Int) (isTa write : Bool) :
    (Word.waveform address count isTa write -
        Layout.address.get (Word.waveform address count isTa write) : Int) =
      Word.waveform 0 count isTa write :=
  Word.pack_sub_lowest [(Layout.waveformOp, WaveformOp.play.code), (Layout.pair, isTa.toInt),
    (Layout.count, count)] rfl rfl _ _ _

theorem Waveform.eraseAddress_word (w : Waveform) :
    Word.eraseAddress w.word = Word.waveform 0 (if w.isTa then 0 else w.count) w.isTa true := by
  rw [Word.eraseAddress, if_pos (Word.opcode?_eq_some.2 w.opcode_word)]
  have h := Word.sub_address w.address (if w.isTa then 0 else w.count) w.isTa true
  unfold Waveform.word
  change @Eq Nat _ _
  omega

/-! ## Records -/

/-- The word of a waveform plays what is stored for it. -/
theorem Stored.addressed {settings : Settings} {m : Memory} {p : Pulse} {w : Waveform} {n : Nat}
    (h : Stored settings m p w n) :
    Word.addressed m w.word = storedCells (p.shapeLevels settings n) ∧
      (storedCells (p.shapeLevels settings n)).length =
        Hardware.quantum * ((Instruction.ofWord w.word).count + 1) := by
  have hquanta := quantum_mul_quanta n
  have hne := h.nonempty
  have hcount := h.count
  have hnonneg : 0 ≤ w.count := by
    unfold Hardware.quantum at hquanta
    omega
  obtain ⟨_, hfield, haddress⟩ :=
    w.fields_word ⟨hnonneg, h.count_le⟩ ⟨h.address_nonneg, h.address_le⟩
  have hlength : (p.shapeLevels settings n).length = n := Pulse.length_shapeLevels h.samples
  have hlevels : p.shapeLevels settings n ≠ [] := Pulse.shapeLevels_ne_nil h.samples hne
  have hstored : (storedCells (p.shapeLevels settings n)).length =
      Hardware.quantum * ((Instruction.ofWord w.word).count + 1) := by
    rw [length_storedCells hlevels, hlength, ← h.isTa]
    congr 1
    cases hta : w.isTa with
    | true =>
      rw [hta, if_pos rfl] at hfield
      rw [if_pos rfl]
      omega
    | false =>
      rw [hta, if_neg Bool.false_ne_true] at hfield
      rw [if_neg Bool.false_ne_true]
      omega
  refine ⟨?_, hstored⟩
  obtain ⟨before, after, hcells, hbefore⟩ := h.exists_cells
  have hstart : Hardware.quantum * (Instruction.ofWord w.word).address = before.length := by
    rw [hbefore]
    congr 1
    omega
  rw [Word.addressed, hstart, ← hstored, hcells, List.append_assoc, List.drop_left, List.take_left]

/-- Two records of one pulse, made in two sessions. -/
inductive Record.Relocated (settings : Settings) (m m' : Memory) : Record → Record → Prop where
  | marker (mk : Marker) : Relocated settings m m' (.marker mk) (.marker mk)
  | waveform {p : Pulse} {n : Nat} {w w' : Waveform} (h : Stored settings m p w n)
    (h' : Stored settings m' p w' n) : Relocated settings m m' (.waveform w) (.waveform w')

namespace Record.Relocated

variable {settings : Settings} {m m' : Memory} {r r' : Record}

theorem of_written {p : Pulse} {o : Output} (h : Written settings m p o r)
    (h' : Written settings m' p o r') : Relocated settings m m' r r' := by
  cases h with
  | waveform h =>
    cases h' with
    | waveform h' =>
      have hn := Except.ok.inj (h.samples.symm.trans h'.samples)
      exact .waveform h (hn ▸ h')
  | marker h =>
    cases h' with
    | marker h' => exact Except.ok.inj (h.symm.trans h') ▸ .marker _

theorem count (h : Relocated settings m m' r r') : r.count = r'.count := by
  cases h with
  | marker mk => rfl
  | waveform h h' => exact h.count.trans h'.count.symm

/-- Relocated records have the same word but for the address, and it plays the same. -/
theorem samePlay (h : Relocated settings m m' r r') : Word.SamePlay m m' r.word r'.word := by
  cases h with
  | marker mk => exact .of_silent mk.silent_word
  | @waveform p n w w' h h' =>
    have hop := Word.opcode?_eq_some.2 w.opcode_word
    have hop' := Word.opcode?_eq_some.2 w'.opcode_word
    obtain ⟨hcells, hlength⟩ := h.addressed
    rw [Record.word, Record.word]
    refine ⟨?_, hop.trans hop'.symm, fun _ => hcells.trans h'.addressed.1.symm, fun _ => ?_⟩
    · rw [w.eraseAddress_word, w'.eraseAddress_word, h.count, h.isTa, h'.count, h'.isTa]
    · rw [hcells, hlength]

end Record.Relocated

/-! ## Listings of the same pulses -/

/-- The same pulses are listed under each channel of a map, in whatever order and however often. -/
def SamePulses (map : ChannelMap) (pulses pulses' : Repertoire) : Prop :=
  ∀ c ∈ map.channels, ∀ p, p ∈ pulses.on c ↔ p ∈ pulses'.on c

/-- No two pulses of a channel of a map have the same number. A pulse gets a number of its own when it is
made; only a copy shares it. -/
def Numbered (map : ChannelMap) (pulses : Repertoire) : Prop :=
  ∀ c ∈ map.channels, ∀ p ∈ pulses.on c, ∀ q ∈ pulses.on c, p.uid = q.uid → p = q

/-- The last member with a property is the last member with it, however the list is split. -/
theorem eq_of_last {α : Type} {P : α → Prop} {before after before' after' : List α} {x x' : α}
    (heq : before ++ x :: after = before' ++ x' :: after') (hx : P x) (hx' : P x')
    (hafter : ∀ y ∈ after, ¬ P y) (hafter' : ∀ y ∈ after', ¬ P y) : x = x' := by
  rcases List.append_eq_append_iff.1 heq with ⟨between, _, hrest⟩ | ⟨between, _, hrest⟩
  · cases between with
    | nil => exact (List.cons.inj hrest).1
    | cons y between =>
      have hmem : x' ∈ after := by
        rw [(List.cons.inj hrest).2]
        simp
      exact absurd hx' (hafter x' hmem)
  · cases between with
    | nil => exact (List.cons.inj hrest).1.symm
    | cons y between =>
      have hmem : x ∈ after' := by
        rw [(List.cons.inj hrest).2]
        simp
      exact absurd hx (hafter' x hmem)

section

variable {settings : Settings} {map : ChannelMap} {pulses pulses' : Repertoire} {s s' : Session}
  {u u' : Unit}

theorem SamePulses.mem_keys (hsame : SamePulses map pulses pulses')
    (h : encodeRepertoire settings map pulses {} = .ok u s)
    (h' : encodeRepertoire settings map pulses' {} = .ok u' s') {n : Nat} :
    n ∈ s.library.keys ↔ n ∈ s'.library.keys := by
  rw [mem_keys_encodeRepertoire h, mem_keys_encodeRepertoire h']
  constructor
  · rintro ⟨c, hc, p, hp, hpn⟩
    exact ⟨c, hc, p, (hsame c hc p).1 hp, hpn⟩
  · rintro ⟨c, hc, p, hp, hpn⟩
    exact ⟨c, hc, p, (hsame c hc p).2 hp, hpn⟩

/-- **Listings of the same pulses give relocated records.** The last output that lists a pulse is the
same for both. -/
theorem encodeRepertoire_relisted (hsame : SamePulses map pulses pulses') (huid : Numbered map pulses)
    (h : encodeRepertoire settings map pulses {} = .ok u s)
    (h' : encodeRepertoire settings map pulses' {} = .ok u' s') (n : Nat) :
    Option.Rel (Record.Relocated settings s.memory s'.memory) (s.library.find? n)
      (s'.library.find? n) := by
  have hkeys := hsame.mem_keys h h' (n := n)
  rw [Table.mem_keys_iff, Table.mem_keys_iff] at hkeys
  cases hr : s.library.find? n with
  | none =>
    cases hr' : s'.library.find? n with
    | none => exact .none
    | some r' =>
      obtain ⟨r, hr''⟩ := hkeys.2 ⟨r', hr'⟩
      rw [hr] at hr''
      cases hr''
  | some r =>
    obtain ⟨r', hr'⟩ := hkeys.1 ⟨r, hr⟩
    rw [hr']
    obtain ⟨before, o, c, after, houts, ⟨p, hp, hpn, hw⟩, hafter⟩ :=
      (encodeRepertoire_spec h).last n r hr
    obtain ⟨before', o', c', after', houts', ⟨p', hp', hpn', hw'⟩, hafter'⟩ :=
      (encodeRepertoire_spec h').last n r' hr'
    have hchannel : ∀ x ∈ map.outputs, x.2 ∈ map.channels := fun x hx =>
      ChannelMap.mem_channels_of_mem_outputs hx
    have hc : c ∈ map.channels := hchannel (o, c) (by simp [houts])
    have hc' : c' ∈ map.channels := hchannel (o', c') (by simp [houts'])
    -- both listings put the number last under the same output
    have hlast : (o, c) = (o', c') := by
      have houtputs : before ++ (o, c) :: after = before' ++ (o', c') :: after' :=
        houts.symm.trans houts'
      refine eq_of_last (P := fun x : Output × Channel => ∃ q ∈ pulses.on x.2, q.uid = n) houtputs
        ⟨p, hp, hpn⟩ ⟨p', (hsame c' hc' p').2 hp', hpn'⟩ ?_ ?_
      · rintro x hx ⟨q, hq, hqn⟩
        exact hafter x hx q hq hqn
      · rintro x hx ⟨q, hq, hqn⟩
        have hx' : x.2 ∈ map.channels := hchannel x (by simp [houts', hx])
        exact hafter' x hx q ((hsame x.2 hx' q).1 hq) hqn
    obtain ⟨rfl, rfl⟩ := Prod.mk.inj hlast
    obtain rfl : p = p' := huid c hc p hp p' ((hsame c hc p').2 hp') (hpn.trans hpn'.symm)
    exact .some (Record.Relocated.of_written hw hw')

end

/-! ## Programs -/

/-- Two computations along a list whose results are related, member by member. -/
theorem forall₂_of_mapM {α β : Type} {R : β → β → Prop} {f g : α → Except Fault β} {as : List α}
    {bs bs' : List β} (h : as.mapM f = .ok bs) (h' : as.mapM g = .ok bs')
    (hR : ∀ a ∈ as, ∀ b b', f a = .ok b → g a = .ok b' → R b b') : List.Forall₂ R bs bs' := by
  induction as generalizing bs bs' with
  | nil =>
    obtain rfl := pure_eq_ok.1 h
    obtain rfl := pure_eq_ok.1 h'
    exact .nil
  | cons a as ih =>
    rw [List.mapM_cons] at h h'
    obtain ⟨b, hb, h⟩ := bind_eq_ok.1 h
    obtain ⟨rest, hrest, h⟩ := bind_eq_ok.1 h
    obtain rfl := pure_eq_ok.1 h
    obtain ⟨b', hb', h'⟩ := bind_eq_ok.1 h'
    obtain ⟨rest', hrest', h'⟩ := bind_eq_ok.1 h'
    obtain rfl := pure_eq_ok.1 h'
    refine .cons (hR a List.mem_cons_self b b' hb hb') (ih hrest hrest' fun x hx => ?_)
    exact hR x (List.mem_cons_of_mem _ hx)

namespace Context

/-- The same with another library. -/
def withLibrary (c : Context) (library : Library) : Context := { c with library := library }

/-- The records of another library are those of a context, relocated. -/
def Relocates (c : Context) (m m' : Memory) (library : Library) : Prop :=
  ∀ n, Option.Rel (Record.Relocated c.settings m m') (c.library.find? n) (library.find? n)

namespace Relocates

variable {c : Context} {m m' : Memory} {library : Library}

theorem record (h : c.Relocates m m' library) {p : Pulse} {r r' : Record}
    (hr : c.library.record p = .ok r) (hr' : library.record p = .ok r') :
    Record.Relocated c.settings m m' r r' := by
  have hrel := h p.uid
  rw [Library.record_eq_ok.1 hr, Library.record_eq_ok.1 hr'] at hrel
  cases hrel with
  | some hrel => exact hrel

theorem duration (h : c.Relocates m m' library) : (c.withLibrary library).duration = c.duration := by
  funext e
  cases e with
  | pulse p =>
    have hrel := h p.uid
    change ((library.find? p.uid).map (·.count + 1)).getD 0 =
      ((c.library.find? p.uid).map (·.count + 1)).getD 0
    generalize c.library.find? p.uid = x at hrel ⊢
    generalize library.find? p.uid = y at hrel ⊢
    cases hrel with
    | none => rfl
    | some hrel => rw [Option.map_some, Option.map_some, hrel.count]
  | _ => rfl

theorem schedule (h : c.Relocates m m' library) (b : Block) :
    (c.withLibrary library).schedule b = c.schedule b := by
  unfold Context.schedule Context.slots Context.channelSlots
  rw [h.duration]
  rfl

theorem optionally_forall₂ {cond : Bool} {op : ModulationOp} {nco : Int} {x : Except Fault Int}
    {words words' : List Word} (h : Optionally cond (do Word.modulation op nco (← x)) words)
    (h' : Optionally cond (do Word.modulation op nco (← x)) words') :
    List.Forall₂ (Word.SamePlay m m') words words' := by
  rw [← h.unique h']
  exact Word.SamePlay.forall₂_of_silent h.silent

theorem analogWords {p : Pulse} {r r' : Record} {words words' : List Word}
    (hr : Record.Relocated c.settings m m' r r') (hw : c.AnalogWords p r words)
    (hw' : (c.withLibrary library).AnalogWords p r' words') :
    List.Forall₂ (Word.SamePlay m m') words words' := by
  obtain ⟨phase, tune, run, restore, rfl, hphase, htune, hrun, hrestore⟩ := hw
  obtain ⟨phase', tune', run', restore', rfl, hphase', htune', hrun', hrestore'⟩ := hw'
  obtain rfl : run = run' := by
    rw [hr.count] at hrun
    exact Except.ok.inj (hrun.symm.trans hrun')
  have hrun₂ : Word.SamePlay m m' run run := .of_silent (Modulator.silent (x := pure r'.count) hrun')
  have hmiddle : List.Forall₂ (Word.SamePlay m m') [run, r.word] [run, r'.word] :=
    .cons hrun₂ (.cons hr.samePlay .nil)
  exact List.rel_append (List.rel_append (List.rel_append (optionally_forall₂ hphase hphase')
    (optionally_forall₂ htune htune')) hmiddle) (optionally_forall₂ hrestore hrestore')

/-- What an element becomes differs at most in addresses. -/
theorem element (h : c.Relocates m m' library) {channel : Channel} {e : Entry} {em em' : Emission}
    (hem : c.element channel e = .ok em) (hem' : (c.withLibrary library).element channel e = .ok em') :
    List.Forall₂ (Word.SamePlay m m') em.words em'.words := by
  rcases element_cases hem with ⟨p, rfl, hp⟩ | ⟨f, w, rfl, hw, rfl⟩
  · obtain ⟨r, hr, _, hwords⟩ := pulse_eq_ok hp
    obtain ⟨r', hr', _, hwords'⟩ := pulse_eq_ok hem'
    have hrel := h.record hr hr'
    cases hkind : channel.isAnalog with
    | true =>
      rw [hkind, if_pos rfl] at hwords hwords'
      exact analogWords hrel hwords hwords'
    | false =>
      rw [hkind, if_neg Bool.false_ne_true] at hwords hwords'
      rw [hwords, hwords']
      exact .cons hrel.samePlay .nil
  · obtain rfl := Except.ok.inj (hem.symm.trans hem')
    refine Word.SamePlay.forall₂_of_silent fun w' hw' => ?_
    obtain rfl := List.mem_singleton.1 hw'
    exact Modulator.silent hw

/-- Both libraries have the same schedule, so the elements come in the same order. -/
theorem serialize (h : c.Relocates m m' library) {b : Block} (hcount : c.Counted b)
    (hcount' : (c.withLibrary library).Counted b) {s s' : Stream} (hs : c.serialize b = .ok s)
    (hs' : (c.withLibrary library).serialize b = .ok s') :
    List.Forall₂ (Word.SamePlay m m') s.words s'.words := by
  obtain ⟨ems, hems, hwords⟩ := serialize_eq_ok hcount hs
  obtain ⟨ems', hems', hwords'⟩ := serialize_eq_ok hcount' hs'
  rw [h.schedule b] at hems'
  rw [hwords, hwords']
  have hrelated : List.Forall₂ (fun em em' => List.Forall₂ (Word.SamePlay m m') em.words em'.words)
      ems ems' := forall₂_of_mapM hems hems' fun _ _ _ _ hem hem' => h.element hem hem'
  exact List.rel_flatMap hrelated fun _ _ hem => hem

/-- What an entry becomes differs at most in addresses. -/
theorem entryWords (h : c.Relocates m m' library) (hcount : ∀ b, c.Counted b)
    (hcount' : ∀ b, (c.withLibrary library).Counted b) {prologue : List Word}
    (hprologue : c.prologue = .ok prologue) {e : Entry} {words words' : List Word}
    (hw : c.entryWords prologue e = .ok words)
    (hw' : (c.withLibrary library).entryWords prologue e = .ok words') :
    List.Forall₂ (Word.SamePlay m m') words words' := by
  rcases entryWords_eq_ok hw with ⟨b, s, rfl, hs, rfl⟩ | ⟨f, w, rfl, hf, hwords⟩
  · obtain ⟨s', hs', rfl⟩ := map_eq_ok.1 hw'
    exact h.serialize (hcount b) (hcount' b) hs hs'
  · have hflow : (c.withLibrary library).entryWords prologue (.flow f) =
        c.entryWords prologue (.flow f) := by cases f <;> rfl
    rw [hflow] at hw'
    obtain rfl := Except.ok.inj (hw.symm.trans hw')
    refine Word.SamePlay.forall₂_of_silent fun x hx => ?_
    rw [hwords] at hx
    split at hx
    · rcases List.mem_append.1 hx with hx | hx
      · exact prologue_silent hprologue x hx
      · exact List.mem_singleton.1 hx ▸ Flow.silent hf
    · exact List.mem_singleton.1 hx ▸ Flow.silent hf

end Relocates

end Context

/-- **The order of the listing shows in addresses only.** Two listings of the same pulses give programs of
the same words but for the addresses of waveforms, and what stands at these addresses is the same. -/
theorem compile_relisted {entries : List Entry} {map : ChannelMap} {pulses pulses' : Repertoire}
    {settings : Settings} {prog prog' : Program} {t t' : Session} (hsame : SamePulses map pulses pulses')
    (huid : Numbered map pulses) (h : compile entries map (some pulses) settings = .ok prog t)
    (h' : compile entries map (some pulses') settings = .ok prog' t') :
    prog.words.length = prog'.words.length ∧
      List.Forall₂ (Word.SamePlay prog.memory prog'.memory) prog.words prog'.words := by
  obtain ⟨_, ⟨s, hencode, hmemory, hlibrary⟩, prologue, parts, hprologue, hparts, hwords⟩ :=
    compile_eq_ok h
  obtain ⟨_, ⟨s', hencode', hmemory', hlibrary'⟩, prologue', parts', hprologue', hparts', hwords'⟩ :=
    compile_eq_ok h'
  obtain rfl : prologue = prologue' := Except.ok.inj (hprologue.symm.trans hprologue')
  have hrelocates : (map.context prog.library settings).Relocates prog.memory prog'.memory
      prog'.library := by
    intro n
    rw [← hmemory, ← hmemory', ← hlibrary']
    have hrel := encodeRepertoire_relisted hsame huid hencode hencode' n
    rw [hlibrary] at hrel
    exact hrel
  have hrelated : List.Forall₂ (List.Forall₂ (Word.SamePlay prog.memory prog'.memory)) parts parts' :=
    forall₂_of_mapM hparts hparts' fun _ _ _ _ hw hw' =>
      hrelocates.entryWords (compile_counted h) (compile_counted h') hprologue hw hw'
  have hall : List.Forall₂ (Word.SamePlay prog.memory prog'.memory) prog.words prog'.words := by
    rw [hwords, hwords']
    exact List.rel_flatten hrelated
  exact ⟨hall.length_eq, hall⟩

/-- Both pulses of the analog channel, one of them twice. -/
def twiceListed : Repertoire := .ofList
  [(.analog "q" 0.0 0, [sharedPulse, ownPulse, sharedPulse]), (.marker "m", [sharedPulse])]

/-- The same pulses the other way round. -/
def reverseListed : Repertoire := .ofList
  [(.analog "q" 0.0 0, [ownPulse, sharedPulse]), (.marker "m", [sharedPulse, sharedPulse])]

theorem forall_mem_sharedMap {P : Channel → Prop} (hanalog : P (.analog "q" 0.0 0))
    (hmarker : P (.marker "m")) : ∀ c ∈ sharedMap.channels, P c := by
  intro c hc
  rcases List.mem_cons.1 hc with rfl | hc
  · exact hanalog
  · exact List.mem_singleton.1 hc ▸ hmarker

theorem twiceListed_samePulses : SamePulses sharedMap twiceListed reverseListed := by
  have hanalog : twiceListed.on (.analog "q" 0.0 0) = [sharedPulse, ownPulse, sharedPulse] := rfl
  have hanalog' : reverseListed.on (.analog "q" 0.0 0) = [ownPulse, sharedPulse] := rfl
  have hmarker : twiceListed.on (.marker "m") = [sharedPulse] := rfl
  have hmarker' : reverseListed.on (.marker "m") = [sharedPulse, sharedPulse] := rfl
  refine forall_mem_sharedMap (fun p => ?_) (fun p => ?_)
  · rw [hanalog, hanalog']
    simp only [List.mem_cons, List.not_mem_nil, or_false]
    tauto
  · rw [hmarker, hmarker']
    simp

theorem twiceListed_numbered : Numbered sharedMap twiceListed := by
  have hanalog : twiceListed.on (.analog "q" 0.0 0) = [sharedPulse, ownPulse, sharedPulse] := rfl
  have hmarker : twiceListed.on (.marker "m") = [sharedPulse] := rfl
  refine forall_mem_sharedMap (fun p hp q hq huid => ?_) (fun p hp q hq _ => ?_)
  · rw [hanalog] at hp hq
    simp only [List.mem_cons, List.not_mem_nil, or_false] at hp hq
    have hne : sharedPulse.uid ≠ ownPulse.uid := by decide
    rcases hp with rfl | rfl | rfl <;> rcases hq with rfl | rfl | rfl <;>
      simp_all
  · rw [hmarker] at hp hq
    rw [List.mem_singleton.1 hp, List.mem_singleton.1 hq]

theorem compile_relisted_twice :
    SamePulses sharedMap twiceListed reverseListed ∧ Numbered sharedMap twiceListed ∧
      ∃ prog t prog' t', compile [.block sharedBlock] sharedMap (some twiceListed) {} = .ok prog t ∧
        compile [.block sharedBlock] sharedMap (some reverseListed) {} = .ok prog' t' ∧
        prog.words[4]? = some 0x0d00000000000001 ∧ prog'.words[4]? = some 0x0d00000000000000 ∧
        prog.memory.size = 12 ∧ prog'.memory.size = 8 ∧
        List.Forall₂ (Word.SamePlay prog.memory prog'.memory) prog.words prog'.words := by
  have hrun : (Encoder.value? (compile [.block sharedBlock] sharedMap (some twiceListed) {})).map
      (fun prog => (prog.words[4]?, prog.memory.size)) = some (some 0x0d00000000000001, 12) := by
    decide +kernel
  have hrun' : (Encoder.value? (compile [.block sharedBlock] sharedMap (some reverseListed) {})).map
      (fun prog => (prog.words[4]?, prog.memory.size)) = some (some 0x0d00000000000000, 8) := by
    decide +kernel
  obtain ⟨prog, t, h, hprog⟩ := Encoder.exists_of_value? hrun
  obtain ⟨prog', t', h', hprog'⟩ := Encoder.exists_of_value? hrun'
  obtain ⟨hword, hsize⟩ := Prod.mk.inj hprog
  obtain ⟨hword', hsize'⟩ := Prod.mk.inj hprog'
  obtain ⟨_, hall⟩ := compile_relisted twiceListed_samePulses twiceListed_numbered h h'
  exact ⟨twiceListed_samePulses, twiceListed_numbered, prog, t, prog', t', h, h', hword, hword', hsize,
    hsize', hall⟩

/-! ## Copies of a pulse -/

/-- A copy of a pulse at half the amplitude. It keeps the number of the pulse. -/
def halvedPulse : Pulse := { sharedPulse with amp := 0.5 }

def pulseThenCopy : Repertoire := .ofList [(.analog "q" 0.0 0, [sharedPulse, halvedPulse])]

def copyThenPulse : Repertoire := .ofList [(.analog "q" 0.0 0, [halvedPulse, sharedPulse])]

/-- A block that plays the pulse and not its copy. -/
def pulseBlock : Block := .ofList [(.analog "q" 0.0 0, [.pulse sharedPulse])]

theorem pulseThenCopy_samePulses : SamePulses sharedMap pulseThenCopy copyThenPulse := by
  have hanalog : pulseThenCopy.on (.analog "q" 0.0 0) = [sharedPulse, halvedPulse] := rfl
  have hanalog' : copyThenPulse.on (.analog "q" 0.0 0) = [halvedPulse, sharedPulse] := rfl
  have hmarker : pulseThenCopy.on (.marker "m") = [] := rfl
  have hmarker' : copyThenPulse.on (.marker "m") = [] := rfl
  refine forall_mem_sharedMap (fun p => ?_) (fun p => ?_)
  · rw [hanalog, hanalog', List.mem_pair, List.mem_pair, or_comm]
  · rw [hmarker, hmarker']

/-- Two listings of a pulse and its copy give the same words, and one of them plays the pulse at half its
amplitude. -/
theorem compile_relisted_copies :
    SamePulses sharedMap pulseThenCopy copyThenPulse ∧
      ∃ prog t prog' t', compile [.block pulseBlock] sharedMap (some pulseThenCopy) {} = .ok prog t ∧
        compile [.block pulseBlock] sharedMap (some copyThenPulse) {} = .ok prog' t' ∧
        prog.words = [0xa100010000000000, 0x0d00000000000001] ∧ prog'.words = prog.words ∧
        Word.addressed prog.memory 0x0d00000000000001 = [⟨2048, 0⟩, ⟨1024, 0⟩, ⟨512, 0⟩, ⟨0, 0⟩] ∧
        Word.addressed prog'.memory 0x0d00000000000001 = [⟨4096, 0⟩, ⟨2048, 0⟩, ⟨1024, 0⟩, ⟨0, 0⟩] ∧
        ¬ List.Forall₂ (Word.SamePlay prog.memory prog'.memory) prog.words prog'.words := by
  have hrun : (Encoder.value? (compile [.block pulseBlock] sharedMap (some pulseThenCopy) {})).map
      (fun prog => (prog.words, Word.addressed prog.memory 0x0d00000000000001)) =
        some ([0xa100010000000000, 0x0d00000000000001],
          [⟨2048, 0⟩, ⟨1024, 0⟩, ⟨512, 0⟩, ⟨0, 0⟩]) := by
    decide +kernel
  have hrun' : (Encoder.value? (compile [.block pulseBlock] sharedMap (some copyThenPulse) {})).map
      (fun prog => (prog.words, Word.addressed prog.memory 0x0d00000000000001)) =
        some ([0xa100010000000000, 0x0d00000000000001],
          [⟨4096, 0⟩, ⟨2048, 0⟩, ⟨1024, 0⟩, ⟨0, 0⟩]) := by
    decide +kernel
  obtain ⟨prog, t, h, hprog⟩ := Encoder.exists_of_value? hrun
  obtain ⟨prog', t', h', hprog'⟩ := Encoder.exists_of_value? hrun'
  obtain ⟨hwords, hcells⟩ := Prod.mk.inj hprog
  obtain ⟨hwords', hcells'⟩ := Prod.mk.inj hprog'
  refine ⟨pulseThenCopy_samePulses, prog, t, prog', t', h, h', hwords, hwords'.trans hwords.symm, hcells,
    hcells', fun hall => ?_⟩
  -- the second word is a waveform, and the two programs have different cells at its address
  rw [hwords, hwords'] at hall
  obtain ⟨_, hall⟩ := List.forall₂_cons.1 hall
  have hplay := (List.forall₂_cons.1 hall).1.cells (by decide)
  rw [hcells, hcells'] at hplay
  exact absurd hplay (by decide)

end PulseSequencer
