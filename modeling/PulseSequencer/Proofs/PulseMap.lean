import PulseSequencer.Proofs.Addresses

/-!
# Other pulses in the same places

What a compilation makes of its input does not change, or changes only in some words, if its pulses are
replaced by ones that are encoded alike. Two inputs are compared through what both become when a function
is applied to all their pulses, and two programs through what a view leaves of their words.

* `Entry.mapPulses`, `SameUpTo` — pulses replaced throughout, and inputs that become the same.
* `Transparent` — pulses are replaced by ones that are encoded alike; `encodeRepertoire_of_on_eq`.
* `merge_view` — a view of the words of all elements is a view of the words of the merge.
* `Context.Hides` — the view of an element does not show the replacement; `Context.Hides.parts`.
* `compile_same` — what two programs of inputs that become the same have in common.
-/

namespace PulseSequencer

universe u v w

/-! ## Pulses replaced throughout an input -/

/-- A table with every value changed. -/
def Table.mapValues {κ : Type u} {α : Type v} {β : Type w} (g : α → β) (t : Table κ α) : Table κ β :=
  ⟨t.entries.map fun e => (e.1, g e.2)⟩

theorem Table.find?_mapValues {κ : Type u} {α : Type v} {β : Type w} [BEq κ] (g : α → β)
    (t : Table κ α) (k : κ) : (t.mapValues g).find? k = (t.find? k).map g := by
  unfold find? mapValues
  rw [List.find?_map, Option.map_map, Option.map_map]
  rfl

namespace Entry

mutual

/-- An entry with every pulse replaced, also in blocks that stand in lanes. -/
def mapPulses (f : Pulse → Pulse) : Entry → Entry
  | .pulse p => .pulse (f p)
  | .frame x => .frame x
  | .flow x => .flow x
  | .block ⟨lanes⟩ => .block ⟨mapLanes f lanes⟩
  | .foreign content => .foreign content

def mapEntries (f : Pulse → Pulse) : List Entry → List Entry
  | [] => []
  | e :: es => mapPulses f e :: mapEntries f es

def mapLanes (f : Pulse → Pulse) : List (Channel × List Entry) → List (Channel × List Entry)
  | [] => []
  | (c, es) :: lanes => (c, mapEntries f es) :: mapLanes f lanes

end

theorem mapEntries_eq (f : Pulse → Pulse) (es : List Entry) :
    mapEntries f es = es.map (mapPulses f) := by
  induction es with
  | nil => rfl
  | cons e es ih => rw [mapEntries, ih, List.map_cons]

theorem mapLanes_eq (f : Pulse → Pulse) (lanes : List (Channel × List Entry)) :
    mapLanes f lanes = lanes.map fun lane => (lane.1, lane.2.map (mapPulses f)) := by
  induction lanes with
  | nil => rfl
  | cons lane lanes ih => rw [mapLanes, ih, mapEntries_eq, List.map_cons]

theorem mapPulses_block (f : Pulse → Pulse) (b : Block) :
    (Entry.block b).mapPulses f = .block (b.mapValues (List.map (mapPulses f))) := by
  rw [mapPulses, mapLanes_eq]
  rfl

end Entry

/-- The elements of a block on a channel, with every pulse replaced. -/
theorem Block.on_mapValues (g : Entry → Entry) (b : Block) (c : Channel) :
    Block.on (b.mapValues (List.map g)) c = (b.on c).map g := by
  unfold Block.on
  rw [Table.find?_mapValues]
  cases b.find? c <;> rfl

/-- A repertoire with every pulse replaced. -/
def Repertoire.mapPulses (f : Pulse → Pulse) (r : Repertoire) : Repertoire := r.mapValues (List.map f)

theorem Repertoire.on_mapPulses (f : Pulse → Pulse) (r : Repertoire) (c : Channel) :
    (r.mapPulses f).on c = (r.on c).map f := by
  unfold on mapPulses
  rw [Table.find?_mapValues]
  cases r.find? c <;> rfl

/-- Two inputs that become the same when `f` is applied to their pulses. -/
structure SameUpTo (f : Pulse → Pulse) (entries entries' : List Entry)
    (pulses pulses' : Option Repertoire) : Prop where
  entries_eq : entries.map (Entry.mapPulses f) = entries'.map (Entry.mapPulses f)
  pulses_eq : pulses.map (Repertoire.mapPulses f) = pulses'.map (Repertoire.mapPulses f)

/-! ## The repertoire -/

theorem Entry.pulse?_mapPulses (f : Pulse → Pulse) (e : Entry) :
    (e.mapPulses f).pulse? = e.pulse?.map f := by
  cases e with
  | block b => rw [mapPulses_block]; rfl
  | _ => rfl

theorem Entry.pulsesOn_mapPulses (f : Pulse → Pulse) (e : Entry) (c : Channel) :
    (e.mapPulses f).pulsesOn c = (e.pulsesOn c).map f := by
  cases e with
  | block b =>
    rw [mapPulses_block]
    simp only [pulsesOn, Block.pulsesOn, Block.on_mapValues, List.filterMap_map, List.map_filterMap,
      Function.comp_def, pulse?_mapPulses]
  | _ => rfl

theorem playedOn_mapPulses (f : Pulse → Pulse) (entries : List Entry) (c : Channel) :
    playedOn (entries.map (Entry.mapPulses f)) c = (playedOn entries c).map f := by
  simp only [playedOn, List.flatMap_map, List.map_flatMap, Entry.pulsesOn_mapPulses]

/-- Pulses that keep their numbers are distinct as before. -/
theorem distinct_map {f : Pulse → Pulse} (huid : ∀ p, (f p).uid = p.uid) (ps : List Pulse) :
    distinct (ps.map f) = (distinct ps).map f := by
  have hstep : ∀ (done : List Pulse) (p : Pulse),
      addPulse (done.map f) (f p) = (addPulse done p).map f := by
    intro done p
    unfold addPulse
    simp only [List.any_map, Function.comp_def, huid]
    split
    · rfl
    · rw [List.map_append, List.map_singleton]
  have hfold : ∀ (ps done : List Pulse),
      (ps.map f).foldl addPulse (done.map f) = (ps.foldl addPulse done).map f := by
    intro ps
    induction ps with
    | nil => intro done; rfl
    | cons p ps ih =>
      intro done
      rw [List.map_cons, List.foldl_cons, List.foldl_cons, hstep, ih]
  exact hfold ps []

/-- Every pulse is replaced by one that has its number and is encoded like it. -/
structure Transparent (settings : Settings) (f : Pulse → Pulse) : Prop where
  uid : ∀ p, (f p).uid = p.uid
  encode : ∀ o p, encodePulse settings o (f p) = encodePulse settings o p

/-- The repertoire of an input, given or collected, with every pulse replaced. -/
theorem on_getD_collect {f : Pulse → Pulse} (huid : ∀ p, (f p).uid = p.uid) (entries : List Entry)
    (map : ChannelMap) (pulses : Option Repertoire) {x : Output × Channel} (hx : x ∈ map.outputs) :
    ((pulses.map (Repertoire.mapPulses f)).getD
        (collect (entries.map (Entry.mapPulses f)) map.channels)).on x.2 =
      ((pulses.getD (collect entries map.channels)).on x.2).map f := by
  cases pulses with
  | none =>
    change (collect _ map.channels).on x.2 = ((collect entries map.channels).on x.2).map f
    rw [collect_on_output hx, collect_on_output hx, playedOn_mapPulses, distinct_map huid]
  | some r => exact r.on_mapPulses f x.2

/-- The encoding of a repertoire does not depend on pulses that are encoded alike. -/
theorem encodeRepertoire_of_on_eq {settings : Settings} {f : Pulse → Pulse}
    (hf : Transparent settings f) {map : ChannelMap} {r r' : Repertoire}
    (hon : ∀ x ∈ map.outputs, r'.on x.2 = (r.on x.2).map f) :
    encodeRepertoire settings map r' = encodeRepertoire settings map r := by
  rw [encodeRepertoire_eq, encodeRepertoire_eq]
  apply Encoder.forM_congr
  intro x hx
  rw [hon x hx, List.forM_eq_forM, List.forM_map]
  simp only [hf.encode]

/-! ## Views of words -/

theorem merge_of_nextStart_none {lanes : List Lane} (h : nextStart lanes = none) :
    merge lanes = .ok ([], lanes) := by
  rw [merge]
  split
  · rfl
  · rename_i hs
    rw [h] at hs
    cases hs

theorem merge_of_nextStart_some {lanes : List Lane} {t : Int} (h : nextStart lanes = some t) :
    merge lanes = round t lanes >>= fun r => (merge r.2).map fun m => (r.1 :: m.1, m.2) := by
  rw [merge]
  split
  · rename_i hs
    rw [h] at hs
    cases hs
  · rename_i t' hs
    obtain rfl : t' = t := Option.some.inj (hs.symm.trans h)
    split
    · rename_i hr
      rw [hr]
      rfl
    · rename_i words rest hr
      change (merge rest >>= _) = _
      rw [hr]
      change (merge rest >>= _) = (merge rest).map _
      cases merge rest <;> rfl

section

variable (v : Word → Option Word)

/-- An emission through a view of its words. -/
def Emission.view (em : Emission) : Emission := ⟨em.words.filterMap v, em.duration⟩

/-- A lane through a view of the words to come. -/
def Lane.view (l : Lane) : Lane := ⟨l.clock, l.pending.map (·.map (Emission.view v))⟩

theorem nextStart_view (lanes : List Lane) : nextStart (lanes.map (Lane.view v)) = nextStart lanes := by
  unfold nextStart
  rw [List.filter_map, List.map_map]
  simp [Function.comp_def, Lane.view]

theorem round_view (t : Int) (lanes : List Lane) :
    round t (lanes.map (Lane.view v)) =
      (round t lanes).map fun r => (r.1.filterMap v, r.2.map (Lane.view v)) := by
  fun_induction round t lanes with
  | case1 => rfl
  | case2 clock lanes ih =>
    rw [List.map_cons, Lane.view, List.map_nil, round, ih]
    cases round t lanes <;> rfl
  | case3 clock e es lanes hlt ih =>
    rw [List.map_cons, Lane.view, List.map_cons, round, if_pos hlt, ih]
    cases round t lanes <;> rfl
  | case4 clock e es lanes hlt ih =>
    rw [List.map_cons, Lane.view, List.map_cons, round, if_neg hlt, ih]
    cases e with
    | error f => rfl
    | ok em =>
      cases round t lanes with
      | error f => rfl
      | ok r => exact congrArg Except.ok (Prod.ext List.filterMap_append.symm rfl)

/-- **A view of all elements is a view of their merge**, or both have the same fault. -/
theorem merge_view (lanes : List Lane) :
    merge (lanes.map (Lane.view v)) =
      (merge lanes).map fun r => (r.1.map (List.filterMap v), r.2.map (Lane.view v)) := by
  fun_induction merge lanes with
  | case1 lanes hs =>
    rw [merge_of_nextStart_none ((nextStart_view v lanes).trans hs)]
    rfl
  | case2 lanes t hs f hr =>
    rw [merge_of_nextStart_some ((nextStart_view v lanes).trans hs), round_view, hr]
    rfl
  | case3 lanes t hs words rest hr _ ih =>
    rw [merge_of_nextStart_some ((nextStart_view v lanes).trans hs), round_view, hr]
    change (merge (rest.map (Lane.view v))).map _ = _
    rw [ih]
    cases merge rest <;> rfl

end

/-! ## Words of an input whose pulses are replaced -/

namespace Context

variable {c : Context} {f : Pulse → Pulse} {v : Word → Option Word}

/-- Through the view, the words of a pulse do not show that it was replaced. -/
def Hides (c : Context) (f : Pulse → Pulse) (v : Word → Option Word) : Prop :=
  ∀ channel p em, c.pulse channel p = .ok em →
    ∃ em', c.pulse channel (f p) = .ok em' ∧ em'.view v = em.view v

/-- Only the words of the modulator can show that a pulse was replaced by one with its number. -/
theorem hides_of_analogWords (huid : ∀ p, (f p).uid = p.uid)
    (h : ∀ p r words, c.AnalogWords p r words →
      ∃ words', c.AnalogWords (f p) r words' ∧ words'.filterMap v = words.filterMap v) :
    c.Hides f v := by
  intro channel p em hp
  obtain ⟨r, hr, hduration, hwords⟩ := pulse_eq_ok hp
  have hr' : c.library.record (f p) = .ok r := by
    rw [Library.record_eq_ok] at hr ⊢
    rw [huid, hr]
  split at hwords
  · rename_i hchannel
    obtain ⟨words', hwords', hview⟩ := h p r em.words hwords
    refine ⟨_, pulse_of_words hr' (by rw [if_pos hchannel]; exact hwords'), ?_⟩
    simp only [Emission.view, hview, hduration]
  · rename_i hchannel
    refine ⟨_, pulse_of_words hr' (by rw [if_neg hchannel]), ?_⟩
    simp only [Emission.view, hwords, hduration]

theorem Hides.element (h : c.Hides f v) {channel : Channel} {e : Entry} {em : Emission}
    (he : c.element channel e = .ok em) :
    ∃ em', c.element channel (e.mapPulses f) = .ok em' ∧ em'.view v = em.view v := by
  rcases element_cases he with ⟨p, rfl, hp⟩ | ⟨x, w, rfl, _, _⟩
  · exact h channel p em hp
  · exact ⟨em, he, rfl⟩

/-- Every element of a block that has a stream has words. -/
theorem exists_element_of_serialize {b : Block} {s : Stream} (h : c.serialize b = .ok s)
    {channel : Channel} (hchannel : channel ∈ c.channels) {e : Entry} (he : e ∈ b.on channel) :
    ∃ em, c.element channel e = .ok em := by
  obtain ⟨⟨rounds, final⟩, hmerge, _⟩ := bind_eq_ok.1 h
  obtain ⟨ems, _, hperm⟩ := merge_perm hmerge
  have hpending : c.element channel e ∈ (c.channels.map (c.lane b)).flatMap Lane.pending :=
    List.mem_flatMap.2 ⟨c.lane b channel, List.mem_map_of_mem hchannel, List.mem_map_of_mem he⟩
  obtain ⟨em, _, hem⟩ := List.mem_map.1 (hperm.mem_iff.2 hpending)
  exact ⟨em, hem.symm⟩

theorem Hides.lane (h : c.Hides f v) {b : Block} {channel : Channel}
    (hall : ∀ e ∈ b.on channel, ∃ em, c.element channel e = .ok em) :
    (c.lane (b.mapValues (List.map (Entry.mapPulses f))) channel).view v =
      (c.lane b channel).view v := by
  simp only [Context.lane, Lane.view, Block.on_mapValues, List.map_map]
  congr 1
  apply List.map_congr_left
  intro e he
  obtain ⟨em, hem⟩ := hall e he
  obtain ⟨em', hem', hview⟩ := h.element hem
  simp only [Function.comp_apply, hem, hem', Except.map, hview]

/-- **The stream of a block whose pulses are replaced** exists if that of the block does, and both look
the same through the view. -/
theorem Hides.serialize (h : c.Hides f v) {b : Block} {s : Stream} (hs : c.serialize b = .ok s) :
    ∃ s', c.serialize (b.mapValues (List.map (Entry.mapPulses f))) = .ok s' ∧
      s'.words.filterMap v = s.words.filterMap v := by
  have hlanes :
      (c.channels.map (c.lane (b.mapValues (List.map (Entry.mapPulses f))))).map (Lane.view v) =
        (c.channels.map (c.lane b)).map (Lane.view v) := by
    rw [List.map_map, List.map_map]
    apply List.map_congr_left
    intro channel hchannel
    exact h.lane fun e he => exists_element_of_serialize hs hchannel he
  obtain ⟨⟨rounds, final⟩, hmerge, hs⟩ := bind_eq_ok.1 hs
  obtain rfl := pure_eq_ok.1 hs
  have hview := merge_view v (c.channels.map (c.lane (b.mapValues (List.map (Entry.mapPulses f)))))
  rw [hlanes, merge_view, hmerge] at hview
  obtain ⟨⟨rounds', final'⟩, hmerge', hrounds⟩ := map_eq_ok.1 hview.symm
  have hwords : rounds'.map (List.filterMap v) = rounds.map (List.filterMap v) :=
    congrArg Prod.fst hrounds
  refine ⟨⟨rounds'.flatten, final'.map (·.clock)⟩, bind_eq_ok.2 ⟨_, hmerge', rfl⟩, ?_⟩
  rw [List.filterMap_flatten, List.filterMap_flatten, hwords]

theorem Hides.entryWords (h : c.Hides f v) {prologue words : List Word} {e : Entry}
    (hwords : c.entryWords prologue e = .ok words) :
    ∃ words', c.entryWords prologue (e.mapPulses f) = .ok words' ∧
      words'.filterMap v = words.filterMap v := by
  rcases entryWords_eq_ok hwords with ⟨b, s, rfl, hs, rfl⟩ | ⟨x, w, rfl, _, _⟩
  · obtain ⟨s', hs', hview⟩ := h.serialize hs
    rw [Entry.mapPulses_block]
    exact ⟨s'.words, map_eq_ok.2 ⟨s', hs', rfl⟩, hview⟩
  · exact ⟨words, hwords, rfl⟩

/-- Entry after entry. -/
theorem Hides.parts (h : c.Hides f v) {prologue : List Word} {entries : List Entry}
    {parts : List (List Word)} (hparts : entries.mapM (c.entryWords prologue) = .ok parts) :
    ∃ parts', (entries.map (Entry.mapPulses f)).mapM (c.entryWords prologue) = .ok parts' ∧
      parts'.flatten.filterMap v = parts.flatten.filterMap v := by
  induction entries generalizing parts with
  | nil =>
    obtain rfl := pure_eq_ok.1 hparts
    exact ⟨[], rfl, rfl⟩
  | cons e entries ih =>
    rw [List.mapM_cons] at hparts
    obtain ⟨words, hwords, hparts⟩ := bind_eq_ok.1 hparts
    obtain ⟨later, hlater, hparts⟩ := bind_eq_ok.1 hparts
    obtain rfl := pure_eq_ok.1 hparts
    obtain ⟨words', hwords', hview⟩ := h.entryWords hwords
    obtain ⟨later', hlater', hviews⟩ := ih hlater
    refine ⟨words' :: later', ?_, ?_⟩
    · rw [List.map_cons, List.mapM_cons, hwords', hlater']
      rfl
    · rw [List.flatten_cons, List.flatten_cons, List.filterMap_append, List.filterMap_append, hview,
        hviews]

end Context

/-- **Programs of inputs that become the same.** If pulses are replaced by ones that are encoded alike,
and the view does not show it, then the programs have the same memory and library, and look the same. -/
theorem compile_same {f : Pulse → Pulse} {v : Word → Option Word} {entries entries' : List Entry}
    {map : ChannelMap} {pulses pulses' : Option Repertoire} {settings : Settings} {prog prog' : Program}
    {t t' : Session} (hf : Transparent settings f)
    (hv : ∀ library, (map.context library settings).Hides f v)
    (hsame : SameUpTo f entries entries' pulses pulses')
    (h : compile entries map pulses settings = .ok prog t)
    (h' : compile entries' map pulses' settings = .ok prog' t') :
    prog'.memory = prog.memory ∧ prog'.library = prog.library ∧
      prog'.words.filterMap v = prog.words.filterMap v := by
  obtain ⟨_, ⟨s, hencode, hmem, hlib⟩, prologue, parts, hprologue, hparts, hwords⟩ := compile_eq_ok h
  obtain ⟨_, ⟨s', hencode', hmem', hlib'⟩, prologue', parts', hprologue', hparts', hwords'⟩ :=
    compile_eq_ok h'
  -- both repertoires are encoded like the one that both become
  have hon := fun x hx => @on_getD_collect f hf.uid entries map pulses x hx
  have hon' := fun x hx => @on_getD_collect f hf.uid entries' map pulses' x hx
  rw [← encodeRepertoire_of_on_eq hf hon, hsame.entries_eq, hsame.pulses_eq,
    encodeRepertoire_of_on_eq hf hon', hencode'] at hencode
  obtain rfl : s' = s := (EStateM.Result.ok.inj hencode).2
  have hlibrary : prog'.library = prog.library := hlib'.symm.trans hlib
  rw [hlibrary] at hprologue' hparts'
  obtain rfl : prologue' = prologue := Except.ok.inj (hprologue'.symm.trans hprologue)
  obtain ⟨common, hcommon, hview⟩ := (hv prog.library).parts hparts
  obtain ⟨common', hcommon', hview'⟩ := (hv prog.library).parts hparts'
  rw [hsame.entries_eq, hcommon'] at hcommon
  obtain rfl := Except.ok.inj hcommon
  refine ⟨hmem'.symm.trans hmem, hlibrary, ?_⟩
  rw [hwords, hwords', ← hview, ← hview']

end PulseSequencer
