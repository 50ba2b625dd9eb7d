import PulseSequencer.Program

/-!
# The pulses that a sequence plays

* `Table.find?_insert` — look-ups after an insertion, for keys that are equal by a relation only.
* `Table.keys_insert`, `Table.nodup_keys_insert`, `Table.find?_of_mem` — a key is listed once, with the
  value that is found.
* `playedOn` — the pulses that a sequence plays on a channel, in order and with repetitions.
* `distinct` — the first pulse of each number.
* `collect_on` — the repertoire of a sequence lists the distinct pulses of each channel.
-/

namespace PulseSequencer

universe u v

/-! ## Tables -/

theorem nodup_append_singleton {κ : Type u} {ks : List κ} {k : κ} (h : ks.Nodup) (hk : k ∉ ks) :
    (ks ++ [k]).Nodup := by
  refine List.nodup_append.2 ⟨h, List.pairwise_singleton _ k, ?_⟩
  intro x hx y hy hxy
  rw [List.mem_singleton.1 hy] at hxy
  exact hk (hxy ▸ hx)

namespace Table

variable {κ : Type u} {α : Type v} [BEq κ]

/-- A new key is listed last; a key that is equal to one that is there leaves the keys as they are. -/
theorem keys_insert_any (t : Table κ α) (k : κ) (a : α) :
    (t.insert k a).keys = if t.keys.any (· == k) then t.keys else t.keys ++ [k] := by
  obtain ⟨es⟩ := t
  simp only [insert, keys]
  induction es with
  | nil => simp [insertEntry]
  | cons e es ih =>
    simp only [insertEntry]
    cases hek : e.1 == k with
    | true => simp [hek]
    | false =>
      cases hlater : (es.map (·.1)).any (· == k) with
      | true => simpa [hek, hlater] using ih
      | false => simpa [hek, hlater] using ih

theorem isSome_find? (t : Table κ α) (k : κ) : (t.find? k).isSome = t.keys.any (· == k) := by
  rw [find?, keys, Option.isSome_map, List.isSome_find?, List.any_map]
  rfl

end Table

namespace Table

variable {κ : Type u} {α : Type v} [BEq κ] [EquivBEq κ]

theorem find?_congr (t : Table κ α) {k k' : κ} (h : (k == k') = true) : t.find? k = t.find? k' := by
  unfold find?
  congr 2
  funext e
  exact BEq.congr_right h

theorem find?_insert (t : Table κ α) (k k' : κ) (a : α) :
    (t.insert k a).find? k' = if k == k' then some a else t.find? k' := by
  obtain ⟨es⟩ := t
  simp only [insert, find?]
  induction es with
  | nil => cases h : k == k' <;> simp [insertEntry, h]
  | cons e es ih =>
    simp only [insertEntry]
    cases hek : e.1 == k with
    | true =>
      have hcongr : (e.1 == k') = (k == k') := BEq.congr_left hek
      cases h : k == k' <;> simp [hcongr, h]
    | false =>
      cases hek' : e.1 == k' with
      | true =>
        have hne : (k == k') = false := by
          cases h : k == k' with
          | false => rfl
          | true => rw [BEq.trans hek' (BEq.symm h)] at hek; cases hek
        simp [hek', hne]
      | false => simpa [hek'] using ih

end Table

namespace Table

variable {κ : Type u} {α : Type v} [BEq κ] [LawfulBEq κ] {t : Table κ α}

/-- A new key is listed last; a key that is there keeps its place. -/
theorem keys_insert (k : κ) (a : α) :
    (t.insert k a).keys = if k ∈ t.keys then t.keys else t.keys ++ [k] := by
  rw [keys_insert_any]
  simp

theorem mem_keys_iff {k : κ} : k ∈ t.keys ↔ ∃ a, t.find? k = some a := by
  unfold keys find?
  constructor
  · intro h
    obtain ⟨e, he, rfl⟩ := List.mem_map.1 h
    have hsome : (t.entries.find? (·.1 == e.1)).isSome := List.find?_isSome.2 ⟨e, he, beq_self_eq_true _⟩
    obtain ⟨e', he'⟩ := Option.isSome_iff_exists.1 hsome
    exact ⟨e'.2, by rw [he']; rfl⟩
  · rintro ⟨a, ha⟩
    obtain ⟨e, he, rfl⟩ := Option.map_eq_some_iff.1 ha
    have hkey := List.find?_some he
    rw [beq_iff_eq] at hkey
    exact hkey ▸ List.mem_map_of_mem (List.mem_of_find?_eq_some he)

/-- No key is listed twice. -/
theorem nodup_keys_insert (h : t.keys.Nodup) (k : κ) (a : α) : (t.insert k a).keys.Nodup := by
  rw [keys_insert]
  split
  · exact h
  · rename_i hnew
    exact nodup_append_singleton h hnew

/-- What is listed is found, if no key is listed twice. -/
theorem find?_of_mem (h : t.keys.Nodup) {k : κ} {a : α} (hmem : (k, a) ∈ t.entries) :
    t.find? k = some a := by
  obtain ⟨es⟩ := t
  induction es with
  | nil => cases hmem
  | cons e es ih =>
    obtain ⟨hnot, hrest⟩ := List.nodup_cons.1 h
    rcases List.mem_cons.1 hmem with rfl | hmem
    · simp [find?]
    · have hne : e.1 ≠ k := by
        rintro rfl
        exact hnot (List.mem_map.2 ⟨_, hmem, rfl⟩)
      have hrec := ih hrest hmem
      unfold find? at hrec ⊢
      rw [List.find?_cons_of_neg (by simpa using hne)]
      exact hrec

end Table

instance : EquivBEq Channel where
  rfl := Channel.beq_self _
  symm h := (Channel.beq_iff _ _).2 ((Channel.beq_iff _ _).1 h).symm
  trans h h' := (Channel.beq_iff _ _).2 (((Channel.beq_iff _ _).1 h).trans ((Channel.beq_iff _ _).1 h'))

/-- Equal channels play the same elements. -/
theorem Block.on_congr (b : Block) {c c' : Channel} (h : (c == c') = true) : b.on c = b.on c' := by
  unfold Block.on
  rw [b.find?_congr h]

/-! ## Distinct pulses -/

/-- Lists a pulse, unless one of its number is there already. -/
def addPulse (ps : List Pulse) (p : Pulse) : List Pulse :=
  if ps.any (·.uid == p.uid) then ps else ps ++ [p]

/-- The first pulse of each number. -/
def distinct (ps : List Pulse) : List Pulse := ps.foldl addPulse []

theorem mem_of_mem_addPulse {ps : List Pulse} {p q : Pulse} (h : q ∈ addPulse ps p) :
    q ∈ ps ∨ q = p := by
  unfold addPulse at h
  split at h
  · exact Or.inl h
  · simpa using h

theorem any_addPulse (ps : List Pulse) (p : Pulse) (n : Nat) :
    (addPulse ps p).any (·.uid == n) = (ps.any (·.uid == n) || p.uid == n) := by
  unfold addPulse
  split
  · rename_i h
    cases hp : p.uid == n with
    | false => simp
    | true => rw [← beq_iff_eq.1 hp, h]; rfl
  · simp

theorem any_foldl_addPulse (qs ps : List Pulse) (n : Nat) :
    (qs.foldl addPulse ps).any (·.uid == n) = (ps.any (·.uid == n) || qs.any (·.uid == n)) := by
  induction qs generalizing ps with
  | nil => simp
  | cons q qs ih => rw [List.foldl_cons, ih, any_addPulse, List.any_cons, Bool.or_assoc]

theorem mem_of_mem_foldl_addPulse {q : Pulse} (qs ps : List Pulse) (h : q ∈ qs.foldl addPulse ps) :
    q ∈ ps ∨ q ∈ qs := by
  induction qs generalizing ps with
  | nil => exact Or.inl h
  | cons p qs ih =>
    rcases ih _ h with h | h
    · rcases mem_of_mem_addPulse h with h | rfl
      · exact Or.inl h
      · exact Or.inr List.mem_cons_self
    · exact Or.inr (List.mem_cons_of_mem _ h)

/-- Pulses that are listed already change nothing. -/
theorem foldl_addPulse_of_any (qs ps : List Pulse) (h : ∀ q ∈ qs, ps.any (·.uid == q.uid) = true) :
    qs.foldl addPulse ps = ps := by
  induction qs with
  | nil => rfl
  | cons q qs ih =>
    have hq : addPulse ps q = ps := if_pos (h q List.mem_cons_self)
    rw [List.foldl_cons, hq]
    exact ih fun x hx => h x (List.mem_cons_of_mem _ hx)

theorem foldl_addPulse_twice (qs ps : List Pulse) :
    qs.foldl addPulse (qs.foldl addPulse ps) = qs.foldl addPulse ps := by
  apply foldl_addPulse_of_any
  intro q hq
  rw [any_foldl_addPulse, Bool.or_eq_true]
  exact Or.inr (List.any_eq_true.2 ⟨q, hq, by simp⟩)

theorem mem_of_mem_distinct {p : Pulse} {ps : List Pulse} (h : p ∈ distinct ps) : p ∈ ps := by
  rcases mem_of_mem_foldl_addPulse ps [] h with h | h
  · cases h
  · exact h

/-- Every number that is played is listed. -/
theorem any_distinct (ps : List Pulse) (n : Nat) :
    (distinct ps).any (·.uid == n) = ps.any (·.uid == n) := by
  unfold distinct
  rw [any_foldl_addPulse]
  rfl

theorem exists_mem_distinct {ps : List Pulse} {n : Nat} :
    (∃ p ∈ distinct ps, p.uid = n) ↔ ∃ p ∈ ps, p.uid = n := by
  have h := any_distinct ps n
  rw [Bool.eq_iff_iff, List.any_eq_true, List.any_eq_true] at h
  simpa using h

theorem distinct_append_singleton (ps : List Pulse) (p : Pulse) :
    distinct (ps ++ [p]) = addPulse (distinct ps) p := by
  unfold distinct
  rw [List.foldl_append]
  rfl

theorem mem_map_uid {ps : List Pulse} {n : Nat} :
    n ∈ ps.map Pulse.uid ↔ ps.any (·.uid == n) = true := by
  rw [List.mem_map, List.any_eq_true]
  simp

theorem map_uid_addPulse (ps : List Pulse) (p : Pulse) :
    (addPulse ps p).map Pulse.uid =
      if p.uid ∈ ps.map Pulse.uid then ps.map Pulse.uid else ps.map Pulse.uid ++ [p.uid] := by
  unfold addPulse
  by_cases h : p.uid ∈ ps.map Pulse.uid
  · rw [if_pos h, if_pos (mem_map_uid.1 h)]
  · rw [if_neg h, if_neg (fun hany => h (mem_map_uid.2 hany)), List.map_append]
    rfl

/-- No number is listed twice. -/
theorem nodup_distinct (ps : List Pulse) : ((distinct ps).map Pulse.uid).Nodup := by
  have hfold : ∀ qs ps : List Pulse, (ps.map Pulse.uid).Nodup →
      ((qs.foldl addPulse ps).map Pulse.uid).Nodup := by
    intro qs
    induction qs with
    | nil => exact fun ps h => h
    | cons q qs ih =>
      intro ps h
      apply ih
      rw [map_uid_addPulse]
      split
      · exact h
      · rename_i hnew
        exact nodup_append_singleton h hnew
  exact hfold ps [] List.nodup_nil

/-! ## The repertoire of a sequence -/

/-- The pulses of a block on a channel. -/
def Block.pulsesOn (b : Block) (c : Channel) : List Pulse := (b.on c).filterMap Entry.pulse?

/-- The pulses that an entry plays on a channel. -/
def Entry.pulsesOn (c : Channel) : Entry → List Pulse
  | .block b => Block.pulsesOn b c
  | _ => []

/-- The pulses that a sequence plays on a channel, in order. -/
def playedOn (entries : List Entry) (c : Channel) : List Pulse := entries.flatMap (Entry.pulsesOn c)

theorem Block.mem_pulsesOn {b : Block} {c : Channel} {p : Pulse} :
    p ∈ b.pulsesOn c ↔ Entry.pulse p ∈ b.on c := by
  unfold Block.pulsesOn
  rw [List.mem_filterMap]
  constructor
  · rintro ⟨e, he, hp⟩
    cases e with
    | pulse q => cases hp; exact he
    | _ => cases hp
  · intro h
    exact ⟨_, h, rfl⟩

theorem mem_playedOn {entries : List Entry} {c : Channel} {p : Pulse} :
    p ∈ playedOn entries c ↔ ∃ b : Block, Entry.block b ∈ entries ∧ Entry.pulse p ∈ b.on c := by
  unfold playedOn
  rw [List.mem_flatMap]
  constructor
  · rintro ⟨e, he, hp⟩
    cases e with
    | block b => exact ⟨b, he, Block.mem_pulsesOn.1 hp⟩
    | _ => cases hp
  · rintro ⟨b, hb, hp⟩
    exact ⟨_, hb, Block.mem_pulsesOn.2 hp⟩

namespace Repertoire

theorem on_congr (r : Repertoire) {c c' : Channel} (h : (c == c') = true) : r.on c = r.on c' := by
  unfold on
  rw [r.find?_congr h]

theorem on_insert (r : Repertoire) (c c' : Channel) (ps : List Pulse) :
    Repertoire.on (r.insert c ps) c' = if c == c' then ps else r.on c' := by
  unfold on
  rw [Table.find?_insert]
  split <;> rfl

theorem on_add (r : Repertoire) (c c' : Channel) (p : Pulse) :
    (r.add c p).on c' = if c == c' then addPulse (r.on c') p else r.on c' := by
  unfold add
  split
  · rename_i hany
    split
    · rename_i hc
      rw [r.on_congr hc] at hany
      exact (if_pos hany).symm
    · rfl
  · rename_i hany
    rw [on_insert]
    split
    · rename_i hc
      rw [r.on_congr hc] at hany ⊢
      exact (if_neg hany).symm
    · rfl

theorem on_foldl_add (ps : List Pulse) (r : Repertoire) (c c' : Channel) :
    Repertoire.on (ps.foldl (fun r p => r.add c p) r) c' =
      if c == c' then ps.foldl addPulse (r.on c') else r.on c' := by
  induction ps generalizing r with
  | nil => simp
  | cons p ps ih =>
    rw [List.foldl_cons, ih, on_add]
    split <;> rfl

theorem on_addLane (r : Repertoire) (b : Block) (c c' : Channel) :
    (r.addLane b c).on c' = if c == c' then (b.pulsesOn c').foldl addPulse (r.on c') else r.on c' := by
  unfold addLane
  rw [on_foldl_add]
  split
  · rename_i hc
    rw [b.on_congr hc]
    rfl
  · rfl

/-- A channel that is listed more than once gets its pulses once. -/
theorem on_foldl_addLane (b : Block) (c : Channel) (channels : List Channel) (r : Repertoire) :
    Repertoire.on (channels.foldl (fun r c => r.addLane b c) r) c =
      if channels.any (· == c) then (b.pulsesOn c).foldl addPulse (r.on c) else r.on c := by
  induction channels generalizing r with
  | nil => rfl
  | cons first channels ih =>
    rw [List.foldl_cons, ih, on_addLane, List.any_cons]
    cases hfirst : first == c with
    | false => simp
    | true =>
      cases hlater : channels.any (· == c) with
      | false => simp
      | true => simp [foldl_addPulse_twice]

theorem on_addEntry (channels : List Channel) (r : Repertoire) (e : Entry) {c : Channel}
    (hc : channels.any (· == c) = true) :
    (r.addEntry channels e).on c = (e.pulsesOn c).foldl addPulse (r.on c) := by
  cases e with
  | block b =>
    change Repertoire.on (channels.foldl (fun r c => r.addLane b c) r) c = _
    rw [on_foldl_addLane, if_pos hc]
    rfl
  | _ => rfl

end Repertoire

theorem on_ofList_nil (channels : List Channel) (c : Channel) :
    Repertoire.on (.ofList (channels.map (·, []))) c = [] := by
  have hfold : ∀ (channels : List Channel) (r : Repertoire), r.on c = [] →
      Repertoire.on ((channels.map (·, [])).foldl (fun t p => t.insert p.1 p.2) r) c = [] := by
    intro channels
    induction channels with
    | nil => intro r h; exact h
    | cons first channels ih =>
      intro r h
      refine ih _ ?_
      rw [Repertoire.on_insert, h]
      split <;> rfl
  exact hfold channels .empty rfl

/-- **The repertoire of a sequence lists the distinct pulses of each channel**, in the order in which
they are first played. -/
theorem collect_on {entries : List Entry} {channels : List Channel} {c : Channel}
    (hc : channels.any (· == c) = true) :
    (collect entries channels).on c = distinct (playedOn entries c) := by
  have hfold : ∀ (entries : List Entry) (r : Repertoire),
      Repertoire.on (entries.foldl (Repertoire.addEntry channels) r) c =
        (playedOn entries c).foldl addPulse (r.on c) := by
    intro entries
    induction entries with
    | nil => intro r; rfl
    | cons e entries ih =>
      intro r
      unfold playedOn at *
      rw [List.foldl_cons, ih, Repertoire.on_addEntry channels r e hc, List.flatMap_cons,
        List.foldl_append]
  unfold collect distinct
  rw [hfold, on_ofList_nil]

end PulseSequencer
