import Mathlib.Data.List.Induction
import PulseSequencer.Proofs.Repertoire

/-!
# First appearances

The repertoire of a sequence grows while its blocks are walked channel by channel, and a channel that is
listed twice is walked twice. What it holds in the end can be said without the walk: under each channel,
the pulses that the sequence plays there, each where it appears first.

* `eraseDupsBy_eq_foldl` — duplicates are erased by a walk that adds what it has not seen.
* `distinct_eq_eraseDupsBy` — the distinct pulses are those without the duplicates by number.
* `FirstAppearances` — a list holds the first appearances of another; `firstAppearances_distinct`.
* `keys_collect` — the repertoire lists the distinct channels; `find?_collect` — and nothing else.
* `collect_firstAppearances` — both together.
-/

namespace PulseSequencer

universe u v

/-! ## Erasing duplicates -/

/-- Duplicates are erased by a walk that adds what it has not seen. -/
theorem eraseDupsBy_eq_foldl {α : Type u} (r : α → α → Bool) (as : List α) :
    as.eraseDupsBy r = as.foldl (fun seen a => if seen.any (r a) then seen else seen ++ [a]) [] := by
  -- the library keeps what was seen in reverse
  have hloop : ∀ (as seen : List α), List.eraseDupsBy.loop r as seen =
      as.foldl (fun seen a => if seen.any (r a) then seen else seen ++ [a]) seen.reverse := by
    intro as
    induction as with
    | nil => intro seen; rfl
    | cons a as ih =>
      intro seen
      rw [List.eraseDupsBy.loop, List.foldl_cons, List.any_reverse]
      cases hseen : seen.any (r a) with
      | true => simpa using ih seen
      | false => simpa using ih (a :: seen)
  exact hloop as []

/-- The pulses have the same number. -/
def Pulse.sameNumber (p q : Pulse) : Bool := p.uid == q.uid

/-- The distinct pulses are those that are left when duplicates by number are erased. -/
theorem distinct_eq_eraseDupsBy (ps : List Pulse) :
    distinct ps = ps.eraseDupsBy Pulse.sameNumber := by
  have hstep : addPulse =
      fun seen p => if seen.any (Pulse.sameNumber p) then seen else seen ++ [p] := by
    funext seen p
    have hany : seen.any (·.uid == p.uid) = seen.any (Pulse.sameNumber p) := by
      congr 1
      funext q
      exact BEq.comm
    rw [addPulse, hany]
  rw [eraseDupsBy_eq_foldl, distinct, hstep]

/-! ## First appearances -/

/-- `listed` holds the first appearances of the pulses of `played`. -/
structure FirstAppearances (played listed : List Pulse) : Prop where
  /-- No number is listed twice. -/
  nodup : (listed.map Pulse.uid).Nodup
  /-- A pulse is listed if and only if no pulse of its number is played before it. -/
  mem_iff : ∀ p, p ∈ listed ↔
    ∃ before after, played = before ++ p :: after ∧ ∀ q ∈ before, q.uid ≠ p.uid
  /-- Every pulse that is played is listed, by its number. -/
  complete : ∀ p ∈ played, ∃ q ∈ listed, q.uid = p.uid
  /-- The list is in the order of what is played. -/
  sublist : listed.Sublist played
  /-- A pulse that is listed earlier appears earlier for the first time. -/
  ordered : listed.Pairwise fun p q =>
    played.findIdx (·.uid == p.uid) < played.findIdx (·.uid == q.uid)

/-- If numbers tell the played pulses apart, exactly those are listed. -/
theorem FirstAppearances.mem_iff_played {played listed : List Pulse}
    (h : FirstAppearances played listed)
    (hnumber : ∀ p ∈ played, ∀ q ∈ played, p.uid = q.uid → p = q) (p : Pulse) :
    p ∈ listed ↔ p ∈ played := by
  constructor
  · intro hp
    exact h.sublist.subset hp
  · intro hp
    obtain ⟨q, hq, hqp⟩ := h.complete p hp
    exact hnumber q (h.sublist.subset hq) p hp hqp ▸ hq

theorem distinct_sublist (ps : List Pulse) : (distinct ps).Sublist ps := by
  induction ps using List.reverseRecOn with
  | nil => exact List.Sublist.refl []
  | append_singleton ps p ih =>
    rw [distinct_append_singleton, addPulse]
    split
    · exact ih.trans (List.sublist_append_left ps [p])
    · exact ih.append (List.Sublist.refl [p])

theorem any_uid_eq_false {ps : List Pulse} {n : Nat} :
    ps.any (·.uid == n) = false ↔ ∀ q ∈ ps, q.uid ≠ n := by
  simp

/-- A pulse is among the distinct ones if no pulse of its number comes before it. -/
theorem mem_distinct_iff {ps : List Pulse} {p : Pulse} :
    p ∈ distinct ps ↔ ∃ before after, ps = before ++ p :: after ∧ ∀ q ∈ before, q.uid ≠ p.uid := by
  induction ps using List.reverseRecOn with
  | nil => simp [distinct]
  | append_singleton ps last ih =>
    rw [distinct_append_singleton, addPulse]
    constructor
    · intro h
      have hcases : p ∈ distinct ps ∨ (p = last ∧ ∀ q ∈ ps, q.uid ≠ last.uid) := by
        split at h
        · exact Or.inl h
        · rename_i hnew
          rw [Bool.not_eq_true, any_distinct, any_uid_eq_false] at hnew
          rcases List.mem_append.1 h with h | h
          · exact Or.inl h
          · exact Or.inr ⟨List.mem_singleton.1 h, hnew⟩
      rcases hcases with h | ⟨rfl, hnew⟩
      · obtain ⟨before, after, rfl, hbefore⟩ := ih.1 h
        exact ⟨before, after ++ [last], by simp, hbefore⟩
      · exact ⟨ps, [], rfl, hnew⟩
    · rintro ⟨before, after, hps, hbefore⟩
      rcases List.eq_nil_or_concat after with rfl | ⟨after, q, rfl⟩
      · obtain ⟨rfl, hlast⟩ := List.append_inj' hps rfl
        obtain rfl : last = p := by simpa using hlast
        rw [if_neg (by rw [any_distinct]; simpa using hbefore)]
        simp
      · have hps' : ps ++ [last] = (before ++ p :: after) ++ [q] := by simpa using hps
        obtain ⟨rfl, _⟩ := List.append_inj' hps' rfl
        have hp := ih.2 ⟨before, after, rfl, hbefore⟩
        split
        · exact hp
        · exact List.mem_append_left _ hp

/-- Where a number is played for the first time does not depend on what is played later. -/
theorem findIdx_append_of_mem {ps later : List Pulse} {p : Pulse} (h : p ∈ ps) :
    (ps ++ later).findIdx (·.uid == p.uid) = ps.findIdx (·.uid == p.uid) := by
  have hlt : ps.findIdx (·.uid == p.uid) < ps.length :=
    List.findIdx_lt_length_of_exists ⟨p, h, by simp⟩
  rw [List.findIdx_append, if_pos hlt]

theorem distinct_ordered (ps : List Pulse) : (distinct ps).Pairwise fun p q =>
    ps.findIdx (·.uid == p.uid) < ps.findIdx (·.uid == q.uid) := by
  induction ps using List.reverseRecOn with
  | nil => exact List.Pairwise.nil
  | append_singleton ps last ih =>
    have hold : (distinct ps).Pairwise fun p q =>
        (ps ++ [last]).findIdx (·.uid == p.uid) < (ps ++ [last]).findIdx (·.uid == q.uid) := by
      refine ih.imp_of_mem fun hp hq hlt => ?_
      rwa [findIdx_append_of_mem (mem_of_mem_distinct hp),
        findIdx_append_of_mem (mem_of_mem_distinct hq)]
    rw [distinct_append_singleton, addPulse]
    split
    · exact hold
    · rename_i hnew
      rw [Bool.not_eq_true, any_distinct, any_uid_eq_false] at hnew
      have hend : ps.findIdx (·.uid == last.uid) = ps.length :=
        List.findIdx_eq_length_of_false (by simpa using hnew)
      refine List.pairwise_append.2 ⟨hold, List.pairwise_singleton _ _, ?_⟩
      intro p hp q hq
      obtain rfl := List.mem_singleton.1 hq
      have hmem := mem_of_mem_distinct hp
      have hlt : ps.findIdx (·.uid == p.uid) < ps.length :=
        List.findIdx_lt_length_of_exists ⟨p, hmem, by simp⟩
      rw [findIdx_append_of_mem hmem, List.findIdx_append, if_neg (by omega)]
      omega

theorem firstAppearances_distinct (ps : List Pulse) : FirstAppearances ps (distinct ps) where
  nodup := nodup_distinct ps
  mem_iff _ := mem_distinct_iff
  complete p hp := exists_mem_distinct.2 ⟨p, hp, rfl⟩
  sublist := distinct_sublist ps
  ordered := distinct_ordered ps

/-! ## The channels of a repertoire -/

/-- A table made from a list has each key once, where it is given first. -/
theorem Table.keys_ofList {κ : Type u} {α : Type v} [BEq κ] [EquivBEq κ] (pairs : List (κ × α)) :
    (Table.ofList pairs).keys = (pairs.map (·.1)).eraseDups := by
  have hfold : ∀ (pairs : List (κ × α)) (t : Table κ α),
      (pairs.foldl (fun t p => t.insert p.1 p.2) t).keys =
        (pairs.map (·.1)).foldl (fun seen k => if seen.any (k == ·) then seen else seen ++ [k]) t.keys := by
    intro pairs
    induction pairs with
    | nil => intro t; rfl
    | cons p pairs ih =>
      intro t
      have hany : t.keys.any (· == p.1) = t.keys.any (p.1 == ·) := by
        congr 1
        funext k
        exact BEq.comm
      rw [List.foldl_cons, ih, Table.keys_insert_any, hany, List.map_cons, List.foldl_cons]
  rw [List.eraseDups, eraseDupsBy_eq_foldl]
  exact hfold pairs .empty

namespace Repertoire

/-- The channel is one of the listed ones. -/
def Lists (r : Repertoire) (c : Channel) : Prop := r.keys.any (· == c) = true

theorem keys_add {r : Repertoire} {c : Channel} (h : r.Lists c) (p : Pulse) :
    Table.keys (r.add c p) = r.keys := by
  rw [add]
  split
  · rfl
  · rw [Table.keys_insert_any]
    exact if_pos h

theorem keys_addLane {r : Repertoire} {c : Channel} (h : r.Lists c) (b : Block) :
    Table.keys (r.addLane b c) = r.keys := by
  have hfold : ∀ (ps : List Pulse) (r : Repertoire), r.Lists c →
      Table.keys (ps.foldl (fun (r : Repertoire) p => r.add c p) r) = r.keys := by
    intro ps
    induction ps with
    | nil => intro r _; rfl
    | cons p ps ih =>
      intro r h
      have hkeys := keys_add h p
      rw [List.foldl_cons, ih _ (by rw [Lists, hkeys]; exact h), hkeys]
  exact hfold _ r h

theorem keys_addEntry {channels : List Channel} {r : Repertoire} (h : ∀ c ∈ channels, r.Lists c)
    (e : Entry) : Table.keys (r.addEntry channels e) = r.keys := by
  have hfold : ∀ (b : Block) (walked : List Channel) (r : Repertoire), (∀ c ∈ walked, r.Lists c) →
      Table.keys (walked.foldl (fun (r : Repertoire) c => r.addLane b c) r) = r.keys := by
    intro b walked
    induction walked with
    | nil => intro r _; rfl
    | cons c walked ih =>
      intro r h
      have hkeys := keys_addLane (h c List.mem_cons_self) b
      rw [List.foldl_cons, ih _ ?_, hkeys]
      intro d hd
      rw [Lists, hkeys]
      exact h d (List.mem_cons_of_mem _ hd)
  cases e with
  | block b => exact hfold b channels r h
  | _ => rfl

end Repertoire

/-- A channel that is erased as a duplicate is equal to one that is kept. -/
theorem any_eraseDups (channels : List Channel) (c : Channel) :
    channels.eraseDups.any (· == c) = channels.any (· == c) := by
  have hfold : ∀ (channels seen : List Channel),
      (channels.foldl (fun seen d => if seen.any (d == ·) then seen else seen ++ [d]) seen).any (· == c) =
        (seen.any (· == c) || channels.any (· == c)) := by
    intro channels
    induction channels with
    | nil => intro seen; simp
    | cons d channels ih =>
      intro seen
      rw [List.foldl_cons, ih, List.any_cons]
      split
      · rename_i hd
        obtain ⟨e, he, hde⟩ := List.any_eq_true.1 hd
        cases hdc : d == c with
        | false => simp
        | true =>
          have hec : (e == c) = true := BEq.trans (BEq.symm hde) hdc
          have hseen : seen.any (· == c) = true := List.any_eq_true.2 ⟨e, he, hec⟩
          simp [hseen]
      · simp [Bool.or_assoc]
  rw [List.eraseDups, eraseDupsBy_eq_foldl]
  exact hfold channels []

/-- **The repertoire of a sequence lists the distinct channels**, each where it is given first. -/
theorem keys_collect (entries : List Entry) (channels : List Channel) :
    (collect entries channels).keys = channels.eraseDups := by
  have hstart : Table.keys (.ofList (channels.map (·, [])) : Repertoire) = channels.eraseDups := by
    rw [Table.keys_ofList, List.map_map]
    congr 1
    exact List.map_id' channels
  have hfold : ∀ (entries : List Entry) (r : Repertoire), (∀ c ∈ channels, r.Lists c) →
      Table.keys (entries.foldl (Repertoire.addEntry channels) r) = r.keys := by
    intro entries
    induction entries with
    | nil => intro r _; rfl
    | cons e entries ih =>
      intro r h
      have hkeys := Repertoire.keys_addEntry h e
      rw [List.foldl_cons, ih _ ?_, hkeys]
      intro c hc
      rw [Repertoire.Lists, hkeys]
      exact h c hc
  rw [collect, hfold, hstart]
  intro c hc
  rw [Repertoire.Lists, hstart, any_eraseDups]
  exact List.any_eq_true.2 ⟨c, hc, Channel.beq_self c⟩

/-- What is found under a channel: the distinct pulses, if the channel is asked for. -/
theorem find?_collect (entries : List Entry) (channels : List Channel) (c : Channel) :
    (collect entries channels).find? c =
      if channels.any (· == c) then some (distinct (playedOn entries c)) else none := by
  have hsome : ((collect entries channels).find? c).isSome = channels.any (· == c) := by
    rw [Table.isSome_find?, keys_collect, any_eraseDups]
  cases hc : channels.any (· == c) with
  | false =>
    rw [hc] at hsome
    simpa using hsome
  | true =>
    rw [hc] at hsome
    obtain ⟨ps, hps⟩ := Option.isSome_iff_exists.1 hsome
    have hon : (collect entries channels).on c = ps := by rw [Repertoire.on, hps]; rfl
    rw [hps, ← hon, collect_on hc]
    rfl

/-- **The repertoire of a sequence, without the walk.** Its channels are the distinct ones of those asked
for, each where it is given first. Under a channel stand the pulses that the blocks of the sequence play
on it, in order and without the duplicates by number: the first appearances of these pulses. Nothing but
pulses of blocks is listed, every number that is played is, and every pulse that is played is if numbers
tell the pulses apart. -/
theorem collect_firstAppearances (entries : List Entry) (channels : List Channel) :
    (collect entries channels).keys = channels.eraseDups ∧
      ∀ c, ∃ listed, (collect entries channels).find? c =
          (if channels.any (· == c) then some listed else none) ∧
        listed = (playedOn entries c).eraseDupsBy (fun p q => p.uid == q.uid) ∧
        FirstAppearances (playedOn entries c) listed ∧
        (∀ p ∈ listed, ∃ b : Block, Entry.block b ∈ entries ∧ Entry.pulse p ∈ b.on c) ∧
        (∀ (b : Block) (p : Pulse), Entry.block b ∈ entries → Entry.pulse p ∈ b.on c →
          ∃ q ∈ listed, q.uid = p.uid) ∧
        ((∀ p ∈ playedOn entries c, ∀ q ∈ playedOn entries c, p.uid = q.uid → p = q) →
          ∀ p, p ∈ listed ↔ ∃ b : Block, Entry.block b ∈ entries ∧ Entry.pulse p ∈ b.on c) := by
  refine ⟨keys_collect entries channels, fun c => ?_⟩
  have hfirst := firstAppearances_distinct (playedOn entries c)
  refine ⟨_, find?_collect entries channels c, distinct_eq_eraseDupsBy _, hfirst, ?_, ?_, ?_⟩
  · intro p hp
    exact mem_playedOn.1 (hfirst.sublist.subset hp)
  · intro b p hb hp
    exact hfirst.complete p (mem_playedOn.2 ⟨b, hb, hp⟩)
  · intro hnumber p
    rw [hfirst.mem_iff_played hnumber, mem_playedOn]

/-- Two blocks that play two pulses between them, one of them three times and with a frame change. -/
def repeatedEntries (p q : Pulse) : List Entry :=
  [.block ⟨[(.marker "m", [.pulse p, .frame ⟨0.25, "Z"⟩, .pulse p])]⟩, .flow .wait,
    .block ⟨[(.marker "m", [.pulse q, .foreign "x", .pulse p])]⟩]

/-- A channel that is asked for twice, with pulses that are played more than once. -/
theorem collect_firstAppearances_repeated :
    ∃ p q : Pulse, p.uid = 7 ∧ q.uid = 3 ∧
      (collect (repeatedEntries p q) [.marker "m", .plain "m", .marker "m"]).keys =
        [.marker "m", .plain "m"] ∧
      ∃ listed, (collect (repeatedEntries p q) [.marker "m", .plain "m", .marker "m"]).find?
          (.marker "m") = some listed ∧ p ∈ listed ∧ q ∈ listed := by
  let p : Pulse := { uid := 7, label := "p", length := 1.0 }
  let q : Pulse := { uid := 3, label := "q", length := 1.0 }
  obtain ⟨hkeys, hlisted⟩ :=
    collect_firstAppearances (repeatedEntries p q) [.marker "m", .plain "m", .marker "m"]
  obtain ⟨listed, hfind, _, _, _, _, hmem⟩ := hlisted (.marker "m")
  have hplayed : playedOn (repeatedEntries p q) (.marker "m") = [p, p, q, p] := rfl
  have hnumber : ∀ a ∈ [p, p, q, p], ∀ b ∈ [p, p, q, p], a.uid = b.uid → a = b := by
    simp [p, q]
  rw [hplayed] at hmem
  refine ⟨p, q, rfl, rfl, hkeys, listed, hfind, (hmem hnumber p).2 ?_, (hmem hnumber q).2 ?_⟩
  · exact ⟨_, List.mem_cons_self, List.mem_cons_self⟩
  · exact ⟨⟨[(.marker "m", [.pulse q, .foreign "x", .pulse p])]⟩, by simp [repeatedEntries],
      List.mem_cons_self⟩

end PulseSequencer
