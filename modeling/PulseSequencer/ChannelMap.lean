import PulseSequencer.Fault

/-!
# Channel maps

A channel map assigns channels to the outputs: one to the analog pair and up to four to the markers.

* `ChannelMap.ofRoles` (`ChannelMap.from_dict`) — from roles by name.
* `ChannelMap.validate` — something is assigned, and every channel is of the kind of its role.
* `ChannelMap.channels` — the assigned channels in role order.
-/

namespace PulseSequencer

structure ChannelMap where
  analog : Option Channel := none
  m1 : Option Channel := none
  m2 : Option Channel := none
  m3 : Option Channel := none
  m4 : Option Channel := none

namespace ChannelMap

def analogRole : String := "ch12"

def roles : List String := [analogRole, "m1", "m2", "m3", "m4"]

/-- The map of roles by name; roles that do not exist are refused in alphabetic order. -/
def ofRoles (assigned : Table String (Option Channel)) : Except Fault ChannelMap :=
  let unknown := assigned.keys.filter (!roles.contains ·)
  if unknown.isEmpty then
    let role (name : String) : Option Channel := (assigned.find? name).join
    .ok ⟨role analogRole, role "m1", role "m2", role "m3", role "m4"⟩
  else .error (.channelMap (.unknownRoles (unknown.mergeSort (fun a b => !decide (b < a)))))

def markersOnly (m : ChannelMap) : Bool := m.analog.isNone

/-- The marker roles with the index of their output. -/
def markerRoles (m : ChannelMap) : List (Nat × String × Option Channel) :=
  [(1, "m1", m.m1), (2, "m2", m.m2), (3, "m3", m.m3), (4, "m4", m.m4)]

/-- The assigned markers with the index of their output. -/
def markers (m : ChannelMap) : List (Nat × Channel) :=
  m.markerRoles.filterMap fun (index, _, channel) => channel.map (index, ·)

def channels (m : ChannelMap) : List Channel := m.analog.toList ++ m.markers.map (·.2)

/-- The carrier frequency of the analog pair; zero if there is none. -/
def carrier (m : ChannelMap) : Float :=
  match m.analog with
  | some (.analog _ f _) => f
  | _ => 0.0

/-- A marker role is free or has a marker. -/
def validateMarker (role : String) : Option Channel → Except Fault Unit
  | some (.marker _) => .ok ()
  | some c => .error (.channelMap (.markerRole role c))
  | none => .ok ()

def validate (m : ChannelMap) : Except Fault Unit := do
  if m.channels.isEmpty then throw (.channelMap .nothingAssigned)
  match m.analog with
  | some (.analog _ _ _) => pure ()
  | some c => throw (.channelMap (.analogRole analogRole c))
  | none => pure ()
  m.markerRoles.forM fun (_, role, channel) => validateMarker role channel

end ChannelMap

end PulseSequencer
