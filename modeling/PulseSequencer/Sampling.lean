import PulseSequencer.Dac
import PulseSequencer.Length
import PulseSequencer.Settings.Basic

/-!
# Sampling of pulses

* `Pulse.sampleCount` — the number of samples.
* `Pulse.waveform` — the samples of the shape, without amplitude.
* `Pulse.levels` (`generate_waveform_data`) — the samples scaled, rotated as the settings ask, and given
  levels.
-/

namespace PulseSequencer

def ShapeSample.toSample : ShapeSample → Sample
  | .real x => ⟨x, 0.0⟩
  | .complex re im => ⟨re, im⟩

/-- The polynomial with the given coefficients, lowest first. -/
def polynomial (coefficients : List Float) (x : Float) : Float :=
  coefficients.foldr (fun c acc => acc * x + c) (x * 0.0)

namespace Pulse

/-- The number of samples. That of listed samples does not depend on the duration. -/
def sampleCount (p : Pulse) (rate : Float) : Except Fault Nat :=
  match p.shape with
  | .square => do roomFor (Room.dimension .complex (← nearestInt (p.length * rate)))
  | .polynomial _ _ => do roomFor (Room.range (← nearestInt (p.length * rate)))
  | .samples values => .ok values.length

/-- The first `n` samples of the shape. -/
def shapeSamples (p : Pulse) (rate : Float) (n : Nat) : List Sample :=
  match p.shape with
  | .square => List.replicate n .one
  | .polynomial coefficients scale => (List.range n).map fun k =>
      ⟨polynomial coefficients (Float.ofNat k / rate * scale), 0.0⟩
  | .samples values => (values.take n).map ShapeSample.toSample

/-- The samples of the shape. -/
def waveform (p : Pulse) (rate : Float) : Except Fault (List Sample) :=
  (p.sampleCount rate).map (p.shapeSamples rate)

theorem length_shapeSamples {p : Pulse} {rate : Float} {n : Nat} (h : p.sampleCount rate = .ok n) :
    (p.shapeSamples rate n).length = n := by
  unfold shapeSamples
  split
  · simp
  · simp
  · rename_i values hs
    simp only [sampleCount, hs, Except.ok.injEq] at h
    simp [h]

/-- Whether the frequency offset of a pulse does not turn its samples. -/
def isSteady (p : Pulse) (settings : Settings) : Bool :=
  settings.frequencyByInstruction || p.frequency == 0.0

/-- The `k`-th sample of a pulse, from zero, with amplitude and the rotations that the settings
leave to the samples; `turn` is the rotation by the phase of the pulse. -/
def rotate (p : Pulse) (settings : Settings) (turn : Sample) (k : Nat) (s : Sample) : Sample :=
  let scaled := Sample.mul ⟨p.amp, 0.0⟩ s
  let phased := if settings.phaseByInstruction then scaled else scaled.mul turn
  if p.isSteady settings then phased
  else phased.mul (.rotation (-fullTurn * p.frequency / Hardware.dacClock * Float.ofNat (k + 1)))

/-- The first `n` levels of a pulse. The samples of a square pulse that is steady are all alike. -/
def shapeLevels (p : Pulse) (settings : Settings) (n : Nat) : List DacSample :=
  let turn := Sample.rotation p.phase
  if p.shape.isSquare && p.isSteady settings then
    List.replicate n (p.rotate settings turn 0 .one).clamp
  else
    (p.shapeSamples Hardware.dacClock n).mapIdx fun k s => (p.rotate settings turn k s).clamp

/-- The levels of a pulse. -/
def levels (p : Pulse) (settings : Settings) : Except Fault (List DacSample) :=
  (p.sampleCount Hardware.dacClock).map (p.shapeLevels settings)

theorem length_shapeLevels {p : Pulse} {settings : Settings} {n : Nat}
    (h : p.sampleCount Hardware.dacClock = .ok n) : (p.shapeLevels settings n).length = n := by
  unfold shapeLevels
  dsimp only
  split
  · simp
  · rw [List.length_mapIdx, length_shapeSamples h]

end Pulse

end PulseSequencer
