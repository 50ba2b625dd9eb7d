/-!
# The hardware

Clocks, capacities and fixed tables of the sequencer.
-/

namespace PulseSequencer.Hardware

/-- Samples per second of the analog outputs. -/
def dacClock : Float := 1.2e9

/-- Cycles per second of the modulator. -/
def fpgaClock : Float := 300e6

/-- Samples in a quantum, the unit of addresses and lengths. -/
def quantum : Nat := 4

/-- Samples in the shortest entry. -/
def shortestEntry : Nat := 8

/-- Samples that waveform memory holds. -/
def memoryCapacity : Nat := 0x10000000

/-- Samples that the waveform cache holds. -/
def cacheCapacity : Nat := 0x20000

/-- The largest level of an analog output. -/
def maxLevel : Nat := 8191

/-- Instructions that a program holds. -/
def programCapacity : Nat := 0x4000000

/-- The largest count of the repeat register. -/
def maxRepeat : Nat := 0xffff

/-- Samples in the longest marker pulse. -/
def maxMarkerLength : Nat := 0xffffffff

/-- The number of marker outputs. -/
def markerCount : Nat := 4

/-- The oscillators that drive the analog pair unless settings say otherwise, one bit each. -/
def ncoSelect : Fin 16 := 1

/-- The oscillators that are reset before a trigger unless settings say otherwise. -/
def resetNcoSelect : Fin 16 := 7

/-- Fractional bits of tuning, frame and phase words. -/
def ncoBits : Nat := 28

/-- Transition words of a marker that is high, by the samples left after whole quanta. -/
def rising : List Nat := [0b1111, 0b0111, 0b0011, 0b0001]

/-- Transition words of a marker that is low, by the samples left after whole quanta. -/
def falling : List Nat := [0b0000, 0b1000, 0b1100, 0b1110]

/-- The name of the target. -/
def targetName : String := "APS2"

def fileVersion : Float := 4.0

def minFirmwareVersion : Float := 4.0

/-- The analog outputs a file holds data for. -/
def channelDataFor : List Nat := [1, 2]

end PulseSequencer.Hardware
