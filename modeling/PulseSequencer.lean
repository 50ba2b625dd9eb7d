import PulseSequencer.Listing
import PulseSequencer.Proofs.Addresses
import PulseSequencer.Proofs.Oscillator
import PulseSequencer.Proofs.Playback
import PulseSequencer.Proofs.RealTime
import PulseSequencer.Proofs.Trigger
import PulseSequencer.Proofs.WellFormed
import PulseSequencer.SequenceFile
import PulseSequencer.Settings.Validate
import PulseSequencer.Proofs.Format
import PulseSequencer.Proofs.FlowReading
import PulseSequencer.Proofs.Compression
import PulseSequencer.Proofs.PulseMap
import PulseSequencer.Proofs.Deferral
import PulseSequencer.Proofs.Independence
import PulseSequencer.Proofs.Coverage
import PulseSequencer.Proofs.MemoryImage
import PulseSequencer.Proofs.RepertoireOrder
import PulseSequencer.Proofs.FirstFault
import PulseSequencer.Proofs.Acceptance
import PulseSequencer.Proofs.MarkerDuration
import PulseSequencer.Proofs.Collection
import PulseSequencer.Proofs.LevelOrder
import PulseSequencer.Proofs.Reassembly
import PulseSequencer.Proofs.Alignment
import PulseSequencer.Proofs.Quantization
import PulseSequencer.Proofs.MergeSafety
