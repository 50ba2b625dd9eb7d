import PulseSequencer.Json.Basic
import PulseSequencer.Settings.Basic

/-!
# Settings by name

* `SettingsField` — the four settings, in order.
* `Configuration` — settings together with the fields that were set explicitly.
-/

namespace PulseSequencer

inductive SettingsField where
  | phaseByInstruction
  | frequencyByInstruction
  | ncoSelect
  | resetNcoSelect
  deriving DecidableEq, Repr

namespace SettingsField

def all : List SettingsField :=
  [phaseByInstruction, frequencyByInstruction, ncoSelect, resetNcoSelect]

def name : SettingsField → String
  | phaseByInstruction => "use_phase_offset_instruction"
  | frequencyByInstruction => "use_pulse_frequency_instruction"
  | ncoSelect => "nco_select"
  | resetNcoSelect => "reset_phase_nco_select"

def ofName? (s : String) : Option SettingsField := all.find? (·.name == s)

end SettingsField

/-- The value of a field as plain data. -/
def Settings.value (s : Settings) : SettingsField → Json
  | .phaseByInstruction => .bool s.phaseByInstruction
  | .frequencyByInstruction => .bool s.frequencyByInstruction
  | .ncoSelect => .int s.ncoSelect.val
  | .resetNcoSelect => .int s.resetNcoSelect.val

/-- Settings and which of them were set explicitly. -/
structure Configuration where
  settings : Settings := {}
  explicit : List SettingsField := []

namespace Configuration

/-- The fields set explicitly, in field order. -/
def explicitFields (c : Configuration) : List SettingsField :=
  SettingsField.all.filter (c.explicit.contains ·)

/-- All settings as an object. -/
def toJson (c : Configuration) : Json :=
  .obj (SettingsField.all.map fun f => (f.name, c.settings.value f))

/-- The tag of settings in YAML. -/
def yamlTag : String := "!CompilerSettings"

/-- The fields set explicitly, as a tagged YAML mapping. -/
def toYaml (c : Configuration) : String :=
  if c.explicitFields.isEmpty then yamlTag ++ " \x7b\x7d\n"
  else
    yamlTag ++ "\n" ++ String.join (c.explicitFields.map fun f =>
      f.name ++ ": " ++ (c.settings.value f).render .compact ++ "\n")

end Configuration

end PulseSequencer
