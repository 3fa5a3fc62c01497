import Chiptune.Pattern.SyntaxError
import Chiptune.Settings
import Chiptune.Text.Numeral

namespace Chiptune

/-!
# Why a scan fails

Faults of data never stop a scan. What does is a fault of its settings, or an observer that refuses
a tune.
-/

/-- Why a scan did not begin or did not end. -/
inductive ScanError where
  /-- A signature is wrong. -/
  | pattern (fault : SyntaxError)
  /-- The observer refused the tune at `offset` of a container. -/
  | refused (offset : Nat) (container reason : String)
  /-- The settings are not accepted. -/
  | settings (reason : SettingsError)
  /-- The settings name a plugin that is not there. -/
  | unknownPlugin (id : String)
deriving DecidableEq

/-- The reason in words. -/
def ScanError.message : ScanError → String
  | pattern fault => s!"invalid pattern: {fault.message}"
  | refused offset container _ =>
    s!"callback failed at offset 0x{Numeral.hex 1 offset} of '{container}'"
  | settings reason => s!"invalid configuration: {reason.message}"
  | unknownPlugin id => s!"unknown plugin '{id}'"

end Chiptune
