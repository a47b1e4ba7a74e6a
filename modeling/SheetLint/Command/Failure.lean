import SheetLint.Config.Error
import SheetLint.Disk

/-!
# Why a command fails
-/

namespace SheetLint

/-- Why a command cannot do what is asked. -/
inductive Failure where
  | unreadableConfig (path : String) (fault : FileFault)
  | badConfig (path : String) (e : ConfigError)
  | badRules (e : ConfigError)
  | badPattern (pattern : String)
  | missingPath (path : String)
  | configPresent (path : String)
  | unwritable (path : String) (fault : FileFault)
deriving DecidableEq, Repr

namespace Failure

/-- The wording of a failure. That of a file which cannot be read tells the reason twice. -/
def message : Failure → String
  | unreadableConfig path fault =>
    s!"Failed to load config: {path}: Failed to read config file {path}: {fault.message}"
      ++ s!": {fault.message}"
  | badConfig path e => s!"Failed to load config: {path}: {e.message}"
  | badRules e => s!"Invalid rule configuration: {e.message}"
  | badPattern pattern => s!"Invalid exclude pattern: {pattern}"
  | missingPath path => s!"Path not found: {path}"
  | configPresent path =>
    s!"Configuration file already exists at {path}. Use --force to overwrite."
  | unwritable path fault => s!"Failed to write {path}: {fault.message}"

end Failure

end SheetLint
