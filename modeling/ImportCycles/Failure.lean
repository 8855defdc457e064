import ImportCycles.FileSystem
import ImportCycles.NamePattern
/-! Why a scan cannot begin. -/
namespace ImportCycles

/-- Why the text of a settings file cannot be had. -/
inductive ReadFault where
  | fileSystem (fault : FileSystem.Fault)
  | notText
deriving DecidableEq, Repr

def ReadFault.message : ReadFault → String
  | .fileSystem fault => fault.message
  | .notText => "stream did not contain valid UTF-8"

inductive Failure where
  | rootNotFound (root : Path)
  | rootNotDirectory (root : Path)
  | settingsUnreadable (file : Path) (cause : ReadFault)
  | settingsMalformed (file : Path)
  | excludeMalformed (pattern : String) (cause : NamePattern.Fault)
  | aliasMalformed (text : String)
  | noExtensions
deriving DecidableEq, Repr

namespace Failure

def message : Failure → String
  | .rootNotFound root => "root directory does not exist: " ++ root.display
  | .rootNotDirectory root => "root is not a directory: " ++ root.display
  | .settingsUnreadable file _ => "failed to read config file " ++ file.display
  | .settingsMalformed file => "failed to parse config file " ++ file.display
  | .excludeMalformed pattern _ => "invalid exclude pattern `" ++ pattern ++ "`"
  | .aliasMalformed text => "invalid alias `" ++ text ++ "`: expected PREFIX=DIR"
  | .noExtensions => "no source extensions configured"

/-- What lies behind the failure. -/
def cause? : Failure → Option String
  | .settingsUnreadable _ cause => some cause.message
  | .excludeMalformed _ cause => some cause.message
  | _ => none

/-- Whether another choice of root could help. -/
def isMissingRoot : Failure → Bool
  | .rootNotFound _ | .rootNotDirectory _ => true
  | _ => false

end Failure

end ImportCycles
