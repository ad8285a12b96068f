import LayeredConfig.ConfigError
import LayeredConfig.Message.Clean

/-!
# Events

What loading tells about itself while it goes on.  Loading does not fail; a
file that cannot be used is reported by an event and skipped.
-/

namespace LayeredConfig

inductive Level where
  | warn
  | info
  | debug
deriving DecidableEq, Inhabited

def Level.name : Level → String
  | warn => "WARN"
  | info => "INFO"
  | debug => "DEBUG"

inductive Event where
  /-- A value of a file was left out because it does not fit its field. -/
  | mistyped (value : Mistyped) (file : FilePath)
  /-- A member of a file belongs to no field. -/
  | unknownKey (key : Json.Path) (file : FilePath)
  /-- A file was applied. -/
  | loaded (file : FilePath)
  /-- The path of a file has no absolute form. -/
  | unresolved (error : ConfigError)
  | missing (file : FilePath)
  /-- A file was not applied. -/
  | failed (error : ConfigError)
  /-- The shared configuration was set before. -/
  | alreadyInitialized
deriving DecidableEq, Inhabited

namespace Event

def level : Event → Level
  | mistyped _ _ => .warn
  | unknownKey _ _ => .debug
  | loaded _ => .debug
  | unresolved _ => .warn
  | missing _ => .warn
  | failed _ => .warn
  | alreadyInitialized => .info

def message : Event → String
  | mistyped _ _ => "ignoring config value of the wrong type"
  | unknownKey _ _ => "ignoring unknown config key"
  | loaded _ => "loaded config file"
  | unresolved _ => "skipping config file"
  | missing _ => "config file does not exist, skipping"
  | failed _ => "failed to load config file"
  | alreadyInitialized => "agent config already initialized, ignoring"

def details : Event → List (String × String)
  | mistyped value file =>
    [("key", value.path.text), ("expected", value.expected), ("path", file.text)]
  | unknownKey key file => [("key", key.dotted), ("path", file.text)]
  | loaded file => [("path", file.text)]
  | unresolved error => [("error", error.message)]
  | missing file => [("path", file.text)]
  | failed error => [("error", error.message)]
  | alreadyInitialized => []

end Event

end LayeredConfig
