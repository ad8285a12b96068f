import LayeredConfig.Agent.Config
import LayeredConfig.Loader

/-!
# Loading the agent's configuration

The agent reads a file that a variable names, then its environment, then the
built-in defaults.  Programs share one configuration: it is set once, and
whoever asks first without one set loads it.
-/

namespace LayeredConfig.Agent

def loader (env : Environment) : Loader config where
  stem := stem
  file := .environment
  env := env
  defaults := some defaultConfig

/-- The configuration that all parts of a program share, once there is one. -/
structure Shared where
  config : Option Config

namespace Shared

/-- Sets the shared configuration unless there is one.  Tells whether it did. -/
def init (shared : Shared) (config : Config) : Bool × Shared × List Event :=
  match shared.config with
  | none => (true, ⟨some config⟩, [])
  | some _ => (false, shared, [.alreadyInitialized])

def get (shared : Shared) (env : Environment) (files : FileSystem) :
    Config × Shared × List Event :=
  match shared.config with
  | some config => (config, shared, [])
  | none =>
    let (config, events) := (loader env).load files
    (config, ⟨some config⟩, events)

end Shared

end LayeredConfig.Agent
