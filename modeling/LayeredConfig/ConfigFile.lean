import LayeredConfig.Event
import LayeredConfig.Json.Merge
import LayeredConfig.Message.Encode
import LayeredConfig.Yaml.Document

/-!
# Configuration files

A file is parsed into a document by the format of its extension.  Values that
do not fit are left out of the document, the rest is read as a tree, and that
tree is laid over the one there is: what the file sets replaces what was set,
and all else stays.  Both trees are merged as documents.
-/

namespace LayeredConfig

/-- A result together with the events on the way to it. -/
abbrev Logged (α : Type) := α × List Event

namespace ConfigFile

/-- The document that a text holds.  A document that is null, such as that of
an empty YAML file, stands for an empty object. -/
def parse (format : Format) (path : FilePath) (content : String) : Except ConfigError Json :=
  let parsed : Except ConfigError Json :=
    match format with
    | .json =>
      match Json.parse? content with
      | some json => .ok json
      | none => .error (.notJson path)
    | .yaml =>
      match Yaml.parse? content with
      | some json => .ok json
      | none => .error (.notYaml path)
  parsed.map fun
    | .null => .object []
    | json => json

/-- Lays one tree over another by merging their documents. -/
def overlayTrees (message : Message) (base upper : Tree message.fields) :
    Except DecodeError (Tree message.fields) :=
  let merged : Json :=
    match base.toSortedJson, upper.toSortedJson with
    | .object base, .object upper => .object (Json.mergeMembers base upper)
    | _, upper => upper
  (message.decode merged).map fun decoded => decoded.1

def merge (message : Message) (path : FilePath) (document : Json) (tree : Tree message.fields) :
    Logged (Except ConfigError (Tree message.fields)) :=
  let (document, dropped) := message.clean document
  let warnings := dropped.map fun value => Event.mistyped value path
  match message.decode document with
  | .error error => (.error (.mismatch path error), warnings)
  | .ok (file, unknown) =>
    let events := warnings ++ unknown.map fun key => Event.unknownKey key path
    match overlayTrees message tree file with
    | .error error => (.error (.mismatch path error), events)
    | .ok tree => (.ok tree, events)

def read (files : FileSystem) (path : FilePath) : Except ConfigError Json := do
  let format ←
    match Format.ofPath? path with
    | some format => .ok format
    | none => .error (.unknownExtension path)
  let node ← (files.open? path).mapError (.unopened path)
  let content ← (FileSystem.textOf node).mapError (.unreadable path)
  parse format path content

def load (message : Message) (files : FileSystem) (path : FilePath) (tree : Tree message.fields) :
    Logged (Except ConfigError (Tree message.fields)) :=
  match read files path with
  | .error error => (.error error, [])
  | .ok document =>
    match merge message path document tree with
    | (.error error, events) => (.error error, events)
    | (.ok tree, events) => (.ok tree, events ++ [.loaded path])

/-- Lays the file at a path over a tree if that is possible, and otherwise
tells why not and leaves the tree as it is. -/
def loadOrSkip (message : Message) (files : FileSystem) (path : FilePath)
    (tree : Tree message.fields) : Logged (Tree message.fields) :=
  match files.absolute path with
  | .error error => (tree, [.unresolved (.unresolved path error)])
  | .ok resolved =>
    if files.isFile resolved then
      match load message files resolved tree with
      | (.ok tree, events) => (tree, events)
      | (.error error, events) => (tree, events ++ [.failed error])
    else (tree, [.missing resolved])

end ConfigFile

end LayeredConfig
