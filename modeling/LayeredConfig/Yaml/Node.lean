import LayeredConfig.Yaml.Lexer

/-!
# From tokens to nodes

A node is a scalar, an alias, a sequence or a mapping.  An anchor gives the
node a slot, and an alias refers to the slot its name had when the alias was
reached.  The slot of an anchor is the number of different anchor names before
it, so a name that is given twice may share its second slot with the next new
name; a slot belongs to the last node it was given to.
-/

namespace LayeredConfig.Yaml

inductive Node where
  | scalar (slot : Option Nat) (tag : Option (List UInt8)) (text : List Char) (plain : Bool)
  | reference (slot : Nat)
  | sequence (slot : Option Nat) (tag : Option (List UInt8)) (items : List Node)
  | mapping (slot : Option Nat) (tag : Option (List UInt8)) (entries : List (Node × Node))
deriving Inhabited

namespace Node

def missing : Node := scalar none none [] true

mutual

/-- The nodes with a slot, in the order in which they begin. -/
def anchored : Node → List (Nat × Node)
  | scalar (some slot) tag text plain => [(slot, scalar (some slot) tag text plain)]
  | scalar none _ _ _ => []
  | reference _ => []
  | sequence slot tag items =>
    (slot.toList.map fun s => (s, sequence slot tag items)) ++ anchoredItems items
  | mapping slot tag entries =>
    (slot.toList.map fun s => (s, mapping slot tag entries)) ++ anchoredEntries entries

def anchoredItems : List Node → List (Nat × Node)
  | [] => []
  | item :: items => anchored item ++ anchoredItems items

def anchoredEntries : List (Node × Node) → List (Nat × Node)
  | [] => []
  | (key, value) :: entries => anchored key ++ anchored value ++ anchoredEntries entries

end

mutual

/-- The number of events of a node: one for a scalar or an alias, and the start
and the end of a collection. -/
def events : Node → Nat
  | scalar _ _ _ _ => 1
  | reference _ => 1
  | sequence _ _ items => 2 + eventsOfItems items
  | mapping _ _ entries => 2 + eventsOfEntries entries

def eventsOfItems : List Node → Nat
  | [] => 0
  | item :: items => events item + eventsOfItems items

def eventsOfEntries : List (Node × Node) → Nat
  | [] => 0
  | (key, value) :: entries => events key + events value + eventsOfEntries entries

end

end Node

/-- The tokens still to be read and the slots of the anchor names so far. -/
structure Reading where
  tokens : List Token
  names : List (List Char × Nat) := []
deriving Inhabited

namespace Reading

def skip (r : Reading) : Reading := { r with tokens := r.tokens.drop 1 }

def head (r : Reading) : Token := r.tokens.headD .streamEnd

def bind (r : Reading) (name : List Char) : Nat × Reading :=
  let slot := r.names.length
  (slot, { r with names := (r.names.filter (·.1 != name)) ++ [(name, slot)] })

def slot? (r : Reading) (name : List Char) : Option Nat :=
  (r.names.find? (·.1 == name)).map (·.2)

end Reading

abbrev Handles := List (List Char × List UInt8)

/-- The prefix of the tags that every document knows. -/
def coreTag : String := "tag:yaml.org,2002:"

def defaultHandles : Handles :=
  [(['!'], asciiBytes ['!']), (['!', '!'], asciiBytes coreTag.toList)]

def TagName.resolve? (handles : Handles) (t : TagName) : Option (List UInt8) :=
  if t.handle.isEmpty then some t.suffix
  else (handles.find? (·.1 == t.handle)).map fun h => h.2 ++ t.suffix

/-- The properties in front of a node: an anchor and a tag, in either order. -/
def readProperties (handles : Handles) (r : Reading) :
    Option (Option (List Char) × Option (List UInt8) × Reading) :=
  match r.tokens with
  | .anchor name :: .tag t :: rest => do
    some (some name, some (← t.resolve? handles), { r with tokens := rest })
  | .anchor name :: rest => some (some name, none, { r with tokens := rest })
  | .tag t :: .anchor name :: rest => do
    some (some name, some (← t.resolve? handles), { r with tokens := rest })
  | .tag t :: rest => do some (none, some (← t.resolve? handles), { r with tokens := rest })
  | _ => some (none, none, r)

/-- Tokens after which the value of an entry of a block mapping is missing. -/
def Token.endsBlockEntry : Token → Bool
  | .key | .value | .blockEnd => true
  | _ => false

/-- Tokens after which the value of an entry of a flow sequence is missing. -/
def Token.endsFlowItem : Token → Bool
  | .flowEntry | .flowSequenceEnd => true
  | _ => false

/-- Tokens after which the value of an entry of a flow mapping is missing. -/
def Token.endsFlowEntry : Token → Bool
  | .flowEntry | .flowMappingEnd => true
  | _ => false

mutual

/-- A node.  Block collections begin only in block context; a dash begins a
sequence without a start token only where a mapping's value is expected.  The
lone `!` leaves a written scalar without a tag. -/
def readNode (handles : Handles) : Nat → (block dashes : Bool) → Reading → Option (Node × Reading)
  | 0, _, _, _ => none
  | fuel + 1, block, dashes, r =>
    match r.head with
    | .reference name => do some (.reference (← r.slot? name), r.skip)
    | _ => do
      let (anchor, tag, r) ← readProperties handles r
      let (slot, r) := match anchor with
        | some name => let (s, r) := r.bind name; (some s, r)
        | none => (none, r)
      match r.head with
      | .scalar text plain =>
        some (.scalar slot (tag.filter (· != asciiBytes ['!'])) text plain, r.skip)
      | .flowSequenceStart => do
        let (items, r) ← readFlowItems handles fuel true r.skip
        some (.sequence slot tag items, r)
      | .flowMappingStart => do
        let (entries, r) ← readFlowEntries handles fuel true r.skip
        some (.mapping slot tag entries, r)
      | t =>
        if dashes && t = .blockEntry then do
          let (items, r) ← readDashes handles fuel r
          some (.sequence slot tag items, r)
        else if block && t = .blockSequenceStart then do
          let (items, r) ← readBlockItems handles fuel r.skip
          some (.sequence slot tag items, r)
        else if block && t = .blockMappingStart then do
          let (entries, r) ← readBlockEntries handles fuel r.skip
          some (.mapping slot tag entries, r)
        else if anchor.isSome || tag.isSome then some (.scalar slot tag [] true, r)
        else none

/-- A node, or the missing one before a token that ends it. -/
def readOptional (handles : Handles) :
    Nat → (block dashes ends : Bool) → Reading → Option (Node × Reading)
  | 0, _, _, _, _ => none
  | fuel + 1, block, dashes, ends, r =>
    if ends then some (.missing, r) else readNode handles fuel block dashes r

def readBlockItems (handles : Handles) : Nat → Reading → Option (List Node × Reading)
  | 0, _ => none
  | fuel + 1, r =>
    match r.head with
    | .blockEntry => do
      let r := r.skip
      let ends := r.head == .blockEntry || r.head == .blockEnd
      let (item, r) ← readOptional handles fuel true false ends r
      let (items, r) ← readBlockItems handles fuel r
      some (item :: items, r)
    | .blockEnd => some ([], r.skip)
    | _ => none

/-- The items of a sequence that is not indented. -/
def readDashes (handles : Handles) : Nat → Reading → Option (List Node × Reading)
  | 0, _ => none
  | fuel + 1, r =>
    match r.head with
    | .blockEntry => do
      let r := r.skip
      let ends := r.head == .blockEntry || r.head.endsBlockEntry
      let (item, r) ← readOptional handles fuel true false ends r
      let (items, r) ← readDashes handles fuel r
      some (item :: items, r)
    | _ => some ([], r)

def readBlockEntries (handles : Handles) : Nat → Reading → Option (List (Node × Node) × Reading)
  | 0, _ => none
  | fuel + 1, r =>
    match r.head with
    | .key => do
      let r := r.skip
      let (key, r) ← readOptional handles fuel true true r.head.endsBlockEntry r
      let (value, r) ←
        if r.head = .value then
          readOptional handles fuel true true r.skip.head.endsBlockEntry r.skip
        else some (.missing, r)
      let (entries, r) ← readBlockEntries handles fuel r
      some ((key, value) :: entries, r)
    | .blockEnd => some ([], r.skip)
    | _ => none

/-- The items of a flow sequence up to its bracket.  A pair stands for a mapping
of one entry. -/
def readFlowItems (handles : Handles) : Nat → (first : Bool) → Reading →
    Option (List Node × Reading)
  | 0, _, _ => none
  | fuel + 1, first, r =>
    if r.head = .flowSequenceEnd then some ([], r.skip)
    else if !first && r.head != .flowEntry then none
    else
      let r := if first then r else r.skip
      match r.head with
      | .flowSequenceEnd => some ([], r.skip)
      | .key => do
        let (entry, r) ← readFlowPair handles fuel r.skip
        let (items, r) ← readFlowItems handles fuel false r
        some (.mapping none none [entry] :: items, r)
      | _ => do
        let (item, r) ← readNode handles fuel false false r
        let (items, r) ← readFlowItems handles fuel false r
        some (item :: items, r)

/-- The key and the value of a pair in a flow sequence.  The token after a
missing key is passed whatever it is. -/
def readFlowPair (handles : Handles) : Nat → Reading → Option ((Node × Node) × Reading)
  | 0, _ => none
  | fuel + 1, r => do
    let (key, r) ←
      if r.head = .value || r.head.endsFlowItem then some (.missing, r.skip)
      else readNode handles fuel false false r
    let (value, r) ←
      if r.head = .value then
        readOptional handles fuel false false r.skip.head.endsFlowItem r.skip
      else some (.missing, r)
    some ((key, value), r)

def readFlowEntries (handles : Handles) : Nat → (first : Bool) → Reading →
    Option (List (Node × Node) × Reading)
  | 0, _, _ => none
  | fuel + 1, first, r =>
    if r.head = .flowMappingEnd then some ([], r.skip)
    else if !first && r.head != .flowEntry then none
    else
      let r := if first then r else r.skip
      match r.head with
      | .flowMappingEnd => some ([], r.skip)
      | .key => do
        let r := r.skip
        let ends := r.head == .value || r.head.endsFlowEntry
        let (key, r) ← readOptional handles fuel false false ends r
        let (value, r) ←
          if r.head = .value then
            readOptional handles fuel false false r.skip.head.endsFlowEntry r.skip
          else some (.missing, r)
        let (entries, r) ← readFlowEntries handles fuel false r
        some ((key, value) :: entries, r)
      | _ => do
        let (key, r) ← readNode handles fuel false false r
        let (entries, r) ← readFlowEntries handles fuel false r
        some ((key, .missing) :: entries, r)

end

/-- The directives of a document.  At most one version, which is 1.1 or 1.2, and
one expansion per handle may be declared. -/
def readDirectives : List Token → (version : Bool) → Handles → Option (Handles × List Token)
  | .version major minor :: ts, version, handles =>
    if version || major != 1 || !(minor == 1 || minor == 2) then none
    else readDirectives ts true handles
  | .tagHandle handle expansion :: ts, version, handles =>
    if handles.any (·.1 == handle) then none
    else readDirectives ts version (handles ++ [(handle, expansion)])
  | ts, _, handles => some (handles, ts)

/-- The only document of a stream; nothing if the stream is empty.  A second
document is an error. -/
def readStream (ts : List Token) : Option (Option Node) := do
  if ts = [.streamEnd] then some none
  else
    let (handles, rest) ← readDirectives ts false []
    let explicit := rest.head? = some .documentStart
    if !explicit && rest.length < ts.length then none
    else
      let r : Reading := { tokens := if explicit then rest.drop 1 else rest }
      let ends := explicit &&
        match r.head with
        | .version _ _ | .tagHandle _ _ | .documentStart | .documentEnd | .streamEnd => true
        | _ => false
      let fuel := 3 * ts.length + 3
      let (node, r) ← readOptional (handles ++ defaultHandles) fuel true false ends r
      if r.tokens.dropWhile (· == .documentEnd) = [.streamEnd] then some (some node) else none

end LayeredConfig.Yaml
