import LayeredConfig.Message.Fields

/-!
# A message with every kind of field

`sink` has a field of every kind and of every type: enums with one and with
several values, lists, maps with each type of key, nested messages, a list of
messages, an empty message, and names whose spellings differ in unusual ways.
-/

namespace LayeredConfig.Specimen

def mode : EnumType := { name := "Mode", first := "FAST", rest := ["SLOW_HTTP", "X2"] }

/-- An enum that leaves no choice. -/
def single : EnumType := { name := "Single", first := "ONLY", rest := [] }

def leafy : Message where
  label := ⟨"Leafy", ["A leaf message.", "", "  Indented \"quoted\" line."]⟩
  fields :=
    .plain ⟨"flag", []⟩ (.leaf (.scalar .bool)) <|
    .plain ⟨"max_count", ["First line.", "Second line."]⟩ (.leaf (.scalar .int32)) <|
    .plain ⟨"tags", []⟩ (.list (.scalar .string)) .nil

def empty : Message where
  label := ⟨"Empty", []⟩
  fields := .nil

/-- A message of maps, one for each type of key. -/
def labels : Message where
  label := ⟨"Labels", ["Only maps."]⟩
  fields :=
    .plain ⟨"by_name", ["Counts by name."]⟩ (.map .string .int32) <|
    .plain ⟨"by_flag", []⟩ (.map .bool .string) <|
    .plain ⟨"by_number", []⟩ (.map .int32 .bool) .nil

def sink : Message where
  label := ⟨"Sink", ["Every kind of field."]⟩
  fields :=
    .plain ⟨"type", ["A reserved word as field name."]⟩ (.leaf (.enum mode)) <|
    .plain ⟨"http_rpc_url2", ["Acronyms and a digit."]⟩ (.leaf (.scalar .string)) <|
    .plain ⟨"count", []⟩ (.leaf (.scalar .int32)) <|
    .plain ⟨"on__off_", ["Doubled and trailing underscores."]⟩ (.leaf (.scalar .bool)) <|
    .plain ⟨"modes", []⟩ (.list (.enum mode)) <|
    .plain ⟨"flags", []⟩ (.list (.scalar .bool)) <|
    .plain ⟨"port_numbers", []⟩ (.list (.scalar .int32)) <|
    .plain ⟨"names", []⟩ (.list (.scalar .string)) <|
    .nested ⟨"child", ["One child."]⟩ leafy.label leafy.fields <|
    .nestedList ⟨"child_list", ["Many children."]⟩ leafy.label leafy.fields <|
    .nested ⟨"nothing", []⟩ empty.label empty.fields <|
    .nested ⟨"labels", []⟩ labels.label labels.fields <|
    .plain ⟨"only", []⟩ (.leaf (.enum single)) .nil

end LayeredConfig.Specimen
