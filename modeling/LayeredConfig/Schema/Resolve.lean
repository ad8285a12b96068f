import LayeredConfig.Schema.Cycle
import LayeredConfig.Schema.Raw

/-!
# Resolving schemas

A declared schema is resolved once: its names are checked, the types of its
fields are read against the table of declared names, and cycles are refused.
The first fault in declaration order is reported, faults of enums before those
of messages and cycles last.
-/

namespace LayeredConfig

/-- Why a schema is refused.  Names of values and fields carry the name of
their enum or message. -/
inductive SchemaError where
  | invalidName (name : String)
  | duplicateName (name : String)
  | emptyEnum (name : String)
  | unknownType (message field type : String)
  | invalidMap (message field type : String)
  | cycle (names : List String)
deriving DecidableEq, Inhabited

namespace SchemaError

def message : SchemaError → String
  | invalidName name => "Invalid name '" ++ name ++ "' in schema"
  | duplicateName name => "Duplicate name '" ++ name ++ "' in schema"
  | emptyEnum name => "Enum '" ++ name ++ "' declares no values"
  | unknownType message field type =>
    "Unknown type '" ++ type ++ "' for field " ++ message ++ "." ++ field
  | invalidMap message field type =>
    "Invalid map type '" ++ type ++ "' for field " ++ message ++ "." ++ field ++
      ": keys and values must be scalars"
  | cycle names => "Message cycle: " ++ " -> ".intercalate names

end SchemaError

namespace Schema

/-- The name of a value or field together with its owner. -/
def memberName (owner name : String) : String := owner ++ "." ++ name

/-- The first fault among the values of an enum: an invalid name, or a variant
that an earlier value or one of `seen` has already. -/
def valueFault? (owner : String) (seen : List String) : List String → Option SchemaError
  | [] => none
  | value :: values =>
    if !Name.isEnumValueName value then some (.invalidName (memberName owner value))
    else if seen.contains (Name.toVariant value) then
      some (.duplicateName (memberName owner value))
    else valueFault? owner (Name.toVariant value :: seen) values

/-- Values without a fault have distinct variants, none of them in `seen`. -/
theorem distinct_of_valueFault?_eq_none {owner : String} {seen values : List String}
    (h : valueFault? owner seen values = none) :
    (values.map Name.toVariant).Nodup ∧ ∀ value ∈ values, Name.toVariant value ∉ seen := by
  induction values generalizing seen with
  | nil => exact ⟨List.nodup_nil, fun _ hv => nomatch hv⟩
  | cons value values ih =>
    rw [valueFault?] at h
    split at h
    · exact nomatch h
    · split at h
      · exact nomatch h
      · rename_i hseen
        obtain ⟨hnodup, hfresh⟩ := ih h
        refine ⟨List.nodup_cons.2 ⟨fun hmem => ?_, hnodup⟩, fun v hv => ?_⟩
        · obtain ⟨v, hv, heq⟩ := List.mem_map.1 hmem
          exact hfresh v hv (heq ▸ List.mem_cons_self)
        · rcases List.mem_cons.1 hv with hv | hv
          · subst hv
            exact fun hmem => hseen (List.contains_iff_mem.2 hmem)
          · exact fun hmem => hfresh v hv (List.mem_cons_of_mem _ hmem)

theorem nodup_of_valueFault?_eq_none {owner : String} {values : List String}
    (h : valueFault? owner [] values = none) : values.Nodup :=
  (List.pairwise_map.1 (distinct_of_valueFault?_eq_none h).1).imp
    fun hne heq => hne (congrArg Name.toVariant heq)

def enumType (raw : RawEnum) : Except SchemaError EnumType :=
  match raw.values with
  | [] => .error (.emptyEnum raw.name)
  | first :: rest =>
    match h : valueFault? raw.name [] (first :: rest) with
    | some fault => .error fault
    | none => .ok ⟨raw.name, first, rest, nodup_of_valueFault?_eq_none h⟩

/-- Refuses a name that no type can have or that is taken. -/
def checkName (names : Names) (name : String) : Except SchemaError Unit :=
  if !Name.isTypeName name then .error (.invalidName name)
  else if (FieldType.declared? names name).isSome then .error (.duplicateName name)
  else .ok ()

def declareEnums (names : Names) : List RawEnum → Except SchemaError (List EnumDecl × Names)
  | [] => .ok ([], names)
  | raw :: raws => do
    checkName names raw.name
    let type ← enumType raw
    let (decls, names) ← declareEnums (names ++ [(raw.name, .enum type)]) raws
    .ok (⟨type, Text.trimString raw.doc⟩ :: decls, names)

def declareMessages (names : Names) : List RawMessage → Except SchemaError Names
  | [] => .ok names
  | raw :: raws => do
    checkName names raw.name
    declareMessages (names ++ [(raw.name, .message)]) raws

def fieldType (names : Names) (message : String) (raw : RawField) :
    Except SchemaError FieldType :=
  match FieldType.ofText? names raw.type with
  | some type => .ok type
  | none =>
    if (FieldType.mapTexts? raw.type).isSome then .error (.invalidMap message raw.name raw.type)
    else .error (.unknownType message raw.name raw.type)

/-- The fields of a message whose earlier fields have the names `seen`. -/
def resolveFields (names : Names) (message : String) (seen : List String) :
    List RawField → Except SchemaError (List FieldDecl)
  | [] => .ok []
  | raw :: raws => do
    if !Name.isFieldName raw.name then
      throw (.invalidName (memberName message raw.name))
    if seen.contains raw.name then
      throw (.duplicateName (memberName message raw.name))
    let type ← fieldType names message raw
    let fields ← resolveFields names message (raw.name :: seen) raws
    .ok (⟨raw.name, type, Text.trimString raw.doc⟩ :: fields)

/-- The name under which a map field takes entries from outside. -/
def setterName (field : String) : String := "put_" ++ field

/-- The first map field whose setter has the name of another field. -/
def setterClash? (fields : List FieldDecl) : Option FieldDecl :=
  fields.find? fun field =>
    match field.type with
    | .plain (.map _ _) => fields.any fun other => other.name = setterName field.name
    | _ => false

def resolveMessage (names : Names) (raw : RawMessage) : Except SchemaError MessageDecl := do
  let fields ← resolveFields names raw.name [] raw.fields
  match setterClash? fields with
  | some field => .error (.duplicateName (memberName raw.name (setterName field.name)))
  | none => .ok ⟨raw.name, Text.trimString raw.doc, fields⟩

def resolve (raw : RawSchema) : Except SchemaError Schema := do
  let (enums, names) ← declareEnums [] raw.enums
  let names ← declareMessages names raw.messages
  let messages ← raw.messages.mapM (resolveMessage names)
  match cycle? messages with
  | some names => .error (.cycle names)
  | none => .ok ⟨enums, messages⟩

end Schema

end LayeredConfig
