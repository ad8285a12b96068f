import LayeredConfig.Code.Overlay

/-!
# Generated modules

The code of a schema is one module: a header that names the file it was made
from, then the enums and the messages in declaration order.
-/

namespace LayeredConfig.Code

structure Options where
  /-- The path under which the code finds its runtime. -/
  runtime : String := "::htconfig"
  /-- The name of the schema file, as the header gives it. -/
  sourceName : Option String := none
deriving DecidableEq, Inhabited

def header (options : Options) : Step :=
  .line (.comment (match options.sourceName with
    | some name => "@generated by htconfig from " ++ name ++ ". Do not edit."
    | none => "@generated by htconfig. Do not edit."))

/-- The code of a message.  A message without fields has no methods. -/
def messageCode (runtime : String) (decl : MessageDecl) : List Step :=
  record decl ++
  (if decl.fields.isEmpty then [] else .gap :: recordMethods decl) ++
  .gap :: overlay runtime decl

def moduleCode (schema : Schema) (options : Options) : List Step :=
  header options ::
  (schema.enums.flatMap (fun decl => .gap :: enumCode decl) ++
    schema.messages.flatMap (fun decl => .gap :: messageCode options.runtime decl))

def generate (schema : Schema) (options : Options) : String :=
  String.ofList (Step.writeAll 0 (moduleCode schema options))

end LayeredConfig.Code
