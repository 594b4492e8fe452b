import HeaderBinding.Declaration.Basic
import HeaderBinding.Native.Data

namespace HeaderBinding

open Json (need may)

class DeclarationData (α : Type) extends Declaration α where
  toJson : α → Json
  ofJson : Json.Form → Json → Decoded α

namespace Typedef

def toJson (d : Typedef) : Json :=
  .object [("name", .string d.name), ("target", d.target.toJson)]

def ofJson (form : Json.Form) : Json → Decoded Typedef :=
  Json.toRecord form
    [need "name" Json.toText fun name d => { d with name := name },
     need "target" (NativeType.ofJson form) fun t d => { d with target := t }]
    ⟨"", .void⟩

instance : DeclarationData Typedef := { toJson, ofJson }

end Typedef

namespace Definition

def toJson : Definition → Json
  | .record kind body =>
    .object [("kind", .string kind.word), ("name", .string body.name),
      ("members", .array (NativeType.membersJson body.members))]
  | .enumeration e => .object (("kind", .string "enum") :: e.entries)

def ofJson (form : Json.Form) (j : Json) : Decoded Definition := do
  let (word, content) ← j.toTagged form "kind" ["struct", "union", "enum"]
  match word with
  | "struct" => (Record.ofJson .held (NativeType.ofJson .held) content).map (.record .struct)
  | "union" => (Record.ofJson .held (NativeType.ofJson .held) content).map (.record .union)
  | _ => (Enumeration.ofJson .held content).map .enumeration

instance : DeclarationData Definition := { toJson, ofJson }

end Definition

namespace ConstantKind

def word : ConstantKind → String
  | .preprocessor => "macro"
  | .declared => "declared"

def ofWord? : String → Option ConstantKind
  | "macro" => some .preprocessor
  | "declared" => some .declared
  | _ => none

def ofJson (form : Json.Form) : Json → Decoded ConstantKind :=
  ofWordJson form ["macro", "declared"] ofWord?

end ConstantKind

namespace Constant

def toJson (d : Constant) : Json :=
  .object ([("name", .string d.name), ("value", .string d.expr), ("kind", .string d.kind.word)] ++
    optional "resolved" TypedLiteral.toJson d.value)

def ofJson (form : Json.Form) : Json → Decoded Constant :=
  Json.toRecord form
    [need "name" Json.toText fun name d => { d with name := name },
     may "value" Json.toText fun e d => { d with expr := e },
     may "kind" (ConstantKind.ofJson form) fun k d => { d with kind := k },
     may "resolved" (Json.toOption (TypedLiteral.ofJson form)) fun v d => { d with value := v }]
    ⟨"", "", .declared, none⟩

instance : DeclarationData Constant := { toJson, ofJson }

end Constant

namespace Procedure

def toJson (d : Procedure) : Json :=
  .object ([("name", .string d.name), ("return_type", d.returns.toJson),
    ("params", .array (NativeType.paramsJson d.params))] ++
    optional "calling_convention" CallingConvention.toJson d.convention ++
    optional "source_module" .string d.module)

def ofJson (form : Json.Form) : Json → Decoded Procedure :=
  Json.toRecord form
    [need "name" Json.toText fun name d => { d with name := name },
     need "return_type" (NativeType.ofJson form) fun t d => { d with returns := t },
     may "params" (Json.toList (Parameter.ofJson form (NativeType.ofJson form))) fun ps d =>
       { d with params := ps },
     may "calling_convention" (Json.toOption (CallingConvention.ofJson form)) fun c d =>
       { d with convention := c },
     may "source_module" (Json.toOption Json.toText) fun s d => { d with module := s }]
    ⟨"", .void, [], none, none⟩

instance : DeclarationData Procedure := { toJson, ofJson }

end Procedure

end HeaderBinding
