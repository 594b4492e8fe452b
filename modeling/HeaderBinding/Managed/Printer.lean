import HeaderBinding.Managed.Basic

namespace HeaderBinding.Managed

def TypeRef.text : TypeRef → String
  | .primitive p => p.name
  | .named name => name
  | .pointer pointee => pointee.text ++ "*"
  | .array element => element.text ++ "[]"
  | .string => "String"
  | .stringBuilder => "StringBuilder"

def ConstantExpr.text : ConstantExpr → String
  | .literal v => v.literal.text
  | .enumMember type member => type ++ "." ++ member
  | .constant container name => container ++ "." ++ name

def Argument.text (a : Argument) : String :=
  match a.name with
  | some name => name ++ " = " ++ a.value.text
  | none => a.value.text

def Attribute.text (a : Attribute) : String :=
  if a.args.isEmpty then a.name
  else a.name ++ "(" ++ ", ".intercalate (a.args.map Argument.text) ++ ")"

def Method.text (m : Method) : String :=
  m.name ++ "(" ++
    ",".intercalate (m.params.map fun p => p.direction.managedName ++ " " ++ p.type.text) ++
    ") As " ++ m.returns.text

def line (s : String) : String :=
  s ++ "\n"

def attributeLines (indent : String) (attributes : List Attribute) : String :=
  String.join (attributes.map fun a => line (indent ++ "[" ++ a.text ++ "]"))

def Field.recordLines (f : Field) : String :=
  attributeLines "  " f.attributes ++ line ("  " ++ f.type.text ++ " " ++ f.name)

def Field.containerLine (f : Field) : String :=
  line ("  " ++ (if f.isConst then "const " else "") ++ f.type.text ++ " " ++ f.name ++
    match f.initial with
    | some v => " = " ++ v.text
    | none => "")

def Method.lines (m : Method) : String :=
  attributeLines "  " m.attributes ++ line ("  " ++ m.text)

def EnumMember.line (m : EnumMember) : String :=
  Managed.line ("  " ++ m.name ++ " = " ++ m.value.literal.text)

def TypeDecl.text (d : TypeDecl) : String :=
  attributeLines "" d.attributes ++
    match d.body with
    | .record fields => line ("struct " ++ d.name) ++ String.join (fields.map Field.recordLines)
    | .enumeration none members =>
      line ("enum " ++ d.name) ++ String.join (members.map EnumMember.line)
    | .enumeration (some p) members =>
      line ("enum " ++ d.name ++ " : " ++ p.name) ++ String.join (members.map EnumMember.line)
    | .delegate signature => line ("delegate " ++ signature.text)
    | .container fields methods =>
      line ("class " ++ d.name) ++ String.join (fields.map Field.containerLine) ++
        String.join (methods.map Method.lines)

def Bindings.text (b : Bindings) : String :=
  "\n".intercalate (b.types.map TypeDecl.text)

end HeaderBinding.Managed
