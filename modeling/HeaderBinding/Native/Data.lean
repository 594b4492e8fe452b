import HeaderBinding.Json.Decode
import HeaderBinding.Literal.Data
import HeaderBinding.Native.Walk

namespace HeaderBinding

open Json (need may)

namespace Qualifiers

def flag (text : List Char) : Except Json.FlagFault Qualifiers :=
  match text with
  | [] => .error .empty
  | '0' :: 'x' :: digits =>
    let digits := if digits.head? = some '+' then digits.tail else digits
    match hex? digits with
    | some n => if n < 256 then .ok ⟨UInt8.ofNat n⟩ else .error .badHex
    | none => .error .badHex
  | text =>
    if text = "CONST".toList then .ok .const
    else if text = "VOLATILE".toList then .ok .volatile
    else .error .unknownName
where
  hex? (digits : List Char) : Option Nat :=
    if digits.isEmpty then none
    else digits.foldlM (fun n c => (Json.hexValue? c).map (n * 16 + ·)) 0

def pieces (piece : List Char) : List Char → List (List Char)
  | [] => [piece.reverse]
  | c :: rest => if c = '|' then piece.reverse :: pieces [] rest else pieces (c :: piece) rest

def ofText (text : String) : Except Json.FlagFault Qualifiers :=
  if (Text.trimList text.toList).isEmpty then .ok .empty
  else (pieces [] text.toList).foldlM (fun q piece => do
    let f ← flag (Text.trimList piece)
    pure ⟨q.bits ||| f.bits⟩) .empty

def names (q : Qualifiers) : List String :=
  (if q.has .const then ["CONST"] else []) ++ (if q.has .volatile then ["VOLATILE"] else []) ++
    (if q.bits &&& 0xFC = 0 then [] else ["0x" ++ Text.hexDigits (q.bits &&& 0xFC).toNat])

def text (q : Qualifiers) : String :=
  " | ".intercalate q.names

def ofJson : Json → Decoded Qualifiers
  | .string s =>
    match ofText s with
    | .ok q => .ok q
    | .error fault => .error (.invalidFlag fault)
  | j => .error j.mistyped

end Qualifiers

def ofWordJson {α : Type} (form : Json.Form) (words : List String) (ofWord? : String → Option α)
    (j : Json) : Decoded α := do
  let w ← j.toVariant form words
  match ofWord? w with
  | some a => pure a
  | none => throw (.unknownVariant w)

def optional {α : Type} (key : String) (toJson : α → Json) : Option α → List (String × Json)
  | some a => [(key, toJson a)]
  | none => []

namespace BuiltinKind

def ofJson (form : Json.Form) : Json → Decoded BuiltinKind :=
  ofWordJson form (all.map word) ofWord?

end BuiltinKind

namespace Builtin

def entries (b : Builtin) : List (String × Json) :=
  [("kind", .string b.kind.word), ("is_unsigned", .bool b.isUnsigned)]

def ofJson (form : Json.Form) : Json → Decoded Builtin :=
  Json.toRecord form
    [need "kind" (BuiltinKind.ofJson form) fun k b => { b with kind := k },
     may "is_unsigned" Json.toBool fun u b => { b with isUnsigned := u }]
    .void

end Builtin

namespace CallingConvention

def toJson (c : CallingConvention) : Json :=
  .string c.word

def ofJson (form : Json.Form) : Json → Decoded CallingConvention :=
  ofWordJson form (all.map word) ofWord?

end CallingConvention

namespace Direction

def ofJson (form : Json.Form) : Json → Decoded Direction :=
  ofWordJson form (all.map word) ofWord?

end Direction

namespace ArrayLength

def toJson : ArrayLength → Json
  | .fixed n => .object [("fixed", .integer n.toNat)]
  | .constant name => .object [("constant", .string name)]

def ofJson : Json → Decoded ArrayLength
  | .object [(key, j)] =>
    if key = "fixed" then (j.toNatural (UInt64.size - 1)).map fun n => .fixed (UInt64.ofNat n)
    else if key = "constant" then j.toText.map .constant
    else .error (.unknownVariant key)
  | .object _ => .error (.invalidValue .map)
  | .string s =>
    .error (if s = "fixed" ∨ s = "constant" then .invalidType .unitVariant else .unknownVariant s)
  | j => .error j.mistyped

end ArrayLength

namespace Enumerator

def toJson (m : Enumerator) : Json :=
  .object ([("name", .string m.name)] ++ optional "value" .string m.expr ++
    optional "resolved" TypedLiteral.toJson m.value)

def ofJson (form : Json.Form) : Json → Decoded Enumerator :=
  Json.toRecord form
    [need "name" Json.toText fun name m => { m with name := name },
     may "value" (Json.toOption Json.toText) fun e m => { m with expr := e },
     may "resolved" (Json.toOption (TypedLiteral.ofJson form)) fun v m => { m with value := v }]
    ⟨"", none, none⟩

end Enumerator

namespace Enumeration

def entries (e : Enumeration) : List (String × Json) :=
  [("name", .string e.name), ("members", .array (e.members.map Enumerator.toJson))]

def ofJson (form : Json.Form) : Json → Decoded Enumeration :=
  Json.toRecord form
    [need "name" Json.toText fun name e => { e with name := name },
     may "members" (Json.toList (Enumerator.ofJson form)) fun ms e => { e with members := ms }]
    ⟨"", []⟩

end Enumeration

namespace Reference

def entries (r : Reference) : List (String × Json) :=
  ("name", .string r.name) ::
    (if r.qualifiers.bits = 0 then [] else [("qualifiers", .string r.qualifiers.text)])

def ofJson (form : Json.Form) : Json → Decoded Reference :=
  Json.toRecord form
    [need "name" Json.toText fun name r => { r with name := name },
     may "qualifiers" Qualifiers.ofJson fun q r => { r with qualifiers := q }]
    (.unlinked "" .empty)

end Reference

section

variable (form : Json.Form) (type : Json → Decoded NativeType)

def Member.ofJson : Json → Decoded (Member NativeType) :=
  Json.toRecord form
    [need "name" Json.toText fun name m => { m with name := name },
     need "type" type fun t m => { m with type := t }]
    ⟨"", .void⟩

def Record.ofJson : Json → Decoded (Record NativeType) :=
  Json.toRecord form
    [need "name" Json.toText fun name r => { r with name := name },
     may "members" (Json.toList (Member.ofJson form type)) fun ms r => { r with members := ms }]
    ⟨"", []⟩

def Parameter.ofJson : Json → Decoded (Parameter NativeType) :=
  Json.toRecord form
    [may "name" Json.toText fun name p => { p with name := name },
     need "type" type fun t p => { p with type := t },
     may "direction" (Direction.ofJson form) fun d p => { p with direction := d }]
    ⟨"", .void, .input⟩

def Signature.ofJson : Json → Decoded (Signature NativeType) :=
  Json.toRecord form
    [may "name" Json.toText fun name s => { s with name := name },
     need "return_type" type fun t s => { s with returns := t },
     may "params" (Json.toList (Parameter.ofJson form type)) fun ps s => { s with params := ps },
     may "calling_convention" (Json.toOption (CallingConvention.ofJson form)) fun c s =>
       { s with convention := c }]
    ⟨"", .void, [], none⟩

end

namespace NativeType

mutual
def toJson : NativeType → Json
  | .builtin b => .object (("node", .string "builtin") :: b.entries)
  | .pointer pointee => .object [("node", .string "pointer"), ("pointee", pointee.toJson)]
  | .array element rank length =>
    .object ([("node", .string "array"), ("element", element.toJson), ("rank", .integer rank.toNat)] ++
      optional "length" ArrayLength.toJson length)
  | .synonym name target =>
    .object [("node", .string "type_def"), ("name", .string name), ("target", target.toJson)]
  | .named r => .object (("node", .string "named") :: r.entries)
  | .record kind ⟨name, members⟩ =>
    .object [("node", .string kind.word), ("name", .string name), ("members", .array (membersJson members))]
  | .enumeration e => .object (("node", .string "enum") :: e.entries)
  | .function ⟨name, returns, params, convention⟩ =>
    .object ([("node", .string "function_pointer"), ("name", .string name),
      ("return_type", returns.toJson), ("params", .array (paramsJson params))] ++
      optional "calling_convention" CallingConvention.toJson convention)
termination_by structural t => t

def membersJson : List (Member NativeType) → List Json
  | [] => []
  | ⟨name, type⟩ :: rest => .object [("name", .string name), ("type", type.toJson)] :: membersJson rest
termination_by structural members => members

def paramsJson : List (Parameter NativeType) → List Json
  | [] => []
  | ⟨name, type, direction⟩ :: rest =>
    .object [("name", .string name), ("type", type.toJson), ("direction", .string direction.word)] ::
      paramsJson rest
termination_by structural params => params
end

def words : List String :=
  ["builtin", "pointer", "array", "type_def", "named", "struct", "union", "enum", "function_pointer"]

def ofContent (child : Json → Decoded NativeType) (word : String) (j : Json) : Decoded NativeType :=
  match word with
  | "builtin" => (Builtin.ofJson .held j).map .builtin
  | "pointer" => (j.toRecord .held [need "pointee" child fun t _ => t] void).map .pointer
  | "array" =>
    (j.toRecord .held
      [need "element" child fun t a => (t, a.2),
       may "rank" (Json.toNatural (UInt32.size - 1)) fun n a => (a.1, UInt32.ofNat n, a.2.2),
       may "length" (Json.toOption ArrayLength.ofJson) fun l a => (a.1, a.2.1, l)]
      (void, 1, none)).map fun (t, n, l) => .array t n l
  | "type_def" =>
    (j.toRecord .held
      [need "name" Json.toText fun name a => (name, a.2), need "target" child fun t a => (a.1, t)]
      ("", void)).map fun (name, t) => .synonym name t
  | "named" => (Reference.ofJson .held j).map .named
  | "struct" => (Record.ofJson .held child j).map (.record .struct)
  | "union" => (Record.ofJson .held child j).map (.record .union)
  | "enum" => (Enumeration.ofJson .held j).map .enumeration
  | "function_pointer" => (Signature.ofJson .held child j).map .function
  | w => .error (.unknownVariant w)

def ofJsonWithin : Nat → Json.Form → Json → Decoded NativeType
  | 0, _, _ => .error .notJson
  | levels + 1, form, j => do
    let (word, content) ← j.toTagged form "node" words
    ofContent (ofJsonWithin levels .held) word content

def ofJson (form : Json.Form) (j : Json) : Decoded NativeType :=
  ofJsonWithin (j.depth + 1) form j

end NativeType

end HeaderBinding
