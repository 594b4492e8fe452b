import HeaderBinding.Json.Parser
import HeaderBinding.Numeral.Layout
import HeaderBinding.Numeral.Precision
import HeaderBinding.Text.Quoted

namespace HeaderBinding

namespace Json

inductive Found where
  | null
  | bool (b : Bool)
  | integer (n : Int)
  | double (x : Float)
  | string (s : String)
  | sequence
  | map
  | unitVariant

def Found.describe : Found → String
  | .null => "null"
  | .bool b => "boolean `" ++ (if b then "true" else "false") ++ "`"
  | .integer n => "integer `" ++ toString n ++ "`"
  | .double x => "floating point `" ++ Numeral.Layout.doubleData.double x ++ "`"
  | .string s => "string " ++ Text.quoteString s
  | .sequence => "sequence"
  | .map => "map"
  | .unitVariant => "unit variant"

inductive FlagFault where
  | empty
  | unknownName
  | badHex
  deriving DecidableEq

def FlagFault.message : FlagFault → String
  | .empty => "encountered empty flag"
  | .unknownName => "unrecognized named flag"
  | .badHex => "invalid hex flag"

end Json

inductive DecodeError where
  | missingField (name : String)
  | duplicateField (name : String)
  | unknownVariant (name : String)
  | invalidType (found : Json.Found)
  | invalidValue (found : Json.Found)
  | invalidLength (length : Nat)
  | invalidFlag (fault : Json.FlagFault)
  | notJson

def DecodeError.message? : DecodeError → Option String
  | .missingField name => some ("missing field `" ++ name ++ "`")
  | .duplicateField name => some ("duplicate field `" ++ name ++ "`")
  | .unknownVariant name => some ("unknown variant `" ++ name ++ "`")
  | .invalidType found => some ("invalid type: " ++ found.describe)
  | .invalidValue found => some ("invalid value: " ++ found.describe)
  | .invalidLength n => some ("invalid length " ++ toString n)
  | .invalidFlag fault => some fault.message
  | .notJson => none

abbrev Decoded (α : Type) := Except DecodeError α

namespace Json

inductive Form where
  | text
  | tree
  | held
  deriving DecidableEq

def found? : Json → Option Found
  | .null => some .null
  | .bool b => some (.bool b)
  | .integer n => some (.integer n)
  | .single x => some (.double (Numeral.widen x))
  | .double x => some (.double x)
  | .string s => some (.string s)
  | .array _ => some .sequence
  | .object _ => some .map
  | .fault _ => none

def mistyped (j : Json) : DecodeError :=
  match j.found? with
  | some found => .invalidType found
  | none => .notJson

def misvalued (j : Json) : DecodeError :=
  match j.found? with
  | some found => .invalidValue found
  | none => .notJson

def toBool : Json → Decoded Bool
  | .bool b => .ok b
  | j => .error j.mistyped

def toText : Json → Decoded String
  | .string s => .ok s
  | j => .error j.mistyped

def toInteger (low high : Int) : Json → Decoded Int
  | .integer n => if low ≤ n ∧ n ≤ high then .ok n else .error (.invalidValue (.integer n))
  | j => .error j.mistyped

def toNatural (high : Nat) (j : Json) : Decoded Nat :=
  (j.toInteger 0 high).map Int.toNat

def toDouble : Json → Decoded Float
  | .double x => .ok x
  | .single x => .ok (Numeral.widen x)
  | .integer n => .ok (Numeral.ofInt n)
  | j => .error j.mistyped

def toSingle : Json → Decoded Float32
  | .single x => .ok x
  | .double x => .ok (Numeral.narrow x)
  | .integer n => .ok (.ofModel (.ofInt n))
  | j => .error j.mistyped

def toCharacter : Json → Decoded Char
  | .string s =>
    match s.toList with
    | [c] => .ok c
    | _ => .error (.invalidValue (.string s))
  | j => .error j.mistyped

def toOption {α : Type} (read : Json → Decoded α) : Json → Decoded (Option α)
  | .null => .ok none
  | j => (read j).map some

def toList {α : Type} (read : Json → Decoded α) : Json → Decoded (List α)
  | .array items => items.mapM read
  | j => .error j.mistyped

def ignore : Json → Decoded Unit
  | .fault (.noKey _) => .error .notJson
  | j => if j.isCut then .error .notJson else .ok ()

def keep (j : Json) : Decoded Json :=
  if j.isSound then .ok j else .error .notJson

def toVariant (form : Form) (words : List String) : Json → Decoded String
  | .string s => if words.contains s then .ok s else .error (.unknownVariant s)
  | .object entries =>
    match form, entries with
    | .text, [] => .error .notJson
    | .text, (_, .fault (.noKey _)) :: _ => .error .notJson
    | .text, (key, value) :: rest =>
      if !words.contains key then .error (.unknownVariant key)
      else match value, rest with
        | .null, [] => .ok key
        | .null, _ => .error .notJson
        | value, _ => .error value.mistyped
    | _, [(key, value)] =>
      if !words.contains key then .error (.unknownVariant key)
      else match form, value with
        | _, .null => .ok key
        | .held, .object [] => .ok key
        | _, value => .error value.mistyped
    | _, _ => .error (.invalidValue .map)
  | j => .error (if form = .text then .notJson else j.mistyped)

structure Field (α : Type) where
  name : String
  required : Bool
  read : Json → α → Decoded α

def need {α β : Type} (name : String) (read : Json → Decoded β) (put : β → α → α) : Field α :=
  ⟨name, true, fun j a => (read j).map (put · a)⟩

def may {α β : Type} (name : String) (read : Json → Decoded β) (put : β → α → α) : Field α :=
  ⟨name, false, fun j a => (read j).map (put · a)⟩

def readEntries {α : Type} (fields : List (Field α)) (seen : List String) (a : α) :
    List (String × Json) → Decoded (List String × α)
  | [] => .ok (seen, a)
  | (key, j) :: rest =>
    match fields.find? (·.name == key) with
    | none => do
      j.ignore
      readEntries fields seen a rest
    | some field => do
      if seen.contains key then throw (.duplicateField key)
      let a ← field.read j a
      readEntries fields (key :: seen) a rest

def readItems {α : Type} (form : Form) (index : Nat) (a : α) : List (Field α) → List Json → Decoded α
  | [], [] => .ok a
  | [], items => .error (if form = .text then .notJson else .invalidLength (index + items.length))
  | field :: fields, [] =>
    if field.required then .error (.invalidLength index) else readItems form (index + 1) a fields []
  | field :: fields, j :: rest => do
    let a ← field.read j a
    readItems form (index + 1) a fields rest

def toRecord {α : Type} (form : Form) (fields : List (Field α)) (blank : α) : Json → Decoded α
  | .object entries => do
    let (seen, a) ← readEntries fields [] blank entries
    match fields.find? fun field => field.required && !seen.contains field.name with
    | some field => throw (.missingField field.name)
    | none => pure a
  | .array items => readItems form 0 blank fields items
  | j => .error j.mistyped

def toTag (form : Form) (words : List String) : Json → Decoded String
  | .string s => if words.contains s then .ok s else .error (.unknownVariant s)
  | .integer n =>
    if form = .held ∧ 0 ≤ n then
      match words[n.toNat]? with
      | some word => .ok word
      | none => .error (.invalidValue (.integer n))
    else .error (.invalidType (.integer n))
  | j => .error j.mistyped

def splitTag (form : Form) (tag : String) (words : List String) (word : Option String)
    (kept : List (String × Json)) : List (String × Json) → Decoded (Option String × List (String × Json))
  | [] => .ok (word, kept.reverse)
  | (key, j) :: rest =>
    if key = tag then
      match word with
      | some _ => .error (.duplicateField tag)
      | none => do
        let word ← j.toTag form words
        splitTag form tag words (some word) kept rest
    else do
      let j ← j.keep
      splitTag form tag words word ((key, j) :: kept) rest

def toTagged (form : Form) (tag : String) (words : List String) : Json → Decoded (String × Json)
  | .object entries => do
    match ← splitTag form tag words none [] entries with
    | (some word, kept) => pure (word, .object kept)
    | (none, _) => throw (.missingField tag)
  | .array [] => .error (.missingField tag)
  | .array (j :: rest) => do
    let word ← j.toTag form words
    let kept ← Json.keep (.array rest)
    pure (word, kept)
  | j => .error j.mistyped

def noMore (tag content : String) : List (String × Json) → Decoded Unit
  | [] => .ok ()
  | (key, j) :: rest =>
    if key = tag ∨ key = content then .error (.duplicateField key)
    else do
      j.ignore
      noMore tag content rest

def toAdjacent {α : Type} (form : Form) (tag content : String) (words : List String)
    (read : String → Form → Json → Decoded α) : Json → Decoded α
  | .object entries => start entries
  | .array [] => .error (.invalidLength 0)
  | .array (t :: items) => do
    let word ← t.toTag form words
    match items with
    | [] => throw (.invalidLength 1)
    | c :: rest =>
      let a ← read word form c
      if rest.isEmpty then pure a
      else throw (if form = .text then .notJson else .invalidLength (2 + rest.length))
  | j => .error j.mistyped
where
  start : List (String × Json) → Decoded α
    | [] => .error (.missingField tag)
    | (key, j) :: rest =>
      if key = tag then do
        let word ← j.toVariant form words
        afterTag word rest
      else if key = content then do
        let c ← j.keep
        afterContent c rest
      else do
        j.ignore
        start rest
  afterTag (word : String) : List (String × Json) → Decoded α
    | [] => .error (.missingField content)
    | (key, j) :: rest =>
      if key = tag then .error (.duplicateField tag)
      else if key = content then do
        let a ← read word form j
        noMore tag content rest
        pure a
      else do
        j.ignore
        afterTag word rest
  afterContent (c : Json) : List (String × Json) → Decoded α
    | [] => .error (.missingField tag)
    | (key, j) :: rest =>
      if key = content then .error (.duplicateField content)
      else if key = tag then do
        let word ← j.toVariant form words
        let a ← read word .held c
        noMore tag content rest
        pure a
      else do
        j.ignore
        afterContent c rest

def decodeText {α : Type} (read : Json → Decoded α) (text : String) : Decoded α :=
  let (j, whole) := scan text
  match read j with
  | .error e => .error e
  | .ok a => if whole then .ok a else .error .notJson

end Json

end HeaderBinding
