import HeaderBinding.Json.Basic
import HeaderBinding.Numeral.Layout
import HeaderBinding.Numeral.Precision

namespace HeaderBinding.Json

def escape (c : Char) : String :=
  if c = '"' then "\\\""
  else if c = '\\' then "\\\\"
  else if c = '\x08' then "\\b"
  else if c = '\t' then "\\t"
  else if c = '\n' then "\\n"
  else if c = '\x0c' then "\\f"
  else if c = '\r' then "\\r"
  else if c.toNat < 0x20 then "\\u" ++ Numeral.hexPadded 4 c.toNat
  else c.toString

def quote (s : String) : String :=
  "\"" ++ String.join (s.toList.map escape) ++ "\""

def doubleText (x : Float) : String :=
  if x.isFinite then Numeral.Layout.doubleData.double x else "null"

def singleText (x : Float32) : String :=
  if x.isFinite then Numeral.Layout.singleData.single x else "null"

mutual
def compact : Json → String
  | .null => "null"
  | .bool b => if b then "true" else "false"
  | .integer n => toString n
  | .single x => singleText x
  | .double x => doubleText x
  | .string s => quote s
  | .array [] => "[]"
  | .array (j :: rest) => "[" ++ j.compact ++ compactItems rest
  | .object [] => "\x7b\x7d"
  | .object ((key, j) :: rest) => "\x7b" ++ quote key ++ ":" ++ j.compact ++ compactEntries rest
  | .fault _ => ""
termination_by structural j => j

def compactItems : List Json → String
  | [] => "]"
  | j :: rest => "," ++ j.compact ++ compactItems rest
termination_by structural items => items

def compactEntries : List (String × Json) → String
  | [] => "\x7d"
  | (key, j) :: rest => "," ++ quote key ++ ":" ++ j.compact ++ compactEntries rest
termination_by structural entries => entries
end

def newline (level : Nat) : String :=
  "\n" ++ String.ofList (List.replicate (2 * level) ' ')

mutual
def pretty (level : Nat) : Json → String
  | .null => "null"
  | .bool b => if b then "true" else "false"
  | .integer n => toString n
  | .single x => singleText x
  | .double x => doubleText x
  | .string s => quote s
  | .array [] => "[]"
  | .array (j :: rest) =>
    "[" ++ newline (level + 1) ++ j.pretty (level + 1) ++ prettyItems level rest
  | .object [] => "\x7b\x7d"
  | .object ((key, j) :: rest) =>
    "\x7b" ++ newline (level + 1) ++ quote key ++ ": " ++ j.pretty (level + 1) ++
      prettyEntries level rest
  | .fault _ => ""
termination_by structural j => j

def prettyItems (level : Nat) : List Json → String
  | [] => newline level ++ "]"
  | j :: rest => "," ++ newline (level + 1) ++ j.pretty (level + 1) ++ prettyItems level rest
termination_by structural items => items

def prettyEntries (level : Nat) : List (String × Json) → String
  | [] => newline level ++ "\x7d"
  | (key, j) :: rest =>
    "," ++ newline (level + 1) ++ quote key ++ ": " ++ j.pretty (level + 1) ++
      prettyEntries level rest
termination_by structural entries => entries
end

end HeaderBinding.Json
