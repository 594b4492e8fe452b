import HeaderBinding.Emission.Options
import HeaderBinding.Export.ModuleList
import HeaderBinding.Resolve.Basic

namespace HeaderBinding

structure Config where
  modules : ModuleList
  searchPaths : List String
  bindsProcedures : Bool
  maxPasses : Option Nat
  seedsTypedefs : Bool
  fastLoad : Bool
  emission : EmitOptions
  deriving DecidableEq, Repr

namespace Config

open Json (may)

def standard : Config :=
  ⟨.standard, [], true, none, true, true, .standard⟩

def resolution (c : Config) : ResolveOptions :=
  ⟨c.bindsProcedures, c.maxPasses⟩

def toJson (c : Config) : Json :=
  .object [("modules", .array (c.modules.names.map .string)),
    ("search_paths", .array (c.searchPaths.map .string)),
    ("resolve_calling_conventions", .bool c.bindsProcedures),
    ("max_value_passes", match c.maxPasses with
      | some n => .integer n
      | none => .null),
    ("seed_base_typedefs", .bool c.seedsTypedefs),
    ("fast_load", .bool c.fastLoad),
    ("transform", c.emission.toJson)]

def ofJson (form : Json.Form) : Json → Decoded Config :=
  Json.toRecord form
    [may "modules" (Json.toList Json.toText) fun names c => { c with modules := ⟨names⟩ },
     may "search_paths" (Json.toList Json.toText) fun paths c => { c with searchPaths := paths },
     may "resolve_calling_conventions" Json.toBool fun b c => { c with bindsProcedures := b },
     may "max_value_passes" (Json.toOption (Json.toNatural (UInt64.size - 1))) fun n c =>
       { c with maxPasses := n },
     may "seed_base_typedefs" Json.toBool fun b c => { c with seedsTypedefs := b },
     may "fast_load" Json.toBool fun b c => { c with fastLoad := b },
     may "transform" (EmitOptions.ofJson form) fun o c => { c with emission := o }]
    standard

def ofText (text : String) : Decoded Config :=
  Json.decodeText (ofJson .text) text

end Config

end HeaderBinding
