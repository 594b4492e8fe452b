import HeaderBinding.Managed.Primitive
import HeaderBinding.Native.Data

namespace HeaderBinding

structure EmitOptions where
  constantsClass : String
  methodsClass : String
  convention : CallingConvention
  unknownModule : String
  primitives : Managed.PrimitiveTable
  deriving DecidableEq, Repr

namespace EmitOptions

open Json (may)

def standard : EmitOptions :=
  ⟨"NativeConstants", "NativeMethods", .winapi, "<unknown>", .standard⟩

def toJson (o : EmitOptions) : Json :=
  .object [("constants_class", .string o.constantsClass), ("methods_class", .string o.methodsClass),
    ("default_convention", o.convention.toJson), ("unknown_module", .string o.unknownModule)]

def ofJson (form : Json.Form) : Json → Decoded EmitOptions :=
  Json.toRecord form
    [may "constants_class" Json.toText fun name o => { o with constantsClass := name },
     may "methods_class" Json.toText fun name o => { o with methodsClass := name },
     may "default_convention" (CallingConvention.ofJson form) fun c o => { o with convention := c },
     may "unknown_module" Json.toText fun name o => { o with unknownModule := name }]
    standard

end EmitOptions

end HeaderBinding
