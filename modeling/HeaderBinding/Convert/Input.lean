import HeaderBinding.Declaration.Data
import HeaderBinding.Store.Basic

namespace HeaderBinding

structure DeclarationSet where
  typedefs : List Typedef
  definitions : List Definition
  constants : List Constant
  procedures : List Procedure
  diagnostics : Diagnostics

namespace DeclarationSet

open Json (may)

def empty : DeclarationSet := ⟨[], [], [], [], []⟩

def ofJson (form : Json.Form) : Json → Decoded DeclarationSet :=
  Json.toRecord form
    [may "typedefs" (Json.toList (Typedef.ofJson form)) fun ds s => { s with typedefs := ds },
     may "defined_types" (Json.toList (Definition.ofJson form)) fun ds s => { s with definitions := ds },
     may "constants" (Json.toList (Constant.ofJson form)) fun ds s => { s with constants := ds },
     may "procedures" (Json.toList (Procedure.ofJson form)) fun ds s => { s with procedures := ds }]
    empty

def ofText (text : String) : Decoded DeclarationSet :=
  Json.decodeText (ofJson .text) text

def append (s t : DeclarationSet) : DeclarationSet :=
  ⟨s.typedefs ++ t.typedefs, s.definitions ++ t.definitions, s.constants ++ t.constants,
    s.procedures ++ t.procedures, s.diagnostics ++ t.diagnostics⟩

def report (s : DeclarationSet) (d : Diagnostic) : DeclarationSet :=
  { s with diagnostics := s.diagnostics ++ [d] }

def size (s : DeclarationSet) : Nat :=
  s.typedefs.length + s.definitions.length + s.constants.length + s.procedures.length

def stage (d : DeclarationSet) (s : Store) : Store :=
  let s := d.typedefs.foldl Store.addTypedef s
  let s := d.definitions.foldl Store.addDefinition s
  let s := d.constants.foldl Store.addConstant s
  d.procedures.foldl Store.addProcedure s

end DeclarationSet

end HeaderBinding
