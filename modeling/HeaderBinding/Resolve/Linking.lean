import HeaderBinding.Store.Basic

namespace HeaderBinding

structure LinkReport where
  linked : Nat
  alreadyLinked : Nat
  unresolved : Nat
  diagnostics : Diagnostics

namespace LinkReport

def empty : LinkReport := ⟨0, 0, 0, []⟩

end LinkReport

structure LinkTally where
  linked : Nat
  alreadyLinked : Nat
  missing : List String

namespace Store

def targetOf? (s : Store) (name : String) : Option Target :=
  match s.byName? name with
  | some node => some (.declaration node.key)
  | none => (Builtin.ofSpelling? name).map .builtin

def nameTable (s : Store) : Std.HashMap String Key :=
  enter s.definitions.toList (enter s.typedefs.toList ∅)
where
  enter {α : Type} [Declaration α] (entries : List α) (names : Std.HashMap String Key) : Std.HashMap String Key :=
    entries.foldl (fun names a => names.insert (Declaration.name a) (Declaration.key a)) names

def linkReference (s : Store) (r : Reference) : StateM LinkTally Reference := fun tally =>
  if r.isLinked then (r, { tally with alreadyLinked := tally.alreadyLinked + 1 })
  else
    match s.targetOf? r.name with
    | some target => ({ r with target := some target }, { tally with linked := tally.linked + 1 })
    | none => (r, { tally with missing := tally.missing ++ [r.name] })

def unknownType (subject : Key) (name : String) : Diagnostic :=
  .report .unresolvedReference (some subject) ("reference to unknown type '" ++ name ++ "' left opaque")

def linkDeclaration {α : Type} [Declaration α] (s : Store) (a : α) : StateM LinkReport α := fun report =>
  let (b, tally) := Declaration.mapReferencesM s.linkReference a ⟨0, 0, []⟩
  (b, {
    linked := report.linked + tally.linked
    alreadyLinked := report.alreadyLinked + tally.alreadyLinked
    unresolved := report.unresolved + tally.missing.length
    diagnostics :=
      report.diagnostics ++ tally.missing.eraseDups.map (unknownType (Declaration.key a)) })

def link (s : Store) : Store × LinkReport :=
  let (t, report) := (linkTables s).run .empty
  (t, report)
where
  linkTables (s : Store) : StateM LinkReport Store := do
    let typedefs ← s.typedefs.mapM s.linkDeclaration
    let definitions ← s.definitions.mapM s.linkDeclaration
    let procedures ← s.procedures.mapM s.linkDeclaration
    return { s with typedefs := typedefs, definitions := definitions, procedures := procedures }

end Store

end HeaderBinding
