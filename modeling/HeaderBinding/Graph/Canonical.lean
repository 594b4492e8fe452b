import HeaderBinding.Graph.Seen

namespace HeaderBinding

inductive Denoted where
  | builtin (b : Builtin)
  | definition (d : Definition)
  | structural (t : NativeType)
  | unresolved (name : String)
  | cycle (name : String)

namespace Denoted

def word : Denoted → String
  | .builtin _ => "builtin"
  | .definition d => d.word
  | .structural _ => "type"
  | .unresolved _ => "unresolved"
  | .cycle _ => "cycle"

def name : Denoted → String
  | .builtin b => b.spelling
  | .definition d => d.name
  | .structural t => t.display
  | .unresolved name | .cycle name => name

end Denoted

structure Canonical where
  denoted : Denoted
  synonym : Option String
  owner : Option String
  isConst : Bool

namespace Canonical

def builtin? (c : Canonical) : Option Builtin :=
  match c.denoted with
  | .builtin b => some b
  | _ => none

def definition? (c : Canonical) : Option Definition :=
  match c.denoted with
  | .definition d => some d
  | _ => none

def record? (c : Canonical) : Option (Record NativeType) :=
  match c.denoted with
  | .definition d => d.body?
  | .structural (.record _ body) => some body
  | _ => none

def isRecord (c : Canonical) : Bool :=
  c.record?.isSome

def through (name : String) (c : Canonical) : Canonical :=
  { c with synonym := some name, owner := some (c.owner.getD name) }

def qualified (isConst : Bool) (c : Canonical) : Canonical :=
  { c with isConst := isConst || c.isConst }

def of (d : Denoted) : Canonical :=
  ⟨d, none, none, false⟩

end Canonical

namespace NativeType

def canonicalFrom (s : Store) (seen : Seen) (t : NativeType) : Canonical :=
  match t with
  | .builtin b => .of (.builtin b)
  | .synonym name target =>
    if seen.has (.synonym name) then .of (.cycle name)
    else (target.canonicalFrom s (seen.add (.synonym name))).through name
  | .named r =>
    .qualified r.isConst <|
      match r.target with
      | none => .of (.unresolved r.name)
      | some (.builtin b) => .of (.builtin b)
      | some (.declaration k) =>
        if seen.has k then .of (.cycle r.name)
        else
          match _ : s.node? k with
          | some (.synonym d) => (d.target.canonicalFrom s (seen.add k)).through d.name
          | some (.definition d) => .of (.definition d)
          | none => .of (.unresolved r.name)
  | t => .of (.structural t)
termination_by (s.unseen seen, sizeOf t)
decreasing_by
  · rcases Nat.lt_or_eq_of_le (s.unseen_add_le seen (.synonym name)) with h | h
    · exact Prod.Lex.left _ _ h
    · rw [h]; exact Prod.Lex.right _ (by rw [synonym.sizeOf_spec]; omega)
  · exact Prod.Lex.left _ _ (Store.unseen_add_lt ‹_› (by simpa using ‹¬seen.has k = true›))

def canonical (s : Store) (t : NativeType) : Canonical :=
  t.canonicalFrom s .nothing

end NativeType

end HeaderBinding
