import HeaderBinding.Store.Basic

namespace HeaderBinding

inductive Entry where
  | synonym (d : Typedef)
  | definition (d : Definition)
  | constant (d : Constant)
  | procedure (d : Procedure)

namespace Store

def add (s : Store) : Entry → Store
  | .synonym d => s.addTypedef d
  | .definition d => s.addDefinition d
  | .constant d => s.addConstant d
  | .procedure d => s.addProcedure d

def find? (s : Store) (k : Key) : Option Entry :=
  match k.category with
  | .synonym => (s.typedefs.get? k.name).map .synonym
  | .definedType => (s.definitions.get? k.name).map .definition
  | .constant => (s.constants.get? k.name).map .constant
  | .procedure => (s.procedures.get? k.name).map .procedure

def remove (s : Store) (k : Key) : Option Entry × Store :=
  match k.category with
  | .synonym => (s.removeTypedef k.name).map (·.map .synonym) id
  | .definedType => (s.removeDefinition k.name).map (·.map .definition) id
  | .constant => (s.removeConstant k.name).map (·.map .constant) id
  | .procedure => (s.removeProcedure k.name).map (·.map .procedure) id

inductive Operation where
  | add (e : Entry)
  | commit
  | remove (k : Key)
  | find (k : Key)
  | findByName (name : String)
  | contains (k : Key)
  | missing (ks : List Key)
  | setFastLoad (on : Bool)

def Operation.changesMode : Operation → Bool
  | .setFastLoad _ => true
  | _ => false

inductive Answer where
  | report (r : CommitReport)
  | entry (e : Option Entry)
  | node (n : Option Node)
  | held (b : Bool)
  | keys (ks : List Key)

def perform (s : Store) : Operation → Store × List Answer
  | .add e => (s.add e, [])
  | .commit => (s.commit.1, [.report s.commit.2])
  | .remove k => ((s.remove k).2, [.entry (s.remove k).1])
  | .find k => (s, [.entry (s.find? k)])
  | .findByName name => (s, [.node (s.byName? name)])
  | .contains k => (s, [.held (s.contains k)])
  | .missing ks => (s, [.keys (s.missing ks)])
  | .setFastLoad on => (s.setFastLoad on, [])

def run (s : Store) : List Operation → Store × List Answer
  | [] => (s, [])
  | op :: rest =>
    let (t, answers) := s.perform op
    let (u, more) := t.run rest
    (u, answers ++ more)

end Store

end HeaderBinding
