import HeaderBinding.Graph.Canonical

namespace HeaderBinding

structure Unwrapping where
  current : NativeType
  seen : Seen
  synonym : Option String
  owner : Option String
  isConst : Bool

namespace Unwrapping

def start (x : NativeType) : Unwrapping :=
  ⟨x, .nothing, none, none, false⟩

def enter (k : Key) (name : String) (target : NativeType) (u : Unwrapping) : Unwrapping :=
  ⟨target, u.seen.add k, u.synonym.or (some name), some name, u.isConst⟩

def finish (d : Denoted) (u : Unwrapping) : Canonical :=
  ⟨d, u.synonym, u.owner, u.isConst⟩

def turn (s : Store) (u : Unwrapping) : Canonical ⊕ Unwrapping :=
  match u.current with
  | .builtin b => .inl (u.finish (.builtin b))
  | .synonym name target =>
    if u.seen.has (.synonym name) then .inl (u.finish (.cycle name))
    else .inr (u.enter (.synonym name) name target)
  | .named r =>
    let u := { u with isConst := u.isConst || r.isConst }
    match r.target with
    | none => .inl (u.finish (.unresolved r.name))
    | some (.builtin b) => .inl (u.finish (.builtin b))
    | some (.declaration k) =>
      if u.seen.has k then .inl (u.finish (.cycle r.name))
      else
        match s.node? k with
        | some (.synonym d) => .inr (u.enter k d.name d.target)
        | some (.definition d) => .inl (u.finish (.definition d))
        | none => .inl (u.finish (.unresolved r.name))
  | t => .inl (u.finish (.structural t))

inductive Finishes (s : Store) : Unwrapping → Canonical → Prop where
  | now {u : Unwrapping} {c : Canonical} : u.turn s = .inl c → Finishes s u c
  | later {u v : Unwrapping} {c : Canonical} : u.turn s = .inr v → Finishes s v c → Finishes s u c

end Unwrapping

end HeaderBinding
