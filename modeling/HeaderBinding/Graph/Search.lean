import HeaderBinding.Graph.Reachable

namespace HeaderBinding

def Store.rootsOf (s : Store) (k : Key) : List NativeType :=
  (s.node? k).elim [] Node.roots

structure Search where
  pending : List NativeType
  seen : Seen
  found : List Key

namespace Search

def start (seen : Seen) (t : NativeType) : Search :=
  ⟨[t], seen, []⟩

def push (ts : List NativeType) (x : Search) : Search :=
  { x with pending := x.pending ++ ts.reverse }

def follow (s : Store) (k : Key) (x : Search) : Search :=
  if x.seen.has k then x
  else push (s.rootsOf k) { x with seen := x.seen.add k, found := x.found ++ [k] }

def take (s : Store) (t : NativeType) (x : Search) : Search :=
  match t with
  | .named r =>
    match r.target with
    | some (.declaration k) => x.follow s k
    | _ => x
  | t => x.push t.children

def turn (s : Store) (x : Search) : (List Key × Seen) ⊕ Search :=
  match x.pending.getLast? with
  | none => .inl (x.found, x.seen)
  | some t => .inr (take s t { x with pending := x.pending.dropLast })

inductive Finishes (s : Store) : Search → List Key × Seen → Prop where
  | now {x : Search} {result : List Key × Seen} : x.turn s = .inl result → Finishes s x result
  | later {x y : Search} {result : List Key × Seen} : x.turn s = .inr y → Finishes s y result → Finishes s x result

end Search

end HeaderBinding
