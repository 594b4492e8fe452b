import HeaderBinding.Proofs.Resolve.Assign

namespace HeaderBinding

def Reference.canonicalFrom (s : Store) (seen : Seen) (r : Reference) : Canonical :=
  match r.target with
  | none => .of (.unresolved r.name)
  | some (.builtin b) => .of (.builtin b)
  | some (.declaration k) =>
    if seen.has k then .of (.cycle r.name)
    else
      match s.node? k with
      | some (.synonym d) => (d.target.canonicalFrom s (seen.add k)).through d.name
      | some (.definition d) => .of (.definition d)
      | none => .of (.unresolved r.name)

def Node.assign (f : Values) : Node → Node
  | .synonym d => .synonym (d.assign f)
  | .definition d => .definition (d.assign f)

def Denoted.assign (f : Values) : Denoted → Denoted
  | .definition d => .definition (d.assign f)
  | .structural t => .structural (t.assign f)
  | .builtin b => .builtin b
  | .unresolved name => .unresolved name
  | .cycle name => .cycle name

def Canonical.assign (f : Values) (c : Canonical) : Canonical :=
  { c with denoted := c.denoted.assign f }

namespace NativeType

theorem canonicalFrom_named (s : Store) (seen : Seen) (r : Reference) :
    (named r).canonicalFrom s seen = (r.canonicalFrom s seen).qualified r.isConst := by
  rw [canonicalFrom, Reference.canonicalFrom]
  congr 1
  cases r.target with
  | none => rfl
  | some target =>
    cases target with
    | builtin b => rfl
    | declaration k =>
      dsimp only
      split
      · rfl
      · split <;> simp_all

theorem canonicalFrom_synonym (s : Store) (seen : Seen) (name : String) (target : NativeType) :
    (synonym name target).canonicalFrom s seen =
      if seen.has (.synonym name) then .of (.cycle name)
      else (target.canonicalFrom s (seen.add (.synonym name))).through name := by
  rw [canonicalFrom]

def isStructural : NativeType → Bool
  | .builtin _ | .synonym _ _ | .named _ => false
  | _ => true

theorem canonicalFrom_of_isStructural (s : Store) (seen : Seen) {x : NativeType}
    (h : x.isStructural = true) : x.canonicalFrom s seen = .of (.structural x) := by
  cases x with
  | builtin b => cases h
  | synonym name target => cases h
  | named r => cases h
  | _ => simp only [canonicalFrom]

theorem isStructural_of_ne {x : NativeType} (hbuiltin : ∀ b, x ≠ .builtin b)
    (hsynonym : ∀ name target, x ≠ .synonym name target) (hnamed : ∀ r, x ≠ .named r) : x.isStructural = true := by
  cases x with
  | builtin b => exact absurd rfl (hbuiltin b)
  | synonym name target => exact absurd rfl (hsynonym name target)
  | named r => exact absurd rfl (hnamed r)
  | _ => rfl

theorem isStructural_assign (f : Values) (x : NativeType) :
    (x.assign f).isStructural = x.isStructural := by
  cases x with
  | builtin b => rw [assign_builtin]
  | synonym name target => rw [assign_synonym, isStructural, isStructural]
  | named r => rw [assign_named]
  | pointer pointee => rw [assign_pointer]; rfl
  | array element rank length => rw [assign_array]; rfl
  | record kind body => rw [assign_record]; rfl
  | enumeration e => rw [assign_enumeration]; rfl
  | function signature => rw [assign_function]; rfl

variable {s t : Store} {f : Values}

theorem canonicalFrom_assign (h : ∀ k, t.node? k = (s.node? k).map (Node.assign f)) (seen : Seen)
    (x : NativeType) :
    (x.assign f).canonicalFrom t seen = (x.canonicalFrom s seen).assign f := by
  induction seen, x using canonicalFrom.induct s with
  | case1 seen b => rw [assign_builtin, canonicalFrom, canonicalFrom]; rfl
  | case2 seen name target hseen =>
    rw [assign_synonym, canonicalFrom_synonym, canonicalFrom_synonym, if_pos hseen, if_pos hseen]
    rfl
  | case3 seen name target hseen ih =>
    rw [assign_synonym, canonicalFrom_synonym, canonicalFrom_synonym, if_neg hseen, if_neg hseen, ih]
    rfl
  | case4 seen r ih =>
    rw [assign_named, canonicalFrom_named, canonicalFrom_named]
    unfold Reference.canonicalFrom
    cases r.target with
    | none => rfl
    | some target =>
      cases target with
      | builtin b => rfl
      | declaration k =>
        dsimp only
        by_cases hseen : seen.has k = true
        · rw [if_pos hseen, if_pos hseen]
          rfl
        · rw [if_neg hseen, if_neg hseen, h k]
          cases hk : s.node? k with
          | none => rfl
          | some node =>
            cases node with
            | definition d => rfl
            | synonym d =>
              have htarget := ih k hseen d hk
              simp only [Option.map_some, Node.assign, Typedef.assign, htarget]
              rfl
  | case5 seen x hbuiltin hsynonym hnamed =>
    have hx : x.isStructural = true := isStructural_of_ne hbuiltin hsynonym hnamed
    have hassigned : (x.assign f).isStructural = true := by rw [isStructural_assign, hx]
    rw [canonicalFrom_of_isStructural s seen hx, canonicalFrom_of_isStructural t seen hassigned]
    rfl

end NativeType

namespace Store

variable {s t : Store} {f : Values}

theorem node?_assign (f : Values) (s : Store) (k : Key) :
    (s.assign f).node? k = (s.node? k).map (Node.assign f) := by
  obtain ⟨category, n⟩ := k
  cases category with
  | synonym =>
    have htypedef : ∀ d : Typedef, Declaration.name (d.assign f) = Declaration.name d := fun _ => rfl
    simp only [node?, assign, Table.get?_map htypedef, Option.map_map]
    rfl
  | definedType =>
    have hdefinition : ∀ d : Definition, Declaration.name (d.assign f) = Declaration.name d :=
      Definition.name_assign f
    simp only [node?, assign, Table.get?_map hdefinition, Option.map_map]
    rfl
  | constant => rfl
  | procedure => rfl

theorem byName?_eq (s : Store) (name : String) :
    s.byName? name = (s.node? (.definedType name)).or (s.node? (.synonym name)) := by
  simp only [byName?, node?, Key.definedType, Key.synonym]
  cases s.definitions.get? name <;> rfl

theorem castTarget_node_assign (h : ∀ k, t.node? k = (s.node? k).map (Node.assign f)) (node : Node) :
    (node.assign f).castTarget t = node.castTarget s := by
  cases node with
  | definition d =>
    cases d with
    | enumeration e => rfl
    | record kind body => simp [Node.assign, Node.castTarget]
  | synonym d =>
    have htarget : (d.target.assign f).canonical t = (d.target.canonical s).assign f :=
      NativeType.canonicalFrom_assign h .nothing d.target
    simp only [Node.assign, Node.castTarget, Typedef.assign, htarget, Canonical.assign]
    cases (d.target.canonical s).denoted with
    | definition d => cases d <;> simp [Denoted.assign]
    | structural x => cases x <;> simp [Denoted.assign]
    | _ => rfl

theorem castTarget_assign (h : ∀ k, t.node? k = (s.node? k).map (Node.assign f)) :
    t.castTarget = s.castTarget := by
  funext name
  have hname : t.byName? name = (s.byName? name).map (Node.assign f) := by
    rw [byName?_eq, byName?_eq, h, h, Option.map_or]
  unfold castTarget
  rw [hname]
  cases s.byName? name with
  | none => rfl
  | some node => exact castTarget_node_assign h node

theorem castTarget_congr
    (h : ∀ k, (s.node? k).map (Node.assign f) = (t.node? k).map (Node.assign f)) :
    s.castTarget = t.castTarget := by
  have hs : (s.assign f).castTarget = s.castTarget := castTarget_assign (node?_assign f s)
  have ht : (s.assign f).castTarget = t.castTarget :=
    castTarget_assign fun k => (node?_assign f s k).trans (h k)
  rw [← hs, ht]

end Store

end HeaderBinding
