import HeaderBinding.Proofs.Emission.Reach
import HeaderBinding.Proofs.Graph.Way

namespace HeaderBinding

def Canonical.isNameless (c : Canonical) : Bool :=
  match c.denoted with
  | .structural t => t.isBody && t.tag.isEmpty && c.owner.isNone
  | _ => false

def Typedef.hint (s : Store) (d : Typedef) (place : String) : String :=
  if (d.target.canonical s).isNameless then d.name else place

variable {o : EmitOptions} {s : Store} {d : Typedef} {use : NativeType → Position → String → Emit Marshalled}
  {x y : NativeType} {position : Position} {place hint : String}

theorem bodyName_through (c : Canonical) (name synonym place : String) :
    bodyName name (c.through synonym).owner place =
      bodyName name c.owner (if name.isEmpty && c.owner.isNone then synonym else place) := by
  unfold bodyName Canonical.through
  cases name.isEmpty <;> cases c.owner <;> rfl

def Canonical.Denotes (c c' : Canonical) : Prop :=
  c.denoted = c'.denoted ∧ c.isConst = c'.isConst

theorem Canonical.Denotes.isRecord_eq {c c' : Canonical} (h : c.Denotes c') : c.isRecord = c'.isRecord := by
  unfold isRecord record?
  rw [h.1]

theorem Canonical.Denotes.builtin?_eq {c c' : Canonical} (h : c.Denotes c') : c.builtin? = c'.builtin? := by
  unfold builtin?
  rw [h.1]

theorem marshalPointer_congr (hcanonical : (x.canonical s).Denotes (y.canonical s))
    (huse : use x .field place = use y .field hint) :
    marshalPointer s use x position place = marshalPointer s use y position hint := by
  unfold marshalPointer marshalPointer.reference
  dsimp only
  rw [hcanonical.1, hcanonical.2, hcanonical.isRecord_eq, huse]

theorem marshalArray_congr (length : Option ArrayLength) (hcanonical : (x.canonical s).Denotes (y.canonical s))
    (huse : use x .field place = use y .field hint) :
    marshalArray o s use x length place = marshalArray o s use y length hint := by
  unfold marshalArray marshalArray.elements
  rw [hcanonical.builtin?_eq, huse]

theorem NativeType.canonical_of_isStructural (s : Store) (h : x.isStructural = true) :
    x.canonical s = .of (.structural x) :=
  canonicalFrom_of_isStructural s .nothing h

theorem marshalStep_pointer (pointee : NativeType) (position : Position) (place : String) :
    marshalStep o s use (.pointer pointee) position place = marshalPointer s use pointee position place := by
  unfold marshalStep
  rw [NativeType.canonical_of_isStructural s rfl]
  rfl

theorem marshalStep_array (element : NativeType) (rank : UInt32) (length : Option ArrayLength) (position : Position)
    (place : String) :
    marshalStep o s use (.array element rank length) position place =
      match position with
      | .field => marshalArray o s use element length place
      | .parameter _ => marshalPointer s use element position place
      | .result => pure .handle := by
  unfold marshalStep
  rw [NativeType.canonical_of_isStructural s rfl]
  rfl

theorem marshalStep_through (h : x.canonical s = (d.target.canonical s).through d.name) :
    marshalStep o s use x position place = marshalStep o s use d.target position (d.hint s place) := by
  unfold marshalStep Typedef.hint Canonical.isNameless
  have hdenoted : ((d.target.canonical s).through d.name).denoted = (d.target.canonical s).denoted := rfl
  dsimp only
  rw [h, hdenoted]
  cases (d.target.canonical s).denoted with
  | structural t =>
    cases t with
    | record kind body => exact congrArg (fun name => _ <$> emitRecord use name kind body) (bodyName_through ..)
    | enumeration e => exact congrArg (fun name => _ <$> emitEnum name e) (bodyName_through ..)
    | function f => exact congrArg (fun name => _ <$> emitDelegate o use name f) (bodyName_through ..)
    | _ => rfl
  | definition d => cases d <;> rfl
  | _ => rfl

section

variable {r : Reference} (hd : s.follow? r = some (.synonym d)) (hconst : r.isConst = false)
  (hcycle : ∀ name, ((NativeType.named r).canonical s).denoted ≠ .cycle name)
include hd hconst hcycle

theorem canonical_named_unqualified :
    (NativeType.named r).canonical s = (d.target.canonical s).through d.name := by
  rw [NativeType.canonical_named_typedef hd hcycle, hconst]
  rfl

theorem marshalWithin_named_typedef (depth : Nat) (position : Position) (place : String) :
    marshalWithin o s depth (.named r) position place =
        marshalWithin o s depth d.target position (d.hint s place) ∧
      marshalWithin o s depth (.pointer (.named r)) position place =
        marshalWithin o s depth (.pointer d.target) position (d.hint s place) ∧
      ∀ rank length, marshalWithin o s depth (.array (.named r) rank length) position place =
        marshalWithin o s depth (.array d.target rank length) position (d.hint s place) := by
  have hcanonical := canonical_named_unqualified hd hconst hcycle
  have hdenotes : ((NativeType.named r).canonical s).Denotes (d.target.canonical s) := by
    rw [hcanonical]
    exact ⟨rfl, rfl⟩
  have huse (depth : Nat) (position : Position) : marshalWithin o s depth (.named r) position place =
      marshalWithin o s depth d.target position (d.hint s place) := by
    cases depth with
    | zero => rfl
    | succ depth => exact marshalStep_through hcanonical
  refine ⟨huse depth position, ?_, fun rank length => ?_⟩
  · cases depth with
    | zero => rfl
    | succ depth =>
      simp only [marshalWithin, marshalStep_pointer]
      exact marshalPointer_congr hdenotes (huse depth .field)
  · cases depth with
    | zero => rfl
    | succ depth =>
      simp only [marshalWithin, marshalStep_array]
      cases position with
      | field => exact marshalArray_congr length hdenotes (huse depth .field)
      | parameter direction => exact marshalPointer_congr hdenotes (huse depth .field)
      | result => rfl

end

def namelessPair : NativeType :=
  .record .struct ⟨"", [⟨"x", .builtin ⟨.int32, false⟩⟩, ⟨"y", .builtin ⟨.int32, false⟩⟩]⟩

def referenceTo (name : String) : Reference :=
  ⟨name, some (.declaration (.synonym name)), .empty⟩

def twiceNamed : Store :=
  let typedefs : List Typedef := [⟨"PAIR", namelessPair⟩, ⟨"POINT", .named (referenceTo "PAIR")⟩]
  { Store.empty with typedefs := ⟨typedefs.toArray, Table.indexOf typedefs⟩ }

theorem follow?_twiceNamed : twiceNamed.follow? (referenceTo "PAIR") = some (.synonym ⟨"PAIR", namelessPair⟩) ∧
    twiceNamed.follow? (referenceTo "POINT") = some (.synonym ⟨"POINT", .named (referenceTo "PAIR")⟩) := by
  have hindexed : twiceNamed.typedefs.Indexed := Table.indexed_indexOf _ (by decide)
  have hnode (name : String) : twiceNamed.follow? (referenceTo name) =
      (twiceNamed.typedefs.toList.find? (Declaration.name · == name)).map .synonym := by
    unfold Store.follow? Store.node? referenceTo
    dsimp only [Key.synonym]
    rw [hindexed.get?_eq]
  exact ⟨hnode "PAIR", hnode "POINT"⟩

theorem leads_twiceNamed (seen : Seen) (h : seen.has (.synonym "PAIR") = false) :
    Leads twiceNamed seen (.named (referenceTo "PAIR"))
      (.qualified false ((Canonical.of (.structural namelessPair)).through "PAIR")) :=
  .typedef rfl h follow?_twiceNamed.1 (.structural _ rfl)

theorem marshalWithin_twiceNamed :
    twiceNamed.follow? (referenceTo "POINT") = some (.synonym ⟨"POINT", .named (referenceTo "PAIR")⟩) ∧
      (marshalWithin .standard twiceNamed 3 (.named (referenceTo "POINT")) .field "S_at" =
          marshalWithin .standard twiceNamed 3 (.named (referenceTo "PAIR")) .field "S_at" ∧
        marshalWithin .standard twiceNamed 3 (.pointer (.named (referenceTo "POINT"))) .field "S_at" =
          marshalWithin .standard twiceNamed 3 (.pointer (.named (referenceTo "PAIR"))) .field "S_at") ∧
      marshalWithin .standard twiceNamed 3 (.named (referenceTo "PAIR")) .field "S_at" =
        marshalWithin .standard twiceNamed 3 namelessPair .field "PAIR" := by
  obtain ⟨hpair, hpoint⟩ := follow?_twiceNamed
  have hfresh : (Seen.nothing.add (.synonym "POINT")).has (.synonym "PAIR") = false := by decide +kernel
  have hpairForm := (leads_twiceNamed .nothing rfl).eq
  have hpointForm : (NativeType.named (referenceTo "POINT")).canonical twiceNamed = _ :=
    (Leads.typedef (k := .synonym "POINT") rfl rfl hpoint (leads_twiceNamed _ hfresh)).eq
  have hpointEnds (name : String) :
      ((NativeType.named (referenceTo "POINT")).canonical twiceNamed).denoted ≠ .cycle name := by
    rw [hpointForm]
    exact Denoted.noConfusion
  have hpairEnds (name : String) :
      ((NativeType.named (referenceTo "PAIR")).canonical twiceNamed).denoted ≠ .cycle name := by
    rw [NativeType.canonical, hpairForm]
    exact Denoted.noConfusion
  have hfirst := marshalWithin_named_typedef (o := .standard) hpoint rfl hpointEnds 3 .field "S_at"
  have hsecond := marshalWithin_named_typedef (o := .standard) hpair rfl hpairEnds 3 .field "S_at"
  have hkept : Typedef.hint twiceNamed ⟨"POINT", .named (referenceTo "PAIR")⟩ "S_at" = "S_at" := by
    unfold Typedef.hint
    rw [NativeType.canonical, hpairForm]
    rfl
  have htaken : Typedef.hint twiceNamed ⟨"PAIR", namelessPair⟩ "S_at" = "PAIR" := by
    unfold Typedef.hint
    rw [NativeType.canonical_of_isStructural _ rfl]
    rfl
  rw [hkept] at hfirst
  rw [htaken] at hsecond
  exact ⟨hpoint, ⟨hfirst.1, hfirst.2.1⟩, hsecond.1⟩

end HeaderBinding
