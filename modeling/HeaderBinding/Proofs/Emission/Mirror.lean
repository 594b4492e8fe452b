import HeaderBinding.Emission.Basic
import HeaderBinding.Proofs.Emission.Follow
import HeaderBinding.Proofs.Resolve.Linking

namespace HeaderBinding

open Managed (TypeRef TypeDecl)

def Denoted.isUnknown : Denoted → Bool
  | .unresolved _ | .cycle _ => true
  | _ => false

theorem Denoted.isUnknown_cases {d : Denoted} (h : d.isUnknown = true) :
    (∃ name, d = .unresolved name) ∨ ∃ name, d = .cycle name := by
  cases d with
  | unresolved name => exact .inl ⟨name, rfl⟩
  | cycle name => exact .inr ⟨name, rfl⟩
  | _ => cases h

section

variable (image : NativeType → NativeType) (covered : NativeType → Prop)

inductive Canonical.Mirrors (s : Store) (c c' : Canonical) : Prop where
  | builtin (b : Builtin) : c.denoted = .builtin b → c'.denoted = .builtin b → c'.isConst = c.isConst →
      Mirrors s c c'
  | structural (x : NativeType) : c.denoted = .structural x → c'.denoted = .structural (x.mapChildren image) →
      c'.owner = c.owner → (∀ child ∈ x.children, covered child) → Mirrors s c c'
  | definition (d : Definition) : d ∈ s.definitions.toList →
      c.denoted = .definition d ∨ c.denoted = .structural d.toType ∧ d.name ≠ "" →
      c'.denoted = .definition (Declaration.mapRoots image d) → Mirrors s c c'
  | unknown : c.denoted.isUnknown = true → c'.denoted.isUnknown = true → Mirrors s c c'

structure Store.Mirrors (s t : Store) : Prop where
  typedefs : t.typedefs.toList = s.typedefs.toList.map (Declaration.mapRoots image)
  definitions : t.definitions.toList = s.definitions.toList.map (Declaration.mapRoots image)
  constants : t.constants.toList = s.constants.toList
  procedures : t.procedures.toList = s.procedures.toList.map (Declaration.mapRoots image)
  typedef_covered : ∀ d ∈ s.typedefs.toList, ∀ x ∈ Declaration.roots d, covered x
  definition_covered : ∀ d ∈ s.definitions.toList, ∀ x ∈ Declaration.roots d, covered x
  procedure_covered : ∀ p ∈ s.procedures.toList, ∀ x ∈ Declaration.roots p, covered x
  boundValue?_eq : ∀ name, boundValue? t name = boundValue? s name
  canonical : ∀ x, covered x → (x.canonical s).Mirrors image covered s ((image x).canonical t)
  same_image : ∀ x y : NativeType, x.same y = true → (x.mapChildren image).same (y.mapChildren image) = true

end

variable {image : NativeType → NativeType} {covered : NativeType → Prop} {ready : Taken → Prop} {final : Taken}
  {o : EmitOptions} {s t : Store}

section

variable (hready : ∀ taken taken', Taken.Grows taken taken' → ready taken → ready taken')

include hready

theorem follows_map {α β : Type} {x x' : Emit α} (hx : Follows image ready final x x') (f : α → β) :
    Follows image ready final (do return f (← x)) (do return f (← x')) :=
  hx.bind hready fun a => .pure (f a)

theorem follows_forM {α β : Type} {f : α → Emit Unit} {g : β → Emit Unit} {h : α → β} (as : List α)
    (hfollows : ∀ a ∈ as, Follows image ready final (f a) (g (h a))) :
    Follows image ready final (as.forM f) ((as.map h).forM g) := by
  induction as with
  | nil => exact .pure ()
  | cons a rest ih =>
    obtain ⟨ha, hrest⟩ := List.forall_mem_cons.mp hfollows
    exact ha.bind hready fun _ => ih hrest

theorem follows_mapM {α β γ : Type} {f : α → Emit γ} {g : β → Emit γ} {h : α → β} (as : List α)
    (hfollows : ∀ a ∈ as, Follows image ready final (f a) (g (h a))) :
    Follows image ready final (as.mapM f) ((as.map h).mapM g) := by
  induction as with
  | nil => exact .pure []
  | cons a rest ih =>
    obtain ⟨ha, hrest⟩ := List.forall_mem_cons.mp hfollows
    rw [List.map_cons, List.mapM_cons, List.mapM_cons]
    exact ha.bind hready fun b => (ih hrest).bind hready fun bs => .pure (b :: bs)

variable (hsame : ∀ x y : NativeType, x.same y = true → (x.mapChildren image).same (y.mapChildren image) = true)
  (hfinal : final.Apart image)

section

include hsame hfinal

theorem follows_declareOnce (name : String) (body : NativeType) {make make' : String → Emit TypeDecl}
    (hmake : ∀ given, Follows image ready final (make given) (make' given)) :
    Follows image ready final (declareOnce name body make) (declareOnce name (body.mapChildren image) make') := by
  refine (Follows.claim hsame hfinal name body).bind hready fun (given, isNew) => ?_
  cases isNew with
  | false => exact .pure (TypeRef.named given)
  | true =>
    refine (hmake given).bind hready fun t => ?_
    exact (Follows.modify fun _ _ => rfl).bind hready fun _ => .pure (TypeRef.named given)

theorem follows_enum (name : String) (e : Enumeration) :
    Follows image ready final (emitEnum name e) (emitEnum name e) :=
  follows_declareOnce hready hsame hfinal name (.enumeration e) fun given =>
    (Follows.modify fun _ _ => rfl).bind hready fun _ => .pure (enumDecl given e)

end

variable {use use' : NativeType → Position → String → Emit Marshalled}
  (huse : ∀ x, covered x → ∀ position place, Follows image ready final (use x position place)
    (use' (image x) position place))

include huse

theorem follows_field (kind : RecordKind) (record : String) (index : Nat) {m : Member NativeType}
    (hm : covered m.type) :
    Follows image ready final (emitField use kind record index m)
      (emitField use' kind record index { m with type := image m.type }) :=
  (huse m.type hm .field _).bind hready fun _ => .pure _

theorem follows_fields (kind : RecordKind) (record : String) (index : Nat) (ms : List (Member NativeType))
    (hms : ∀ m ∈ ms, covered m.type) :
    Follows image ready final (emitFields use kind record index ms)
      (emitFields use' kind record index (ms.map fun m => { m with type := image m.type })) := by
  induction ms generalizing index with
  | nil => exact .pure []
  | cons m rest ih =>
    obtain ⟨hm, hrest⟩ := List.forall_mem_cons.mp hms
    refine (follows_field hready huse kind record index hm).bind hready fun f => ?_
    exact (ih (index + 1) hrest).bind hready fun fs => .pure (f :: fs)

theorem follows_recordDecl (given : String) (kind : RecordKind) (body : Record NativeType)
    (hbody : ∀ m ∈ body.members, covered m.type) :
    Follows image ready final (recordDecl use given kind body)
      (recordDecl use' given kind ⟨body.name, body.members.map fun m => { m with type := image m.type }⟩) := by
  refine Follows.get fun d taken => ?_
  refine (Follows.modify fun _ _ => rfl).bind hready fun _ => ?_
  refine (follows_fields hready huse kind given 0 body.members hbody).bind hready fun fields => ?_
  exact (Follows.modify fun _ _ => rfl).bind hready fun _ => .pure _

theorem follows_param (method : String) (index : Nat) {p : Parameter NativeType} (hp : covered p.type) :
    Follows image ready final (emitParam use method index p)
      (emitParam use' method index { p with type := image p.type }) :=
  (huse p.type hp (.parameter p.direction) _).bind hready fun _ => .pure _

theorem follows_params (method : String) (index : Nat) (ps : List (Parameter NativeType))
    (hps : ∀ p ∈ ps, covered p.type) :
    Follows image ready final (emitParams use method index ps)
      (emitParams use' method index (ps.map fun p => { p with type := image p.type })) := by
  induction ps generalizing index with
  | nil => exact .pure []
  | cons p rest ih =>
    obtain ⟨hp, hrest⟩ := List.forall_mem_cons.mp hps
    refine (follows_param hready huse method index hp).bind hready fun q => ?_
    exact (ih (index + 1) hrest).bind hready fun qs => .pure (q :: qs)

theorem follows_method (name : String) {returns : NativeType} (hreturns : covered returns)
    (ps : List (Parameter NativeType)) (hps : ∀ p ∈ ps, covered p.type) :
    Follows image ready final (emitMethod use name returns ps)
      (emitMethod use' name (image returns) (ps.map fun p => { p with type := image p.type })) := by
  refine (huse returns hreturns .result _).bind hready fun u => ?_
  exact (follows_params hready huse name 0 ps hps).bind hready fun qs => .pure _

include hsame hfinal

theorem follows_record (name : String) (kind : RecordKind) (body : Record NativeType)
    (hbody : ∀ m ∈ body.members, covered m.type) :
    Follows image ready final (emitRecord use name kind body)
      (emitRecord use' name kind ⟨body.name, body.members.map fun m => { m with type := image m.type }⟩) :=
  follows_declareOnce hready hsame hfinal name (.record kind body) fun given =>
    follows_recordDecl hready huse given kind body hbody

theorem follows_delegate (name : String) (f : Signature NativeType) (hreturns : covered f.returns)
    (hps : ∀ p ∈ f.params, covered p.type) :
    Follows image ready final (emitDelegate o use name f)
      (emitDelegate o use' name
        { f with returns := image f.returns, params := f.params.map fun p => { p with type := image p.type } }) :=
  follows_declareOnce hready hsame hfinal name (.function f) fun given =>
    (follows_method hready huse given hreturns f.params hps).bind hready fun _ => .pure _

end

theorem Canonical.Mirrors.builtin?_eq {c c' : Canonical} (h : c.Mirrors image covered s c') :
    c'.builtin? = c.builtin? := by
  unfold Canonical.builtin?
  cases h with
  | builtin b hc hc' _ => rw [hc, hc']
  | structural x hc hc' _ _ => rw [hc, hc']
  | definition d _ hc hc' => rcases hc with hc | ⟨hc, -⟩ <;> rw [hc, hc']
  | unknown hc hc' =>
    rcases Denoted.isUnknown_cases hc with ⟨_, hc⟩ | ⟨_, hc⟩ <;>
      rcases Denoted.isUnknown_cases hc' with ⟨_, hc'⟩ | ⟨_, hc'⟩ <;>
        rw [hc, hc']

theorem Canonical.Mirrors.isRecord_eq {c c' : Canonical} (h : c.Mirrors image covered s c') :
    c'.isRecord = c.isRecord := by
  unfold Canonical.isRecord Canonical.record?
  cases h with
  | builtin b hc hc' _ => rw [hc, hc']
  | structural x hc hc' _ _ =>
    rw [hc, hc']
    cases x <;> rfl
  | definition d _ hc hc' =>
    rw [hc']
    cases d with
    | record kind body => rcases hc with hc | ⟨hc, -⟩ <;> rw [hc, Definition.mapRoots_record] <;> rfl
    | enumeration e => rcases hc with hc | ⟨hc, -⟩ <;> rw [hc] <;> rfl
  | unknown hc hc' =>
    rcases Denoted.isUnknown_cases hc with ⟨_, hc⟩ | ⟨_, hc⟩ <;>
      rcases Denoted.isUnknown_cases hc' with ⟨_, hc'⟩ | ⟨_, hc'⟩ <;>
        rw [hc, hc']

theorem marshalPointer_of_known (s : Store) (use : NativeType → Position → String → Emit Marshalled)
    {pointee : NativeType} (hbuiltin : (pointee.canonical s).builtin? = none)
    (hknown : (pointee.canonical s).denoted.isUnknown = false) (position : Position) (place : String) :
    marshalPointer s use pointee position place =
      match position with
      | .field =>
        if (pointee.canonical s).isRecord then do
          let u ← use pointee .field place
          return .plain (.pointer u.type)
        else return .handle
      | position => marshalPointer.reference use pointee place position := by
  unfold marshalPointer
  unfold Canonical.builtin? at hbuiltin
  dsimp only
  cases hd : (pointee.canonical s).denoted with
  | builtin b => simp [hd] at hbuiltin
  | unresolved _ | cycle _ => simp [hd, Denoted.isUnknown] at hknown
  | _ => cases position <;> rfl

theorem marshalPointer_of_unknown (s : Store) (use : NativeType → Position → String → Emit Marshalled)
    {pointee : NativeType} (h : (pointee.canonical s).denoted.isUnknown = true) (position : Position)
    (place : String) : marshalPointer s use pointee position place = pure .handle := by
  unfold marshalPointer
  dsimp only
  rcases Denoted.isUnknown_cases h with ⟨_, h⟩ | ⟨_, h⟩ <;> rw [h]

section

variable (h : s.Mirrors image covered t)
  (hready : ∀ taken taken', Taken.Grows taken taken' → ready taken → ready taken')

include hready

theorem follows_sizeOfArray (hbound : ∀ name, boundValue? t name = boundValue? s name) (length : Option ArrayLength) :
    Follows image ready final (sizeOfArray o s length) (sizeOfArray o t length) := by
  cases length with
  | none => exact .pure none
  | some length =>
    cases length with
    | fixed n => exact .pure _
    | constant name =>
      unfold sizeOfArray
      simp only [hbound]
      split
      · exact (Follows.modify fun _ _ => rfl).bind hready fun _ => .pure _
      · exact (Follows.modify fun _ _ => rfl).bind hready fun _ => .pure none

variable {use use' : NativeType → Position → String → Emit Marshalled}
  (huse : ∀ x, covered x → ∀ position place, Follows image ready final (use x position place)
    (use' (image x) position place))

include huse

theorem follows_reference {pointee : NativeType} (hpointee : covered pointee) (position : Position) (place : String) :
    Follows image ready final (marshalPointer.reference use pointee place position)
      (marshalPointer.reference use' (image pointee) place position) := by
  cases position with
  | parameter declared => exact follows_map hready (huse pointee hpointee .field place) _
  | field => exact .pure _
  | result => exact .pure _

theorem follows_elements {element : NativeType} (helement : covered element) (place : String)
    (sized : String → Managed.Attribute) :
    Follows image ready final (marshalArray.elements use element place sized)
      (marshalArray.elements use' (image element) place sized) :=
  follows_map hready (huse element helement .field place) _

include h

theorem follows_pointer {pointee : NativeType} (hpointee : covered pointee) (position : Position) (place : String) :
    Follows image ready final (marshalPointer s use pointee position place)
      (marshalPointer t use' (image pointee) position place) := by
  have hcanonical := h.canonical pointee hpointee
  have hreference := fun position => follows_reference hready huse hpointee position place
  have hknown (hb : (pointee.canonical s).builtin? = none) (hs : (pointee.canonical s).denoted.isUnknown = false)
      (ht : ((image pointee).canonical t).denoted.isUnknown = false) :
      Follows image ready final (marshalPointer s use pointee position place)
        (marshalPointer t use' (image pointee) position place) := by
    rw [marshalPointer_of_known s use hb hs,
      marshalPointer_of_known t use' (hcanonical.builtin?_eq.trans hb) ht, hcanonical.isRecord_eq]
    cases position with
    | field =>
      dsimp only
      split
      · exact follows_map hready (huse pointee hpointee .field place) _
      · exact .pure _
    | parameter declared => exact hreference _
    | result => exact hreference _
  cases hcanonical with
  | builtin b hc hc' hconst =>
    unfold marshalPointer
    dsimp only
    rw [hc, hc', hconst]
    dsimp only
    split
    · exact .pure _
    · split
      · cases position with
        | parameter declared => exact .pure _
        | field => exact .pure _
        | result => exact .pure _
      · exact hreference position
  | structural x hc hc' howner hx =>
    exact hknown (by rw [Canonical.builtin?, hc]) (by rw [hc]; rfl) (by rw [hc']; rfl)
  | definition d hd hc hc' =>
    refine hknown ?_ ?_ (by rw [hc']; rfl)
    · rcases hc with hc | ⟨hc, -⟩ <;> rw [Canonical.builtin?, hc]
    · rcases hc with hc | ⟨hc, -⟩ <;> rw [hc] <;> rfl
  | unknown hc hc' =>
    rw [marshalPointer_of_unknown s use hc, marshalPointer_of_unknown t use' hc']
    exact .pure _

theorem follows_array {element : NativeType} (helement : covered element) (length : Option ArrayLength)
    (place : String) : Follows image ready final (marshalArray o s use element length place)
      (marshalArray o t use' (image element) length place) := by
  refine (follows_sizeOfArray hready h.boundValue?_eq length).bind hready fun size => ?_
  cases size with
  | none => exact .pure _
  | some size =>
    dsimp only
    rw [(h.canonical element helement).builtin?_eq]
    have helements := fun sized => follows_elements hready huse helement place sized
    cases (element.canonical s).builtin? with
    | none => exact helements _
    | some b =>
      dsimp only
      split
      · exact .pure _
      · exact helements _

end

def definitionDecl (use : NativeType → Position → String → Emit Marshalled) (d : Definition) (given : String) :
    Emit TypeDecl :=
  match d with
  | .record kind body => recordDecl use given kind body
  | .enumeration e => do
    modify fun d => { d with skipped := d.skipped ++ unvaluedMembers given e }
    return enumDecl given e

def declareDefinition (use : NativeType → Position → String → Emit Marshalled) (d : Definition) : Emit TypeRef :=
  declareOnce d.name d.toType (definitionDecl use d)

theorem emitDefinition_eq (use : NativeType → Position → String → Emit Marshalled) (d : Definition) :
    emitDefinition use d = (do let _ ← declareDefinition use d) := by
  cases d <;> rfl

theorem Definition.toType_mapRoots (f : NativeType → NativeType) (d : Definition) :
    (Declaration.mapRoots f d).toType = d.toType.mapChildren f := by
  cases d with
  | record kind body =>
    rw [mapRoots_record]
    rfl
  | enumeration e => rfl

theorem Definition.name_mapRoots (f : NativeType → NativeType) (d : Definition) :
    (Declaration.mapRoots f d).name = d.name :=
  LawfulDeclaration.name_mapRoots f d

theorem bodyName_of_ne {name : String} (h : name ≠ "") (owner : Option String) (place : String) :
    bodyName name owner place = name :=
  if_neg (by simpa using h)

theorem marshalStep_of_definition (o : EmitOptions) (s : Store) (use : NativeType → Position → String → Emit Marshalled)
    {x : NativeType} {d : Definition}
    (hx : (x.canonical s).denoted = .definition d ∨ (x.canonical s).denoted = .structural d.toType ∧ d.name ≠ "")
    (position : Position) (place : String) :
    marshalStep o s use x position place = do return .plain (← declareDefinition use d) := by
  unfold marshalStep
  dsimp only
  cases d with
  | record kind body =>
    rcases hx with hx | ⟨hx, hname⟩
    · rw [hx]
      rfl
    · have hbody : body.name ≠ "" := hname
      rw [hx]
      dsimp only [Definition.toType]
      rw [bodyName_of_ne hbody]
      rfl
  | enumeration e =>
    rcases hx with hx | ⟨hx, hname⟩
    · rw [hx]
      rfl
    · have hbody : e.name ≠ "" := hname
      rw [hx]
      dsimp only [Definition.toType]
      rw [bodyName_of_ne hbody]
      rfl

section

variable (h : s.Mirrors image covered t) (hfinal : final.Apart image)
  (hready : ∀ taken taken', Taken.Grows taken taken' → ready taken → ready taken')

include h hfinal hready

section

variable {use use' : NativeType → Position → String → Emit Marshalled}
  (huse : ∀ x, covered x → ∀ position place, Follows image ready final (use x position place)
    (use' (image x) position place))

include huse

omit hfinal in
theorem follows_definitionDecl {d : Definition} (hd : d ∈ s.definitions.toList) (given : String) :
    Follows image ready final (definitionDecl use d given)
      (definitionDecl use' (Declaration.mapRoots image d) given) := by
  cases d with
  | record kind body =>
    rw [Definition.mapRoots_record]
    refine follows_recordDecl hready huse given kind body fun m hm => ?_
    exact h.definition_covered _ hd m.type (List.mem_map_of_mem hm)
  | enumeration e => exact (Follows.modify fun _ _ => rfl).bind hready fun _ => .pure _

theorem follows_declareDefinition {d : Definition} (hd : d ∈ s.definitions.toList) :
    Follows image ready final (declareDefinition use d) (declareDefinition use' (Declaration.mapRoots image d)) := by
  unfold declareDefinition
  rw [Definition.name_mapRoots, Definition.toType_mapRoots]
  exact follows_declareOnce hready h.same_image hfinal d.name d.toType (follows_definitionDecl h hready huse hd)

theorem follows_step {x : NativeType} (hx : covered x) (position : Position) (place : String) :
    Follows image ready final (marshalStep o s use x position place)
      (marshalStep o t use' (image x) position place) := by
  cases h.canonical x hx with
  | builtin b hc hc' _ =>
    unfold marshalStep
    dsimp only
    rw [hc, hc']
    exact .pure _
  | structural y hc hc' howner hy =>
    unfold marshalStep
    dsimp only
    rw [hc, hc', howner]
    cases y with
    | pointer pointee => exact follows_pointer h hready huse (hy pointee (List.mem_singleton_self _)) position place
    | array element rank length =>
      have helement := hy element (List.mem_singleton_self _)
      cases position with
      | field => exact follows_array h hready huse helement length place
      | parameter declared => exact follows_pointer h hready huse helement (.parameter declared) place
      | result => exact .pure _
    | record kind body =>
      refine follows_map hready ?_ Marshalled.plain
      refine follows_record hready h.same_image hfinal huse _ kind body fun m hm => ?_
      exact hy m.type (List.mem_map_of_mem hm)
    | enumeration e => exact follows_map hready (follows_enum hready h.same_image hfinal _ e) Marshalled.plain
    | function f =>
      refine follows_map hready ?_ Marshalled.plain
      refine follows_delegate hready h.same_image hfinal huse _ f (hy f.returns (List.mem_cons_self ..)) fun p hp => ?_
      exact hy p.type (List.mem_cons_of_mem _ (List.mem_map_of_mem hp))
    | builtin b => exact .pure _
    | synonym name target => exact .pure _
    | named r => exact .pure _
  | definition d hd hc hc' =>
    rw [marshalStep_of_definition o s use hc position place,
      marshalStep_of_definition o t use' (.inl hc') position place]
    exact follows_map hready (follows_declareDefinition h hfinal hready huse hd) Marshalled.plain
  | unknown hc hc' =>
    unfold marshalStep
    dsimp only
    rcases Denoted.isUnknown_cases hc with ⟨_, hc⟩ | ⟨_, hc⟩ <;>
      rcases Denoted.isUnknown_cases hc' with ⟨_, hc'⟩ | ⟨_, hc'⟩ <;>
        rw [hc, hc'] <;> exact .pure _

end

theorem follows_marshalWithin {depth depth' : Nat} (hdepth : depth ≤ depth') (x : NativeType) (hx : covered x)
    (position : Position) (place : String) : Follows image ready final (marshalWithin o s depth x position place)
      (marshalWithin o t depth' (image x) position place) := by
  induction depth generalizing depth' x position place with
  | zero =>
    intro d a e hrun
    cases hrun
  | succ depth ih =>
    obtain ⟨depth', rfl⟩ : ∃ n, depth' = n + 1 := ⟨depth' - 1, by omega⟩
    refine follows_step h hfinal hready (fun y hy position place => ?_) hx position place
    exact ih (Nat.le_of_succ_le_succ hdepth) y hy position place

end

theorem declareOnce_of_holds {name : String} {body : NativeType} (make : String → Emit TypeDecl) {d : Draft}
    (h : d.taken.Holds name body) : ∃ given, declareOnce name body make d = some (.named given, d) := by
  obtain ⟨given, hclaim⟩ := Draft.claim_of_holds h
  refine ⟨given, ?_⟩
  rw [declareOnce, Emit.bind_eq (congrArg some hclaim)]
  rfl

def Store.Defined (s : Store) (taken : Taken) : Prop :=
  ∀ d ∈ s.definitions.toList, taken.Holds d.name d.toType

theorem Store.Defined.grows (s : Store) (taken taken' : Taken) (hgrows : taken.Grows taken') (h : s.Defined taken) :
    s.Defined taken' :=
  fun d hd => (h d hd).grows hgrows

section

variable (h : s.Mirrors image covered t) (hfinal : final.Apart image)

section

variable {use use' : NativeType → Position → String → Emit Marshalled}
  (huse : ∀ x, covered x → ∀ position place, Follows image s.Defined final (use x position place)
    (use' (image x) position place))

include h huse

theorem follows_procedure {p : Procedure} (hp : p ∈ s.procedures.toList) :
    Follows image s.Defined final (emitProcedure o use p) (emitProcedure o use' (Declaration.mapRoots image p)) := by
  rw [Procedure.mapRoots_eq]
  have hcovered := h.procedure_covered p hp
  refine Follows.bind (Store.Defined.grows s) ?_ fun m => .pure _
  refine follows_method (Store.Defined.grows s) huse p.name (hcovered p.returns (List.mem_cons_self ..)) p.params
    fun q hq => ?_
  exact hcovered q.type (List.mem_cons_of_mem _ (List.mem_map_of_mem hq))

include hfinal

theorem follows_declared {d : Definition} (hd : d ∈ s.definitions.toList) :
    Follows image s.Defined final (do let _ ← declareDefinition use d) (pure ()) := by
  have hfollows := follows_declareDefinition h hfinal (Store.Defined.grows s) huse hd
  intro draft a e hrun
  obtain ⟨r, m, hr, hm⟩ := Emit.bind_eq_some hrun
  cases hm
  refine ⟨(hfollows draft r e hr).1, fun hdefined _ d' hd' => ⟨d', rfl, ?_⟩⟩
  obtain ⟨given, hkept⟩ := declareOnce_of_holds (definitionDecl use d) (hdefined d hd)
  rw [declareDefinition, hkept] at hr
  cases hr
  exact hd'

theorem follows_typedef {d : Typedef} (hd : d ∈ s.typedefs.toList) :
    Follows image s.Defined final (emitTypedef o s use d) (emitTypedef o t use' (Declaration.mapRoots image d)) := by
  have hready := Store.Defined.grows s
  have hcanonical := h.canonical d.target (h.typedef_covered d hd d.target (List.mem_singleton_self _))
  unfold emitTypedef
  rw [Typedef.mapRoots_eq]
  dsimp only
  cases hcanonical with
  | builtin b hc hc' _ =>
    rw [hc, hc']
    exact .pure _
  | structural y hc hc' howner hy =>
    rw [hc, hc', howner]
    cases y with
    | record kind body =>
      refine (follows_record hready h.same_image hfinal huse _ kind body fun m hm => ?_).bind hready fun _ => .pure _
      exact hy m.type (List.mem_map_of_mem hm)
    | enumeration e => exact (follows_enum hready h.same_image hfinal _ e).bind hready fun _ => .pure _
    | function f =>
      refine Follows.bind hready ?_ fun _ => .pure _
      refine follows_delegate hready h.same_image hfinal huse _ f (hy f.returns (List.mem_cons_self ..)) fun p hp => ?_
      exact hy p.type (List.mem_cons_of_mem _ (List.mem_map_of_mem hp))
    | _ => exact .pure _
  | definition body hbody hc hc' =>
    rw [hc']
    have hdeclared := follows_declared h hfinal huse hbody
    rcases hc with hc | ⟨hc, hname⟩
    · rw [hc]
      exact .pure _
    · rw [hc]
      cases body with
      | record kind body =>
        have hname : body.name ≠ "" := hname
        dsimp only [Definition.toType]
        rw [bodyName_of_ne hname]
        exact hdeclared
      | enumeration e =>
        have hname : e.name ≠ "" := hname
        dsimp only [Definition.toType]
        rw [bodyName_of_ne hname]
        exact hdeclared
  | unknown hc hc' =>
    rcases Denoted.isUnknown_cases hc with ⟨_, hc⟩ | ⟨_, hc⟩ <;>
      rcases Denoted.isUnknown_cases hc' with ⟨_, hc'⟩ | ⟨_, hc'⟩ <;>
        rw [hc, hc'] <;> exact .pure _

end

theorem follows_constant (c : Constant) :
    Follows image s.Defined final (emitConstant c) (emitConstant c) := by
  unfold emitConstant
  cases c.value with
  | none => exact (Follows.modify fun _ _ => rfl).bind (Store.Defined.grows s) fun _ => .pure none
  | some v => exact Follows.get fun _ _ => .pure _

variable {use use' : NativeType → Position → String → Emit Marshalled}
  (huse : ∀ (ready : Taken → Prop), (∀ taken taken', Taken.Grows taken taken' → ready taken → ready taken') →
    ∀ x, covered x → ∀ position place, Follows image ready final (use x position place)
      (use' (image x) position place))

include h huse

theorem holds_emitDefinition {d : Definition} (hd : d ∈ s.definitions.toList) {draft e : Draft}
    (hrun : emitDefinition use d draft = some ((), e)) : e.taken.Holds d.name d.toType := by
  have hready : ∀ taken taken', Taken.Grows taken taken' → True → True := fun _ _ _ _ => trivial
  rw [emitDefinition_eq] at hrun
  obtain ⟨r, m, hr, hm⟩ := Emit.bind_eq_some hrun
  cases hm
  obtain ⟨⟨given, isNew⟩, claimed, hclaim, hmake⟩ := Emit.bind_eq_some hr
  have hclaimed : claimed.taken.Holds d.name d.toType := by
    have hholds := Draft.holds_claim d.name d.toType draft
    rwa [Option.some.inj hclaim] at hholds
  cases isNew with
  | false =>
    cases hmake
    exact hclaimed
  | true =>
    obtain ⟨t, made, ht, hdeclare⟩ := Emit.bind_eq_some hmake
    cases hdeclare
    exact hclaimed.grows (follows_definitionDecl h hready (huse _ hready) hd given claimed t made ht).1

include hfinal

theorem follows_definition {d : Definition} (hd : d ∈ s.definitions.toList) :
    Follows image (fun _ => True) final (emitDefinition use d)
      (emitDefinition use' (Declaration.mapRoots image d)) := by
  have hready : ∀ taken taken', Taken.Grows taken taken' → True → True := fun _ _ _ _ => trivial
  rw [emitDefinition_eq, emitDefinition_eq]
  exact (follows_declareDefinition h hfinal hready (huse _ hready) hd).bind hready fun _ => .pure ()

theorem holds_forM_emitDefinition {ds : List Definition} (hds : ∀ d ∈ ds, d ∈ s.definitions.toList) {draft e : Draft}
    (hrun : ds.forM (emitDefinition use) draft = some ((), e)) : ∀ d ∈ ds, e.taken.Holds d.name d.toType := by
  have hready : ∀ taken taken', Taken.Grows taken taken' → True → True := fun _ _ _ _ => trivial
  induction ds generalizing draft with
  | nil => exact nofun
  | cons d rest ih =>
    obtain ⟨hd, hrest⟩ := List.forall_mem_cons.mp hds
    obtain ⟨_, m, hfirst, hothers⟩ := Emit.bind_eq_some hrun
    have hgrows := (follows_forM hready rest fun d hd => follows_definition h hfinal huse (hrest d hd)) m () e hothers
    rw [List.forall_mem_cons]
    exact ⟨(holds_emitDefinition h huse hd hfirst).grows hgrows.1, ih hrest hothers⟩

theorem follows_store : Follows image (fun _ => True) final (emitStore o s use) (emitStore o t use') := by
  have hready := Store.Defined.grows s
  have huse' := huse s.Defined hready
  unfold emitStore
  rw [h.definitions, h.typedefs, h.procedures, h.constants]
  have hdefinitions := follows_forM (fun _ _ _ _ => trivial) s.definitions.toList
    fun d hd => follows_definition h hfinal huse hd
  have hdefined : ∀ (d : Draft) (_ : Unit) (e : Draft),
      s.definitions.toList.forM (emitDefinition use) d = some ((), e) →
      True → s.Defined e.taken :=
    fun _ _ _ hrun _ => holds_forM_emitDefinition h hfinal huse (fun _ hd => hd) hrun
  refine hdefinitions.bindReady hdefined fun _ => ?_
  refine (follows_forM hready _ fun d hd => follows_typedef h hfinal huse' hd).bind hready fun _ => ?_
  refine (follows_mapM hready _ fun p hp => follows_procedure h huse' hp).bind hready fun methods => ?_
  have hconstants : Follows image s.Defined final (s.constants.toList.mapM emitConstant)
      (s.constants.toList.mapM emitConstant) := by
    have hmapped : Follows image s.Defined final (s.constants.toList.mapM emitConstant)
        ((s.constants.toList.map id).mapM emitConstant) :=
      follows_mapM hready s.constants.toList fun c _ => follows_constant c
    rwa [List.map_id] at hmapped
  exact hconstants.bind hready fun fields => .pure _

end

theorem Store.emitWithin_of_mirrors {depth depth' : Nat} (h : s.Mirrors image covered t) (hdepth : depth ≤ depth')
    {classes : List TypeDecl} {d : Draft}
    (hrun : (emitStore o s (marshalWithin o s depth)).run .empty = some (classes, d)) (hfinal : d.taken.Apart image) :
    t.emitWithin depth' o = s.emitWithin depth o := by
  have hfollows : Follows image (fun _ => True) d.taken (emitStore o s (marshalWithin o s depth))
      (emitStore o t (marshalWithin o t depth')) :=
    follows_store h hfinal fun _ hready => follows_marshalWithin h hfinal hready hdepth
  obtain ⟨e, hrun', he⟩ := (hfollows .empty classes d hrun).2 trivial (.refl _) .empty (Draft.mirrors_empty image)
  have hrun' : (emitStore o t (marshalWithin o t depth')).run .empty = some (classes, e) := hrun'
  rw [emitWithin, emitWithin, hrun, hrun', he.eq]
  rfl

end HeaderBinding
