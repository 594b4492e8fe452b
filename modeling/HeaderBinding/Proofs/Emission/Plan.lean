import HeaderBinding.Emission.Basic

namespace HeaderBinding

open Managed (ConstantExpr Attribute)

structure Site where
  type : NativeType
  position : Position
  place : String

inductive Plan where
  | leaf (u : Marshalled)
  | inner (x : Site) (wrap : Marshalled → Marshalled)
  | body (name : String) (t : NativeType)

inductive Job where
  | use (x : Site)
  | declare (name : String) (body : NativeType)

section

variable (o : EmitOptions) (s : Store)

def arraySize? : Option ArrayLength → Option ConstantExpr
  | none => none
  | some (.fixed n) =>
    if LiteralType.int32.holds n.toNat then some (.ofInt32 n.toInt64.toInt32) else none
  | some (.constant name) =>
    if (boundValue? s name).isSome then some (.constant o.constantsClass name) else none

def noteLength : Option ArrayLength → Draft → Draft
  | some (.constant name), d =>
    if (boundValue? s name).isSome then { d with bounds := d.bounds.insert name }
    else { d with diagnostics := d.diagnostics ++ [unusableBound d.subject name] }
  | _, d => d

theorem noteLength_of_bound {name : String} (h : (boundValue? s name).isSome = true) :
    noteLength s (some (.constant name)) = fun d => { d with bounds := d.bounds.insert name } :=
  funext fun _ => if_pos h

theorem noteLength_of_no_bound {name : String} (h : ¬(boundValue? s name).isSome = true) :
    noteLength s (some (.constant name)) =
      fun d => { d with diagnostics := d.diagnostics ++ [unusableBound d.subject name] } :=
  funext fun _ => if_neg h

theorem sizeOfArray_eq (length : Option ArrayLength) :
    sizeOfArray o s length = do
      modify (noteLength s length)
      return arraySize? o s length := by
  cases length with
  | none => rfl
  | some length =>
    cases length with
    | fixed n => rfl
    | constant name =>
      by_cases hbound : (boundValue? s name).isSome = true
      · rw [noteLength_of_bound s hbound]
        simp [sizeOfArray, arraySize?, hbound]
      · rw [noteLength_of_no_bound s hbound]
        simp [sizeOfArray, arraySize?, hbound]

def referencePlan (pointee : NativeType) (place : String) : Position → Plan
  | .parameter declared => .inner ⟨pointee, .field, place⟩ fun u => u.element.byReference declared
  | .field | .result => .leaf .handle

def pointerPlan (pointee : NativeType) (position : Position) (place : String) : Plan :=
  let c := pointee.canonical s
  match c.denoted, position with
  | .unresolved _, _ | .cycle _, _ => .leaf .handle
  | .builtin b, position =>
    if b.isVoid then .leaf .handle
    else if b.isCharacter then
      match position with
      | .parameter _ => .leaf (.string (if c.isConst then .string else .stringBuilder) b)
      | .field => .leaf (.string .string b)
      | .result => .leaf .handle
    else referencePlan pointee place position
  | _, .field =>
    if c.isRecord then .inner ⟨pointee, .field, place⟩ fun u => .plain (.pointer u.type)
    else .leaf .handle
  | _, position => referencePlan pointee place position

def sizedAs (form : String) (size : ConstantExpr) : Attribute :=
  Marshalled.marshalAs form [⟨some "SizeConst", size⟩]

def arrayPlan (element : NativeType) (place : String) : Option ConstantExpr → Plan
  | none => .leaf .handle
  | some size =>
    match (element.canonical s).builtin?.filter (·.isCharacter) with
    | some b => .leaf ⟨.string, [sizedAs "ByValTStr" size], none, Marshalled.isWideChar b⟩
    | none =>
      .inner ⟨element, .field, place⟩ fun u => ⟨.array u.type, [sizedAs "ByValArray" size], none, false⟩

namespace Site

variable (x : Site)

def canonical : Canonical :=
  x.type.canonical s

def length? : Option ArrayLength :=
  match (x.canonical s).denoted, x.position with
  | .structural (.array _ _ length), .field => length
  | _, _ => none

def bodyPlan (name : String) (t : NativeType) : Plan :=
  .body (bodyName name (x.canonical s).owner x.place) t

def plan : Plan :=
  match (x.canonical s).denoted with
  | .builtin b => .leaf (.builtin o b)
  | .definition d => .body d.name d.toType
  | .structural (.pointer pointee) => pointerPlan s pointee x.position x.place
  | .structural (.array element _ length) =>
    match x.position with
    | .field => arrayPlan s element x.place (arraySize? o s length)
    | .parameter _ => pointerPlan s element x.position x.place
    | .result => .leaf .handle
  | .structural (.record kind body) => x.bodyPlan s body.name (.record kind body)
  | .structural (.enumeration e) => x.bodyPlan s e.name (.enumeration e)
  | .structural (.function f) => x.bodyPlan s f.name (.function f)
  | .structural _ | .unresolved _ | .cycle _ => .leaf .handle

end Site

namespace Job

def plan : Job → Plan
  | .use x => x.plan o s
  | .declare name body => .body name body

def note : Job → Draft → Draft
  | .use x => noteLength s (x.length? s)
  | .declare _ _ => id

theorem plan_builtin (b : Builtin) (position : Position) (place : String) :
    plan o s (.use ⟨.builtin b, position, place⟩) = .leaf (.builtin o b) := by
  simp only [plan, Site.plan, Site.canonical, NativeType.canonical, NativeType.canonicalFrom, Canonical.of]

end Job

end

def fieldSites (record : String) (index : Nat) : List (Member NativeType) → List Site
  | [] => []
  | m :: rest =>
    ⟨m.type, .field, record ++ "_" ++ placeName m.name "Anonymous" index⟩ :: fieldSites record (index + 1) rest

def paramSites (method : String) (index : Nat) : List (Parameter NativeType) → List Site
  | [] => []
  | p :: rest =>
    ⟨p.type, .parameter p.direction, method ++ "_" ++ placeName p.name "param" index⟩ ::
      paramSites method (index + 1) rest

def methodSites (name : String) (returns : NativeType) (params : List (Parameter NativeType)) : List Site :=
  ⟨returns, .result, name ++ "_return"⟩ :: paramSites name 0 params

def bodySites (given : String) : NativeType → List Site
  | .record _ body => fieldSites given 0 body.members
  | .function f => methodSites given f.returns f.params
  | _ => []

def fieldOffset : RecordKind → List Attribute
  | .struct => []
  | .union => [⟨"FieldOffset", [⟨none, .ofInt32 0⟩]⟩]

def fieldsOf (kind : RecordKind) (index : Nat) : List (Member NativeType) → List Marshalled → List Managed.Field
  | m :: ms, u :: us =>
    ⟨placeName m.name "Anonymous" index, u.type, fieldOffset kind ++ u.attributes, none, false⟩ ::
      fieldsOf kind (index + 1) ms us
  | _, _ => []

def paramsOf (index : Nat) : List (Parameter NativeType) → List Marshalled → List Managed.Param
  | p :: ps, u :: us =>
    ⟨placeName p.name "param" index, u.type, u.direction.getD p.direction, u.attributes⟩ ::
      paramsOf (index + 1) ps us
  | _, _ => []

def methodOf (name : String) (params : List (Parameter NativeType)) : List Marshalled → Managed.Method
  | u :: us => ⟨name, u.type, u.attributes, paramsOf 0 params us, []⟩
  | [] => ⟨name, .void, [], [], []⟩

def bodyDecl (o : EmitOptions) (given : String) : NativeType → List Marshalled → Managed.TypeDecl
  | .record kind body, us =>
    ⟨given, [layout kind (us.any (·.isWide))], .record (fieldsOf kind 0 body.members us)⟩
  | .enumeration e, _ => enumDecl given e
  | .function f, us => ⟨given, conventionAttributes o f, .delegate (methodOf given f.params us)⟩
  | _, _ => ⟨given, [], .record []⟩

def Draft.enter (given : String) : NativeType → Draft → Draft
  | .record _ _, d => { d with subject := some (.definedType given) }
  | .enumeration e, d => { d with skipped := d.skipped ++ unvaluedMembers given e }
  | _, d => d

def Draft.leave (t : NativeType) (before after : Draft) : Draft :=
  match t with
  | .record _ _ => { after with subject := before.subject }
  | _ => after

section

variable (o : EmitOptions) (s : Store) (use : NativeType → Position → String → Emit Marshalled)

def useAt (x : Site) : Emit Marshalled :=
  use x.type x.position x.place

def makeBody (given : String) (t : NativeType) : Emit Managed.TypeDecl := do
  let before ← get
  modify (Draft.enter given t)
  let us ← (bodySites given t).mapM (useAt use)
  modify (Draft.leave t before)
  return bodyDecl o given t us

def declareBody (name : String) (t : NativeType) : Emit Managed.TypeRef :=
  declareOnce name t fun given => makeBody o use given t

def Plan.perform : Plan → Emit Marshalled
  | .leaf u => return u
  | .inner x wrap => return wrap (← useAt use x)
  | .body name t => return .plain (← declareBody o use name t)

def Job.perform (j : Job) : Emit Marshalled := do
  modify (j.note s)
  (j.plan o s).perform o use

variable {o s use}

theorem emitFields_bind {α : Type} (use : NativeType → Position → String → Emit Marshalled) (kind : RecordKind)
    (record : String) (index : Nat) (ms : List (Member NativeType)) (next : List Managed.Field → Bool → Emit α) :
    (emitFields use kind record index ms >>= fun fields => next (fields.map (·.1)) (fields.any (·.2))) =
      (fieldSites record index ms).mapM (useAt use) >>= fun us =>
        next (fieldsOf kind index ms us) (us.any (·.isWide)) := by
  induction ms generalizing index next with
  | nil => rfl
  | cons m rest ih =>
    have hrest (u : Marshalled) := ih (index + 1) fun fields isWide =>
      next (⟨placeName m.name "Anonymous" index, u.type, fieldOffset kind ++ u.attributes, none, false⟩ :: fields)
        (u.isWide || isWide)
    have hfirst := bind_congr (x := use m.type .field (record ++ "_" ++ placeName m.name "Anonymous" index)) hrest
    cases kind <;> simpa [emitFields, emitField, fieldSites, useAt, fieldsOf, fieldOffset] using hfirst

theorem emitParams_eq (method : String) (index : Nat) (ps : List (Parameter NativeType)) :
    emitParams use method index ps = do
      let us ← (paramSites method index ps).mapM (useAt use)
      return paramsOf index ps us := by
  induction ps generalizing index with
  | nil => rfl
  | cons p rest ih =>
    rw [emitParams, paramSites, List.mapM_cons, ih]
    simp [emitParam, useAt, paramsOf]

theorem emitMethod_eq (name : String) (returns : NativeType) (params : List (Parameter NativeType)) :
    emitMethod use name returns params = do
      let us ← (methodSites name returns params).mapM (useAt use)
      return methodOf name params us := by
  rw [emitMethod, methodSites, List.mapM_cons, emitParams_eq]
  simp [useAt, methodOf]

theorem recordDecl_eq (given : String) (kind : RecordKind) (body : Record NativeType) :
    recordDecl use given kind body = makeBody o use given (.record kind body) := by
  have hfields (before : Draft) := emitFields_bind use kind given 0 body.members
    fun fields isWide => do
      modify (Draft.leave (.record kind body) before)
      return (⟨given, [layout kind isWide], .record fields⟩ : Managed.TypeDecl)
  exact bind_congr fun before => bind_congr fun _ => hfields before

theorem delegateDecl_eq (given : String) (f : Signature NativeType) :
    delegateDecl o use given f = makeBody o use given (.function f) := by
  rw [delegateDecl, emitMethod_eq, bind_assoc]
  rfl

theorem emitRecord_eq (name : String) (kind : RecordKind) (body : Record NativeType) :
    emitRecord use name kind body = declareBody o use name (.record kind body) :=
  congrArg (declareOnce name _) (funext fun given => recordDecl_eq given kind body)

theorem emitDelegate_eq (name : String) (f : Signature NativeType) :
    emitDelegate o use name f = declareBody o use name (.function f) :=
  congrArg (declareOnce name _) (funext fun given => delegateDecl_eq given f)

theorem perform_ite (p : Prop) [Decidable p] (x y : Plan) :
    (if p then x else y).perform o use = if p then x.perform o use else y.perform o use :=
  apply_ite (Plan.perform o use) p x y

theorem marshalPointer_eq (pointee : NativeType) (position : Position) (place : String) :
    marshalPointer s use pointee position place = (pointerPlan s pointee position place).perform o use := by
  unfold marshalPointer pointerPlan
  dsimp only
  cases (pointee.canonical s).denoted with
  | unresolved name => rfl
  | cycle name => rfl
  | builtin b => cases position <;> simp only [perform_ite] <;> rfl
  | definition d => cases position <;> simp only [perform_ite] <;> rfl
  | structural t => cases position <;> simp only [perform_ite] <;> rfl

theorem marshalArray_eq (element : NativeType) (length : Option ArrayLength) (place : String) :
    marshalArray o s use element length place =
      modify (noteLength s length) >>= fun _ => (arrayPlan s element place (arraySize? o s length)).perform o use := by
  rw [marshalArray, sizeOfArray_eq, bind_assoc]
  refine bind_congr fun _ => ?_
  rw [pure_bind]
  cases arraySize? o s length with
  | none => rfl
  | some size =>
    unfold arrayPlan
    dsimp only
    cases (element.canonical s).builtin? with
    | none => rfl
    | some b =>
      dsimp only [Option.filter]
      by_cases hcharacter : b.isCharacter = true
      · rw [if_pos hcharacter, if_pos hcharacter]
        rfl
      · rw [if_neg hcharacter, if_neg hcharacter]
        rfl

theorem plain_congr {step step' : Emit Managed.TypeRef} (h : step = step') :
    (do return Marshalled.plain (← step)) = (do return .plain (← step') : Emit Marshalled) := by
  rw [h]

theorem marshalStep_eq (x : Site) :
    marshalStep o s use x.type x.position x.place = Job.perform o s use (.use x) := by
  obtain ⟨t, position, place⟩ := x
  unfold marshalStep Job.perform Job.plan Job.note Site.plan Site.length? Site.bodyPlan Site.canonical
  dsimp only
  cases (t.canonical s).denoted with
  | definition d =>
    cases d with
    | record kind body => exact plain_congr (emitRecord_eq ..)
    | enumeration e => rfl
  | structural u =>
    cases u with
    | pointer pointee => exact marshalPointer_eq ..
    | array element rank length =>
      cases position with
      | field => exact marshalArray_eq ..
      | parameter direction => exact marshalPointer_eq ..
      | result => rfl
    | record kind body => exact plain_congr (emitRecord_eq ..)
    | enumeration e => rfl
    | function f => exact plain_congr (emitDelegate_eq ..)
    | _ => rfl
  | _ => rfl

end

end HeaderBinding
