import HeaderBinding.Emission.Basic
import HeaderBinding.Proofs.Emission.Draft
import HeaderBinding.Proofs.Native.Same

namespace HeaderBinding

open Managed (TypeRef)

def Denoted.body? : Denoted → Option NativeType
  | .definition d => some d.toType
  | .structural (.record kind body) => some (.record kind body)
  | .structural (.enumeration e) => some (.enumeration e)
  | .structural (.function f) => some (.function f)
  | _ => none

def Denoted.element? : Denoted → Option NativeType
  | .structural (.pointer pointee) => some pointee
  | .structural (.array element _ _) => some element
  | _ => none

namespace Taken

def StandsFor (taken : Taken) (name : String) (body : NativeType) : Prop :=
  ∃ held, taken[name]? = some held ∧ held.same body = true

def Within (taken taken' : Taken) : Prop :=
  ∀ (name : String) (body : NativeType), taken[name]? = some body → taken'[name]? = some body

theorem Within.refl (taken : Taken) : taken.Within taken := fun _ _ h => h

theorem Within.trans {taken taken' taken'' : Taken} (h : taken.Within taken')
    (h' : taken'.Within taken'') : taken.Within taken'' :=
  fun name body hbody => h' name body (h name body hbody)

theorem within_insert {taken : Taken} {name : String} (h : name ∉ taken) (body : NativeType) :
    taken.Within (taken.insert name body) := by
  intro other held hheld
  have hne : name ≠ other := by
    rintro rfl
    rw [Std.HashMap.mem_iff_isSome_getElem?, hheld] at h
    exact h rfl
  rw [Std.HashMap.getElem?_insert, if_neg (by simpa using hne), hheld]

theorem StandsFor.within {taken taken' : Taken} (hw : taken.Within taken') {name : String}
    {body : NativeType} (h : taken.StandsFor name body) : taken'.StandsFor name body := by
  obtain ⟨held, hheld, hsame⟩ := h
  exact ⟨held, hw name held hheld, hsame⟩

theorem standsFor_of_eq {taken : Taken} {name : String} {body : NativeType}
    (h : taken[name]? = some body) : taken.StandsFor name body :=
  ⟨body, h, body.same_refl⟩

end Taken

namespace Managed

def TypeRef.names : TypeRef → List String
  | .named name => [name]
  | .pointer r | .array r => r.names
  | .primitive _ | .string | .stringBuilder => []

def Method.uses (m : Method) : List TypeRef :=
  m.returns :: m.params.map (·.type)

def TypeDecl.uses (t : TypeDecl) : List TypeRef :=
  t.fields.map (·.type) ++ (t.signature?.toList ++ t.methods).flatMap Method.uses

end Managed

section

variable (s : Store) (taken : Taken)

def Fits : TypeRef → NativeType → Prop
  | .named name, t => ∃ body, (t.canonical s).denoted.body? = some body ∧ taken.StandsFor name body
  | .pointer r, t | .array r, t =>
    ∃ element, (t.canonical s).denoted.element? = some element ∧ Fits r element
  | .primitive _, _ | .string, _ | .stringBuilder, _ => True

def FitsAt : Position → TypeRef → NativeType → Prop
  | .parameter _, r, t => Fits s taken r t ∨
    ∃ element, (t.canonical s).denoted.element? = some element ∧ Fits s taken r element
  | .field, r, t | .result, r, t => Fits s taken r t

structure MethodFits (returns : NativeType) (params : List (Parameter NativeType))
    (m : Managed.Method) : Prop where
  returns : FitsAt s taken .result m.returns returns
  params : List.Forall₂ (fun p q => FitsAt s taken (.parameter p.direction) (Managed.Param.type q) p.type)
    params m.params

inductive EmittedFrom (o : EmitOptions) : NativeType → Managed.TypeDecl → Prop
  | record {kind : RecordKind} {body : Record NativeType} {given : String} {depth : Nat} {d d' : Draft}
      {fields : List (Managed.Field × Bool)} :
      emitFields (marshalWithin o s depth) kind given 0 body.members d = some (fields, d') →
      List.Forall₂ (fun m f => FitsAt s taken .field f.1.type m.type) body.members fields →
      EmittedFrom o (.record kind body)
        ⟨given, [layout kind (fields.any (·.2))], .record (fields.map (·.1))⟩
  | enumeration {e : Enumeration} {given : String} :
      EmittedFrom o (.enumeration e) (enumDecl given e)
  | function {f : Signature NativeType} {given : String} {depth : Nat} {d d' : Draft}
      {m : Managed.Method} :
      emitMethod (marshalWithin o s depth) given f.returns f.params d = some (m, d') →
      MethodFits s taken f.returns f.params m →
      EmittedFrom o (.function f) ⟨given, conventionAttributes o f, .delegate m⟩

end

variable {s : Store} {o : EmitOptions} {taken taken' : Taken}

theorem Fits.within (hw : taken.Within taken') {r : TypeRef} {t : NativeType} (h : Fits s taken r t) :
    Fits s taken' r t := by
  induction r generalizing t with
  | named name =>
    obtain ⟨body, hbody, hname⟩ := h
    exact ⟨body, hbody, hname.within hw⟩
  | pointer r ih =>
    obtain ⟨element, helement, hr⟩ := h
    exact ⟨element, helement, ih hr⟩
  | array r ih =>
    obtain ⟨element, helement, hr⟩ := h
    exact ⟨element, helement, ih hr⟩
  | _ => trivial

theorem FitsAt.within (hw : taken.Within taken') {position : Position} {r : TypeRef} {t : NativeType}
    (h : FitsAt s taken position r t) : FitsAt s taken' position r t := by
  cases position with
  | parameter direction =>
    rcases h with h | ⟨element, helement, hr⟩
    · exact .inl (h.within hw)
    · exact .inr ⟨element, helement, hr.within hw⟩
  | field => exact Fits.within hw h
  | result => exact Fits.within hw h

theorem MethodFits.within (hw : taken.Within taken') {returns : NativeType}
    {params : List (Parameter NativeType)} {m : Managed.Method}
    (h : MethodFits s taken returns params m) : MethodFits s taken' returns params m :=
  ⟨h.returns.within hw, h.params.imp fun _ _ hp => hp.within hw⟩

theorem EmittedFrom.within (hw : taken.Within taken') {body : NativeType} {t : Managed.TypeDecl}
    (h : EmittedFrom s taken o body t) : EmittedFrom s taken' o body t := by
  cases h with
  | record hrun hfields => exact .record hrun (hfields.imp fun _ _ hf => hf.within hw)
  | enumeration => exact .enumeration
  | function hrun hm => exact .function hrun (hm.within hw)

theorem Fits.mem_of_mem_names {r : TypeRef} {t : NativeType} (h : Fits s taken r t) {name : String}
    (hname : name ∈ r.names) : name ∈ taken := by
  induction r generalizing t with
  | named given =>
    obtain ⟨body, -, held, hheld, -⟩ := h
    rw [List.mem_singleton.mp hname, Std.HashMap.mem_iff_isSome_getElem?, hheld]
    rfl
  | pointer r ih =>
    obtain ⟨element, -, hr⟩ := h
    exact ih hr hname
  | array r ih =>
    obtain ⟨element, -, hr⟩ := h
    exact ih hr hname
  | _ => cases hname

theorem FitsAt.mem_of_mem_names {position : Position} {r : TypeRef} {t : NativeType}
    (h : FitsAt s taken position r t) {name : String} (hname : name ∈ r.names) : name ∈ taken := by
  cases position with
  | parameter direction =>
    rcases h with h | ⟨element, -, hr⟩
    · exact h.mem_of_mem_names hname
    · exact hr.mem_of_mem_names hname
  | field => exact Fits.mem_of_mem_names h hname
  | result => exact Fits.mem_of_mem_names h hname

theorem exists_of_forall₂ {α β : Type} {fits : α → β → Prop} {as : List α} {bs : List β}
    (h : List.Forall₂ fits as bs) {b : β} (hb : b ∈ bs) : ∃ a ∈ as, fits a b := by
  induction h with
  | nil => cases hb
  | cons hfirst _ ih =>
    rcases List.mem_cons.mp hb with rfl | hb
    · exact ⟨_, List.mem_cons_self .., hfirst⟩
    · obtain ⟨a, ha, hfits⟩ := ih hb
      exact ⟨a, List.mem_cons_of_mem _ ha, hfits⟩

theorem MethodFits.mem_of_mem_uses {returns : NativeType} {params : List (Parameter NativeType)}
    {m : Managed.Method} (h : MethodFits s taken returns params m) {r : TypeRef} (hr : r ∈ m.uses)
    {name : String} (hname : name ∈ r.names) : name ∈ taken := by
  rcases List.mem_cons.mp hr with rfl | hr
  · exact h.returns.mem_of_mem_names hname
  · obtain ⟨q, hq, rfl⟩ := List.mem_map.mp hr
    obtain ⟨p, -, hp⟩ := exists_of_forall₂ h.params hq
    exact hp.mem_of_mem_names hname

theorem EmittedFrom.mem_of_mem_uses {body : NativeType} {t : Managed.TypeDecl}
    (h : EmittedFrom s taken o body t) {r : TypeRef} (hr : r ∈ t.uses) {name : String}
    (hname : name ∈ r.names) : name ∈ taken := by
  cases h with
  | record _ hfields =>
    rw [Managed.TypeDecl.uses, List.mem_append] at hr
    rcases hr with hr | hr
    · obtain ⟨f, hf, rfl⟩ := List.mem_map.mp hr
      obtain ⟨marked, hmarked, rfl⟩ := List.mem_map.mp hf
      obtain ⟨m, -, hm⟩ := exists_of_forall₂ hfields hmarked
      exact hm.mem_of_mem_names hname
    · cases hr
  | enumeration => cases hr
  | function _ hm =>
    have hr' : r ∈ (Managed.Method.uses _ ++ []) := hr
    rw [List.append_nil] at hr'
    exact hm.mem_of_mem_uses hr' hname

end HeaderBinding
