import HeaderBinding.Proofs.Emission.Invariant

namespace HeaderBinding

open Managed (TypeRef TypeDecl)

variable {o : EmitOptions} {s : Store} {started : List String}

theorem lasting_const {α : Type} {p : α → Prop} : Lasting fun (_ : Taken) a => p a :=
  fun _ _ _ _ h => h

theorem emits_declareOnce {body : NativeType} {make : String → Emit TypeDecl}
    (hmake : ∀ given, Emits o s (given :: started) (make given)
      fun taken t => t.name = given ∧ EmittedFrom s taken o body t) (name : String) :
    Emits o s started (declareOnce name body make)
      fun taken r => ∃ given, r = .named given ∧ taken.StandsFor given body := by
  intro d r d' hd hrun
  unfold declareOnce at hrun
  obtain ⟨⟨given, isNew⟩, d₁, hclaim, hrest⟩ := Emit.bind_eq_some hrun
  have hclaim' : Draft.claim name body d = ((given, isNew), d₁) := Option.some.inj hclaim
  rcases Draft.claim_cases name body d with
    ⟨given', diagnostics, hfree, heq⟩ | ⟨given', held, hheld, hsame, heq⟩
  · rw [heq] at hclaim'
    cases hclaim'
    obtain ⟨t, d₂, hmade, hdeclared⟩ := Emit.bind_eq_some hrest
    cases hdeclared
    have hstarted := hd.start hfree body diagnostics
    obtain ⟨hd₂, hwithin, hname, hemitted⟩ := hmake given _ t d₂ hstarted hmade
    subst hname
    have hgiven : d₂.taken[t.name]? = some body :=
      hwithin t.name body Std.HashMap.getElem?_insert_self
    have hnew : t.name ∉ started := fun hmem => hfree ((hd.mem_taken t.name).mpr (.inl hmem))
    exact ⟨hd₂.declare hnew hgiven hemitted, (Taken.within_insert hfree body).trans hwithin,
      t.name, rfl, Taken.standsFor_of_eq hgiven⟩
  · rw [heq] at hclaim'
    cases hclaim'
    cases hrest
    exact ⟨hd, .refl _, given, rfl, held, hheld, hsame⟩

theorem emits_enum (name : String) (e : Enumeration) :
    Emits o s started (emitEnum name e)
      fun taken r => ∃ given, r = .named given ∧ taken.StandsFor given (.enumeration e) := by
  refine emits_declareOnce (fun given => ?_) name
  refine Emits.seq (Emits.elsewhere ?htaken ?htypes) ?hdeclared
  case htaken => exact fun _ => rfl
  case htypes => exact fun _ => rfl
  exact .pure fun _ => ⟨rfl, .enumeration⟩

def Marshals (o : EmitOptions) (s : Store) (use : NativeType → Position → String → Emit Marshalled) :
    Prop :=
  ∀ (started : List String) (t : NativeType) (position : Position) (place : String),
    Emits o s started (use t position place) fun taken u => FitsAt s taken position u.type t

section

variable {use : NativeType → Position → String → Emit Marshalled}

theorem Lasting.forall₂ {α β : Type} {fits : Taken → α → β → Prop} {as : List α}
    (hfits : ∀ a, Lasting fun taken b => fits taken a b) :
    Lasting fun taken bs => List.Forall₂ (fits taken) as bs :=
  fun taken taken' _ hwithin h => h.imp fun a b => hfits a taken taken' b hwithin

theorem lasting_fitsAt {α : Type} {position : Position} {r : α → TypeRef} {t : NativeType} :
    Lasting fun taken a => FitsAt s taken position (r a) t :=
  fun _ _ _ hwithin h => h.within hwithin

theorem emits_fields (huse : Marshals o s use) (kind : RecordKind) (record : String) (index : Nat)
    (members : List (Member NativeType)) :
    Emits o s started (emitFields use kind record index members)
      fun taken fields =>
        List.Forall₂ (fun m f => FitsAt s taken .field f.1.type m.type) members fields := by
  induction members generalizing index with
  | nil => exact .pure fun _ => .nil
  | cons m rest ih =>
    have hfield : Emits o s started (emitField use kind record index m)
        fun taken f => FitsAt s taken .field f.1.type m.type := by
      refine (huse started m.type .field _).bind (fun u => ?_) lasting_fitsAt
      exact .pure fun _ h => h
    refine hfield.bind (fun f => ?_) lasting_fitsAt
    refine (ih (index + 1)).bind (fun fields => ?_) (.forall₂ fun _ => lasting_fitsAt)
    exact .pure fun _ hrest hfirst => .cons hfirst hrest

theorem emits_params (huse : Marshals o s use) (method : String) (index : Nat)
    (params : List (Parameter NativeType)) :
    Emits o s started (emitParams use method index params)
      fun taken qs => List.Forall₂
        (fun p q => FitsAt s taken (.parameter p.direction) (Managed.Param.type q) p.type) params qs := by
  induction params generalizing index with
  | nil => exact .pure fun _ => .nil
  | cons p rest ih =>
    have hparam : Emits o s started (emitParam use method index p)
        fun taken q => FitsAt s taken (.parameter p.direction) q.type p.type := by
      refine (huse started p.type (.parameter p.direction) _).bind (fun u => ?_) lasting_fitsAt
      exact .pure fun _ h => h
    refine hparam.bind (fun q => ?_) lasting_fitsAt
    refine (ih (index + 1)).bind (fun qs => ?_) (.forall₂ fun _ => lasting_fitsAt)
    exact .pure fun _ hrest hfirst => .cons hfirst hrest

theorem emits_method (huse : Marshals o s use) (name : String) (returns : NativeType)
    (params : List (Parameter NativeType)) :
    Emits o s started (emitMethod use name returns params)
      fun taken m => MethodFits s taken returns params m := by
  refine (huse started returns .result _).bind (fun u => ?_) lasting_fitsAt
  refine (emits_params huse name 0 params).bind (fun qs => ?_) (.forall₂ fun _ => lasting_fitsAt)
  exact .pure fun _ hparams hreturns => ⟨hreturns, hparams⟩

end

section

variable {depth : Nat}

theorem emits_recordDecl (huse : Marshals o s (marshalWithin o s depth)) (given : String)
    (kind : RecordKind) (body : Record NativeType) :
    Emits o s started (recordDecl (marshalWithin o s depth) given kind body)
      fun taken t => t.name = given ∧ EmittedFrom s taken o (.record kind body) t := by
  intro d t d' hd hrun
  unfold recordDecl at hrun
  obtain ⟨outer, _, hget, hrun⟩ := Emit.bind_eq_some hrun
  cases hget
  obtain ⟨_, _, hentered, hrun⟩ := Emit.bind_eq_some hrun
  cases hentered
  obtain ⟨fields, d₁, hfields, hrun⟩ := Emit.bind_eq_some hrun
  obtain ⟨_, _, hleft, hrun⟩ := Emit.bind_eq_some hrun
  cases hleft
  cases hrun
  have hentered : Draft.Consistent o s started { d with subject := some (.definedType given) } :=
    hd.congr rfl rfl
  obtain ⟨hd₁, hwithin, hfits⟩ :=
    emits_fields huse kind given 0 body.members _ fields d₁ hentered hfields
  exact ⟨hd₁.congr rfl rfl, hwithin, rfl, .record hfields hfits⟩

theorem emits_record (huse : Marshals o s (marshalWithin o s depth)) (name : String)
    (kind : RecordKind) (body : Record NativeType) :
    Emits o s started (emitRecord (marshalWithin o s depth) name kind body)
      fun taken r => ∃ given, r = .named given ∧ taken.StandsFor given (.record kind body) :=
  emits_declareOnce (fun given => emits_recordDecl huse given kind body) name

theorem emits_delegateDecl (huse : Marshals o s (marshalWithin o s depth)) (given : String)
    (f : Signature NativeType) :
    Emits o s started (delegateDecl o (marshalWithin o s depth) given f)
      fun taken t => t.name = given ∧ EmittedFrom s taken o (.function f) t := by
  intro d t d' hd hrun
  unfold delegateDecl at hrun
  obtain ⟨m, d₁, hm, hmade⟩ := Emit.bind_eq_some hrun
  obtain ⟨hd₁, hwithin, hfits⟩ := emits_method huse given f.returns f.params d m d₁ hd hm
  cases hmade
  exact ⟨hd₁, hwithin, rfl, .function hm hfits⟩

theorem emits_delegate (huse : Marshals o s (marshalWithin o s depth)) (name : String)
    (f : Signature NativeType) :
    Emits o s started (emitDelegate o (marshalWithin o s depth) name f)
      fun taken r => ∃ given, r = .named given ∧ taken.StandsFor given (.function f) :=
  emits_declareOnce (fun given => emits_delegateDecl huse given f) name

theorem FitsAt.of_fits {taken : Taken} {position : Position} {r : TypeRef} {t : NativeType}
    (h : Fits s taken r t) : FitsAt s taken position r t := by
  cases position with
  | parameter direction => exact .inl h
  | field => exact h
  | result => exact h

theorem emits_handle (position : Position) (t : NativeType) :
    Emits o s started (pure Marshalled.handle) fun taken u => FitsAt s taken position u.type t :=
  .pure fun _ => .of_fits trivial

theorem fits_element {taken : Taken} {u : Marshalled} {t : NativeType} (h : Fits s taken u.type t) :
    Fits s taken u.element.type t := by
  unfold Marshalled.element
  split
  · trivial
  · exact h
  · rename_i name hname
    rw [hname] at h
    exact h
  · trivial

variable {use : NativeType → Position → String → Emit Marshalled}

theorem emits_reference (huse : Marshals o s use) {t pointee : NativeType}
    (hpointee : (t.canonical s).denoted.element? = some pointee) (position : Position)
    (place : String) :
    Emits o s started (marshalPointer.reference use pointee place position)
      fun taken u => FitsAt s taken position u.type t := by
  cases position with
  | parameter declared =>
    refine (huse started pointee .field place).bind (fun u => ?_) lasting_fitsAt
    exact .pure fun _ h => .inr ⟨pointee, hpointee, fits_element h⟩
  | field => exact emits_handle .field t
  | result => exact emits_handle .result t

theorem emits_pointer (huse : Marshals o s use) {t pointee : NativeType}
    (hpointee : (t.canonical s).denoted.element? = some pointee) (position : Position)
    (place : String) :
    Emits o s started (marshalPointer s use pointee position place)
      fun taken u => FitsAt s taken position u.type t := by
  unfold marshalPointer
  dsimp only
  split
  · exact emits_handle _ t
  · exact emits_handle _ t
  · split
    · exact emits_handle _ t
    · split
      · split
        · exact .pure fun _ => .of_fits (by split <;> trivial)
        · exact .pure fun _ => .of_fits trivial
        · exact emits_handle _ t
      · exact emits_reference huse hpointee _ place
  · split
    · refine (huse started pointee .field place).bind (fun u => ?_) lasting_fitsAt
      exact .pure fun _ h => ⟨pointee, hpointee, h⟩
    · exact emits_handle _ t
  · exact emits_reference huse hpointee _ place

theorem emits_sizeOfArray (length : Option ArrayLength) :
    Emits o s started (sizeOfArray o s length) fun _ _ => True := by
  unfold sizeOfArray
  split
  · exact .pure fun _ => trivial
  · exact .pure fun _ => trivial
  · split
    · refine Emits.seq (Emits.elsewhere ?_ ?_) (.pure fun _ => trivial)
      · exact fun _ => rfl
      · exact fun _ => rfl
    · refine Emits.seq (Emits.elsewhere ?_ ?_) (.pure fun _ => trivial)
      · exact fun _ => rfl
      · exact fun _ => rfl

theorem emits_array (huse : Marshals o s use) {t element : NativeType}
    (helement : (t.canonical s).denoted.element? = some element) (length : Option ArrayLength)
    (place : String) :
    Emits o s started (marshalArray o s use element length place)
      fun taken u => FitsAt s taken .field u.type t := by
  have helements : ∀ sized, Emits o s started (marshalArray.elements use element place sized)
      fun taken u => FitsAt s taken .field u.type t := by
    intro sized
    refine (huse started element .field place).bind (fun u => ?_) lasting_fitsAt
    exact .pure fun _ h => ⟨element, helement, h⟩
  unfold marshalArray
  refine (emits_sizeOfArray length).bind (fun size => ?_) lasting_const
  split
  · exact .pure fun _ _ => trivial
  · dsimp only
    split
    · split
      · exact .pure fun _ _ => trivial
      · exact (helements _).imp fun _ _ h _ => h
    · exact (helements _).imp fun _ _ h _ => h

theorem emits_named {step : Emit TypeRef} {t body : NativeType} {position : Position}
    (hbody : (t.canonical s).denoted.body? = some body)
    (hstep : Emits o s started step
      fun taken r => ∃ given, r = .named given ∧ taken.StandsFor given body) :
    Emits o s started (do return Marshalled.plain (← step))
      fun taken u => FitsAt s taken position u.type t := by
  refine hstep.bind (fun r => ?_) ?_
  · refine .pure fun taken hr => ?_
    obtain ⟨given, rfl, hgiven⟩ := hr
    exact .of_fits ⟨body, hbody, hgiven⟩
  · rintro taken taken' r hwithin ⟨given, rfl, hgiven⟩
    exact ⟨given, rfl, hgiven.within hwithin⟩

theorem marshals_step (huse : Marshals o s (marshalWithin o s depth)) :
    Marshals o s (marshalStep o s (marshalWithin o s depth)) := by
  intro started t position place
  unfold marshalStep
  dsimp only
  split
  · exact .pure fun _ => .of_fits trivial
  · rename_i kind body hdenoted
    refine emits_named ?_ (emits_record huse _ kind body)
    rw [hdenoted]
    rfl
  · rename_i e hdenoted
    refine emits_named ?_ (emits_enum _ e)
    rw [hdenoted]
    rfl
  · rename_i pointee hdenoted
    refine emits_pointer huse ?_ position place
    rw [hdenoted]
    rfl
  · rename_i element _ length hdenoted
    have helement : (t.canonical s).denoted.element? = some element := by
      rw [hdenoted]
      rfl
    split
    · exact emits_array huse helement length place
    · exact emits_pointer huse helement _ place
    · exact emits_handle _ t
  · rename_i kind body hdenoted
    refine emits_named ?_ (emits_record huse _ kind body)
    rw [hdenoted]
    rfl
  · rename_i e hdenoted
    refine emits_named ?_ (emits_enum _ e)
    rw [hdenoted]
    rfl
  · rename_i f hdenoted
    refine emits_named ?_ (emits_delegate huse _ f)
    rw [hdenoted]
    rfl
  all_goals exact emits_handle _ t

theorem marshals_within (o : EmitOptions) (s : Store) (depth : Nat) :
    Marshals o s (marshalWithin o s depth) := by
  induction depth with
  | zero => exact fun _ _ _ _ _ _ _ _ hrun => nomatch hrun
  | succ depth ih => exact marshals_step ih

end

end HeaderBinding
