import HeaderBinding.Proofs.Emission.Bindings
import HeaderBinding.Proofs.Emission.Reach

namespace HeaderBinding

open Managed (TypeDecl)

variable {o : EmitOptions} {s : Store} {started : List String} {d d' : Draft}

def Job.IsProper : Job → Prop
  | .use _ => True
  | .declare name t => t.isBody = true ∧ (t.tag ≠ "" → name = t.tag)

theorem Definition.job_isProper (d : Definition) : d.job.IsProper := by
  cases d <;> exact ⟨rfl, fun _ => rfl⟩

theorem Job.IsProper.plan {j : Job} (hj : j.IsProper) {name : String} {t : NativeType}
    (h : j.plan o s = .body name t) : t.isBody = true ∧ (t.tag ≠ "" → name = t.tag) := by
  cases j with
  | declare _ _ =>
    cases h
    exact hj
  | use x =>
    have hforesees := x.foresees o s
    rw [Job.plan] at h
    rw [h] at hforesees
    cases hforesees with
    | @definition d _ => exact d.job_isProper
    | body _ ht => exact ⟨ht, fun htag => bodyName_of_ne htag _ _⟩

theorem emits_declareBody {depth : Nat} {t : NativeType} (ht : t.isBody = true) (name : String) :
    Emits o s started (declareBody o (marshalWithin o s depth) name t) fun _ _ => True := by
  have huse := marshals_within o s depth
  cases t with
  | record kind body =>
    rw [← emitRecord_eq]
    exact (emits_record huse name kind body).imp fun _ _ _ => trivial
  | enumeration e => exact (emits_enum name e).imp fun _ _ _ => trivial
  | function f =>
    rw [← emitDelegate_eq]
    exact (emits_delegate huse name f).imp fun _ _ _ => trivial
  | _ => cases ht

theorem emits_perform {depth : Nat} {j : Job} (hj : j.IsProper) :
    Emits o s started (j.perform o s (marshalWithin o s depth)) fun _ _ => True := by
  cases j with
  | use x =>
    rw [← marshalStep_eq]
    exact (marshals_step (marshals_within o s depth) started x.type x.position x.place).imp fun _ _ _ => trivial
  | declare name t => exact (emits_declareBody hj.1 name).bind (fun _ => .pure fun _ _ => trivial) lasting_const

theorem Runs.consistent {js : List Job} {us : List Marshalled} (h : Runs o s d js us d') (hjs : ∀ j ∈ js, j.IsProper)
    (hd : d.Consistent o s started) : d'.Consistent o s started := by
  obtain ⟨depth, hdepth⟩ := h.perform
  have hrun := hdepth depth (Nat.le_refl depth)
  clear h hdepth
  induction js generalizing d us with
  | nil =>
    cases hrun
    exact hd
  | cons j js ih =>
    obtain ⟨hj, hjs⟩ := List.forall_mem_cons.mp hjs
    rw [List.mapM_cons] at hrun
    obtain ⟨u, d₁, hu, hrun⟩ := Emit.bind_eq_some hrun
    obtain ⟨vs, d₂, hvs, hrun⟩ := Emit.bind_eq_some hrun
    cases hrun
    exact ih hjs (emits_perform hj d u d₁ hd hu).1 hvs

namespace Store

theorem job_isProper {j : Job} (hj : j ∈ s.jobs) : j.IsProper := by
  rcases List.mem_append.mp hj with hj | hj
  · rcases List.mem_append.mp hj with hj | hj
    · obtain ⟨d, -, rfl⟩ := List.mem_map.mp hj
      exact d.job_isProper
    · obtain ⟨d, -, hjob⟩ := List.mem_filterMap.mp hj
      unfold Typedef.job? at hjob
      dsimp only at hjob
      split at hjob <;> cases hjob <;> exact ⟨rfl, fun htag => bodyName_of_ne htag _ _⟩
  · obtain ⟨x, -, rfl⟩ := List.mem_map.mp hj
    trivial

end Store

theorem EmittedFrom.eq_bodyDecl {taken : Taken} {body : NativeType} {t : TypeDecl} (h : EmittedFrom s taken o body t) :
    ∃ us, us.length = (bodySites t.name body).length ∧ t = bodyDecl o t.name body us ∧ body.isBody = true := by
  cases h with
  | @record kind body given depth d d' fields hfields _ =>
    have heq := congrFun (emitFields_bind (marshalWithin o s depth) kind given 0 body.members
      fun fields isWide => pure (fields, isWide)) d
    rw [Emit.bind_eq hfields] at heq
    obtain ⟨us, d₁, hus, hresult⟩ := Emit.bind_eq_some heq.symm
    obtain ⟨hfst, hsnd⟩ := Prod.mk.inj (Prod.mk.inj (Option.some.inj hresult)).1
    refine ⟨us, length_of_mapM hus, ?_, rfl⟩
    rw [← hfst, ← hsnd]
    rfl
  | enumeration => exact ⟨[], rfl, rfl, rfl⟩
  | @function f given depth d d' m hmethod _ =>
    rw [emitMethod_eq] at hmethod
    obtain ⟨us, d₁, hus, hresult⟩ := Emit.bind_eq_some hmethod
    cases hresult
    exact ⟨us, length_of_mapM hus, rfl, rfl⟩

theorem Draft.Consistent.not_isContainer (hd : d.Consistent o s started) {t : TypeDecl} (ht : t ∈ d.types.toList) :
    t.isContainer = false := by
  obtain ⟨body, -, hemitted⟩ := hd.emitted t ht
  exact hemitted.not_isContainer

end HeaderBinding
