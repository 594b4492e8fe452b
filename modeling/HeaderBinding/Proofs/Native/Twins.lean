import HeaderBinding.Declaration.Basic
import HeaderBinding.Proofs.Native.Equivalence

namespace HeaderBinding

namespace TypedLiteral

variable {v w : TypedLiteral}

theorem toInt?_eq_of_same (h : v.same w = true) : v.literal.toInt? = w.literal.toInt? := by
  obtain ⟨hliteral, -⟩ := same_iff.mp h
  generalize v.literal = l at hliteral
  generalize w.literal = k at hliteral
  cases l <;> cases k <;> first
    | exact absurd hliteral Bool.false_ne_true
    | rfl
    | exact congrArg Literal.toInt? (congrArg _ (eq_of_beq hliteral))

theorem narrowedTo?_eq_of_same (h : v.same w = true) (t : LiteralType) : v.narrowedTo? t = w.narrowedTo? t := by
  rw [narrowedTo?, narrowedTo?, toInt?_eq_of_same h]

end TypedLiteral

theorem sameOption_iff_rel {α : Type} {same : α → α → Bool} {a b : Option α} :
    sameOption same a b = true ↔ Option.Rel (fun x y => same x y = true) a b := by
  constructor
  · intro h
    cases a <;> cases b <;> first
      | exact absurd h Bool.false_ne_true
      | exact .none
      | exact .some h
  · intro h
    cases h with
    | none => rfl
    | some h => exact h

namespace NativeType

def Twins : NativeType → NativeType → Prop :=
  Related Eq fun e e' => e.same e' = true

def LinkedBy (T : String → Option Target) (x : NativeType) : Prop :=
  ∀ r ∈ x.references, r.target = T r.name

variable {x y z : NativeType} {T : String → Option Target}

theorem LinkedBy.child (h : x.LinkedBy T) {c : NativeType} (hc : c ∈ x.children) : c.LinkedBy T :=
  fun r hr => h r (mem_references_of_child hc hr)

theorem LinkedBy.of_mem_visit (h : x.LinkedBy T) (hy : y ∈ x.visit) : y.LinkedBy T := by
  induction x using children_induction with
  | h x ih =>
    rw [visit_eq] at hy
    rcases List.mem_cons.mp hy with rfl | hy
    · exact h
    · obtain ⟨c, hc, hy⟩ := List.mem_flatMap.mp hy
      exact ih c hc (h.child hc) hy

namespace Twins

theorem refl (x : NativeType) : x.Twins x :=
  Related.refl (fun _ => rfl) Enumeration.same_refl x

theorem symm (h : x.Twins y) : y.Twins x :=
  Related.symm h (fun _ _ => Eq.symm) fun _ _ => Enumeration.same_symm

theorem trans (h : x.Twins y) (h' : y.Twins z) : x.Twins z :=
  Related.trans h h' (fun _ _ _ => Eq.trans) fun _ _ _ => Enumeration.same_trans

theorem of_builtin {b : Builtin} (h : (builtin b).Twins y) : y = .builtin b := by
  have hhead := h.head
  cases y <;> first
    | exact absurd hhead id
    | exact congrArg builtin (Eq.symm hhead)

theorem of_named {r : Reference} (h : (named r).Twins y) : y = .named r := by
  have hhead := h.head
  cases y <;> first
    | exact absurd hhead id
    | exact congrArg named (Eq.symm hhead)

theorem of_synonym {name : String} {target : NativeType} (h : (synonym name target).Twins y) :
    ∃ target', y = .synonym name target' ∧ target.Twins target' := by
  have hhead := h.head
  have hchildren := h.children
  cases y <;> first
    | exact absurd hhead id
    | exact ⟨_, congrArg (synonym · _) (Eq.symm hhead), (List.forall₂_cons.mp hchildren).1⟩

theorem same (h : x.Twins y) : x.same y = true := by
  refine Related.same (Related.imp h (fun r s hrs => ?_) fun _ _ he => he)
  simp [hrs, Reference.same]

end Twins

theorem twins_of_same (h : x.same y = true) (hx : x.LinkedBy T) (hy : y.LinkedBy T) : x.Twins y := by
  have hrelated := Related.of_same h
  clear h
  induction x using children_induction generalizing y with
  | h x ih =>
    have hchildren : List.Forall₂ Twins x.children y.children := by
      obtain ⟨hlength, hzip⟩ := List.forall₂_iff_zip.mp hrelated.children
      refine List.forall₂_iff_zip.mpr ⟨hlength, fun {c d} hmem => ?_⟩
      obtain ⟨hc, hd⟩ := List.of_mem_zip hmem
      exact ih c hc (hx.child hc) (hy.child hd) (hzip hmem)
    refine .node ?_ hchildren
    have hhead := hrelated.head
    cases x with
    | named r =>
      cases y with
      | named r' =>
        have hr : r.target = T r.name := hx r (by rw [references_named]; exact List.mem_singleton_self r)
        have hr' : r'.target = T r'.name := hy r' (by rw [references_named]; exact List.mem_singleton_self r')
        simp only [Head, Reference.same, Bool.and_eq_true, beq_iff_eq] at hhead
        obtain ⟨name, target, qualifiers⟩ := r
        obtain ⟨name', target', qualifiers'⟩ := r'
        simp only at hhead hr hr'
        obtain ⟨rfl, rfl⟩ := hhead
        rw [Head, hr, hr']
      | _ => exact absurd hhead id
    | _ => cases y <;> exact hhead

end NativeType

def Typedef.Twins (d d' : Typedef) : Prop :=
  d.name = d'.name ∧ d.target.Twins d'.target

def Definition.Twins (d d' : Definition) : Prop :=
  d.toType.Twins d'.toType

def Constant.Twins (c c' : Constant) : Prop :=
  c.name = c'.name ∧ Option.Rel (fun v w => v.same w = true) c.value c'.value

theorem Definition.Twins.name_eq {d d' : Definition} (h : d.Twins d') : d.name = d'.name := by
  have hhead := NativeType.Related.head h
  cases d <;> cases d' <;> first
    | exact absurd hhead id
    | exact hhead.2.1
    | exact (Enumeration.same_iff.mp hhead).1

end HeaderBinding
