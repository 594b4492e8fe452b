import HeaderBinding.Managed.Basic
import HeaderBinding.Proofs.Emission.Bindings
import HeaderBinding.Proofs.Native.Twins
import Mathlib.Data.List.Perm.Basic

namespace HeaderBinding

def UpToOrder {α β : Type} (R : α → β → Prop) (as : List α) (bs : List β) : Prop :=
  ∃ cs, List.Forall₂ R as cs ∧ cs.Perm bs

namespace UpToOrder

variable {α β γ δ : Type} {R : α → β → Prop} {as : List α} {bs : List β}

theorem of_perm {as bs : List α} (h : as.Perm bs) : UpToOrder Eq as bs :=
  ⟨as, List.forall₂_refl as, h⟩

theorem perm {as bs : List α} (h : UpToOrder Eq as bs) : as.Perm bs := by
  obtain ⟨cs, heq, hperm⟩ := h
  rwa [List.forall₂_eq_eq_eq.subst (motive := fun r => r as cs) heq]

theorem imp {R' : α → β → Prop} (h : UpToOrder R as bs) (hR : ∀ a ∈ as, ∀ b ∈ bs, R a b → R' a b) :
    UpToOrder R' as bs := by
  obtain ⟨cs, hcs, hperm⟩ := h
  obtain ⟨hlength, hzip⟩ := List.forall₂_iff_zip.mp hcs
  refine ⟨cs, List.forall₂_iff_zip.mpr ⟨hlength, fun {a c} hmem => ?_⟩, hperm⟩
  obtain ⟨ha, hc⟩ := List.of_mem_zip hmem
  exact hR a ha c (hperm.mem_iff.mp hc) (hzip hmem)

theorem exists_left (h : UpToOrder R as bs) {b : β} (hb : b ∈ bs) : ∃ a ∈ as, R a b := by
  obtain ⟨cs, hcs, hperm⟩ := h
  exact exists_of_forall₂_right hcs (hperm.mem_iff.mpr hb)

theorem append {as' : List α} {bs' : List β} (h : UpToOrder R as bs) (h' : UpToOrder R as' bs') :
    UpToOrder R (as ++ as') (bs ++ bs') := by
  obtain ⟨cs, hcs, hperm⟩ := h
  obtain ⟨cs', hcs', hperm'⟩ := h'
  exact ⟨cs ++ cs', List.rel_append hcs hcs', hperm.append hperm'⟩

theorem flip (h : UpToOrder R as bs) : UpToOrder (fun b a => R a b) bs as := by
  obtain ⟨cs, hcs, hperm⟩ := h
  exact List.perm_comp_forall₂ hperm.symm hcs.flip

theorem filterMap {R' : γ → δ → Prop} {f : α → Option γ} {g : β → Option δ} (h : UpToOrder R as bs)
    (hfg : ∀ a b, R a b → Option.Rel R' (f a) (g b)) : UpToOrder R' (as.filterMap f) (bs.filterMap g) := by
  obtain ⟨cs, hcs, hperm⟩ := h
  exact ⟨cs.filterMap g, List.rel_filterMap (fun a b hab => hfg a b hab) hcs, hperm.filterMap g⟩

theorem map {R' : γ → δ → Prop} {f : α → γ} {g : β → δ} (h : UpToOrder R as bs)
    (hfg : ∀ a b, R a b → R' (f a) (g b)) : UpToOrder R' (as.map f) (bs.map g) := by
  obtain ⟨cs, hcs, hperm⟩ := h
  exact ⟨cs.map g, List.rel_map (fun a b hab => hfg a b hab) hcs, hperm.map g⟩

theorem transfer {P : α → γ → Prop} {Q : β → δ → Prop} {S : γ → δ → Prop} {cs : List γ} {ds : List δ}
    (h : UpToOrder R as bs) (hP : List.Forall₂ P as cs) (hQ : List.Forall₂ Q bs ds)
    (hS : ∀ a b c d, R a b → P a c → Q b d → S c d) : UpToOrder S cs ds := by
  obtain ⟨bs', hbs', hperm⟩ := h
  obtain ⟨ds', hds', hperm'⟩ := List.perm_comp_forall₂ hperm hQ
  refine ⟨ds', ?_, hperm'⟩
  clear hperm hperm' hQ
  induction hbs' generalizing cs ds' with
  | nil =>
    cases hP
    cases hds'
    exact .nil
  | cons hab _ ih =>
    cases hP with
    | cons hac hP =>
      cases hds' with
      | cons hbd hds' => exact .cons (hS _ _ _ _ hab hac hbd) (ih hP _ hds')

theorem of_map_perm {f : α → γ} {g : β → γ} (h : (as.map f).Perm (bs.map g)) :
    UpToOrder (fun a b => f a = g b) as bs := by
  have hbs : List.Forall₂ (fun c b => c = g b) (bs.map g) bs :=
    List.forall₂_map_left_iff.mpr (List.forall₂_same.mpr fun _ _ => rfl)
  obtain ⟨cs, hcs, hperm⟩ := List.perm_comp_forall₂ h hbs
  exact ⟨cs, List.forall₂_map_left_iff.mp hcs, hperm⟩

theorem of_names {name : α → String} {name' : β → String} (hnodup : (as.map name).Nodup)
    (hnodup' : (bs.map name').Nodup) (hnames : ∀ n, n ∈ as.map name ↔ n ∈ bs.map name')
    (h : ∀ a ∈ as, ∀ b ∈ bs, name a = name' b → R a b) : UpToOrder R as bs :=
  (of_map_perm ((List.perm_ext_iff_of_nodup hnodup hnodup').mpr hnames)).imp h

end UpToOrder

namespace Managed

structure EnumMember.Same (m n : EnumMember) : Prop where
  name : m.name = n.name
  value : m.value.same n.value = true

inductive ConstantExpr.Same : ConstantExpr → ConstantExpr → Prop where
  | refl (e : ConstantExpr) : ConstantExpr.Same e e
  | literal {v w : TypedLiteral} : v.same w = true → ConstantExpr.Same (.literal v) (.literal w)

structure Field.Same (f g : Field) : Prop where
  name : f.name = g.name
  type : f.type = g.type
  attributes : f.attributes = g.attributes
  initial : Option.Rel ConstantExpr.Same f.initial g.initial
  isConst : f.isConst = g.isConst

inductive Body.Same : Body → Body → Prop where
  | refl (b : Body) : Body.Same b b
  | enumeration (underlying : Option Primitive) {ms ns : List EnumMember} : List.Forall₂ EnumMember.Same ms ns →
      Body.Same (.enumeration underlying ms) (.enumeration underlying ns)

structure TypeDecl.Same (d d' : TypeDecl) : Prop where
  name : d.name = d'.name
  attributes : d.attributes = d'.attributes
  body : d.body.Same d'.body

structure TypeDecl.SameClass (d d' : TypeDecl) : Prop where
  name : d.name = d'.name
  attributes : d.attributes = d'.attributes
  fields : UpToOrder Field.Same d.fields d'.fields
  methods : d.methods.Perm d'.methods

def Bindings.classes (b : Bindings) : List TypeDecl :=
  b.types.filter (·.isContainer)

structure Bindings.Reordered (b b' : Bindings) : Prop where
  declarations : UpToOrder TypeDecl.Same b.declarations b'.declarations
  classes : List.Forall₂ TypeDecl.SameClass b.classes b'.classes

end Managed

end HeaderBinding
