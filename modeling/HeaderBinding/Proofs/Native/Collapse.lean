import HeaderBinding.Proofs.Native.Related

namespace HeaderBinding.NativeType

def inlineKey? : NativeType → Option Key
  | .synonym name _ => some (.synonym name)
  | .record _ body => some (.definedType body.name)
  | .enumeration e => some (.definedType e.name)
  | _ => none

def WritesOut (x : NativeType) (k : Key) : Prop :=
  x.inlineKey? = some k ∧ k.name ≠ ""

def FreeOf (K : Key → Prop) (t : NativeType) : Prop :=
  ∀ x ∈ t.visit, ∀ k, x.WritesOut k → ¬K k

inductive CollapsesTo (K : Key → Prop) (g : Reference → Reference) : NativeType → NativeType → Prop where
  | name {x : NativeType} {k : Key} : x.WritesOut k → K k → CollapsesTo K g x (.named (.unlinked k.name .empty))
  | node {x y : NativeType} : Head (fun r r' => r' = g r) Eq x y →
      List.Forall₂ (CollapsesTo K g) x.children y.children → CollapsesTo K g x y

structure Collapsing (K : Key → Prop) (g : Reference → Reference) (f : NativeType → NativeType) : Prop where
  named : ∀ r, f (.named r) = .named (g r)
  collapsed : ∀ {x k}, x.WritesOut k → K k → f x = .named (.unlinked k.name .empty)
  kept : ∀ {x}, x.reference? = none → (∀ k, x.WritesOut k → ¬K k) → f x = x.mapChildren f

section

variable {R R' : Reference → Reference → Prop} {E E' : Enumeration → Enumeration → Prop} {x y : NativeType}

theorem Head.inlineKey?_eq (h : Head R E x y) (hE : ∀ e e', E e e' → e.name = e'.name) :
    x.inlineKey? = y.inlineKey? := by
  cases x <;> cases y <;> first
    | exact absurd h id
    | exact congrArg (fun name => some (Key.synonym name)) h
    | exact congrArg (fun name => some (Key.definedType name)) h.2.1
    | exact congrArg (fun name => some (Key.definedType name)) (hE _ _ h)
    | rfl

theorem Head.mapChildren (h : Head R E x y) (f g : NativeType → NativeType) :
    Head R E (x.mapChildren f) (y.mapChildren g) := by
  cases x <;> cases y <;> first
    | exact h
    | exact absurd h id
    | simp_all [Head, NativeType.mapChildren, Function.comp_def]

theorem Related.mapChildren {f g : NativeType → NativeType} (h : Related R E x y)
    (hchildren : ∀ c ∈ x.children, ∀ c', Related R E c c' → Related R E (f c) (g c')) :
    Related R E (x.mapChildren f) (y.mapChildren g) := by
  refine .node (h.head.mapChildren f g) ?_
  rw [children_mapChildren, children_mapChildren]
  refine List.forall₂_map_left_iff.mpr (List.forall₂_map_right_iff.mpr ?_)
  exact forall₂_imp_mem h.children hchildren

theorem Head.reference? (h : Head R E x y) :
    x.reference? = none ∧ y.reference? = none ∨ ∃ r r', x = .named r ∧ y = .named r' ∧ R r r' := by
  cases x <;> cases y <;> first
    | exact absurd h id
    | exact .inl ⟨rfl, rfl⟩
    | exact .inr ⟨_, _, rfl, rfl, h⟩

theorem Head.of_not_reference (h : Head R E x y) (hx : x.reference? = none) : Head R' E x y := by
  cases x with
  | named r => cases hx
  | _ => cases y <;> exact h

theorem head_mapChildren (hE : ∀ e, E e e) (hx : x.reference? = none) (f : NativeType → NativeType) :
    Head R E x (x.mapChildren f) := by
  have h : Head Eq E x x := (Related.refl (fun _ => rfl) hE x).head
  have hmapped := h.mapChildren id f
  rw [mapChildren_id] at hmapped
  exact hmapped.of_not_reference hx

end

theorem inlineKey?_mapChildren (f : NativeType → NativeType) (x : NativeType) :
    (x.mapChildren f).inlineKey? = x.inlineKey? := by
  cases x <;> rfl

theorem reference?_mapChildren (f : NativeType → NativeType) (x : NativeType) :
    (x.mapChildren f).reference? = x.reference? := by
  cases x <;> rfl

theorem mapChildren_mapChildren (f g : NativeType → NativeType) (x : NativeType) :
    (x.mapChildren f).mapChildren g = x.mapChildren fun c => g (f c) := by
  cases x with
  | record kind body => simp [mapChildren]
  | function s => simp [mapChildren]
  | _ => rfl

theorem mapChildren_congr {f g : NativeType → NativeType} {x : NativeType} (h : ∀ c ∈ x.children, f c = g c) :
    x.mapChildren f = x.mapChildren g := by
  cases x with
  | record kind body =>
    simp only [children, List.forall_mem_map] at h
    rw [mapChildren, mapChildren, List.map_congr_left fun m hm => by rw [h m hm]]
  | function s =>
    simp only [children, List.forall_mem_cons, List.forall_mem_map] at h
    rw [mapChildren, mapChildren, h.1, List.map_congr_left fun p hp => by rw [h.2 p hp]]
  | _ => simp_all [children, mapChildren]

variable {K K' : Key → Prop} {g g' : Reference → Reference} {f f' : NativeType → NativeType} {x y : NativeType}

theorem not_writesOut_named {r : Reference} {k : Key} : ¬(named r).WritesOut k := fun h => nomatch h.1

theorem FreeOf.self (h : x.FreeOf K) {k : Key} (hk : x.WritesOut k) : ¬K k :=
  h x x.mem_visit_self k hk

theorem FreeOf.child (h : x.FreeOf K) {c : NativeType} (hc : c ∈ x.children) : c.FreeOf K :=
  fun z hz => h z (mem_visit_of_child hc hz)

theorem FreeOf.of_children (hself : ∀ k, x.WritesOut k → ¬K k) (h : ∀ c ∈ x.children, c.FreeOf K) : x.FreeOf K := by
  intro z hz
  rw [visit_eq] at hz
  rcases List.mem_cons.mp hz with rfl | hz
  · exact hself
  · obtain ⟨c, hc, hzc⟩ := List.mem_flatMap.mp hz
    exact h c hc z hzc

theorem FreeOf.mono (h : x.FreeOf K') (hK : ∀ k, K k → K' k) : x.FreeOf K :=
  fun z hz k hk hheld => h z hz k hk (hK k hheld)

theorem freeOf_named (r : Reference) : (named r).FreeOf K :=
  .of_children (fun _ h => absurd h not_writesOut_named) (by simp [children])

theorem CollapsesTo.refl (x : NativeType) : x.CollapsesTo K id x := by
  induction x using children_induction with
  | h x ih =>
    have hrelated : Related Eq Eq x x := .refl (fun _ => rfl) (fun _ => rfl) x
    exact .node (hrelated.imp (fun _ _ => Eq.symm) fun _ _ => id).head (List.forall₂_same.mpr ih)

namespace Collapsing

theorem cases (K : Key → Prop) (x : NativeType) : (∃ r, x = .named r) ∨ (∃ k, x.WritesOut k ∧ K k) ∨
    x.reference? = none ∧ ∀ k, x.WritesOut k → ¬K k := by
  by_cases hk : ∃ k, x.WritesOut k ∧ K k
  · exact .inr (.inl hk)
  · cases x with
    | named r => exact .inl ⟨r, rfl⟩
    | _ => exact .inr (.inr ⟨rfl, fun k hx hK => hk ⟨k, hx, hK⟩⟩)

theorem collapsesTo (hf : Collapsing K g f) (x : NativeType) : x.CollapsesTo K g (f x) := by
  induction x using children_induction with
  | h x ih =>
    rcases cases K x with ⟨r, rfl⟩ | ⟨k, hx, hk⟩ | ⟨hx, hk⟩
    · rw [hf.named]
      exact .node rfl .nil
    · rw [hf.collapsed hx hk]
      exact .name hx hk
    · rw [hf.kept hx hk]
      refine .node (head_mapChildren (fun _ => rfl) hx f) ?_
      rw [children_mapChildren]
      exact List.forall₂_map_right_iff.mpr (List.forall₂_same.mpr ih)

theorem freeOf (hf : Collapsing K g f) (x : NativeType) : (f x).FreeOf K := by
  induction x using children_induction with
  | h x ih =>
    rcases cases K x with ⟨r, rfl⟩ | ⟨k, hx, hk⟩ | ⟨hx, hk⟩
    · rw [hf.named]
      exact freeOf_named _
    · rw [hf.collapsed hx hk]
      exact freeOf_named _
    · rw [hf.kept hx hk]
      refine .of_children (fun k h => ?_) ?_
      · rw [WritesOut, inlineKey?_mapChildren] at h
        exact hk k h
      · rw [children_mapChildren]
        exact List.forall_mem_map.mpr ih

theorem eq_of_collapsesTo (hf : Collapsing K g f) (h : x.CollapsesTo K g y) (hy : y.FreeOf K) : f x = y := by
  induction x using children_induction generalizing y with
  | h x ih =>
    cases h with
    | name hx hk => exact hf.collapsed hx hk
    | node hhead hchildren =>
      rcases hhead.reference? with ⟨hx, -⟩ | ⟨r, r', rfl, rfl, rfl⟩
      · have hkey := hhead.inlineKey?_eq fun _ _ => congrArg Enumeration.name
        rw [hf.kept hx fun k hk => hy.self ⟨hkey ▸ hk.1, hk.2⟩]
        refine Related.eq (.node ?_ ?_)
        · have hmapped := (hhead.of_not_reference hx : Head Eq Eq x y).mapChildren f id
          rwa [mapChildren_id] at hmapped
        · rw [children_mapChildren, List.forall₂_map_left_iff]
          obtain ⟨hlength, hzip⟩ := List.forall₂_iff_zip.mp hchildren
          refine List.forall₂_iff_zip.mpr ⟨hlength, fun {c d} hmem => ?_⟩
          obtain ⟨hc, hd⟩ := List.of_mem_zip hmem
          rw [ih c hc (hzip hmem) (hy.child hd)]
          exact Related.refl (fun _ => rfl) (fun _ => rfl) d
      · exact hf.named r

theorem eq_iff (hf : Collapsing K g f) : f x = y ↔ x.CollapsesTo K g y ∧ y.FreeOf K := by
  constructor
  · rintro rfl
    exact ⟨hf.collapsesTo x, hf.freeOf x⟩
  · rintro ⟨h, hy⟩
    exact hf.eq_of_collapsesTo h hy

theorem absorbs (hf : Collapsing K g f) (hf' : Collapsing K' g' f') (hK : ∀ k, K k → K' k)
    (hg : ∀ r, g' (g r) = g' r) (hname : ∀ name, g' (.unlinked name .empty) = .unlinked name .empty)
    (x : NativeType) : f' (f x) = f' x := by
  induction x using children_induction with
  | h x ih =>
    rcases cases K x with ⟨r, rfl⟩ | ⟨k, hx, hk⟩ | ⟨hx, hk⟩
    · rw [hf.named, hf'.named, hf'.named, hg]
    · rw [hf.collapsed hx hk, hf'.named, hname, hf'.collapsed hx (hK k hk)]
    · have hwrites (k : Key) : (x.mapChildren f).WritesOut k ↔ x.WritesOut k := by
        rw [WritesOut, inlineKey?_mapChildren, WritesOut]
      rw [hf.kept hx hk]
      rcases cases K' x with ⟨r, rfl⟩ | ⟨k, hx', hk'⟩ | ⟨-, hk'⟩
      · cases hx
      · rw [hf'.collapsed ((hwrites k).mpr hx') hk', hf'.collapsed hx' hk']
      · rw [hf'.kept ((reference?_mapChildren f x).trans hx) fun k h => hk' k ((hwrites k).mp h), hf'.kept hx hk',
          mapChildren_mapChildren]
        exact mapChildren_congr ih

theorem idempotent (hf : Collapsing K g f) (hg : ∀ r, g (g r) = g r)
    (hname : ∀ name, g (.unlinked name .empty) = .unlinked name .empty) (x : NativeType) : f (f x) = f x :=
  hf.absorbs hf (fun _ => id) hg hname x

theorem mem_references (hf : Collapsing K g f) {r : Reference} (hr : r ∈ (f x).references) :
    (∃ r' ∈ x.references, r = g r') ∨ ∃ name ≠ "", r = .unlinked name .empty := by
  induction x using children_induction with
  | h x ih =>
    rcases cases K x with ⟨r', rfl⟩ | ⟨k, hx, hk⟩ | ⟨hx, hk⟩
    · rw [hf.named, references_named, List.mem_singleton] at hr
      exact .inl ⟨r', by simp, hr⟩
    · rw [hf.collapsed hx hk, references_named, List.mem_singleton] at hr
      exact .inr ⟨k.name, hx.2, hr⟩
    · rw [hf.kept hx hk, references_eq, reference?_mapChildren, hx, children_mapChildren] at hr
      simp only [Option.toList_none, List.nil_append, List.mem_flatMap, List.mem_map] at hr
      obtain ⟨_, ⟨c, hc, rfl⟩, hr⟩ := hr
      rcases ih c hc hr with ⟨r', hr', rfl⟩ | hname
      · exact .inl ⟨r', mem_references_of_child hc hr', rfl⟩
      · exact .inr hname

end Collapsing

def IsUnlinked (t : NativeType) : Prop :=
  ∀ r ∈ t.references, r.target = none

theorem collapsing_shape : Collapsing (fun _ => True) Reference.unlink shape where
  named _ := rfl
  collapsed {x k} hx _ := by
    obtain ⟨hx, hname⟩ := hx
    have hempty : ¬k.name.isEmpty = true := by simpa using hname
    cases x with
    | synonym name target =>
      cases hx
      exact if_neg hempty
    | record kind body =>
      cases hx
      exact if_neg hempty
    | enumeration e =>
      cases hx
      exact if_neg hempty
    | _ => cases hx
  kept {x} hx hk := by
    cases x with
    | named r => cases hx
    | synonym name target =>
      have hempty : name = "" := by
        by_contra hname
        exact hk (.synonym name) ⟨rfl, hname⟩ trivial
      exact if_pos (String.isEmpty_iff.mpr hempty)
    | record kind body =>
      have hempty : body.name = "" := by
        by_contra hname
        exact hk (.definedType body.name) ⟨rfl, hname⟩ trivial
      rw [shape, shapeMembers_eq_map]
      exact if_pos (String.isEmpty_iff.mpr hempty)
    | enumeration e =>
      have hempty : e.name = "" := by
        by_contra hname
        exact hk (.definedType e.name) ⟨rfl, hname⟩ trivial
      exact if_pos (String.isEmpty_iff.mpr hempty)
    | function s =>
      rw [shape, shapeParams_eq_map]
      rfl
    | _ => rfl

theorem isUnlinked_shape (t : NativeType) : t.shape.IsUnlinked := by
  intro r hr
  rcases collapsing_shape.mem_references hr with ⟨r', -, rfl⟩ | ⟨name, -, rfl⟩ <;> rfl

end HeaderBinding.NativeType
