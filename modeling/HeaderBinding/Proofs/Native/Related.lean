import HeaderBinding.Native.Same
import HeaderBinding.Native.Shape
import HeaderBinding.Proofs.Native.Traverse
import Mathlib.Data.List.Forall2

namespace HeaderBinding

theorem map_eq_of_forall₂ {α β γ : Type} {P : α → β → Prop} {f : α → γ} {g : β → γ} {as : List α} {bs : List β}
    (h : List.Forall₂ P as bs) (hP : ∀ a b, P a b → f a = g b) : as.map f = bs.map g := by
  induction h with
  | nil => rfl
  | cons hab _ ih => rw [List.map_cons, List.map_cons, hP _ _ hab, ih]

theorem forall₂_imp_mem {α β : Type} {P Q : α → β → Prop} {as : List α} {bs : List β} (h : List.Forall₂ P as bs)
    (hPQ : ∀ a ∈ as, ∀ b, P a b → Q a b) : List.Forall₂ Q as bs := by
  induction h with
  | nil => exact .nil
  | cons hab _ ih =>
    obtain ⟨ha, has⟩ := List.forall_mem_cons.mp hPQ
    exact .cons (ha _ hab) (ih has)

theorem exists_of_forall₂_left {α β : Type} {P : α → β → Prop} {as : List α} {bs : List β} (h : List.Forall₂ P as bs)
    {a : α} (ha : a ∈ as) : ∃ b ∈ bs, P a b := by
  induction h with
  | nil => cases ha
  | @cons _ b _ _ hab _ ih =>
    rcases List.mem_cons.mp ha with rfl | ha
    · exact ⟨b, List.mem_cons_self .., hab⟩
    · obtain ⟨b', hb', hab'⟩ := ih ha
      exact ⟨b', List.mem_cons_of_mem b hb', hab'⟩

theorem exists_of_forall₂_right {α β : Type} {P : α → β → Prop} {as : List α} {bs : List β} (h : List.Forall₂ P as bs)
    {b : β} (hb : b ∈ bs) : ∃ a ∈ as, P a b := by
  induction h with
  | nil => cases hb
  | @cons a _ _ _ hab _ ih =>
    rcases List.mem_cons.mp hb with rfl | hb
    · exact ⟨a, List.mem_cons_self .., hab⟩
    · obtain ⟨a', ha', hab'⟩ := ih hb
      exact ⟨a', List.mem_cons_of_mem a ha', hab'⟩

theorem forall₂_comp {α β γ : Type} {P : α → β → Prop} {Q : β → γ → Prop} {R : α → γ → Prop} {as : List α}
    {bs : List β} {cs : List γ} (h : List.Forall₂ P as bs) (h' : List.Forall₂ Q bs cs)
    (hR : ∀ a ∈ as, ∀ b c, P a b → Q b c → R a c) : List.Forall₂ R as cs := by
  induction h generalizing cs with
  | nil =>
    cases h'
    exact .nil
  | cons hab _ ih =>
    obtain ⟨ha, has⟩ := List.forall_mem_cons.mp hR
    cases h' with
    | cons hbc hrest => exact .cons (ha _ _ hab hbc) (ih hrest has)

theorem forall₂_of_append {α β : Type} {P : α → β → Prop} {as as' : List α} {bs bs' : List β}
    (hlength : as.length = bs.length) (h : List.Forall₂ P (as ++ as') (bs ++ bs')) :
    List.Forall₂ P as bs ∧ List.Forall₂ P as' bs' := by
  induction as generalizing bs with
  | nil =>
    obtain rfl := List.length_eq_zero_iff.mp hlength.symm
    exact ⟨.nil, h⟩
  | cons a as ih =>
    cases bs with
    | nil => cases hlength
    | cons b bs =>
      cases h with
      | cons hab hrest =>
        obtain ⟨hl, hr⟩ := ih (Nat.succ.inj hlength) hrest
        exact ⟨.cons hab hl, hr⟩

namespace NativeType

section

variable (R : Reference → Reference → Prop) (E : Enumeration → Enumeration → Prop)

def Head : NativeType → NativeType → Prop
  | .builtin a, .builtin b => a = b
  | .pointer _, .pointer _ => True
  | .array _ rank length, .array _ rank' length' => rank = rank' ∧ length = length'
  | .synonym name _, .synonym name' _ => name = name'
  | .named r, .named r' => R r r'
  | .record kind body, .record kind' body' =>
    kind = kind' ∧ body.name = body'.name ∧ body.members.map (·.name) = body'.members.map (·.name)
  | .enumeration e, .enumeration e' => E e e'
  | .function s, .function s' =>
    s.name = s'.name ∧ s.params.map (·.name) = s'.params.map (·.name) ∧
      s.params.map (·.direction) = s'.params.map (·.direction) ∧ s.convention = s'.convention
  | _, _ => False

def AlikeMembers (P : NativeType → NativeType → Prop) (x y : Member NativeType) : Prop :=
  x.name = y.name ∧ P x.type y.type

def AlikeParams (P : NativeType → NativeType → Prop) (x y : Parameter NativeType) : Prop :=
  x.name = y.name ∧ x.direction = y.direction ∧ P x.type y.type

inductive Related : NativeType → NativeType → Prop where
  | node {t u : NativeType} : Head R E t u → List.Forall₂ Related t.children u.children → Related t u

end

variable {R R' : Reference → Reference → Prop} {E E' : Enumeration → Enumeration → Prop} {t u v : NativeType}

namespace Related

theorem head (h : Related R E t u) : Head R E t u := by
  cases h with
  | node h _ => exact h

theorem children (h : Related R E t u) : List.Forall₂ (Related R E) t.children u.children := by
  cases h with
  | node _ h => exact h

theorem builtin (b : Builtin) : Related R E (.builtin b) (.builtin b) :=
  .node rfl .nil

theorem named {r r' : Reference} (h : R r r') : Related R E (.named r) (.named r') :=
  .node h .nil

theorem enumeration {e e' : Enumeration} (h : E e e') : Related R E (.enumeration e) (.enumeration e') :=
  .node h .nil

theorem pointer (h : Related R E t u) : Related R E (.pointer t) (.pointer u) :=
  .node trivial (.cons h .nil)

theorem array (h : Related R E t u) (rank : UInt32) (length : Option ArrayLength) :
    Related R E (.array t rank length) (.array u rank length) :=
  .node ⟨rfl, rfl⟩ (.cons h .nil)

theorem synonym (h : Related R E t u) (name : String) : Related R E (.synonym name t) (.synonym name u) :=
  .node rfl (.cons h .nil)

theorem record {ms ms' : List (Member NativeType)} (h : List.Forall₂ (AlikeMembers (Related R E)) ms ms')
    (kind : RecordKind) (name : String) : Related R E (.record kind ⟨name, ms⟩) (.record kind ⟨name, ms'⟩) := by
  refine .node ⟨rfl, rfl, ?_⟩ ?_
  · exact map_eq_of_forall₂ h fun _ _ hxy => hxy.1
  · exact List.forall₂_map_left_iff.mpr (List.forall₂_map_right_iff.mpr (h.imp fun _ _ hxy => hxy.2))

theorem function {ps ps' : List (Parameter NativeType)} (h : Related R E t u)
    (hp : List.Forall₂ (AlikeParams (Related R E)) ps ps') (name : String) (convention : Option CallingConvention) :
    Related R E (.function ⟨name, t, ps, convention⟩) (.function ⟨name, u, ps', convention⟩) := by
  refine .node ⟨rfl, ?_, ?_, rfl⟩ (.cons h ?_)
  · exact map_eq_of_forall₂ hp fun _ _ hxy => hxy.1
  · exact map_eq_of_forall₂ hp fun _ _ hxy => hxy.2.1
  · exact List.forall₂_map_left_iff.mpr (List.forall₂_map_right_iff.mpr (hp.imp fun _ _ hxy => hxy.2.2))

theorem alikeMembers_of_map {P : NativeType → NativeType → Prop} {ms ms' : List (Member NativeType)}
    (hnames : ms.map (·.name) = ms'.map (·.name)) (h : List.Forall₂ P (ms.map (·.type)) (ms'.map (·.type))) :
    List.Forall₂ (AlikeMembers P) ms ms' := by
  have h' := List.forall₂_map_right_iff.mp (List.forall₂_map_left_iff.mp h)
  clear h
  induction h' with
  | nil => exact .nil
  | cons hxy _ ih =>
    simp only [List.map_cons, List.cons.injEq] at hnames
    exact .cons ⟨hnames.1, hxy⟩ (ih hnames.2)

theorem alikeParams_of_map {P : NativeType → NativeType → Prop} {ps ps' : List (Parameter NativeType)}
    (hnames : ps.map (·.name) = ps'.map (·.name)) (hdirections : ps.map (·.direction) = ps'.map (·.direction))
    (h : List.Forall₂ P (ps.map (·.type)) (ps'.map (·.type))) : List.Forall₂ (AlikeParams P) ps ps' := by
  have h' := List.forall₂_map_right_iff.mp (List.forall₂_map_left_iff.mp h)
  clear h
  induction h' with
  | nil => exact .nil
  | cons hxy _ ih =>
    simp only [List.map_cons, List.cons.injEq] at hnames hdirections
    exact .cons ⟨hnames.1, hdirections.1, hxy⟩ (ih hnames.2 hdirections.2)

theorem enumerations (h : Related R E t u) : List.Forall₂ E t.enumerations u.enumerations := by
  induction t using children_induction generalizing u with
  | h t ih =>
    have hchildren : List.Forall₂ E (t.children.flatMap NativeType.enumerations)
        (u.children.flatMap NativeType.enumerations) := by
      refine List.rel_flatMap (forall₂_imp_mem h.children fun c hc d hcd => ih c hc hcd) ?_
      exact fun _ _ hcd => hcd
    have hhead := h.head
    rw [enumerations_eq, enumerations_eq u]
    refine List.rel_append ?_ hchildren
    cases t <;> cases u <;> first
      | exact .nil
      | exact absurd hhead id
      | exact .cons hhead .nil

theorem references (h : Related R E t u) : List.Forall₂ R t.references u.references := by
  induction t using children_induction generalizing u with
  | h t ih =>
    have hchildren : List.Forall₂ R (t.children.flatMap NativeType.references)
        (u.children.flatMap NativeType.references) := by
      refine List.rel_flatMap (forall₂_imp_mem h.children fun c hc d hcd => ih c hc hcd) ?_
      exact fun _ _ hcd => hcd
    have hhead := h.head
    rw [references_eq, references_eq u]
    refine List.rel_append ?_ hchildren
    cases t <;> cases u <;> first
      | exact .nil
      | exact absurd hhead id
      | exact .cons hhead .nil

theorem of_leaves (h : Related R E t u) (hR : List.Forall₂ R' t.references u.references)
    (hE : List.Forall₂ E' t.enumerations u.enumerations) : Related R' E' t u := by
  induction t using children_induction generalizing u with
  | h t ih =>
    have hhead := h.head
    rw [references_eq, references_eq u] at hR
    rw [enumerations_eq, enumerations_eq u] at hE
    have hlengths : t.reference?.toList.length = u.reference?.toList.length ∧
        t.enumeration?.toList.length = u.enumeration?.toList.length := by
      cases t <;> cases u <;> first
        | exact ⟨rfl, rfl⟩
        | exact absurd hhead id
    obtain ⟨href, hrefs⟩ := forall₂_of_append hlengths.1 hR
    obtain ⟨henum, henums⟩ := forall₂_of_append hlengths.2 hE
    refine .node ?_ ?_
    · cases t <;> cases u <;> first
        | exact hhead
        | exact absurd hhead id
        | exact (List.forall₂_cons.mp href).1
        | exact (List.forall₂_cons.mp henum).1
    · have hc := h.children
      clear h hhead hR hE hlengths href henum
      generalize t.children = ts at *
      generalize u.children = us at *
      induction hc with
      | nil => exact .nil
      | cons hab _ ih' =>
        obtain ⟨ha, has⟩ := List.forall_mem_cons.mp ih
        obtain ⟨hR, hRs⟩ := forall₂_of_append hab.references.length_eq hrefs
        obtain ⟨hE, hEs⟩ := forall₂_of_append hab.enumerations.length_eq henums
        exact .cons (ha hab hR hE) (ih' has hRs hEs)

theorem of_enumerations (h : Related R E t u) (hE : List.Forall₂ E' t.enumerations u.enumerations) :
    Related R E' t u :=
  h.of_leaves h.references hE

theorem imp (h : Related R E t u) (hR : ∀ r s, R r s → R' r s) (hE : ∀ e e', E e e' → E' e e') :
    Related R' E' t u := by
  induction t using children_induction generalizing u with
  | h t ih =>
    have hhead := h.head
    refine .node ?_ (forall₂_imp_mem h.children fun c hc d hcd => ih c hc hcd)
    cases t <;> cases u <;> first
      | exact hR _ _ hhead
      | exact hE _ _ hhead
      | exact hhead

theorem refl (hR : ∀ r, R r r) (hE : ∀ e, E e e) (t : NativeType) : Related R E t t := by
  induction t using children_induction with
  | h t ih =>
    refine .node ?_ (List.forall₂_same.mpr ih)
    cases t <;> first
      | exact hR _
      | exact hE _
      | simp [Head]

theorem trans {R'' : Reference → Reference → Prop} {E'' : Enumeration → Enumeration → Prop}
    (h : Related R E t u) (h' : Related R' E' u v)
    (hR : ∀ r r' r'', R r r' → R' r' r'' → R'' r r'') (hE : ∀ e e' e'', E e e' → E' e' e'' → E'' e e'') :
    Related R'' E'' t v := by
  induction t using children_induction generalizing u v with
  | h t ih =>
    have hhead := h.head
    have hhead' := h'.head
    refine .node ?_ ?_
    · cases t <;> cases u <;> first
        | exact absurd hhead id
        | cases v <;> first
          | exact absurd hhead' id
          | exact hR _ _ _ hhead hhead'
          | exact hE _ _ _ hhead hhead'
          | trivial
          | exact hhead.trans hhead'
          | exact ⟨hhead.1.trans hhead'.1, hhead.2.trans hhead'.2⟩
          | exact ⟨hhead.1.trans hhead'.1, hhead.2.1.trans hhead'.2.1, hhead.2.2.trans hhead'.2.2⟩
          | exact ⟨hhead.1.trans hhead'.1, hhead.2.1.trans hhead'.2.1, hhead.2.2.1.trans hhead'.2.2.1,
              hhead.2.2.2.trans hhead'.2.2.2⟩
    · exact forall₂_comp h.children h'.children fun c hc _ _ hcd hde => ih c hc hcd hde

theorem induction {P : NativeType → NativeType → Prop}
    (builtin : ∀ b, P (.builtin b) (.builtin b))
    (named : ∀ r r', R r r' → P (.named r) (.named r'))
    (enumeration : ∀ e e', E e e' → P (.enumeration e) (.enumeration e'))
    (pointer : ∀ t u, P t u → P (.pointer t) (.pointer u))
    (array : ∀ t u rank length, P t u → P (.array t rank length) (.array u rank length))
    (synonym : ∀ name t u, P t u → P (.synonym name t) (.synonym name u))
    (record : ∀ kind name (ms ms' : List (Member NativeType)),
      List.Forall₂ (AlikeMembers P) ms ms' →
      P (.record kind ⟨name, ms⟩) (.record kind ⟨name, ms'⟩))
    (function : ∀ name t u (ps ps' : List (Parameter NativeType)) convention, P t u →
      List.Forall₂ (AlikeParams P) ps ps' →
      P (.function ⟨name, t, ps, convention⟩) (.function ⟨name, u, ps', convention⟩))
    (h : Related R E t u) : P t u := by
  induction t using children_induction generalizing u with
  | h t ih =>
    have hhead := h.head
    have hc : List.Forall₂ P t.children u.children := forall₂_imp_mem h.children fun c hc d hcd => ih c hc hcd
    cases t with
    | builtin b =>
      cases u <;> try exact absurd hhead id
      cases hhead
      exact builtin b
    | named r =>
      cases u <;> try exact absurd hhead id
      exact named _ _ hhead
    | enumeration e =>
      cases u <;> try exact absurd hhead id
      exact enumeration _ _ hhead
    | pointer t =>
      cases u <;> try exact absurd hhead id
      exact pointer _ _ (List.forall₂_cons.mp hc).1
    | array t rank length =>
      cases u <;> try exact absurd hhead id
      obtain ⟨rfl, rfl⟩ := hhead
      exact array _ _ rank length (List.forall₂_cons.mp hc).1
    | synonym name t =>
      cases u <;> try exact absurd hhead id
      cases hhead
      exact synonym name _ _ (List.forall₂_cons.mp hc).1
    | record kind body =>
      cases u <;> try exact absurd hhead id
      next kind' body' =>
      obtain ⟨name, ms⟩ := body
      obtain ⟨name', ms'⟩ := body'
      obtain ⟨rfl, rfl, hnames⟩ := hhead
      exact record kind name ms ms' (alikeMembers_of_map hnames hc)
    | function s =>
      cases u <;> try exact absurd hhead id
      next s' =>
      obtain ⟨name, t, ps, convention⟩ := s
      obtain ⟨name', u, ps', convention'⟩ := s'
      obtain ⟨rfl, hnames, hdirections, rfl⟩ := hhead
      obtain ⟨hreturns, hparams⟩ := List.forall₂_cons.mp hc
      exact function name t u ps ps' convention hreturns (alikeParams_of_map hnames hdirections hparams)

theorem eq (h : Related Eq Eq t u) : t = u := by
  refine Related.induction (P := fun t u => t = u) ?builtin ?named ?enumeration ?pointer ?array ?synonym ?record
    ?function h
  case builtin =>
    intro b
    rfl
  case named =>
    intro r r' h
    rw [h]
  case enumeration =>
    intro e e' h
    rw [h]
  case pointer =>
    intro t u ih
    rw [ih]
  case array =>
    intro t u rank length ih
    rw [ih]
  case synonym =>
    intro name t u ih
    rw [ih]
  case record =>
    intro kind name ms ms' ih
    have hms : ms = ms' := by
      rw [← List.forall₂_eq_eq_eq]
      exact ih.imp fun x y hxy => by
        cases x
        cases y
        obtain ⟨rfl, rfl⟩ := hxy
        rfl
    rw [hms]
  case function =>
    intro name t u ps ps' convention ih hps
    have hps' : ps = ps' := by
      rw [← List.forall₂_eq_eq_eq]
      exact hps.imp fun x y hxy => by
        cases x
        cases y
        obtain ⟨rfl, rfl, rfl⟩ := hxy
        rfl
    rw [ih, hps']

theorem rewrite_eq {g g' : Reference → Reference} {k k' : Enumeration → Enumeration} (h : Related R E t u)
    (hR : ∀ r s, R r s → g r = g' s) (hE : ∀ e e', E e e' → k e = k' e') : t.rewrite g k = u.rewrite g' k' := by
  refine Related.induction (P := fun t u => t.rewrite g k = u.rewrite g' k') ?builtin ?named ?enumeration ?pointer
    ?array ?synonym ?record ?function h
  case builtin =>
    intro b
    rfl
  case named =>
    intro r r' h
    rw [rewrite_named, rewrite_named, hR r r' h]
  case enumeration =>
    intro e e' h
    rw [rewrite_enumeration, rewrite_enumeration, hE e e' h]
  case pointer =>
    intro t u ih
    rw [rewrite_pointer, rewrite_pointer, ih]
  case array =>
    intro t u rank length ih
    rw [rewrite_array, rewrite_array, ih]
  case synonym =>
    intro name t u ih
    rw [rewrite_synonym, rewrite_synonym, ih]
  case record =>
    intro kind name ms ms' ih
    rw [rewrite_record, rewrite_record]
    rw [map_eq_of_forall₂ ih fun x y hxy => by rw [hxy.1, hxy.2]]
  case function =>
    intro name t u ps ps' convention ih hps
    have hparams : ps.map (fun x => { x with type := x.type.rewrite g k }) =
        ps'.map fun x => { x with type := x.type.rewrite g' k' } :=
      map_eq_of_forall₂ hps fun x y hxy => by rw [hxy.1, hxy.2.1, hxy.2.2]
    rw [rewrite_function, rewrite_function, ih, hparams]

theorem byName {name : String} (h : Related R E t u) (hR : ∀ r, R r r) :
    Related R E (NativeType.byName name t) (NativeType.byName name u) := by
  unfold NativeType.byName
  split
  · exact h
  · exact named (hR _)

theorem shape (h : Related R E t u) (hR : ∀ r s, R r s → r.unlink = s.unlink)
    (hE : ∀ e e', E e e' → e.name = e'.name) : Related Eq E t.shape u.shape := by
  refine Related.induction (P := fun t u => Related Eq E t.shape u.shape) ?builtin ?named ?enumeration ?pointer ?array
    ?synonym ?record ?function h
  case builtin =>
    intro b
    exact builtin b
  case named =>
    intro r r' h
    exact named (hR r r' h)
  case enumeration =>
    intro e e' h
    rw [NativeType.shape, NativeType.shape, hE e e' h]
    exact (enumeration h).byName fun _ => rfl
  case pointer =>
    intro t u ih
    exact pointer ih
  case array =>
    intro t u rank length ih
    exact array ih rank length
  case synonym =>
    intro name t u ih
    exact (synonym ih name).byName fun _ => rfl
  case record =>
    intro kind name ms ms' ih
    rw [NativeType.shape, NativeType.shape, shapeMembers_eq_map, shapeMembers_eq_map]
    refine (record ?_ kind name).byName fun _ => rfl
    exact List.forall₂_map_left_iff.mpr (List.forall₂_map_right_iff.mpr ih)
  case function =>
    intro name t u ps ps' convention ih hps
    rw [NativeType.shape, NativeType.shape, shapeParams_eq_map, shapeParams_eq_map]
    refine function ih ?_ name convention
    exact List.forall₂_map_left_iff.mpr (List.forall₂_map_right_iff.mpr hps)

end Related

theorem related_rewrite {g : Reference → Reference} {k : Enumeration → Enumeration} (hR : ∀ r, R r (g r))
    (hE : ∀ e, E e (k e)) (t : NativeType) : Related R E t (t.rewrite g k) := by
  induction t using children_induction with
  | h t ih =>
    refine .node ?_ ?_
    · cases t with
      | record kind body => simp [Head]
      | function s => simp [Head]
      | named r => exact hR r
      | enumeration e => exact hE e
      | _ => simp [Head]
    · rw [children_rewrite]
      exact List.forall₂_map_right_iff.mpr (List.forall₂_same.mpr ih)

theorem shape_rewrite {g : Reference → Reference} (hg : ∀ r, (g r).unlink = r.unlink) (t : NativeType) :
    (t.rewrite g id).shape = t.shape := by
  have h : Related (fun r s => r.unlink = s.unlink) Eq t (t.rewrite g id) :=
    related_rewrite (g := g) (k := id) (fun r => (hg r).symm) (fun _ => rfl) t
  exact (h.shape (fun _ _ hr => hr) fun e e' he => congrArg Enumeration.name he).eq.symm

namespace Related

theorem same (h : Related (fun r s => r.same s = true) (fun e e' => e.same e' = true) t u) : t.same u = true := by
  refine Related.induction (P := fun t u => t.same u = true)
    ?builtin ?named ?enumeration ?pointer ?array ?synonym ?record
    ?function h
  case builtin =>
    intro b
    simp [NativeType.same]
  case named =>
    intro r r' h
    exact h
  case enumeration =>
    intro e e' h
    exact h
  case pointer =>
    intro t u ih
    exact ih
  case array =>
    intro t u rank length ih
    simp [NativeType.same, ih]
  case synonym =>
    intro name t u ih
    simp [NativeType.same, ih]
  case record =>
    intro kind name ms ms' ih
    have hms : sameMembers ms ms' = true := by
      induction ih with
      | nil => rfl
      | cons hxy _ ih => simp [sameMembers, hxy.1, hxy.2, ih]
    simp [NativeType.same, hms]
  case function =>
    intro name t u ps ps' convention ih hps
    have hps' : sameParams ps ps' = true := by
      induction hps with
      | nil => rfl
      | cons hxy _ ih => simp [sameParams, hxy.1, hxy.2.1, hxy.2.2, ih]
    simp [NativeType.same, ih, hps']

theorem alike_of_sameMembers {ms ms' : List (Member NativeType)} (h : sameMembers ms ms' = true) :
    List.Forall₂ (AlikeMembers fun t u => t.same u = true) ms ms' := by
  induction ms generalizing ms' with
  | nil =>
    cases ms' with
    | nil => exact .nil
    | cons _ _ => cases h
  | cons x rest ih =>
    cases ms' with
    | nil => cases h
    | cons y rest' =>
      simp only [sameMembers, Bool.and_eq_true, beq_iff_eq] at h
      exact .cons h.1 (ih h.2)

theorem alike_of_sameParams {ps ps' : List (Parameter NativeType)} (h : sameParams ps ps' = true) :
    List.Forall₂ (AlikeParams fun t u => t.same u = true) ps ps' := by
  induction ps generalizing ps' with
  | nil =>
    cases ps' with
    | nil => exact .nil
    | cons _ _ => cases h
  | cons x rest ih =>
    cases ps' with
    | nil => cases h
    | cons y rest' =>
      simp only [sameParams, Bool.and_eq_true, beq_iff_eq] at h
      exact .cons ⟨h.1.1.1, h.1.2, h.1.1.2⟩ (ih h.2)

theorem of_same (h : t.same u = true) : Related (fun r s => r.same s = true) (fun e e' => e.same e' = true) t u := by
  induction t using children_induction generalizing u with
  | h t ih =>
    cases t with
    | builtin b =>
      cases u <;> try cases h
      next b' =>
      obtain rfl : b = b' := by simpa [NativeType.same] using h
      exact builtin b
    | named r =>
      cases u <;> try cases h
      exact named h
    | enumeration e =>
      cases u <;> try cases h
      exact enumeration h
    | pointer t =>
      cases u <;> try cases h
      exact pointer (ih t (List.mem_singleton_self t) h)
    | array t rank length =>
      cases u <;> try cases h
      simp only [NativeType.same, Bool.and_eq_true, beq_iff_eq] at h
      obtain ⟨⟨h, rfl⟩, rfl⟩ := h
      exact array (ih t (List.mem_singleton_self t) h) rank length
    | synonym name t =>
      cases u <;> try cases h
      simp only [NativeType.same, Bool.and_eq_true, beq_iff_eq] at h
      obtain ⟨rfl, h⟩ := h
      exact synonym (ih t (List.mem_singleton_self t) h) name
    | record kind body =>
      cases u <;> try cases h
      next kind' body' =>
      obtain ⟨name, ms⟩ := body
      obtain ⟨name', ms'⟩ := body'
      simp only [NativeType.same, Bool.and_eq_true, beq_iff_eq] at h
      obtain ⟨⟨rfl, rfl⟩, h⟩ := h
      refine record (forall₂_imp_mem (alike_of_sameMembers h) fun x hx y hxy => ?_) kind name
      exact ⟨hxy.1, ih x.type (List.mem_map_of_mem hx) hxy.2⟩
    | function s =>
      cases u <;> try cases h
      next s' =>
      obtain ⟨name, t, ps, convention⟩ := s
      obtain ⟨name', u, ps', convention'⟩ := s'
      simp only [NativeType.same, Bool.and_eq_true, beq_iff_eq] at h
      obtain ⟨⟨⟨rfl, h⟩, hps⟩, rfl⟩ := h
      refine function (ih t (List.mem_cons_self ..) h) ?_ name convention
      refine forall₂_imp_mem (alike_of_sameParams hps) fun x hx y hxy => ?_
      exact ⟨hxy.1, hxy.2.1, ih x.type (List.mem_cons_of_mem t (List.mem_map_of_mem hx)) hxy.2.2⟩

end Related

end NativeType

end HeaderBinding
