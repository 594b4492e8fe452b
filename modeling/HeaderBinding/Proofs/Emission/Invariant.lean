import HeaderBinding.Proofs.Emission.Uses

namespace HeaderBinding

open Managed (TypeRef TypeDecl)

namespace Draft

def names (d : Draft) : List String :=
  d.types.toList.map (·.name)

structure Consistent (o : EmitOptions) (s : Store) (started : List String) (d : Draft) : Prop where
  mem_taken : ∀ name, name ∈ d.taken ↔ name ∈ started ∨ name ∈ d.names
  nodup : d.names.Nodup
  disjoint : ∀ name ∈ started, name ∉ d.names
  emitted : ∀ t ∈ d.types.toList, ∃ body, d.taken[t.name]? = some body ∧
    EmittedFrom s d.taken o body t

variable {o : EmitOptions} {s : Store} {started : List String} {d d' : Draft}

theorem consistent_empty (o : EmitOptions) (s : Store) : empty.Consistent o s [] where
  mem_taken name := by simp [empty, names]
  nodup := List.nodup_nil
  disjoint := nofun
  emitted := nofun

theorem Consistent.congr (h : d.Consistent o s started) (htaken : d'.taken = d.taken)
    (htypes : d'.types = d.types) : d'.Consistent o s started := by
  have hnames : d'.names = d.names := by rw [names, htypes, names]
  constructor
  · rw [htaken, hnames]
    exact h.mem_taken
  · rw [hnames]
    exact h.nodup
  · rw [hnames]
    exact h.disjoint
  · rw [htaken, htypes]
    exact h.emitted

theorem Consistent.start (h : d.Consistent o s started) {given : String} (hfree : given ∉ d.taken)
    (body : NativeType) (diagnostics : Diagnostics) :
    Consistent o s (given :: started)
      { d with taken := d.taken.insert given body, diagnostics := diagnostics } where
  mem_taken name := by
    change name ∈ d.taken.insert given body ↔ name ∈ given :: started ∨ name ∈ d.names
    rw [Std.HashMap.mem_insert, h.mem_taken, List.mem_cons, beq_iff_eq, or_assoc]
    exact or_congr_left ⟨Eq.symm, Eq.symm⟩
  nodup := h.nodup
  disjoint name hname := by
    rcases List.mem_cons.mp hname with rfl | hname
    · exact fun hmem => hfree ((h.mem_taken name).mpr (.inr hmem))
    · exact h.disjoint name hname
  emitted t ht := by
    have hwithin := Taken.within_insert hfree body
    obtain ⟨held, hheld, hemitted⟩ := h.emitted t ht
    exact ⟨held, hwithin t.name held hheld, hemitted.within hwithin⟩

theorem Consistent.declare {t : TypeDecl} {body : NativeType}
    (h : d.Consistent o s (t.name :: started)) (hnew : t.name ∉ started)
    (hbody : d.taken[t.name]? = some body) (ht : EmittedFrom s d.taken o body t) :
    (d.declare t).Consistent o s started := by
  have hnames : (d.declare t).names = d.names ++ [t.name] := by
    simp only [names, Draft.declare, Array.toList_push, List.map_append, List.map_cons, List.map_nil]
  have hfresh : t.name ∉ d.names := h.disjoint t.name (List.mem_cons_self ..)
  constructor
  · intro name
    change name ∈ d.taken ↔ _
    rw [h.mem_taken, hnames, List.mem_cons, List.mem_append, List.mem_singleton]
    constructor
    · rintro ((hname | hname) | hname)
      · exact .inr (.inr hname)
      · exact .inl hname
      · exact .inr (.inl hname)
    · rintro (hname | hname | hname)
      · exact .inl (.inr hname)
      · exact .inr hname
      · exact .inl (.inl hname)
  · rw [hnames]
    refine h.nodup.append (List.nodup_singleton _) ?_
    intro name hname hmem
    rw [List.mem_singleton.mp hmem] at hname
    exact hfresh hname
  · intro name hname hmem
    rw [hnames] at hmem
    rcases List.mem_append.mp hmem with hmem | hmem
    · exact h.disjoint name (List.mem_cons_of_mem _ hname) hmem
    · rw [List.mem_singleton.mp hmem] at hname
      exact hnew hname
  · intro u hu
    rw [Draft.declare, Array.toList_push] at hu
    rcases List.mem_append.mp hu with hu | hu
    · exact h.emitted u hu
    · rw [List.mem_singleton.mp hu]
      exact ⟨body, hbody, ht⟩

end Draft

def Emits (o : EmitOptions) (s : Store) (started : List String) {α : Type} (step : Emit α)
    (right : Taken → α → Prop) : Prop :=
  ∀ (d : Draft) (a : α) (d' : Draft), d.Consistent o s started → step d = some (a, d') →
    d'.Consistent o s started ∧ d.taken.Within d'.taken ∧ right d'.taken a

def Lasting {α : Type} (right : Taken → α → Prop) : Prop :=
  ∀ (taken taken' : Taken) (a : α), taken.Within taken' → right taken a → right taken' a

theorem Emit.bind_eq {α β : Type} {x : Emit α} {f : α → Emit β} {d d' : Draft} {a : α}
    (h : x d = some (a, d')) : (x >>= f) d = f a d' := by
  change (x d).bind (fun p => f p.1 p.2) = _
  rw [h]
  rfl

theorem Emit.bind_eq_some {α β : Type} {x : Emit α} {f : α → Emit β} {d d'' : Draft} {b : β}
    (h : (x >>= f) d = some (b, d'')) : ∃ a d', x d = some (a, d') ∧ f a d' = some (b, d'') := by
  change (x d).bind (fun p => f p.1 p.2) = _ at h
  obtain ⟨⟨a, d'⟩, hx, hf⟩ := Option.bind_eq_some_iff.mp h
  exact ⟨a, d', hx, hf⟩

namespace Emits

variable {o : EmitOptions} {s : Store} {started : List String} {α β γ : Type}

theorem pure {right : Taken → α → Prop} {a : α} (h : ∀ taken, right taken a) :
    Emits o s started (Pure.pure a) right := by
  intro d b d' hd hrun
  cases hrun
  exact ⟨hd, .refl _, h d.taken⟩

theorem bind {x : Emit α} {f : α → Emit β} {right : Taken → α → Prop}
    {right' : Taken → β → Prop} (hx : Emits o s started x right)
    (hf : ∀ a, Emits o s started (f a) fun taken b => right taken a → right' taken b)
    (hlasting : Lasting right) : Emits o s started (x >>= f) right' := by
  intro d b d'' hd hrun
  obtain ⟨a, d', ha, hb⟩ := Emit.bind_eq_some hrun
  obtain ⟨hd', hwithin, hright⟩ := hx d a d' hd ha
  obtain ⟨hd'', hwithin', hright'⟩ := hf a d' b d'' hd' hb
  exact ⟨hd'', hwithin.trans hwithin', hright' (hlasting _ _ a hwithin' hright)⟩

theorem imp {x : Emit α} {right right' : Taken → α → Prop} (hx : Emits o s started x right)
    (h : ∀ taken a, right taken a → right' taken a) : Emits o s started x right' := by
  intro d a d' hd hrun
  obtain ⟨hd', hwithin, hright⟩ := hx d a d' hd hrun
  exact ⟨hd', hwithin, h d'.taken a hright⟩

theorem seq {x : Emit α} {y : Emit β} {right : Taken → α → Prop} {right' : Taken → β → Prop}
    (hx : Emits o s started x right) (hy : Emits o s started y right') :
    Emits o s started (x >>= fun _ => y) right' := by
  intro d b d'' hd hrun
  obtain ⟨a, d', ha, hb⟩ := Emit.bind_eq_some hrun
  obtain ⟨hd', hwithin, -⟩ := hx d a d' hd ha
  obtain ⟨hd'', hwithin', hright⟩ := hy d' b d'' hd' hb
  exact ⟨hd'', hwithin.trans hwithin', hright⟩

theorem elsewhere {f : Draft → Draft} (htaken : ∀ d, (f d).taken = d.taken)
    (htypes : ∀ d, (f d).types = d.types) :
    Emits o s started (modify f) fun _ _ => True := by
  intro d a d' hd hrun
  cases hrun
  refine ⟨hd.congr (htaken d) (htypes d), ?_, trivial⟩
  rw [htaken]
  exact .refl _

end Emits

end HeaderBinding
