import HeaderBinding.Proofs.Export.Record
import HeaderBinding.Proofs.Resolve.Inquiry

namespace HeaderBinding

structure Recorded.Settled (source : ExportSource) (r : Recorded ExportSource) : Prop where
  released : r.released.Perm r.given
  held : r.source.held = source.held
  acquired : r.source.acquired = source.acquired + r.released.length

theorem Recorded.settled_start (source : ExportSource) : (Recorded.start source).Settled source :=
  ⟨.refl [], rfl, rfl⟩

theorem Inquiry.Reaches.settled_close {source : ExportSource} {modules : ModuleList}
    {x : Inquiry (Recorded ExportSource)} (h : (start (Recorded.start source) modules).Reaches x) :
    x.close.Settled source :=
  ⟨(h.accounted (accounted_start source modules)).released_close, h.held_close.1, h.held_close.2⟩

namespace Store

variable (s : Store) (options : ResolveOptions) (source : ExportSource) (modules : ModuleList)

theorem resolveWithSource_recorded {σ : Type} [ExportProvider σ] (source : σ) :
    let recorded := s.resolveWithSource options (Recorded.start source) modules
    s.resolveWithSource options source modules = (recorded.1, recorded.2.1.source, recorded.2.2) := by
  cases hbinds : options.bindsProcedures with
  | false => simp only [resolveWithSource_of_not_binds s modules hbinds, Recorded.start]
  | true =>
    have hbound := bind_map (f := Recorded.source) (s.resolve options).1 (fun _ _ => rfl)
      (.start (Recorded.start source) modules)
    change (s.resolve options).1.bind (.start source modules) = _ at hbound
    simp only [resolveWithSource_of_binds s modules hbinds, hbound, Prod.map_fst, Prod.map_snd, id_eq,
      Inquiry.close_source]

theorem settled_resolveWithSource :
    (s.resolveWithSource options (Recorded.start source) modules).2.1.Settled source := by
  cases hbinds : options.bindsProcedures with
  | false =>
    rw [resolveWithSource_of_not_binds s modules hbinds]
    exact Recorded.settled_start source
  | true =>
    rw [resolveWithSource_of_binds s modules hbinds]
    exact (reaches_bind _ _).settled_close

end Store

theorem ExportSource.settled_after (source : ExportSource) (modules : ModuleList) :
    (∀ names : List String,
      let recorded := (Inquiry.findAll names (.start (Recorded.start source) modules)).2.close
      (Inquiry.findAll names (.start source modules)).2.close = recorded.source ∧ recorded.Settled source) ∧
    ∀ (s : Store) (options : ResolveOptions),
      let recorded := s.resolveWithSource options (Recorded.start source) modules
      s.resolveWithSource options source modules = (recorded.1, recorded.2.1.source, recorded.2.2) ∧
        recorded.2.1.Settled source ∧
        (options.bindsProcedures = true ∨ recorded.2.1 = Recorded.start source) := by
  refine ⟨fun names => ⟨Inquiry.close_findAll source modules names,
    (Inquiry.reaches_findAll names _).settled_close⟩, fun s options => ⟨?_, ?_, ?_⟩⟩
  · exact s.resolveWithSource_recorded options modules source
  · exact s.settled_resolveWithSource options source modules
  · cases hbinds : options.bindsProcedures with
    | true => exact .inl rfl
    | false =>
      rw [Store.resolveWithSource_of_not_binds s modules hbinds]
      exact .inr rfl

end HeaderBinding
