import HeaderBinding.Proofs.Export.Inquiry

namespace HeaderBinding

def ExportSource.search (s : ExportSource) (name : String) (first : Option ExportMatch) :
    List String → Except ExportError (Option ExportMatch)
  | [] => .ok first
  | module :: rest =>
    match ModuleState.of (s.read module) with
    | .opened table =>
      s.search name (if table.exports name then some (.found table.module first) else first) rest
    | .unreadable e => if first.isSome then s.search name first rest else .error e
    | .unopened | .absent => s.search name first rest

def ExportSource.ReadsAs (s t : ExportSource) : Prop :=
  ∀ module, s.read module = t.read module

theorem ExportSource.ReadsAs.refl (s : ExportSource) : s.ReadsAs s :=
  fun _ => rfl

theorem ExportSource.readsAs_acquire (s : ExportSource) (module : String) :
    (s.acquire module).2.ReadsAs s := by
  intro other
  unfold acquire
  cases s.read module <;> rfl

theorem ExportSource.fst_acquire (s : ExportSource) (module : String) :
    (s.acquire module).1 = s.read module := by
  unfold acquire
  cases s.read module <;> rfl

def Candidate.Faithful (s : ExportSource) (c : Candidate) : Prop :=
  c.state = .unopened ∨ c.state = .of (s.read c.module)

theorem ModuleState.of_ne_unopened (r : Except ExportError ExportTable) : of r ≠ .unopened := by
  cases r with
  | ok table => nofun
  | error e => cases e <;> nofun

variable {s source : ExportSource}

theorem Candidate.ensureOpened_spec {c : Candidate} (hsource : source.ReadsAs s) (hc : c.Faithful s) :
    (c.ensureOpened source).1 = ⟨c.module, .of (s.read c.module)⟩ ∧
      (c.ensureOpened source).2.ReadsAs s := by
  obtain ⟨module, state⟩ := c
  unfold ensureOpened
  rcases hc with hc | hc
  · change state = _ at hc
    subst hc
    refine ⟨?_, fun other => (source.readsAs_acquire module other).trans (hsource other)⟩
    have hread : (ExportProvider.acquire source module).1 = s.read module :=
      (source.fst_acquire module).trans (hsource module)
    dsimp only
    rw [hread]
  · change state = .of (s.read module) at hc
    subst hc
    cases hstate : ModuleState.of (s.read module) with
    | unopened => exact absurd hstate (ModuleState.of_ne_unopened _)
    | _ => exact ⟨rfl, hsource⟩

structure ExportSearch.Faithful (s : ExportSource) (modules : List String) (x : ExportSearch) :
    Prop where
  source : x.source.ReadsAs s
  candidates : ∀ c ∈ x.candidates, c.Faithful s
  modules_eq : x.candidates.map (·.module) = modules

namespace ExportSearch

theorem faithful_start (hsource : source.ReadsAs s) (modules : ModuleList) :
    Faithful s modules.names (.start source modules) where
  source := hsource
  candidates c hc := by
    obtain ⟨module, -, rfl⟩ := List.mem_map.mp hc
    exact .inl rfl
  modules_eq := by
    rw [Inquiry.start, List.map_map]
    exact List.map_id' modules.names

theorem readsAs_close {modules : List String} {x : ExportSearch} (h : Faithful s modules x) :
    x.close.ReadsAs s := by
  rw [Inquiry.close, Inquiry.foldl_release]
  exact h.source

theorem lookup_spec (name : String) (cs : List Candidate) (first : Option ExportMatch)
    (hsource : source.ReadsAs s) (hcs : ∀ c ∈ cs, c.Faithful s) :
    (Inquiry.lookup name source first cs).1 = s.search name first (cs.map (·.module)) ∧
      Faithful s (cs.map (·.module)) ⟨(Inquiry.lookup name source first cs).2.1,
        (Inquiry.lookup name source first cs).2.2⟩ := by
  induction cs generalizing source first with
  | nil => exact ⟨rfl, hsource, nofun, rfl⟩
  | cons c rest ih =>
    obtain ⟨hopened, hreads⟩ := Candidate.ensureOpened_spec hsource (hcs c (List.mem_cons_self ..))
    have hrest : ∀ c ∈ rest, c.Faithful s := fun c' hc' => hcs c' (List.mem_cons_of_mem c hc')
    have hkept : Candidate.Faithful s ⟨c.module, .of (s.read c.module)⟩ := .inr rfl
    have hfurther : ∀ first, Faithful s (c.module :: rest.map (·.module))
        ⟨(Inquiry.lookup name (c.ensureOpened source).2 first rest).2.1, ⟨c.module, .of (s.read c.module)⟩ ::
          (Inquiry.lookup name (c.ensureOpened source).2 first rest).2.2⟩ := by
      intro first
      obtain ⟨-, hx⟩ := ih first hreads hrest
      refine ⟨hx.source, List.forall_mem_cons.mpr ⟨hkept, hx.candidates⟩, ?_⟩
      exact congrArg (List.cons c.module) hx.modules_eq
    rw [Inquiry.lookup, List.map_cons, ExportSource.search]
    dsimp only
    rw [hopened]
    cases hstate : ModuleState.of (s.read c.module) with
    | opened table =>
      rw [hstate] at hfurther
      exact ⟨(ih _ hreads hrest).1, hfurther _⟩
    | unreadable e =>
      rw [hstate] at hfurther hkept
      dsimp only
      cases first with
      | some m => exact ⟨(ih (some m) hreads hrest).1, hfurther _⟩
      | none => exact ⟨rfl, hreads, List.forall_mem_cons.mpr ⟨hkept, hrest⟩, rfl⟩
    | unopened =>
      rw [hstate] at hfurther
      exact ⟨(ih _ hreads hrest).1, hfurther _⟩
    | absent =>
      rw [hstate] at hfurther
      exact ⟨(ih _ hreads hrest).1, hfurther _⟩

theorem find_spec {modules : List String} {x : ExportSearch} (h : Faithful s modules x) (name : String) :
    (x.find name).1 = s.search name none modules ∧ Faithful s modules (x.find name).2 := by
  obtain ⟨hresult, hx⟩ := lookup_spec name x.candidates none h.source h.candidates
  rw [h.modules_eq] at hresult hx
  exact ⟨hresult, hx⟩

end ExportSearch

end HeaderBinding
