import HeaderBinding.Proofs.Export.Inquiry
import Mathlib.Data.List.Perm.Subperm

namespace HeaderBinding

def Request.candidate (r : Request) : Candidate :=
  ⟨r.module, .of r.answer⟩

namespace Candidate

def wasOpened (c : Candidate) : Bool :=
  c.state ≠ .unopened

theorem wasOpened_of (module : String) (answer : Except ExportError ExportTable) :
    wasOpened ⟨module, .of answer⟩ = true := by
  rcases answer with e | table
  · cases e <;> rfl
  · rfl

theorem table?_candidate (r : Request) : r.candidate.table? = r.answer.toOption := by
  obtain ⟨module, e | table⟩ := r
  · cases e <;> rfl
  · rfl

theorem wasOpened_of_table? {c : Candidate} {table : ExportTable} (h : c.table? = some table) :
    c.wasOpened = true := by
  obtain ⟨module, state⟩ := c
  cases state with
  | unopened => cases h
  | _ => rfl

end Candidate

variable {σ : Type}

namespace Inquiry

theorem tables_eq_filter (x : Inquiry σ) :
    x.tables = (x.candidates.filter Candidate.wasOpened).filterMap Candidate.table? := by
  rw [List.filterMap_filter, tables]
  refine List.filterMap_congr fun c _ => ?_
  by_cases hc : c.wasOpened = true
  · rw [if_pos hc]
  · rw [if_neg hc]
    exact Option.eq_none_iff_forall_ne_some.mpr fun table ht => hc (Candidate.wasOpened_of_table? ht)

structure Accounted (x : Inquiry (Recorded σ)) : Prop where
  requests : (x.source.requests.map Request.candidate).Perm (x.candidates.filter Candidate.wasOpened)
  released : x.source.released = []

theorem accounted_start (source : σ) (modules : ModuleList) :
    (start (Recorded.start source) modules).Accounted := by
  refine ⟨.of_eq (Eq.symm (List.filter_eq_nil_iff.mpr fun c hc => ?_)), rfl⟩
  obtain ⟨module, -, rfl⟩ := List.mem_map.mp hc
  exact Bool.false_ne_true

namespace Accounted

variable {x : Inquiry (Recorded σ)} (h : x.Accounted)

include h

theorem given_perm : x.source.given.Perm x.tables := by
  have hgiven : x.source.given = (x.source.requests.map Request.candidate).filterMap Candidate.table? := by
    rw [List.filterMap_map, Recorded.given]
    exact List.filterMap_congr fun r _ => (Candidate.table?_candidate r).symm
  rw [hgiven, tables_eq_filter]
  exact h.requests.filterMap _

end Accounted

variable [ExportProvider σ]

theorem Opens.accounted {x y : Inquiry (Recorded σ)} (h : x.Opens y) (hx : x.Accounted) : y.Accounted := by
  obtain ⟨source, before, module, after⟩ := h
  refine ⟨?_, hx.released⟩
  have hrequests := hx.requests
  rw [List.filter_append, List.filter_cons_of_neg Bool.false_ne_true] at hrequests
  rw [List.filter_append, List.filter_cons_of_pos (Candidate.wasOpened_of _ _)]
  change ((source.requests ++ [_]).map Request.candidate).Perm _
  rw [List.map_append]
  exact (hrequests.append_right _).trans ((List.perm_append_singleton _ _).trans List.perm_middle.symm)

theorem Reaches.accounted {x y : Inquiry (Recorded σ)} (h : x.Reaches y) (hx : x.Accounted) : y.Accounted :=
  h.keeps Opens.accounted hx

theorem Opens.modules_eq {x y : Inquiry σ} (h : x.Opens y) :
    y.candidates.map (·.module) = x.candidates.map (·.module) := by
  cases h
  simp only [List.map_append, List.map_cons]

theorem Reaches.modules_eq {x y : Inquiry σ} (h : x.Reaches y) :
    y.candidates.map (·.module) = x.candidates.map (·.module) :=
  h.keeps (P := fun z => z.candidates.map (·.module) = _) (fun hstep hz => hstep.modules_eq.trans hz) rfl

theorem foldl_release_recorded (tables : List ExportTable) (source : Recorded σ) :
    tables.foldl ExportProvider.release source =
      ⟨tables.foldl ExportProvider.release source.source, source.requests, source.released ++ tables⟩ := by
  induction tables generalizing source with
  | nil => rw [List.append_nil]; rfl
  | cons table rest ih =>
    rw [List.foldl_cons, ih, List.append_cons]
    rfl

theorem close_recorded (x : Inquiry (Recorded σ)) :
    x.close = ⟨(x.map Recorded.source).close, x.source.requests, x.source.released ++ x.tables⟩ :=
  foldl_release_recorded x.tables x.source

theorem close_source (x : Inquiry (Recorded σ)) : x.close.source = (x.map Recorded.source).close := by
  rw [close_recorded]

theorem Accounted.released_close {x : Inquiry (Recorded σ)} (h : x.Accounted) :
    x.close.released.Perm x.close.given := by
  rw [close_recorded, h.released, List.nil_append]
  exact h.given_perm.symm

end Inquiry

theorem Recorded.given_acquire (r : Recorded σ) [ExportProvider σ] (module : String) :
    (ExportProvider.acquire r module).2.given =
      r.given ++ (ExportProvider.acquire r.source module).1.toOption.toList := by
  change (r.requests ++ [Request.mk module (ExportProvider.acquire r.source module).1]).filterMap _ = _
  rw [List.filterMap_append, given]
  cases (ExportProvider.acquire r.source module).1 <;> rfl

theorem ExportSource.counts_acquire (s : ExportSource) (module : String) :
    (s.acquire module).2.held = s.held + (s.acquire module).1.toOption.toList.length ∧
      (s.acquire module).2.acquired = s.acquired + (s.acquire module).1.toOption.toList.length := by
  unfold acquire
  cases s.read module <;> exact ⟨rfl, rfl⟩

namespace Inquiry

structure Balanced (source : ExportSource) (x : Inquiry (Recorded ExportSource)) : Prop where
  held : x.source.source.held = source.held + x.source.given.length
  acquired : x.source.source.acquired = source.acquired + x.source.given.length

theorem balanced_start (source : ExportSource) (modules : ModuleList) :
    (start (Recorded.start source) modules).Balanced source :=
  ⟨rfl, rfl⟩

theorem Opens.balanced {source : ExportSource} {x y : Inquiry (Recorded ExportSource)} (h : x.Opens y)
    (hx : x.Balanced source) : y.Balanced source := by
  obtain ⟨recorded, before, module, after⟩ := h
  obtain ⟨hheld, hacquired⟩ := hx
  obtain ⟨hheld', hacquired'⟩ := recorded.source.counts_acquire module
  constructor
  · rw [recorded.given_acquire, List.length_append, ← Nat.add_assoc, ← hheld]
    exact hheld'
  · rw [recorded.given_acquire, List.length_append, ← Nat.add_assoc, ← hacquired]
    exact hacquired'

theorem Reaches.balanced {source : ExportSource} {x y : Inquiry (Recorded ExportSource)} (h : x.Reaches y)
    (hx : x.Balanced source) : y.Balanced source :=
  h.keeps Opens.balanced hx

theorem Reaches.held_close {source : ExportSource} {modules : ModuleList} {x : Inquiry (Recorded ExportSource)}
    (h : (start (Recorded.start source) modules).Reaches x) :
    x.close.source.held = source.held ∧ x.close.source.acquired = source.acquired + x.close.released.length := by
  have haccounted := h.accounted (accounted_start source modules)
  have hbalanced := h.balanced (balanced_start source modules)
  have hlength : x.source.given.length = x.tables.length := haccounted.given_perm.length_eq
  have hsource : x.close.source = x.source.source.release x.tables.length := by
    rw [close_recorded]
    exact foldl_release x.tables x.source.source
  constructor
  · rw [hsource, ← hlength]
    change x.source.source.held - x.source.given.length = source.held
    rw [hbalanced.held, Nat.add_sub_cancel]
  · rw [hsource, haccounted.released_close.length_eq, close_recorded]
    exact hbalanced.acquired

theorem findAll_recorded {σ : Type} [ExportProvider σ] (source : σ) (modules : ModuleList) (names : List String) :
    let recorded := findAll names (start (Recorded.start source) modules)
    findAll names (start source modules) = (recorded.1, ⟨recorded.2.source.source, recorded.2.candidates⟩) :=
  findAll_map (f := Recorded.source) (fun _ _ => rfl) names (start (Recorded.start source) modules)

theorem close_findAll {σ : Type} [ExportProvider σ] (source : σ) (modules : ModuleList) (names : List String) :
    (findAll names (start source modules)).2.close =
      (findAll names (start (Recorded.start source) modules)).2.close.source := by
  rw [findAll_recorded, close_source]
  rfl

end Inquiry

end HeaderBinding
