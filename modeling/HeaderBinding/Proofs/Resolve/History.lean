import HeaderBinding.Proofs.Convert.Converted
import HeaderBinding.Proofs.Resolve.Inquiry
import HeaderBinding.Proofs.Resolve.Restaged
import HeaderBinding.Proofs.Store.Loading
import HeaderBinding.Proofs.Store.Lookup
import HeaderBinding.Resolve.History

namespace HeaderBinding

open Declaration (name)

theorem Table.Indexed.of_names {α : Type} [Declaration α] {t u : Table α} (h : t.Indexed) (hindex : u.index = t.index)
    (hnames : u.toList.map name = t.toList.map name) : u.Indexed := by
  intro n i
  rw [hindex, ← List.getElem?_map, hnames, List.getElem?_map]
  exact h n i

theorem Procedure.name_boundBy (p : Procedure) (answer : Option (Option ExportMatch)) :
    (p.boundBy answer).name = p.name := by
  unfold boundBy
  split
  · split <;> rfl
  · rfl

theorem Procedure.names_boundAll (ps : List Procedure) (found : List (Option ExportMatch)) :
    (boundAll ps found).map (·.name) = ps.map (·.name) := by
  refine List.ext_getElem? fun i => ?_
  simp [boundAll, Function.comp_def, name_boundBy]

namespace Store

variable {s : Store}

theorem sound_bind {σ : Type} [ExportProvider σ] (hs : s.Sound) (x : Inquiry σ) : (s.bind x).1.Sound := by
  rw [(bind_after s x).1]
  have hprocedures : (s.boundTo (answers (x.resultsOf s.procedures.toList))).procedures.Indexed :=
    hs.procedures.of_names rfl (Procedure.names_boundAll s.procedures.toList _)
  exact { hs with procedures := hprocedures }

theorem sound_resolve (hs : s.Sound) (options : ResolveOptions) : (s.resolve options).1.Sound :=
  (resolves_resolve s options).sound hs

theorem sound_resolveWithSource {σ : Type} [ExportProvider σ] (hs : s.Sound) (options : ResolveOptions) (source : σ)
    (modules : ModuleList) : (s.resolveWithSource options source modules).1.Sound := by
  have hbound := sound_bind (sound_resolve hs options) (.start source modules)
  unfold resolveWithSource
  dsimp only
  split
  · exact hbound
  · exact sound_resolve hs options

theorem sound_loadInPlace (hs : s.Sound) (text : String) : ((loadInPlace text).run.run s).2.Sound := by
  rcases run_loadInPlace_cases text s with ⟨e, hrun⟩ | ⟨p, hp⟩
  · rw [hrun]
    exact hs
  · rw [run_loadInPlace_of_isSnapshot hp]
    exact (loadsTo_loaded hs p).sound

theorem sound_seeded : seeded.Sound := by
  rw [seeded_eq]
  exact sound_commit (sound_stage sound_empty _)

theorem Reachable.sound (h : s.Reachable) : s.Sound := by
  induction h with
  | empty => exact sound_empty
  | seeded => exact sound_seeded
  | edit op _ ih => exact sound_perform ih op
  | load text _ ih => exact sound_loadInPlace ih text
  | resolve options _ ih => exact sound_resolve ih options
  | resolveAlong options x _ ih => exact sound_bind (sound_resolve ih options) x
  | resolveWithSource options source modules _ ih => exact sound_resolveWithSource ih options source modules

theorem reachable_looksUp (h : s.Reachable) : s.LooksUp :=
  h.sound.looksUp

def tidied : Store :=
  ((((loadInPlace "\x7b\"version\": 1\x7d").run.run
    (seeded.perform (.setFastLoad true)).1).2.resolve .standard).1.perform (.remove ⟨.synonym, "HDC"⟩)).1

theorem reachable_looksUp_tidied : tidied.Reachable ∧ tidied.LooksUp := by
  have hreachable : tidied.Reachable := .edit _ (.resolve _ (.load _ (.edit _ .seeded)))
  exact ⟨hreachable, reachable_looksUp hreachable⟩

end Store

end HeaderBinding
