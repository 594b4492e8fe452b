import HeaderBinding.Proofs.Store.Hoist

namespace HeaderBinding

def Reference.linkedAnew (T : String → Option Target) (r : Reference) : Reference :=
  { r with target := T r.name }

theorem Reference.linkedBy_unlink (T : String → Option Target) (r : Reference) :
    r.unlink.linkedBy T = r.linkedAnew T := by
  have hunlinked : ¬r.unlink.isLinked = true := by
    intro h
    cases h
  rw [linkedBy, if_neg hunlinked]
  unfold linkedAnew unlink
  cases T r.name <;> rfl

namespace Store

variable (s : Store)

def image (x : NativeType) : NativeType :=
  (x.hoist s).rewrite (·.linkedAnew s.targetOf?) id

theorem image_named (r : Reference) : s.image (.named r) = .named (r.linkedAnew s.targetOf?) := by
  rw [image, NativeType.hoist, NativeType.rewrite_named]

end Store

namespace NativeType

theorem rewrite_mapChildren {x : NativeType} (hx : x.reference? = none) (f : NativeType → NativeType)
    (g : Reference → Reference) :
    (x.mapChildren f).rewrite g id = x.mapChildren fun c => (f c).rewrite g id := by
  cases x with
  | named r => cases hx
  | record kind body => simp [mapChildren]
  | function signature => simp [mapChildren]
  | _ => rfl

end NativeType

namespace Store

variable {s : Store} {x y : NativeType}

theorem image_of_holds {k : Key} (hk : x.inlineKey? = some k) (h : s.holds x = true) :
    s.image x = .named ((Reference.unlinked k.name .empty).linkedAnew s.targetOf?) := by
  rw [image, NativeType.hoist_of_holds hk h, NativeType.rewrite_named]

theorem image_of_not_holds (hx : x.reference? = none) (h : s.holds x = false) :
    s.image x = x.mapChildren s.image := by
  rw [image, NativeType.hoist_of_not_holds h, NativeType.rewrite_mapChildren hx]
  rfl

theorem image_cases (s : Store) (x : NativeType) :
    s.holds x = true ∨ (∃ r, x = .named r) ∨ s.image x = x.mapChildren s.image := by
  cases hholds : s.holds x with
  | true => exact .inl rfl
  | false =>
    cases x with
    | named r => exact .inr (.inl ⟨r, rfl⟩)
    | _ => exact .inr (.inr (image_of_not_holds rfl hholds))

end Store

namespace Store

open NativeType (Related)

variable {s : Store} {x y : NativeType}

theorem related_image (h : Related (fun r r' => r.same r' = true) (fun e e' => e.same e' = true) x y) :
    Related (fun r r' => r.same r' = true) (fun e e' => e.same e' = true) (s.image x) (s.image y) := by
  induction x using NativeType.children_induction generalizing y with
  | h x ih =>
    have hkey : x.inlineKey? = y.inlineKey? := by
      refine h.head.inlineKey?_eq fun e e' he => ?_
      simp only [Enumeration.same, Bool.and_eq_true, beq_iff_eq] at he
      exact he.1.1
    have hholds : s.holds y = s.holds x := by rw [holds, holds, hkey]
    cases hx : s.holds x with
    | true =>
      obtain ⟨k, hk, -, -⟩ := exists_inlineKey_of_holds hx
      rw [image_of_holds hk hx, image_of_holds (hkey ▸ hk) (hholds.trans hx)]
      exact .named (by simp [Reference.same])
    | false =>
      rcases h.head.reference? with ⟨hnone, hnone'⟩ | ⟨r, r', rfl, rfl, hr⟩
      · rw [image_of_not_holds hnone hx, image_of_not_holds hnone' (hholds.trans hx)]
        exact h.mapChildren fun c hc c' hcc => ih c hc hcc
      · rw [image_named, image_named]
        exact .named hr

theorem same_mapChildren_image (s : Store) (h : x.same y = true) :
    (x.mapChildren s.image).same (y.mapChildren s.image) = true :=
  ((Related.of_same h).mapChildren fun _ _ _ hcc => related_image hcc).same

end Store

end HeaderBinding
