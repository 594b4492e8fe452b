import HeaderBinding.Proofs.Native.Related
import HeaderBinding.Proofs.Native.Same

namespace HeaderBinding

namespace Numeral

open Float.Model (UnpackedFloat)

def counted : UnpackedFloat → UnpackedFloat
  | .zero _ => .zero .positive
  | x => x

theorem then_compare_eq_iff (e e' : Int) (m m' : Nat) :
    (compare e e').then (compare m m') = .eq ↔ e = e' ∧ m = m' := by
  rw [Ordering.then_eq_eq, Std.compare_eq_iff_eq, Std.compare_eq_iff_eq]

theorem finite_eq_iff {s : UnpackedFloat.Sign} {m m' : Nat} {e e' : Int} (h : 0 < m) (h' : 0 < m') :
    UnpackedFloat.finite s m e h = .finite s m' e' h' ↔ e = e' ∧ m = m' := by
  constructor
  · rintro ⟨⟩
    exact ⟨rfl, rfl⟩
  · rintro ⟨rfl, rfl⟩
    rfl

theorem counted_eq_iff (x y : UnpackedFloat) :
    (x.beq y || (x.isNaN && y.isNaN)) = true ↔ counted x = counted y := by
  cases x with
  | notANumber =>
    cases y with
    | notANumber => exact iff_of_true rfl rfl
    | _ => exact iff_of_false Bool.false_ne_true (by rintro ⟨⟩)
  | infinity s =>
    cases y with
    | infinity s' =>
      cases s <;> cases s' <;> first
        | exact iff_of_true rfl rfl
        | exact iff_of_false Bool.false_ne_true (by rintro ⟨⟩)
    | _ => cases s <;> exact iff_of_false Bool.false_ne_true (by rintro ⟨⟩)
  | zero s =>
    cases y with
    | zero s' => exact iff_of_true rfl rfl
    | notANumber => exact iff_of_false Bool.false_ne_true (by rintro ⟨⟩)
    | infinity s' | finite s' => cases s' <;> exact iff_of_false Bool.false_ne_true (by rintro ⟨⟩)
  | finite s m e h =>
    cases y with
    | finite s' m' e' h' =>
      cases s <;> cases s'
      case positive.positive =>
        change (some ((compare e e').then (compare m m')) == some .eq || false) = true ↔ _
        rw [Bool.or_false, beq_iff_eq, Option.some_inj, then_compare_eq_iff]
        exact (finite_eq_iff h h').symm
      case negative.negative =>
        change (some ((compare e e').then (compare m m')).swap == some .eq || false) = true ↔ _
        rw [Bool.or_false, beq_iff_eq, Option.some_inj, Ordering.swap_eq_eq, then_compare_eq_iff]
        exact (finite_eq_iff h h').symm
      all_goals exact iff_of_false Bool.false_ne_true (by rintro ⟨⟩)
    | notANumber => exact iff_of_false Bool.false_ne_true (by rintro ⟨⟩)
    | infinity s' | zero s' => cases s <;> cases s' <;> exact iff_of_false Bool.false_ne_true (by rintro ⟨⟩)

theorem sameDouble_iff (x y : Float) :
    sameDouble x y = true ↔ counted x.toModel.unpack = counted y.toModel.unpack :=
  counted_eq_iff _ _

theorem sameSingle_iff (x y : Float32) :
    sameSingle x y = true ↔ counted x.toModel.unpack = counted y.toModel.unpack :=
  counted_eq_iff _ _

end Numeral

theorem Literal.same_symm {l k : Literal} (h : l.same k = true) : k.same l = true := by
  cases l <;> cases k <;>
    simp only [Literal.same, Bool.false_eq_true, beq_iff_eq, Numeral.sameSingle_iff, Numeral.sameDouble_iff] at h ⊢ <;>
    exact h.symm

theorem Literal.same_trans {l k m : Literal} (h : l.same k = true) (h' : k.same m = true) : l.same m = true := by
  cases l <;> cases k <;>
    simp only [Literal.same, Bool.false_eq_true, beq_iff_eq, Numeral.sameSingle_iff, Numeral.sameDouble_iff] at h <;>
    cases m <;>
    simp only [Literal.same, Bool.false_eq_true, beq_iff_eq, Numeral.sameSingle_iff, Numeral.sameDouble_iff] at h' ⊢ <;>
    exact h.trans h'

namespace TypedLiteral

variable {v w x : TypedLiteral}

theorem same_iff : v.same w = true ↔ v.literal.same w.literal = true ∧ v.type = w.type := by
  rw [same, Bool.and_eq_true, beq_iff_eq]

theorem same_symm (h : v.same w = true) : w.same v = true := by
  obtain ⟨hl, ht⟩ := same_iff.mp h
  exact same_iff.mpr ⟨Literal.same_symm hl, ht.symm⟩

theorem same_trans (h : v.same w = true) (h' : w.same x = true) : v.same x = true := by
  obtain ⟨hl, ht⟩ := same_iff.mp h
  obtain ⟨hl', ht'⟩ := same_iff.mp h'
  exact same_iff.mpr ⟨Literal.same_trans hl hl', ht.trans ht'⟩

end TypedLiteral

theorem sameOption_symm {α : Type} {same : α → α → Bool} (hsame : ∀ a b, same a b = true → same b a = true)
    {a b : Option α} (h : sameOption same a b = true) : sameOption same b a = true := by
  cases a <;> cases b <;> first
    | exact absurd h Bool.false_ne_true
    | rfl
    | exact hsame _ _ h

theorem sameOption_trans {α : Type} {same : α → α → Bool}
    (hsame : ∀ a b c, same a b = true → same b c = true → same a c = true) {a b c : Option α}
    (h : sameOption same a b = true) (h' : sameOption same b c = true) : sameOption same a c = true := by
  cases a <;> cases b <;> first
    | exact absurd h Bool.false_ne_true
    | cases c <;> first
      | exact absurd h' Bool.false_ne_true
      | rfl
      | exact hsame _ _ _ h h'

namespace Enumerator

variable {m n k : Enumerator}

theorem same_iff : m.same n = true ↔
    m.name = n.name ∧ m.expr = n.expr ∧ sameOption TypedLiteral.same m.value n.value = true := by
  rw [same, Bool.and_eq_true, Bool.and_eq_true, beq_iff_eq, beq_iff_eq, and_assoc]

theorem same_symm (h : m.same n = true) : n.same m = true := by
  obtain ⟨hname, hexpr, hvalue⟩ := same_iff.mp h
  exact same_iff.mpr ⟨hname.symm, hexpr.symm, sameOption_symm (fun _ _ => TypedLiteral.same_symm) hvalue⟩

theorem same_trans (h : m.same n = true) (h' : n.same k = true) : m.same k = true := by
  obtain ⟨hname, hexpr, hvalue⟩ := same_iff.mp h
  obtain ⟨hname', hexpr', hvalue'⟩ := same_iff.mp h'
  have htrans (v w x : TypedLiteral) (h : v.same w = true) (h' : w.same x = true) : v.same x = true :=
    TypedLiteral.same_trans h h'
  exact same_iff.mpr ⟨hname.trans hname', hexpr.trans hexpr', sameOption_trans htrans hvalue hvalue'⟩

end Enumerator

namespace Enumeration

variable {e e' e'' : Enumeration}

theorem same_iff : e.same e' = true ↔
    e.name = e'.name ∧ List.Forall₂ (fun m n => m.same n = true) e.members e'.members := by
  rw [same, Bool.and_eq_true, Bool.and_eq_true, beq_iff_eq, beq_iff_eq, and_assoc, List.forall₂_iff_zip,
    List.all_eq_true]
  exact and_congr_right fun _ => and_congr_right fun _ => Prod.forall

theorem same_symm (h : e.same e' = true) : e'.same e = true := by
  obtain ⟨hname, hmembers⟩ := same_iff.mp h
  exact same_iff.mpr ⟨hname.symm, hmembers.flip.imp fun _ _ => Enumerator.same_symm⟩

theorem same_trans (h : e.same e' = true) (h' : e'.same e'' = true) : e.same e'' = true := by
  obtain ⟨hname, hmembers⟩ := same_iff.mp h
  obtain ⟨hname', hmembers'⟩ := same_iff.mp h'
  exact same_iff.mpr ⟨hname.trans hname', forall₂_comp hmembers hmembers' fun _ _ _ _ => Enumerator.same_trans⟩

end Enumeration

namespace NativeType

variable {R R' : Reference → Reference → Prop} {E E' : Enumeration → Enumeration → Prop} {t u v : NativeType}

theorem Head.symm (h : Head R E t u) (hR : ∀ r s, R r s → R' s r) (hE : ∀ e e', E e e' → E' e' e) : Head R' E' u t := by
  cases t <;> cases u <;> first
    | exact absurd h id
    | exact hR _ _ h
    | exact hE _ _ h
    | trivial
    | exact Eq.symm h
    | exact ⟨h.1.symm, h.2.symm⟩
    | exact ⟨h.1.symm, h.2.1.symm, h.2.2.symm⟩
    | exact ⟨h.1.symm, h.2.1.symm, h.2.2.1.symm, h.2.2.2.symm⟩

theorem Related.symm (h : Related R E t u) (hR : ∀ r s, R r s → R' s r) (hE : ∀ e e', E e e' → E' e' e) :
    Related R' E' u t := by
  induction t using children_induction generalizing u with
  | h t ih =>
    refine .node (h.head.symm hR hE) ?_
    exact (forall₂_imp_mem h.children fun c hc d hcd => ih c hc hcd).flip

theorem same_symm (h : t.same u = true) : u.same t = true := by
  refine Related.same ((Related.of_same h).symm (fun r s hrs => ?_) fun _ _ => Enumeration.same_symm)
  simp only [Reference.same, Bool.and_eq_true, beq_iff_eq] at hrs ⊢
  exact ⟨hrs.1.symm, hrs.2.symm⟩

theorem same_trans (h : t.same u = true) (h' : u.same v = true) : t.same v = true := by
  refine Related.same ((Related.of_same h).trans (Related.of_same h') (fun r s q hrs hsq => ?_)
    fun _ _ _ => Enumeration.same_trans)
  simp only [Reference.same, Bool.and_eq_true, beq_iff_eq] at hrs hsq ⊢
  exact ⟨hrs.1.trans hsq.1, hrs.2.trans hsq.2⟩

end NativeType

end HeaderBinding
