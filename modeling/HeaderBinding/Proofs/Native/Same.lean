import HeaderBinding.Native.Same

namespace HeaderBinding

namespace Numeral

theorem beq_self_or_isNaN (x : Float.Model.UnpackedFloat) : (x.beq x || x.isNaN) = true := by
  cases x with
  | notANumber => rfl
  | infinity s => cases s <;> rfl
  | zero s => cases s <;> rfl
  | finite s m e h =>
    have hequal : (compare e e).then (compare m m) = .eq := by
      rw [Std.compare_self, Std.compare_self]
      rfl
    cases s with
    | positive =>
      change (some ((compare e e).then (compare m m)) == some .eq || false) = true
      rw [hequal]
      rfl
    | negative =>
      change (some ((compare e e).then (compare m m)).swap == some .eq || false) = true
      rw [hequal]
      rfl

theorem sameDouble_refl (x : Float) : sameDouble x x = true := by
  have h := beq_self_or_isNaN x.toModel.unpack
  rw [sameDouble, Bool.and_self]
  exact h

theorem sameSingle_refl (x : Float32) : sameSingle x x = true := by
  have h := beq_self_or_isNaN x.toModel.unpack
  rw [sameSingle, Bool.and_self]
  exact h

end Numeral

theorem Literal.same_refl (l : Literal) : l.same l = true := by
  cases l with
  | single x => exact Numeral.sameSingle_refl x
  | double x => exact Numeral.sameDouble_refl x
  | _ => simp [same]

theorem TypedLiteral.same_refl (v : TypedLiteral) : v.same v = true := by
  simp [same, v.literal.same_refl]

theorem Enumerator.same_refl (m : Enumerator) : m.same m = true := by
  have hvalue : sameOption TypedLiteral.same m.value m.value = true := by
    cases m.value with
    | none => rfl
    | some v => exact v.same_refl
  simp [same, hvalue]

theorem Enumeration.same_refl (e : Enumeration) : e.same e = true := by
  have hmembers : ∀ ms : List Enumerator, ((ms.zip ms).all fun p => p.1.same p.2) = true := by
    intro ms
    induction ms with
    | nil => rfl
    | cons m rest ih =>
      rw [List.zip_cons_cons, List.all_cons, ih]
      exact (Bool.and_true _).trans m.same_refl
  simp only [same, BEq.rfl, Bool.true_and]
  exact hmembers e.members

namespace NativeType

mutual
theorem same_refl : ∀ t : NativeType, t.same t = true
  | .builtin b => by simp [same]
  | .pointer pointee => by simp [same, pointee.same_refl]
  | .array element rank length => by simp [same, element.same_refl]
  | .synonym name target => by simp [same, target.same_refl]
  | .named r => by simp [same, Reference.same]
  | .record kind ⟨name, members⟩ => by simp [same, sameMembers_refl members]
  | .enumeration e => by simp [same, e.same_refl]
  | .function ⟨name, returns, params, convention⟩ => by
    simp [same, returns.same_refl, sameParams_refl params]
termination_by structural t => t

theorem sameMembers_refl : ∀ ms : List (Member NativeType), sameMembers ms ms = true
  | [] => rfl
  | ⟨name, type⟩ :: rest => by simp [sameMembers, type.same_refl, sameMembers_refl rest]
termination_by structural ms => ms

theorem sameParams_refl : ∀ ps : List (Parameter NativeType), sameParams ps ps = true
  | [] => rfl
  | ⟨name, type, direction⟩ :: rest => by
    simp [sameParams, type.same_refl, sameParams_refl rest]
termination_by structural ps => ps
end

end NativeType

end HeaderBinding
