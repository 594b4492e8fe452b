import HeaderBinding.Expr.Spelling
import Mathlib.Data.Char

namespace HeaderBinding.Lexer

theorem forall_ascii {P : Char → Prop} (h : ∀ n < 128, P (Char.ofNat n)) (c : Char) (hc : c.toNat < 128) : P c :=
  Char.ofNat_toNat c ▸ h c.toNat hc

theorem toLower_of_le {c : Char} (h : 128 ≤ c.toNat) : c.toLower = c := by
  have hZ : 'Z'.toNat = 90 := rfl
  refine dif_neg fun hupper => ?_
  have hle : c.toNat ≤ 'Z'.toNat := hupper.2
  omega

theorem forall_toLower {P : Char → Char → Prop} (h : ∀ n < 128, P (Char.ofNat n) (Char.ofNat n).toLower)
    (hself : ∀ c : Char, 128 ≤ c.toNat → P c c) (c : Char) : P c c.toLower := by
  rcases Nat.lt_or_ge c.toNat 128 with hc | hc
  · exact forall_ascii (P := fun c => P c c.toLower) h c hc
  · rw [toLower_of_le hc]
    exact hself c hc

theorem lt_of_isIdentPart {c : Char} (h : isIdentPart c = true) : c.toNat < 128 := by
  have hle : ∀ {d : Char}, c ≤ d → d.toNat < 128 → c.toNat < 128 := fun hcd hd => Nat.lt_of_le_of_lt hcd hd
  simp only [isIdentPart, isAlphanumeric, isDigit, isLetter, Bool.or_eq_true, Bool.and_eq_true, decide_eq_true_eq] at h
  rcases h with rfl | h | h | h
  · decide
  · exact hle h.2 (by decide)
  · exact hle h.2 (by decide)
  · exact hle h.2 (by decide)

theorem lowercase_eq (c : Char) : lowercase c = c.toLower := by
  refine forall_toLower (P := fun c d => lowercase c = d) (by decide +kernel) (fun c hc => ?_) c
  refine if_neg fun h => ?_
  have hle : c.toNat ≤ 'Z'.toNat := h.2
  have hZ : 'Z'.toNat = 90 := rfl
  omega

theorem digitValue?_toLower (c : Char) : digitValue? c.toLower = digitValue? c :=
  forall_toLower (P := fun c d => digitValue? d = digitValue? c) (by decide +kernel) (fun _ _ => rfl) c

theorem isAlphanumeric_toLower (c : Char) : isAlphanumeric c.toLower = isAlphanumeric c :=
  forall_toLower (P := fun c d => isAlphanumeric d = isAlphanumeric c) (by decide +kernel) (fun _ _ => rfl) c

theorem isBlank_of_isIdentPart {c : Char} (h : isIdentPart c = true) : Text.isBlank c = false :=
  forall_ascii (P := fun c => isIdentPart c = true → Text.isBlank c = false) (by decide +kernel) c
    (lt_of_isIdentPart h) h

theorem isLetter_eq (c : Char) : isLetter c = c.isAlpha := by
  have hupper : ('A' ≤ c && c ≤ 'Z') = c.isUpper := (Bool.decide_and ('A' ≤ c) (c ≤ 'Z')).symm
  rw [isLetter, hupper]
  exact Bool.or_comm ('a' ≤ c && c ≤ 'z') c.isUpper

theorem isAlphanumeric_eq (c : Char) : isAlphanumeric c = c.isAlphanum := by
  rw [isAlphanumeric, isLetter_eq]
  exact Bool.or_comm _ _

theorem isIdentStart_iff (c : Char) : isIdentStart c = true ↔ c = '_' ∨ c.isAlpha = true := by
  rw [isIdentStart, isLetter_eq, Bool.or_eq_true, decide_eq_true_iff]

theorem isIdentPart_iff (c : Char) : isIdentPart c = true ↔ c = '_' ∨ c.isAlphanum = true := by
  rw [isIdentPart, isAlphanumeric_eq, Bool.or_eq_true, decide_eq_true_iff]

theorem numberFrom?_append (base n : Nat) (cs ds : List Char) :
    numberFrom? base n (cs ++ ds) = (numberFrom? base n cs).bind (numberFrom? base · ds) := by
  induction cs generalizing n with
  | nil => rfl
  | cons c cs ih =>
    rw [List.cons_append, numberFrom?, numberFrom?]
    cases digitValue? c with
    | none => rfl
    | some d =>
      dsimp only
      split
      · exact ih _
      · rfl

theorem numberFrom?_map_toLower (base n : Nat) (cs : List Char) :
    numberFrom? base n (cs.map Char.toLower) = numberFrom? base n cs := by
  induction cs generalizing n with
  | nil => rfl
  | cons c cs ih =>
    rw [List.map_cons, numberFrom?, numberFrom?, digitValue?_toLower]
    simp only [ih]

theorem digitValue?_digitChar : ∀ d < 16, digitValue? (Nat.digitChar d) = some d := by
  decide

variable {base n : Nat} {cs : List Char}

theorem numberFrom?_digitChar (hbase : base ≤ 16) {d : Nat} (hd : d < base) (n : Nat) :
    numberFrom? base n [Nat.digitChar d] = some (n * base + d) := by
  rw [numberFrom?, digitValue?_digitChar d (Nat.lt_of_lt_of_le hd hbase)]
  exact if_pos hd

theorem numberFrom?_toDigits (hone : 1 < base) (hbase : base ≤ 16) (n : Nat) :
    numberFrom? base 0 (Nat.toDigits base n) = some n := by
  induction n using Nat.strong_induction_on with
  | _ n ih =>
    rcases Nat.lt_or_ge n base with hn | hn
    · rw [Nat.toDigits_of_lt_base hn, numberFrom?_digitChar hbase hn, Nat.zero_mul, Nat.zero_add]
    · have hpos : 0 < base := Nat.lt_of_succ_lt hone
      have hless : n / base < n := Nat.div_lt_self (Nat.lt_of_lt_of_le hpos hn) hone
      rw [Nat.toDigits_of_base_le hone hn, numberFrom?_append, ih (n / base) hless, Option.bind_some,
        numberFrom?_digitChar hbase (Nat.mod_lt n hpos), Nat.mul_comm, Nat.div_add_mod]

theorem numberFrom?_zeros (hbase : 0 < base) (zeros : Nat) (cs : List Char) :
    numberFrom? base 0 (List.replicate zeros '0' ++ cs) = numberFrom? base 0 cs := by
  induction zeros with
  | zero => rfl
  | succ zeros ih =>
    have hzero : digitValue? '0' = some 0 := rfl
    rw [List.replicate_succ, List.cons_append, numberFrom?, hzero]
    dsimp only
    rw [if_pos hbase, Nat.zero_mul, ih]

theorem number?_of_isNumeral (hone : 1 < base) (hbase : base ≤ 16) (h : IsNumeral base n cs) :
    number? base cs = some n := by
  obtain ⟨zeros, hcs⟩ := h
  have hne : ¬cs.isEmpty = true := by
    intro hempty
    rw [List.isEmpty_iff.mp hempty] at hcs
    exact Nat.toDigits_ne_nil (List.append_eq_nil_iff.mp hcs.symm).2
  rw [number?, if_neg hne, ← numberFrom?_map_toLower, hcs, numberFrom?_zeros (Nat.lt_of_succ_lt hone),
    numberFrom?_toDigits hone hbase]

theorem isDigitIn_of_numberFrom? {m : Nat} (h : numberFrom? base m cs = some n) :
    ∀ c ∈ cs, isDigitIn base c = true := by
  induction cs generalizing m with
  | nil => exact nofun
  | cons c cs ih =>
    rw [numberFrom?] at h
    split at h
    · next d hd =>
      split at h
      · next hlt =>
        refine List.forall_mem_cons.mpr ⟨?_, ih h⟩
        rw [isDigitIn, hd]
        exact decide_eq_true hlt
      · cases h
    · cases h

theorem isDigitIn_of_number? (h : number? base cs = some n) : cs ≠ [] ∧ ∀ c ∈ cs, isDigitIn base c = true := by
  rw [number?] at h
  split at h
  · cases h
  · next hne => exact ⟨fun hnil => hne (List.isEmpty_iff.mpr hnil), isDigitIn_of_numberFrom? h⟩

theorem isDigit_of_isDigitIn (hbase : base ≤ 10) {c : Char} (h : isDigitIn base c = true) : isDigit c = true := by
  have ha : 'a'.toNat = 97 := rfl
  have hA : 'A'.toNat = 65 := rfl
  unfold isDigitIn at h
  split at h
  · next d hd =>
    have hlt : d < base := of_decide_eq_true h
    unfold digitValue? at hd
    split at hd
    · next hdigit => exact hdigit
    · split at hd
      · next hletter =>
        have hle : 'a'.toNat ≤ c.toNat := hletter.1
        cases hd
        omega
      · split at hd
        · next hletter =>
          have hle : 'A'.toNat ≤ c.toNat := hletter.1
          cases hd
          omega
        · cases hd
  · cases h

theorem isDigit_of_mem_toDigits (n : Nat) : ∀ c ∈ Nat.toDigits 10 n, isDigit c = true := fun c hc =>
  isDigit_of_isDigitIn (Nat.le_refl 10)
    (isDigitIn_of_numberFrom? (numberFrom?_toDigits (by decide) (by decide) n) c hc)

end HeaderBinding.Lexer
