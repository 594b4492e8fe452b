import HeaderBinding.Proofs.Expr.Digits
import HeaderBinding.Proofs.Json.Text
import Mathlib.Data.List.Infix

namespace HeaderBinding.Lexer

theorem span_append {p : Char → Bool} {w rest : List Char} (hw : ∀ c ∈ w, p c = true)
    (hrest : ∀ c ∈ rest.head?, p c = false) : ∃ h, span p (w ++ rest) = ⟨w, rest, h⟩ := by
  have hnone : rest.takeWhile p = [] ∧ rest.dropWhile p = rest := by
    cases rest with
    | nil => exact ⟨rfl, rfl⟩
    | cons c rest =>
      have hc : ¬p c = true := by simp [hrest c rfl]
      exact ⟨List.takeWhile_cons_of_neg hc, List.dropWhile_cons_of_neg hc⟩
  refine ⟨by simp, ?_⟩
  simp only [span, List.takeWhile_append_of_pos hw, List.dropWhile_append_of_pos hw, hnone, List.append_nil]

def EndsToken (rest : List Char) : Prop :=
  ∀ c ∈ rest.head?, Text.isBlank c = true

theorem EndsToken.not_isIdentPart {rest : List Char} (hrest : EndsToken rest) :
    ∀ c ∈ rest.head?, isIdentPart c = false := by
  intro c hc
  rw [← Bool.not_eq_true]
  intro h
  have hblank := hrest c hc
  rw [isBlank_of_isIdentPart h] at hblank
  cases hblank

theorem isAlphanumeric_of_not_isIdentPart {c : Char} (h : isIdentPart c = false) : isAlphanumeric c = false :=
  (Bool.or_eq_false_iff.mp h).2

def endsDigits (c : Char) : Bool :=
  !isDigitIn 16 c && c != '.' && c != 'x' && c != 'X'

theorem endsDigits_of_le {c : Char} (h : 128 ≤ c.toNat) : endsDigits c = true := by
  have hne : ∀ {d : Char}, d.toNat < 128 → c ≠ d := by
    rintro d hd rfl
    omega
  have hle : ∀ {d : Char}, d.toNat < 128 → ¬c ≤ d := by
    intro d hd hcd
    have hnat : c.toNat ≤ d.toNat := hcd
    omega
  have hdigit : digitValue? c = none := by
    have h9 : ¬c ≤ '9' := hle (by decide)
    have hf : ¬c ≤ 'f' := hle (by decide)
    have hF : ¬c ≤ 'F' := hle (by decide)
    simp [digitValue?, isDigit, h9, hf, hF]
  simp [endsDigits, isDigitIn, hdigit, hne (d := '.') (by decide), hne (d := 'x') (by decide),
    hne (d := 'X') (by decide)]

theorem endsDigits_of_isBlank {c : Char} (h : Text.isBlank c = true) : endsDigits c = true := by
  rcases Nat.lt_or_ge c.toNat 128 with hc | hc
  · exact forall_ascii (P := fun c => Text.isBlank c = true → endsDigits c = true) (by decide +kernel) c hc h
  · exact endsDigits_of_le hc

theorem endsDigits_of_toLower {c : Char} (h : c.toLower ∈ ['l', 'i', 'u']) : endsDigits c = true :=
  forall_toLower (P := fun c d => d ∈ ['l', 'i', 'u'] → endsDigits c = true) (by decide +kernel)
    (fun _ hc _ => endsDigits_of_le hc) c h

theorem suffixes_cases : ∀ (floor : LiteralType), ∀ s ∈ floor.suffixes,
    suffix? s = some (floor.isUnsigned, floor) ∧ s.toList.all isAlphanumeric = true ∧
      s.toList.head?.all (· ∈ ['l', 'i', 'u']) = true := by
  intro floor
  cases floor <;> decide +kernel

variable {suffix rest : List Char} {floor : LiteralType}

theorem isAlphanumeric_of_suffix (h : String.ofList (suffix.map Char.toLower) ∈ floor.suffixes) :
    ∀ c ∈ suffix, isAlphanumeric c = true := by
  intro c hc
  obtain ⟨-, hall, -⟩ := suffixes_cases floor _ h
  rw [String.toList_ofList] at hall
  exact isAlphanumeric_toLower c ▸ List.all_eq_true.mp hall c.toLower (List.mem_map_of_mem hc)

theorem endsDigits_of_suffix (h : String.ofList (suffix.map Char.toLower) ∈ floor.suffixes) (hrest : EndsToken rest) :
    ∀ c ∈ (suffix ++ rest).head?, endsDigits c = true := by
  obtain ⟨-, -, hhead⟩ := suffixes_cases floor _ h
  rw [String.toList_ofList] at hhead
  cases suffix with
  | nil => exact fun c hc => endsDigits_of_isBlank (hrest c hc)
  | cons d suffix =>
    intro c hc
    cases hc
    exact endsDigits_of_toLower (by simpa using hhead)

theorem integer_suffix (hsuffix : String.ofList (suffix.map Char.toLower) ∈ floor.suffixes) (hrest : EndsToken rest)
    (value : UInt64) {base : Nat} {digits : List Char} (hdigits : number? base digits = some value.toNat)
    (lead : List Char) : ∃ h, integer lead digits base (suffix ++ rest) =
      .ok ⟨.integer ⟨value, floor, floor.isUnsigned⟩, rest, h⟩ := by
  obtain ⟨hle, hspan⟩ := span_append (isAlphanumeric_of_suffix hsuffix)
    fun c hc => isAlphanumeric_of_not_isIdentPart (hrest.not_isIdentPart c hc)
  have hlower : suffix.map lowercase = suffix.map Char.toLower := List.map_congr_left fun c _ => lowercase_eq c
  refine ⟨hle, ?_⟩
  rw [integer, hspan]
  dsimp only
  rw [hlower, (suffixes_cases floor _ hsuffix).1, hdigits]
  dsimp only
  rw [if_pos value.toNat_lt, UInt64.ofNat_toNat]
  rfl

section

variable {tail : List Char} (htail : ∀ c ∈ tail.head?, endsDigits c = true)

include htail

theorem fraction?_of_endsDigits : fraction? tail = none := by
  unfold fraction?
  split
  · exact absurd (htail '.' rfl) (by decide)
  · rfl

theorem exponent?_of_endsDigits : exponent? tail = none := by
  cases tail with
  | nil => rfl
  | cons c tail =>
    refine if_neg ?_
    rintro (rfl | rfl)
    · exact absurd (htail 'e' rfl) (by decide)
    · exact absurd (htail 'E' rfl) (by decide)

theorem isDigitIn_of_endsDigits : ∀ c ∈ tail.head?, isDigitIn 16 c = false := by
  intro c hc
  have hends := htail c hc
  simp only [endsDigits, Bool.and_eq_true, Bool.not_eq_true'] at hends
  exact hends.1.1.1

theorem isDigit_of_endsDigits : ∀ c ∈ tail.head?, isDigit c = false := by
  intro c hc
  have hdigit := isDigitIn_of_endsDigits htail c hc
  rw [← Bool.not_eq_true] at hdigit ⊢
  intro h
  refine hdigit ?_
  have hlt : c.toNat ≤ '9'.toNat := (by simpa [isDigit] using h : '0' ≤ c ∧ c ≤ '9').2
  have h9 : '9'.toNat = 57 := rfl
  rw [isDigitIn, digitValue?, if_pos h]
  simp only [decide_eq_true_eq]
  omega

end

theorem decimalNumber_of_span {cs digits tail : List Char} (hvalue : (span isDigit cs).value = digits)
    (hrest : (span isDigit cs).rest = tail) (htail : ∀ c ∈ tail.head?, endsDigits c = true) {t : Token}
    {rest : List Char}
    (hoctal : ∀ d ds, digits = '0' :: d :: ds → ∃ h, integer digits (d :: ds) 8 tail = .ok ⟨t, rest, h⟩)
    (hdecimal : (∀ d ds, digits ≠ '0' :: d :: ds) → ∃ h, integer digits digits 10 tail = .ok ⟨t, rest, h⟩) :
    ∃ h, decimalNumber cs = .ok ⟨t, rest, h⟩ := by
  subst hvalue hrest
  unfold decimalNumber
  dsimp only
  rw [fraction?_of_endsDigits htail]
  dsimp only
  rw [exponent?_of_endsDigits htail]
  dsimp only
  split
  · next d ds heq =>
    obtain ⟨h, hinteger⟩ := hoctal d ds heq
    rw [hinteger]
    exact ⟨Nat.le_trans h (Read.length_le _), rfl⟩
  · next hne =>
    obtain ⟨h, hinteger⟩ := hdecimal hne
    rw [hinteger]
    exact ⟨Nat.le_trans h (Read.length_le _), rfl⟩

theorem number_of_not_hexadecimal {cs : List Char}
    (h : ∀ x rest, cs = '0' :: x :: rest → endsDigits x = true ∨ isDigit x = true) :
    number cs = decimalNumber cs := by
  unfold number
  split
  · next x rest =>
    refine if_neg ?_
    rintro (rfl | rfl)
    · exact absurd (h _ _ rfl) (by decide)
    · exact absurd (h _ _ rfl) (by decide)
  · rfl

theorem number_of_hexadecimal {x : Char} (hx : x.toLower = 'x') {cs digits tail : List Char}
    (hvalue : (span (isDigitIn 16) cs).value = digits) (hrest : (span (isDigitIn 16) cs).rest = tail)
    {t : Token} {rest : List Char} (hinteger : ∃ h, integer ('0' :: x :: digits) digits 16 tail = .ok ⟨t, rest, h⟩) :
    ∃ h, number ('0' :: x :: cs) = .ok ⟨t, rest, h⟩ := by
  subst hvalue hrest
  have hcase : x = 'x' ∨ x = 'X' :=
    forall_toLower (P := fun c d => d = 'x' → c = 'x' ∨ c = 'X') (by decide +kernel) (fun _ _ h => .inl h) x hx
  obtain ⟨h, hinteger⟩ := hinteger
  rw [number, if_pos hcase]
  dsimp only
  rw [hinteger]
  have htail := (span (isDigitIn 16) cs).length_le
  exact ⟨Nat.le_trans h (Nat.le_trans htail (by simp only [List.length_cons]; omega)), rfl⟩

section

variable (value : UInt64) (hsuffix : String.ofList (suffix.map Char.toLower) ∈ floor.suffixes)
  (hrest : EndsToken rest)

include hsuffix hrest

theorem number_decimal {digits : List Char} (hne : digits ≠ []) (hdigits : ∀ c ∈ digits, isDigit c = true)
    (hoctal : ∀ d ds, digits = '0' :: d :: ds → number? 8 (d :: ds) = some value.toNat)
    (hdecimal : (∀ d ds, digits ≠ '0' :: d :: ds) → number? 10 digits = some value.toNat) :
    ∃ h, number (digits ++ (suffix ++ rest)) = .ok ⟨.integer ⟨value, floor, floor.isUnsigned⟩, rest, h⟩ := by
  have htail := endsDigits_of_suffix hsuffix hrest
  obtain ⟨_, hspan⟩ := span_append hdigits (isDigit_of_endsDigits htail)
  rw [number_of_not_hexadecimal]
  · exact decimalNumber_of_span (congrArg Read.value hspan) (congrArg Read.rest hspan) htail
      (fun d ds heq => integer_suffix hsuffix hrest value (hoctal d ds heq) digits)
      (fun hne => integer_suffix hsuffix hrest value (hdecimal hne) digits)
  · intro x more heq
    obtain ⟨c, digits, rfl⟩ := List.exists_cons_of_ne_nil hne
    have htext : digits ++ (suffix ++ rest) = x :: more := (List.cons.inj heq).2
    cases digits with
    | nil => exact .inl (htail x (by rw [← List.nil_append (suffix ++ rest), htext]; rfl))
    | cons d digits =>
      obtain ⟨rfl, -⟩ := List.cons.inj htext
      exact .inr (hdigits d (by simp))

theorem number_written {digits : List Char} (hdigits : WritesNat value.toNat digits) :
    ∃ h, number (digits ++ (suffix ++ rest)) = .ok ⟨.integer ⟨value, floor, floor.isUnsigned⟩, rest, h⟩ := by
  cases hdigits with
  | decimal =>
    refine number_decimal value hsuffix hrest Nat.toDigits_ne_nil (isDigit_of_mem_toDigits _) (fun d ds heq => ?_)
      fun _ => ?_
    · have hzero := Json.eq_zero_of_head_toDigits (congrArg List.head? heq)
      rw [hzero] at heq
      cases heq
    · rw [number?, if_neg (by simp [Nat.toDigits_ne_nil]), numberFrom?_toDigits (by decide) (by decide)]
  | @octal cs h =>
    have hvalue := number?_of_isNumeral (by decide) (by decide) h
    refine number_decimal value hsuffix hrest (List.cons_ne_nil _ _) ?_ (fun d ds heq => ?_) fun hne => ?_
    · refine List.forall_mem_cons.mpr ⟨rfl, fun c hc => ?_⟩
      exact isDigit_of_isDigitIn (by decide) ((isDigitIn_of_number? hvalue).2 c hc)
    · rw [← (List.cons.inj heq).2, hvalue]
    · obtain ⟨d, ds, rfl⟩ := List.exists_cons_of_ne_nil (isDigitIn_of_number? hvalue).1
      exact absurd rfl (hne d ds)
  | @hexadecimal x cs hx h =>
    have hvalue := number?_of_isNumeral (by decide) (by decide) h
    obtain ⟨_, hspan⟩ := span_append (isDigitIn_of_number? hvalue).2
      (isDigitIn_of_endsDigits (endsDigits_of_suffix hsuffix hrest))
    exact number_of_hexadecimal hx (congrArg Read.value hspan) (congrArg Read.rest hspan)
      (integer_suffix hsuffix hrest value hvalue ('0' :: x :: cs))

end

theorem escape_quoted {quote c : Char} (hquote : quote = '\'' ∨ quote = '"') (hc : c = '\\' ∨ c = quote)
    (cs : List Char) : ∃ h, escape (c :: cs) = .ok ⟨c, cs, h⟩ := by
  refine ⟨Nat.le_succ _, ?_⟩
  rcases hc with rfl | rfl
  · rfl
  · rcases hquote with rfl | rfl <;> rfl

theorem closeChar_quote {n : Nat} {r : Read Char n} {rest : List Char} (h : r.rest = '\'' :: rest) :
    ∃ hle, closeChar r = .ok ⟨r.value, rest, hle⟩ := by
  have hlt := r.length_le
  rw [h] at hlt
  refine ⟨Nat.le_of_succ_le hlt, ?_⟩
  unfold closeChar
  split
  · next more heq =>
    rw [h] at heq
    cases heq
    rfl
  · next hne => exact absurd h (hne rest)

theorem charLiteral_quoted (c : Char) (rest : List Char) :
    ∃ h, charLiteral (quoted '\'' c ++ '\'' :: rest) = .ok ⟨c, rest, h⟩ := by
  by_cases hc : c = '\\' ∨ c = '\''
  · have hread : charLiteral ('\\' :: c :: '\'' :: rest) =
        escape (c :: '\'' :: rest) >>= fun r => closeChar (r.within (Nat.le_succ _)) := rfl
    obtain ⟨hle, hescape⟩ := escape_quoted (.inl rfl) hc ('\'' :: rest)
    rw [quoted, if_pos hc]
    change ∃ h, charLiteral ('\\' :: c :: '\'' :: rest) = .ok ⟨c, rest, h⟩
    rw [hread, hescape]
    exact closeChar_quote (r := (⟨c, '\'' :: rest, hle⟩ : Read Char _).within (Nat.le_succ _)) rfl
  · rw [quoted, if_neg hc]
    rw [not_or] at hc
    change ∃ h, charLiteral (c :: '\'' :: rest) = .ok ⟨c, rest, h⟩
    rw [charLiteral.eq_4 c _ hc.2 hc.1]
    exact closeChar_quote rfl

theorem stringLiteral_cons (c : Char) (before cs : List Char) {s : String} {rest : List Char}
    (hrest : ∃ h, stringLiteral (c :: before) cs = .ok ⟨s, rest, h⟩) :
    ∃ h, stringLiteral before (quoted '"' c ++ cs) = .ok ⟨s, rest, h⟩ := by
  obtain ⟨h, hrest⟩ := hrest
  by_cases hc : c = '\\' ∨ c = '"'
  · obtain ⟨hle, hescape⟩ := escape_quoted (.inr rfl) hc cs
    rw [quoted, if_pos hc]
    change ∃ h, stringLiteral before ('\\' :: c :: cs) = .ok ⟨s, rest, h⟩
    rw [stringLiteral.eq_3, hescape]
    dsimp only
    rw [hrest]
    exact ⟨by simp only [List.length_cons]; omega, rfl⟩
  · rw [quoted, if_neg hc]
    rw [not_or] at hc
    change ∃ h, stringLiteral before (c :: cs) = .ok ⟨s, rest, h⟩
    rw [stringLiteral.eq_4 before c cs hc.2 hc.1, hrest]
    exact ⟨Nat.le_succ_of_le h, rfl⟩

theorem stringLiteral_quoted (s before rest : List Char) :
    ∃ h, stringLiteral before (s.flatMap (quoted '"') ++ '"' :: rest) =
      .ok ⟨String.ofList (before.reverse ++ s), rest, h⟩ := by
  induction s generalizing before with
  | nil =>
    rw [List.append_nil]
    change ∃ h, stringLiteral before ('"' :: rest) = .ok ⟨_, rest, h⟩
    rw [stringLiteral]
    exact ⟨Nat.le_succ _, rfl⟩
  | cons c s ih =>
    have hrest := ih (c :: before)
    rw [List.reverse_cons, List.append_assoc] at hrest
    rw [List.flatMap_cons, List.append_assoc]
    exact stringLiteral_cons c before _ hrest

theorem afterComment?_append {content : List Char} (hfree : ¬['*', '/'] <:+: content) (cs : List Char) :
    ∃ h, afterComment? (content ++ '*' :: '/' :: cs) = some ⟨cs, h⟩ := by
  induction content with
  | nil => exact ⟨by simp only [List.nil_append, List.length_cons]; omega, rfl⟩
  | cons c content ih =>
    obtain ⟨hle, hrest⟩ := ih fun h => hfree (List.infix_cons h)
    have hgoes : ∀ more, c = '*' → content ++ '*' :: '/' :: cs = '/' :: more → False := by
      rintro more rfl heq
      cases content with
      | nil => cases heq
      | cons d content =>
        cases heq
        exact hfree ⟨[], content, rfl⟩
    rw [List.cons_append, afterComment?.eq_3 c _ hgoes, hrest]
    exact ⟨Nat.le_succ_of_le hle, rfl⟩

end HeaderBinding.Lexer
