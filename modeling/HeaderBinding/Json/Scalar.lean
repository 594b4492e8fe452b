import HeaderBinding.Json.Basic

namespace HeaderBinding.Json

def hexValue? (c : Char) : Option Nat :=
  if '0' ≤ c ∧ c ≤ '9' then some (c.toNat - 48)
  else if 'a' ≤ c ∧ c ≤ 'f' then some (c.toNat - 87)
  else if 'A' ≤ c ∧ c ≤ 'F' then some (c.toNat - 55)
  else none

def codeUnit? (a b c d : Char) : Option Nat := do
  let a ← hexValue? a
  let b ← hexValue? b
  let c ← hexValue? c
  let d ← hexValue? d
  pure (((a * 16 + b) * 16 + c) * 16 + d)

def simpleEscape? (c : Char) : Option Char :=
  if c = '"' then some '"'
  else if c = '\\' then some '\\'
  else if c = '/' then some '/'
  else if c = 'b' then some '\x08'
  else if c = 'f' then some '\x0c'
  else if c = 'n' then some '\n'
  else if c = 'r' then some '\r'
  else if c = 't' then some '\t'
  else none

def surrogatePair? (lead trail : Nat) : Option Char :=
  if 0xD800 ≤ lead ∧ lead < 0xDC00 ∧ 0xDC00 ≤ trail ∧ trail < 0xE000 then
    some (Char.ofNat (0x10000 + (lead - 0xD800) * 0x400 + (trail - 0xDC00)))
  else none

def stringRest (before : List Char) : List Char → Option (String × List Char)
  | [] => none
  | '"' :: rest => some (String.ofList before.reverse, rest)
  | '\\' :: 'u' :: a :: b :: c :: d :: rest =>
    match codeUnit? a b c d with
    | none => none
    | some unit =>
      if unit < 0xD800 ∨ 0xDFFF < unit then stringRest (Char.ofNat unit :: before) rest
      else match rest with
        | '\\' :: 'u' :: e :: f :: g :: h :: rest =>
          match (codeUnit? e f g h).bind (surrogatePair? unit) with
          | some c => stringRest (c :: before) rest
          | none => none
        | _ => none
  | '\\' :: c :: rest =>
    match simpleEscape? c with
    | some c => stringRest (c :: before) rest
    | none => none
  | c :: rest => if c.toNat < 0x20 then none else stringRest (c :: before) rest

theorem length_of_stringRest {before text rest : List Char} {s : String}
    (h : stringRest before text = some (s, rest)) : rest.length < text.length := by
  fun_induction stringRest before text <;>
    simp_all only [List.length_cons, Option.some.injEq, Prod.mk.injEq, reduceCtorEq, true_implies] <;>
    omega

def afterString : List Char → Option (List Char)
  | [] => none
  | '"' :: rest => some rest
  | '\\' :: 'u' :: a :: b :: c :: d :: rest =>
    if (codeUnit? a b c d).isSome then afterString rest else none
  | '\\' :: c :: rest => if (simpleEscape? c).isSome then afterString rest else none
  | c :: rest => if c.toNat < 0x20 then none else afterString rest

theorem length_of_afterString {text rest : List Char} (h : afterString text = some rest) :
    rest.length < text.length := by
  fun_induction afterString text <;>
    simp_all only [List.length_cons, Option.some.injEq, reduceCtorEq, true_implies] <;>
    omega

def string? (text : List Char) : Option (Option String × List Char) :=
  match stringRest [] text with
  | some (s, rest) => some (some s, rest)
  | none => (afterString text).map (none, ·)

theorem length_of_string? {text rest : List Char} {s : Option String}
    (h : string? text = some (s, rest)) : rest.length < text.length := by
  unfold string? at h
  split at h
  · next hs =>
    cases h
    exact length_of_stringRest hs
  · obtain ⟨_, ha, he⟩ := Option.map_eq_some_iff.1 h
    cases he
    exact length_of_afterString ha

structure Scaled where
  significand : Nat
  exponent : Int

def digitValue (c : Char) : Nat :=
  c.toNat - 48

def Scaled.whole (full : Bool) (s : Scaled) : List Char → Bool × Scaled
  | [] => (full, s)
  | c :: rest =>
    let next := s.significand * 10 + digitValue c
    if full || UInt64.size ≤ next then Scaled.whole true { s with exponent := s.exponent + 1 } rest
    else Scaled.whole false { s with significand := next } rest

def Scaled.fraction (s : Scaled) : List Char → Scaled
  | [] => s
  | c :: rest =>
    let next := s.significand * 10 + digitValue c
    if UInt64.size ≤ next then s else Scaled.fraction ⟨next, s.exponent - 1⟩ rest

def powerOfTen (n : Nat) : Float :=
  Float.ofScientific 1 false n

def largestPower : Nat := 308

def scaleDown (x : Float) (n : Nat) : Float :=
  if n ≤ largestPower then x / powerOfTen n
  else if x == 0 then x
  else scaleDown (x / powerOfTen largestPower) (n - largestPower)
termination_by n
decreasing_by
  have : 0 < largestPower := by decide
  omega

def Scaled.double? (negative : Bool) (s : Scaled) : Option Float :=
  let x := s.significand.toUInt64.toFloat
  let scaled :=
    if s.exponent < 0 then some (scaleDown x s.exponent.natAbs)
    else if largestPower < s.exponent then if s.significand = 0 then some x else none
    else
      let y := x * powerOfTen s.exponent.natAbs
      if y.isInf then none else some y
  scaled.map fun y => if negative then -y else y

def natOfDigits (cs : List Char) : Nat :=
  cs.foldl (fun n c => n * 10 + digitValue c) 0

structure ExponentForm where
  down : Bool
  digits : List Char

structure NumberForm where
  negative : Bool
  whole : List Char
  fraction : List Char
  exponent : Option ExponentForm

namespace NumberForm

def double? (n : NumberForm) : Option Float :=
  let (_, s) := Scaled.whole false ⟨0, 0⟩ n.whole
  let s := s.fraction n.fraction
  match n.exponent with
  | none => s.double? n.negative
  | some ⟨down, digits⟩ =>
    let e := natOfDigits digits
    if 1 <<< 31 ≤ e then
      if s.significand ≠ 0 ∧ !down then none else some (if n.negative then -0.0 else 0.0)
    else
      Scaled.double? n.negative
        { s with exponent := if down then s.exponent - e else s.exponent + e }

def integer? (n : NumberForm) : Option Int :=
  let m := natOfDigits n.whole
  if !n.fraction.isEmpty || n.exponent.isSome then none
  else if n.negative then if 0 < m ∧ m ≤ 1 <<< 63 then some (-m) else none
  else if m < UInt64.size then some m
  else none

def value (n : NumberForm) : Json :=
  match n.integer? with
  | some i => .integer i
  | none =>
    match n.double? with
    | some x => .double x
    | none => .fault .refused

end NumberForm

def digits? (text : List Char) : Option (List Char × List Char) :=
  let digits := text.takeWhile Char.isDigit
  if digits.isEmpty then none else some (digits, text.dropWhile Char.isDigit)

theorem length_of_digits? {text digits rest : List Char} (h : digits? text = some (digits, rest)) :
    rest.length < text.length := by
  simp only [digits?] at h
  have whole := congrArg List.length (@List.takeWhile_append_dropWhile _ Char.isDigit text)
  rw [List.length_append] at whole
  split at h
  · cases h
  · next nonempty =>
    cases h
    have := List.length_pos_iff.2 (mt List.isEmpty_iff.2 nonempty)
    omega

def fraction? : List Char → Option (List Char × List Char)
  | '.' :: rest => digits? rest
  | rest => some ([], rest)

theorem length_of_fraction? {text digits rest : List Char}
    (h : fraction? text = some (digits, rest)) : rest.length ≤ text.length := by
  unfold fraction? at h
  split at h
  · have := length_of_digits? h
    grind
  · grind

def exponentSign : List Char → Bool × List Char
  | '+' :: rest => (false, rest)
  | '-' :: rest => (true, rest)
  | rest => (false, rest)

theorem length_exponentSign (text : List Char) : (exponentSign text).2.length ≤ text.length := by
  unfold exponentSign
  split <;> simp

def exponent? : List Char → Option (Option ExponentForm × List Char)
  | 'e' :: rest | 'E' :: rest =>
    (digits? (exponentSign rest).2).map fun (digits, after) =>
      (some ⟨(exponentSign rest).1, digits⟩, after)
  | rest => some (none, rest)

theorem length_of_exponent? {text rest : List Char} {e : Option ExponentForm}
    (h : exponent? text = some (e, rest)) : rest.length ≤ text.length := by
  unfold exponent? at h
  split at h
  all_goals try
    obtain ⟨⟨_, _⟩, hd, he⟩ := Option.map_eq_some_iff.1 h
    cases he
    have := length_of_digits? hd
    grind [length_exponentSign]
  grind

def number? (negative : Bool) (text : List Char) : Option (NumberForm × List Char) := do
  let (whole, rest) ← digits? text
  if whole.head? == some '0' && whole.length != 1 then none
  else
    let (fraction, rest) ← fraction? rest
    let (exponent, rest) ← exponent? rest
    pure (⟨negative, whole, fraction, exponent⟩, rest)

theorem length_of_number? {negative : Bool} {text rest : List Char} {n : NumberForm}
    (h : number? negative text = some (n, rest)) : rest.length < text.length := by
  simp only [number?, Option.bind_eq_bind, Option.bind_eq_some_iff, Prod.exists] at h
  obtain ⟨_, _, hw, h⟩ := h
  split at h
  · cases h
  · simp only [Option.bind_eq_some_iff, Prod.exists] at h
    obtain ⟨_, _, hf, _, _, he, h⟩ := h
    cases h
    have := length_of_digits? hw
    have := length_of_fraction? hf
    have := length_of_exponent? he
    omega

def scalar? : List Char → Option (Json × List Char)
  | 'n' :: 'u' :: 'l' :: 'l' :: rest => some (.null, rest)
  | 't' :: 'r' :: 'u' :: 'e' :: rest => some (.bool true, rest)
  | 'f' :: 'a' :: 'l' :: 's' :: 'e' :: rest => some (.bool false, rest)
  | '"' :: rest => (string? rest).map fun (s, rest) => (s.elim (.fault .refused) .string, rest)
  | '-' :: rest => (number? true rest).map fun (n, rest) => (n.value, rest)
  | cs => (number? false cs).map fun (n, rest) => (n.value, rest)

theorem length_of_scalar? {text rest : List Char} {j : Json} (h : scalar? text = some (j, rest)) :
    rest.length < text.length := by
  unfold scalar? at h
  split at h
  · cases h; simp only [List.length_cons]; omega
  · cases h; simp only [List.length_cons]; omega
  · cases h; simp only [List.length_cons]; omega
  · obtain ⟨⟨_, _⟩, hs, he⟩ := Option.map_eq_some_iff.1 h
    cases he
    exact Nat.lt_succ_of_lt (length_of_string? hs)
  · obtain ⟨⟨_, _⟩, hn, he⟩ := Option.map_eq_some_iff.1 h
    cases he
    exact Nat.lt_succ_of_lt (length_of_number? hn)
  · obtain ⟨⟨_, _⟩, hn, he⟩ := Option.map_eq_some_iff.1 h
    cases he
    exact length_of_number? hn

end HeaderBinding.Json
