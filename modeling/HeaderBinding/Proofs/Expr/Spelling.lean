import HeaderBinding.Proofs.Expr.Literals

namespace HeaderBinding

namespace Lexer

variable {source : String} {ts : List Token}

theorem tokensFrom_nil : tokensFrom source [] = .ok [] := by
  rw [tokensFrom.eq_def]

theorem tokensFrom_gap {c : Char} {cs rest : List Char} (hgap : ∃ h, lexeme source c cs = .ok ⟨.gap, rest, h⟩) :
    tokensFrom source (c :: cs) = tokensFrom source rest := by
  obtain ⟨h, hgap⟩ := hgap
  rw [tokensFrom.eq_def]
  dsimp only
  rw [hgap]

theorem tokensFrom_token {c : Char} {cs rest : List Char} {t : Token}
    (htoken : ∃ h, lexeme source c cs = .ok ⟨.token t, rest, h⟩) (hrest : tokensFrom source rest = .ok ts) :
    tokensFrom source (c :: cs) = .ok (t :: ts) := by
  obtain ⟨h, htoken⟩ := htoken
  rw [tokensFrom.eq_def]
  dsimp only
  rw [htoken]
  dsimp only
  rw [hrest]

theorem tokensFrom_blank {c : Char} (hc : Text.isBlank c = true) (cs : List Char) :
    tokensFrom source (c :: cs) = tokensFrom source cs :=
  tokensFrom_gap ⟨Nat.le_refl _, by rw [lexeme, if_pos hc]⟩

theorem tokensFrom_wideMark {mark : List Char} (hmark : mark ∈ wideMarks) {quote : Char}
    (hquote : quote = '\'' ∨ quote = '"') (cs : List Char) :
    tokensFrom source (mark ++ quote :: cs) = tokensFrom source (quote :: cs) := by
  rcases List.mem_cons.mp hmark with rfl | hmark
  · rfl
  · cases List.mem_singleton.mp hmark
    refine tokensFrom_gap ⟨Nat.le_refl _, ?_⟩
    rcases hquote with rfl | rfl <;> rfl

theorem lexeme_char (c : Char) (rest : List Char) :
    ∃ h, lexeme source '\'' (quoted '\'' c ++ '\'' :: rest) = .ok ⟨.token (.char c), rest, h⟩ := by
  obtain ⟨h, hread⟩ := charLiteral_quoted c rest
  have hlexeme (cs : List Char) : lexeme source '\'' cs = (charLiteral cs).map (·.map (.token <| .char ·)) := rfl
  rw [hlexeme, hread]
  exact ⟨h, rfl⟩

theorem lexeme_string (s : String) (rest : List Char) :
    ∃ h, lexeme source '"' (s.toList.flatMap (quoted '"') ++ '"' :: rest) =
      .ok ⟨.token (.string s), rest, h⟩ := by
  have hread := stringLiteral_quoted s.toList [] rest
  have hlexeme (cs : List Char) :
      lexeme source '"' cs = (stringLiteral [] cs).map (·.map (.token <| .string ·)) := rfl
  rw [List.reverse_nil, List.nil_append, String.ofList_toList] at hread
  obtain ⟨h, hread⟩ := hread
  rw [hlexeme, hread]
  exact ⟨h, rfl⟩

theorem isIdentStart_cases {c : Char} (h : isIdentStart c = true) :
    Text.isBlank c = false ∧ isDigit c = false ∧ c ≠ '.' ∧ c ≠ '\'' ∧ c ≠ '"' := by
  have hpart : isIdentPart c = true := by
    simp only [isIdentStart, Bool.or_eq_true] at h
    simp only [isIdentPart, isAlphanumeric, Bool.or_eq_true]
    exact h.imp_right .inr
  exact forall_ascii (P := fun c => isIdentStart c = true →
    Text.isBlank c = false ∧ isDigit c = false ∧ c ≠ '.' ∧ c ≠ '\'' ∧ c ≠ '"') (by decide +kernel) c
    (lt_of_isIdentPart hpart) h

theorem isQuote_of_isIdentPart {c : Char} (h : isIdentPart c = true ∨ Text.isBlank c = true) : isQuote c = false := by
  rw [← Bool.not_eq_true]
  intro hquote
  rcases (by simpa [isQuote] using hquote : c = '\'' ∨ c = '"') with rfl | rfl
  · revert h
    decide
  · revert h
    decide

theorem lexeme_word {c : Char} {cs : List Char} (hc : isIdentStart c = true) (hcs : ∀ d ∈ cs, isIdentPart d = true)
    {rest : List Char} (hrest : EndsToken rest) :
    ∃ h, lexeme source c (cs ++ rest) = .ok ⟨.token (word (c :: cs)), rest, h⟩ := by
  obtain ⟨hblank, hdigit, hpoint, hsingle, hdouble⟩ := isIdentStart_cases hc
  obtain ⟨h, hspan⟩ := span_append hcs hrest.not_isIdentPart
  have hquote : ¬(c = 'L' && (cs ++ rest).head?.any isQuote) = true := by
    have hnone : (cs ++ rest).head?.any isQuote = false := by
      cases cs with
      | nil =>
        cases rest with
        | nil => rfl
        | cons d rest => exact isQuote_of_isIdentPart (.inr (hrest d rfl))
      | cons d cs => exact isQuote_of_isIdentPart (.inl (hcs d (by simp)))
    rw [hnone, Bool.and_false]
    exact Bool.false_ne_true
  refine ⟨h, ?_⟩
  rw [lexeme, if_neg (by simp [hblank]), if_neg (by simp [hdigit, hpoint]), if_neg hsingle, if_neg hdouble,
    if_neg hquote, if_pos hc, hspan]
  rfl

theorem text_cases (p : Punct) :
    (∃ c, p.text.toList = [c] ∧ punct? c = some p) ∨ ∃ c d, p.text.toList = [c, d] ∧ pair? c d = some p := by
  cases p <;> first | exact .inl ⟨_, rfl, rfl⟩ | exact .inr ⟨_, _, rfl, rfl⟩

theorem pair?_of_isBlank (c : Char) {d : Char} (hd : Text.isBlank d = true) : pair? c d = none := by
  unfold pair?
  split <;> first | rfl | exact absurd hd (by decide)

def operatorChars : List Char :=
  ['+', '-', '*', '/', '%', '<', '>', '=', '!', '&', '|', '^', '~', '?', ':', '(', ')']

theorem operatorChars_cases : ∀ c ∈ operatorChars, Text.isBlank c = false ∧ isDigit c = false ∧ c ≠ '.' ∧ c ≠ '\'' ∧
    c ≠ '"' ∧ c ≠ 'L' ∧ isIdentStart c = false := by
  rw [← List.forall_iff_forall_mem]
  decide

theorem lexeme_eq {c : Char} (hc : c ∈ operatorChars) (cs : List Char) : lexeme source c cs =
    if c = '/' && cs.head? = some '*' then
      match afterComment? cs.tail with
      | some ⟨rest, h⟩ => .ok ⟨.gap, rest, Nat.le_trans h (List.tail_sublist cs).length_le⟩
      | none => .error (.malformedLiteral source)
    else if c = '/' && cs.head? = some '/' then .ok ⟨.stop, [], Nat.zero_le _⟩
    else (operator c cs).map (·.map (.token <| .punct ·)) := by
  obtain ⟨hblank, hdigit, hpoint, hsingle, hdouble, hwide, hident⟩ := operatorChars_cases c hc
  rw [lexeme]
  refine (if_neg (by simp [hblank])).trans ?_
  refine (if_neg (by simp [hdigit, hpoint])).trans ?_
  refine (if_neg hsingle).trans ?_
  refine (if_neg hdouble).trans ?_
  refine (if_neg (by simp [hwide])).trans ?_
  exact if_neg (by simp [hident])

theorem tokensFrom_blockComment {content : List Char} (hfree : ¬['*', '/'] <:+: content) (cs : List Char) :
    tokensFrom source ('/' :: '*' :: (content ++ '*' :: '/' :: cs)) = tokensFrom source cs := by
  obtain ⟨h, hafter⟩ := afterComment?_append hfree cs
  refine tokensFrom_gap ⟨Nat.le_succ_of_le h, ?_⟩
  rw [lexeme_eq (by decide), if_pos (by simp)]
  simp only [List.tail_cons, hafter]

theorem tokensFrom_lineComment (content : List Char) : tokensFrom source ('/' :: '/' :: content) = .ok [] := by
  have hstop : ∃ h, lexeme source '/' ('/' :: content) = .ok ⟨.stop, [], h⟩ :=
    ⟨Nat.zero_le _, by rw [lexeme_eq (by decide), if_neg (by simp), if_pos (by simp)]⟩
  obtain ⟨h, hstop⟩ := hstop
  rw [tokensFrom.eq_def]
  dsimp only
  rw [hstop]

theorem lexeme_operator {c : Char} (hc : c ∈ operatorChars) {cs : List Char} (hstar : cs.head? ≠ some '*')
    (hslash : cs.head? ≠ some '/') :
    lexeme source c cs = (operator c cs).map (·.map (.token <| .punct ·)) := by
  rw [lexeme_eq hc, if_neg (by simp [hstar]), if_neg (by simp [hslash])]

theorem mem_operatorChars_of_punct? {c : Char} {p : Punct} (h : punct? c = some p) : c ∈ operatorChars := by
  unfold punct? at h
  split at h <;> first | decide | cases h

theorem mem_operatorChars_of_pair? {c d : Char} {p : Punct} (h : pair? c d = some p) :
    c ∈ operatorChars ∧ d ≠ '*' ∧ d ≠ '/' := by
  unfold pair? at h
  split at h <;> first | decide | cases h

theorem lexeme_punct (p : Punct) {rest : List Char} (hrest : EndsToken rest) :
    ∃ c cs, p.text.toList = c :: cs ∧ ∃ h, lexeme source c (cs ++ rest) = .ok ⟨.token (.punct p), rest, h⟩ := by
  rcases text_cases p with ⟨c, htext, hp⟩ | ⟨c, d, htext, hp⟩
  · refine ⟨c, [], htext, Nat.le_refl _, ?_⟩
    have hne : ∀ {d : Char}, Text.isBlank d = false → rest.head? ≠ some d := by
      intro d hd hhead
      rw [hrest d hhead] at hd
      cases hd
    have hpair : rest.head?.bind (pair? c) = none := by
      cases rest with
      | nil => rfl
      | cons d rest => exact pair?_of_isBlank c (hrest d rfl)
    change lexeme source c rest = _
    rw [lexeme_operator (mem_operatorChars_of_punct? hp) (hne rfl) (hne rfl), operator, hpair]
    dsimp only
    rw [hp]
    rfl
  · obtain ⟨hc, hstar, hslash⟩ := mem_operatorChars_of_pair? hp
    refine ⟨c, [d], htext, Nat.le_succ _, ?_⟩
    have hpair : (d :: rest).head?.bind (pair? c) = some p := hp
    change lexeme source c (d :: rest) = _
    rw [lexeme_operator hc (by simpa using hstar) (by simpa using hslash), operator, hpair]
    rfl

theorem not_writesNat_nil {n : Nat} : ¬WritesNat n [] := by
  generalize hw : [] = w
  rintro (_ | _ | _)
  · exact Nat.toDigits_ne_nil hw.symm
  · cases hw
  · cases hw

theorem isDigit_of_writesNat {n : Nat} {c : Char} {cs : List Char} (h : WritesNat n (c :: cs)) : isDigit c = true := by
  generalize hw : c :: cs = w at h
  cases h with
  | decimal =>
    exact isDigit_of_mem_toDigits n c (hw ▸ List.mem_cons_self ..)
  | octal h =>
    cases hw
    rfl
  | hexadecimal hx h =>
    cases hw
    rfl

theorem lexeme_integer {value : UInt64} {floor : LiteralType} {c : Char} {cs suffix rest : List Char}
    (hdigits : WritesNat value.toNat (c :: cs))
    (hsuffix : String.ofList (suffix.map Char.toLower) ∈ floor.suffixes) (hrest : EndsToken rest) :
    ∃ h, lexeme source c (cs ++ (suffix ++ rest)) =
      .ok ⟨.token (.integer ⟨value, floor, floor.isUnsigned⟩), rest, h⟩ := by
  have hdigit := isDigit_of_writesNat hdigits
  have hnumber : ∃ h, number (c :: (cs ++ (suffix ++ rest))) = .ok ⟨_, rest, h⟩ :=
    number_written value hsuffix hrest hdigits
  obtain ⟨_, hnumber⟩ := hnumber
  have hle : rest.length ≤ (cs ++ (suffix ++ rest)).length :=
    ((List.suffix_append ..).trans (List.suffix_append ..)).length_le
  have hblank : Text.isBlank c = false := isBlank_of_isIdentPart (by simp [isIdentPart, isAlphanumeric, hdigit])
  refine ⟨hle, ?_⟩
  rw [lexeme, if_neg (by simp [hblank]), if_pos (by simp [hdigit])]
  rw [hnumber]
  exact dif_pos hle

theorem tokensFrom_word {name : String} (hname : IsIdentifier name.toList) {rest : List Char} (hrest : EndsToken rest)
    (hts : tokensFrom source rest = .ok ts) :
    tokensFrom source (name.toList ++ rest) = .ok (word name.toList :: ts) := by
  generalize name.toList = w at hname
  cases w with
  | nil => exact hname.elim
  | cons c cs =>
    have hcs : ∀ d ∈ cs, isIdentPart d = true := fun d hd => (isIdentPart_iff d).mpr (hname.2 d hd)
    exact tokensFrom_token (lexeme_word ((isIdentStart_iff c).mpr hname.1) hcs hrest) hts

theorem tokensFrom_written {t : Token} {w : List Char} (ht : t.WrittenAs w) {rest : List Char}
    (hrest : EndsToken rest) (hts : tokensFrom source rest = .ok ts) :
    tokensFrom source (w ++ rest) = .ok (t :: ts) := by
  cases ht with
  | @integer value floor digits suffix hdigits hsuffix =>
    rw [List.append_assoc]
    cases digits with
    | nil => exact absurd hdigits not_writesNat_nil
    | cons c cs => exact tokensFrom_token (lexeme_integer hdigits hsuffix hrest) hts
  | char c hmark =>
    rw [List.append_assoc, List.cons_append, List.append_assoc, tokensFrom_wideMark hmark (.inl rfl)]
    exact tokensFrom_token (lexeme_char c rest) hts
  | string s hmark =>
    rw [List.append_assoc, List.cons_append, List.append_assoc, tokensFrom_wideMark hmark (.inr rfl)]
    exact tokensFrom_token (lexeme_string s rest) hts
  | bool b =>
    have hword : word (if b then "true" else "false").toList = .bool b := by
      cases b <;> rfl
    rw [← hword]
    refine tokensFrom_word ?_ hrest hts
    cases b <;> decide
  | @ident name hname htrue hfalse =>
    have hword : word name.toList = .ident name := by
      rw [word, if_neg fun h => htrue (String.toList_inj.mp h), if_neg fun h => hfalse (String.toList_inj.mp h),
        String.ofList_toList]
    rw [← hword]
    exact tokensFrom_word hname hrest hts
  | punct p =>
    obtain ⟨c, cs, htext, hlexeme⟩ := @lexeme_punct source p _ hrest
    rw [htext]
    exact tokensFrom_token hlexeme hts

end Lexer

open Lexer

theorem tokensFrom_spelled {source : String} {ts : List Token} {cs : List Char} (h : SpelledAs ts cs) :
    tokensFrom source cs = .ok ts := by
  induction h with
  | done => exact tokensFrom_nil
  | lineComment content => exact tokensFrom_lineComment content
  | blank hc _ ih => rw [tokensFrom_blank hc, ih]
  | blockComment hfree _ ih => rw [tokensFrom_blockComment hfree, ih]
  | @last t w ht =>
    rw [← List.append_nil w]
    exact tokensFrom_written ht nofun tokensFrom_nil
  | token ht hc _ ih =>
    refine tokensFrom_written ht ?_ (by rw [tokensFrom_blank hc, ih])
    intro d hd
    cases hd
    exact hc

theorem exists_suffix : ∀ floor ∈ LiteralType.widening, ∃ suffix : List Char,
    String.ofList (suffix.map Char.toLower) ∈ floor.suffixes := by
  intro floor hfloor
  have hsome : ∃ s ∈ floor.suffixes, String.ofList (s.toList.map Char.toLower) = s := by
    revert floor
    decide
  obtain ⟨s, hs, hlower⟩ := hsome
  exact ⟨s.toList, hlower.symm ▸ hs⟩

theorem Token.IsWritable.exists_writtenAs {t : Token} (ht : t.IsWritable) : ∃ w, t.WrittenAs w := by
  cases t with
  | integer literal =>
    obtain ⟨value, floor, unsigned⟩ := literal
    obtain ⟨hfloor, hunsigned⟩ := ht
    obtain ⟨suffix, hsuffix⟩ := exists_suffix floor hfloor
    dsimp only at hunsigned
    rw [hunsigned]
    exact ⟨_, .integer value .decimal hsuffix⟩
  | floating value single => exact ht.elim
  | char c => exact ⟨_, .char c (List.mem_cons_self ..)⟩
  | string s => exact ⟨_, .string s (List.mem_cons_self ..)⟩
  | bool b => exact ⟨_, .bool b⟩
  | ident name => exact ⟨_, .ident ht.1 ht.2.1 ht.2.2⟩
  | punct p => exact ⟨_, .punct p⟩

theorem exists_spelledAs {ts : List Token} (hts : ∀ t ∈ ts, t.IsWritable) : ∃ cs, SpelledAs ts cs := by
  induction ts with
  | nil => exact ⟨[], .done⟩
  | cons t ts ih =>
    obtain ⟨ht, hts⟩ := List.forall_mem_cons.mp hts
    obtain ⟨w, hw⟩ := ht.exists_writtenAs
    obtain ⟨cs, hcs⟩ := ih hts
    exact ⟨w ++ ' ' :: cs, .token hw rfl hcs⟩

theorem tokenize_spelling {ts : List Token} (hts : ∀ t ∈ ts, t.IsWritable) :
    (∃ text : String, SpelledAs ts text.toList) ∧
      ∀ text : String, SpelledAs ts text.toList → tokenize text = .ok ts := by
  obtain ⟨cs, hcs⟩ := exists_spelledAs hts
  refine ⟨⟨String.ofList cs, ?_⟩, fun text htext => tokensFrom_spelled htext⟩
  rw [String.toList_ofList]
  exact hcs

theorem tokenize_spelling_comments :
    tokenize "0XaFUlL /* / **/ / L'\\'' L \"a\\\"\" 017\t//<<" =
      .ok [.integer ⟨0xaf, .uint64, true⟩, .punct .slash, .char '\'', .ident "L", .string "a\"",
        .integer ⟨15, .int32, false⟩] := by
  have hmask : WritesNat 0xaf ['0', 'X', 'a', 'F'] := .hexadecimal rfl ⟨0, rfl⟩
  have hsuffix : String.ofList (['U', 'l', 'L'].map Char.toLower) ∈ LiteralType.uint64.suffixes := by decide
  have hoctal : WritesNat 15 ['0', '1', '7'] := .octal ⟨0, rfl⟩
  have hplain : String.ofList ([].map Char.toLower) ∈ LiteralType.int32.suffixes := by decide
  have hquote : (Token.char '\'').WrittenAs ['L', '\'', '\\', '\'', '\''] := .char _ (by decide : ['L'] ∈ wideMarks)
  have hstring : (Token.string "a\"").WrittenAs ['"', 'a', '\\', '"', '"'] := .string _ (by decide : [] ∈ wideMarks)
  have hname : (Token.ident "L").WrittenAs ['L'] := .ident (by decide) (by decide) (by decide)
  have hend : SpelledAs [.integer ⟨15, .int32, false⟩] "017\t//<<".toList :=
    .token (.integer 15 hoctal hplain) (rfl : Text.isBlank '\t' = true) (.lineComment _)
  have hwords : SpelledAs [.char '\'', .ident "L", .string "a\"", .integer ⟨15, .int32, false⟩]
      "L'\\'' L \"a\\\"\" 017\t//<<".toList :=
    .token hquote rfl (.token hname rfl (.token hstring rfl hend))
  have hfree : ¬['*', '/'] <:+: [' ', '/', ' ', '*'] := by decide
  refine (tokenize_spelling (by decide)).2 _ ?_
  exact .token (.integer 0xaf hmask hsuffix) rfl
    (.blockComment hfree (.blank rfl (.token (.punct .slash) rfl hwords)))

end HeaderBinding
