import HeaderBinding.Proofs.Json.Decode
import Mathlib.Data.List.TakeWhile

namespace HeaderBinding.Json

theorem hexPadded_control : ∀ n < 0x20,
    (Numeral.hexPadded 4 n).toList = ['0', '0', Nat.digitChar (n / 16), Nat.digitChar (n % 16)] := by
  decide

theorem codeUnit?_control : ∀ n < 0x20,
    codeUnit? '0' '0' (Nat.digitChar (n / 16)) (Nat.digitChar (n % 16)) = some n := by
  decide

theorem stringRest_simple {c e : Char} (he : e ≠ 'u') (hc : simpleEscape? e = some c) (before text : List Char) :
    stringRest before ('\\' :: e :: text) = stringRest (c :: before) text := by
  rw [stringRest.eq_4, hc]
  intro a b c d rest h
  exact absurd h he

theorem stringRest_plain {c : Char} (hquote : c ≠ '"') (hslash : c ≠ '\\') (hc : ¬c.toNat < 0x20)
    (before text : List Char) : stringRest before (c :: text) = stringRest (c :: before) text := by
  rw [stringRest.eq_5, if_neg hc]
  · exact hquote
  · intro a b c d rest h
    exact absurd h hslash
  · intro d rest h
    exact absurd h hslash

theorem stringRest_escape (before : List Char) (c : Char) (text : List Char) :
    stringRest before ((escape c).toList ++ text) = stringRest (c :: before) text := by
  unfold escape
  split
  · next h => exact h ▸ stringRest_simple (by decide) rfl before text
  split
  · next h => exact h ▸ stringRest_simple (by decide) rfl before text
  split
  · next h => exact h ▸ stringRest_simple (by decide) rfl before text
  split
  · next h => exact h ▸ stringRest_simple (by decide) rfl before text
  split
  · next h => exact h ▸ stringRest_simple (by decide) rfl before text
  split
  · next h => exact h ▸ stringRest_simple (by decide) rfl before text
  split
  · next h => exact h ▸ stringRest_simple (by decide) rfl before text
  next hquote hslash _ _ _ _ _ =>
  split
  · next hc =>
    have hunit : c.toNat < 0xD800 ∨ 0xDFFF < c.toNat := by omega
    rw [String.toList_append, hexPadded_control c.toNat hc]
    change stringRest before ('\\' :: 'u' :: '0' :: '0' :: _ :: _ :: text) = _
    rw [stringRest.eq_3, codeUnit?_control c.toNat hc]
    dsimp only
    rw [if_pos hunit, Char.ofNat_toNat]
  · next hc =>
    rw [Char.toString, String.toList_singleton]
    exact stringRest_plain hquote hslash hc before text

theorem toList_quote (s : String) : (quote s).toList = '"' :: (s.toList.flatMap (escape · |>.toList) ++ ['"']) := by
  simp [quote, String.toList_join, List.flatMap_map]

theorem stringRest_quoted (before cs rest : List Char) :
    stringRest before (cs.flatMap (escape · |>.toList) ++ '"' :: rest) =
      some (String.ofList (before.reverse ++ cs), rest) := by
  induction cs generalizing before with
  | nil => rw [List.flatMap_nil, List.nil_append, stringRest, List.append_nil]
  | cons c cs ih =>
    rw [List.flatMap_cons, List.append_assoc, stringRest_escape, ih, List.reverse_cons, List.append_assoc]
    rfl

theorem string?_quoted (s : String) (rest : List Char) :
    string? (s.toList.flatMap (escape · |>.toList) ++ '"' :: rest) = some (some s, rest) := by
  rw [string?, stringRest_quoted]
  simp

def EndsNumber (rest : List Char) : Prop :=
  ∀ c ∈ rest.head?, c.isDigit = false ∧ c ≠ '.' ∧ c ≠ 'e' ∧ c ≠ 'E'

section

variable {text rest : List Char}

theorem EndsNumber.digits?_append (hrest : EndsNumber rest) {ds after : List Char}
    (h : digits? text = some (ds, after)) : digits? (text ++ rest) = some (ds, after ++ rest) := by
  have hnone : rest.takeWhile Char.isDigit = [] ∧ rest.dropWhile Char.isDigit = rest := by
    cases rest with
    | nil => exact ⟨rfl, rfl⟩
    | cons c rest =>
      obtain ⟨hdigit, -⟩ := hrest c rfl
      simp [hdigit]
  have htake : (text ++ rest).takeWhile Char.isDigit = text.takeWhile Char.isDigit := by
    clear h
    induction text with
    | nil => exact hnone.1
    | cons c text ih => rw [List.cons_append, List.takeWhile_cons, List.takeWhile_cons, ih]
  have hdrop : (text ++ rest).dropWhile Char.isDigit = text.dropWhile Char.isDigit ++ rest := by
    clear h htake
    induction text with
    | nil => exact hnone.2
    | cons c text ih =>
      rw [List.cons_append, List.dropWhile_cons, List.dropWhile_cons, ih]
      split <;> rfl
  simp only [digits?] at h ⊢
  rw [htake, hdrop]
  split at h
  · cases h
  · next hsome =>
    cases h
    rw [if_neg hsome]

theorem EndsNumber.fraction?_append (hrest : EndsNumber rest) {ds after : List Char}
    (h : fraction? text = some (ds, after)) : fraction? (text ++ rest) = some (ds, after ++ rest) := by
  unfold fraction? at h
  split at h
  · exact hrest.digits?_append h
  · next hpoint =>
    cases h
    rw [fraction?.eq_2]
    rintro t ht
    cases text with
    | nil =>
      subst ht
      exact (hrest '.' rfl).2.1 rfl
    | cons c text =>
      cases ht
      exact hpoint text rfl

theorem exponentSign_append {text : List Char} (h : text ≠ []) (rest : List Char) :
    exponentSign (text ++ rest) = ((exponentSign text).1, (exponentSign text).2 ++ rest) := by
  obtain ⟨c, text, rfl⟩ := List.exists_cons_of_ne_nil h
  by_cases hplus : c = '+'
  · subst hplus
    rfl
  by_cases hminus : c = '-'
  · subst hminus
    rfl
  · have hnone (t : List Char) : exponentSign (c :: t) = (false, c :: t) := by
      rw [exponentSign.eq_3]
      · exact fun _ h => hplus (List.cons.inj h).1
      · exact fun _ h => hminus (List.cons.inj h).1
    rw [List.cons_append, hnone, hnone]
    rfl

theorem EndsNumber.exponent?_append (hrest : EndsNumber rest) {e : Option ExponentForm}
    (h : exponent? text = some (e, [])) : exponent? (text ++ rest) = some (e, rest) := by
  have hexponent {t : List Char} (h : (digits? (exponentSign t).2).map (fun x =>
      (some (⟨(exponentSign t).1, x.1⟩ : ExponentForm), x.2)) = some (e, [])) :
      (digits? (exponentSign (t ++ rest)).2).map (fun x =>
        (some (⟨(exponentSign (t ++ rest)).1, x.1⟩ : ExponentForm), x.2)) = some (e, rest) := by
    obtain ⟨⟨ds, after⟩, hds, he⟩ := Option.map_eq_some_iff.1 h
    cases he
    have ht : t ≠ [] := by
      rintro rfl
      cases hds
    rw [exponentSign_append ht, hrest.digits?_append hds]
    rfl
  unfold exponent? at h
  split at h
  · exact hexponent h
  · exact hexponent h
  · cases h
    rw [List.nil_append, exponent?.eq_3]
    · rintro t rfl
      exact (hrest 'e' rfl).2.2.1 rfl
    · rintro t rfl
      exact (hrest 'E' rfl).2.2.2 rfl

theorem EndsNumber.number?_append (hrest : EndsNumber rest) {negative : Bool} {n : NumberForm}
    (h : number? negative text = some (n, [])) : number? negative (text ++ rest) = some (n, rest) := by
  simp only [number?, Option.bind_eq_bind, Option.bind_eq_some_iff, Prod.exists] at h ⊢
  obtain ⟨whole, after, hwhole, h⟩ := h
  refine ⟨whole, after ++ rest, hrest.digits?_append hwhole, ?_⟩
  split at h
  · cases h
  · next hzero =>
    rw [if_neg hzero]
    simp only [Option.bind_eq_some_iff, Prod.exists] at h ⊢
    obtain ⟨fraction, after, hfraction, exponent, after, hexponent, h⟩ := h
    cases h
    exact ⟨fraction, _, hrest.fraction?_append hfraction, exponent, rest, hrest.exponent?_append hexponent, rfl⟩

end

theorem eq_zero_of_head_toDigits {n : Nat} (h : (Nat.toDigits 10 n).head? = some '0') : n = 0 := by
  induction n using Nat.strong_induction_on with
  | _ n ih =>
    rcases Nat.lt_or_ge n 10 with hn | hn
    · rw [Nat.toDigits_of_lt_base hn] at h
      have hdigit : ∀ m < 10, some m.digitChar = some '0' → m = 0 := by decide
      exact hdigit n hn h
    · rw [Nat.toDigits_of_base_le (by decide) hn, List.head?_append_of_ne_nil _ Nat.toDigits_ne_nil] at h
      have hless : n / 10 < n := by omega
      have hzero := ih (n / 10) hless h
      omega

theorem natOfDigits_toDigits (n : Nat) : natOfDigits (Nat.toDigits 10 n) = n := by
  have hfold : natOfDigits (Nat.toDigits 10 n) = Nat.ofDigitChars 10 (Nat.toDigits 10 n) 0 := by
    simp only [natOfDigits, digitValue, Nat.ofDigitChars, Nat.mul_comm]
    rfl
  rw [hfold, Nat.ofDigitChars_toDigits (by decide) (by decide)]

theorem number?_toDigits (negative : Bool) (n : Nat) :
    number? negative (Nat.toDigits 10 n) = some (⟨negative, Nat.toDigits 10 n, [], none⟩, []) := by
  have hdigits : ∀ c ∈ Nat.toDigits 10 n, c.isDigit = true := fun c hc =>
    Nat.isDigit_of_mem_toDigits (by decide) (by decide) hc
  have hall : digits? (Nat.toDigits 10 n) = some (Nat.toDigits 10 n, []) := by
    rw [digits?, List.takeWhile_eq_self_iff.mpr hdigits, List.dropWhile_eq_nil_iff.mpr hdigits]
    exact if_neg (by simp [Nat.toDigits_ne_nil])
  have hzero : ¬((Nat.toDigits 10 n).head? == some '0' && (Nat.toDigits 10 n).length != 1) = true := by
    intro h
    rw [Bool.and_eq_true, beq_iff_eq] at h
    have hn := eq_zero_of_head_toDigits h.1
    subst hn
    exact absurd h.2 (by decide)
  rw [number?, hall]
  simp only [Option.bind_eq_bind, Option.bind_some, if_neg hzero]
  rfl

theorem value_toDigits {n : Nat} (hn : n < UInt64.size) :
    (⟨false, Nat.toDigits 10 n, [], none⟩ : NumberForm).value = .integer n := by
  have hinteger : (⟨false, Nat.toDigits 10 n, [], none⟩ : NumberForm).integer? = some (n : Int) := by
    simp only [NumberForm.integer?, natOfDigits_toDigits]
    exact if_pos hn
  rw [NumberForm.value, hinteger]

theorem value_toDigits_negative {n : Nat} (hpos : 0 < n) (hn : n ≤ 1 <<< 63) :
    (⟨true, Nat.toDigits 10 n, [], none⟩ : NumberForm).value = .integer (-n) := by
  have hinteger : (⟨true, Nat.toDigits 10 n, [], none⟩ : NumberForm).integer? = some (-n : Int) := by
    have hrange : 0 < n ∧ n ≤ 1 <<< 63 := ⟨hpos, hn⟩
    simp only [NumberForm.integer?, natOfDigits_toDigits]
    exact if_pos hrange
  rw [NumberForm.value, hinteger]

def Spells (text : List Char) (k : Json) : Prop :=
  ∀ ⦃rest⦄, EndsNumber rest → scalar? (text ++ rest) = some (k, rest)

theorem scalar?_of_number? {text rest : List Char} {n : NumberForm} (h : number? false text = some (n, rest)) :
    scalar? text = some (n.value, rest) := by
  rw [scalar?.eq_6, h]
  · rfl
  all_goals
    rintro t rfl
    cases h

theorem spells_number {text : List Char} {n : NumberForm} (h : number? false text = some (n, [])) :
    Spells text n.value :=
  fun _ hrest => scalar?_of_number? (hrest.number?_append h)

theorem spells_negative {text : List Char} {n : NumberForm} (h : number? true text = some (n, [])) :
    Spells ('-' :: text) n.value := by
  intro rest hrest
  rw [List.cons_append, scalar?, hrest.number?_append h]
  rfl

theorem spells_integer {i : Int} (hlow : -(1 <<< 63) ≤ i) (hhigh : i < UInt64.size) :
    Spells (toString i).toList (.integer i) := by
  cases i with
  | ofNat n =>
    have htext : (toString (Int.ofNat n)).toList = Nat.toDigits 10 n := String.toList_ofList
    have hn : n < UInt64.size := Int.ofNat_lt.mp hhigh
    rw [htext]
    exact value_toDigits hn ▸ spells_number (number?_toDigits false n)
  | negSucc n =>
    have htext : (toString (Int.negSucc n)).toList = '-' :: Nat.toDigits 10 (n + 1) := by
      rw [Int.toString_eq_repr, Int.repr, String.toList_append, Nat.toList_repr]
      rfl
    have hn : n + 1 ≤ 1 <<< 63 := by omega
    rw [htext]
    exact value_toDigits_negative (Nat.succ_pos n) hn ▸ spells_negative (number?_toDigits true (n + 1))

theorem spells_double {text : List Char} {x : Float} (h : scalar? text = some (.double x, [])) :
    Spells text (.double x) := by
  unfold scalar? at h
  split at h
  · cases h
  · cases h
  · cases h
  · obtain ⟨⟨s, _⟩, -, he⟩ := Option.map_eq_some_iff.1 h
    cases s <;> cases he
  · obtain ⟨⟨n, _⟩, hn, he⟩ := Option.map_eq_some_iff.1 h
    obtain ⟨hvalue, rfl⟩ := Prod.mk.inj he
    exact hvalue ▸ spells_negative hn
  · obtain ⟨⟨n, _⟩, hn, he⟩ := Option.map_eq_some_iff.1 h
    obtain ⟨hvalue, rfl⟩ := Prod.mk.inj he
    exact hvalue ▸ spells_number hn

theorem spells_quote (s : String) : Spells (quote s).toList (.string s) := by
  intro rest _
  rw [toList_quote, List.cons_append, List.append_assoc, scalar?, List.singleton_append, string?_quoted]
  rfl

theorem spells_null : Spells "null".toList .null :=
  fun _ _ => rfl

theorem spells_bool (b : Bool) : Spells (if b then "true" else "false").toList (.bool b) := by
  intro rest _
  cases b <;> rfl

namespace Scan

variable {α β : Type} {n m : Nat}

def done? : Scan α n → Option (α × List Char)
  | .done a rest _ => some (a, rest)
  | .broken _ => none

theorem done?_map (f : α → β) (h : n ≤ m) (s : Scan α n) :
    (s.map f h).done? = s.done?.map fun (a, rest) => (f a, rest) := by
  cases s <;> rfl

end Scan

section

variable {levels : Nat} {s t value rest : List Char} {j : Json} {js : List Json} {l : Label}
  {es : List (String × Json)}

theorem done?_scanScalar (s : List Char) : (scanScalar s).done? = scalar? s := by
  unfold scanScalar
  split
  · next h => exact h.symm
  · next h => exact h.symm

theorem scanValue_scalar {c : Char} (hs : skip s = c :: t) (hsquare : c ≠ '[') (hcurly : c ≠ '\x7b') :
    (scanValue levels s).done? = scalar? (c :: t) := by
  rw [scanValue]
  split
  · grind
  · grind
  · grind
  · next h =>
    cases hs.symm.trans h
    rw [Scan.done?_map, done?_scanScalar]
    exact Option.map_id_apply

theorem scanValue_noItems (hs : skip s = '[' :: t) (ht : skip t = ']' :: rest) :
    (scanValue (levels + 1) s).done? = some (.array [], rest) := by
  rw [scanValue]
  split <;> grind [Scan.done?]

theorem scanValue_items (hs : skip s = '[' :: t) (ht : ∀ t', skip t ≠ ']' :: t')
    (hitems : (scanItems levels t).done? = some (js, rest)) :
    (scanValue (levels + 1) s).done? = some (.array js, rest) := by
  rw [scanValue]
  split <;> grind [Scan.done?_map]

theorem scanValue_noEntries (hs : skip s = '\x7b' :: t) (ht : skip t = '\x7d' :: rest) :
    (scanValue (levels + 1) s).done? = some (.object [], rest) := by
  rw [scanValue]
  split <;> grind [Scan.done?]

theorem scanValue_entries (hs : skip s = '\x7b' :: t) (ht : ∀ t', skip t ≠ '\x7d' :: t')
    (hentries : (scanEntries levels t).done? = some (es, rest)) :
    (scanValue (levels + 1) s).done? = some (.object es, rest) := by
  rw [scanValue]
  split <;> grind [Scan.done?_map]

theorem scanItems_last (hj : (scanValue levels s).done? = some (j, t)) (ht : skip t = ']' :: rest) :
    (scanItems levels s).done? = some ([j], rest) := by
  rw [scanItems]
  split <;> grind [Scan.done?]

theorem scanItems_more {t' : List Char} (hj : (scanValue levels s).done? = some (j, t)) (ht : skip t = ',' :: t')
    (hrest : (scanItems levels t').done? = some (js, rest)) :
    (scanItems levels s).done? = some (j :: js, rest) := by
  rw [scanItems]
  split <;> grind [Scan.done?, Scan.done?_map]

theorem scanEntries_last (hl : label (skip s) = (l, some value)) (hj : (scanValue levels value).done? = some (j, t))
    (ht : skip t = '\x7d' :: rest) : (scanEntries levels s).done? = some ([l.entry j], rest) := by
  rw [scanEntries]
  split <;> grind [Scan.done?]

theorem scanEntries_more {t' : List Char} (hl : label (skip s) = (l, some value))
    (hj : (scanValue levels value).done? = some (j, t)) (ht : skip t = ',' :: t')
    (hrest : (scanEntries levels t').done? = some (es, rest)) :
    (scanEntries levels s).done? = some (l.entry j :: es, rest) := by
  rw [scanEntries]
  split <;> grind [Scan.done?, Scan.done?_map]

end

structure Shows (levels : Nat) (text : List Char) (k : Json) : Prop where
  starts : ∃ c t, text = c :: t ∧ isSpace c = false ∧ c ≠ ']'
  reads : ∀ ⦃s rest⦄, EndsNumber rest → skip s = text ++ rest → (scanValue levels s).done? = some (k, rest)

theorem endsNumber_nil : EndsNumber [] := by
  intro c hc
  cases hc

theorem endsNumber_comma (text : List Char) : EndsNumber (',' :: text) := by
  intro c hc
  cases hc
  decide

theorem endsNumber_newline (text : List Char) : EndsNumber ('\n' :: text) := by
  intro c hc
  cases hc
  decide

theorem skip_of_not_isSpace {c : Char} (hc : isSpace c = false) (text : List Char) : skip (c :: text) = c :: text :=
  List.dropWhile_cons_of_neg (by simp [hc])

theorem toList_newline (level : Nat) : (newline level).toList = '\n' :: List.replicate (2 * level) ' ' := by
  simp [newline]

theorem skip_newline (level : Nat) (text : List Char) : skip ((newline level).toList ++ text) = skip text := by
  have hspaces : ∀ c ∈ (newline level).toList, isSpace c = true := by
    rw [toList_newline, List.forall_mem_cons]
    refine ⟨by decide, fun c hc => ?_⟩
    rw [List.eq_of_mem_replicate hc]
    decide
  rw [skip, List.dropWhile_append_of_pos hspaces, skip]

theorem skip_blank {text : List Char} : skip (' ' :: text) = skip text :=
  List.dropWhile_cons_of_pos (by decide)

theorem skip_comma (text : List Char) : skip (',' :: text) = ',' :: text :=
  skip_of_not_isSpace (by decide) text

theorem Shows.skip_append {levels : Nat} {text : List Char} {k : Json} (h : Shows levels text k)
    (rest : List Char) : skip (text ++ rest) = text ++ rest := by
  obtain ⟨c, t, rfl, hc, -⟩ := h.starts
  exact skip_of_not_isSpace hc _

theorem Spells.shows {text : List Char} {k : Json} (h : Spells text k) (levels : Nat) : Shows levels text k := by
  have hread := h endsNumber_nil
  rw [List.append_nil] at hread
  cases text with
  | nil => cases hread
  | cons c t =>
    have hspace : isSpace c = false := by
      by_contra hc
      simp only [isSpace, Bool.or_eq_true, decide_eq_true_eq, Bool.not_eq_false] at hc
      rcases hc with ((rfl | rfl) | rfl) | rfl <;> cases hread
    have hsquare : c ≠ '[' := by
      rintro rfl
      cases hread
    have hcurly : c ≠ '\x7b' := by
      rintro rfl
      cases hread
    have hclosing : c ≠ ']' := by
      rintro rfl
      cases hread
    constructor
    · exact ⟨c, t, rfl, hspace, hclosing⟩
    · intro s rest hrest hs
      rw [scanValue_scalar hs hsquare hcurly]
      exact h hrest

section

variable (level : Nat) (key : String) (j : Json) (js : List Json) (es : List (String × Json))

theorem toList_pretty_noItems : (pretty level (.array [])).toList = ['[', ']'] := by
  simp [pretty]

theorem toList_pretty_items : (pretty level (.array (j :: js))).toList =
    '[' :: ((newline (level + 1)).toList ++ ((j.pretty (level + 1)).toList ++ (prettyItems level js).toList)) := by
  simp [pretty]

theorem toList_pretty_noEntries : (pretty level (.object [])).toList = ['\x7b', '\x7d'] := by
  simp [pretty]

theorem toList_pretty_entries : (pretty level (.object ((key, j) :: es))).toList =
    '\x7b' :: ((newline (level + 1)).toList ++ ((quote key).toList ++ ':' :: ' ' :: ((j.pretty (level + 1)).toList ++
      (prettyEntries level es).toList))) := by
  simp [pretty]

theorem toList_prettyItems_nil : (prettyItems level []).toList = (newline level).toList ++ [']'] := by
  simp [prettyItems]

theorem toList_prettyItems_cons : (prettyItems level (j :: js)).toList =
    ',' :: ((newline (level + 1)).toList ++ ((j.pretty (level + 1)).toList ++ (prettyItems level js).toList)) := by
  simp [prettyItems]

theorem toList_prettyEntries_nil : (prettyEntries level []).toList = (newline level).toList ++ ['\x7d'] := by
  simp [prettyEntries]

theorem toList_prettyEntries_cons : (prettyEntries level ((key, j) :: es)).toList =
    ',' :: ((newline (level + 1)).toList ++ ((quote key).toList ++ ':' :: ' ' :: ((j.pretty (level + 1)).toList ++
      (prettyEntries level es).toList))) := by
  simp [prettyEntries]

theorem endsNumber_prettyItems (rest : List Char) : EndsNumber ((prettyItems level js).toList ++ rest) := by
  cases js with
  | nil =>
    rw [toList_prettyItems_nil, toList_newline]
    exact endsNumber_newline _
  | cons j js =>
    rw [toList_prettyItems_cons]
    exact endsNumber_comma _

theorem endsNumber_prettyEntries (rest : List Char) : EndsNumber ((prettyEntries level es).toList ++ rest) := by
  cases es with
  | nil =>
    rw [toList_prettyEntries_nil, toList_newline]
    exact endsNumber_newline _
  | cons e es =>
    rw [toList_prettyEntries_cons]
    exact endsNumber_comma _

theorem skip_entry (text : List Char) :
    skip ((newline level).toList ++ ((quote key).toList ++ text)) = (quote key).toList ++ text := by
  rw [skip_newline, toList_quote, List.cons_append]
  exact skip_of_not_isSpace (by decide) _

theorem label_quote (text : List Char) : label ((quote key).toList ++ ':' :: text) = (.key key, some text) := by
  have hcolon : afterColon (':' :: text) = some text := rfl
  rw [toList_quote, List.cons_append, List.append_assoc, List.singleton_append, label, string?_quoted]
  simp only [hcolon]

end

theorem shows_noItems (level levels : Nat) : Shows (levels + 1) (pretty level (.array [])).toList (.array []) := by
  rw [toList_pretty_noItems]
  constructor
  · exact ⟨'[', [']'], rfl, by decide, by decide⟩
  · intro s rest _ hs
    exact scanValue_noItems hs (skip_of_not_isSpace (by decide) rest)

theorem shows_noEntries (level levels : Nat) : Shows (levels + 1) (pretty level (.object [])).toList (.object []) := by
  rw [toList_pretty_noEntries]
  constructor
  · exact ⟨'\x7b', ['\x7d'], rfl, by decide, by decide⟩
  · intro s rest _ hs
    exact scanValue_noEntries hs (skip_of_not_isSpace (by decide) rest)

section

variable {level levels : Nat} {key : String} {j k : Json} {js ks : List Json} {es fs : List (String × Json)}

theorem Shows.skip_item (h : Shows levels (j.pretty (level + 1)).toList k) (rest : List Char) :
    skip ((newline (level + 1)).toList ++ ((j.pretty (level + 1)).toList ++ rest)) =
      (j.pretty (level + 1)).toList ++ rest := by
  rw [skip_newline, h.skip_append]

theorem Shows.items (hj : Shows levels (j.pretty (level + 1)).toList k)
    (hjs : ∀ {s rest}, skip s = (j.pretty (level + 1)).toList ++ ((prettyItems level js).toList ++ rest) →
      (scanItems levels s).done? = some (k :: ks, rest)) :
    Shows (levels + 1) (pretty level (.array (j :: js))).toList (.array (k :: ks)) := by
  rw [toList_pretty_items]
  constructor
  · exact ⟨'[', _, rfl, by decide, by decide⟩
  · intro s rest _ hs
    rw [List.cons_append, List.append_assoc, List.append_assoc] at hs
    have hskip := hj.skip_item ((prettyItems level js).toList ++ rest)
    refine scanValue_items hs ?_ (hjs hskip)
    obtain ⟨c, t, ht, -, hc⟩ := hj.starts
    intro t' h
    rw [hskip, ht] at h
    exact hc (List.cons.inj h).1

theorem shows_entries (hes : ∀ {s rest}, skip s = (quote key).toList ++ ':' :: ' ' ::
      ((j.pretty (level + 1)).toList ++ ((prettyEntries level es).toList ++ rest)) →
      (scanEntries levels s).done? = some ((key, k) :: fs, rest)) :
    Shows (levels + 1) (pretty level (.object ((key, j) :: es))).toList (.object ((key, k) :: fs)) := by
  rw [toList_pretty_entries]
  constructor
  · exact ⟨'\x7b', _, rfl, by decide, by decide⟩
  · intro s rest _ hs
    rw [List.cons_append, List.append_assoc, List.append_assoc, List.cons_append, List.cons_append,
      List.append_assoc] at hs
    have hskip := skip_entry (level + 1) key (':' :: ' ' :: ((j.pretty (level + 1)).toList ++
      ((prettyEntries level es).toList ++ rest)))
    refine scanValue_entries hs ?_ (hes hskip)
    intro t' h
    rw [hskip, toList_quote] at h
    exact absurd (List.cons.inj h).1 (by decide)

end

mutual
theorem shows_pretty : ∀ {j : Json}, j.IsLegible →
    ∃ k, j.ReadsAs k ∧ ∀ level levels, j.depth ≤ levels → Shows levels (j.pretty level).toList k
  | .null, _ => ⟨.null, trivial, fun _ levels _ => spells_null.shows levels⟩
  | .bool b, _ => ⟨.bool b, rfl, fun _ levels _ => (spells_bool b).shows levels⟩
  | .integer n, h => ⟨.integer n, rfl, fun _ levels _ => (spells_integer h.1 h.2).shows levels⟩
  | .string s, _ => ⟨.string s, rfl, fun _ levels _ => (spells_quote s).shows levels⟩
  | .single x, h => by
    cases hx : x.isFinite with
    | true =>
      obtain ⟨y, hy, hread⟩ := h hx
      exact ⟨.double y, ⟨hx, hy⟩, fun _ levels _ => (spells_double hread).shows levels⟩
    | false =>
      have htext : singleText x = "null" := by simp [singleText, hx]
      refine ⟨.null, hx, fun level levels _ => ?_⟩
      rw [pretty, htext]
      exact spells_null.shows levels
  | .double x, h => by
    cases hx : x.isFinite with
    | true => exact ⟨.double x, ⟨hx, rfl⟩, fun _ levels _ => (spells_double (h hx)).shows levels⟩
    | false =>
      have htext : doubleText x = "null" := by simp [doubleText, hx]
      refine ⟨.null, hx, fun level levels _ => ?_⟩
      rw [pretty, htext]
      exact spells_null.shows levels
  | .array [], _ => by
    refine ⟨.array [], trivial, fun level levels hdepth => ?_⟩
    obtain ⟨levels, rfl⟩ := Nat.exists_eq_succ_of_ne_zero (Nat.ne_zero_of_lt hdepth)
    exact shows_noItems level levels
  | .array (j :: js), h => by
    obtain ⟨k, hk, hshows⟩ := shows_pretty h.1
    obtain ⟨ks, hks, hitems⟩ := scanItems_prettyItems h.2
    refine ⟨.array (k :: ks), ⟨hk, hks⟩, fun level levels hdepth => ?_⟩
    obtain ⟨levels, rfl⟩ := Nat.exists_eq_succ_of_ne_zero (Nat.ne_zero_of_lt hdepth)
    obtain ⟨hj, hjs⟩ := Nat.max_le.mp (Nat.le_of_succ_le_succ hdepth)
    have hfirst := hshows (level + 1) levels hj
    exact hfirst.items (hitems level levels hjs hfirst)
  | .object [], _ => by
    refine ⟨.object [], trivial, fun level levels hdepth => ?_⟩
    obtain ⟨levels, rfl⟩ := Nat.exists_eq_succ_of_ne_zero (Nat.ne_zero_of_lt hdepth)
    exact shows_noEntries level levels
  | .object ((key, j) :: es), h => by
    obtain ⟨k, hk, hshows⟩ := shows_pretty h.1
    obtain ⟨fs, hfs, hentries⟩ := scanEntries_prettyEntries h.2
    refine ⟨.object ((key, k) :: fs), ⟨rfl, hk, hfs⟩, fun level levels hdepth => ?_⟩
    obtain ⟨levels, rfl⟩ := Nat.exists_eq_succ_of_ne_zero (Nat.ne_zero_of_lt hdepth)
    obtain ⟨hj, hes⟩ := Nat.max_le.mp (Nat.le_of_succ_le_succ hdepth)
    exact shows_entries (hentries level levels hes (hshows (level + 1) levels hj))
termination_by structural j => j

theorem scanItems_prettyItems : ∀ {js : List Json}, AllLegible js → ∃ ks, AllReadAs js ks ∧
    ∀ level levels, depthItems js ≤ levels → ∀ {t : List Char} {k : Json}, Shows levels t k → ∀ {s rest : List Char},
      skip s = t ++ ((prettyItems level js).toList ++ rest) → (scanItems levels s).done? = some (k :: ks, rest)
  | [], _ => by
    refine ⟨[], trivial, fun level levels _ t k hk s rest hs => ?_⟩
    refine scanItems_last (hk.reads (endsNumber_prettyItems level [] rest) hs) ?_
    rw [toList_prettyItems_nil, List.append_assoc, skip_newline]
    exact skip_of_not_isSpace (by decide) rest
  | j :: js, h => by
    obtain ⟨k', hk', hshows⟩ := shows_pretty h.1
    obtain ⟨ks, hks, hitems⟩ := scanItems_prettyItems h.2
    refine ⟨k' :: ks, ⟨hk', hks⟩, fun level levels hdepth t k hk s rest hs => ?_⟩
    obtain ⟨hj, hjs⟩ := Nat.max_le.mp hdepth
    have hnext := hshows (level + 1) levels hj
    have hread := hk.reads (endsNumber_prettyItems level (j :: js) rest) hs
    rw [toList_prettyItems_cons, List.cons_append, List.append_assoc, List.append_assoc] at hread
    exact scanItems_more hread (skip_comma _) (hitems level levels hjs hnext (hnext.skip_item _))
termination_by structural js => js

theorem scanEntries_prettyEntries : ∀ {es : List (String × Json)}, EntriesLegible es → ∃ fs, EntriesReadAs es fs ∧
    ∀ level levels, depthEntries es ≤ levels → ∀ {t : List Char} {k : Json}, Shows levels t k →
      ∀ {key : String} {s rest : List Char},
      skip s = (quote key).toList ++ ':' :: ' ' :: (t ++ ((prettyEntries level es).toList ++ rest)) →
      (scanEntries levels s).done? = some ((key, k) :: fs, rest)
  | [], _ => by
    refine ⟨[], trivial, fun level levels _ t k hk key s rest hs => ?_⟩
    have hread := hk.reads (endsNumber_prettyEntries level [] rest) (skip_blank.trans (hk.skip_append _))
    have hlabel := (congrArg label hs).trans (label_quote key _)
    refine scanEntries_last hlabel hread ?_
    rw [toList_prettyEntries_nil, List.append_assoc, skip_newline]
    exact skip_of_not_isSpace (by decide) rest
  | (key', j) :: es, h => by
    obtain ⟨k', hk', hshows⟩ := shows_pretty h.1
    obtain ⟨fs, hfs, hentries⟩ := scanEntries_prettyEntries h.2
    refine ⟨(key', k') :: fs, ⟨rfl, hk', hfs⟩, fun level levels hdepth t k hk key s rest hs => ?_⟩
    obtain ⟨hj, hes⟩ := Nat.max_le.mp hdepth
    have hnext := hshows (level + 1) levels hj
    have hread := hk.reads (endsNumber_prettyEntries level ((key', j) :: es) rest)
      (skip_blank.trans (hk.skip_append _))
    have hlabel := (congrArg label hs).trans (label_quote key _)
    rw [toList_prettyEntries_cons, List.cons_append, List.append_assoc, List.append_assoc, List.cons_append,
      List.cons_append, List.append_assoc] at hread hlabel
    exact scanEntries_more hlabel hread (skip_comma _) (hentries level levels hes hnext (skip_entry _ _ _))
termination_by structural es => es
end

theorem scan_pretty {j : Json} (h : j.IsLegible) (hdepth : j.depth ≤ maxLevels) :
    ∃ k, j.ReadsAs k ∧ scan (j.pretty 0) = (k, true) := by
  obtain ⟨k, hk, hshows⟩ := shows_pretty h
  have hshow := hshows 0 maxLevels hdepth
  have htext := hshow.reads endsNumber_nil (hshow.skip_append [])
  rw [List.append_nil] at htext
  refine ⟨k, hk, ?_⟩
  rw [scan]
  cases hscan : scanValue maxLevels (j.pretty 0).toList with
  | broken _ =>
    rw [hscan] at htext
    cases htext
  | done _ _ _ =>
    rw [hscan] at htext
    cases htext
    rfl

theorem readsBack_of_isLegible {j : Json} (h : j.IsLegible) (hdepth : j.depth ≤ maxLevels) : j.ReadsBack := by
  obtain ⟨k, hk, hscan⟩ := scan_pretty h hdepth
  have hsound : k.isSound = true := by simp [isSound, anyFault_of_readsAs hk]
  refine ⟨k, hk, ?_⟩
  simp only [parse?, hscan, hsound]
  rfl

end HeaderBinding.Json
