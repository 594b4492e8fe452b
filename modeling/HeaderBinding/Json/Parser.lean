import HeaderBinding.Json.Scalar

namespace HeaderBinding.Json

def isSpace (c : Char) : Bool :=
  c = ' ' || c = '\n' || c = '\t' || c = '\r'

def skip (cs : List Char) : List Char :=
  cs.dropWhile isSpace

theorem length_skip_le (cs : List Char) : (skip cs).length ≤ cs.length :=
  (List.dropWhile_sublist isSpace).length_le

theorem length_of_skip {cs rest : List Char} {c : Char} (h : skip cs = c :: rest) :
    rest.length < cs.length := by
  have := length_skip_le cs
  rw [h, List.length_cons] at this
  omega

def afterColon (text : List Char) : Option (List Char) :=
  match skip text with
  | ':' :: rest => some rest
  | _ => none

theorem length_of_afterColon {text rest : List Char} (h : afterColon text = some rest) :
    rest.length < text.length := by
  unfold afterColon at h
  split at h
  · next hs =>
    cases h
    exact length_of_skip hs
  · cases h

inductive Label where
  | key (s : String)
  | unreadable

def Label.entry : Label → Json → String × Json
  | .key s, j => (s, j)
  | .unreadable, j => ("", .fault (.noKey j.isCut))

def label (text : List Char) : Label × Option (List Char) :=
  match text with
  | '"' :: text =>
    match string? text with
    | some (some s, rest) => (.key s, afterColon rest)
    | some (none, rest) => (.unreadable, afterColon rest)
    | none => (.unreadable, none)
  | _ => (.unreadable, none)

theorem length_of_label {text rest : List Char} (h : (label text).2 = some rest) :
    rest.length < text.length := by
  unfold label at h
  split at h
  · split at h
    · next hs =>
      have := length_of_string? hs
      have := length_of_afterColon h
      simp only [List.length_cons]
      omega
    · next hs =>
      have := length_of_string? hs
      have := length_of_afterColon h
      simp only [List.length_cons]
      omega
    · cases h
  · cases h

inductive Bracket where
  | square
  | curly

def Bracket.closing : Bracket → Char
  | .square => ']'
  | .curly => '\x7d'

inductive Demand where
  | first
  | item
  | more

def Demand.rank : Demand → Nat
  | .first => 1
  | .item | .more => 0

def Bracket.valueStart (b : Bracket) (text : List Char) : Option (List Char) :=
  match b with
  | .square => some text
  | .curly => (label (skip text)).2

theorem length_of_valueStart {b : Bracket} {text rest : List Char}
    (h : b.valueStart text = some rest) : rest.length ≤ text.length := by
  cases b with
  | square => cases h; exact Nat.le_refl _
  | curly => exact Nat.le_trans (Nat.le_of_lt (length_of_label h)) (length_skip_le text)

def afterClosing (demand : Demand) (opened : List Bracket) (text : List Char) : Option (List Char) :=
  match opened, demand with
  | [], _ => some text
  | b :: outer, .first =>
    match h : skip text with
    | [] => none
    | c :: rest =>
      have := length_of_skip h
      if c = b.closing then afterClosing .more outer rest else afterClosing .item (b :: outer) text
  | b :: outer, .more =>
    match h : skip text with
    | [] => none
    | c :: rest =>
      have := length_of_skip h
      if c = ',' then afterClosing .item (b :: outer) rest
      else if c = b.closing then afterClosing .more outer rest
      else none
  | b :: outer, .item =>
    match hv : b.valueStart text with
    | none => none
    | some value =>
      have := length_of_valueStart hv
      match h : skip value with
      | '[' :: rest =>
        have := length_of_skip h
        afterClosing .first (.square :: b :: outer) rest
      | '\x7b' :: rest =>
        have := length_of_skip h
        afterClosing .first (.curly :: b :: outer) rest
      | _ =>
        match hs : scalar? (skip value) with
        | none => none
        | some (_, rest) =>
          have := Nat.lt_of_lt_of_le (length_of_scalar? hs) (length_skip_le value)
          afterClosing .more (b :: outer) rest
termination_by (text.length, demand.rank)
decreasing_by
  · exact Prod.Lex.left _ _ this
  · exact Prod.Lex.right _ Nat.zero_lt_one
  · exact Prod.Lex.left _ _ this
  · exact Prod.Lex.left _ _ this
  all_goals exact Prod.Lex.left _ _ (by omega)

theorem length_of_afterClosing {demand : Demand} {opened : List Bracket} {text rest : List Char}
    (h : afterClosing demand opened text = some rest) : rest.length ≤ text.length := by
  fun_induction afterClosing demand opened text <;> grind

inductive Scan (α : Type) (n : Nat) where
  | done (value : α) (rest : List Char) (shorter : rest.length < n)
  | broken (value : α)

def Scan.map {α β : Type} {n m : Nat} (f : α → β) (h : n ≤ m) : Scan α n → Scan β m
  | .done value rest shorter => .done (f value) rest (Nat.lt_of_lt_of_le shorter h)
  | .broken value => .broken (f value)

def scanScalar (text : List Char) : Scan Json text.length :=
  match h : scalar? text with
  | some (j, rest) => .done j rest (length_of_scalar? h)
  | none => .broken (.fault .cut)

def scanDeep (b : Bracket) (text : List Char) : Scan Json (text.length + 1) :=
  match h : afterClosing .first [b] text with
  | some rest => .done (.fault .refused) rest (Nat.lt_succ_of_le (length_of_afterClosing h))
  | none => .broken (.fault .cut)

mutual
def scanValue (levels : Nat) (text : List Char) : Scan Json text.length :=
  match h : skip text with
  | [] => .broken (.fault .cut)
  | '[' :: rest =>
    have := length_of_skip h
    match levels with
    | 0 => (scanDeep .square rest).map id this
    | levels + 1 =>
      match hr : skip rest with
      | ']' :: after => .done (.array []) after (Nat.lt_trans (length_of_skip hr) this)
      | _ => (scanItems levels rest).map .array (Nat.le_of_lt this)
  | '\x7b' :: rest =>
    have := length_of_skip h
    match levels with
    | 0 => (scanDeep .curly rest).map id this
    | levels + 1 =>
      match hr : skip rest with
      | '\x7d' :: after => .done (.object []) after (Nat.lt_trans (length_of_skip hr) this)
      | _ => (scanEntries levels rest).map .object (Nat.le_of_lt this)
  | c :: rest => (scanScalar (c :: rest)).map id (h ▸ length_skip_le text)
termination_by (text.length, 0)

def scanItems (levels : Nat) (text : List Char) : Scan (List Json) text.length :=
  match scanValue levels text with
  | .broken j => .broken [j]
  | .done j rest shorter =>
    match h : skip rest with
    | ']' :: after => .done [j] after (Nat.lt_trans (length_of_skip h) shorter)
    | ',' :: after =>
      have := Nat.lt_trans (length_of_skip h) shorter
      (scanItems levels after).map (j :: ·) (Nat.le_of_lt this)
    | _ => .broken [j, .fault .cut]
termination_by (text.length, 1)

def scanEntries (levels : Nat) (text : List Char) : Scan (List (String × Json)) text.length :=
  match h : label (skip text) with
  | (l, none) => .broken [l.entry (.fault .cut)]
  | (l, some value) =>
    have : value.length < text.length :=
      Nat.lt_of_lt_of_le (length_of_label (congrArg Prod.snd h)) (length_skip_le text)
    match scanValue levels value with
    | .broken j => .broken [l.entry j]
    | .done j rest shorter =>
      match h : skip rest with
      | '\x7d' :: after =>
        .done [l.entry j] after (Nat.lt_trans (length_of_skip h) (Nat.lt_trans shorter this))
      | ',' :: after =>
        have := Nat.lt_trans (length_of_skip h) (Nat.lt_trans shorter this)
        (scanEntries levels after).map (l.entry j :: ·) (Nat.le_of_lt this)
      | _ => .broken [l.entry j, ("", .fault .cut)]
termination_by (text.length, 1)
end

def maxLevels : Nat := 127

def scan (text : String) : Json × Bool :=
  match scanValue maxLevels text.toList with
  | .broken j => (j, false)
  | .done j rest _ => (j, (skip rest).isEmpty)

def parse? (text : String) : Option Json :=
  let (j, whole) := scan text
  if whole && j.isSound then some j.sorted else none

end HeaderBinding.Json
