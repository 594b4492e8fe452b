import HeaderBinding.Graph.Seen

namespace HeaderBinding

inductive Limb where
  | type (t : NativeType)
  | member (name : String) (t : NativeType)
  | leaf (label : String)

namespace NativeType

def label : NativeType → String
  | .builtin b => b.spelling
  | .pointer _ => "*"
  | .array _ _ length => lengthText length
  | .synonym name _ => name
  | .named r => r.name
  | .record kind body => anonymous body.name kind.word
  | .enumeration e => anonymous e.name "enum"
  | .function s => anonymous s.name "fn"

def limbs : NativeType → List Limb
  | .builtin _ | .named _ => []
  | .pointer pointee => [.type pointee]
  | .array element _ _ => [.type element]
  | .synonym _ target => [.type target]
  | .record _ body => body.members.map fun m => .member m.name m.type
  | .enumeration e => e.members.map fun m => .leaf m.name
  | .function s => .type s.returns :: s.params.map fun p => .type p.type

def ownKey? : NativeType → Option Key
  | .synonym name _ => some (.synonym name)
  | .record _ body => if body.name.isEmpty then none else some (.definedType body.name)
  | _ => none

end NativeType

def Reference.qualifier (r : Reference) : String :=
  if r.isConst then "const " else ""

namespace Node

def label : Node → String
  | .synonym d => d.name
  | .definition (.record _ body) => body.name
  | .definition (.enumeration e) => e.name

def limbs : Node → List Limb
  | .synonym d => [.type d.target]
  | .definition (.record _ body) => body.members.map fun m => .member m.name m.type
  | .definition (.enumeration e) =>
    e.members.map fun m => .leaf (m.name ++ match m.expr with
      | some expr => "=" ++ expr
      | none => "")

end Node

namespace Symbol

inductive Piece where
  | text (s : String)
  | type (t : NativeType)

noncomputable def Piece.weight : Piece → Nat
  | .text _ => 1
  | .type t => 3 * sizeOf t

noncomputable def weight : List Piece → Nat
  | [] => 0
  | p :: ps => p.weight + weight ps

theorem weight_append (ps qs : List Piece) : weight (ps ++ qs) = weight ps + weight qs := by
  induction ps with
  | nil => simp [weight]
  | cons p ps ih => simp [weight, ih, Nat.add_assoc]

def limb : Limb → List Piece
  | .type t => [.text "(", .type t, .text ")"]
  | .member name t => [.text ("(" ++ name ++ "("), .type t, .text "))"]
  | .leaf label => [.text ("(" ++ label ++ ")")]

def pieces (ls : List Limb) : List Piece :=
  ls.flatMap limb

theorem weight_limb_type (t : NativeType) : weight (limb (.type t)) = 3 * sizeOf t + 2 := by
  simp only [limb, weight, Piece.weight]
  omega

theorem weight_limb_member (name : String) (t : NativeType) :
    weight (limb (.member name t)) = 3 * sizeOf t + 2 := by
  simp only [limb, weight, Piece.weight]
  omega

theorem pieces_cons (l : Limb) (ls : List Limb) : pieces (l :: ls) = limb l ++ pieces ls :=
  List.flatMap_cons

theorem weight_pieces_cons (l : Limb) (ls : List Limb) :
    weight (pieces (l :: ls)) = weight (limb l) + weight (pieces ls) := by
  rw [pieces_cons, weight_append]

theorem weight_members (ms : List (Member NativeType)) :
    weight (pieces (ms.map fun m => .member m.name m.type)) ≤ 3 * sizeOf ms := by
  induction ms with
  | nil => simp [pieces, weight]
  | cons m rest ih =>
    obtain ⟨name, type⟩ := m
    rw [List.map_cons, weight_pieces_cons, weight_limb_member]
    simp at *
    omega

theorem weight_params (ps : List (Parameter NativeType)) :
    weight (pieces (ps.map fun p => .type p.type)) ≤ 3 * sizeOf ps := by
  induction ps with
  | nil => simp [pieces, weight]
  | cons p rest ih =>
    obtain ⟨name, type, direction⟩ := p
    rw [List.map_cons, weight_pieces_cons, weight_limb_type]
    simp at *
    omega

theorem weight_enumerators (ms : List Enumerator) :
    weight (pieces (ms.map fun m => .leaf m.name)) ≤ 3 * sizeOf ms := by
  induction ms with
  | nil => simp [pieces, weight]
  | cons m rest ih =>
    rw [List.map_cons, weight_pieces_cons, limb]
    simp [weight, Piece.weight] at *
    omega

theorem weight_limbs_lt (t : NativeType) : weight (pieces t.limbs) < 3 * sizeOf t := by
  cases t with
  | builtin b =>
    rw [NativeType.limbs, pieces, List.flatMap_nil, weight, NativeType.builtin.sizeOf_spec]
    omega
  | named r =>
    rw [NativeType.limbs, pieces, List.flatMap_nil, weight, NativeType.named.sizeOf_spec]
    omega
  | pointer pointee =>
    rw [NativeType.limbs, weight_pieces_cons, weight_limb_type, NativeType.pointer.sizeOf_spec]
    simp [pieces, weight]
    omega
  | array element rank length =>
    rw [NativeType.limbs, weight_pieces_cons, weight_limb_type, NativeType.array.sizeOf_spec]
    simp [pieces, weight]
    omega
  | synonym name target =>
    rw [NativeType.limbs, weight_pieces_cons, weight_limb_type, NativeType.synonym.sizeOf_spec]
    simp [pieces, weight]
    omega
  | record kind body =>
    obtain ⟨name, members⟩ := body
    have := weight_members members
    simp [NativeType.limbs] at *
    omega
  | enumeration e =>
    obtain ⟨name, members⟩ := e
    have := weight_enumerators members
    simp [NativeType.limbs] at *
    omega
  | function s =>
    obtain ⟨name, returns, params, convention⟩ := s
    have := weight_params params
    rw [NativeType.limbs, weight_pieces_cons, weight_limb_type]
    simp at *
    omega

theorem weight_lt_cons (p : Piece) (ps : List Piece) : weight ps < weight (p :: ps) := by
  cases p with
  | text s =>
    rw [weight, Piece.weight]
    omega
  | type t =>
    have := weight_limbs_lt t
    rw [weight, Piece.weight]
    omega

theorem weight_limbs_append_lt (t : NativeType) (ps : List Piece) :
    weight (pieces t.limbs ++ ps) < weight (.type t :: ps) := by
  have := weight_limbs_lt t
  rw [weight_append, weight, Piece.weight]
  omega

end Symbol

structure SymbolPrinter where
  seen : Seen
  out : String

namespace SymbolPrinter

open HeaderBinding.Symbol

def fresh : SymbolPrinter := ⟨.nothing, ""⟩

def put (text : String) (p : SymbolPrinter) : SymbolPrinter :=
  { p with out := p.out ++ text }

def enter (k : Key) (p : SymbolPrinter) : SymbolPrinter :=
  { p with seen := p.seen.add k }

@[simp] theorem seen_put (text : String) (p : SymbolPrinter) : (p.put text).seen = p.seen :=
  rfl

def write (s : Store) (p : SymbolPrinter) (pending : List Piece) : SymbolPrinter :=
  match pending with
  | [] => p
  | .text text :: rest => write s (p.put text) rest
  | .type (.named r) :: rest =>
    match r.target with
    | some (.declaration k) =>
      if p.seen.has k then write s ((p.put r.qualifier).put r.name) rest
      else
        match _ : s.node? k with
        | some n => write s (((p.put r.qualifier).enter k).put n.label) (pieces n.limbs ++ rest)
        | none => write s (((p.put r.qualifier).enter k).put r.name) rest
    | _ => write s ((p.put r.qualifier).put r.name) rest
  | .type t :: rest =>
    match t.ownKey? with
    | some k =>
      if p.seen.has k then write s (p.put t.label) rest
      else write s ((p.put t.label).enter k) (pieces t.limbs ++ rest)
    | none => write s (p.put t.label) (pieces t.limbs ++ rest)
termination_by (s.unseen p.seen, weight pending)
decreasing_by
  · exact .right' _ (Nat.le_refl _) (weight_lt_cons _ _)
  · exact .right' _ (Nat.le_refl _) (weight_lt_cons _ _)
  · exact .left _ _ (Store.unseen_add_lt ‹_› (by simpa using ‹¬p.seen.has k = true›))
  · exact .right' _ (s.unseen_add_le _ _) (weight_lt_cons _ _)
  · exact .right' _ (Nat.le_refl _) (weight_lt_cons _ _)
  · exact .right' _ (Nat.le_refl _) (weight_lt_cons _ _)
  · exact .right' _ (s.unseen_add_le _ _) (weight_limbs_append_lt _ _)
  · exact .right' _ (Nat.le_refl _) (weight_limbs_append_lt _ _)

def reset (p : SymbolPrinter) : SymbolPrinter :=
  { p with seen := .nothing, out := "" }

def take (p : SymbolPrinter) : String × SymbolPrinter :=
  (p.out, { p with out := "" })

def printType (s : Store) (t : NativeType) (p : SymbolPrinter) : String × SymbolPrinter :=
  (p.reset.write s [.type t]).take

def printDeclaration (s : Store) (k : Key) (p : SymbolPrinter) : Option String × SymbolPrinter :=
  match s.node? k with
  | some n =>
    let (text, p) := (((p.reset.enter k).put n.label).write s (pieces n.limbs)).take
    (some text, p)
  | none => (none, p)

end SymbolPrinter

namespace NativeType

def symbol (s : Store) (t : NativeType) : String :=
  (SymbolPrinter.fresh.printType s t).1

end NativeType

namespace Store

def symbol? (s : Store) (k : Key) : Option String :=
  (SymbolPrinter.fresh.printDeclaration s k).1

end Store

end HeaderBinding
