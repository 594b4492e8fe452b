import HeaderBinding.Native.Basic

namespace HeaderBinding

def sameOption {α : Type} (same : α → α → Bool) : Option α → Option α → Bool
  | none, none => true
  | some a, some b => same a b
  | _, _ => false

def Enumerator.same (a b : Enumerator) : Bool :=
  a.name == b.name && a.expr == b.expr && sameOption TypedLiteral.same a.value b.value

def Enumeration.same (a b : Enumeration) : Bool :=
  a.name == b.name && a.members.length == b.members.length &&
    (a.members.zip b.members).all fun (x, y) => x.same y

namespace NativeType

mutual
def same : NativeType → NativeType → Bool
  | .builtin a, .builtin b => a == b
  | .pointer a, .pointer b => a.same b
  | .array a rank length, .array b rank' length' => a.same b && rank == rank' && length == length'
  | .synonym name a, .synonym name' b => name == name' && a.same b
  | .named a, .named b => a.same b
  | .record kind ⟨name, members⟩, .record kind' ⟨name', members'⟩ =>
    kind == kind' && name == name' && sameMembers members members'
  | .enumeration a, .enumeration b => a.same b
  | .function ⟨name, a, params, convention⟩, .function ⟨name', b, params', convention'⟩ =>
    name == name' && a.same b && sameParams params params' && convention == convention'
  | _, _ => false
termination_by structural t => t

def sameMembers : List (Member NativeType) → List (Member NativeType) → Bool
  | [], [] => true
  | ⟨name, a⟩ :: rest, ⟨name', b⟩ :: rest' => name == name' && a.same b && sameMembers rest rest'
  | _, _ => false
termination_by structural members => members

def sameParams : List (Parameter NativeType) → List (Parameter NativeType) → Bool
  | [], [] => true
  | ⟨name, a, direction⟩ :: rest, ⟨name', b, direction'⟩ :: rest' =>
    name == name' && a.same b && direction == direction' && sameParams rest rest'
  | _, _ => false
termination_by structural params => params
end

end NativeType

def Record.same (a b : Record NativeType) : Bool :=
  a.name == b.name && NativeType.sameMembers a.members b.members

def Signature.same (a b : Signature NativeType) : Bool :=
  a.name == b.name && a.returns.same b.returns && NativeType.sameParams a.params b.params &&
    a.convention == b.convention

end HeaderBinding
