import HeaderBinding.Native.Walk

namespace HeaderBinding.NativeType

variable {m : Type → Type} [Monad m] {σ : Type}

def visitM (f : NativeType → m Unit) (t : NativeType) : m Unit := do
  f t
  t.children.attach.forM fun ⟨c, _⟩ => c.visitM f
termination_by sizeOf t
decreasing_by exact sizeOf_lt_of_mem_children ‹_›

def visitMut (f : NativeType → StateT σ Option NativeType) (t : NativeType) : StateT σ Option NativeType := do
  match ← f t with
  | .pointer pointee => return .pointer (← pointee |>.visitMut f)
  | .array element rank length => return .array (← element |>.visitMut f) rank length
  | .synonym name target => return .synonym name (← target |>.visitMut f)
  | .record kind body => do
    let members ← body.members.mapM fun x => return { x with type := ← x.type |>.visitMut f }
    return .record kind ⟨body.name, members⟩
  | .function s => do
    let returns ← s.returns |>.visitMut f
    let params ← s.params.mapM fun x => return { x with type := ← x.type |>.visitMut f }
    return .function { s with returns := returns, params := params }
  | .builtin b => return .builtin b
  | .named r => return .named r
  | .enumeration e => return .enumeration e
partial_fixpoint

def onReference (f : Reference → m Reference) : NativeType → m NativeType
  | .named r => return .named (← f r)
  | t => pure t

def visitReferences (f : Reference → StateT σ Option Reference) : NativeType → StateT σ Option NativeType :=
  visitMut (onReference f)

end HeaderBinding.NativeType
