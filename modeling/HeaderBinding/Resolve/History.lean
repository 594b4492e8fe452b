import HeaderBinding.Resolve.Basic
import HeaderBinding.Store.Snapshot
import HeaderBinding.Store.Operation

namespace HeaderBinding.Store

inductive Reachable : Store → Prop
  | empty : Reachable .empty
  | seeded : Reachable .seeded
  | edit {s : Store} (op : Operation) (h : Reachable s) : Reachable (s.perform op).1
  | load {s : Store} (text : String) (h : Reachable s) : Reachable ((loadInPlace text).run.run s).2
  | resolve {s : Store} (options : ResolveOptions) (h : Reachable s) : Reachable (s.resolve options).1
  | resolveAlong {s : Store} {σ : Type} [ExportProvider σ] (options : ResolveOptions) (x : Inquiry σ)
    (h : Reachable s) : Reachable ((s.resolve options).1.bind x).1
  | resolveWithSource {s : Store} {σ : Type} [ExportProvider σ] (options : ResolveOptions) (source : σ)
    (modules : ModuleList) (h : Reachable s) : Reachable (s.resolveWithSource options source modules).1

end HeaderBinding.Store
