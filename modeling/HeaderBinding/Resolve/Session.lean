import HeaderBinding.Resolve.Basic
import HeaderBinding.Store.Operation

namespace HeaderBinding

inductive Action where
  | edit (op : Store.Operation)
  | resolve (options : ResolveOptions)

namespace Store

def act (s : Store) : Action → Store
  | .edit op => (s.perform op).1
  | .resolve options => (s.resolve options).1

def after (s : Store) (actions : List Action) : Store :=
  actions.foldl act s

end Store

end HeaderBinding
