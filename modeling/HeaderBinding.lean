import HeaderBinding.Convert.Basic
import HeaderBinding.Convert.Config
import HeaderBinding.Convert.Input
import HeaderBinding.Declaration.Basic
import HeaderBinding.Declaration.Data
import HeaderBinding.Declaration.Key
import HeaderBinding.Diagnostic
import HeaderBinding.Digest
import HeaderBinding.Emission.Basic
import HeaderBinding.Emission.Draft
import HeaderBinding.Emission.Marshal
import HeaderBinding.Emission.Options
import HeaderBinding.Export.ModuleList
import HeaderBinding.Export.Provider
import HeaderBinding.Export.Search
import HeaderBinding.Export.Source
import HeaderBinding.Expr.Basic
import HeaderBinding.Expr.Bits
import HeaderBinding.Expr.Context
import HeaderBinding.Expr.Error
import HeaderBinding.Expr.Eval
import HeaderBinding.Expr.Grammar
import HeaderBinding.Expr.Lexer
import HeaderBinding.Expr.Machine
import HeaderBinding.Expr.Parser
import HeaderBinding.Expr.Spelling
import HeaderBinding.Expr.Token
import HeaderBinding.Expr.Value
import HeaderBinding.Expr.Whole
import HeaderBinding.Graph.Canonical
import HeaderBinding.Graph.Reachable
import HeaderBinding.Graph.Search
import HeaderBinding.Graph.Seen
import HeaderBinding.Graph.Symbol
import HeaderBinding.Graph.Unwrapping
import HeaderBinding.Json.Basic
import HeaderBinding.Json.Decode
import HeaderBinding.Json.Parser
import HeaderBinding.Json.Printer
import HeaderBinding.Json.ReadBack
import HeaderBinding.Json.Scalar
import HeaderBinding.Literal.Basic
import HeaderBinding.Literal.Data
import HeaderBinding.Literal.Type
import HeaderBinding.Managed.Basic
import HeaderBinding.Managed.Primitive
import HeaderBinding.Managed.Printer
import HeaderBinding.Native.Basic
import HeaderBinding.Native.Builtin
import HeaderBinding.Native.Data
import HeaderBinding.Native.Same
import HeaderBinding.Native.Shape
import HeaderBinding.Native.Visit
import HeaderBinding.Native.Walk
import HeaderBinding.Numeral.Layout
import HeaderBinding.Numeral.Precision
import HeaderBinding.Numeral.Shortest
import HeaderBinding.Proofs.Declaration.Data
import HeaderBinding.Proofs.Emission.Bindings
import HeaderBinding.Proofs.Emission.Draft
import HeaderBinding.Proofs.Emission.Invariant
import HeaderBinding.Proofs.Emission.Marshal
import HeaderBinding.Proofs.Emission.Uses
import HeaderBinding.Proofs.Export.Inquiry
import HeaderBinding.Proofs.Export.ModuleList
import HeaderBinding.Proofs.Export.Record
import HeaderBinding.Proofs.Export.Search
import HeaderBinding.Proofs.Export.Verdict
import HeaderBinding.Proofs.Expr.Digits
import HeaderBinding.Proofs.Expr.Grammar
import HeaderBinding.Proofs.Expr.Literals
import HeaderBinding.Proofs.Expr.Machine
import HeaderBinding.Proofs.Expr.Refinement
import HeaderBinding.Proofs.Expr.Residue
import HeaderBinding.Proofs.Expr.Spelling
import HeaderBinding.Proofs.Expr.Typing
import HeaderBinding.Proofs.Expr.Waiting
import HeaderBinding.Proofs.Expr.Yields
import HeaderBinding.Proofs.Graph.Canonical
import HeaderBinding.Proofs.Graph.Chain
import HeaderBinding.Proofs.Graph.Drawing
import HeaderBinding.Proofs.Graph.Search
import HeaderBinding.Proofs.Graph.Symbol
import HeaderBinding.Proofs.Json.Decode
import HeaderBinding.Proofs.Json.Text
import HeaderBinding.Proofs.Literal.Data
import HeaderBinding.Proofs.Native.Collapse
import HeaderBinding.Proofs.Native.Data
import HeaderBinding.Proofs.Native.Qualifiers
import HeaderBinding.Proofs.Native.Related
import HeaderBinding.Proofs.Native.Rewrite
import HeaderBinding.Proofs.Native.Same
import HeaderBinding.Proofs.Native.Traverse
import HeaderBinding.Proofs.Native.Visit
import HeaderBinding.Proofs.Resolve.Accounting
import HeaderBinding.Proofs.Resolve.Assign
import HeaderBinding.Proofs.Resolve.Attached
import HeaderBinding.Proofs.Resolve.Binding
import HeaderBinding.Proofs.Resolve.Casting
import HeaderBinding.Proofs.Resolve.Completion
import HeaderBinding.Proofs.Resolve.Dangling
import HeaderBinding.Proofs.Resolve.Derivation
import HeaderBinding.Proofs.Resolve.Ensures
import HeaderBinding.Proofs.Resolve.Findings
import HeaderBinding.Proofs.Resolve.Fixpoint
import HeaderBinding.Proofs.Resolve.History
import HeaderBinding.Proofs.Resolve.Idempotence
import HeaderBinding.Proofs.Resolve.Inquiry
import HeaderBinding.Proofs.Resolve.Knowledge
import HeaderBinding.Proofs.Resolve.Linking
import HeaderBinding.Proofs.Resolve.Rearranged
import HeaderBinding.Proofs.Resolve.Release
import HeaderBinding.Proofs.Resolve.Restaged
import HeaderBinding.Proofs.Resolve.Settle
import HeaderBinding.Proofs.Resolve.Sweep
import HeaderBinding.Proofs.Resolve.Valuation
import HeaderBinding.Proofs.Resolve.Valued
import HeaderBinding.Proofs.Store.Commit
import HeaderBinding.Proofs.Store.FastLoad
import HeaderBinding.Proofs.Store.Hoist
import HeaderBinding.Proofs.Store.Indexed
import HeaderBinding.Proofs.Store.Loading
import HeaderBinding.Proofs.Store.Lookup
import HeaderBinding.Proofs.Store.Named
import HeaderBinding.Proofs.Store.Outcome
import HeaderBinding.Proofs.Store.Snapshot
import HeaderBinding.Proofs.Store.Staged
import HeaderBinding.Proofs.Store.Subjects
import HeaderBinding.Resolve.Basic
import HeaderBinding.Resolve.Binding
import HeaderBinding.Resolve.History
import HeaderBinding.Resolve.Item
import HeaderBinding.Resolve.Linking
import HeaderBinding.Resolve.Session
import HeaderBinding.Resolve.Valuation
import HeaderBinding.Store.Basic
import HeaderBinding.Store.Operation
import HeaderBinding.Store.Snapshot
import HeaderBinding.Store.Staging
import HeaderBinding.Store.Table
import HeaderBinding.Text.Blank
import HeaderBinding.Text.Quoted
import HeaderBinding.Proofs.Convert.Ambiguity
import HeaderBinding.Proofs.Convert.Converted
import HeaderBinding.Proofs.Convert.Reloaded
import HeaderBinding.Proofs.Convert.Reordered
import HeaderBinding.Proofs.Convert.Enumerated
import HeaderBinding.Proofs.Declaration.Tree
import HeaderBinding.Proofs.Declaration.Visit
import HeaderBinding.Proofs.Emission.Synonym
