import HeaderBinding.Declaration.Key

namespace HeaderBinding

inductive Severity where
  | error
  | warning
  | info
  deriving DecidableEq, Repr

def Severity.text : Severity → String
  | .error => "error"
  | .warning => "warning"
  | .info => "info"

inductive DiagnosticKind where
  | unresolvedReference
  | unresolvedConstant
  | unrepresentableExpression
  | duplicateDeclaration
  | exportNotFound
  | ambiguousExport
  | malformedEntry
  | renamedType
  deriving DecidableEq, Repr

namespace DiagnosticKind

def all : List DiagnosticKind :=
  [.unresolvedReference, .unresolvedConstant, .unrepresentableExpression, .duplicateDeclaration,
    .exportNotFound, .ambiguousExport, .malformedEntry, .renamedType]

def name : DiagnosticKind → String
  | .unresolvedReference => "UnresolvedReference"
  | .unresolvedConstant => "UnresolvedConstant"
  | .unrepresentableExpression => "UnrepresentableExpression"
  | .duplicateDeclaration => "DuplicateDeclaration"
  | .exportNotFound => "ExportNotFound"
  | .ambiguousExport => "AmbiguousExport"
  | .malformedEntry => "MalformedEntry"
  | .renamedType => "RenamedType"

def ofName? (name : String) : Option DiagnosticKind :=
  all.find? (·.name == name)

def severity : DiagnosticKind → Severity
  | .duplicateDeclaration | .malformedEntry => .error
  | .unresolvedReference | .unresolvedConstant | .unrepresentableExpression | .renamedType => .warning
  | .exportNotFound | .ambiguousExport => .info

end DiagnosticKind

structure Diagnostic where
  severity : Severity
  kind : DiagnosticKind
  subject : Option Key
  message : String
  deriving DecidableEq, Repr

namespace Diagnostic

def report (kind : DiagnosticKind) (subject : Option Key) (message : String) : Diagnostic :=
  ⟨kind.severity, kind, subject, message⟩

def isError (d : Diagnostic) : Bool :=
  d.severity == .error

def text (d : Diagnostic) : String :=
  match d.subject with
  | some subject => d.severity.text ++ ": " ++ subject.text ++ ": " ++ d.message
  | none => d.severity.text ++ ": " ++ d.message

end Diagnostic

abbrev Diagnostics := List Diagnostic

namespace Diagnostics

def hasErrors (ds : Diagnostics) : Bool :=
  ds.any Diagnostic.isError

def hasWarnings (ds : Diagnostics) : Bool :=
  ds.any (·.severity == .warning)

def ofSeverity (ds : Diagnostics) (s : Severity) : Diagnostics :=
  ds.filter (·.severity == s)

def ofKind (ds : Diagnostics) (k : DiagnosticKind) : Diagnostics :=
  ds.filter (·.kind == k)

def about (ds : Diagnostics) (subject : Key) : Diagnostics :=
  ds.filter (·.subject == some subject)

end Diagnostics

end HeaderBinding
