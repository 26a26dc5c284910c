import Expansion.Number
import Expansion.Kind
import Expansion.Fields
import Expansion.Path
import Expansion.Value
import Expansion.Json.Reader
import Expansion.Json.Printer
import Expansion.Journal
import Expansion.Document.Overlay
import Expansion.Document.Walk
import Expansion.Yaml.Scalar
import Expansion.Yaml.Conversion
import Expansion.Yaml.Printer
import Expansion.Document.Load
import Expansion.Document.Text
import Expansion.Macro.Declaration
import Expansion.Macro.Template
import Expansion.Macro.Evaluator
import Expansion.Proofs.Text.Quoted
import Expansion.Proofs.Document.Refinement
import Expansion.Proofs.Document.Invariant
import Expansion.Proofs.Document.Walk
import Expansion.Proofs.Macro.Complete
import Expansion.Proofs.Macro.Settings
import Expansion.Proofs.Macro.Siblings
import Expansion.Proofs.Macro.Rendered
import Expansion.Proofs.Macro.ReturnType
import Expansion.Proofs.Macro.Failure
import Expansion.Proofs.Macro.Collection
import Expansion.Proofs.Macro.Resources
import Expansion.Proofs.Macro.Accounts
import Expansion.Proofs.Macro.Deletion
import Expansion.Proofs.Document.Lifetime
import Expansion.Proofs.Document.Overlay
import Expansion.Proofs.Document.Refusal
import Expansion.Proofs.Document.Repetition
import Expansion.Proofs.Document.Traversal
import Expansion.Proofs.Document.Text
import Expansion.Proofs.Macro.Substitution
import Expansion.Proofs.Macro.Encoding
import Expansion.Proofs.Macro.Composition
import Expansion.Proofs.Macro.Schedule
import Expansion.Proofs.Macro.Simultaneous
import Expansion.Proofs.Macro.Faults
import Expansion.Proofs.Macro.Nesting
import Expansion.Proofs.Document.Tracker
import Expansion.Proofs.Macro.KindField
import Expansion.Proofs.Yaml.Reading
