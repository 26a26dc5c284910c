import Expansion.Document.Build
import Expansion.Json.Reader
import Expansion.Yaml.Conversion

/-!
  Documents from JSON and YAML text.
-/

namespace Expansion

/-- Why a text is not the text of a document. -/
inductive LoadError
  /-- The text is not JSON. -/
  | json (fault : Json.Fault)
  /-- The text is not YAML. -/
  | yaml (fault : Yaml.Fault)
  /-- The text is YAML that documents cannot hold. -/
  | document (error : DocumentError)

namespace Document

/-- The document of a JSON text, given by its octets. -/
def ofJson (input : List UInt8) : Except LoadError Document :=
  match Json.read input with
  | .ok v => .ok (ofValue v)
  | .error fault => .error (.json fault)

/-- The document of a YAML text. -/
def ofYaml (text : String) : Except LoadError Document :=
  match Yaml.Datum.read text with
  | .error fault => .error (.yaml fault)
  | .ok datum =>
    match datum.value [] with
    | .ok v => .ok (ofValue v)
    | .error e => .error (.document e)

end Document

end Expansion
