/-!
  The phases of an expansion.

  They run in this order: structural directives first, then lookups of scalars, lookups and joins of
  composites, and the encoding of values as text last, when what it encodes is complete.
-/

namespace Expansion

/-- A stage of the expansion; every macro belongs to one. -/
inductive Phase
  | directives | scalars | composites | encoding
  deriving DecidableEq, Repr, Inhabited

namespace Phase

/-- Every phase, in running order. -/
def all : List Phase := [directives, scalars, composites, encoding]

/-- The phase to begin with. -/
def first : Phase := directives

/-- The phase that follows. -/
def next? : Phase → Option Phase
  | directives => some scalars
  | scalars => some composites
  | composites => some encoding
  | encoding => none

/-- The name in lower case, for messages. -/
def name : Phase → String
  | directives => "directives"
  | scalars => "scalars"
  | composites => "composites"
  | encoding => "encoding"

/-- The title-cased name, for declarations. -/
def title : Phase → String
  | directives => "Directives"
  | scalars => "Scalars"
  | composites => "Composites"
  | encoding => "Encoding"

/-- The phase with this title. -/
def titled? (title : String) : Option Phase :=
  all.find? fun phase => phase.title = title

theorem mem_all (phase : Phase) : phase ∈ all := by
  cases phase <;> decide

theorem titled?_title (phase : Phase) : titled? phase.title = some phase := by
  cases phase <;> decide

end Phase

end Expansion
