/-!
  Results together with the journal of how they came about.

  A computation that reports what it does returns `Logged α`: its value, and the entries it wrote in
  order.  Forgetting the entries is a map of monads: the value of a composition is the composition
  of the values, which the `value` lemmas state.  So what a computation returns can be studied
  without its journal.
-/

namespace Expansion

/-- How much attention an entry asks for. -/
inductive Level
  | trace | debug | info | warn | error
  deriving DecidableEq, Repr

/-- The level in capitals. -/
def Level.name : Level → String
  | trace => "TRACE"
  | debug => "DEBUG"
  | info => "INFO"
  | warn => "WARN"
  | error => "ERROR"

/-- One line of the journal: a fixed message and what it is about. -/
structure Entry where
  level : Level
  message : String
  details : List (String × String)
  deriving Repr

/-- A value and the entries written on the way to it. -/
structure Logged (α : Type) where
  value : α
  entries : List Entry

namespace Logged

variable {α β : Type}

instance : Monad Logged where
  pure a := ⟨a, []⟩
  bind x f := ⟨(f x.value).value, x.entries ++ (f x.value).entries⟩

/-- Writes one entry. -/
def note (level : Level) (message : String) (details : List (String × String)) : Logged Unit :=
  ⟨(), [⟨level, message, details⟩]⟩

@[simp] theorem value_pure (a : α) : (pure a : Logged α).value = a := rfl

@[simp] theorem value_bind (x : Logged α) (f : α → Logged β) :
    (x >>= f).value = (f x.value).value := rfl

@[simp] theorem value_map (f : α → β) (x : Logged α) : (f <$> x).value = f x.value := rfl

@[simp] theorem entries_pure (a : α) : (pure a : Logged α).entries = [] := rfl

@[simp] theorem entries_bind (x : Logged α) (f : α → Logged β) :
    (x >>= f).entries = x.entries ++ (f x.value).entries := rfl

instance : LawfulMonad Logged := LawfulMonad.mk' Logged
  (by intro α x; cases x; simp [Functor.map])
  (by intro α β x f; simp [bind, pure])
  (by intro α β γ x f g; simp [bind])

end Logged

end Expansion
