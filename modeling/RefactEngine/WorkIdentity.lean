import Mathlib.Data.List.AList
import Mathlib.Data.Prod.Lex
import Mathlib.Data.String.Basic

/-! # Identities of work: runs, scopes and urgency classes -/
namespace WorkIdentity

inductive RuntimeKind where
  | trajectory
  | backgroundAgent
  deriving DecidableEq

structure WorkKey where
  runtime : RuntimeKind
  id : String
  deriving DecidableEq

structure RunKey where
  work : WorkKey
  attempt : ℕ
  deriving DecidableEq

def WorkKey.trajectory (id : String) : WorkKey := ⟨.trajectory, id⟩

def WorkKey.backgroundAgent (id : String) : WorkKey := ⟨.backgroundAgent, id⟩

def WorkKey.run (work : WorkKey) (attempt : ℕ) : RunKey := ⟨work, attempt⟩

abbrev ProjectKey := String

abbrev CheckoutKey := String

structure WorkScope where
  project : ProjectKey
  root : CheckoutKey
  deriving DecidableEq

/-- Declared most urgent first; the derived order puts the most urgent class first. -/
inductive WorkPriority where
  | userBlocking
  | interactive
  | normal
  | speculative
  deriving DecidableEq

def WorkPriority.rank : WorkPriority → ℕ
  | .userBlocking => 0
  | .interactive => 1
  | .normal => 2
  | .speculative => 3

instance : LT WorkPriority := ⟨fun p q => p.rank < q.rank⟩

instance (p q : WorkPriority) : Decidable (p < q) :=
  inferInstanceAs (Decidable (p.rank < q.rank))

theorem WorkPriority.lt_def {p q : WorkPriority} : p < q ↔ p.rank < q.rank := Iff.rfl

end WorkIdentity
