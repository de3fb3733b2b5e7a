import Mathlib.Data.String.Basic

/-! # JSON values

The members of an object stand in a list with distinct keys. Numbers are natural (below `2 ^ 64`
where they are read from a text), negative (`neg n` is `-(n + 1)`), or of a type `F` of
floating-point numbers.
-/
namespace JsonValues

inductive Json (F : Type) where
  | null
  | bool (b : Bool)
  | nat (n : ℕ)
  | neg (n : ℕ)
  | float (x : F)
  | str (text : String)
  | arr (items : List (Json F))
  | obj (members : List (String × Json F))

variable {F : Type}

namespace Json

def get (value : Json F) (key : String) : Option (Json F) :=
  match value with
  | .obj members => members.lookup key
  | _ => none

def asStr : Json F → Option String
  | .str text => some text
  | _ => none

def asBool : Json F → Option Bool
  | .bool b => some b
  | _ => none

def asU64 : Json F → Option ℕ
  | .nat n => some n
  | _ => none

def asU32 (value : Json F) : Option ℕ := value.asU64.filter (· < 2 ^ 32)

end Json

end JsonValues
