import Mathlib.Data.List.Basic
import Mathlib.Algebra.Order.Ring.Nat

/-! # Bounded prefixes of a text

The longest prefix of a text whose encoding fits into a number of bytes, and the search for its end
from the bound downwards.
-/
namespace Utf8Prefix

def byteLength (text : List Char) : ℕ := (text.map Char.utf8Size).sum

def isCharBoundary : List Char → ℕ → Bool
  | _, 0 => true
  | [], _ + 1 => false
  | c :: rest, n + 1 =>
    if n + 1 < c.utf8Size then false else isCharBoundary rest (n + 1 - c.utf8Size)

/-- The last boundary up to a place. -/
def floorBoundary (text : List Char) : ℕ → ℕ
  | 0 => 0
  | n + 1 => if isCharBoundary text (n + 1) then n + 1 else floorBoundary text n

/-- The longest prefix of whole characters within the bound. -/
def takeBytes : List Char → ℕ → List Char
  | [], _ => []
  | c :: rest, n => if c.utf8Size ≤ n then c :: takeBytes rest (n - c.utf8Size) else []

@[simp] theorem byteLength_nil : byteLength [] = 0 := rfl

@[simp] theorem byteLength_cons (c : Char) (rest : List Char) :
    byteLength (c :: rest) = c.utf8Size + byteLength rest := by
  simp [byteLength]

@[simp] theorem byteLength_append (s t : List Char) :
    byteLength (s ++ t) = byteLength s + byteLength t := by
  simp [byteLength]

theorem byteLength_pos {text : List Char} (h : text ≠ []) : 0 < byteLength text := by
  cases text with
  | nil => exact absurd rfl h
  | cons c rest =>
    have := c.utf8Size_pos
    rw [byteLength_cons]
    omega

variable (text : List Char)

theorem takeBytes_of_not_boundary (n : ℕ) (h : isCharBoundary text (n + 1) = false) :
    takeBytes text (n + 1) = takeBytes text n := by
  induction text generalizing n with
  | nil => rfl
  | cons c rest ih =>
    rw [isCharBoundary] at h
    by_cases hlt : n + 1 < c.utf8Size
    · rw [takeBytes, takeBytes, if_neg (by omega), if_neg (by omega)]
    · rw [if_neg hlt] at h
      obtain ⟨m, hm⟩ : ∃ m, n + 1 - c.utf8Size = m + 1 := by
        cases hd : n + 1 - c.utf8Size with
        | zero => rw [hd, isCharBoundary] at h; cases h
        | succ m => exact ⟨m, rfl⟩
      rw [hm] at h
      rw [takeBytes, takeBytes, if_pos (by omega), if_pos (by omega), hm, ih m h]
      congr 2
      omega

theorem takeBytes_floorBoundary (n : ℕ) :
    takeBytes text (floorBoundary text n) = takeBytes text n := by
  induction n with
  | zero => rfl
  | succ n ih =>
    rw [floorBoundary]
    by_cases h : isCharBoundary text (n + 1) = true
    · rw [if_pos h]
    · rw [if_neg h, ih, takeBytes_of_not_boundary text n (Bool.eq_false_iff.mpr h)]

theorem takeBytes_eq_self {text : List Char} {n : ℕ} (h : byteLength text ≤ n) :
    takeBytes text n = text := by
  induction text generalizing n with
  | nil => rfl
  | cons c rest ih =>
    rw [byteLength_cons] at h
    rw [takeBytes, if_pos (by omega), ih (by omega)]

theorem takeBytes_isPrefix (n : ℕ) : (takeBytes text n).IsPrefix text := by
  induction text generalizing n with
  | nil => exact List.nil_prefix
  | cons c rest ih =>
    rw [takeBytes]
    by_cases h : c.utf8Size ≤ n
    · rw [if_pos h]
      exact List.cons_prefix_cons.mpr ⟨rfl, ih _⟩
    · rw [if_neg h]
      exact List.nil_prefix

theorem byteLength_takeBytes_le (n : ℕ) : byteLength (takeBytes text n) ≤ n := by
  induction text generalizing n with
  | nil => exact Nat.zero_le n
  | cons c rest ih =>
    rw [takeBytes]
    by_cases h : c.utf8Size ≤ n
    · have := ih (n - c.utf8Size)
      rw [if_pos h, byteLength_cons]
      omega
    · rw [if_neg h]
      exact Nat.zero_le n

theorem takeBytes_append (s t : List Char) (n : ℕ) :
    takeBytes (s ++ t) n =
      if byteLength s ≤ n then s ++ takeBytes t (n - byteLength s) else takeBytes s n := by
  induction s generalizing n with
  | nil => simp
  | cons c s ih =>
    rw [List.cons_append, takeBytes, byteLength_cons, takeBytes]
    by_cases hc : c.utf8Size ≤ n
    · rw [if_pos hc, if_pos hc, ih]
      by_cases hs : byteLength s ≤ n - c.utf8Size
      · rw [if_pos hs, if_pos (by omega), Nat.sub_sub, List.cons_append]
      · rw [if_neg hs, if_neg (by omega)]
    · rw [if_neg hc, if_neg hc, if_neg (by omega)]

theorem byteLength_takeBytes_lt_iff {text : List Char} {n : ℕ} :
    byteLength (takeBytes text n) < byteLength text ↔ n < byteLength text := by
  constructor
  · intro h
    by_contra hle
    rw [takeBytes_eq_self (by omega)] at h
    omega
  · intro h
    have := byteLength_takeBytes_le text n
    omega

theorem takeBytes_zero : takeBytes text 0 = [] := by
  by_contra h
  have hpos := byteLength_pos h
  have hle := byteLength_takeBytes_le text 0
  omega

theorem takeBytes_of_isPrefix {s text : List Char} {n : ℕ} (hpre : s.IsPrefix text)
    (hfits : byteLength s ≤ n) : s.IsPrefix (takeBytes text n) := by
  obtain ⟨t, rfl⟩ := hpre
  rw [takeBytes_append, if_pos hfits]
  exact List.prefix_append s _

end Utf8Prefix
