import Mathlib.Data.List.Infix
import Mathlib.Data.Nat.Digits.Defs

/-! # Codes that can be read back

A code delimits its values when a word of it can be told from whatever follows. Such codes can be
put one after the other, and listed up to a marker that no word starts with.
-/

/-- Of two texts that start with a code word of valid values, the values and the rests agree. -/
def Delimits {α σ : Type*} (valid : α → Prop) (code : α → List σ) : Prop :=
  ∀ ⦃a b : α⦄ ⦃s t : List σ⦄, valid a → valid b → code a ++ s = code b ++ t → a = b ∧ s = t

namespace Delimits

variable {α β σ : Type*} {code : α → List σ} {valid : α → Prop}

theorem mono {weaker : α → Prop} (h : Delimits weaker code) (himp : ∀ a, valid a → weaker a) :
    Delimits valid code :=
  fun _ _ _ _ ha hb heq => h (himp _ ha) (himp _ hb) heq

theorem of_decode (decode : List σ → Option (α × List σ))
    (h : ∀ a s, valid a → decode (code a ++ s) = some (a, s)) : Delimits valid code := by
  intro a b s t ha hb heq
  have hboth := (h a s ha).symm.trans ((congrArg decode heq).trans (h b t hb))
  exact Prod.mk.inj (Option.some.inj hboth)

theorem terminated (c : σ) : Delimits (fun a : List σ => c ∉ a) fun a => a ++ [c] := by
  intro a b s t ha hb heq
  rw [List.append_assoc, List.append_assoc] at heq
  rcases List.append_eq_append_iff.mp heq with ⟨u, rfl, hu⟩ | ⟨u, rfl, hu⟩
  · cases u with
    | nil => exact ⟨(List.append_nil a).symm, (List.cons.inj hu).2⟩
    | cons d u =>
      obtain ⟨rfl, -⟩ := List.cons.inj hu
      exact absurd (List.mem_append_right a List.mem_cons_self) hb
  · cases u with
    | nil => exact ⟨List.append_nil b, (List.cons.inj hu).2.symm⟩
    | cons d u =>
      obtain ⟨rfl, -⟩ := List.cons.inj hu
      exact absurd (List.mem_append_right b List.mem_cons_self) ha

theorem comp {valid : β → Prop} {code : β → List σ} (h : Delimits valid code) {f : α → β}
    (hf : Function.Injective f) : Delimits (fun a => valid (f a)) fun a => code (f a) := by
  intro a b s t ha hb heq
  obtain ⟨hfab, hst⟩ := h ha hb heq
  exact ⟨hf hfab, hst⟩

theorem cons (h : Delimits valid code) (c : σ) : Delimits valid fun a => c :: code a := by
  intro a b s t ha hb heq
  exact h ha hb (List.cons.inj heq).2

theorem flatMap (h : Delimits valid code) {stop : List σ}
    (hstop : ∀ a s t, valid a → code a ++ s ≠ stop ++ t) :
    Delimits (fun l : List α => ∀ a ∈ l, valid a) fun l => l.flatMap code ++ stop := by
  intro l
  induction l with
  | nil =>
    intro l' s t _ hl' heq
    cases l' with
    | nil => exact ⟨rfl, List.append_cancel_left heq⟩
    | cons b l' =>
      simp only [List.flatMap_nil, List.nil_append, List.flatMap_cons, List.append_assoc] at heq
      exact absurd heq.symm (hstop b _ s (hl' b List.mem_cons_self))
  | cons a l ih =>
    intro l' s t hl hl' heq
    cases l' with
    | nil =>
      simp only [List.flatMap_nil, List.nil_append, List.flatMap_cons, List.append_assoc] at heq
      exact absurd heq (hstop a _ t (hl a List.mem_cons_self))
    | cons b l' =>
      simp only [List.flatMap_cons, List.append_assoc] at heq
      obtain ⟨rfl, hrest⟩ := h (hl a List.mem_cons_self) (hl' b List.mem_cons_self) heq
      rw [← List.append_assoc, ← List.append_assoc] at hrest
      obtain ⟨rfl, hst⟩ := ih (fun x hx => hl x (List.mem_cons_of_mem _ hx))
        (fun x hx => hl' x (List.mem_cons_of_mem _ hx)) hrest
      exact ⟨rfl, hst⟩

theorem flatMap_injective (h : Delimits (fun _ => True) code) (hne : ∀ a, code a ≠ []) :
    Function.Injective fun l : List α => l.flatMap code := by
  have hcons : ∀ a (l : List α), (a :: l).flatMap code ≠ [] := fun a l hnil =>
    hne a (List.append_eq_nil_iff.mp hnil).1
  intro l
  induction l with
  | nil =>
    intro l' heq
    cases l' with
    | nil => rfl
    | cons b l' => exact absurd heq.symm (hcons b l')
  | cons a l ih =>
    intro l' heq
    cases l' with
    | nil => exact absurd heq (hcons a l)
    | cons b l' =>
      obtain ⟨rfl, hrest⟩ := h trivial trivial heq
      exact congrArg _ (ih hrest)

end Delimits

section Markers

variable {σ : Type*} {m : List σ}

theorem append_marker_aux {c : σ} {a u s t : List σ} (hc : c ∉ m) (hno : ¬ c :: m <:+: a ++ u)
    (heq : c :: m ++ s = u ++ (c :: m ++ t)) : u = [] := by
  cases u with
  | nil => rfl
  | cons d u =>
    exfalso
    rcases List.append_eq_append_iff.mp heq with ⟨w, hw, -⟩ | ⟨w, hw, hrest⟩
    · exact hno ⟨a, w, by rw [List.append_assoc, hw]⟩
    · -- the marker would start again within itself
      obtain ⟨rfl, hm⟩ := List.cons.inj hw
      cases w with
      | nil => exact hno ⟨a, [], by rw [hw]; simp⟩
      | cons e w =>
        obtain ⟨rfl, -⟩ := List.cons.inj hrest
        exact hc (hm ▸ List.mem_append_right u List.mem_cons_self)

theorem delimits_marker {c : σ} (hc : c ∉ m) :
    Delimits (fun a : List σ => ¬ c :: m <:+: a) fun a => a ++ c :: m := by
  intro a b s t ha hb heq
  rw [List.append_assoc, List.append_assoc] at heq
  rcases List.append_eq_append_iff.mp heq with ⟨u, rfl, hu⟩ | ⟨u, rfl, hu⟩
  · obtain rfl := append_marker_aux hc hb hu
    exact ⟨(List.append_nil a).symm, List.append_cancel_left hu⟩
  · obtain rfl := append_marker_aux hc ha hu
    exact ⟨List.append_nil b, (List.append_cancel_left hu).symm⟩

theorem eq_of_append_last {c : σ} {a b s t : List σ} (hs : c ∉ s) (ht : c ∉ t)
    (heq : a ++ (c :: m ++ s) = b ++ (c :: m ++ t)) (hc : c ∉ m) : a = b ∧ s = t := by
  have hreverse := congrArg List.reverse heq
  simp only [List.reverse_append, List.reverse_cons, List.append_assoc, List.singleton_append]
    at hreverse
  have hdelimits := Delimits.terminated c
  have hs' : c ∉ s.reverse ++ m.reverse := by simpa using ⟨hs, hc⟩
  have ht' : c ∉ t.reverse ++ m.reverse := by simpa using ⟨ht, hc⟩
  obtain ⟨hst, hab⟩ := @hdelimits _ _ a.reverse b.reverse hs' ht' (by simpa using hreverse)
  exact ⟨List.reverse_injective hab, List.reverse_injective (List.append_cancel_right hst)⟩

end Markers

section Joining

variable {σ : Type*}

theorem intercalate_eq_nil {c : σ} {l : List (List σ)} (hl : ∀ a ∈ l, a ≠ []) :
    [c].intercalate l = [] ↔ l = [] := by
  constructor
  · intro h
    cases l with
    | nil => rfl
    | cons a l =>
      exfalso
      apply hl a List.mem_cons_self
      cases l with
      | nil => rwa [List.intercalate_singleton] at h
      | cons b l =>
        rw [List.intercalate_cons_cons] at h
        exact (List.append_eq_nil_iff.mp (List.append_eq_nil_iff.mp h).1).1
  · rintro rfl
    rfl

theorem intercalate_injective [BEq σ] [LawfulBEq σ] {c : σ} {l l' : List (List σ)}
    (hl : ∀ a ∈ l, a ≠ [] ∧ c ∉ a) (hl' : ∀ a ∈ l', a ≠ [] ∧ c ∉ a)
    (heq : [c].intercalate l = [c].intercalate l') : l = l' := by
  have hnil := intercalate_eq_nil (c := c) fun a ha => (hl a ha).1
  have hnil' := intercalate_eq_nil (c := c) fun a ha => (hl' a ha).1
  by_cases hempty : l = []
  · rw [hempty] at heq ⊢
    exact (hnil'.mp heq.symm).symm
  · have hempty' : l' ≠ [] := fun h => hempty (hnil.mp (heq.trans (hnil'.mpr h)))
    rw [← List.splitOn_intercalate c (fun a ha => (hl a ha).2) hempty, heq,
      List.splitOn_intercalate c (fun a ha => (hl' a ha).2) hempty']

end Joining

section Decimals

theorem toDigits_ten_injective : Function.Injective (Nat.toDigits 10) := by
  intro m n h
  rw [← Nat.ofDigitChars_ten_toDigits (n := m), h, Nat.ofDigitChars_ten_toDigits]

variable {c : Char}

theorem notMem_toDigits_ten (hc : c.isDigit = false) (n : ℕ) : c ∉ Nat.toDigits 10 n := by
  intro h
  rw [Nat.isDigit_of_mem_toDigits (by decide) (by decide) h] at hc
  cases hc

theorem delimits_decimal (hc : c.isDigit = false) :
    Delimits (fun _ : ℕ => True) fun n => Nat.toDigits 10 n ++ [c] := by
  have hcomp := (Delimits.terminated c).comp toDigits_ten_injective
  exact hcomp.mono fun n _ => notMem_toDigits_ten hc n

def signedDecimal : ℤ → List Char
  | .ofNat n => Nat.toDigits 10 n
  | .negSucc n => '-' :: Nat.toDigits 10 (n + 1)

theorem notMem_signedDecimal (hc : c.isDigit = false) (hminus : c ≠ '-') (z : ℤ) :
    c ∉ signedDecimal z := by
  cases z with
  | ofNat n => exact notMem_toDigits_ten hc n
  | negSucc n => exact List.not_mem_cons_of_ne_of_not_mem hminus (notMem_toDigits_ten hc _)

theorem signedDecimal_injective : Function.Injective signedDecimal := by
  have hdigit : ∀ m n, Nat.toDigits 10 m ≠ '-' :: Nat.toDigits 10 n := by
    intro m n h
    apply notMem_toDigits_ten (c := '-') (by decide) m
    rw [h]
    exact List.mem_cons_self
  intro y z h
  cases y with
  | ofNat m =>
    cases z with
    | ofNat n => exact congrArg _ (toDigits_ten_injective h)
    | negSucc n => exact absurd h (hdigit m (n + 1))
  | negSucc m =>
    cases z with
    | ofNat n => exact absurd h.symm (hdigit n (m + 1))
    | negSucc n =>
      have hsucc := toDigits_ten_injective (List.cons.inj h).2
      exact congrArg _ (Nat.succ.inj hsucc)

end Decimals
