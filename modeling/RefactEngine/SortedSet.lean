import Mathlib.Data.List.Sort
import Mathlib.Data.Prod.Lex

/-! # Ordered sets as strictly ascending lists

The order of iteration is the order of the list, and the field `ascending` keeps every
value of the type a set. Insertion and removal are described by their members alone.
-/

structure SortedSet (α : Type*) [LinearOrder α] where
  elems : List α
  ascending : elems.Pairwise (· < ·)

namespace SortedSet

variable {α : Type*} [LinearOrder α]

instance : Membership α (SortedSet α) := ⟨fun s a => a ∈ s.elems⟩

variable {s : SortedSet α} {a : α}

theorem mem_def : a ∈ s ↔ a ∈ s.elems := Iff.rfl

def empty : SortedSet α := ⟨[], List.Pairwise.nil⟩

@[simp] theorem notMem_empty (a : α) : a ∉ (empty : SortedSet α) := by
  simp [mem_def, empty]

/-- Inserts below the first larger element; an element that is present stays once. -/
def insertList (a : α) : List α → List α
  | [] => [a]
  | b :: l => if a < b then a :: b :: l else if a = b then b :: l else b :: insertList a l

variable {l : List α} {x : α}

theorem mem_insertList : x ∈ insertList a l ↔ x = a ∨ x ∈ l := by
  induction l with
  | nil => simp [insertList]
  | cons b l ih =>
    unfold insertList
    split_ifs with h₁ h₂
    · simp
    · subst h₂; simp
    · simp only [List.mem_cons, ih]; tauto

theorem ascending_insertList (h : l.Pairwise (· < ·)) : (insertList a l).Pairwise (· < ·) := by
  induction l with
  | nil => simp [insertList]
  | cons b l ih =>
    obtain ⟨hb, hl⟩ := List.pairwise_cons.mp h
    unfold insertList
    split_ifs with h₁ h₂
    · refine List.pairwise_cons.mpr ⟨fun x hx => ?_, h⟩
      rcases List.mem_cons.mp hx with rfl | hx
      · exact h₁
      · exact h₁.trans (hb x hx)
    · exact h
    · refine List.pairwise_cons.mpr ⟨fun x hx => ?_, ih hl⟩
      rcases mem_insertList.mp hx with rfl | hx
      · exact lt_of_le_of_ne (not_lt.mp h₁) (Ne.symm h₂)
      · exact hb x hx

def insert (s : SortedSet α) (a : α) : SortedSet α :=
  ⟨insertList a s.elems, ascending_insertList s.ascending⟩

@[simp] theorem mem_insert : x ∈ s.insert a ↔ x = a ∨ x ∈ s :=
  mem_insertList

def ofList (l : List α) : SortedSet α := l.foldl insert empty

@[simp] theorem mem_ofList : x ∈ ofList l ↔ x ∈ l := by
  have hfold : ∀ (l : List α) (s : SortedSet α), x ∈ l.foldl insert s ↔ x ∈ s ∨ x ∈ l := by
    intro l
    induction l with
    | nil => simp
    | cons a l ih =>
      intro s
      rw [List.foldl_cons, ih, mem_insert, List.mem_cons]
      tauto
  rw [ofList, hfold]
  simp

def erase (s : SortedSet α) (a : α) : SortedSet α :=
  ⟨s.elems.filter (· ≠ a), s.ascending.filter _⟩

@[simp] theorem mem_erase : x ∈ s.erase a ↔ x ≠ a ∧ x ∈ s := by
  simp [mem_def, erase, and_comm]

theorem eq_empty_of_forall_notMem (h : ∀ a, a ∉ s) : s = empty := by
  obtain ⟨l, hl⟩ := s
  cases l with
  | nil => rfl
  | cons a l => exact absurd (List.mem_cons_self) (h a)

theorem nodup (s : SortedSet α) : s.elems.Nodup := s.ascending.imp fun h => ne_of_lt h

theorem elems_ext {t : SortedSet α} (h : ∀ a, a ∈ s ↔ a ∈ t) : s.elems = t.elems := by
  have hperm : s.elems.Perm t.elems := (List.perm_ext_iff_of_nodup s.nodup t.nodup).mpr h
  exact hperm.eq_of_pairwise (fun a b _ _ hab hba => absurd hba hab.asymm) s.ascending t.ascending

theorem length_erase_lt (h : a ∈ s) : (s.erase a).elems.length < s.elems.length := by
  refine List.length_filter_lt_length_iff_exists.mpr ⟨a, h, by simp⟩

theorem head_filter_le {p : α →
      Bool} (h : s.elems.filter p = a :: l) (hx : x ∈ s) (hp : p x = true) :
    a ≤ x := by
  have hs : (a :: l).Pairwise (· < ·) := h ▸ s.ascending.filter p
  have hm : x ∈ a :: l := h ▸ List.mem_filter.mpr ⟨hx, hp⟩
  rcases List.mem_cons.mp hm with rfl | hm
  · exact le_refl _
  · exact le_of_lt ((List.pairwise_cons.mp hs).1 x hm)

end SortedSet
