import Mathlib.Data.List.Sort
import Mathlib.Data.Prod.Lex

/-! # Gathering entries behind their owners

The entries of a list are numbered, and some are owned by an entry that is itself unowned. Gathering
puts the owned entries behind their owner. The result is the list sorted by a rank: an owner comes
directly before what it owns, and otherwise the numbers decide.
-/
namespace OwnerGroups

open List

variable {α : Type*}

variable (own : α × ℕ → Option ℕ) (l : List α)

def gather : List (α × ℕ) :=
  (l.zipIdx.filter fun entry => (own entry).isNone).flatMap fun entry =>
    entry :: l.zipIdx.filter fun owned => own owned = some entry.2

def Owners : Prop :=
  ∀ owned ∈ l.zipIdx, ∀ i, own owned = some i → ∃ a, l[i]? = some a ∧ own (a, i) = none

/-- The owned entries stand behind their owner, with entries of the same owner in between. -/
def Contiguous : Prop :=
  ∀ a j i, l[j]? = some a → own (a, j) = some i →
    i < j ∧ ∀ b k, i < k → k < j → l[k]? = some b → own (b, k) = some i

def rank (entry : α × ℕ) : ℕ ×ₗ Bool ×ₗ ℕ :=
  match own entry with
  | none => toLex (entry.2, toLex (false, entry.2))
  | some i => toLex (i, toLex (true, entry.2))

def Before (one other : α × ℕ) : Prop := rank own one < rank own other

variable {own : α × ℕ → Option ℕ} {l : List α}

variable {other one : α × ℕ}

theorem before_unowned_iff (h : own one = none) (h' : own other = none) :
    Before own one other ↔ one.2 < other.2 := by
  simp only [Before, rank, h, h', Prod.Lex.toLex_lt_toLex, lt_irrefl, false_or, true_and]
  omega

variable {i : ℕ}

theorem before_owned_iff (h : own one = none) (h' : own other = some i) :
    Before own one other ↔ one.2 ≤ i := by
  simp only [Before, rank, h, h', Prod.Lex.toLex_lt_toLex, Bool.false_lt_true, true_or, and_true]
  omega

theorem owned_before_iff (h : own one = some i) (h' : own other = none) :
    Before own one other ↔ i < other.2 := by
  simp [Before, rank, h, h', Prod.Lex.toLex_lt_toLex]

theorem owned_before_owned_iff {j : ℕ} (h : own one = some i) (h' : own other = some j) :
    Before own one other ↔ i < j ∨ i = j ∧ one.2 < other.2 := by
  simp [Before, rank, h, h', Prod.Lex.toLex_lt_toLex]

theorem Before.asymm (h : Before own one other) : ¬ Before own other one :=
  lt_asymm h

variable {entries : List (α × ℕ)}

theorem nodup_of_before (h : entries.Pairwise (Before own)) : entries.Nodup := by
  apply h.imp
  rintro one other hbef rfl
  exact lt_irrefl _ hbef

theorem eq_of_before {entries' : List (α × ℕ)} (hperm : entries.Perm entries')
    (h : entries.Pairwise (Before own)) (h' : entries'.Pairwise (Before own)) :
    entries = entries' :=
  hperm.eq_of_pairwise (fun _ _ _ _ hone hother => absurd hother hone.asymm) h h'

theorem pairwise_zipIdx (l : List α) : l.zipIdx.Pairwise fun one other => one.2 < other.2 := by
  have hrange : (l.zipIdx.map Prod.snd).Pairwise (· < ·) := by
    rw [zipIdx_map_snd]
    exact pairwise_lt_range'
  exact pairwise_map.mp hrange

theorem pairwise_filter_unowned (own : α × ℕ → Option ℕ) (l : List α) :
    (l.zipIdx.filter fun entry => (own entry).isNone).Pairwise (Before own) := by
  refine ((pairwise_zipIdx l).filter _).imp_of_mem ?_
  intro one other hone hother hlt
  have hnone := Option.isNone_iff_eq_none.mp (mem_filter.mp hone).2
  have hnone' := Option.isNone_iff_eq_none.mp (mem_filter.mp hother).2
  exact (before_unowned_iff hnone hnone').mpr hlt

theorem pairwise_filter_owned (own : α × ℕ → Option ℕ) (l : List α) (i : ℕ) :
    (l.zipIdx.filter fun owned => own owned = some i).Pairwise (Before own) := by
  refine ((pairwise_zipIdx l).filter _).imp_of_mem ?_
  intro one other hone hother hlt
  have hsome := of_decide_eq_true (mem_filter.mp hone).2
  have hsome' := of_decide_eq_true (mem_filter.mp hother).2
  exact (owned_before_owned_iff hsome hsome').mpr (.inr ⟨rfl, hlt⟩)

theorem pairwise_gather (own : α × ℕ → Option ℕ) (l : List α) :
    (gather own l).Pairwise (Before own) := by
  unfold gather
  rw [pairwise_flatMap]
  constructor
  · intro entry hentry
    have hnone := Option.isNone_iff_eq_none.mp (mem_filter.mp hentry).2
    rw [pairwise_cons]
    refine ⟨fun owned howned => ?_, pairwise_filter_owned own l entry.2⟩
    have hsome := of_decide_eq_true (mem_filter.mp howned).2
    exact (before_owned_iff hnone hsome).mpr le_rfl
  · refine ((pairwise_zipIdx l).filter _).imp_of_mem ?_
    intro one other hone hother hlt x hx y hy
    have hnone := Option.isNone_iff_eq_none.mp (mem_filter.mp hone).2
    have hnone' := Option.isNone_iff_eq_none.mp (mem_filter.mp hother).2
    rcases mem_cons.mp hx with rfl | hx <;> rcases mem_cons.mp hy with rfl | hy
    · exact (before_unowned_iff hnone hnone').mpr hlt
    · have hy := of_decide_eq_true (mem_filter.mp hy).2
      exact (before_owned_iff hnone hy).mpr hlt.le
    · have hx := of_decide_eq_true (mem_filter.mp hx).2
      exact (owned_before_iff hx hnone').mpr hlt
    · have hx := of_decide_eq_true (mem_filter.mp hx).2
      have hy := of_decide_eq_true (mem_filter.mp hy).2
      exact (owned_before_owned_iff hx hy).mpr (.inl hlt)

theorem nodup_zipIdx (l : List α) : l.zipIdx.Nodup := by
  apply (pairwise_zipIdx l).imp
  rintro one other hlt rfl
  exact lt_irrefl _ hlt

theorem gather_perm (howners : Owners own l) : (gather own l).Perm l.zipIdx := by
  rw [perm_ext_iff_of_nodup (nodup_of_before (pairwise_gather own l)) (nodup_zipIdx l)]
  intro x
  simp only [gather, mem_flatMap, mem_filter, mem_cons, Option.isNone_iff_eq_none,
    decide_eq_true_eq]
  constructor
  · rintro ⟨entry, ⟨hentry, -⟩, rfl | ⟨hx, -⟩⟩
    · exact hentry
    · exact hx
  · intro hx
    cases hown : own x with
    | none => exact ⟨x, ⟨hx, hown⟩, .inl rfl⟩
    | some i =>
      obtain ⟨a, ha, hnone⟩ := howners x hx i hown
      exact ⟨(a, i), ⟨List.mem_zipIdx_iff_getElem?.mpr ha, hnone⟩, .inr ⟨hx, rfl⟩⟩

theorem gather_filter_unowned (howners : Owners own l) :
    (gather own l).filter (fun entry => (own entry).isNone) =
      l.zipIdx.filter fun entry => (own entry).isNone :=
  eq_of_before ((gather_perm howners).filter _) ((pairwise_gather own l).filter _)
    (pairwise_filter_unowned own l)

theorem gather_filter_owned (howners : Owners own l) (i : ℕ) :
    (gather own l).filter (fun owned => own owned = some i) =
      l.zipIdx.filter fun owned => own owned = some i :=
  eq_of_before ((gather_perm howners).filter _) ((pairwise_gather own l).filter _)
    (pairwise_filter_owned own l i)

theorem gather_split {a : α} (ha : l[i]? = some a) (hnone : own (a, i) = none) :
    ∃ front back, gather own l =
      front ++ (a, i) :: (l.zipIdx.filter fun owned => own owned = some i) ++ back := by
  have hkept : (a, i) ∈ l.zipIdx.filter fun entry => (own entry).isNone := by
    refine mem_filter.mpr ⟨List.mem_zipIdx_iff_getElem?.mpr ha, ?_⟩
    rw [hnone]
    rfl
  obtain ⟨before, after, hsplit⟩ := append_of_mem hkept
  unfold gather
  rw [hsplit, flatMap_append, flatMap_cons]
  exact ⟨_, _, (append_assoc _ _ _).symm⟩

theorem Contiguous.pairwise (h : Contiguous own l) :
    l.zipIdx.Pairwise (Before own) := by
  refine (pairwise_zipIdx l).imp_of_mem ?_
  rintro ⟨a, j⟩ ⟨b, k⟩ hone hother hlt
  have ha := List.mem_zipIdx_iff_getElem?.mp hone
  have hb := List.mem_zipIdx_iff_getElem?.mp hother
  simp only at ha hb hlt
  cases hown : own (a, j) with
  | none =>
    cases hown' : own (b, k) with
    | none => exact (before_unowned_iff hown hown').mpr hlt
    | some i =>
      obtain ⟨-, hbetw⟩ := h b k i hb hown'
      refine (before_owned_iff hown hown').mpr (not_lt.mp fun hij => ?_)
      have howned := hbetw a j hij hlt ha
      rw [hown] at howned
      cases howned
  | some i =>
    obtain ⟨hij, -⟩ := h a j i ha hown
    cases hown' : own (b, k) with
    | none => exact (owned_before_iff hown hown').mpr (hij.trans hlt)
    | some i' =>
      obtain ⟨hik, hbetw⟩ := h b k i' hb hown'
      refine (owned_before_owned_iff hown hown').mpr ?_
      by_cases hi : i = i'
      · exact .inr ⟨hi, hlt⟩
      -- An entry of another owner lies before the owner of the later one.
      · have hji : j ≤ i' := by
          refine not_lt.mp fun hji => hi ?_
          have howned := hbetw a j hji hlt ha
          rw [hown] at howned
          exact Option.some.inj howned
        exact .inl (hij.trans_le hji)

theorem gather_of_contiguous (howners : Owners own l) (h : Contiguous own l) :
    gather own l = l.zipIdx :=
  eq_of_before (gather_perm howners) (pairwise_gather own l) h.pairwise

end OwnerGroups
