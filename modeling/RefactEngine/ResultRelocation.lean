import RefactEngine.HistoryPairing
import RefactEngine.OwnerGroups

/-! # Relocating results is a stable permutation

A result is owned by the message it is anchored to, so relocation gathers the messages behind their
owners. What comes out is contiguous again.
-/
namespace ResultRelocation

open HistoryRepair OwnerGroups List

variable {messages : List ChatMessage}

def relocatedEntries (messages : List ChatMessage) : List (ChatMessage × ℕ) :=
  gather (owner messages) messages

theorem relocatedEntries_map (messages : List ChatMessage) :
    (relocatedEntries messages).map Prod.fst = relocateToolResultsAfterTheirCalls messages := by
  rw [relocate_eq, unblock, blocksOf, flatMap_map, relocatedEntries, gather,
    map_flatMap]
  rfl

theorem owners_owner (messages : List ChatMessage) : Owners (owner messages) messages := by
  rintro ⟨m, j⟩ - i howner
  obtain ⟨-, a, ha, hcall⟩ := declaresIdx_of_owner howner
  exact ⟨a, ha, owner_of_role (declaresCall_role hcall)⟩

theorem declares_of_owner {m a : ChatMessage} {j i : ℕ} (howner : owner messages (m, j) = some i)
    (ha : messages[i]? = some a) :
    m.answers m.toolCallId = true ∧ a.declaresCall m.toolCallId = true := by
  obtain ⟨hans, b, hb, hcall⟩ := declaresIdx_of_owner howner
  refine ⟨hans, ?_⟩
  obtain rfl := Option.some.inj (ha.symm.trans hb)
  exact hcall

section Blocks

variable {α : Type*} {before behind after : List α} {first : α}

theorem getElem?_block {t : ℕ} {r : α} (hr : behind[t]? = some r) :
    (before ++ first :: behind ++ after)[before.length + 1 + t]? = some r := by
  obtain ⟨ht, -⟩ := List.getElem?_eq_some_iff.mp hr
  rw [append_assoc, List.getElem?_append_right (by omega), cons_append,
    show before.length + 1 + t - before.length = t + 1 by omega, List.getElem?_cons_succ,
    List.getElem?_append_left ht]
  exact hr

theorem getElem?_head : (before ++ first :: behind ++ after)[before.length]? = some first := by
  rw [append_assoc, List.getElem?_append_right le_rfl, Nat.sub_self]
  rfl

theorem block_of_between {k t : ℕ} {r b : α} (hr : behind[t]? = some r)
    (hk : before.length < k) (hkt : k < before.length + 1 + t)
    (hb : (before ++ first :: behind ++ after)[k]? = some b) :
    behind[k - (before.length + 1)]? = some b := by
  obtain ⟨ht, -⟩ := List.getElem?_eq_some_iff.mp hr
  have hsome := List.getElem?_eq_getElem (l := behind) (i := k - (before.length + 1)) (by omega)
  have hsame : (before ++ first :: behind ++ after)[before.length + 1 + (k - (before.length + 1))]? =
      _ := getElem?_block hsome
  rw [show before.length + 1 + (k - (before.length + 1)) = k by omega, hb] at hsame
  rw [hsome, hsame]

variable {front block back : List ChatMessage} {a : ChatMessage}

theorem owner_block (hblock : ∀ r ∈ block, r.answers r.toolCallId = true ∧
      a.declaresCall r.toolCallId = true) {t : ℕ} {r : ChatMessage} (hr : block[t]? = some r) :
    owner (front ++ a :: block ++ back) (r, front.length + 1 + t) = some front.length := by
  obtain ⟨hans, hcall⟩ := hblock r (mem_of_getElem? hr)
  refine owner_some.mpr ⟨hans, ownerFor_some.mpr (.inl ⟨by omega, ⟨a, getElem?_head, hcall⟩, ?_⟩)⟩
  rintro k hfront hk ⟨b, hb, hdecl⟩
  have hmem := mem_of_getElem? (block_of_between hr hfront hk hb)
  exact not_declaresIdx_result hb (answers_iff.mp (hblock b hmem).1).1 ⟨b, hb, hdecl⟩

end Blocks

theorem unowned_relocated {m : ChatMessage} {j p : ℕ} (hj : messages[j]? = some m)
    (howner : owner messages (m, j) = none) :
    owner (relocateToolResultsAfterTheirCalls messages) (m, p) = none := by
  rw [Option.eq_none_iff_forall_ne_some]
  intro q hq
  obtain ⟨hans, a, ha, hcall⟩ := declaresIdx_of_owner hq
  have hperm := (gather_perm (owners_owner messages)).map Prod.fst
  rw [← relocatedEntries, relocatedEntries_map, zipIdx_map_fst] at hperm
  obtain ⟨k, hk⟩ := mem_iff_getElem?.mp (hperm.mem_iff.mp (mem_of_getElem? ha))
  have hnone := ownerFor_none.mp ((owner_none hans).mp howner)
  by_cases hkj : k = j
  · subst hkj
    exact not_declaresIdx_result hj (answers_iff.mp hans).1 ⟨a, hk, hcall⟩
  · exact hnone k hkj ⟨a, hk, hcall⟩

theorem relocated_block {m : ChatMessage} {j p i : ℕ}
    (hentry : (relocatedEntries messages)[p]? = some (m, j)) (hj : messages[j]? = some m)
    (hown : owner messages (m, j) = some i) :
    ∃ front a block back t,
      relocateToolResultsAfterTheirCalls messages = front ++ a :: block ++ back ∧
      (∀ r ∈ block, r.answers r.toolCallId = true ∧ a.declaresCall r.toolCallId = true) ∧
      block[t]? = some m ∧ p = front.length + 1 + t := by
  have hmem : (m, j) ∈ messages.zipIdx := List.mem_zipIdx_iff_getElem?.mpr hj
  obtain ⟨a, ha, hnone⟩ := owners_owner messages (m, j) hmem i hown
  obtain ⟨front, back, hsplit⟩ := gather_split ha hnone
  generalize hbehind : (messages.zipIdx.filter fun owned => owner messages owned = some i) =
    behind at hsplit
  have hin : (m, j) ∈ behind := by
    rw [← hbehind]
    exact mem_filter.mpr ⟨hmem, decide_eq_true hown⟩
  obtain ⟨t, ht⟩ := mem_iff_getElem?.mp hin
  refine ⟨front.map Prod.fst, a, behind.map Prod.fst, back.map Prod.fst, t, ?_, ?_, ?_, ?_⟩
  · rw [← relocatedEntries_map, relocatedEntries, hsplit]
    simp only [map_append, map_cons]
  · intro r hr
    obtain ⟨⟨r, k⟩, hentry, rfl⟩ := mem_map.mp hr
    rw [← hbehind] at hentry
    exact declares_of_owner (of_decide_eq_true (mem_filter.mp hentry).2) ha
  · rw [List.getElem?_map, ht]
    rfl
  · -- No entry is there twice, so the positions agree.
    have hlt := (List.getElem?_eq_some_iff.mp hentry).1
    rw [length_map]
    apply (List.getElem?_inj hlt (nodup_of_before (pairwise_gather _ _))).mp
    rw [hentry, relocatedEntries, hsplit, getElem?_block ht]

theorem contiguous_relocated (messages : List ChatMessage) :
    Contiguous (owner (relocateToolResultsAfterTheirCalls messages))
      (relocateToolResultsAfterTheirCalls messages) := by
  intro m p q hp howner
  have hentry := hp
  rw [← relocatedEntries_map, List.getElem?_map, Option.map_eq_some_iff] at hentry
  obtain ⟨⟨m, j⟩, hentry, rfl⟩ := hentry
  have hj : messages[j]? = some m := List.mem_zipIdx_iff_getElem?.mp
    ((gather_perm (owners_owner messages)).mem_iff.mp (mem_of_getElem? hentry))
  cases hown : owner messages (m, j) with
  | none =>
    rw [unowned_relocated hj hown] at howner
    cases howner
  | some i =>
    obtain ⟨front, a, block, back, t, hout, hblock, ht, rfl⟩ := relocated_block hentry hj hown
    rw [hout, owner_block hblock ht] at howner
    obtain rfl := Option.some.inj howner
    rw [hout]
    refine ⟨by omega, fun b k hk hkp hb => ?_⟩
    rw [show k = front.length + 1 + (k - (front.length + 1)) by omega]
    exact owner_block hblock (block_of_between ht hk hkp hb)

/-- The nearest assistant before the result that declares its call, else the nearest after it. -/
def NearestCaller (messages : List ChatMessage) (result : ChatMessage) (j i : ℕ) : Prop :=
  let declares := DeclaresIdx messages result.toolCallId
  result.answers result.toolCallId = true ∧ declares i ∧
    (i < j ∧ (∀ k, i < k → k < j → ¬ declares k) ∨
      j < i ∧ ∀ k, k < i → k ≠ j → ¬ declares k)

theorem owner_iff {m : ChatMessage} {j i : ℕ} :
    owner messages (m, j) = some i ↔ NearestCaller messages m j i := by
  rw [owner_some, ownerFor_some, NearestCaller]
  refine and_congr_right fun _ => ⟨?_, ?_⟩
  · rintro (⟨hij, hi, hlast⟩ | ⟨hji, hi, hbefore, hfirst⟩)
    · exact ⟨hi, Or.inl ⟨hij, hlast⟩⟩
    · refine ⟨hi, Or.inr ⟨hji, fun k hki hkj => ?_⟩⟩
      rcases Nat.lt_or_gt_of_ne hkj with hless | hmore
      · exact hbefore k hless
      · exact hfirst k hmore hki
  · rintro ⟨hi, ⟨hij, hlast⟩ | ⟨hji, hnone⟩⟩
    · exact Or.inl ⟨hij, hi, hlast⟩
    · exact Or.inr ⟨hji, hi, fun k hkj => hnone k (by omega) (by omega),
        fun k hjk hki => hnone k hki (by omega)⟩

/-- The output as entries of the input: each once, those that nobody owns in their order, and
behind each message what it owns in its order. -/
structure Stable (messages : List ChatMessage) (entries : List (ChatMessage × ℕ)) : Prop where
  perm : entries.Perm messages.zipIdx
  unowned_order : entries.filter (fun entry => (owner messages entry).isNone) =
    messages.zipIdx.filter fun entry => (owner messages entry).isNone
  owned_order : ∀ i, entries.filter (fun entry => owner messages entry = some i) =
    messages.zipIdx.filter fun entry => owner messages entry = some i
  owners : ∀ entry ∈ messages.zipIdx, ∀ i, owner messages entry = some i →
    ∃ a front back, messages[i]? = some a ∧ a.declaresCall entry.1.toolCallId = true ∧
      entries = front ++ (a, i) ::
        (messages.zipIdx.filter fun owned => owner messages owned = some i) ++ back

theorem stable_relocatedEntries (messages : List ChatMessage) :
    Stable messages (relocatedEntries messages) where
  perm := gather_perm (owners_owner messages)
  unowned_order := gather_filter_unowned (owners_owner messages)
  owned_order := gather_filter_owned (owners_owner messages)
  owners entry hentry i howner := by
    obtain ⟨a, ha, hnone⟩ := owners_owner messages entry hentry i howner
    obtain ⟨front, back, hsplit⟩ := gather_split ha hnone
    exact ⟨a, front, back, ha, (declares_of_owner howner ha).2, hsplit⟩

theorem relocate_of_contiguous (h : Contiguous (owner messages) messages) :
    relocateToolResultsAfterTheirCalls messages = messages := by
  rw [← relocatedEntries_map, relocatedEntries, gather_of_contiguous (owners_owner messages) h,
    zipIdx_map_fst]

/-- For every list of messages, whose results are owned by their nearest callers: relocation is a
stable permutation, twice is once, and what is contiguous stays as it is. -/
theorem relocation_stable (messages : List ChatMessage) :
    (∀ m j i, owner messages (m, j) = some i ↔ NearestCaller messages m j i) ∧
    (∃ entries, Stable messages entries ∧
      entries.map Prod.fst = relocateToolResultsAfterTheirCalls messages) ∧
    relocateToolResultsAfterTheirCalls (relocateToolResultsAfterTheirCalls messages) =
      relocateToolResultsAfterTheirCalls messages ∧
    (Contiguous (owner messages) messages →
      relocateToolResultsAfterTheirCalls messages = messages) :=
  ⟨fun _ _ _ => owner_iff, ⟨relocatedEntries messages, stable_relocatedEntries messages, relocatedEntries_map messages⟩,
    relocate_of_contiguous (contiguous_relocated messages), relocate_of_contiguous⟩

end ResultRelocation
