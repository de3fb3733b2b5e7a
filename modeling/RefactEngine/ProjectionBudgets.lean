import RefactEngine.LongestRuns
import RefactEngine.ProjectedRoles
import Mathlib.Algebra.Order.Ring.Nat

/-! # How many updates a projection keeps

A projection that starts from a checkpoint goes on where the one that made the checkpoint stopped.
-/
namespace ProjectionBudgets

open ProjectedRoles LongestRuns List

variable {role : ProjectedRole} {base : ApprovedBase} {prefold : Option CheckpointProvenance}
  {deltas : List ProjectedDelta} {limits : ProjectionLimits}

def notesLength (deltas : List ProjectedDelta) (k : ℕ) : ℕ :=
  ((deltas.drop (deltas.length - k)).map fun delta => delta.note.length).sum + 2 * (k - 1)

def totalLength (role : ProjectedRole) (base : ApprovedBase)
    (prefold : Option CheckpointProvenance) (deltas : List ProjectedDelta) (k : ℕ) : ℕ :=
  let foldedNew := deltas.length - k
  let header := checkpointHeader role base (revisionForFold prefold deltas foldedNew)
    (prefoldCount prefold + foldedNew) (prefoldCount prefold + deltas.length)
  base.body.length + baseSeparator.length + header.length + 2 + notesLength deltas k

theorem notesLength_succ {k : ℕ} (hk : k < deltas.length) :
    notesLength deltas (k + 1) = notesLength deltas k +
      (deltas[deltas.length - (k + 1)]?.elim 0 fun delta => delta.note.length) +
        if k + 1 = 1 then 0 else 2 := by
  have hlt : deltas.length - (k + 1) < deltas.length := by omega
  have hnext : deltas.length - (k + 1) + 1 = deltas.length - k := by omega
  rw [notesLength, notesLength, drop_eq_getElem_cons hlt, hnext, map_cons,
    sum_cons, List.getElem?_eq_getElem hlt, Option.elim_some]
  by_cases hzero : k = 0
  · rw [if_pos (by omega)]
    omega
  · rw [if_neg (by omega)]
    omega

theorem keepNewest_spec (role : ProjectedRole) (base : ApprovedBase)
    (prefold : Option CheckpointProvenance) (deltas : List ProjectedDelta)
    (limits : ProjectionLimits) (steps : ℕ) : ∀ kept, kept + steps ≤ deltas.length →
    ∃ k, keepNewest role base prefold deltas limits steps (kept + 1) kept
        (notesLength deltas kept) = k ∧ kept ≤ k ∧ k ≤ kept + steps ∧
      (∀ j, kept < j → j ≤ k → totalLength role base prefold deltas j ≤ limits.maxChars) ∧
      (k = kept + steps ∨ ¬ totalLength role base prefold deltas (k + 1) ≤ limits.maxChars) := by
  induction steps with
  | zero =>
    intro kept _
    exact ⟨kept, rfl, le_refl _, le_refl _, fun j hj hjk => absurd hjk (by omega), .inl rfl⟩
  | succ steps ih =>
    intro kept hkept
    have htotal : totalLength role base prefold deltas (kept + 1) =
        base.body.length + baseSeparator.length + (checkpointHeader role base
          (revisionForFold prefold deltas (deltas.length - (kept + 1)))
          (prefoldCount prefold + (deltas.length - (kept + 1)))
          (prefoldCount prefold + deltas.length)).length + 2 + notesLength deltas (kept + 1) := rfl
    rw [keepNewest]
    rw [← notesLength_succ (by omega), ← htotal]
    by_cases hfits : limits.maxChars < totalLength role base prefold deltas (kept + 1)
    · rw [if_pos hfits]
      exact ⟨kept, rfl, le_refl _, by omega, fun j hj hjk => absurd hjk (by omega),
        .inr (by omega)⟩
    · rw [if_neg hfits]
      obtain ⟨k, heq, hle, hbound, hall, hstop⟩ := ih (kept + 1) (by omega)
      refine ⟨k, heq, by omega, by omega, fun j hj hjk => ?_, ?_⟩
      · by_cases hj1 : j = kept + 1
        · rw [hj1]
          omega
        · exact hall j (by omega) hjk
      · rcases hstop with hstop | hstop
        · exact .inl (by omega)
        · exact .inr hstop

theorem keptCount_isLongestRun (role : ProjectedRole) (base : ApprovedBase)
    (prefold : Option CheckpointProvenance) (deltas : List ProjectedDelta)
    (limits : ProjectionLimits) :
    IsLongestRun (fun j => totalLength role base prefold deltas j ≤ limits.maxChars)
      (min limits.checkpointAfterDeltas deltas.length)
      (keptCount role base prefold deltas limits) := by
  have hzero : notesLength deltas 0 = 0 := by simp [notesLength]
  obtain ⟨k, heq, -, hbound, hall, hstop⟩ := keepNewest_spec role base prefold deltas limits
    (min limits.checkpointAfterDeltas deltas.length) 0 (by omega)
  rw [hzero] at heq
  rw [Nat.zero_add] at heq hbound hstop
  have hkept : keptCount role base prefold deltas limits = k := heq
  rw [hkept]
  exact ⟨hbound, fun j hj hjk => hall j (by omega) hjk, hstop⟩

theorem revisionAt_drop {n m : ℕ} (hm : 0 < m) :
    revisionAt (deltas.drop n) m = revisionAt deltas (n + m) := by
  rw [revisionAt, revisionAt, if_neg (by omega), if_neg (by omega), List.getElem?_drop]
  congr 2
  omega

structure Folds (prefold : Option CheckpointProvenance) (deltas : List ProjectedDelta) (n : ℕ)
    (provenance : CheckpointProvenance) : Prop where
  pos : 0 < n
  le : n ≤ deltas.length
  folded : provenance.foldedDeltas = prefoldCount prefold + n
  revision : provenance.revision = revisionAt deltas n

section Resume

variable {n : ℕ} {provenance : CheckpointProvenance} (folds : Folds prefold deltas n provenance)

include folds

theorem revisionForFold_resume (m : ℕ) : revisionForFold (some provenance) (deltas.drop n) m =
      revisionForFold prefold deltas (n + m) := by
  have hpos := folds.pos
  have hne : n + m ≠ 0 := by omega
  rw [revisionForFold, revisionForFold, if_neg hne]
  by_cases hm : m = 0
  · rw [if_pos hm, hm, Option.elim_some, folds.revision, Nat.add_zero]
  · rw [if_neg hm, revisionAt_drop (by omega)]

omit folds in
theorem notesLength_drop {j : ℕ} (hn : n ≤ deltas.length) (hj : j ≤ deltas.length - n) :
    notesLength (deltas.drop n) j = notesLength deltas j := by
  have hindex : n + (deltas.length - n - j) = deltas.length - j := by omega
  rw [notesLength, notesLength, drop_drop, length_drop, hindex]

theorem totalLength_resume {j : ℕ} (hj : j ≤ deltas.length - n) :
    totalLength role base (some provenance) (deltas.drop n) j =
      totalLength role base prefold deltas j := by
  have hle := folds.le
  have hnew : n + (deltas.length - n - j) = deltas.length - j := by omega
  have hfolded : prefoldCount (some provenance) + (deltas.length - n - j) =
      prefoldCount prefold + (deltas.length - j) := by
    rw [prefoldCount, Option.elim_some, folds.folded]
    omega
  have hcount : prefoldCount (some provenance) + (deltas.length - n) =
      prefoldCount prefold + deltas.length := by
    rw [prefoldCount, Option.elim_some, folds.folded]
    omega
  rw [totalLength, totalLength, notesLength_drop hle hj, length_drop,
    revisionForFold_resume folds, hnew, hfolded, hcount]

theorem keptCount_resume (hkept : keptCount role base prefold deltas limits ≤ deltas.length - n) :
    keptCount role base (some provenance) (deltas.drop n) limits =
      keptCount role base prefold deltas limits := by
  have hrun := keptCount_isLongestRun role base prefold deltas limits
  have hbound := hrun.le
  have hresumed := keptCount_isLongestRun role base (some provenance) (deltas.drop n) limits
  rw [length_drop] at hresumed
  refine hresumed.unique (hrun.of_agree (by omega) (by omega) fun j _ hj => ?_)
  rw [totalLength_resume folds (by omega)]

theorem checkpointedProjection_resume
    (hkept : keptCount role base prefold deltas limits ≤ deltas.length - n) :
    checkpointedProjection role base (some provenance) (deltas.drop n) limits =
      checkpointedProjection role base prefold deltas limits := by
  have hle := folds.le
  have hnew : n + (deltas.length - n - keptCount role base prefold deltas limits) =
      deltas.length - keptCount role base prefold deltas limits := by omega
  have hfolded : prefoldCount (some provenance) +
      (deltas.length - n - keptCount role base prefold deltas limits) =
        prefoldCount prefold + (deltas.length - keptCount role base prefold deltas limits) := by
    rw [prefoldCount, Option.elim_some, folds.folded]
    omega
  have hcount : prefoldCount (some provenance) + (deltas.length - n) =
      prefoldCount prefold + deltas.length := by
    rw [prefoldCount, Option.elim_some, folds.folded]
    omega
  rw [checkpointedProjection, checkpointedProjection]
  simp only [keptCount_resume folds hkept, length_drop, drop_drop,
    revisionForFold_resume folds, hnew, hfolded, hcount]

end Resume

theorem repr_length_mono {a b : ℕ} (h : a ≤ b) : a.repr.length ≤ b.repr.length := by
  have hb : b < 10 ^ b.repr.length :=
    (Nat.length_repr_le_iff Nat.length_repr_pos).mp (le_refl b.repr.length)
  exact (Nat.length_repr_le_iff Nat.length_repr_pos).mpr (by omega)

theorem checkpointHeader_length_mono (revision folded : ℕ) {total total' : ℕ}
    (h : total ≤ total') :
    (checkpointHeader role base revision folded total).length ≤
      (checkpointHeader role base revision folded total').length := by
  have hrepr := repr_length_mono h
  unfold checkpointHeader
  simp only [String.length_append]
  omega

variable (more : List ProjectedDelta)

theorem notesLength_append {k : ℕ} (hk : k ≤ deltas.length) :
    notesLength deltas k ≤ notesLength (deltas ++ more) (k + more.length) := by
  have hindex : (deltas ++ more).length - (k + more.length) = deltas.length - k := by
    rw [length_append]
    omega
  rw [notesLength, notesLength, hindex, drop_append_of_le_length (by omega), map_append,
    sum_append]
  omega

/-- With more updates the ones that did not fit fit even less. -/
theorem totalLength_append {k : ℕ} (hk : k < deltas.length) :
    totalLength role base prefold deltas (k + 1) ≤
      totalLength role base prefold (deltas ++ more) (k + 1 + more.length) := by
  have hindex : (deltas ++ more).length - (k + 1 + more.length) = deltas.length - (k + 1) := by
    rw [length_append]
    omega
  have hrevision : revisionForFold prefold (deltas ++ more) (deltas.length - (k + 1)) =
      revisionForFold prefold deltas (deltas.length - (k + 1)) := by
    rw [revisionForFold, revisionForFold]
    by_cases hzero : deltas.length - (k + 1) = 0
    · rw [if_pos hzero, if_pos hzero]
    · rw [if_neg hzero, if_neg hzero, revisionAt, revisionAt, if_neg hzero, if_neg hzero,
        List.getElem?_append_left (by omega)]
  have hnotes : notesLength deltas (k + 1) ≤
      notesLength (deltas ++ more) (k + 1 + more.length) := notesLength_append more (by omega)
  have hcount : prefoldCount prefold + deltas.length ≤
      prefoldCount prefold + (deltas ++ more).length := by
    rw [length_append]
    omega
  have hheader : (checkpointHeader role base
      (revisionForFold prefold deltas (deltas.length - (k + 1)))
      (prefoldCount prefold + (deltas.length - (k + 1)))
      (prefoldCount prefold + deltas.length)).length ≤ _ :=
    checkpointHeader_length_mono _ _ hcount
  rw [totalLength, totalLength, hindex, hrevision]
  omega

theorem keptCount_append (hfolds : keptCount role base prefold deltas limits < deltas.length) :
    keptCount role base prefold (deltas ++ more) limits ≤
      keptCount role base prefold deltas limits + more.length := by
  have hrun := keptCount_isLongestRun role base prefold deltas limits
  have hmore := keptCount_isLongestRun role base prefold (deltas ++ more) limits
  have hbound := hmore.le
  rcases hrun.stops with heq | hstop
  · omega
  · apply hmore.le_of_stops
    have htotal : totalLength role base prefold deltas _ ≤ _ := totalLength_append more hfolds
    have hcomm : keptCount role base prefold deltas limits + more.length + 1 =
        keptCount role base prefold deltas limits + 1 + more.length := by omega
    rw [hcomm]
    omega

theorem joinNotes_length_mono (hdeltas : deltas ≠ []) :
    (joinNotes deltas).length ≤ (joinNotes (deltas ++ more)).length := by
  by_cases hmore : more = []
  · rw [hmore, append_nil]
  · rw [joinNotes, joinNotes, map_append, String.intercalate_append_of_ne_nil
      (by simpa using hdeltas) (by simpa using hmore), String.length_append, String.length_append]
    omega

theorem rendersFull_of_append (hdeltas : deltas ≠ [])
    (h : rendersFull role base prefold (deltas ++ more) limits = true) :
    rendersFull role base prefold deltas limits = true := by
  have hnotes := joinNotes_length_mono more hdeltas
  simp only [rendersFull, Bool.and_eq_true, decide_eq_true_eq, length_append, fullText,
    String.length_append] at h ⊢
  refine ⟨⟨h.1.1, by simpa using hdeltas⟩, ?_, ?_⟩ <;> omega

def provenanceOf (base : ApprovedBase) (prefold : Option CheckpointProvenance)
    (deltas : List ProjectedDelta) (kept : ℕ) : CheckpointProvenance where
  revision := revisionForFold prefold deltas (deltas.length - kept)
  foldedDeltas := prefoldCount prefold + (deltas.length - kept)
  approvedMessageId := base.messageId
  approvedVersion := base.version
  approvedBy := base.mode
  approvedAtMs := base.createdAtMs

theorem provenanceOf_folded (kept : ℕ) :
    (provenanceOf base prefold deltas kept).foldedDeltas =
      prefoldCount prefold + (deltas.length - kept) := rfl

theorem checkpointedProjection_checkpoint :
    (checkpointedProjection role base prefold deltas limits).checkpoint =
      some (provenanceOf base prefold deltas (keptCount role base prefold deltas limits)) := rfl

theorem projection_eq_checkpointed {provenance : CheckpointProvenance}
    (h : (projectRoleWithPrefold role base prefold deltas limits).checkpoint = some provenance) :
    projectRoleWithPrefold role base prefold deltas limits =
        checkpointedProjection role base prefold deltas limits ∧
      rendersFull role base prefold deltas limits = false ∧
      provenance = provenanceOf base prefold deltas
        (keptCount role base prefold deltas limits) := by
  unfold projectRoleWithPrefold at h ⊢
  by_cases hcount : prefoldCount prefold + deltas.length = 0
  · rw [if_pos hcount] at h
    exact absurd h (by simp)
  · rw [if_neg hcount] at h ⊢
    by_cases hfull : rendersFull role base prefold deltas limits = true
    · rw [if_pos hfull] at h
      exact absurd h (by simp)
    · rw [if_neg hfull] at h ⊢
      rw [checkpointedProjection_checkpoint] at h
      exact ⟨rfl, by simpa using hfull, (Option.some.inj h).symm⟩

section FoldingProjection

variable {provenance : CheckpointProvenance}
  (hcheckpoint :
    (projectRoleWithPrefold role base prefold deltas limits).checkpoint = some provenance)
  (hnew : 0 < provenance.foldedDeltas - prefoldCount prefold)
include hcheckpoint hnew

theorem newly_folded_eq : provenance.foldedDeltas - prefoldCount prefold =
    deltas.length - keptCount role base prefold deltas limits := by
  obtain ⟨-, -, rfl⟩ := projection_eq_checkpointed hcheckpoint
  rw [provenanceOf_folded]
  omega

theorem kept_lt_length : keptCount role base prefold deltas limits < deltas.length := by
  have h := newly_folded_eq hcheckpoint hnew
  omega

theorem folds_of_checkpoint :
    Folds prefold deltas (provenance.foldedDeltas - prefoldCount prefold) provenance := by
  have heq := newly_folded_eq hcheckpoint hnew
  obtain ⟨-, -, hprovenance⟩ := projection_eq_checkpointed hcheckpoint
  refine ⟨hnew, by omega, by omega, ?_⟩
  rw [heq, hprovenance, provenanceOf, revisionForFold, if_neg (by omega)]

variable (more : List ProjectedDelta)

theorem folds_append :
    Folds prefold (deltas ++ more) (provenance.foldedDeltas - prefoldCount prefold)
      provenance := by
  have folds := folds_of_checkpoint hcheckpoint hnew
  have hle := folds.le
  refine ⟨folds.pos, ?_, folds.folded, ?_⟩
  · rw [length_append]
    omega
  · rw [folds.revision, revisionAt, revisionAt, if_neg (by omega), if_neg (by omega),
      List.getElem?_append_left (by omega)]

theorem projection_append : projectRoleWithPrefold role base prefold (deltas ++ more) limits =
      checkpointedProjection role base prefold (deltas ++ more) limits := by
  have hlt := kept_lt_length hcheckpoint hnew
  obtain ⟨-, hfull, -⟩ := projection_eq_checkpointed hcheckpoint
  have hne : deltas ≠ [] := ne_nil_of_length_pos (by omega)
  unfold projectRoleWithPrefold
  rw [if_neg (by rw [length_append]; omega), if_neg]
  intro hmore
  rw [rendersFull_of_append more hne hmore] at hfull
  exact absurd hfull (by simp)

theorem projection_resume : projectRoleWithPrefold role base (some provenance)
        (deltas.drop (provenance.foldedDeltas - prefoldCount prefold) ++ more) limits =
      projectRoleWithPrefold role base prefold (deltas ++ more) limits := by
  have folds := folds_append hcheckpoint hnew more
  have heq := newly_folded_eq hcheckpoint hnew
  have hlt := kept_lt_length hcheckpoint hnew
  have hkept : keptCount role base prefold (deltas ++ more) limits ≤
      keptCount role base prefold deltas limits + more.length := keptCount_append more hlt
  have hdrop : deltas.drop (provenance.foldedDeltas - prefoldCount prefold) ++ more =
      (deltas ++ more).drop (provenance.foldedDeltas - prefoldCount prefold) :=
    (drop_append_of_le_length (by omega)).symm
  have hcount : prefoldCount (some provenance) ≠ 0 := by
    rw [prefoldCount, Option.elim_some]
    omega
  rw [projection_append hcheckpoint hnew, hdrop, ← checkpointedProjection_resume folds
    (by rw [length_append]; omega)]
  unfold projectRoleWithPrefold
  rw [if_neg (by omega), if_neg (by simp [rendersFull])]

theorem folded_append_le : prefoldCount prefold + (provenance.foldedDeltas - prefoldCount prefold) ≤
      (provenanceOf base prefold (deltas ++ more)
        (keptCount role base prefold (deltas ++ more) limits)).foldedDeltas := by
  have heq := newly_folded_eq hcheckpoint hnew
  have hlt := kept_lt_length hcheckpoint hnew
  have hkept : keptCount role base prefold (deltas ++ more) limits ≤
      keptCount role base prefold deltas limits + more.length := keptCount_append more hlt
  rw [provenanceOf_folded, length_append]
  omega

theorem provenanceOf_append {kept : ℕ}
    (h : (provenanceOf base prefold (deltas ++ more) kept).foldedDeltas = provenance.foldedDeltas) :
    provenanceOf base prefold (deltas ++ more) kept = provenance := by
  have folds := folds_append hcheckpoint hnew more
  obtain ⟨-, -, heq⟩ := projection_eq_checkpointed hcheckpoint
  rw [provenanceOf_folded] at h
  have hrevision : revisionForFold prefold (deltas ++ more) ((deltas ++ more).length - kept) =
      provenance.revision := by
    have hindex : (deltas ++ more).length - kept =
        provenance.foldedDeltas - prefoldCount prefold := by omega
    rw [hindex, revisionForFold, if_neg (by omega), folds.revision]
  rw [provenanceOf, hrevision, h, heq]
  rfl

end FoldingProjection

end ProjectionBudgets
