import RefactEngine.RoleFolds

/-! # Folded histories

A fold of a folded history that went on is the fold of the history itself, and no update is lost:
the updates that are left and the count of the checkpoint make up all of them.
-/
namespace FoldedHistories

open JsonValues ProjectedRoles ProjectionBudgets RoleFolds List

variable {F : Type} {role : ProjectedRole} {limits : ProjectionLimits}

section CheckpointMessage

variable {base : ApprovedBase} {provenance : CheckpointProvenance} {first last : String}

theorem asU32_nat {n : ℕ} (hn : n < 2 ^ 32) : Json.asU32 (F := F) (.nat n) = some n := by
  rw [Json.asU32, Json.asU64, Option.filter_some, if_pos (decide_eq_true hn)]

theorem read_writeProvenance (hver : provenance.approvedVersion < 2 ^ 32) :
    readProvenance (writeProvenance (F := F) provenance) = some provenance := by
  simp [readProvenance, writeProvenance, lookup_cons, Json.asU64, Json.asStr,
    asU32_nat hver]

theorem checkpointProvenance_made (hver : provenance.approvedVersion < 2 ^ 32) :
    checkpointProvenance (makeCheckpointMessage (F := F) role base provenance first last) =
      some provenance := by
  have hread := read_writeProvenance (F := F) hver
  cases role <;>
    simp [checkpointProvenance, makeCheckpointMessage, event, ChatMessage.event,
      ChatMessage.payload, Json.get, Json.asStr, lookup_cons, isDeltaSubkind,
      ProjectedRole.deltaSubkind, hread]

theorem isDeltaKind_made : isDeltaKind
    (makeCheckpointMessage (F := F) role base provenance first last) role.deltaSubkind = true := by
  simp [isDeltaKind, makeCheckpointMessage, event, ChatMessage.event, Json.get, Json.asStr]

theorem firstFoldedId_made : (((makeCheckpointMessage (F := F) role base provenance first
    last).payload "first_folded_message_id").bind Json.asStr) = some first := by
  simp [makeCheckpointMessage, event, ChatMessage.event, ChatMessage.payload, Json.get, Json.asStr,
    lookup_cons]

theorem roleBaseVersion_made (other : ProjectedRole) : roleBaseVersion other
    (makeCheckpointMessage (F := F) role base provenance first last) = none := by
  cases other <;> simp [roleBaseVersion, makeCheckpointMessage, event, ProjectedRole.noun]

theorem isBaseCheckpoint_made (hver : provenance.approvedVersion < 2 ^ 32)
    (hid : provenance.approvedMessageId = base.messageId) : isBaseCheckpoint role base
      (makeCheckpointMessage (F := F) role base provenance first last) = true := by
  simp [isBaseCheckpoint, isRoleCheckpoint, isDeltaKind_made, checkpointProvenance_made hver,
    hid]

theorem not_update_made (hver : provenance.approvedVersion < 2 ^ 32) : isUpdate role
    (makeCheckpointMessage (F := F) role base provenance first last) = false := by
  simp [isUpdate, checkpointProvenance_made hver]

theorem roleBaseVersion_lt {x : ChatMessage F} {version : ℕ}
    (h : roleBaseVersion role x = some version) : version < 2 ^ 32 := by
  rw [roleBaseVersion] at h
  split_ifs at h
  obtain ⟨value, -, hvalue⟩ := Option.bind_eq_some_iff.mp h
  rw [Json.asU32, Option.filter_eq_some_iff] at hvalue
  exact of_decide_eq_true hvalue.2

end CheckpointMessage

theorem projectedDeltas_append (k : ℕ) (first second : List (ChatMessage F)) :
    projectedDeltas k (first ++ second) =
      projectedDeltas k first ++ projectedDeltas (k + first.length) second := by
  rw [projectedDeltas, zipIdx_append, map_append]
  rfl

theorem projectedDeltas_length (k : ℕ) (updates : List (ChatMessage F)) :
    (projectedDeltas k updates).length = updates.length := by
  rw [projectedDeltas, length_map, length_zipIdx]

theorem updatesOf_append (first second : List (ChatMessage F)) :
    updatesOf role (first ++ second) = updatesOf role first ++ updatesOf role second :=
  filter_append _ _

theorem updatesOf_split {w z : List (ChatMessage F)} {x : ChatMessage F}
    (hx : isUpdate role x = true) :
    updatesOf role (w ++ x :: z) = (updatesOf role w ++ [x]) ++ updatesOf role z := by
  rw [updatesOf_append, append_assoc, singleton_append]
  congr 1
  exact filter_cons_of_pos hx

theorem exists_split {n : ℕ} (hn : 0 < n) : ∀ messages : List (ChatMessage F),
    n ≤ (updatesOf role messages).length →
    ∃ w x z, messages = w ++ x :: z ∧ isUpdate role x = true ∧
      n = (updatesOf role w).length + 1 := by
  intro messages
  induction messages generalizing n with
  | nil =>
    intro h
    exact absurd h (by simp [updatesOf]; omega)
  | cons y messages ih =>
    intro h
    by_cases hy : isUpdate role y = true
    · have hcons : updatesOf role (y :: messages) = y :: updatesOf role messages :=
        filter_cons_of_pos hy
      rw [hcons, length_cons] at h
      by_cases hone : n = 1
      · exact ⟨[], y, messages, rfl, hy, hone⟩
      · obtain ⟨w, x, z, rfl, hx, heq⟩ := ih (n := n - 1) (by omega) (by omega)
        refine ⟨y :: w, x, z, rfl, hx, ?_⟩
        have hw : updatesOf role (y :: w) = y :: updatesOf role w := filter_cons_of_pos hy
        rw [hw, length_cons]
        omega
    · have hcons : updatesOf role (y :: messages) = updatesOf role messages :=
        filter_cons_of_neg hy
      rw [hcons] at h
      obtain ⟨w, x, z, rfl, hx, heq⟩ := ih hn h
      refine ⟨y :: w, x, z, rfl, hx, ?_⟩
      have hw : updatesOf role (y :: w) = updatesOf role w := filter_cons_of_neg hy
      rw [hw]
      exact heq

structure Folding (role : ProjectedRole) (limits : ProjectionLimits)
    (before : List (ChatMessage F)) (b : ChatMessage F) (settled w : List (ChatMessage F))
    (x : ChatMessage F) (z : List (ChatMessage F)) (provenance : CheckpointProvenance) :
    Prop where
  base : ∃ version, IsBase role before b (settled ++ (w ++ x :: z)) version
  parts : Parts role (approvedBase role b) (settled ++ (w ++ x :: z)) settled (w ++ x :: z)
  checkpoint :
    (projectionOf role (approvedBase role b) limits settled (w ++ x :: z)).checkpoint =
      some provenance
  update : isUpdate role x = true
  count : provenance.foldedDeltas - prefoldCount (prefoldOf settled) =
    (updatesOf role w).length + 1

def settledOf (role : ProjectedRole) (b : ChatMessage F) (settled w : List (ChatMessage F)) :
    List (ChatMessage F) :=
  (settled.filter fun y => !isBaseCheckpoint role (approvedBase role b) y) ++
    w.filter fun y => !isUpdate role y

def checkpointOf (role : ProjectedRole) (b : ChatMessage F) (settled w : List (ChatMessage F))
    (x : ChatMessage F) (provenance : CheckpointProvenance) : ChatMessage F :=
  makeCheckpointMessage role (approvedBase role b) provenance
    (firstFoldedId settled ((updatesOf role w).headD x)) x.messageId

theorem fold_cases (role : ProjectedRole) (limits : ProjectionLimits)
    (messages : List (ChatMessage F)) :
    foldRoleMessages role messages limits = messages ∨
      ∃ before b settled w x z provenance, messages = before ++ b :: (settled ++ (w ++ x :: z)) ∧
        Folding role limits before b settled w x z provenance := by
  cases hcur : currentBase role messages with
  | none =>
    left
    unfold foldRoleMessages
    simp only [hcur]
  | some current =>
    obtain ⟨b, i⟩ := current
    obtain ⟨before, behind, version, rfl, -, hbase⟩ := (currentBase_spec messages).2 b i hcur
    obtain ⟨settled, recent, parts⟩ := exists_parts role (approvedBase role b) behind
    by_cases hfolds : ∀ provenance,
        (projectionOf role (approvedBase role b) limits settled recent).checkpoint =
          some provenance → provenance.foldedDeltas - prefoldCount (prefoldOf settled) = 0
    · exact .inl (fold_unchanged hbase parts hfolds)
    · right
      push Not at hfolds
      obtain ⟨provenance, hcheck, hnew⟩ := hfolds
      have hle := (folds_of_checkpoint hcheck (by omega)).le
      rw [deltasOf, projectedDeltas_length] at hle
      obtain ⟨w, x, z, rfl, hx, hcount⟩ := exists_split (by omega) recent hle
      have hparts := parts.parts
      subst hparts
      exact ⟨before, b, settled, w, x, z, provenance, rfl, ⟨version, hbase⟩, parts, hcheck,
        hx, hcount⟩

section Folding

variable {before settled w z : List (ChatMessage F)} {b x : ChatMessage F}
  {provenance : CheckpointProvenance}

theorem Folding.fold_eq (h : Folding role limits before b settled w x z provenance) :
    foldRoleMessages role (before ++ b :: (settled ++ (w ++ x :: z))) limits =
      before ++ b :: (settledOf role b settled w ++
        checkpointOf role b settled w x provenance :: z) := by
  obtain ⟨version, hbase⟩ := h.base
  rw [fold_folded hbase h.parts h.checkpoint rfl h.update h.count, settledOf, append_assoc]
  rfl

theorem Folding.version_lt (h : Folding role limits before b settled w x z provenance) :
    provenance.approvedVersion < 2 ^ 32 := by
  obtain ⟨version, hbase⟩ := h.base
  obtain ⟨-, -, rfl⟩ := projection_eq_checkpointed h.checkpoint
  have hver : (approvedBase role b).version = version := by
    rw [approvedBase, hbase.base]
    rfl
  have hlt := roleBaseVersion_lt hbase.base
  rw [provenanceOf, hver]
  exact hlt

theorem Folding.id_eq (h : Folding role limits before b settled w x z provenance) :
    provenance.approvedMessageId = (approvedBase role b).messageId := by
  obtain ⟨-, -, rfl⟩ := projection_eq_checkpointed h.checkpoint
  rfl

theorem Folding.provenance_made (h : Folding role limits before b settled w x z provenance) :
    checkpointProvenance (checkpointOf role b settled w x provenance) = some provenance :=
  checkpointProvenance_made h.version_lt

theorem Folding.prefold_made (h : Folding role limits before b settled w x z provenance) :
    prefoldOf (settledOf role b settled w ++ [checkpointOf role b settled w x provenance]) =
      some provenance := by
  rw [prefoldOf, List.getLast?_concat, Option.bind_some, h.provenance_made]

theorem Folding.made_checkpoint (h : Folding role limits before b settled w x z provenance) :
    isBaseCheckpoint role (approvedBase role b) (checkpointOf role b settled w x provenance) =
      true :=
  isBaseCheckpoint_made h.version_lt h.id_eq

theorem Folding.parts_after (h : Folding role limits before b settled w x z provenance) :
    Parts role (approvedBase role b)
      (settledOf role b settled w ++ checkpointOf role b settled w x provenance :: z)
      (settledOf role b settled w ++ [checkpointOf role b settled w x provenance]) z where
  parts := by rw [append_assoc, singleton_append]
  recent y hy :=
    h.parts.recent y (mem_append_right _ (mem_cons_of_mem _ hy))
  settled c hc := by
    rw [List.getLast?_concat] at hc
    rw [← Option.some.inj hc]
    exact h.made_checkpoint

theorem Folding.base_after (h : Folding role limits before b settled w x z provenance) :
    ∃ version, IsBase role before b
      (settledOf role b settled w ++ checkpointOf role b settled w x provenance :: z)
      version := by
  obtain ⟨version, hbase⟩ := h.base
  refine ⟨version, hbase.base, hbase.before, fun y hy v hv => ?_⟩
  rw [settledOf, mem_append, mem_append, mem_cons] at hy
  rcases hy with (hy | hy) | rfl | hy
  · exact hbase.behind y (mem_append_left _ (mem_of_mem_filter hy)) v hv
  · exact hbase.behind y (mem_append_right _ (mem_append_left _
      (mem_of_mem_filter hy))) v hv
  · rw [checkpointOf, roleBaseVersion_made] at hv
    exact absurd hv (by simp)
  · exact hbase.behind y (mem_append_right _ (mem_append_right _
      (mem_cons_of_mem _ hy))) v hv

def Continues (role : ProjectedRole) (d : List (ChatMessage F)) : Prop :=
  ∀ y ∈ d, roleBaseVersion role y = none ∧ isRoleCheckpoint role y = false

variable {d behind : List (ChatMessage F)}

theorem isBase_append {version : ℕ} (h : IsBase role before b behind version)
    (hd : Continues role d) : IsBase role before b (behind ++ d) version where
  base := h.base
  before := h.before
  behind y hy v hv := by
    rcases mem_append.mp hy with hy | hy
    · exact h.behind y hy v hv
    · rw [(hd y hy).1] at hv
      exact absurd hv (by simp)

theorem parts_append {base : ApprovedBase} {recent : List (ChatMessage F)}
    (h : Parts role base behind settled recent) (hd : Continues role d) :
    Parts role base (behind ++ d) settled (recent ++ d) where
  parts := by rw [h.parts, append_assoc]
  recent y hy := by
    rcases mem_append.mp hy with hy | hy
    · exact h.recent y hy
    · rw [isBaseCheckpoint, (hd y hy).2, Bool.false_and]
  settled := h.settled

theorem Folding.drop_deltas (h : Folding role limits before b settled w x z provenance)
    (d : List (ChatMessage F)) :
    deltasOf role (settledOf role b settled w ++ [checkpointOf role b settled w x provenance])
        (z ++ d) =
      (deltasOf role settled (w ++ x :: z)).drop
          (provenance.foldedDeltas - prefoldCount (prefoldOf settled)) ++
        projectedDeltas (prefoldCount (prefoldOf settled) +
          (updatesOf role (w ++ x :: z)).length) (updatesOf role d) := by
  have hcount := h.count
  have hlen : (updatesOf role w ++ [x]).length = (updatesOf role w).length + 1 := by
    rw [length_append, length_singleton]
  have hprefold : prefoldCount (prefoldOf
      (settledOf role b settled w ++ [checkpointOf role b settled w x provenance])) =
        prefoldCount (prefoldOf settled) + (updatesOf role w ++ [x]).length := by
    rw [h.prefold_made, prefoldCount, Option.elim_some, hlen]
    omega
  have hdrop : (deltasOf role settled (w ++ x :: z)).drop
      (provenance.foldedDeltas - prefoldCount (prefoldOf settled)) =
        projectedDeltas (prefoldCount (prefoldOf settled) + (updatesOf role w ++ [x]).length)
          (updatesOf role z) := by
    rw [deltasOf, updatesOf_split h.update, projectedDeltas_append]
    exact drop_left' (by rw [projectedDeltas_length, hlen, hcount])
  have hall : (updatesOf role (w ++ x :: z)).length =
      (updatesOf role w ++ [x]).length + (updatesOf role z).length := by
    rw [updatesOf_split h.update, length_append]
  rw [hdrop, deltasOf, hprefold, updatesOf_append, projectedDeltas_append, hall, Nat.add_assoc]

theorem append_deltas (settled recent d : List (ChatMessage F)) :
    deltasOf role settled (recent ++ d) = deltasOf role settled recent ++
      projectedDeltas (prefoldCount (prefoldOf settled) + (updatesOf role recent).length)
        (updatesOf role d) := by
  rw [deltasOf, updatesOf_append, projectedDeltas_append]
  rfl

theorem mem_append_split {α : Type*} {settled w z d : List α} {x : α} :
    settled ++ (w ++ x :: z) ++ d = settled ++ (w ++ x :: (z ++ d)) := by
  rw [append_assoc, append_assoc, cons_append]

theorem Folding.projection_eq (h : Folding role limits before b settled w x z provenance)
    (d : List (ChatMessage F)) :
    projectionOf role (approvedBase role b) limits
        (settledOf role b settled w ++ [checkpointOf role b settled w x provenance]) (z ++ d) =
      projectionOf role (approvedBase role b) limits settled (w ++ x :: (z ++ d)) := by
  have hnew : 0 < provenance.foldedDeltas - prefoldCount (prefoldOf settled) := by
    rw [h.count]
    omega
  have hsplit : w ++ x :: (z ++ d) = w ++ x :: z ++ d := by
    rw [append_assoc, cons_append]
  rw [projectionOf, projectionOf, h.prefold_made, h.drop_deltas, hsplit,
    append_deltas settled (w ++ x :: z) d]
  exact projection_resume h.checkpoint hnew _

theorem Folding.settledOf_again (h : Folding role limits before b settled w x z provenance)
    (w₂ : List (ChatMessage F)) :
    settledOf role b (settledOf role b settled w ++ [checkpointOf role b settled w x provenance])
        w₂ = settledOf role b settled (w ++ x :: w₂) := by
  have hw : (w.filter fun y => !isUpdate role y).filter
      (fun y => !isBaseCheckpoint role (approvedBase role b) y) =
        w.filter fun y => !isUpdate role y := by
    rw [filter_eq_self]
    intro y hy
    have hmem : y ∈ w ++ x :: z := mem_append_left _ (mem_of_mem_filter hy)
    rw [h.parts.recent y hmem]
    rfl
  have hx : (x :: w₂).filter (fun y => !isUpdate role y) = w₂.filter fun y => !isUpdate role y :=
    filter_cons_of_neg (by simp [h.update])
  have hmade : [checkpointOf role b settled w x provenance].filter
      (fun y => !isBaseCheckpoint role (approvedBase role b) y) = [] :=
    filter_cons_of_neg (by simp [h.made_checkpoint])
  rw [settledOf, settledOf, settledOf, filter_append, filter_append, hw, hmade,
    append_nil, filter_filter, filter_append, hx, append_assoc]
  simp only [Bool.and_self]

theorem Folding.checkpointOf_again (h : Folding role limits before b settled w x z provenance)
    (w₂ : List (ChatMessage F)) (x₂ : ChatMessage F) (provenance₂ : CheckpointProvenance) :
    checkpointOf role b
        (settledOf role b settled w ++ [checkpointOf role b settled w x provenance]) w₂ x₂
        provenance₂ = checkpointOf role b settled (w ++ x :: w₂) x₂ provenance₂ := by
  have hfirst : ∀ y : ChatMessage F, firstFoldedId
      (settledOf role b settled w ++ [checkpointOf role b settled w x provenance]) y =
        firstFoldedId settled ((updatesOf role w).headD x) := by
    intro y
    rw [firstFoldedId, List.getLast?_concat, Option.bind_some, checkpointOf, firstFoldedId_made,
      Option.getD_some]
  have hhead : (updatesOf role (w ++ x :: w₂)).headD x₂ = (updatesOf role w).headD x := by
    rw [updatesOf_split h.update]
    cases updatesOf role w <;> rfl
  rw [checkpointOf, hfirst, checkpointOf, hhead]

theorem Folding.append (h : Folding role limits before b settled w x z provenance)
    (hd : Continues role d)
    (hcheck :
      (projectionOf role (approvedBase role b) limits settled (w ++ x :: (z ++ d))).checkpoint =
        some provenance) :
    Folding role limits before b settled w x (z ++ d) provenance := by
  obtain ⟨version, hbase⟩ := h.base
  have hparts := parts_append h.parts hd
  have hbase' := isBase_append hbase hd
  rw [mem_append_split] at hparts hbase'
  rw [append_assoc, cons_append] at hparts
  exact ⟨⟨version, hbase'⟩, hparts, hcheck, h.update, h.count⟩

theorem Folding.whole (h : Folding role limits before b settled w x z provenance)
    (d : List (ChatMessage F)) : ∃ whole,
      (projectionOf role (approvedBase role b) limits settled (w ++ x :: (z ++ d))).checkpoint =
        some whole ∧ provenance.foldedDeltas ≤ whole.foldedDeltas ∧
      (whole.foldedDeltas = provenance.foldedDeltas → whole = provenance) := by
  have hnew : 0 < provenance.foldedDeltas - prefoldCount (prefoldOf settled) := by
    rw [h.count]
    omega
  have hsplit : w ++ x :: (z ++ d) = w ++ x :: z ++ d := by
    rw [append_assoc, cons_append]
  rw [projectionOf, hsplit, append_deltas settled (w ++ x :: z) d,
    projection_append h.checkpoint hnew, checkpointedProjection_checkpoint]
  refine ⟨_, rfl, ?_, fun heq => provenanceOf_append h.checkpoint hnew _ heq⟩
  have hle := folded_append_le h.checkpoint hnew
    (projectedDeltas (prefoldCount (prefoldOf settled) +
      (updatesOf role (w ++ x :: z)).length) (updatesOf role d))
  have hfolded := (folds_of_checkpoint h.checkpoint hnew).folded
  omega

theorem Folding.resume (h : Folding role limits before b settled w x z provenance)
    (hd : Continues role d) : foldRoleMessages role (before ++ b :: (settledOf role b settled w ++
        checkpointOf role b settled w x provenance :: (z ++ d))) limits =
      foldRoleMessages role (before ++ b :: (settled ++ (w ++ x :: (z ++ d)))) limits := by
  obtain ⟨version, hbase⟩ := h.base
  obtain ⟨version', hafter⟩ := h.base_after
  obtain ⟨whole, hwhole, hle, hsame⟩ := h.whole d
  have hresumed := h.projection_eq d
  have hafter' := isBase_append hafter hd
  have hparts' := parts_append h.parts_after hd
  have hbase' := isBase_append hbase hd
  have hparts := parts_append h.parts hd
  rw [append_assoc, cons_append] at hafter' hparts'
  rw [mem_append_split] at hbase' hparts
  rw [append_assoc w, cons_append] at hparts
  have hprefold : prefoldCount (prefoldOf
      (settledOf role b settled w ++ [checkpointOf role b settled w x provenance])) =
        provenance.foldedDeltas := by
    rw [h.prefold_made]
    rfl
  by_cases hmore : whole.foldedDeltas = provenance.foldedDeltas
  · have hnone : ∀ other, (projectionOf role (approvedBase role b) limits
        (settledOf role b settled w ++ [checkpointOf role b settled w x provenance])
        (z ++ d)).checkpoint = some other → other.foldedDeltas - prefoldCount (prefoldOf
          (settledOf role b settled w ++ [checkpointOf role b settled w x provenance])) = 0 := by
      intro other hother
      rw [hresumed, hwhole] at hother
      rw [← Option.some.inj hother, hprefold]
      omega
    rw [fold_unchanged hafter' hparts' hnone]
    rw [hsame hmore] at hwhole
    exact (h.append hd hwhole).fold_eq.symm
  · have hcheck' := hresumed ▸ hwhole
    have hnew' : 0 < whole.foldedDeltas - prefoldCount (prefoldOf
        (settledOf role b settled w ++ [checkpointOf role b settled w x provenance])) := by
      rw [hprefold]
      omega
    have hlen := (folds_of_checkpoint hcheck' hnew').le
    rw [deltasOf, projectedDeltas_length] at hlen
    obtain ⟨w₂, x₂, z₂, hzd, hx₂, hcount⟩ := exists_split hnew' (z ++ d) hlen
    rw [hzd] at hafter' hparts' hbase' hparts hcheck' hwhole ⊢
    have hresume : Folding role limits before b
        (settledOf role b settled w ++ [checkpointOf role b settled w x provenance]) w₂ x₂ z₂
        whole := by
      refine ⟨⟨version', ?_⟩, ?_, hcheck', hx₂, hcount⟩
      · rwa [append_assoc, singleton_append]
      · rwa [append_assoc, singleton_append]
    have hdirect : Folding role limits before b settled (w ++ x :: w₂) x₂ z₂ whole := by
      have hlist : w ++ x :: w₂ ++ x₂ :: z₂ = w ++ x :: (w₂ ++ x₂ :: z₂) := by
        rw [append_assoc, cons_append]
      refine ⟨⟨version, ?_⟩, ?_, ?_, hx₂, ?_⟩
      · rwa [hlist]
      · rwa [hlist]
      · rwa [hlist]
      · have hfirst := h.count
        rw [hprefold] at hcount
        rw [updatesOf_split h.update, length_append, length_append,
          length_singleton]
        omega
    have hleft := hresume.fold_eq
    have hright := hdirect.fold_eq
    rw [append_assoc, singleton_append] at hleft
    rw [append_assoc w, cons_append] at hright
    rw [hleft, hright, h.settledOf_again, h.checkpointOf_again]

end Folding

def settledPart (role : ProjectedRole) (base : ApprovedBase) (behind : List (ChatMessage F)) :
    List (ChatMessage F) :=
  behind.rdropWhile fun y => !isBaseCheckpoint role base y

def recentPart (role : ProjectedRole) (base : ApprovedBase) (behind : List (ChatMessage F)) :
    List (ChatMessage F) :=
  behind.rtakeWhile fun y => !isBaseCheckpoint role base y

def foldedCount (role : ProjectedRole) (base : ApprovedBase) (behind : List (ChatMessage F)) : ℕ :=
  prefoldCount (((behind.filter (isBaseCheckpoint role base)).getLast?).bind
    checkpointProvenance)

theorem parts_split {base : ApprovedBase} {settled : List (ChatMessage F)}
    (hlast : ∀ c, settled.getLast? = some c → isBaseCheckpoint role base c = true)
    (recent : List (ChatMessage F)) : (∀ x ∈ recent, isBaseCheckpoint role base x = false) →
      settledPart role base (settled ++ recent) = settled ∧
      recentPart role base (settled ++ recent) = recent ∧
      ((settled ++ recent).filter (isBaseCheckpoint role base)).getLast? =
        settled.getLast? := by
  induction recent using List.reverseRecOn with
  | nil =>
    intro _
    rw [append_nil, settledPart, recentPart]
    rcases eq_nil_or_concat settled with rfl | ⟨front, c, rfl⟩
    · exact ⟨rfl, rfl, rfl⟩
    · rw [concat_eq_append] at hlast ⊢
      have hc := hlast c List.getLast?_concat
      have hfilt : [c].filter (isBaseCheckpoint role base) = [c] := filter_cons_of_pos hc
      refine ⟨rdropWhile_concat_neg _ _ _ (by simp [hc]),
        rtakeWhile_concat_neg _ _ _ (by simp [hc]), ?_⟩
      rw [filter_append, hfilt, List.getLast?_concat, List.getLast?_concat]
  | append_singleton recent x ih =>
    intro hrecent
    have hx := hrecent x (mem_append_right _ (mem_singleton_self _))
    obtain ⟨hset, hpart, hfilt⟩ := ih fun y hy => hrecent y (mem_append_left _ hy)
    have hnone : [x].filter (isBaseCheckpoint role base) = [] :=
      filter_cons_of_neg (by simp [hx])
    rw [← append_assoc, settledPart, recentPart]
    refine ⟨?_, ?_, ?_⟩
    · rw [rdropWhile_concat_pos _ _ _ (by simp [hx])]
      exact hset
    · rw [rtakeWhile_concat_pos _ _ _ (by simp [hx])]
      exact congrArg (· ++ [x]) hpart
    · rw [filter_append, hnone, append_nil, hfilt]

structure Lossless (role : ProjectedRole) (base : ApprovedBase)
    (behind after : List (ChatMessage F)) : Prop where
  others : (after.filter fun y => !isUpdate role y && !isBaseCheckpoint role base y) =
    behind.filter fun y => !isUpdate role y && !isBaseCheckpoint role base y
  order : (after.filter fun y => !isBaseCheckpoint role base y).Sublist behind
  early : updatesOf role (settledPart role base after) =
    updatesOf role (settledPart role base behind)
  newest : updatesOf role (recentPart role base after) <:+
    updatesOf role (recentPart role base behind)
  count : foldedCount role base after + (updatesOf role (recentPart role base after)).length =
    foldedCount role base behind + (updatesOf role (recentPart role base behind)).length

theorem Lossless.refl (role : ProjectedRole) (base : ApprovedBase)
    (behind : List (ChatMessage F)) : Lossless role base behind behind where
  others := rfl
  order := filter_sublist
  early := rfl
  newest := suffix_refl _
  count := rfl

theorem isBaseCheckpoint_of_update {base : ApprovedBase} {y : ChatMessage F}
    (hy : isUpdate role y = true) : isBaseCheckpoint role base y = false := by
  rw [isUpdate, Bool.and_eq_true] at hy
  have hnone := Option.isNone_iff_eq_none.mp hy.2
  rw [isBaseCheckpoint, isRoleCheckpoint, hnone]
  simp

section Folding

variable {before settled w z : List (ChatMessage F)} {b x : ChatMessage F}
  {provenance : CheckpointProvenance}

theorem settledOf_updates : updatesOf role (settledOf role b settled w) =
    updatesOf role settled := by
  have hw : (w.filter fun y => !isUpdate role y).filter (isUpdate role) = [] := by
    rw [filter_eq_nil_iff]
    intro y hy
    simpa using (mem_filter.mp hy).2
  rw [updatesOf, settledOf, filter_append, hw, append_nil, filter_filter]
  refine filter_congr fun y _ => ?_
  cases hy : isUpdate role y with
  | false => rfl
  | true => rw [isBaseCheckpoint_of_update hy]; rfl

theorem Folding.lossless (h : Folding role limits before b settled w x z provenance) :
    Lossless role (approvedBase role b) (settled ++ (w ++ x :: z))
      (settledOf role b settled w ++ checkpointOf role b settled w x provenance :: z) := by
  obtain ⟨hset, hrecent, hlast⟩ := parts_split h.parts.settled _ h.parts.recent
  obtain ⟨hset', hrecent', hlast'⟩ :=
    parts_split h.parts_after.settled _ h.parts_after.recent
  rw [append_assoc, singleton_append] at hset' hrecent' hlast'
  have hmade := h.made_checkpoint
  have hnot : isUpdate role (checkpointOf role b settled w x provenance) = false :=
    not_update_made h.version_lt
  have hw : ∀ y ∈ w ++ x :: z, isBaseCheckpoint role (approvedBase role b) y = false :=
    h.parts.recent
  refine ⟨?_, ?_, ?_, ?_, ?_⟩
  · have hx : (x :: z).filter (fun y =>
        !isUpdate role y && !isBaseCheckpoint role (approvedBase role b) y) =
          z.filter fun y =>
            !isUpdate role y && !isBaseCheckpoint role (approvedBase role b) y :=
      filter_cons_of_neg (by simp [h.update])
    have hcp : (checkpointOf role b settled w x provenance :: z).filter (fun y =>
        !isUpdate role y && !isBaseCheckpoint role (approvedBase role b) y) =
          z.filter fun y =>
            !isUpdate role y && !isBaseCheckpoint role (approvedBase role b) y :=
      filter_cons_of_neg (by simp [hmade])
    rw [settledOf, filter_append, filter_append, filter_append,
      filter_append, hx, hcp, filter_filter, filter_filter, append_assoc]
    congr 1
    · exact filter_congr fun y _ => by
        cases isUpdate role y <;> cases isBaseCheckpoint role (approvedBase role b) y <;> rfl
    · congr 1
      exact filter_congr fun y _ => by
        cases isUpdate role y <;> cases isBaseCheckpoint role (approvedBase role b) y <;> rfl
  · have hcp : (checkpointOf role b settled w x provenance :: z).filter (fun y =>
        !isBaseCheckpoint role (approvedBase role b) y) =
          z.filter fun y => !isBaseCheckpoint role (approvedBase role b) y :=
      filter_cons_of_neg (by simp [hmade])
    rw [filter_append, hcp, ← append_assoc]
    refine List.Sublist.append ?_ ?_
    · exact filter_sublist.trans (List.Sublist.append filter_sublist filter_sublist)
    · exact filter_sublist.trans (sublist_cons_self x z)
  · have hone : updatesOf role [checkpointOf role b settled w x provenance] = [] :=
      filter_cons_of_neg (by simp [hnot])
    rw [hset', hset, updatesOf_append, hone, append_nil, settledOf_updates]
  · rw [hrecent', hrecent, updatesOf_split h.update]
    exact suffix_append _ _
  · rw [foldedCount, foldedCount, hlast', hlast, hrecent', hrecent, updatesOf_split h.update,
      List.getLast?_concat, Option.bind_some, h.provenance_made, length_append,
      length_append, length_singleton]
    have hcount := h.count
    rw [prefoldOf] at hcount
    rw [prefoldCount, Option.elim_some]
    omega

end Folding

theorem fold_resume (role : ProjectedRole) (limits : ProjectionLimits)
    (messages : List (ChatMessage F)) {d : List (ChatMessage F)} (hd : Continues role d) :
    foldRoleMessages role (foldRoleMessages role messages limits ++ d) limits =
      foldRoleMessages role (messages ++ d) limits := by
  rcases fold_cases role limits messages with
    hsame | ⟨before, b, settled, w, x, z, provenance, rfl, h⟩
  · rw [hsame]
  · have hresume := h.resume hd
    have hafter : before ++ b :: (settledOf role b settled w ++
        checkpointOf role b settled w x provenance :: z) ++ d =
          before ++ b :: (settledOf role b settled w ++
            checkpointOf role b settled w x provenance :: (z ++ d)) := by simp
    have hwhole : before ++ b :: (settled ++ (w ++ x :: z)) ++ d =
        before ++ b :: (settled ++ (w ++ x :: (z ++ d))) := by simp
    rw [h.fold_eq, hafter, hwhole, hresume]

theorem fold_idempotent (role : ProjectedRole) (limits : ProjectionLimits)
    (messages : List (ChatMessage F)) :
    foldRoleMessages role (foldRoleMessages role messages limits) limits =
      foldRoleMessages role messages limits := by
  have h := fold_resume role limits messages fun _ hy => absurd hy not_mem_nil
  rwa [append_nil, append_nil] at h

/-- Around the current base: it stays, with everything before it, and nothing behind it is lost. -/
structure Kept (role : ProjectedRole) (messages after : List (ChatMessage F)) : Prop where
  none : currentBase role messages = none → after = messages
  base : ∀ b i, currentBase role messages = some (b, i) → currentBase role after = some (b, i)
  before : ∀ b i, currentBase role messages = some (b, i) →
    after.take (i + 1) = messages.take (i + 1)
  behind : ∀ b i, currentBase role messages = some (b, i) →
    Lossless role (approvedBase role b) (messages.drop (i + 1)) (after.drop (i + 1))

theorem fold_kept (role : ProjectedRole) (limits : ProjectionLimits)
    (messages : List (ChatMessage F)) :
    Kept role messages (foldRoleMessages role messages limits) := by
  rcases fold_cases role limits messages with
    hsame | ⟨before, b, settled, w, x, z, provenance, rfl, h⟩
  · rw [hsame]
    exact ⟨fun _ => rfl, fun _ _ h => h, fun _ _ _ => rfl, fun b i _ => Lossless.refl _ _ _⟩
  · obtain ⟨version, hbase⟩ := h.base
    obtain ⟨version', hafter⟩ := h.base_after
    rw [h.fold_eq]
    have hcur := currentBase_of_isBase hbase
    have htake : ∀ tail : List (ChatMessage F),
        (before ++ b :: tail).take (before.length + 1) = before ++ [b] := by
      intro tail
      rw [take_append, take_of_length_le (by omega), Nat.add_sub_cancel_left]
      rfl
    have hdrop : ∀ tail : List (ChatMessage F),
        (before ++ b :: tail).drop (before.length + 1) = tail := by
      intro tail
      rw [drop_append, drop_of_length_le (by omega), Nat.add_sub_cancel_left]
      rfl
    refine ⟨fun hnone => ?_, fun c i hc => ?_, fun c i hc => ?_, fun c i hc => ?_⟩
    · rw [hcur] at hnone
      exact absurd hnone (by simp)
    · rw [← hc, hcur, currentBase_of_isBase hafter]
    · obtain ⟨rfl, rfl⟩ : b = c ∧ before.length = i := by simpa [hcur] using hc
      rw [htake, htake]
    · obtain ⟨rfl, rfl⟩ : b = c ∧ before.length = i := by simpa [hcur] using hc
      rw [hdrop, hdrop]
      exact h.lossless

/-- Folding is idempotent, incremental and, from the last checkpoint on, lossless. -/
theorem folding_loses_nothing (role : ProjectedRole) (limits : ProjectionLimits)
    (messages : List (ChatMessage F)) {d : List (ChatMessage F)} (hd : Continues role d) :
    foldRoleMessages role (foldRoleMessages role messages limits) limits =
        foldRoleMessages role messages limits ∧
      foldRoleMessages role (foldRoleMessages role messages limits ++ d) limits =
        foldRoleMessages role (messages ++ d) limits ∧
      Kept role messages (foldRoleMessages role messages limits) :=
  ⟨fold_idempotent role limits messages, fold_resume role limits messages hd,
    fold_kept role limits messages⟩

def planMessage (id : String) (version : ℕ) : ChatMessage Empty where
  messageId := id
  role := "plan"
  content := .simpleText "base"
  extra := [("plan", .obj [("mode", .str "agent"), ("version", .nat version)])]

def planUpdate (id : String) : ChatMessage Empty :=
  event "plan_delta" "tool.update_plan" (.obj []) id "update"

theorem three_updates_fold_again :
    foldRoleMessages .plan (foldRoleMessages .plan
        [planMessage "p" 1, planUpdate "1", planUpdate "2", planUpdate "3"] ⟨1, 1000⟩ ++
          [planUpdate "4"]) ⟨1, 1000⟩ =
      foldRoleMessages .plan
        ([planMessage "p" 1, planUpdate "1", planUpdate "2", planUpdate "3"] ++
          [planUpdate "4"]) ⟨1, 1000⟩ := by
  have hd : Continues .plan [planUpdate "4"] := by
    unfold Continues
    decide
  exact (folding_loses_nothing .plan ⟨1, 1000⟩ _ hd).2.1

def lateCheckpoint : List (ChatMessage Empty) :=
  [planMessage "p" 1, planUpdate "1",
    makeCheckpointMessage .plan (approvedBase .plan (planMessage "p" 1))
      ⟨5, 5, "p", 1, "agent", 0⟩ "a" "b",
    planUpdate "2", planUpdate "3"]

theorem late_checkpoint_keeps_old_update :
    ¬ (((updatesOf .plan ((foldRoleMessages .plan lateCheckpoint ⟨1, 1000⟩).drop 1)).map
        ChatMessage.messageId) <:+
      (updatesOf .plan (lateCheckpoint.drop 1)).map ChatMessage.messageId) := by
  have hbase : IsBase .plan [] (planMessage "p" 1) lateCheckpoint.tail 1 :=
    ⟨by decide, fun _ hx => absurd hx not_mem_nil, by decide⟩
  have hparts : Parts .plan (approvedBase .plan (planMessage "p" 1)) lateCheckpoint.tail
      (lateCheckpoint.tail.take 2) [planUpdate "2", planUpdate "3"] :=
    ⟨rfl, by decide, by decide⟩
  have hkept := (keptCount_isLongestRun .plan (approvedBase .plan (planMessage "p" 1))
    (prefoldOf (lateCheckpoint.tail.take 2))
    (deltasOf .plan (lateCheckpoint.tail.take 2) [planUpdate "2", planUpdate "3"])
    ⟨1, 1000⟩).le
  have hcheck : (projectionOf .plan (approvedBase .plan (planMessage "p" 1)) ⟨1, 1000⟩
      (lateCheckpoint.tail.take 2) [planUpdate "2", planUpdate "3"]).checkpoint =
        some (provenanceOf _ _ _ _) := rfl
  -- Whether one of the two newest updates fits or none, the first of them is folded.
  rcases Nat.le_one_iff_eq_zero_or_eq_one.mp (hkept.trans (min_le_left _ _)) with hzero | hone
  · rw [hzero] at hcheck
    have folding : Folding .plan ⟨1, 1000⟩ [] (planMessage "p" 1) (lateCheckpoint.tail.take 2)
        [planUpdate "2"] (planUpdate "3") [] _ :=
      ⟨⟨1, hbase⟩, hparts, hcheck, by decide, by decide⟩
    rw [show foldRoleMessages .plan lateCheckpoint ⟨1, 1000⟩ = _ from folding.fold_eq]
    decide
  · rw [hone] at hcheck
    have folding : Folding .plan ⟨1, 1000⟩ [] (planMessage "p" 1) (lateCheckpoint.tail.take 2)
        [] (planUpdate "2") [planUpdate "3"] _ :=
      ⟨⟨1, hbase⟩, hparts, hcheck, by decide, by decide⟩
    rw [show foldRoleMessages .plan lateCheckpoint ⟨1, 1000⟩ = _ from folding.fold_eq]
    decide

end FoldedHistories
