import Mathlib.Data.List.DropRight
import RefactEngine.ProjectionBudgets

/-! # Folding a history, step after step

A fold keeps everything but the oldest updates behind the base, and a fold of a folded history that
went on is the fold of the whole history.
-/
namespace RoleFolds

open JsonValues ProjectedRoles ProjectionBudgets List

variable {F : Type} {role : ProjectedRole}

structure IsBase (role : ProjectedRole) (before : List (ChatMessage F)) (b : ChatMessage F)
    (behind : List (ChatMessage F)) (version : ℕ) : Prop where
  base : roleBaseVersion role b = some version
  before : ∀ x ∈ before, ∀ w, roleBaseVersion role x = some w → w ≤ version
  behind : ∀ x ∈ behind, ∀ w, roleBaseVersion role x = some w → w < version

variable {best : Option (Entry F)}

theorem newerBase_none {e : Entry F} (h : roleBaseVersion role e.1 = none) :
    newerBase role best e = best := by
  rw [newerBase, h]

theorem newerBase_some {e : Entry F} {version : ℕ} (h : roleBaseVersion role e.1 = some version) :
    newerBase role best e =
      if best.all fun b => (roleBaseVersion role b.1).getD 0 ≤ version then some e else best := by
  rw [newerBase, h]

theorem foldl_before {version : ℕ} (l : List (Entry F)) :
    (∀ e ∈ l, ∀ w, roleBaseVersion role e.1 = some w → w ≤ version) →
    ∀ best : Option (Entry F), (best.all fun b => (roleBaseVersion role b.1).getD 0 ≤ version) →
      ((l.foldl (newerBase role) best).all fun b =>
        (roleBaseVersion role b.1).getD 0 ≤ version) = true := by
  induction l with
  | nil => intro _ best hbest; exact hbest
  | cons e l ih =>
    intro hl best hbest
    rw [foldl_cons]
    apply ih (fun e he => hl e (mem_cons_of_mem _ he))
    cases hver : roleBaseVersion role e.1 with
    | none => rwa [newerBase_none hver]
    | some w =>
      have hw := hl e mem_cons_self w hver
      rw [newerBase_some hver]
      split_ifs
      · rw [Option.all_some, hver, Option.getD_some]
        exact decide_eq_true hw
      · exact hbest

theorem foldl_behind {version : ℕ} {b : Entry F} (hb : roleBaseVersion role b.1 = some version)
    (l : List (Entry F)) :
    (∀ e ∈ l, ∀ w, roleBaseVersion role e.1 = some w → w < version) →
      l.foldl (newerBase role) (some b) = some b := by
  induction l with
  | nil => intro _; rfl
  | cons e l ih =>
    intro hl
    have hkeep : newerBase role (some b) e = some b := by
      cases hver : roleBaseVersion role e.1 with
      | none => exact newerBase_none hver
      | some w =>
        have hw := hl e mem_cons_self w hver
        rw [newerBase_some hver, Option.all_some, hb, Option.getD_some,
          if_neg (by simpa using hw)]
    rw [foldl_cons, hkeep]
    exact ih fun e he => hl e (mem_cons_of_mem _ he)

theorem currentBase_of_isBase {before behind : List (ChatMessage F)} {b : ChatMessage F}
    {version : ℕ} (h : IsBase role before b behind version) :
    currentBase role (before ++ b :: behind) = some (b, before.length) := by
  have hbest : ((before.zipIdx.foldl (newerBase role) none).all fun b =>
      (roleBaseVersion role b.1).getD 0 ≤ version) = true :=
    foldl_before before.zipIdx (fun e he => h.before e.1 (fst_mem_of_mem_zipIdx he)) none rfl
  rw [currentBase, zipIdx_append, zipIdx_cons, foldl_append, foldl_cons,
    newerBase_some h.base, if_pos hbest, Nat.zero_add]
  exact foldl_behind h.base _ fun e he => h.behind e.1 (fst_mem_of_mem_zipIdx he)

variable (messages : List (ChatMessage F))

theorem currentBase_concat (x : ChatMessage F) : currentBase role (messages ++ [x]) =
      newerBase role (currentBase role messages) (x, messages.length) := by
  rw [currentBase, zipIdx_append, foldl_append, Nat.zero_add]
  rfl

theorem currentBase_spec :
    (currentBase role messages = none → ∀ x ∈ messages, roleBaseVersion role x = none) ∧
      ∀ b i, currentBase role messages = some (b, i) → ∃ before behind version,
        messages = before ++ b :: behind ∧ before.length = i ∧
          IsBase role before b behind version := by
  induction messages using List.reverseRecOn with
  | nil =>
    exact ⟨fun _ x hx => absurd hx not_mem_nil,
      fun b i h => absurd h (by simp [currentBase])⟩
  | append_singleton messages x ih =>
    obtain ⟨ihnone, ihsome⟩ := ih
    rw [currentBase_concat]
    cases hver : roleBaseVersion role x with
    | none =>
      rw [newerBase_none hver]
      refine ⟨fun h y hy => ?_, fun b i h => ?_⟩
      · rcases mem_append.mp hy with hy | hy
        · exact ihnone h y hy
        · rwa [mem_singleton.mp hy]
      · obtain ⟨before, behind, version, heq, hlen, hbase⟩ := ihsome b i h
        refine ⟨before, behind ++ [x], version, ?_, hlen, hbase.base, hbase.before, ?_⟩
        · rw [heq, append_assoc, cons_append]
        · intro y hy w hw
          rcases mem_append.mp hy with hy | hy
          · exact hbase.behind y hy w hw
          · rw [mem_singleton.mp hy, hver] at hw
            exact absurd hw (by simp)
    | some w =>
      rw [newerBase_some hver]
      cases hcur : currentBase role messages with
      | none =>
        refine ⟨fun h => absurd h (by simp), fun b i h => ?_⟩
        obtain ⟨rfl, rfl⟩ : x = b ∧ messages.length = i := by simpa using h
        refine ⟨messages, [], w, rfl, rfl, hver, ?_, fun y hy => absurd hy not_mem_nil⟩
        intro y hy v hv
        rw [ihnone hcur y hy] at hv
        exact absurd hv (by simp)
      | some current =>
        obtain ⟨before, behind, version, heq, hlen, hbase⟩ := ihsome current.1 current.2 hcur
        rw [Option.all_some, hbase.base, Option.getD_some]
        by_cases hle : version ≤ w
        · rw [if_pos (by simpa using hle)]
          refine ⟨fun h => absurd h (by simp), fun b i h => ?_⟩
          obtain ⟨rfl, rfl⟩ : x = b ∧ messages.length = i := by simpa using h
          refine ⟨messages, [], w, rfl, rfl, hver, ?_, fun y hy => absurd hy not_mem_nil⟩
          intro y hy v hv
          rw [heq, mem_append, mem_cons] at hy
          rcases hy with hy | rfl | hy
          · exact (hbase.before y hy v hv).trans hle
          · rw [hbase.base] at hv
            exact (Option.some.inj hv) ▸ hle
          · exact (hbase.behind y hy v hv).le.trans hle
        · rw [if_neg (by simpa using hle)]
          refine ⟨fun h => absurd h (by simp), fun b i h => ?_⟩
          obtain rfl : current = (b, i) := Option.some.inj h
          refine ⟨before, behind ++ [x], version, ?_, hlen, hbase.base, hbase.before, ?_⟩
          · rw [heq, append_assoc, cons_append]
          · intro y hy v hv
            rcases mem_append.mp hy with hy | hy
            · exact hbase.behind y hy v hv
            · rw [mem_singleton.mp hy, hver] at hv
              have := Option.some.inj hv
              omega

section Indices

variable {α β : Type*} {l : List α} {k : ℕ}

theorem flatMap_zipIdx {g : α × ℕ → List β} {h : α → List β}
    (hg : ∀ e ∈ l.zipIdx k, g e = h e.1) : (l.zipIdx k).flatMap g = l.flatMap h := by
  have hcongr : (l.zipIdx k).flatMap g = (l.zipIdx k).flatMap fun e => h e.1 :=
    flatMap_congr hg
  rw [hcongr, ← flatMap_map Prod.fst h, zipIdx_map_fst]

theorem flatMap_unless (p : α → Bool) (l : List α) :
    (l.flatMap fun x => if p x then [] else [x]) = l.filter fun x => !p x := by
  induction l with
  | nil => rfl
  | cons x l ih =>
    rw [flatMap_cons, ih, filter_cons]
    cases p x <;> rfl

theorem map_fst_filter_zipIdx (p : α → Bool) :
    ((l.zipIdx k).filter fun e => p e.1).map Prod.fst = l.filter p := by
  have h := filter_map (f := Prod.fst) (p := p) (l := l.zipIdx k)
  rw [zipIdx_map_fst] at h
  exact h.symm

theorem mem_indices {p : α → Bool} {e : α × ℕ} (he : e ∈ l.zipIdx k) :
    e.2 ∈ ((l.zipIdx k).filter fun e => p e.1).map Prod.snd ↔ p e.1 = true := by
  rw [mem_map]
  constructor
  · rintro ⟨other, hother, hindex⟩
    obtain ⟨hmem, hp⟩ := mem_filter.mp hother
    have hfirst := (List.mem_zipIdx_iff_le_and_getElem?_sub.mp hmem).2
    have hsecond := (List.mem_zipIdx_iff_le_and_getElem?_sub.mp he).2
    rw [hindex, hsecond] at hfirst
    rwa [Option.some.inj hfirst]
  · intro hp
    exact ⟨e, mem_filter.mpr ⟨he, hp⟩, rfl⟩

theorem index_bounds {p : α → Bool} {i : ℕ}
    (hi : i ∈ ((l.zipIdx k).filter fun e => p e.1).map Prod.snd) : k ≤ i ∧ i < l.length + k := by
  obtain ⟨e, he, rfl⟩ := mem_map.mp hi
  have hmem := mem_of_mem_filter he
  exact ⟨le_snd_of_mem_zipIdx hmem, snd_lt_of_mem_zipIdx hmem⟩

end Indices

variable {before behind settled recent : List (ChatMessage F)} {b : ChatMessage F} {version : ℕ}
  {limits : ProjectionLimits}

/-- What follows a base: up to its last checkpoint, and behind it. -/
structure Parts (role : ProjectedRole) (base : ApprovedBase)
    (behind settled recent : List (ChatMessage F)) : Prop where
  parts : behind = settled ++ recent
  recent : ∀ x ∈ recent, isBaseCheckpoint role base x = false
  settled : ∀ c, settled.getLast? = some c → isBaseCheckpoint role base c = true

theorem exists_parts (role : ProjectedRole) (base : ApprovedBase)
    (behind : List (ChatMessage F)) : ∃ settled recent, Parts role base behind settled recent := by
  induction behind using List.reverseRecOn with
  | nil =>
    exact ⟨[], [], rfl, fun x hx => absurd hx not_mem_nil, fun c hc => absurd hc (by simp)⟩
  | append_singleton behind x ih =>
    by_cases hx : isBaseCheckpoint role base x = true
    · refine ⟨behind ++ [x], [], (append_nil _).symm,
        fun y hy => absurd hy not_mem_nil, fun c hc => ?_⟩
      rw [List.getLast?_concat] at hc
      rwa [← Option.some.inj hc]
    · obtain ⟨settled, recent, parts⟩ := ih
      refine ⟨settled, recent ++ [x], ?_, fun y hy => ?_, parts.settled⟩
      · rw [parts.parts, append_assoc]
      · rcases mem_append.mp hy with hy | hy
        · exact parts.recent y hy
        · rw [mem_singleton.mp hy]
          simpa using hx

/-- What the last checkpoint has folded. -/
def prefoldOf (settled : List (ChatMessage F)) : Option CheckpointProvenance :=
  settled.getLast?.bind checkpointProvenance

def updatesOf (role : ProjectedRole) (messages : List (ChatMessage F)) : List (ChatMessage F) :=
  messages.filter (isUpdate role)

def deltasOf (role : ProjectedRole) (settled recent : List (ChatMessage F)) :
    List ProjectedDelta :=
  projectedDeltas (prefoldCount (prefoldOf settled)) (updatesOf role recent)

def projectionOf (role : ProjectedRole) (base : ApprovedBase) (limits : ProjectionLimits)
    (settled recent : List (ChatMessage F)) : RoleProjection :=
  projectRoleWithPrefold role base (prefoldOf settled) (deltasOf role settled recent) limits

def firstFoldedId (settled : List (ChatMessage F)) (first : ChatMessage F) : String :=
  ((settled.getLast?.bind (·.payload "first_folded_message_id")).bind Json.asStr).getD
    first.messageId

theorem filter_behind (q : Entry F → Bool) :
    ((before ++ b :: behind).zipIdx.filter fun e => before.length < e.2 && q e) =
      (behind.zipIdx (before.length + 1)).filter q := by
  have hbef : (before.zipIdx.filter fun e => before.length < e.2 && q e) = [] := by
    rw [filter_eq_nil_iff]
    intro e he
    have hlt := snd_lt_of_mem_zipIdx he
    simp only [Bool.and_eq_true, decide_eq_true_eq, not_and]
    omega
  rw [zipIdx_append, zipIdx_cons, filter_append, hbef, nil_append,
    Nat.zero_add, filter_cons_of_neg (by simp)]
  refine filter_congr fun e he => ?_
  have hle := le_snd_of_mem_zipIdx he
  rw [decide_eq_true (by omega), Bool.true_and]

variable {base : ApprovedBase}

theorem filter_recent (parts : Parts role base behind settled recent) (k : ℕ) :
    (recent.zipIdx k).filter (fun e => isBaseCheckpoint role base e.1) = [] := by
  rw [filter_eq_nil_iff]
  intro e he
  rw [parts.recent e.1 (fst_mem_of_mem_zipIdx he)]
  exact Bool.false_ne_true

theorem checkpointEntries_eq (parts : Parts role base behind settled recent) :
    checkpointEntries role (before ++ b :: behind) base before.length =
      (settled.zipIdx (before.length + 1)).filter fun e => isBaseCheckpoint role base e.1 := by
  rw [checkpointEntries, filter_behind, parts.parts, zipIdx_append, filter_append,
    filter_recent parts, append_nil]

theorem getLast?_checkpoints (k : ℕ)
    (hlast : ∀ c, settled.getLast? = some c → isBaseCheckpoint role base c = true) :
    ((settled.zipIdx k).filter fun e => isBaseCheckpoint role base e.1).getLast? =
      settled.getLast?.map fun c => (c, k + settled.length - 1) := by
  rcases eq_nil_or_concat settled with rfl | ⟨front, c, rfl⟩
  · rfl
  · rw [concat_eq_append] at hlast ⊢
    have hc := hlast c List.getLast?_concat
    have hfilt : ([(c, k + front.length)].filter fun e => isBaseCheckpoint role base e.1) =
        [(c, k + front.length)] := by simp [hc]
    rw [zipIdx_append, zipIdx_singleton, filter_append, List.getLast?_append,
      List.getLast?_concat, hfilt, length_append, length_singleton]
    rfl

theorem deltaEntries_eq (parts : Parts role base behind settled recent) :
    deltaEntries role (before ++ b :: behind) before.length
        (settled.getLast?.map fun c => (c, before.length + 1 + settled.length - 1)) =
      (recent.zipIdx (before.length + 1 + settled.length)).filter fun e => isUpdate role e.1 := by
  have hall : deltaEntries role (before ++ b :: behind) before.length
      (settled.getLast?.map fun c => (c, before.length + 1 + settled.length - 1)) =
        (behind.zipIdx (before.length + 1)).filter fun e =>
          (settled.getLast?.map fun c => (c, before.length + 1 + settled.length - 1)).all
            (fun c => c.2 < e.2) && isUpdate role e.1 := by
    rw [deltaEntries, ← filter_behind (b := b)]
    simp only [Bool.and_assoc]
  rw [hall, parts.parts, zipIdx_append, filter_append]
  have hset : ((settled.zipIdx (before.length + 1)).filter fun e =>
      (settled.getLast?.map fun c => (c, before.length + 1 + settled.length - 1)).all
        (fun c => c.2 < e.2) && isUpdate role e.1) = [] := by
    rw [filter_eq_nil_iff]
    intro e he
    have hlt := snd_lt_of_mem_zipIdx he
    cases hlast : settled.getLast? with
    | none =>
      rw [List.getLast?_eq_none_iff.mp hlast] at he
      exact absurd he not_mem_nil
    | some c =>
      simp only [Option.map_some, Option.all_some, Bool.and_eq_true, decide_eq_true_eq, not_and]
      omega
  rw [hset, nil_append]
  refine filter_congr fun e he => ?_
  have hle := le_snd_of_mem_zipIdx he
  cases settled.getLast? with
  | none => rfl
  | some c =>
    rw [Option.map_some, Option.all_some, decide_eq_true (by omega), Bool.true_and]

theorem take_updates {w z : List (ChatMessage F)} {x : ChatMessage F} (hx : isUpdate role x = true)
    (k : ℕ) :
    (((w ++ x :: z).zipIdx k).filter fun e => isUpdate role e.1).take
        ((updatesOf role w).length + 1) =
      ((w.zipIdx k).filter fun e => isUpdate role e.1) ++ [(x, k + w.length)] := by
  have hlen : ((w.zipIdx k).filter fun e => isUpdate role e.1).length =
      (updatesOf role w).length := by
    rw [updatesOf, ← map_fst_filter_zipIdx (l := w) (k := k), length_map]
  rw [zipIdx_append, zipIdx_cons, filter_append,
    filter_cons_of_pos (by exact hx), ← hlen, take_length_add_append]
  rfl

section Replace

variable {folded checkpoints : List ℕ} {last : ℕ} {checkpoint : ChatMessage F} {e : Entry F}

theorem replaceEntry_kept (hlast : e.2 ≠ last) (hfolded : e.2 ∉ folded)
    (hcheckpoints : e.2 ∉ checkpoints) :
    replaceEntry folded checkpoints last checkpoint e = [e.1] := by
  simp [replaceEntry, hlast, hfolded, hcheckpoints]

theorem replaceEntry_dropped (hlast : e.2 ≠ last) (h : e.2 ∈ folded ∨ e.2 ∈ checkpoints) :
    replaceEntry folded checkpoints last checkpoint e = [] := by
  rw [replaceEntry, if_neg hlast, if_pos (by simpa using h), append_nil]

theorem replaceEntry_last (x : ChatMessage F) (hfolded : last ∈ folded) :
    replaceEntry folded checkpoints last checkpoint (x, last) = [checkpoint] := by
  rw [replaceEntry, if_pos rfl, if_pos (by simp [hfolded]), append_nil]

end Replace

theorem flatMap_replaceEntry (front settled w z : List (ChatMessage F))
    (x checkpoint : ChatMessage F) :
    (front ++ (settled ++ (w ++ x :: z))).zipIdx.flatMap (replaceEntry
        ((((w.zipIdx (front.length + settled.length)).filter fun e =>
          isUpdate role e.1).map Prod.snd) ++ [front.length + settled.length + w.length])
        (((settled.zipIdx front.length).filter fun e =>
          isBaseCheckpoint role base e.1).map Prod.snd)
        (front.length + settled.length + w.length) checkpoint) =
      front ++ ((settled.filter fun y => !isBaseCheckpoint role base y) ++
        ((w.filter fun y => !isUpdate role y) ++ checkpoint :: z)) := by
  have hw : ∀ i ∈ ((w.zipIdx (front.length + settled.length)).filter fun e =>
      isUpdate role e.1).map Prod.snd, front.length + settled.length ≤ i ∧
        i < w.length + (front.length + settled.length) := fun i hi => index_bounds hi
  have hs : ∀ i ∈ ((settled.zipIdx front.length).filter fun e =>
      isBaseCheckpoint role base e.1).map Prod.snd, front.length ≤ i ∧
        i < settled.length + front.length := fun i hi => index_bounds hi
  rw [zipIdx_append, zipIdx_append, zipIdx_append, zipIdx_cons,
    flatMap_append, flatMap_append, flatMap_append, flatMap_cons, Nat.zero_add]
  congr 1
  · rw [flatMap_zipIdx (h := fun y => [y]), flatMap_singleton']
    intro e he
    have hlt := snd_lt_of_mem_zipIdx he
    refine replaceEntry_kept (by omega) (fun hmem => ?_) fun hmem => ?_
    · rcases mem_append.mp hmem with hmem | hmem
      · have := hw _ hmem
        omega
      · have := mem_singleton.mp hmem
        omega
    · have := hs _ hmem
      omega
  congr 1
  · rw [flatMap_zipIdx (h := fun y => if isBaseCheckpoint role base y then [] else [y]),
      flatMap_unless]
    intro e he
    have hlt := snd_lt_of_mem_zipIdx he
    by_cases hcp : isBaseCheckpoint role base e.1 = true
    · rw [if_pos hcp]
      exact replaceEntry_dropped (by omega) (.inr ((mem_indices he).mpr hcp))
    · rw [if_neg hcp]
      refine replaceEntry_kept (by omega) (fun hmem => ?_) (mt (mem_indices he).mp hcp)
      rcases mem_append.mp hmem with hmem | hmem
      · have := hw _ hmem
        omega
      · have := mem_singleton.mp hmem
        omega
  congr 1
  · rw [flatMap_zipIdx (h := fun y => if isUpdate role y then [] else [y]), flatMap_unless]
    intro e he
    have hle := le_snd_of_mem_zipIdx he
    have hlt := snd_lt_of_mem_zipIdx he
    by_cases hupd : isUpdate role e.1 = true
    · rw [if_pos hupd]
      exact replaceEntry_dropped (by omega)
        (.inl (mem_append_left _ ((mem_indices he).mpr hupd)))
    · rw [if_neg hupd]
      refine replaceEntry_kept (by omega) (fun hmem => ?_) fun hmem => ?_
      · rcases mem_append.mp hmem with hmem | hmem
        · exact hupd ((mem_indices he).mp hmem)
        · have := mem_singleton.mp hmem
          omega
      · have := hs _ hmem
        omega
  · rw [replaceEntry_last x (mem_append_right _ (mem_singleton_self _)),
      flatMap_zipIdx (h := fun y => [y]), flatMap_singleton', singleton_append]
    intro e he
    have hle := le_snd_of_mem_zipIdx he
    refine replaceEntry_kept (by omega) (fun hmem => ?_) fun hmem => ?_
    · rcases mem_append.mp hmem with hmem | hmem
      · have := hw _ hmem
        omega
      · have := mem_singleton.mp hmem
        omega
    · have := hs _ hmem
      omega

section Fold

variable (hbase : IsBase role before b behind version)
  (parts : Parts role (approvedBase role b) behind settled recent)
include hbase parts

theorem foldRoleMessages_eq : foldRoleMessages role (before ++ b :: behind) limits =
    match (projectionOf role (approvedBase role b) limits settled recent).checkpoint with
    | none => before ++ b :: behind
    | some provenance =>
      let folded := ((recent.zipIdx (before.length + 1 + settled.length)).filter fun e =>
        isUpdate role e.1).take (provenance.foldedDeltas - prefoldCount (prefoldOf settled))
      match folded.head?, folded.getLast? with
      | some first, some last =>
        (before ++ b :: behind).zipIdx.flatMap (replaceEntry (folded.map Prod.snd)
          (((settled.zipIdx (before.length + 1)).filter fun e =>
            isBaseCheckpoint role (approvedBase role b) e.1).map Prod.snd)
          last.2 (makeCheckpointMessage role (approvedBase role b) provenance
            (firstFoldedId settled first.1) last.1.messageId))
      | _, _ => before ++ b :: behind := by
  have hprevious := getLast?_checkpoints (before.length + 1) parts.settled
  have hprefold : ((settled.getLast?.map fun c =>
      (c, before.length + 1 + settled.length - 1)).bind fun e => checkpointProvenance e.1) =
        prefoldOf settled := by
    rw [Option.bind_map]
    rfl
  have hfirst : ((settled.getLast?.map fun c =>
      (c, before.length + 1 + settled.length - 1)).bind fun e =>
        e.1.payload "first_folded_message_id") =
          settled.getLast?.bind (·.payload "first_folded_message_id") := by
    rw [Option.bind_map]
    rfl
  unfold foldRoleMessages
  simp only [currentBase_of_isBase hbase, checkpointEntries_eq parts, hprevious,
    deltaEntries_eq parts, hprefold, hfirst, map_fst_filter_zipIdx]
  rfl

theorem fold_unchanged
    (h : ∀ provenance,
      (projectionOf role (approvedBase role b) limits settled recent).checkpoint =
        some provenance → provenance.foldedDeltas - prefoldCount (prefoldOf settled) = 0) :
    foldRoleMessages role (before ++ b :: behind) limits = before ++ b :: behind := by
  rw [foldRoleMessages_eq hbase parts]
  cases hcheck :
      (projectionOf role (approvedBase role b) limits settled recent).checkpoint with
  | none => rfl
  | some provenance =>
    simp only [h provenance hcheck, take_zero]
    rfl

theorem fold_folded {provenance : CheckpointProvenance}
    (hcheck :
      (projectionOf role (approvedBase role b) limits settled recent).checkpoint =
        some provenance)
    {w z : List (ChatMessage F)} {x : ChatMessage F} (hrecent : recent = w ++ x :: z)
    (hx : isUpdate role x = true)
    (hcount : provenance.foldedDeltas - prefoldCount (prefoldOf settled) =
      (updatesOf role w).length + 1) :
    foldRoleMessages role (before ++ b :: behind) limits =
      before ++ b :: ((settled.filter fun y => !isBaseCheckpoint role (approvedBase role b) y) ++
        ((w.filter fun y => !isUpdate role y) ++
          makeCheckpointMessage role (approvedBase role b) provenance
            (firstFoldedId settled ((updatesOf role w).headD x)) x.messageId :: z)) := by
  have hlist : before ++ b :: behind = (before ++ [b]) ++ (settled ++ (w ++ x :: z)) := by
    rw [parts.parts, hrecent, append_assoc, singleton_append]
  have hlen : (before ++ [b]).length = before.length + 1 := by
    rw [length_append, length_singleton]
  have hhead : (((w.zipIdx (before.length + 1 + settled.length)).filter fun e =>
      isUpdate role e.1) ++ [(x, before.length + 1 + settled.length + w.length)]).head? =
        some (((w.zipIdx (before.length + 1 + settled.length)).filter fun e =>
          isUpdate role e.1).headD (x, before.length + 1 + settled.length + w.length)) := by
    cases (w.zipIdx (before.length + 1 + settled.length)).filter fun e => isUpdate role e.1 <;>
      rfl
  have hfirst : (((w.zipIdx (before.length + 1 + settled.length)).filter fun e =>
      isUpdate role e.1).headD (x, before.length + 1 + settled.length + w.length)).1 =
        (updatesOf role w).headD x := by
    rw [updatesOf, ← map_fst_filter_zipIdx (l := w) (k := before.length + 1 + settled.length)]
    exact headD_map.symm
  rw [foldRoleMessages_eq hbase parts, hcheck]
  simp only [hcount, hrecent, take_updates hx, hhead, List.getLast?_concat, hfirst,
    map_append, map_singleton]
  rw [hlist, ← hlen, flatMap_replaceEntry, append_assoc, singleton_append]

end Fold

end RoleFolds
