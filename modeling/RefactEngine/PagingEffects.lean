import RefactEngine.WorkPaging
import Mathlib.Algebra.Order.BigOperators.Group.List

/-! # What one page request does to the kept views

Removals of every kind are `Shrinks`; a whole call is `Evolves`, which adds at most one snapshot,
above the generation of its view, and at most one cursor, under a fresh token.
-/
namespace WorkPaging

open List

variable {σ : Type*} {s s' t : State} {settings : PagingSettings}

theorem evictWhile_induct {exceeds : σ → Bool} {evict : σ → Option σ} (P : σ → Prop)
    (hevict : ∀ s s', P s → evict s = some s' → P s') (fuel : ℕ) (s : σ) (hs : P s) :
    P (evictWhile exceeds evict fuel s).1 := by
  induction fuel generalizing s with
  | zero => exact hs
  | succ fuel ih =>
    unfold evictWhile
    split
    · cases hnext : evict s with
      | none => exact hs
      | some s' => exact ih s' (hevict s s' hs hnext)
    · exact hs

/-- A loop that reports success has evicted enough. -/
theorem evictWhile_success {exceeds : σ → Bool} {evict : σ → Option σ} (fuel : ℕ) (s : σ)
    (h : (evictWhile exceeds evict fuel s).2 = true) :
    exceeds (evictWhile exceeds evict fuel s).1 = false := by
  induction fuel generalizing s with
  | zero => simpa [evictWhile] using h
  | succ fuel ih =>
    unfold evictWhile at h ⊢
    split at h
    · rename_i hexceeds
      rw [if_pos hexceeds]
      cases hnext : evict s with
      | none => simp [hnext] at h
      | some s' =>
        simp only [hnext] at h ⊢
        exact ih s' h
    · rename_i hexceeds
      rw [if_neg hexceeds]
      simpa using hexceeds

theorem evictWhile_exhaustive {exceeds : σ → Bool} {evict : σ → Option σ} (size : σ → ℕ)
    (hempty : ∀ s, size s = 0 → exceeds s = false) (hnone : ∀ s, evict s = none → size s = 0)
    (hsome : ∀ s s', evict s = some s' → size s' < size s) (fuel : ℕ) (s : σ)
    (hfuel : size s ≤ fuel) : (evictWhile exceeds evict fuel s).2 = true := by
  induction fuel generalizing s with
  | zero => simp [evictWhile, hempty s (by omega)]
  | succ fuel ih =>
    unfold evictWhile
    split
    · rename_i hexceeds
      cases hnext : evict s with
      | none =>
        rw [hempty s (hnone s hnext)] at hexceeds
        cases hexceeds
      | some s' =>
        have hless := hsome s s' hnext
        exact ih s' (by omega)
    · rfl

structure Shrinks (s s' : State) : Prop where
  views : ∀ id v', s'.views.lookup id = some v' → ∃ v, s.views.lookup id = some v ∧
    v'.binding = v.binding ∧ v'.generation = v.generation ∧
    ∀ seq kept, v'.snapshots.lookup seq = some kept → v.snapshots.lookup seq = some kept
  cursors : ∀ token c, s'.cursors.lookup token = some c → s.cursors.lookup token = some c

theorem Shrinks.refl (s : State) : Shrinks s s where
  views _ v' hv := ⟨v', hv, rfl, rfl, fun _ _ hkept => hkept⟩
  cursors _ _ hc := hc

theorem Shrinks.trans {s₁ s₂ s₃ : State} (h : Shrinks s₁ s₂) (h' : Shrinks s₂ s₃) :
    Shrinks s₁ s₃ where
  views id v₃ hv₃ := by
    obtain ⟨v₂, hv₂, hbind, hgen, hkept⟩ := h'.views id v₃ hv₃
    obtain ⟨v₁, hv₁, hbind', hgen', hkept'⟩ := h.views id v₂ hv₂
    exact ⟨v₁, hv₁, hbind.trans hbind', hgen.trans hgen',
      fun seq kept hseq => hkept' seq kept (hkept seq kept hseq)⟩
  cursors token c hc := h.cursors token c (h'.cursors token c hc)

variable {kept : FrozenView} {id : String} {seq : ℕ}

theorem shrinks_retain (s : State) (p : String → Cursor → Bool) :
    Shrinks s { s with cursors := s.cursors.retain p } where
  views _ v' hv := ⟨v', hv, rfl, rfl, fun _ _ hkept => hkept⟩
  cursors _ _ hc := (AList.lookup_retain.mp hc).1

theorem shrinks_removeSnapshot (s : State) (viewId : String) (seq : ℕ) :
    Shrinks s (s.removeSnapshot viewId seq) where
  views id v' hv := by
    unfold State.removeSnapshot at hv
    split at hv
    · exact ⟨v', hv, rfl, rfl, fun _ _ hkept => hkept⟩
    · rename_i view hview
      simp only at hv
      split at hv
      · rw [AList.lookup_erase_if] at hv
        split at hv
        · cases hv
        · exact ⟨v', hv, rfl, rfl, fun _ _ hkept => hkept⟩
      · rw [AList.lookup_insert_if] at hv
        split at hv
        · rename_i hid
          subst hid
          cases hv
          refine ⟨view, hview, rfl, rfl, fun q kept hkept => ?_⟩
          simp only [AList.lookup_erase_if] at hkept
          split at hkept
          · cases hkept
          · exact hkept
        · exact ⟨v', hv, rfl, rfl, fun _ _ hkept => hkept⟩
  cursors _ _ hc := (AList.lookup_retain.mp hc).1

theorem shrinks_evictSnapshot (h : s.evictSnapshot = some s') : Shrinks s s' := by
  obtain ⟨kept, -, rfl⟩ := Option.map_eq_some_iff.mp h
  exact shrinks_removeSnapshot s _ _

theorem shrinks_evictView (h : s.evictView = some s') : Shrinks s s' := by
  obtain ⟨view, -, rfl⟩ := Option.map_eq_some_iff.mp h
  constructor
  · intro id v' hv
    simp only [State.removeView, AList.lookup_erase_if] at hv
    split at hv
    · cases hv
    · exact ⟨v', hv, rfl, rfl, fun _ _ hkept => hkept⟩
  · intro token c hc
    exact (AList.lookup_retain.mp hc).1

theorem shrinks_evictCursor (h : s.evictCursor = some s') : Shrinks s s' := by
  obtain ⟨c, -, rfl⟩ := Option.map_eq_some_iff.mp h
  constructor
  · intro id v' hv
    exact ⟨v', hv, rfl, rfl, fun _ _ hkept => hkept⟩
  · intro token c' hc
    simp only [AList.lookup_erase_if] at hc
    split at hc
    · cases hc
    · exact hc

theorem shrinks_evictWhile {exceeds : State → Bool} {evict : State → Option State}
    (hevict : ∀ s s', evict s = some s' → Shrinks s s') (fuel : ℕ) (s : State) :
    Shrinks s (evictWhile exceeds evict fuel s).1 :=
  evictWhile_induct (Shrinks s) (fun s₁ s₂ h₁ h₂ => h₁.trans (hevict s₁ s₂ h₂)) fuel s (.refl s)

theorem shrinks_dropExpired (s : State) (settings : PagingSettings) (nowMs : ℕ) :
    Shrinks s (s.dropExpired settings nowMs) := by
  have hfold : ∀ (kept : List (String × ℕ × FrozenView)) (s₁ : State), Shrinks s s₁ →
      Shrinks s (kept.foldl (fun state kept => state.removeSnapshot kept.1 kept.2.1) s₁) := by
    intro kept
    induction kept with
    | nil => exact fun _ h => h
    | cons head rest ih =>
      exact fun s₁ h => ih _ (h.trans (shrinks_removeSnapshot s₁ head.1 head.2.1))
  exact (hfold _ s (.refl s)).trans (shrinks_retain _ _)

theorem shrinks_pruneSnapshots (s : State) (settings : PagingSettings) (nowMs : ℕ) :
    Shrinks s (s.pruneSnapshots settings nowMs) :=
  (shrinks_dropExpired s settings nowMs).trans
    (shrinks_evictWhile (fun _ _ => shrinks_evictSnapshot) _ _)

theorem shrinks_reserveSnapshot (s : State) (settings : PagingSettings) (units bytes : ℕ)
    (viewId : String) :
    Shrinks s (s.reserveSnapshot settings units bytes viewId).1 := by
  unfold State.reserveSnapshot
  split
  · exact .refl s
  · split
    · exact .refl s
    · have hroom : Shrinks s (evictWhile (fun state => state.leavesNoRoom settings units bytes)
          State.evictSnapshot s.frozen.length s).1 :=
        shrinks_evictWhile (fun _ _ => shrinks_evictSnapshot) _ _
      split
      · rename_i roomy heq
        rw [heq] at hroom
        exact hroom
      · rename_i roomy heq
        rw [heq] at hroom
        have hplace : Shrinks roomy (evictWhile (fun state => state.lacksPlace settings viewId)
            State.evictView roomy.views.entries.length roomy).1 :=
          shrinks_evictWhile (fun _ _ => shrinks_evictView) _ _
        split
        · rename_i placed heq'
          rw [heq'] at hplace
          exact hroom.trans hplace
        · rename_i placed heq'
          rw [heq'] at hplace
          exact hroom.trans hplace

theorem shrinks_touch (s : State) (viewId : String) (nowMs : ℕ) :
    Shrinks s (s.touch viewId nowMs) where
  views id v' hv := by
    simp only [State.touch, AList.lookup_modify] at hv
    split at hv
    · obtain ⟨v, hold, rfl⟩ := Option.map_eq_some_iff.mp hv
      exact ⟨v, hold, rfl, rfl, fun _ _ hkept => hkept⟩
    · exact ⟨v', hv, rfl, rfl, fun _ _ hkept => hkept⟩
  cursors _ _ hc := hc

def viewFrozen (id : String) (view : View) : List (String × ℕ × FrozenView) :=
  view.snapshots.entries.map fun kept => (id, kept.1, kept.2)

theorem frozen_eq (s : State) :
    s.frozen = s.views.entries.flatMap fun view => viewFrozen view.1 view.2 := rfl

theorem mem_frozen : (id, seq, kept) ∈ s.frozen ↔ s.frozenAt id seq = some kept := by
  rw [frozen_eq, mem_flatMap, State.frozenAt, Option.bind_eq_some_iff]
  constructor
  · rintro ⟨view, hview, hkept⟩
    obtain ⟨entry, hentry, heq⟩ := mem_map.mp hkept
    cases heq
    exact ⟨view.2, AList.mem_entries_iff.mp hview, AList.mem_entries_iff.mp hentry⟩
  · rintro ⟨view, hview, hkept⟩
    exact ⟨⟨id, view⟩, AList.mem_entries_iff.mpr hview,
      mem_map.mpr ⟨⟨seq, kept⟩, AList.mem_entries_iff.mpr hkept, rfl⟩⟩

theorem frozen_perm_view {view : View} (h : s.views.lookup id = some view) :
    s.frozen.Perm (viewFrozen id view ++ (State.mk (s.views.erase id) s.cursors).frozen) := by
  rw [frozen_eq, frozen_eq]
  exact (AList.entries_perm_erase h).flatMap_right _

theorem frozen_insert_view (s : State) (id : String) (view : View) :
    (State.mk (s.views.insert id view) s.cursors).frozen =
      viewFrozen id view ++ (State.mk (s.views.erase id) s.cursors).frozen := by
  rw [frozen_eq, frozen_eq]
  exact flatMap_cons

theorem viewFrozen_perm_erase {view : View} (h : view.snapshots.lookup seq = some kept) :
    (viewFrozen id view).Perm ((id, seq, kept) ::
      viewFrozen id { view with snapshots := view.snapshots.erase seq }) :=
  (AList.entries_perm_erase h).map _

theorem frozen_removeSnapshot (h : s.frozenAt id seq = some kept) :
    s.frozen.Perm ((id, seq, kept) :: (s.removeSnapshot id seq).frozen) := by
  obtain ⟨view, hview, hkept⟩ := Option.bind_eq_some_iff.mp h
  refine (frozen_perm_view hview).trans ?_
  refine ((viewFrozen_perm_erase hkept).append_right _).trans ?_
  rw [cons_append]
  apply List.Perm.cons
  simp only [State.removeSnapshot, hview]
  split
  · rename_i hempty
    simp only [viewFrozen, hempty, map_nil, nil_append]
    exact .refl _
  · exact List.Perm.of_eq (frozen_insert_view s id _).symm

theorem frozen_touch (s : State) (viewId : String) (nowMs : ℕ) :
    (s.touch viewId nowMs).frozen.Perm s.frozen := by
  unfold State.touch AList.modify
  cases hview : s.views.lookup viewId with
  | none => exact .refl _
  | some view =>
    refine (List.Perm.of_eq (frozen_insert_view s viewId _)).trans ?_
    exact (frozen_perm_view hview).symm

theorem frozen_fileSnapshot (s : State) (binding : ViewBinding) (viewId : String)
    (seq nowMs : ℕ) (kept : FrozenView) :
    (s.fileSnapshot binding viewId seq nowMs kept).frozen.Subperm
      ((viewId, seq, kept) :: s.frozen) := by
  have hinsert : ∀ view : View, (viewFrozen viewId
      { view with generation := seq, snapshots := view.snapshots.insert seq kept }).Sublist
      ((viewId, seq, kept) :: viewFrozen viewId view) := by
    intro view
    simp only [viewFrozen, AList.entries_insert, map_cons]
    exact ((kerase_sublist _ _).map _).cons_cons _
  simp only [State.fileSnapshot]
  rw [frozen_insert_view]
  cases hview : s.views.lookup viewId with
  | none =>
    have herase : s.views.erase viewId = s.views :=
      AList.ext (kerase_of_notMem_keys (AList.lookup_eq_none.mp hview))
    rw [herase]
    exact ((hinsert ⟨binding, "", seq, nowMs, ∅⟩).append_right _).subperm
  | some view =>
    refine ((hinsert view).append_right _).subperm.trans ?_
    rw [cons_append]
    exact ((frozen_perm_view hview).symm.cons _).subperm

def totalUnits (s : State) : ℕ := (s.frozen.map fun kept => kept.2.2.units).sum

def totalBytes (s : State) : ℕ := (s.frozen.map fun kept => kept.2.2.bytes).sum

theorem saturate_add (a b : ℕ) : saturate (saturate a + b) = saturate (a + b) := by
  unfold saturate
  omega

theorem snapshotUsage_eq (s : State) :
    s.snapshotUsage = (saturate s.frozen.length, saturate (totalUnits s), saturate (totalBytes s)) := by
  have hfold : ∀ (l : List (String × ℕ × FrozenView)) (a b c : ℕ),
      l.foldl (fun usage kept => (saturate (usage.1 + 1), saturate (usage.2.1 + kept.2.2.units),
        saturate (usage.2.2 + kept.2.2.bytes))) (saturate a, saturate b, saturate c) =
      (saturate (a + l.length), saturate (b + (l.map fun kept => kept.2.2.units).sum),
        saturate (c + (l.map fun kept => kept.2.2.bytes).sum)) := by
    intro l
    induction l with
    | nil => intro a b c; rfl
    | cons head rest ih =>
      intro a b c
      simp only [foldl_cons, saturate_add, ih, length_cons, map_cons,
        sum_cons]
      rw [Nat.add_assoc a, Nat.add_assoc b, Nat.add_assoc c, Nat.add_comm 1]
  have hstart := hfold s.frozen 0 0 0
  simp only [Nat.zero_add] at hstart
  exact hstart

structure WithinLimits (settings : PagingSettings) (s : State) : Prop where
  views : saturate s.frozen.length ≤ settings.maxWorkViews
  rows : saturate (totalUnits s) ≤ settings.maxWorkHistoryRows
  bytes : saturate (totalBytes s) ≤ settings.maxWorkHistoryBytes

theorem exceedsLimits_iff :
    s.exceedsLimits settings = false ↔ WithinLimits settings s := by
  simp only [State.exceedsLimits, snapshotUsage_eq, Bool.or_eq_false_iff, decide_eq_false_iff_not,
    not_lt]
  exact ⟨fun ⟨⟨hviews, hrows⟩, hbytes⟩ => ⟨hviews, hrows, hbytes⟩,
    fun h => ⟨⟨h.views, h.rows⟩, h.bytes⟩⟩

theorem saturate_mono {a b : ℕ} (h : a ≤ b) : saturate a ≤ saturate b := by
  unfold saturate
  omega

theorem saturate_succ {a b n : ℕ} (h : a ≤ b + 1) (hb : saturate b < n) : saturate a ≤ n := by
  unfold saturate at hb ⊢
  omega

theorem sum_le_of_subperm {α : Type*} {l l' : List α} (f : α → ℕ) (h : l.Subperm l') :
    (l.map f).sum ≤ (l'.map f).sum := by
  obtain ⟨middle, hperm, hsub⟩ := h
  rw [← (hperm.map f).sum_nat]
  exact (hsub.map f).sum_le_sum fun _ _ => Nat.zero_le _

theorem WithinLimits.of_subperm (h : WithinLimits settings s) (hsub : s'.frozen.Subperm s.frozen) :
    WithinLimits settings s' where
  views := (saturate_mono hsub.length_le).trans h.views
  rows := (saturate_mono (sum_le_of_subperm _ hsub)).trans h.rows
  bytes := (saturate_mono (sum_le_of_subperm _ hsub)).trans h.bytes

theorem evictSnapshot_none (h : s.evictSnapshot = none) : s.frozen.length = 0 := by
  rw [State.evictSnapshot, Option.map_eq_none_iff, argmin_eq_none] at h
  rw [h, length_nil]

theorem evictSnapshot_length (h : s.evictSnapshot = some s') :
    s'.frozen.length < s.frozen.length := by
  obtain ⟨⟨id, seq, kept⟩, hmin, rfl⟩ := Option.map_eq_some_iff.mp h
  have hkept : s.frozenAt id seq = some kept := mem_frozen.mp (argmin_mem hmin)
  have hlen := (frozen_removeSnapshot hkept).length_eq
  simp only [length_cons] at hlen ⊢
  omega

theorem evictSnapshot_subperm (h : s.evictSnapshot = some s') :
    s'.frozen.Subperm s.frozen := by
  obtain ⟨⟨id, seq, kept⟩, hmin, rfl⟩ := Option.map_eq_some_iff.mp h
  have hkept : s.frozenAt id seq = some kept := mem_frozen.mp (argmin_mem hmin)
  exact (sublist_cons_self _ _).subperm.trans (frozen_removeSnapshot hkept).symm.subperm

theorem withinLimits_of_nothing (h : s.frozen.length = 0) : WithinLimits settings s := by
  rw [length_eq_zero_iff] at h
  constructor <;> simp [h, totalUnits, totalBytes, saturate]

theorem pruneSnapshots_within (s : State) (settings : PagingSettings) (nowMs : ℕ) :
    WithinLimits settings (s.pruneSnapshots settings nowMs) := by
  apply exceedsLimits_iff.mp
  apply @evictWhile_success State fun state => state.exceedsLimits settings
  apply evictWhile_exhaustive (fun state => state.frozen.length)
  · exact fun _ hempty => exceedsLimits_iff.mpr (withinLimits_of_nothing hempty)
  · exact fun _ hnone => evictSnapshot_none hnone
  · exact fun _ _ hsome => evictSnapshot_length hsome
  · exact le_rfl

theorem leavesNoRoom_iff {units bytes : ℕ} :
    s.leavesNoRoom settings units bytes = false ↔
      saturate s.frozen.length < settings.maxWorkViews ∧
      saturate (totalUnits s + units) ≤ settings.maxWorkHistoryRows ∧
      saturate (totalBytes s + bytes) ≤ settings.maxWorkHistoryBytes := by
  simp only [State.leavesNoRoom, snapshotUsage_eq, saturate_add, Bool.or_eq_false_iff,
    decide_eq_false_iff_not, not_lt, not_le, and_assoc]

theorem evictView_subperm (h : s.evictView = some s') : s'.frozen.Subperm s.frozen := by
  obtain ⟨view, hmin, rfl⟩ := Option.map_eq_some_iff.mp h
  have hview : s.views.lookup view.1 = some view.2 :=
    AList.mem_entries_iff.mp (argmin_mem hmin)
  exact (sublist_append_right _ _).subperm.trans (frozen_perm_view hview).symm.subperm

theorem reserveSnapshot_room {units bytes : ℕ} {viewId : String}
    (h : s.reserveSnapshot settings units bytes viewId = (s', .ok ())) (binding : ViewBinding)
    (seq nowMs : ℕ) (kept : FrozenView) (hunits : kept.units = units) (hbytes : kept.bytes =
      bytes) :
    WithinLimits settings (s'.fileSnapshot binding viewId seq nowMs kept) := by
  unfold State.reserveSnapshot at h
  split at h
  · cases h
  split at h
  · cases h
  split at h
  · cases h
  rename_i roomy hroomy
  split at h
  · cases h
  rename_i placed hplaced
  cases h
  have hroom : roomy.leavesNoRoom settings units bytes = false := by
    have hsuccess := @evictWhile_success State (fun state => state.leavesNoRoom settings units bytes)
      State.evictSnapshot s.frozen.length s (by rw [hroomy])
    rwa [hroomy] at hsuccess
  have hsub : s'.frozen.Subperm roomy.frozen := by
    have hall : (evictWhile (fun state => state.lacksPlace settings viewId) State.evictView
        roomy.views.entries.length roomy).1.frozen.Subperm roomy.frozen :=
      evictWhile_induct (fun state : State => state.frozen.Subperm roomy.frozen)
        (fun _ _ h₁ h₂ => (evictView_subperm h₂).trans h₁) _ _ (.refl _)
    rwa [hplaced] at hall
  obtain ⟨hviews, hrows, hbytes'⟩ := leavesNoRoom_iff.mp hroom
  have hfiled := (frozen_fileSnapshot s' binding viewId seq nowMs kept).trans
    ((subperm_cons (viewId, seq, kept)).mpr hsub)
  constructor
  · have hlen := hfiled.length_le
    rw [length_cons] at hlen
    exact saturate_succ hlen hviews
  · have hsum := sum_le_of_subperm (fun kept => kept.2.2.units) hfiled
    simp only [map_cons, sum_cons, hunits] at hsum
    refine (saturate_mono hsum).trans ?_
    rw [Nat.add_comm]
    exact hrows
  · have hsum := sum_le_of_subperm (fun kept => kept.2.2.bytes) hfiled
    simp only [map_cons, sum_cons, hbytes] at hsum
    refine (saturate_mono hsum).trans ?_
    rw [Nat.add_comm]
    exact hbytes'

end WorkPaging
