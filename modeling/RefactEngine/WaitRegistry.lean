import RefactEngine.WaitGraph
import Mathlib.Algebra.BigOperators.Ring.List
import Mathlib.Algebra.Order.BigOperators.Group.List
import Mathlib.Data.List.Dedup

/-! # Declared waits and their versions

A wait is declared by the code that blocks and lives as long as its handle. Each run has a version
that counts the waits it is part of, when they come and when they go. Versions are forgotten when
there are too many of them, and exactly then an equal version no longer means equal waits.
-/
namespace DeadlockDetector

open WorkIdentity List

structure LiveWait where
  fromRun : RunKey
  targets : List WaitTarget
  kind : WaitKind
  detail : String
  refusal : Option DeadlockReport

def LiveWait.runs (wait : LiveWait) : List RunKey :=
  wait.fromRun :: wait.targets.filterMap WaitTarget.run?

structure RegistryState where
  nextGroup : ℕ
  waits : AList fun _ : ℕ => LiveWait
  versions : AList fun _ : RunKey => ℕ
  latest : Option DeadlockReport

namespace RegistryState

def empty : RegistryState := ⟨0, ∅, ∅, none⟩

variable (state : RegistryState)

def versionOf (run : RunKey) : ℕ := (state.versions.lookup run).getD 0

def bump (wait : LiveWait) : RegistryState :=
  { state with versions := wait.runs.foldl AList.bump state.versions }

def edgeCount : ℕ := (state.waits.entries.map fun entry => entry.2.targets.length).sum

def liveRuns : List RunKey := state.waits.entries.flatMap fun entry => entry.2.runs

def tracks (maxEdges : ℕ) (targets : List WaitTarget) : Bool :=
  !targets.isEmpty && decide (state.edgeCount + targets.length ≤ maxEdges)

def forgetVersions (maxEdges : ℕ) : RegistryState :=
  if maxEdges * 4 < state.versions.keys.length then
    { state with versions := state.versions.retain fun run _ => run ∈ state.liveRuns }
  else state

def declare (maxEdges : ℕ) (fromRun : RunKey) (kind : WaitKind) (targets : List WaitTarget)
    (detail : String) : RegistryState × Option ℕ :=
  if state.tracks maxEdges targets then
    let group := state.nextGroup + 1
    let wait : LiveWait := ⟨fromRun, targets, kind, detail, none⟩
    let kept := ({ state with nextGroup := group }.bump wait).forgetVersions maxEdges
    ({ kept with waits := kept.waits.insert group wait }, some group)
  else (state, none)

def dropHandle (handle : Option ℕ) : RegistryState :=
  match handle with
  | none => state
  | some group =>
    match state.waits.lookup group with
    | none => state
    | some wait => { state with waits := state.waits.erase group }.bump wait

def waiting (edge : WaitEdge) : Option (ℕ × RunKey) := do
  let group ← edge.group
  let wait ← state.waits.lookup group
  if wait.fromRun = edge.fromRun then some (group, wait.fromRun) else none

/-- The wait that closed the loop is refused, or the first one of the cycle that still waits. -/
def refuse (report : DeadlockReport) : RegistryState × Option RunKey :=
  let reported := { state with latest := some report }
  match (state.waiting report.closingEdge).orElse fun _ =>
      report.cycle.findSome? state.waiting with
  | none => (reported, none)
  | some (group, waiter) =>
    ({ reported with
      waits := state.waits.modify group fun wait => { wait with refusal := some report } },
      some waiter)

end RegistryState

/-- A call of the registry, or the end of a handle. The bound is read from the settings by every
declaration. -/
inductive RegistryCall where
  | declare (maxEdges : ℕ) (fromRun : RunKey) (kind : WaitKind) (targets : List WaitTarget)
      (detail : String)
  | dropHandle (handle : Option ℕ)
  | refuse (report : DeadlockReport)

namespace RegistryState

variable (state : RegistryState)

def call : RegistryCall → RegistryState
  | .declare maxEdges fromRun kind targets detail =>
    (state.declare maxEdges fromRun kind targets detail).1
  | .dropHandle handle => state.dropHandle handle
  | .refuse report => (state.refuse report).1

def touched : RegistryCall → List RunKey
  | .declare maxEdges fromRun kind targets detail =>
    if state.tracks maxEdges targets then (LiveWait.mk fromRun targets kind detail none).runs
    else []
  | .dropHandle handle => ((handle.bind state.waits.lookup).map LiveWait.runs).getD []
  | .refuse _ => []

def Forgets (c : RegistryCall) : Prop :=
  match c with
  | .declare maxEdges _ _ targets _ => state.tracks maxEdges targets = true ∧
    maxEdges * 4 < (state.versions.keys ++ state.touched c).dedup.length
  | .dropHandle _ | .refuse _ => False

end RegistryState

def stateAfter (calls : List RegistryCall) (n : ℕ) : RegistryState :=
  (calls.take n).foldl RegistryState.call .empty

/-- Between two moments with one version of a run, no wait with it was declared or dropped. -/
def StableVersions (calls : List RegistryCall) : Prop :=
  ∀ s t, s < t → t ≤ calls.length → ∀ run,
    (stateAfter calls s).versionOf run = (stateAfter calls t).versionOf run →
      ∀ i c, s ≤ i → i < t → calls[i]? = some c → run ∉ (stateAfter calls i).touched c

theorem lookup_bumps (runs : List RunKey) (versions : AList fun _ : RunKey => ℕ) (run : RunKey) :
    ((runs.foldl AList.bump versions).lookup run).getD 0 =
      (versions.lookup run).getD 0 + runs.count run := by
  induction runs generalizing versions with
  | nil => rfl
  | cons r runs ih =>
    rw [foldl_cons, ih, AList.bump, AList.lookup_insert_if, count_cons]
    by_cases h : run = r
    · subst h
      rw [if_pos rfl, Option.getD_some, beq_self_eq_true, if_pos rfl]
      omega
    · rw [if_neg h, if_neg (by simpa using Ne.symm h), Nat.add_zero]

theorem mem_bumps {runs : List RunKey} {versions : AList fun _ : RunKey => ℕ} {run : RunKey} :
    run ∈ runs.foldl AList.bump versions ↔ run ∈ versions ∨ run ∈ runs := by
  induction runs generalizing versions with
  | nil => simp
  | cons r runs ih =>
    rw [foldl_cons, ih, AList.bump, AList.mem_insert, mem_cons]
    tauto

theorem length_bumps (runs : List RunKey) (versions : AList fun _ : RunKey => ℕ) :
    (runs.foldl AList.bump versions).keys.length = (versions.keys ++ runs).dedup.length := by
  apply List.Perm.length_eq
  apply (perm_ext_iff_of_nodup (AList.keys_nodup _) (nodup_dedup _)).mpr
  intro run
  rw [List.mem_dedup, mem_append, ← AList.mem_keys, ← AList.mem_keys, mem_bumps]

def RegistryState.Targeted (state : RegistryState) : Prop :=
  ∀ group wait, state.waits.lookup group = some wait → wait.targets ≠ []

theorem length_runs_le {wait : LiveWait} (h : wait.targets ≠ []) :
    wait.runs.length ≤ 2 * wait.targets.length := by
  have hpos : 0 < wait.targets.length := length_pos_iff.mpr h
  have hle : (wait.targets.filterMap WaitTarget.run?).length ≤ wait.targets.length :=
    length_filterMap_le _ _
  rw [LiveWait.runs, length_cons]
  omega

theorem RegistryState.Targeted.length_liveRuns_le {state : RegistryState} (h : state.Targeted) :
    state.liveRuns.length ≤ 2 * state.edgeCount := by
  rw [RegistryState.liveRuns, RegistryState.edgeCount, length_flatMap, ← sum_map_mul_left]
  apply sum_le_sum
  rintro ⟨group, wait⟩ hmem
  exact length_runs_le (h group wait (AList.mem_entries_iff.mp hmem))

section Steps

variable {state : RegistryState} {c : RegistryCall}

theorem RegistryState.versionOf_bump (wait : LiveWait) (run : RunKey) :
    (state.bump wait).versionOf run = state.versionOf run + wait.runs.count run :=
  lookup_bumps _ _ run

theorem RegistryState.waits_forgetVersions (maxEdges : ℕ) :
    (state.forgetVersions maxEdges).waits = state.waits := by
  rw [forgetVersions]
  split_ifs <;> rfl

theorem RegistryState.refuse_versions (report : DeadlockReport) :
    (state.refuse report).1.versions = state.versions := by
  rw [refuse]
  split <;> rfl

theorem RegistryState.versionOf_call (h : ¬ state.Forgets c) (run : RunKey) :
    (state.call c).versionOf run = state.versionOf run + (state.touched c).count run := by
  cases c with
  | declare maxEdges fromRun kind targets detail =>
    simp only [call, declare, touched, Forgets] at h ⊢
    split_ifs at h ⊢ with htracks
    · rw [not_and, not_lt] at h
      have hkeys : ({ state with nextGroup := state.nextGroup + 1 }.bump
          ⟨fromRun, targets, kind, detail, none⟩).versions.keys.length ≤ maxEdges * 4 := by
        rw [bump, length_bumps]
        exact h htracks
      rw [forgetVersions, if_neg (Nat.not_lt.mpr hkeys)]
      exact lookup_bumps _ _ run
    · rw [count_nil, Nat.add_zero]
  | dropHandle handle =>
    cases handle with
    | none => rfl
    | some group =>
      simp only [call, dropHandle, touched, Option.bind_some]
      cases state.waits.lookup group with
      | none => rfl
      | some wait => exact versionOf_bump wait run
  | refuse report =>
    rw [touched, count_nil, Nat.add_zero, versionOf, versionOf, call, refuse_versions]

theorem RegistryState.mem_versions_call {run : RunKey} (h : run ∈ (state.call c).versions) :
    run ∈ state.versions ∨ run ∈ state.touched c := by
  cases c with
  | declare maxEdges fromRun kind targets detail =>
    simp only [call, declare, touched] at h ⊢
    split_ifs at h ⊢ with htracks
    · apply mem_bumps.mp
      rw [forgetVersions] at h
      split_ifs at h with hmany
      · obtain ⟨version, hver⟩ := Option.isSome_iff_exists.mp (AList.lookup_isSome.mpr h)
        exact AList.lookup_isSome.mp (Option.isSome_iff_exists.mpr
          ⟨version, (AList.lookup_retain.mp hver).1⟩)
      · exact h
    · exact Or.inl h
  | dropHandle handle =>
    cases handle with
    | none => exact Or.inl h
    | some group =>
      simp only [call, dropHandle, touched, Option.bind_some] at h ⊢
      cases hwait : state.waits.lookup group with
      | none =>
        rw [hwait] at h
        exact Or.inl h
      | some wait =>
        rw [hwait] at h
        exact mem_bumps.mp h
  | refuse report =>
    rw [call, refuse_versions] at h
    exact Or.inl h

theorem RegistryState.Targeted.call (h : state.Targeted) (c : RegistryCall) :
    (state.call c).Targeted := by
  intro group wait hwait
  cases c with
  | declare maxEdges fromRun kind targets detail =>
    simp only [RegistryState.call, declare] at hwait
    split_ifs at hwait with htracks
    · simp only [waits_forgetVersions, AList.lookup_insert_if] at hwait
      split_ifs at hwait with hgroup
      · cases hwait
        rw [tracks, Bool.and_eq_true, Bool.not_eq_true', isEmpty_eq_false_iff] at htracks
        exact htracks.1
      · exact h group wait hwait
    · exact h group wait hwait
  | dropHandle handle =>
    cases handle with
    | none => exact h group wait hwait
    | some dropped =>
      simp only [RegistryState.call, dropHandle] at hwait
      split at hwait
      · exact h group wait hwait
      · simp only [bump, AList.lookup_erase_if] at hwait
        split_ifs at hwait
        exact h group wait hwait
  | refuse report =>
    simp only [RegistryState.call, refuse] at hwait
    split at hwait
    · exact h group wait hwait
    · simp only [AList.lookup_modify] at hwait
      split_ifs at hwait with hgroup
      · obtain ⟨old, hold, rfl⟩ := Option.map_eq_some_iff.mp hwait
        exact h group old hold
      · exact h group wait hwait

theorem RegistryState.Targeted.forgotten (h : state.Targeted) (hforgets : state.Forgets c) :
    ∃ run, (run ∈ state.versions ∨ run ∈ state.touched c) ∧ (state.call c).versionOf run = 0 := by
  cases c with
  | dropHandle handle => exact hforgets.elim
  | refuse report => exact hforgets.elim
  | declare maxEdges fromRun kind targets detail =>
    obtain ⟨htracks, hmany⟩ := hforgets
    -- the live runs are too few to have all the versions
    have hlive : state.liveRuns.length < (state.versions.keys ++
        state.touched (.declare maxEdges fromRun kind targets detail)).dedup.length := by
      have hfits := htracks
      rw [tracks, Bool.and_eq_true, decide_eq_true_eq] at hfits
      have hle := h.length_liveRuns_le
      omega
    obtain ⟨run, hrun, hnot⟩ : ∃ run ∈ (state.versions.keys ++
        state.touched (.declare maxEdges fromRun kind targets detail)).dedup,
        run ∉ state.liveRuns := by
      by_contra hall
      have hsub : ∀ run ∈ (state.versions.keys ++
          state.touched (.declare maxEdges fromRun kind targets detail)).dedup,
          run ∈ state.liveRuns :=
        fun run hrun => by_contra fun hnot => hall ⟨run, hrun, hnot⟩
      exact absurd (subperm_of_subset (nodup_dedup _) hsub).length_le
        (Nat.not_le.mpr hlive)
    rw [List.mem_dedup, mem_append, ← AList.mem_keys] at hrun
    refine ⟨run, hrun, ?_⟩
    simp only [touched, htracks, if_true] at hmany
    simp only [RegistryState.call, declare, htracks, if_true, versionOf, forgetVersions, bump,
      length_bumps, hmany]
    cases hlook : (AList.retain _ _).lookup run with
    | none => rfl
    | some version =>
      have hlive' := (AList.lookup_retain.mp hlook).2
      exact absurd (of_decide_eq_true hlive') hnot

end Steps

variable {calls : List RegistryCall}

theorem stateAfter_succ {i : ℕ} {c : RegistryCall} (h : calls[i]? = some c) :
    stateAfter calls (i + 1) = (stateAfter calls i).call c := by
  rw [stateAfter, stateAfter, take_add_one, h, Option.toList_some, foldl_concat]

theorem targeted_stateAfter (calls : List RegistryCall) (n : ℕ) :
    (stateAfter calls n).Targeted := by
  induction n with
  | zero => exact fun _ _ h => absurd h nofun
  | succ n ih =>
    cases hc : calls[n]? with
    | none =>
      rw [stateAfter, take_add_one, hc, Option.toList_none, append_nil]
      exact ih
    | some c =>
      rw [stateAfter_succ hc]
      exact ih.call c

theorem versionOf_mono
    (hnone : ∀ i c, calls[i]? = some c → ¬ (stateAfter calls i).Forgets c) (run : RunKey)
    {s t : ℕ} (hst : s ≤ t) (ht : t ≤ calls.length) :
    (stateAfter calls s).versionOf run ≤ (stateAfter calls t).versionOf run := by
  induction t, hst using Nat.le_induction with
  | base => exact le_rfl
  | succ t hst ih =>
    have hc : calls[t]? = some calls[t] := List.getElem?_eq_getElem ht
    refine (ih (Nat.le_of_succ_le ht)).trans ?_
    rw [stateAfter_succ hc, RegistryState.versionOf_call (hnone t _ hc)]
    exact Nat.le_add_right _ _

theorem touched_of_version {n : ℕ} {run : RunKey} (hn : n ≤ calls.length)
    (h : run ∈ (stateAfter calls n).versions) :
    ∃ i c, i < n ∧ calls[i]? = some c ∧ run ∈ (stateAfter calls i).touched c := by
  induction n with
  | zero => exact absurd h (AList.notMem_empty _)
  | succ n ih =>
    have hc : calls[n]? = some calls[n] := List.getElem?_eq_getElem hn
    rw [stateAfter_succ hc] at h
    rcases RegistryState.mem_versions_call h with hbef | htouched
    · obtain ⟨i, c, hi, hc', hin⟩ := ih (Nat.le_of_succ_le hn) hbef
      exact ⟨i, c, Nat.lt_succ_of_lt hi, hc', hin⟩
    · exact ⟨n, _, Nat.lt_succ_self n, hc, htouched⟩

/-- An equal version means equal waits exactly in the runs in which no version is forgotten. -/
theorem stableVersions_iff (calls : List RegistryCall) :
    StableVersions calls ↔
      ∀ i c, calls[i]? = some c → ¬ (stateAfter calls i).Forgets c := by
  constructor
  · intro hstable i c hc hforgets
    have hi : i < calls.length := (List.getElem?_eq_some_iff.mp hc).1
    obtain ⟨run, hrun, hzero⟩ := (targeted_stateAfter calls i).forgotten hforgets
    -- the version of the run is what it was before the first call
    have hsame : (stateAfter calls 0).versionOf run = (stateAfter calls (i + 1)).versionOf run := by
      rw [stateAfter_succ hc, hzero]
      rfl
    have hnot := hstable 0 (i + 1) (Nat.succ_pos i) hi run hsame
    rcases hrun with hbefore | htouched
    · obtain ⟨j, c', hj, hc', hin⟩ := touched_of_version hi.le hbefore
      exact hnot j c' (Nat.zero_le j) (Nat.lt_succ_of_lt hj) hc' hin
    · exact hnot i c (Nat.zero_le i) (Nat.lt_succ_self i) hc htouched
  · intro hnone s t hst ht run hsame i c hsi hit hc htouched
    have hbefore := versionOf_mono hnone run hsi (hit.le.trans ht)
    have hafter := versionOf_mono hnone run hit ht
    have hcount : 0 < ((stateAfter calls i).touched c).count run :=
      count_pos_iff.mpr htouched
    rw [Nat.succ_eq_add_one, stateAfter_succ hc,
      RegistryState.versionOf_call (hnone i c hc)] at hafter
    omega

def threeWaits : List RegistryCall :=
  let wait (source target : String) : RegistryCall :=
    .declare 1 ((WorkKey.backgroundAgent source).run 1) .agentWait
      [.run ((WorkKey.backgroundAgent target).run 1)] "wait"
  [wait "a" "b", .dropHandle (some 1), wait "c" "d", .dropHandle (some 2), wait "e" "f"]

/-- The third wait leaves the version of its run at zero. -/
theorem threeWaits_unstable :
    ¬ StableVersions threeWaits ∧
      let run := (WorkKey.backgroundAgent "e").run 1
      (stateAfter threeWaits 4).versionOf run = 0 ∧ (stateAfter threeWaits 5).versionOf run = 0 ∧
        run ∈ (stateAfter threeWaits 5).liveRuns := by
  have hsame : (stateAfter threeWaits 4).versionOf ((WorkKey.backgroundAgent "e").run 1) = 0 ∧
      (stateAfter threeWaits 5).versionOf ((WorkKey.backgroundAgent "e").run 1) = 0 ∧
      (WorkKey.backgroundAgent "e").run 1 ∈ (stateAfter threeWaits 5).liveRuns := by
    decide
  refine ⟨fun hstable => ?_, hsame⟩
  refine hstable 4 5 (by decide) (by decide) ((WorkKey.backgroundAgent "e").run 1)
    (hsame.1.trans hsame.2.1.symm) 4 _ le_rfl (by decide) rfl ?_
  decide

end DeadlockDetector
