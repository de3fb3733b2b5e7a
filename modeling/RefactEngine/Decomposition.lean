import Mathlib.Data.Finset.Sort
import RefactEngine.CoordinationSettings
import RefactEngine.TextLines
import Mathlib.Algebra.Order.Ring.Nat

/-! # What a run cost, and who is told

A finished run leaves a row with its costs and a bounded sample of its paths. Before a model is
advised, the rows with a path that is withheld from it are dropped. The sample holds the first paths
in order, so a withheld path beyond it does not drop the row.
-/
namespace Decomposition

open CoordinationSettings (isWhitespace)
open List
open TextLines

abbrev Text := List Char

def maxRecordedPaths : ℕ := 64

def noStore : Text :=
  "no coordination store is available, so no run costs were recorded".toList

def policyUnavailable : Text :=
  ("current destination privacy policy is unavailable; restore a valid policy and model ".toList ++
    "selection, then retry with a fresh snapshot".toList)

inductive BgAgentStatus where
  | queued
  | running
  | waitingForApproval
  | completed
  | failed
  | cancelled
  | interrupted
  | closed
  deriving DecidableEq

structure BackgroundAgent where
  agentId : Text
  runGeneration : ℕ
  parentChatId : Text
  parentRootChatId : Option Text
  profileName : Option Text
  configName : Text
  targetFiles : List Text
  editedFiles : List Text
  status : BgAgentStatus
  previousRuns : ℕ
  tokensUsed : ℕ
  stepCount : ℕ
  createdAt : ℤ
  startedAt : Option ℤ
  finishedAt : Option ℤ
  lastUpdateAt : ℤ

structure RunOutcome where
  recordId : Text
  workId : Text
  workClass : Text
  fanOutGroup : Option Text
  siblingCount : ℤ
  wallClockMs : ℤ
  tokens : ℤ
  turns : ℤ
  toolCalls : ℤ
  succeeded : Bool
  reworked : Bool
  recordedAtMs : ℤ
  paths : List Text
  deriving DecidableEq

variable (record : BackgroundAgent)

def recordedAt : ℤ := record.finishedAt.getD record.lastUpdateAt

def runWindow : ℤ × ℤ :=
  let start := record.startedAt.getD record.createdAt
  (start, max (recordedAt record) start)

def fanOutGroup : Text :=
  record.parentRootChatId.getD record.parentChatId

def metricKey (profileName : Option Text) (configName : Text) : Text :=
  match (profileName.map (trimBy isWhitespace)).filter fun name => decide (name ≠ []) with
  | some name => "profile:".toList ++ name
  | none => "config:".toList ++ configName

def dedup : List Text → List Text
  | [] => []
  | [path] => [path]
  | path :: next :: rest =>
    if path = next then dedup (next :: rest) else path :: dedup (next :: rest)

def recordedPaths (files : List Text) : List Text :=
  (dedup (files.insertionSort (· ≤ ·))).take maxRecordedPaths

def files : List Text := record.targetFiles ++ record.editedFiles

def overlaps (record sibling : BackgroundAgent) : Bool :=
  decide (sibling.agentId ≠ record.agentId ∧ fanOutGroup sibling = fanOutGroup record ∧
    (runWindow sibling).1 ≤ (runWindow record).2 ∧ (runWindow record).1 ≤ (runWindow sibling).2)

def asI64 (n : ℕ) : ℤ := Int.bmod n (2 ^ 64)

def outcomeFromAgent (siblings : List BackgroundAgent)
    (toolCalls : ℤ) : RunOutcome where
  recordId := record.agentId ++ ":".toList ++ (toString record.runGeneration).toList
  workId := record.agentId
  workClass := metricKey record.profileName record.configName
  fanOutGroup := some (fanOutGroup record)
  siblingCount := 1 + (siblings.filter (overlaps record)).length
  wallClockMs := (runWindow record).2 - (runWindow record).1
  tokens := asI64 record.tokensUsed
  turns := record.stepCount
  toolCalls
  succeeded := decide (record.status = .completed)
  reworked := decide (1 < record.runGeneration) || decide (record.previousRuns ≠ 0)
  recordedAtMs := recordedAt record
  paths := recordedPaths (files record)

abbrev Ledger := List RunOutcome

variable (ledger : Ledger) (outcome : RunOutcome)

def putOutcome : Ledger :=
  if ledger.any fun row => decide (row.recordId = outcome.recordId) then
    ledger.map fun row => if row.recordId = outcome.recordId then outcome else row
  else ledger ++ [outcome]

def rowOrder (row : RunOutcome) : ℤ ×ₗ Text := toLex (row.recordedAtMs, row.recordId)

def newestFirst : Ledger :=
  ledger.insertionSort fun a b => rowOrder b ≤ rowOrder a

def pruneOutcomes (maxRecords : ℕ) : Ledger :=
  let evicted := ((newestFirst ledger).drop maxRecords).map RunOutcome.recordId
  ledger.filter fun row => decide (row.recordId ∉ evicted)

def listOutcomes (workClass : Text) (limit : ℕ) : List RunOutcome :=
  (newestFirst (ledger.filter fun row => decide (row.workClass = workClass))).take limit

def observe (cap : ℕ) (record : BackgroundAgent)
    (siblings : List BackgroundAgent) (toolCalls : ℤ) : Ledger :=
  pruneOutcomes (putOutcome ledger (outcomeFromAgent record siblings toolCalls)) (max cap 1)

structure CohortStat where
  samples : ℕ
  medianWallClockMs : ℤ
  meanWallClockMs : ℤ
  medianTokens : ℤ
  meanTokens : ℤ
  succeeded : ℕ
  reworked : ℕ

inductive Verdict where
  | fanOutCheaper
  | singleCheaper
  | fanOutFasterButCostlier
  | fanOutSlowerButCheaper

structure Comparison where
  workClass : Text
  single : CohortStat
  fannedOut : CohortStat
  wallClockDeltaMs : ℤ
  tokensDelta : ℤ
  verdict : Verdict

inductive Advice where
  | unavailable (reason : Text)
  | insufficientData (workClass : Text) (singleSamples fannedOutSamples required : ℕ)
  | comparison (comparison : Comparison)

def median (values : List ℤ) : ℤ :=
  let values := values.insertionSort (· ≤ ·)
  let middle := values.length / 2
  if values.length = 0 then 0
  else if values.length % 2 = 1 then values.getD middle 0
  else (values.getD (middle - 1) 0 + values.getD middle 0).tdiv 2

def saturatingAdd (a b : ℤ) : ℤ := max (-2 ^ 63) (min (2 ^ 63 - 1) (a + b))

def mean (values : List ℤ) : ℤ :=
  if values = [] then 0 else (values.foldl saturatingAdd 0).tdiv values.length

def cohort (records : List RunOutcome) : CohortStat where
  samples := records.length
  medianWallClockMs := median (records.map RunOutcome.wallClockMs)
  meanWallClockMs := mean (records.map RunOutcome.wallClockMs)
  medianTokens := median (records.map RunOutcome.tokens)
  meanTokens := mean (records.map RunOutcome.tokens)
  succeeded := records.countP RunOutcome.succeeded
  reworked := records.countP RunOutcome.reworked

def RunOutcome.fannedOut : Bool := decide (1 < outcome.siblingCount)

def verdict (wallClockDeltaMs tokensDelta : ℤ) : Verdict :=
  if wallClockDeltaMs < 0 then
    if tokensDelta ≤ 0 then .fanOutCheaper else .fanOutFasterButCostlier
  else if tokensDelta ≤ 0 then .fanOutSlowerButCheaper
  else .singleCheaper

def aggregate (records : List RunOutcome) (workClass : Text) (minSamples : ℕ) : Advice :=
  let required := max minSamples 1
  let comparable := records.filter fun record => decide (record.workClass = workClass)
  let fannedOut := comparable.filter RunOutcome.fannedOut
  let single := comparable.filter fun record => !record.fannedOut
  if single.length < required ∨ fannedOut.length < required then
    .insufficientData workClass single.length fannedOut.length required
  else
    let one := cohort single
    let many := cohort fannedOut
    let wallClockDeltaMs := many.medianWallClockMs - one.medianWallClockMs
    let tokensDelta := many.medianTokens - one.medianTokens
    .comparison ⟨workClass, one, many, wallClockDeltaMs, tokensDelta,
      verdict wallClockDeltaMs tokensDelta⟩

/-- The privacy policy as the filter uses it: a key that names the policy, unless it is unusable,
and whether a path may be sent to a model. A list of paths may be sent if each of them may. -/
structure Guard (Model : Type) where
  modelId : Model → Text
  policyKey : Option Text
  clears : Model → Text → Bool

variable {Model : Type}

def Guard.key (guard : Guard Model) (model : Model) : Option Text :=
  if trimBy isWhitespace (guard.modelId model) = [] then none
  else guard.policyKey.map fun key => guard.modelId model ++ ":".toList ++ key

variable (guard after : Guard Model) (model : Option Model)

def clearForModel (records : List RunOutcome) :
    Except Text (List RunOutcome) :=
  match model.filter fun model => decide (trimBy isWhitespace (guard.modelId model) ≠ []) with
  | none => .ok []
  | some model =>
    match guard.key model with
    | none => .error policyUnavailable
    | some before =>
      let visible := records.filter fun record => record.paths.all (guard.clears model)
      if after.key model ≠ some before then .error policyUnavailable else .ok visible

def adviseForModel (ledger : Option Ledger)
    (workClass : Text) (limit minSamples : ℕ) : Advice :=
  match ledger with
  | none => .unavailable noStore
  | some ledger =>
    match clearForModel guard after model (listOutcomes ledger workClass limit) with
    | .ok visible => aggregate visible workClass minSamples
    | .error reason => .unavailable reason

def Told (row : RunOutcome) : Prop :=
  ∃ records visible, clearForModel guard after model records = .ok visible ∧ row ∈ visible

def NothingTold (model : Model) : Prop :=
  guard.key model = none ∨ after.key model ≠ guard.key model

/-- If a file of the run is withheld from the model, fewer than the recorded number of its files
come before one that is. -/
def WithheldSampled (guard : Guard Model) (model : Model) (record : BackgroundAgent) : Prop :=
  (∃ file ∈ files record, guard.clears model file = false) →
    ∃ file ∈ files record, guard.clears model file = false ∧
      ((files record).toFinset.filter (· < file)).card < maxRecordedPaths

/-- The runs differ in their costs alone: when they started, tokens, turns, tool calls and success.
Both ended at the same time, the order in which rows are kept. -/
structure SameButCosts (record other : BackgroundAgent) : Prop where
  agentId : other.agentId = record.agentId
  runGeneration : other.runGeneration = record.runGeneration
  profileName : other.profileName = record.profileName
  configName : other.configName = record.configName
  files : files other = files record
  recordedAt : recordedAt other = recordedAt record

variable {l : List Text}

theorem mem_dedup {path : Text} : path ∈ dedup l ↔ path ∈ l := by
  fun_induction dedup l with
  | case1 => rfl
  | case2 => rfl
  | case3 rest next ih =>
    rw [ih]
    simp
  | case4 first next rest hne ih =>
    rw [mem_cons, ih, ← mem_cons]

theorem ascending_dedup (h : l.Pairwise (· ≤ ·)) : (dedup l).Pairwise (· < ·) := by
  fun_induction dedup l with
  | case1 => exact List.Pairwise.nil
  | case2 path => exact pairwise_singleton _ _
  | case3 rest next ih => exact ih (pairwise_cons.mp h).2
  | case4 first next rest hne ih =>
    obtain ⟨hfirst, hrest⟩ := pairwise_cons.mp h
    refine pairwise_cons.mpr ⟨fun path hmem => ?_, ih hrest⟩
    rcases mem_cons.mp (mem_dedup.mp hmem) with rfl | hmem
    · exact lt_of_le_of_ne (hfirst _ mem_cons_self) hne
    · have hlt : first < next := lt_of_le_of_ne (hfirst _ mem_cons_self) hne
      exact hlt.trans_le ((pairwise_cons.mp hrest).1 path hmem)

theorem mem_take_ascending (h : l.Pairwise (· < ·)) (n : ℕ) (a : Text) :
    a ∈ l.take n ↔ a ∈ l ∧ (l.filter (· < a)).length < n := by
  induction l generalizing n with
  | nil => simp
  | cons b rest ih =>
    obtain ⟨hb, hrest⟩ := pairwise_cons.mp h
    cases n with
    | zero => simp
    | succ n =>
      rw [take_succ_cons, mem_cons, mem_cons, ih hrest n]
      by_cases hab : a = b
      · subst hab
        have hnone : rest.filter (· < a) = [] := by
          apply filter_eq_nil_iff.mpr
          intro c hc
          simpa using (hb c hc).le
        simp [hnone]
      · constructor
        · rintro (he | ⟨hmem, hlen⟩)
          · exact absurd he hab
          · refine ⟨Or.inr hmem, ?_⟩
            rw [filter_cons_of_pos (by simpa using hb a hmem), length_cons]
            omega
        · rintro ⟨he | hmem, hlen⟩
          · exact absurd he hab
          · rw [filter_cons_of_pos (by simpa using hb a hmem), length_cons] at hlen
            exact Or.inr ⟨hmem, by omega⟩

theorem mem_recordedPaths {path : Text} :
    path ∈ recordedPaths l ↔ path ∈ l ∧ (l.toFinset.filter (· < path)).card < maxRecordedPaths := by
  have hascending : (dedup (l.insertionSort (· ≤ ·))).Pairwise (· < ·) :=
    ascending_dedup (pairwise_insertionSort _ l)
  have hmem : ∀ a, a ∈ dedup (l.insertionSort (· ≤ ·)) ↔ a ∈ l := by
    intro a
    rw [mem_dedup, mem_insertionSort]
  have hcard : ((dedup (l.insertionSort (· ≤ ·))).filter (· < path)).length =
      (l.toFinset.filter (· < path)).card := by
    have hnodup : ((dedup (l.insertionSort (· ≤ ·))).filter (· < path)).Nodup :=
      (hascending.imp fun h => h.ne).filter _
    rw [← toFinset_card_of_nodup hnodup]
    congr 1
    ext a
    simp only [mem_toFinset, mem_filter, Finset.mem_filter, hmem, decide_eq_true_eq]
  rw [recordedPaths, mem_take_ascending hascending, hmem, hcard]

variable {guard : Guard Model}

theorem told_iff {after : Guard Model} {model : Option Model} {row : RunOutcome} :
    Told guard after model row ↔ ∃ m, model = some m ∧ ¬ NothingTold guard after m ∧
      ∀ path ∈ row.paths, guard.clears m path = true := by
  constructor
  · rintro ⟨records, visible, hclear, hmem⟩
    cases model with
    | none => cases hclear; exact absurd hmem not_mem_nil
    | some m =>
      rw [clearForModel, Option.filter_some] at hclear
      split_ifs at hclear with hid
      · cases hkey : guard.key m with
        | none => simp only [hkey] at hclear; cases hclear
        | some before =>
          simp only [hkey] at hclear
          split_ifs at hclear with hafter
          cases hclear
          refine ⟨m, rfl, ?_, ?_⟩
          · rintro (hnone | hchanged)
            · rw [hkey] at hnone
              cases hnone
            · exact hchanged ((not_not.mp hafter).trans hkey.symm)
          · exact all_eq_true.mp (mem_filter.mp hmem).2
      · cases hclear
        exact absurd hmem not_mem_nil
  · rintro ⟨m, rfl, htold, hclears⟩
    obtain ⟨hkey, hafter⟩ := not_or.mp htold
    obtain ⟨before, hbef⟩ := Option.ne_none_iff_exists'.mp hkey
    have hid : trimBy isWhitespace (guard.modelId m) ≠ [] := by
      intro hblank
      rw [Guard.key, if_pos hblank] at hbef
      cases hbef
    refine ⟨[row], [row], ?_, mem_singleton_self row⟩
    have hsame : after.key m = some before := (not_not.mp hafter).trans hbef
    have hall : row.paths.all (guard.clears m) = true := all_eq_true.mpr hclears
    rw [clearForModel, Option.filter_some, if_pos (decide_eq_true hid)]
    simp [hbef, hsame, hall]

variable {record : BackgroundAgent}

theorem withheld_path_of_sampled {m : Model} (hsampled : WithheldSampled guard m record)
    (hwithheld : ∃ file ∈ files record, guard.clears m file = false) :
    (recordedPaths (files record)).all (guard.clears m) = false := by
  obtain ⟨file, hmem, hfile, hcard⟩ := hsampled hwithheld
  apply all_eq_false.mpr
  exact ⟨file, mem_recordedPaths.mpr ⟨hmem, hcard⟩, by rw [hfile]; exact Bool.false_ne_true⟩

/-- What is told clears every file of the run, exactly if nothing is told or a withheld file would
be in the sample. -/
theorem told_clears_files_iff (guard after : Guard Model) (m : Model) (record : BackgroundAgent)
    (siblings : List BackgroundAgent) (toolCalls : ℤ) :
    (Told guard after (some m) (outcomeFromAgent record siblings toolCalls) →
      ∀ file ∈ files record, guard.clears m file = true) ↔
    NothingTold guard after m ∨ WithheldSampled guard m record := by
  constructor
  · intro h
    by_cases htold : NothingTold guard after m
    · exact Or.inl htold
    · refine Or.inr fun hwithheld => ?_
      by_contra hnone
      have hclears : ∀ path ∈ recordedPaths (files record), guard.clears m path = true := by
        intro path hmem
        obtain ⟨hfile, hcard⟩ := mem_recordedPaths.mp hmem
        by_contra hpath
        exact hnone ⟨path, hfile, Bool.of_not_eq_true hpath, hcard⟩
      obtain ⟨file, hfile, hwithheld⟩ := hwithheld
      have hclear := h (told_iff.mpr ⟨m, rfl, htold, hclears⟩) file hfile
      rw [hwithheld] at hclear
      cases hclear
  · rintro (hnothing | hsampled) htold
    · obtain ⟨m', hm, htold, -⟩ := told_iff.mp htold
      exact absurd (Option.some.inj hm ▸ hnothing) htold
    · obtain ⟨m', hm, -, hclears⟩ := told_iff.mp htold
      obtain rfl := Option.some.inj hm
      intro file hfile
      by_contra hpath
      have hsome := withheld_path_of_sampled hsampled ⟨file, hfile, Bool.of_not_eq_true hpath⟩
      have hall : (recordedPaths (files record)).all (guard.clears m) = true :=
        all_eq_true.mpr hclears
      rw [hall] at hsome
      cases hsome

def replaceRow (outcome row : RunOutcome) : RunOutcome :=
  if row.recordId = outcome.recordId then outcome else row

def OnlyRow (rows : List RunOutcome) : Prop :=
  ∀ row ∈ rows, row.recordId = outcome.recordId → row = outcome

theorem onlyRow_putOutcome (ledger : Ledger) (outcome : RunOutcome) :
    OnlyRow outcome (putOutcome ledger outcome) := by
  intro row hmem hid
  rw [putOutcome] at hmem
  split_ifs at hmem with hany
  · obtain ⟨old, -, rfl⟩ := mem_map.mp hmem
    split_ifs with hold
    · rfl
    · rw [if_neg hold] at hid
      exact absurd hid hold
  · rcases mem_append.mp hmem with hold | hnew
    · exact absurd (any_eq_true.mpr ⟨row, hold, decide_eq_true hid⟩) hany
    · exact mem_singleton.mp hnew

theorem replaceRow_recordId (outcome row : RunOutcome) :
    (replaceRow outcome row).recordId = row.recordId := by
  rw [replaceRow]
  split_ifs with h
  · exact h.symm
  · rfl

section Costs

variable {outcome other : RunOutcome}

theorem putOutcome_replace (hid : other.recordId = outcome.recordId) (ledger : Ledger) :
    putOutcome ledger other = (putOutcome ledger outcome).map (replaceRow other) := by
  rw [putOutcome, putOutcome, hid]
  by_cases hany : (ledger.any fun row => decide (row.recordId = outcome.recordId)) = true
  · rw [if_pos hany, if_pos hany, map_map]
    apply map_congr_left
    intro row hrow
    by_cases hrow : row.recordId = outcome.recordId
    · rw [if_pos hrow, Function.comp_apply, if_pos hrow, replaceRow, if_pos hid.symm]
    · rw [if_neg hrow, Function.comp_apply, if_neg hrow, replaceRow, hid, if_neg hrow]
  · rw [if_neg hany, if_neg hany, map_append, map_singleton, replaceRow,
      if_pos hid.symm]
    have hkept : ledger.map (replaceRow other) = ledger.map id := by
      apply map_congr_left
      intro row hrow
      have hne : row.recordId ≠ other.recordId := by
        rw [hid]
        exact fun he => hany (any_eq_true.mpr ⟨row, hrow, decide_eq_true he⟩)
      rw [replaceRow, if_neg hne]
      rfl
    rw [hkept, map_id]

variable {rows : List RunOutcome}

theorem replaceRow_of_only (honly : OnlyRow outcome rows)
    (hid : other.recordId = outcome.recordId) {row : RunOutcome} (hrow : row ∈ rows) :
    row = outcome ∧ replaceRow other row = other ∨
      row.recordId ≠ outcome.recordId ∧ replaceRow other row = row := by
  by_cases hsame : row.recordId = outcome.recordId
  · refine Or.inl ⟨honly row hrow hsame, ?_⟩
    rw [replaceRow, hid, if_pos hsame]
  · refine Or.inr ⟨hsame, ?_⟩
    rw [replaceRow, hid, if_neg hsame]

theorem rowOrder_replaceRow (honly : OnlyRow outcome rows)
    (hid : other.recordId = outcome.recordId) (hat : other.recordedAtMs = outcome.recordedAtMs)
    {row : RunOutcome} (hrow : row ∈ rows) : rowOrder (replaceRow other row) = rowOrder row := by
  rcases replaceRow_of_only honly hid hrow with ⟨rfl, he⟩ | ⟨-, he⟩
  · rw [he, rowOrder, rowOrder, hat, hid]
  · rw [he]

theorem newestFirst_replace (honly : OnlyRow outcome rows)
    (hid : other.recordId = outcome.recordId) (hat : other.recordedAtMs = outcome.recordedAtMs) :
    newestFirst (rows.map (replaceRow other)) = (newestFirst rows).map (replaceRow other) := by
  symm
  apply map_insertionSort
  intro a ha b hb
  rw [rowOrder_replaceRow honly hid hat ha, rowOrder_replaceRow honly hid hat hb]

theorem filter_replace {p : RunOutcome → Bool}
    (hp : ∀ row ∈ rows, p (replaceRow other row) = p row) :
    (rows.map (replaceRow other)).filter p = (rows.filter p).map (replaceRow other) := by
  rw [filter_map]
  congr 1
  apply filter_congr
  exact hp

theorem pruneOutcomes_replace (honly : OnlyRow outcome rows)
    (hid : other.recordId = outcome.recordId) (hat : other.recordedAtMs = outcome.recordedAtMs)
    (maxRecords : ℕ) :
    pruneOutcomes (rows.map (replaceRow other)) maxRecords =
      (pruneOutcomes rows maxRecords).map (replaceRow other) := by
  have hevicted : ((newestFirst (rows.map (replaceRow other))).drop maxRecords).map
      RunOutcome.recordId = ((newestFirst rows).drop maxRecords).map RunOutcome.recordId := by
    rw [newestFirst_replace honly hid hat, ← map_drop, map_map]
    apply map_congr_left
    intro row _
    exact replaceRow_recordId other row
  rw [pruneOutcomes, pruneOutcomes, hevicted]
  apply filter_replace
  intro row _
  rw [replaceRow_recordId]

theorem listOutcomes_replace (honly : OnlyRow outcome rows)
    (hid : other.recordId = outcome.recordId) (hat : other.recordedAtMs = outcome.recordedAtMs)
    (hclass : other.workClass = outcome.workClass) (workClass : Text) (limit : ℕ) :
    listOutcomes (rows.map (replaceRow other)) workClass limit =
      (listOutcomes rows workClass limit).map (replaceRow other) := by
  have hfilt : (rows.map (replaceRow other)).filter (fun row => decide (row.workClass = workClass))
      = (rows.filter fun row => decide (row.workClass = workClass)).map (replaceRow other) := by
    apply filter_replace
    intro row hrow
    rcases replaceRow_of_only honly hid hrow with ⟨rfl, he⟩ | ⟨-, he⟩
    · rw [he, hclass]
    · rw [he]
  have hkept : OnlyRow outcome (rows.filter fun row => decide (row.workClass = workClass)) :=
    fun row hrow => honly row (mem_filter.mp hrow).1
  rw [listOutcomes, listOutcomes, hfilt, newestFirst_replace hkept hid hat, map_take]

theorem clearForModel_replace {guard after : Guard Model} {m : Model}
    (honly : OnlyRow outcome rows) (hid : other.recordId = outcome.recordId)
    (hpaths : other.paths = outcome.paths) (hdrop : outcome.paths.all (guard.clears m) = false) :
    clearForModel guard after (some m) (rows.map (replaceRow other)) =
      clearForModel guard after (some m) rows := by
  have hvisible : (rows.map (replaceRow other)).filter (fun row => row.paths.all (guard.clears m)) =
      rows.filter fun row => row.paths.all (guard.clears m) := by
    induction rows with
    | nil => rfl
    | cons row rest ih =>
      have hrest : OnlyRow outcome rest := fun r hr => honly r (mem_cons_of_mem row hr)
      rw [map_cons, filter_cons, filter_cons, ih hrest]
      rcases replaceRow_of_only honly hid mem_cons_self with ⟨rfl, he⟩ | ⟨-, he⟩
      · rw [he, hpaths, hdrop]
        rfl
      · rw [he]
  rw [clearForModel, clearForModel, Option.filter_some]
  split_ifs
  · simp only [hvisible]
  · rfl

end Costs

theorem onlyRow_listed {outcome : RunOutcome} {rows : Ledger} (honly : OnlyRow outcome rows)
    (workClass : Text) (limit : ℕ) : OnlyRow outcome (listOutcomes rows workClass limit) := by
  intro row hrow
  have hmem := (mem_insertionSort _).mp (mem_of_mem_take hrow)
  exact honly row (mem_filter.mp hmem).1

theorem advice_of_nothingTold {after : Guard Model} {m : Model} (h : NothingTold guard after m)
    (ledger other : Ledger) (workClass : Text) (limit minSamples : ℕ) :
    adviseForModel guard after (some m) (some ledger) workClass limit minSamples =
      adviseForModel guard after (some m) (some other) workClass limit minSamples := by
  rw [adviseForModel, adviseForModel, clearForModel, clearForModel, Option.filter_some]
  split_ifs
  · rcases h with hkey | hafter
    · simp only [hkey]
    · cases hkey : guard.key m with
      | none => simp only [hkey]
      | some before =>
        rw [hkey] at hafter
        simp only [hkey, if_pos hafter]
  · rfl

/-- The advice does not depend on the costs of a run whose row is dropped. -/
theorem advice_of_dropped {after : Guard Model} {m : Model} {outcome other : RunOutcome}
    (hid : other.recordId = outcome.recordId) (hclass : other.workClass = outcome.workClass)
    (hat : other.recordedAtMs = outcome.recordedAtMs) (hpaths : other.paths = outcome.paths)
    (hdrop : outcome.paths.all (guard.clears m) = false) (ledger : Ledger) (cap : ℕ)
    (workClass : Text) (limit minSamples : ℕ) :
    adviseForModel guard after (some m) (some (pruneOutcomes (putOutcome ledger other) cap))
        workClass limit minSamples =
      adviseForModel guard after (some m) (some (pruneOutcomes (putOutcome ledger outcome) cap))
        workClass limit minSamples := by
  have honly := onlyRow_putOutcome ledger outcome
  have hpruned : OnlyRow outcome (pruneOutcomes (putOutcome ledger outcome) cap) :=
    fun row hrow => honly row (mem_filter.mp hrow).1
  rw [adviseForModel, adviseForModel, putOutcome_replace hid, pruneOutcomes_replace honly hid hat,
    listOutcomes_replace hpruned hid hat hclass,
    clearForModel_replace (onlyRow_listed hpruned workClass limit) hid hpaths hdrop]

/-- A run is told to a model only if each of its files may be sent to it, exactly if nothing is told
or a withheld file would be in the sample; and then the costs of a run with a withheld file do not
change what the model is advised. -/
theorem withheld_costs_stay_hidden_iff (guard after : Guard Model) (m : Model)
    (record : BackgroundAgent) :
    (∀ siblings toolCalls,
      (Told guard after (some m) (outcomeFromAgent record siblings toolCalls) →
        ∀ file ∈ files record, guard.clears m file = true) ↔
      NothingTold guard after m ∨ WithheldSampled guard m record) ∧
    (NothingTold guard after m ∨ WithheldSampled guard m record →
      (∃ file ∈ files record, guard.clears m file = false) →
      ∀ other siblings siblings' toolCalls toolCalls' ledger cap workClass limit minSamples,
        SameButCosts record other →
        adviseForModel guard after (some m) (some (observe ledger cap other siblings' toolCalls'))
            workClass limit minSamples =
          adviseForModel guard after (some m) (some (observe ledger cap record siblings toolCalls))
            workClass limit minSamples) ∧
    ∀ row, ¬ Told guard after (none : Option Model) row := by
  refine ⟨fun siblings toolCalls => told_clears_files_iff guard after m record siblings toolCalls,
    fun hhidden hwithheld other siblings siblings' toolCalls toolCalls' ledger cap workClass limit
      minSamples hsame => ?_, fun row htold => ?_⟩
  · rcases hhidden with hnothing | hsampled
    · exact advice_of_nothingTold hnothing _ _ workClass limit minSamples
    apply advice_of_dropped
    · simp only [outcomeFromAgent, hsame.agentId, hsame.runGeneration]
    · simp only [outcomeFromAgent, hsame.profileName, hsame.configName]
    · simp only [outcomeFromAgent, hsame.recordedAt]
    · simp only [outcomeFromAgent, hsame.files]
    · exact withheld_path_of_sampled hsampled hwithheld
  · obtain ⟨m', hm, -⟩ := told_iff.mp htold
    cases hm

/-- A run with the 65 files of one character from the exclamation mark on; the last one is withheld.
-/
def wideRun (tokens : ℕ) : BackgroundAgent where
  agentId := ['g']
  runGeneration := 1
  parentChatId := ['p']
  parentRootChatId := none
  profileName := none
  configName := ['c']
  targetFiles := (List.range 65).map fun i => [Char.ofNat (33 + i)]
  editedFiles := []
  status := .completed
  previousRuns := 0
  tokensUsed := tokens
  stepCount := 1
  createdAt := 0
  startedAt := none
  finishedAt := none
  lastUpdateAt := 0

def lastWithheld : Guard Unit := ⟨fun _ => ['m'], some ['k'], fun _ path => decide (path ≠ ['a'])⟩

/-- The model is told about a run with a file that is withheld from it. -/
theorem wide_run_told :
    Told lastWithheld lastWithheld (some ()) (outcomeFromAgent (wideRun 7) [] 0) ∧
      ∃ file ∈ files (wideRun 7), lastWithheld.clears () file = false := by
  refine ⟨⟨[outcomeFromAgent (wideRun 7) [] 0], [outcomeFromAgent (wideRun 7) [] 0], ?_,
    mem_singleton_self _⟩, ['a'], by decide, by decide⟩
  decide

/-- A run with the withheld file alone is not told, and its tokens do not show. -/
theorem narrow_run_hidden :
    (Told lastWithheld lastWithheld (some ())
        (outcomeFromAgent { wideRun 7 with targetFiles := [['a']] } [] 0) →
      ∀ file ∈ files { wideRun 7 with targetFiles := [['a']] },
        lastWithheld.clears () file = true) ∧
    adviseForModel lastWithheld lastWithheld (some ())
        (some (observe [] 4 { wideRun 9 with targetFiles := [['a']] } [] 0)) "config:c".toList 4 1 =
      adviseForModel lastWithheld lastWithheld (some ())
        (some (observe [] 4 { wideRun 7 with targetFiles := [['a']] } [] 0)) "config:c".toList 4 1
      := by
  have hsampled : WithheldSampled lastWithheld () { wideRun 7 with targetFiles := [['a']] } :=
    fun _ => ⟨['a'], by decide, by decide, by decide⟩
  obtain ⟨htold, hsame, -⟩ := withheld_costs_stay_hidden_iff lastWithheld lastWithheld ()
    { wideRun 7 with targetFiles := [['a']] }
  refine ⟨(htold [] 0).mpr (Or.inr hsampled), ?_⟩
  exact hsame (Or.inr hsampled) ⟨['a'], by decide, by decide⟩ _ [] [] 0 0 [] 4 _ 4 1
    ⟨rfl, rfl, rfl, rfl, rfl, rfl⟩

end Decomposition
