import RefactEngine.FactLedger
import Mathlib.Data.Finset.Card

/-! # Every corroboration counts once

A corroboration writes the whole provenance of a claim back as it was read, so it is only as good
as that read is fresh. The law of a row is proved for the runs whose reads are, and whose incoming
claims list each run once.
-/
namespace FactLedger

open WorkIdentity List Function

variable {cfg : LedgerConfig} {w w' : World} {a : Action} {key : ClaimKey}

def runs (provenance : List ClaimProvenance) : List (WorkKey × ℤ) :=
  provenance.map ClaimProvenance.run

def Distinct (incoming : ClaimRecord) : Prop :=
  (runs incoming.provenance).Nodup ∧ incoming.provenance.length < 2 ^ 32

/-- A corroboration finds the row that it is about to overwrite as it read it, or gone. -/
def Fresh (cfg : LedgerConfig) (w : World) : Action → Prop
  | .begin _ call => Distinct call.incoming
  | .corroborate i => ∀ call onTopic claimId read, w.phase i = .staling call onTopic [] →
      call.verdict cfg onTopic = .corroborates claimId →
      expectTopic onTopic claimId = some read →
      ∀ held, w.table.lookup read.key = some held →
        held.provenance = read.provenance ∧ held.confidencePerMille = read.confidencePerMille
  | .other => True

inductive FreshRun (cfg : LedgerConfig) : World → Prop where
  | initial : FreshRun cfg World.initial
  | tail {w w' : World} {a : Action} : FreshRun cfg w → Step cfg w a w' → Fresh cfg w a →
      FreshRun cfg w'

/-- Each run that was appended adds one step to the confidence of the row, and only one. -/
structure RowLaw (step : ℕ) (history : History) (row : ClaimRecord) : Prop where
  kept : ∀ run ∈ runs history.reported, run ∈ runs row.provenance
  once : (runs row.provenance).Nodup
  confidence : row.confidencePerMille = min confidenceCertainPerMille
    (history.origin.confidencePerMille + step * (runs history.appended).toFinset.card)
  subject : row.subject = history.origin.subject
  revision : row.subjectRevision = history.origin.subjectRevision
  predicate : row.predicate = history.origin.predicate
  assertion : row.assertion = history.origin.assertion

variable {claim : ClaimRecord} {incoming : List ClaimProvenance}

theorem mem_novelProvenance {entry : ClaimProvenance} : entry ∈ claim.novelProvenance incoming ↔
      entry ∈ incoming ∧ entry.run ∉ runs claim.provenance := by
  simp only [ClaimRecord.novelProvenance, mem_filter, Bool.not_eq_true', ← Bool.not_eq_true,
    any_eq_true, ClaimProvenance.sameRun_iff, runs, mem_map]

theorem runs_append (one other : List ClaimProvenance) :
    runs (one ++ other) = runs one ++ runs other := map_append

theorem nodup_novel (hclaim : (runs claim.provenance).Nodup) (hincoming : (runs incoming).Nodup) :
    (runs (claim.provenance ++ claim.novelProvenance incoming)).Nodup := by
  have hsub : List.Sublist (runs (claim.novelProvenance incoming)) (runs incoming) :=
    filter_sublist.map _
  rw [runs_append, nodup_append]
  refine ⟨hclaim, hincoming.sublist hsub, ?_⟩
  intro run hrun other hother heq
  obtain ⟨entry, hentry, rfl⟩ := mem_map.mp hother
  exact (mem_novelProvenance.mp hentry).2 (heq ▸ hrun)

theorem incoming_covered (claim : ClaimRecord) (incoming : List ClaimProvenance)
    {run : WorkKey × ℤ} (hrun : run ∈ runs incoming) :
    run ∈ runs (claim.provenance ++ claim.novelProvenance incoming) := by
  rw [runs_append, mem_append]
  by_cases hold : run ∈ runs claim.provenance
  · exact .inl hold
  · right
    obtain ⟨entry, hentry, rfl⟩ := mem_map.mp hrun
    exact mem_map_of_mem (mem_novelProvenance.mpr ⟨hentry, hold⟩)

structure Corroborated (step : ℕ) (read claim : ClaimRecord)
    (incoming : List ClaimProvenance) : Prop where
  key : claim.key = read.key
  provenance : claim.provenance = read.provenance ++ read.novelProvenance incoming
  confidence : (read.novelProvenance incoming).length < 2 ^ 32 →
    claim.confidencePerMille = min confidenceCertainPerMille
      (read.confidencePerMille + step * (read.novelProvenance incoming).length)

theorem corroborate_raised {step : ℕ} {read : ClaimRecord} {atMs : ℤ} {before after : ℕ}
    (h : read.corroborate incoming step atMs = (claim, .raised before after)) :
    Corroborated step read claim incoming := by
  simp only [ClaimRecord.corroborate] at h
  split at h
  · cases h
  · cases h
    refine ⟨rfl, rfl, fun hlen => ?_⟩
    simp only [Nat.mod_eq_of_lt hlen, confidenceCertainPerMille, u32Max]
    omega

structure SameContent (row row' : ClaimRecord) : Prop where
  provenance : row'.provenance = row.provenance
  confidence : row'.confidencePerMille = row.confidencePerMille
  subject : row'.subject = row.subject
  revision : row'.subjectRevision = row.subjectRevision
  predicate : row'.predicate = row.predicate
  assertion : row'.assertion = row.assertion

theorem SameContent.refl (row : ClaimRecord) : SameContent row row :=
  ⟨rfl, rfl, rfl, rfl, rfl, rfl⟩

inductive RowChange (cfg : LedgerConfig) (w w' : World) (key : ClaimKey) (row' : ClaimRecord) :
    Action → Prop where
  | kept (a : Action) (row : ClaimRecord) : w.table.lookup key = some row →
      w'.history key = w.history key → SameContent row row' → RowChange cfg w w' key row' a
  | inserted (i : ℕ) (call : RecordCall) (onTopic : List ClaimRecord) :
      w.phase i = .staling call onTopic [] → row' = call.incoming →
      w'.history key = some ⟨row', [], []⟩ → RowChange cfg w w' key row' .other
  | landed (i : ℕ) (call : RecordCall) (onTopic : List ClaimRecord) (claimId : String)
      (read claim row : ClaimRecord) : w.phase i = .staling call onTopic [] →
      call.verdict cfg onTopic = .corroborates claimId →
      expectTopic onTopic claimId = some read →
      Corroborated cfg.policy.corroborationStepPerMille read claim call.incoming.provenance →
      key = read.key → w.table.lookup key = some row →
      row' = { row with
        confidencePerMille := claim.confidencePerMille
        provenance := claim.provenance
        updatedAtMs := claim.updatedAtMs } →
      w'.history key = (w.history key).map (fun history =>
        { history with
          reported := history.reported ++ call.incoming.provenance
          appended := history.appended ++ read.novelProvenance call.incoming.provenance }) →
      RowChange cfg w w' key row' (.corroborate i)

variable {row' : ClaimRecord}

variable {phase : Phase} {i : ℕ}

theorem putStanding_change (h : ((w.putStanding claim).goTo i phase).table.lookup key = some row') :
    RowChange cfg w ((w.putStanding claim).goTo i phase) key row' .other := by
  simp only [World.goTo, World.putStanding, putClaimStanding, AList.lookup_modify] at h
  split at h
  · obtain ⟨row, hrow, rfl⟩ := Option.map_eq_some_iff.mp h
    exact .kept _ row hrow rfl ⟨rfl, rfl, rfl, rfl, rfl, rfl⟩
  · exact .kept _ row' h rfl (.refl row')

theorem recordClaim_cases (maxPerSubject : ℤ) (table : ClaimTable) (record : ClaimRecord) :
    recordClaim maxPerSubject table record =
        (table.insert record.key record, .recorded record) ∨
      ∃ filing, recordClaim maxPerSubject table record = (table, filing) ∧
        ∀ claim, filing ≠ .recorded claim := by
  unfold recordClaim
  split
  · exact .inr ⟨_, rfl, fun _ => ClaimFiling.noConfusion⟩
  · split
    · exact .inr ⟨_, rfl, fun _ => ClaimFiling.noConfusion⟩
    · exact .inl rfl

theorem insert_cases (w : World) (record : ClaimRecord) :
    (w.insert cfg record).1 = w ∨
      (w.insert cfg record).1 = { w with
        table := w.table.insert record.key record
        history := update w.history record.key (some ⟨record, [], []⟩) } := by
  unfold World.insert
  rcases recordClaim_cases cfg.maxPerSubject w.table record with heq | ⟨filing, heq, hnot⟩
  · rw [heq]
    exact .inr rfl
  · rw [heq]
    left
    cases filing with
    | recorded claim => exact absurd rfl (hnot claim)
    | existing => rfl
    | subjectLimit => rfl

theorem insert_change {call : RecordCall} {onTopic : List ClaimRecord}
    (hphase : w.phase i = .staling call onTopic [])
    (h : ((w.insert cfg call.incoming).1.goTo i phase).table.lookup key = some row') :
    RowChange cfg w ((w.insert cfg call.incoming).1.goTo i phase) key row' .other := by
  rcases insert_cases w call.incoming with heq | heq
  · rw [heq] at h ⊢
    exact .kept _ row' h rfl (.refl row')
  · rw [heq] at h ⊢
    simp only [World.goTo, AList.lookup_insert_if] at h
    split at h
    · rename_i hkey
      cases h
      refine .inserted i call onTopic hphase rfl ?_
      simp only [World.goTo, hkey, update_self]
    · rename_i hkey
      refine .kept _ row' h ?_ (.refl row')
      simp only [World.goTo, update_of_ne hkey]

variable {row : ClaimRecord}

theorem expireClaims_lookup {table : ClaimTable} {project : ProjectKey} {cutoffMs : ℤ}
    (h : (expireClaims table project cutoffMs).lookup key = some row) :
    table.lookup key = some row := by
  unfold expireClaims at h
  rw [AList.lookup_eraseAll] at h
  split at h
  · cases h
  · exact h

theorem row_change (h : Step cfg w a w') (hrow : w'.table.lookup key = some row') :
    RowChange cfg w w' key row' a := by
  cases h with
  | begins i call cutoffMs =>
    cases cutoffMs with
    | none => exact .kept _ row' hrow rfl (.refl row')
    | some cutoff => exact .kept _ row' (expireClaims_lookup hrow) rfl (.refl row')
  | reads => exact .kept _ row' hrow rfl (.refl row')
  | stales => exact putStanding_change hrow
  | inserts i call onTopic hphase => exact insert_change hphase hrow
  | corroborates i call onTopic claimId read claim before after hphase hverdict hread hraised =>
    have hclaim := corroborate_raised hraised
    simp only [World.goTo, World.land, putClaimConfidence, AList.lookup_modify] at hrow
    split at hrow
    · rename_i hkey
      obtain ⟨row, hold, rfl⟩ := Option.map_eq_some_iff.mp hrow
      refine .landed i call onTopic claimId read claim row hphase hverdict hread hclaim
        (hkey.trans hclaim.key) hold rfl ?_
      subst hkey
      simp only [World.goTo, World.land, update_self]
    · rename_i hkey
      refine .kept _ row' hrow ?_ (.refl row')
      simp only [World.goTo, World.land, update_of_ne hkey]
  | contradicts i call onTopic claimId standing kept hphase => exact insert_change hphase hrow
  | files => exact .kept _ row' hrow rfl (.refl row')
  | marksStanding => exact putStanding_change hrow
  | marksIncoming => exact putStanding_change hrow
  | stops => exact .kept _ row' hrow rfl (.refl row')

structure RowInvariant (step : ℕ) (history : History) (row : ClaimRecord) : Prop where
  provenance : row.provenance = history.origin.provenance ++ history.appended
  once : (runs row.provenance).Nodup
  confidence : row.confidencePerMille = min confidenceCertainPerMille
    (history.origin.confidencePerMille + step * history.appended.length)
  reported : ∀ run ∈ runs history.reported, run ∈ runs row.provenance
  subject : row.subject = history.origin.subject
  revision : row.subjectRevision = history.origin.subjectRevision
  predicate : row.predicate = history.origin.predicate
  assertion : row.assertion = history.origin.assertion

inductive Carries (incoming : ClaimRecord) : Phase → Prop where
  | reading (call : RecordCall) : call.incoming = incoming → Carries incoming (.reading call)
  | staling (call : RecordCall) (onTopic pending : List ClaimRecord) :
      call.incoming = incoming → Carries incoming (.staling call onTopic pending)

structure Invariant (cfg : LedgerConfig) (w : World) : Prop where
  rows : ∀ key row, w.table.lookup key = some row → ∃ history, w.history key = some history ∧
    RowInvariant cfg.policy.corroborationStepPerMille history row
  incoming : ∀ i claim, Carries claim (w.phase i) →
    Distinct claim ∧ claim.confidencePerMille ≤ confidenceCertainPerMille

theorem Invariant.initial : Invariant cfg World.initial where
  rows _ _ hrow := by cases hrow
  incoming _ _ hcarries := by cases hcarries

variable {history : History}

theorem SameContent.rowInvariant {step : ℕ} (h : SameContent row row')
    (hrow : RowInvariant step history row) : RowInvariant step history row' where
  provenance := h.provenance.trans hrow.provenance
  once := by rw [h.provenance]; exact hrow.once
  confidence := h.confidence.trans hrow.confidence
  reported := by rw [h.provenance]; exact hrow.reported
  subject := h.subject.trans hrow.subject
  revision := h.revision.trans hrow.revision
  predicate := h.predicate.trans hrow.predicate
  assertion := h.assertion.trans hrow.assertion

theorem inserted_rowInvariant {step : ℕ} (hdist : Distinct row)
    (hconfidence : row.confidencePerMille ≤ confidenceCertainPerMille) :
    RowInvariant step ⟨row, [], []⟩ row where
  provenance := by simp
  once := hdist.1
  confidence := by simp [hconfidence]
  reported := by simp [runs]
  subject := rfl
  revision := rfl
  predicate := rfl
  assertion := rfl

theorem landed_rowInvariant {step : ℕ} {read : ClaimRecord} (hrow : RowInvariant step history row)
    (hclaim : Corroborated step read claim incoming) (hdist : (runs incoming).Nodup)
    (hlen : incoming.length < 2 ^ 32) (hprov : row.provenance = read.provenance)
    (hconfidence : row.confidencePerMille = read.confidencePerMille) : RowInvariant step
      { history with
        reported := history.reported ++ incoming
        appended := history.appended ++ read.novelProvenance incoming }
      { row with
        confidencePerMille := claim.confidencePerMille
        provenance := claim.provenance
        updatedAtMs := claim.updatedAtMs } where
  provenance := by
    rw [hclaim.provenance, ← hprov, hrow.provenance, append_assoc]
  once := by
    rw [hclaim.provenance]
    exact nodup_novel (hprov ▸ hrow.once) hdist
  confidence := by
    have hnovel : (read.novelProvenance incoming).length ≤ incoming.length :=
      length_filter_le _ _
    have hraised := hclaim.confidence (by omega)
    simp only [hraised, ← hconfidence, hrow.confidence, length_append, Nat.mul_add]
    omega
  reported := by
    intro run hrun
    rw [hclaim.provenance]
    rw [runs_append, mem_append] at hrun
    rcases hrun with hold | hnew
    · rw [runs_append, mem_append, ← hprov]
      exact .inl (hrow.reported run hold)
    · exact incoming_covered read incoming hnew
  subject := hrow.subject
  revision := hrow.revision
  predicate := hrow.predicate
  assertion := hrow.assertion

theorem validate_confidence (h : claim.validate = .ok ()) :
    claim.confidencePerMille ≤ confidenceCertainPerMille := by
  unfold ClaimRecord.validate at h
  repeat' split at h
  all_goals first | omega | cases h

theorem carries_origin (h : Step cfg w a w') (hcarries : Carries claim (w'.phase i)) :
    Carries claim (w.phase i) ∨
      ∃ call, a = .begin i call ∧ call.incoming = claim ∧ claim.validate = .ok () := by
  have hupd : ∀ (j : ℕ) (phase : Phase), (Carries claim phase → Carries claim (w.phase j)) →
      Carries claim (update w.phase j phase i) → Carries claim (w.phase i) := by
    intro j phase hphase hnew
    rw [update_apply] at hnew
    split at hnew
    · rename_i heq
      rw [heq]
      exact hphase hnew
    · exact hnew
  have hinsert : ∀ record, (w.insert cfg record).1.phase = w.phase := by
    intro record
    rcases insert_cases w record with heq | heq <;> rw [heq]
  cases h with
  | begins j call cutoffMs hidle hvalid =>
    simp only [World.goTo, update_apply] at hcarries
    split at hcarries
    · rename_i heq
      cases hcarries with
      | reading _ hclaim => exact .inr ⟨call, by rw [heq], hclaim, hclaim ▸ hvalid⟩
    · exact .inl hcarries
  | reads j call onTopic hphase =>
    left
    apply hupd j _ _ hcarries
    intro hnew
    cases hnew with
    | staling _ _ _ hclaim => exact hphase ▸ .reading call hclaim
  | stales j call onTopic pending standing hphase =>
    left
    apply hupd j _ _ hcarries
    intro hnew
    cases hnew with
    | staling _ _ _ hclaim => exact hphase ▸ .staling call onTopic _ hclaim
  | inserts j =>
    simp only [World.goTo, hinsert] at hcarries
    exact .inl (hupd j _ (by intro hnew; cases hnew) hcarries)
  | corroborates j => exact .inl (hupd j _ (by intro hnew; cases hnew) hcarries)
  | contradicts j =>
    simp only [World.goTo, hinsert] at hcarries
    exact .inl (hupd j _ (by intro hnew; cases hnew) hcarries)
  | files j => exact .inl (hupd j _ (by intro hnew; cases hnew) hcarries)
  | marksStanding j => exact .inl (hupd j _ (by intro hnew; cases hnew) hcarries)
  | marksIncoming j => exact .inl (hupd j _ (by intro hnew; cases hnew) hcarries)
  | stops j => exact .inl (hupd j _ (by intro hnew; cases hnew) hcarries)

theorem Invariant.step (h : Invariant cfg w) (hstep : Step cfg w a w') (hfresh : Fresh cfg w a) :
    Invariant cfg w' := by
  constructor
  · intro key row' hrow'
    cases row_change hstep hrow' with
    | kept _ row hrow hhistory hsame =>
      obtain ⟨history, hold, hinv⟩ := h.rows key row hrow
      exact ⟨history, hhistory.trans hold, hsame.rowInvariant hinv⟩
    | inserted i call onTopic hphase hrow hhistory =>
      have hcarries : Carries row' (w.phase i) := hphase ▸ .staling call onTopic [] hrow.symm
      obtain ⟨hdist, hconfidence⟩ := h.incoming i row' hcarries
      exact ⟨_, hhistory, inserted_rowInvariant hdist hconfidence⟩
    | landed i call onTopic claimId read claim row hphase hverdict hread hclaim hkey hrow hrow'
        hhistory =>
      obtain ⟨history, hold, hinv⟩ := h.rows key row hrow
      have hcarries : Carries call.incoming (w.phase i) := hphase ▸ .staling call onTopic [] rfl
      obtain ⟨hdist, -⟩ := h.incoming i call.incoming hcarries
      obtain ⟨hprov, hconfidence⟩ :=
        hfresh call onTopic claimId read hphase hverdict hread row (hkey ▸ hrow)
      rw [hold] at hhistory
      rw [hrow']
      exact ⟨_, hhistory,
        landed_rowInvariant hinv hclaim hdist.1 hdist.2 hprov hconfidence⟩
  · intro i claim hcarries
    rcases carries_origin hstep hcarries with hold | ⟨call, rfl, rfl, hvalid⟩
    · exact h.incoming i claim hold
    · exact ⟨hfresh, validate_confidence hvalid⟩

theorem Invariant.run (h : FreshRun cfg w) : Invariant cfg w := by
  induction h with
  | initial => exact .initial
  | tail _ hstep hfresh ih => exact ih.step hstep hfresh

theorem RowInvariant.law {step : ℕ} (h : RowInvariant step history row) :
    RowLaw step history row where
  kept := h.reported
  once := h.once
  confidence := by
    have happended : (runs history.appended).Nodup := by
      have honce := h.once
      rw [h.provenance, runs_append] at honce
      exact (nodup_append.mp honce).2.1
    rw [h.confidence, toFinset_card_of_nodup happended, runs, length_map]
  subject := h.subject
  revision := h.revision
  predicate := h.predicate
  assertion := h.assertion

/-- Claims may come again, in any order and between prunes: a run is counted once. -/
theorem corroborations_count_once (cfg : LedgerConfig) (w : World) (hrun : FreshRun cfg w)
    (key : ClaimKey) (row : ClaimRecord) (hrow : w.table.lookup key = some row) :
    ∃ history, w.history key = some history ∧
      RowLaw cfg.policy.corroborationStepPerMille history row := by
  obtain ⟨history, hhistory, hinv⟩ := (Invariant.run hrun).rows key row hrow
  exact ⟨history, hhistory, hinv.law⟩

def plainConfig : LedgerConfig where
  lower := id
  policy := ⟨100, 250⟩
  maxPerSubject := 64
  maxClaims := 4096

def entryOf (agent : String) : ClaimProvenance :=
  ⟨.trajectory agent, 1, [⟨"file", "src/main.rs"⟩], 1⟩

def mainClaim (claimId : String) (confidence : ℕ) (agents : List String) (updatedAtMs : ℤ) :
    ClaimRecord where
  project := "alpha"
  claimId := claimId
  subject := ⟨.file, "src/main.rs"⟩
  subjectRevision := "r1"
  predicate := "entry point"
  assertion := "calls run"
  status := .active
  confidencePerMille := confidence
  provenance := agents.map entryOf
  contestedBy := []
  assertedAtMs := 1
  updatedAtMs := updatedAtMs

def callOf (claimId : String) (agents : List String) : RecordCall :=
  ⟨"alpha", mainClaim claimId 500 agents 1, 2⟩

theorem main_claim_counts_once : ∃ w row, FreshRun plainConfig w ∧
    w.table.lookup ("alpha", "c1") = some row ∧ row.confidencePerMille = 600 ∧
    ∃ history, w.history ("alpha", "c1") = some history ∧ RowLaw 100 history row := by
  have hbegin : FreshRun plainConfig _ :=
    .tail .initial (.begins 0 (callOf "c1" ["a"]) none rfl (by decide))
      ⟨by decide, by decide⟩
  have hread := hbegin.tail (.reads 0 (callOf "c1" ["a"]) [] rfl rfl) trivial
  have hinsert := hread.tail (.inserts 0 (callOf "c1" ["a"]) [] rfl rfl (.inl rfl)) trivial
  have hsecond := hinsert.tail (.begins 0 (callOf "c2" ["b"]) none rfl (by decide))
    ⟨by decide, by decide⟩
  have htopic := hsecond.tail
    (.reads 0 (callOf "c2" ["b"]) [mainClaim "c1" 500 ["a"] 1] rfl (by decide)) trivial
  have hland := htopic.tail
    (.corroborates 0 (callOf "c2" ["b"]) [mainClaim "c1" 500 ["a"] 1] "c1"
      (mainClaim "c1" 500 ["a"] 1) (mainClaim "c1" 600 ["a", "b"] 2) 500 600 rfl
      (by decide) (by decide) (by decide)) (by
    intro call onTopic claimId read hphase hverdict htopic held hheld
    have hcall : call = callOf "c2" ["b"] := by cases hphase; rfl
    have honTopic : onTopic = [mainClaim "c1" 500 ["a"] 1] := by cases hphase; rfl
    subst hcall honTopic
    have hread : read = mainClaim "c1" 500 ["a"] 1 :=
      mem_singleton.mp (List.mem_of_find?_eq_some htopic)
    subst hread
    have hstored : some held = some (mainClaim "c1" 500 ["a"] 1) :=
      hheld.symm.trans (by decide)
    rw [Option.some.inj hstored]
    exact ⟨rfl, rfl⟩)
  exact ⟨_, mainClaim "c1" 600 ["a", "b"] 2, hland, by decide, rfl,
    corroborations_count_once plainConfig _ hland ("alpha", "c1") _ (by decide)⟩

abbrev Run (cfg : LedgerConfig) : World → World → Prop :=
  Relation.ReflTransGen fun w w' => ∃ a, Step cfg w a w'

theorem first_claim_reached (agents : List String)
    (hvalid : (mainClaim "c1" 500 agents 1).validate = .ok ()) :
    ∃ w, Run plainConfig World.initial w ∧ (∀ i, w.phase i = .idle) ∧
      w.table = (∅ : ClaimTable).insert ("alpha", "c1") (mainClaim "c1" 500 agents 1) ∧
      w.history ("alpha", "c1") = some ⟨mainClaim "c1" 500 agents 1, [], []⟩ := by
  have hbegin : Run plainConfig World.initial _ :=
    .single ⟨_, .begins 0 (callOf "c1" agents) none rfl hvalid⟩
  have hread := hbegin.tail ⟨_, .reads 0 (callOf "c1" agents) [] rfl rfl⟩
  have hinsert := hread.tail ⟨_, .inserts 0 (callOf "c1" agents) [] rfl rfl (.inl rfl)⟩
  refine ⟨_, hinsert, ?_, rfl, ?_⟩
  · intro i
    by_cases hi : i = 0
    · subst hi
      rfl
    · exact (update_of_ne hi _ _).trans ((update_of_ne hi _ _).trans
        (update_of_ne hi _ _))
  · exact update_self (f := World.initial.history) ("alpha", "c1") _

/-- Two runs corroborate one claim from the same read, and the second one to write erases the
first; a claim that lists a run twice is stored with both entries. -/
theorem concurrent_corroboration_lost :
    (∃ w row history, Run plainConfig World.initial w ∧
      w.table.lookup ("alpha", "c1") = some row ∧ w.history ("alpha", "c1") = some history ∧
      (entryOf "b").run ∈ runs history.reported ∧ (entryOf "b").run ∉ runs row.provenance ∧
      row.confidencePerMille = 600 ∧ (runs history.appended).toFinset.card = 2) ∧
    ∃ w row, Run plainConfig World.initial w ∧ w.table.lookup ("alpha", "c1") = some row ∧
      ¬ (runs row.provenance).Nodup := by
  constructor
  · obtain ⟨w, hrun, hidle, htable, hhistory⟩ := first_claim_reached ["a"] (by decide)
    have hone := hrun.tail ⟨_, .begins 1 (callOf "c2" ["b"]) none (hidle 1) (by decide)⟩
    have htwo := hone.tail
      ⟨_, .begins 2 (callOf "c3" ["c"]) none (hidle 2) (by decide)⟩
    have hreadOne := htwo.tail
      ⟨_, .reads 1 (callOf "c2" ["b"]) [mainClaim "c1" 500 ["a"] 1] rfl
        (by simp only [World.goTo, htable]; decide)⟩
    have hreadTwo := hreadOne.tail
      ⟨_, .reads 2 (callOf "c3" ["c"]) [mainClaim "c1" 500 ["a"] 1] rfl
        (by simp only [World.goTo, htable]; decide)⟩
    have hlandOne := hreadTwo.tail
      ⟨_, .corroborates 1 (callOf "c2" ["b"]) [mainClaim "c1" 500 ["a"] 1] "c1"
        (mainClaim "c1" 500 ["a"] 1) (mainClaim "c1" 600 ["a", "b"] 2) 500 600 rfl
        (by decide) (by decide) (by decide)⟩
    have hlandTwo := hlandOne.tail
      ⟨_, .corroborates 2 (callOf "c3" ["c"]) [mainClaim "c1" 500 ["a"] 1] "c1"
        (mainClaim "c1" 500 ["a"] 1) (mainClaim "c1" 600 ["a", "c"] 2) 500 600 rfl
        (by decide) (by decide) (by decide)⟩
    refine ⟨_, mainClaim "c1" 600 ["a", "c"] 2,
      ⟨mainClaim "c1" 500 ["a"] 1, [entryOf "b", entryOf "c"], [entryOf "b", entryOf "c"]⟩,
      hlandTwo, ?_, ?_, by decide, by decide, rfl, by decide⟩
    · simp only [World.goTo, World.land, htable]
      decide
    · have hkey : (mainClaim "c1" 600 ["a", "c"] 2).key = ("alpha", "c1") := rfl
      have hkey' : (mainClaim "c1" 600 ["a", "b"] 2).key = ("alpha", "c1") := rfl
      simp only [World.goTo, World.land, hkey, hkey', update_self, hhistory,
        Option.map_some]
      decide
  · obtain ⟨w, hrun, -, htable, -⟩ := first_claim_reached ["a", "a"] (by decide)
    exact ⟨w, mainClaim "c1" 500 ["a", "a"] 1, hrun, by rw [htable]; decide, by decide⟩

end FactLedger
