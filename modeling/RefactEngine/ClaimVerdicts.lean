import RefactEngine.FactLedger

/-! # What a verdict on an incoming claim says about the ledger

`assess` reads the claims under other ids that are on the topic, at the revision of the incoming
claim and not retracted. Stale claims are among them, and of those that oppose only the first is
weighed.
-/
namespace ClaimVerdicts

open FactLedger

section Verdicts

variable (lower : String → String) (claim : ClaimRecord) (onTopic : List ClaimRecord)
  (policy : ClaimPolicy)

def standing : List ClaimRecord :=
  onTopic.filter fun existing => claim.sameTopic lower existing &&
    claim.subjectRevision = existing.subjectRevision && existing.status.isStanding

def weighed : List ClaimRecord :=
  onTopic.filter fun existing => existing.claimId ≠ claim.claimId ∧
    claim.sameTopic lower existing ∧ existing.status ≠ .retracted ∧
    existing.subjectRevision = claim.subjectRevision

def Agrees (existing : ClaimRecord) : Prop := claim.sameConclusion lower existing = true

instance : DecidablePred (Agrees lower claim) := fun _ => inferInstanceAs (Decidable (_ = true))

/-- A verdict names only claims that stand, as its variant says, and misses none that matter. -/
structure Faithful (verdict : ClaimVerdict) : Prop where
  agreeing : ∀ id, verdict = .repeats id ∨ verdict = .corroborates id →
    ∃ existing ∈ standing lower claim onTopic, existing.claimId = id ∧
      Agrees lower claim existing
  opposing : ∀ id, verdict = .contradicts id ∨
      (∃ required, verdict = .contradictsBelowThreshold id required) →
    ∃ existing ∈ onTopic, existing.claimId = id ∧ claim.contradicts lower existing = true
  isNew : verdict = .new ↔ standing lower claim onTopic = []
  sure : policy.contradictionMinConfidencePerMille ≤ claim.confidencePerMille →
    (∃ existing ∈ standing lower claim onTopic, ¬ Agrees lower claim existing ∧
      policy.contradictionMinConfidencePerMille ≤ existing.confidencePerMille) →
    (∀ existing ∈ standing lower claim onTopic, ¬ Agrees lower claim existing) →
    ∃ id, verdict = .contradicts id

/-- The first weighed claim that agrees shares its id with one that stands and agrees. -/
def AgreeingStands (agreeing : ClaimRecord) : Prop :=
  ∃ existing ∈ standing lower claim onTopic, existing.claimId = agreeing.claimId ∧
    Agrees lower claim existing

/-- The first weighed claim shares its id with one that stands and opposes, and if it is below the
threshold then so is all that stands, or some claim that stands agrees. -/
structure OpposingStands (opposing : ClaimRecord) : Prop where
  incoming : claim.status.isStanding = true
  stands : ∃ existing ∈ standing lower claim onTopic, existing.claimId = opposing.claimId ∧
    ¬ Agrees lower claim existing
  weight : policy.contradictionMinConfidencePerMille ≤ claim.confidencePerMille →
    opposing.confidencePerMille < policy.contradictionMinConfidencePerMille →
    (∃ existing ∈ standing lower claim onTopic, Agrees lower claim existing) ∨
      ∀ existing ∈ standing lower claim onTopic,
        existing.confidencePerMille < policy.contradictionMinConfidencePerMille

def DecidedByStanding : Prop :=
  match (weighed lower claim onTopic).find? fun existing => claim.sameConclusion lower existing with
  | some agreeing => AgreeingStands lower claim onTopic agreeing
  | none =>
    match weighed lower claim onTopic with
    | opposing :: _ => OpposingStands lower claim onTopic policy opposing
    | [] => standing lower claim onTopic = []

end Verdicts

variable {lower : String → String} {claim : ClaimRecord} {onTopic : List ClaimRecord}
  {policy : ClaimPolicy} {existing : ClaimRecord}

theorem mem_standing : existing ∈ standing lower claim onTopic ↔ existing ∈ onTopic ∧
      claim.sameTopic lower existing = true ∧ claim.subjectRevision = existing.subjectRevision ∧
      existing.status.isStanding = true := by
  simp only [standing, List.mem_filter, Bool.and_eq_true, decide_eq_true_eq, and_assoc]

theorem contradicts_iff (hmem : existing ∈ onTopic) :
    claim.contradicts lower existing = true ↔ claim.status.isStanding = true ∧
      existing ∈ standing lower claim onTopic ∧ ¬ Agrees lower claim existing := by
  simp only [ClaimRecord.contradicts, mem_standing, Agrees, Bool.and_eq_true, decide_eq_true_eq,
    Bool.not_eq_true', Bool.not_eq_true]
  constructor
  · rintro ⟨⟨⟨⟨htopic, hrev⟩, hincoming⟩, hstands⟩, hopposes⟩
    exact ⟨hincoming, ⟨hmem, htopic, hrev, hstands⟩, hopposes⟩
  · rintro ⟨hincoming, ⟨-, htopic, hrev, hstands⟩, hopposes⟩
    exact ⟨⟨⟨⟨htopic, hrev⟩, hincoming⟩, hstands⟩, hopposes⟩

theorem live_eq_weighed :
    ((onTopic.filter fun existing => existing.claimId ≠ claim.claimId ∧
        claim.sameTopic lower existing ∧ existing.status ≠ .retracted).filter fun existing =>
      !existing.isStaleAgainst claim.subjectRevision) = weighed lower claim onTopic := by
  rw [List.filter_filter, weighed]
  apply List.filter_congr
  intro existing _
  simp only [ClaimRecord.isStaleAgainst, decide_not, Bool.not_not, Bool.decide_and,
    Bool.decide_eq_true]
  cases decide (existing.subjectRevision = claim.subjectRevision) <;> simp

variable {agreeing : ClaimRecord}

theorem verdict_agreeing
    (h : (weighed lower claim onTopic).find? (fun existing =>
      claim.sameConclusion lower existing) = some agreeing) :
    (claim.assess lower onTopic policy).verdict = .repeats agreeing.claimId ∨
      (claim.assess lower onTopic policy).verdict = .corroborates agreeing.claimId := by
  unfold ClaimRecord.assess
  simp only [live_eq_weighed, h]
  split_ifs
  · exact .inl rfl
  · exact .inr rfl

variable {opposing : ClaimRecord}

theorem verdict_opposing {others : List ClaimRecord}
    (hagree : (weighed lower claim onTopic).find? (fun existing =>
      claim.sameConclusion lower existing) = none)
    (hweighed : weighed lower claim onTopic = opposing :: others) :
    (claim.assess lower onTopic policy).verdict =
      if policy.contradictionMinConfidencePerMille ≤ claim.confidencePerMille ∧
          policy.contradictionMinConfidencePerMille ≤ opposing.confidencePerMille then
        .contradicts opposing.claimId
      else .contradictsBelowThreshold opposing.claimId
        policy.contradictionMinConfidencePerMille := by
  rw [hweighed] at hagree
  unfold ClaimRecord.assess
  simp only [live_eq_weighed, hweighed, hagree]
  split_ifs <;> rfl

theorem verdict_new (hweighed : weighed lower claim onTopic = []) :
    (claim.assess lower onTopic policy).verdict = .new := by
  unfold ClaimRecord.assess
  simp only [live_eq_weighed, hweighed, List.find?_nil]

theorem faithful_agreeing_iff {verdict : ClaimVerdict}
    (h : verdict = .repeats agreeing.claimId ∨ verdict = .corroborates agreeing.claimId) :
    Faithful lower claim onTopic policy verdict ↔ AgreeingStands lower claim onTopic agreeing := by
  constructor
  · intro hfaithful
    exact hfaithful.agreeing agreeing.claimId h
  · rintro ⟨existing, hstanding, hid, hagrees⟩
    constructor
    case agreeing =>
      intro id hverdict
      have heq : id = agreeing.claimId := by
        rcases h with rfl | rfl <;> simpa [eq_comm] using hverdict
      exact ⟨existing, hstanding, hid.trans heq.symm, hagrees⟩
    case opposing =>
      intro id hverdict
      rcases h with rfl | rfl <;> simp at hverdict
    case isNew =>
      constructor
      · intro hnew
        rcases h with rfl | rfl <;> cases hnew
      · intro hnone
        rw [hnone] at hstanding
        cases hstanding
    case sure =>
      intro _ _ hnone
      exact absurd hagrees (hnone existing hstanding)

theorem faithful_opposing_iff : Faithful lower claim onTopic policy
        (if policy.contradictionMinConfidencePerMille ≤ claim.confidencePerMille ∧
            policy.contradictionMinConfidencePerMille ≤ opposing.confidencePerMille then
          .contradicts opposing.claimId
        else .contradictsBelowThreshold opposing.claimId
          policy.contradictionMinConfidencePerMille) ↔
      OpposingStands lower claim onTopic policy opposing := by
  constructor
  · intro hfaithful
    obtain ⟨existing, hmem, hid, hcontradicts⟩ := hfaithful.opposing opposing.claimId (by
      split_ifs
      · exact .inl rfl
      · exact .inr ⟨_, rfl⟩)
    obtain ⟨hincoming, hstanding, hopposes⟩ := (contradicts_iff hmem).mp hcontradicts
    refine ⟨hincoming, ⟨existing, hstanding, hid, hopposes⟩, fun hsure hunsure => ?_⟩
    -- Were all against it and one of them sure, the verdict would have to be a contradiction.
    by_contra hcon
    push Not at hcon
    obtain ⟨hnone, other, hother, hweight⟩ := hcon
    obtain ⟨id, hverdict⟩ := hfaithful.sure hsure ⟨other, hother, hnone other hother, hweight⟩ hnone
    rw [if_neg (fun hboth => absurd hboth.2 (not_le.mpr hunsure))] at hverdict
    cases hverdict
  · rintro ⟨hincoming, ⟨existing, hstanding, hid, hopposes⟩, hweight⟩
    constructor
    case agreeing =>
      intro id hverdict
      split_ifs at hverdict <;> simp at hverdict
    case opposing =>
      intro id hverdict
      have hmem : existing ∈ onTopic := (mem_standing.mp hstanding).1
      refine ⟨existing, hmem, ?_, (contradicts_iff hmem).mpr ⟨hincoming, hstanding, hopposes⟩⟩
      split_ifs at hverdict <;> simpa [hid] using hverdict
    case isNew =>
      constructor
      · intro hnew
        split_ifs at hnew
      · intro hnone
        rw [hnone] at hstanding
        cases hstanding
    case sure =>
      rintro hsure ⟨other, hother, -, hother_sure⟩ hnone
      have hfirst : policy.contradictionMinConfidencePerMille ≤ opposing.confidencePerMille := by
        by_contra hunsure
        rcases hweight hsure (not_le.mp hunsure) with ⟨agreeing, hagreeing, hagrees⟩ | hall
        · exact hnone agreeing hagreeing hagrees
        · exact absurd hother_sure (not_le.mpr (hall other hother))
      exact ⟨opposing.claimId, if_pos ⟨hsure, hfirst⟩⟩

theorem faithful_new_iff :
    Faithful lower claim onTopic policy .new ↔ standing lower claim onTopic = [] := by
  constructor
  · intro hfaithful
    exact hfaithful.isNew.mp rfl
  · intro hnone
    constructor
    case agreeing => simp
    case opposing => simp
    case isNew => simp [hnone]
    case sure =>
      rintro _ ⟨other, hother, -⟩
      rw [hnone] at hother
      cases hother

/-- For every claim, ledger and policy, the verdict is faithful exactly when the claim it is taken
from stands and speaks for the others. -/
theorem assess_faithful_iff (lower : String → String) (claim : ClaimRecord)
    (onTopic : List ClaimRecord) (policy : ClaimPolicy) :
    Faithful lower claim onTopic policy (claim.assess lower onTopic policy).verdict ↔
      DecidedByStanding lower claim onTopic policy := by
  unfold DecidedByStanding
  cases hfind : (weighed lower claim onTopic).find? fun existing =>
    claim.sameConclusion lower existing with
  | some agreeing => exact faithful_agreeing_iff (verdict_agreeing hfind)
  | none =>
    cases hweighed : weighed lower claim onTopic with
    | cons opposing others =>
      rw [verdict_opposing hfind hweighed]
      exact faithful_opposing_iff
    | nil =>
      rw [verdict_new hweighed]
      exact faithful_new_iff

/-! A stale claim at the revision that the incoming claim was read from. -/

def oneSided (id assertion : String) (status : ClaimStatus) : ClaimRecord where
  project := "p"
  claimId := id
  subject := ⟨.file, "src/lib.rs"⟩
  subjectRevision := "r1"
  predicate := "owner"
  assertion := assertion
  status := status
  confidencePerMille := 900
  provenance := [⟨⟨.trajectory, id⟩, 1, [], 0⟩]
  contestedBy := []
  assertedAtMs := 0
  updatedAtMs := 0

/-- A claim is told that it contradicts one that does not stand, where nothing stands at all. -/
theorem stale_claim_contradicted :
    ¬ Faithful id (oneSided "c2" "bob" .active) [oneSided "c1" "alice" .stale] ⟨100, 600⟩
      ((oneSided "c2" "bob" .active).assess id [oneSided "c1" "alice" .stale] ⟨100,
      600⟩).verdict := by
  intro hfaithful
  have hnew := hfaithful.isNew.mpr (by decide)
  exact absurd hnew (by decide)

end ClaimVerdicts
