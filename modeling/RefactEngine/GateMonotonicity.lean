import RefactEngine.ShellGate

/-! # Tighter settings of the gate

No layer that is consulted early hides what a later one would now refuse, so tighter settings never
let more pass. After the layers a language model may be asked about the command.
-/
namespace ShellGate

open ApplyPatch CommandClassify CommandRules List

def Decision.rank : Decision → ℕ
  | .pass => 0
  | .confirmation => 1
  | .deny => 2

def ApprovalMode.strictness : ApprovalMode → ℕ
  | .yolo => 0
  | .permissive => 1
  | .balanced => 2
  | .strict => 3

inductive ShellLlmAuthority where
  | askOnly
  | askAndAllow
  deriving DecidableEq

inductive ShellLlmOnFailure where
  | pass
  | ask
  deriving DecidableEq

structure ShellLlmValidation where
  enabled : Bool
  authority : ShellLlmAuthority
  onFailure : ShellLlmOnFailure

structure LlmVerdict where
  ask : Bool
  reason : Text

inductive FinalLayer where
  | gate (layer : Layer)
  | llm
  | llmUnavailable
  | llmAllowed

structure FinalOutcome where
  result : Decision
  rule : Text
  layer : FinalLayer
  reason : Text
  riskLevel : Option RiskLevel

def GateOutcome.final (outcome : GateOutcome) : FinalOutcome :=
  ⟨outcome.result, outcome.rule, .gate outcome.layer, outcome.reason, outcome.riskLevel⟩

def applyLlmVerdict (outcome : GateOutcome) (verdict : Option LlmVerdict)
    (cfg : ShellLlmValidation) : FinalOutcome :=
  if !cfg.enabled || outcome.result = .deny then outcome.final
  else match outcome.result with
    | .pass =>
      match verdict with
      | some verdict =>
        if verdict.ask then
          ⟨.confirmation, "llm".toList, .llm, verdict.reason, outcome.riskLevel⟩
        else outcome.final
      | none =>
        if cfg.onFailure = .ask then
          ⟨.confirmation, "llm-unavailable".toList, .llmUnavailable,
            "LLM command validation was unavailable.".toList, outcome.riskLevel⟩
        else outcome.final
    | .confirmation =>
      if outcome.layer = .risk ∧ cfg.authority = .askAndAllow then
        match verdict.filter fun verdict => !verdict.ask with
        | some verdict =>
          ⟨.pass, "llm-allowed".toList, .llmAllowed, verdict.reason, outcome.riskLevel⟩
        | none => outcome.final
      else outcome.final
    | .deny => outcome.final

/-- What the model says, or that it said nothing, is used where it could change the result. -/
def evaluateWithLlm (lib : Libraries) (command : Text) (policy : ShellGatePolicy)
    (ctx : GateContext) (cfg : ShellLlmValidation) (verdict : Option LlmVerdict) : FinalOutcome :=
  let outcome := evaluate lib command policy ctx
  if !cfg.enabled || outcome.result = .deny then outcome.final
  else
    let mayAllow :=
      outcome.result = .confirmation ∧ outcome.layer = .risk ∧ cfg.authority = .askAndAllow
    if outcome.result ≠ .pass ∧ ¬ mayAllow then outcome.final
    else applyLlmVerdict outcome verdict cfg

structure Raised (entry entry' : RiskEntry) : Prop where
  same : entry' = { entry with level := entry'.level }
  level : entry.level.rank ≤ entry'.level.rank

structure Tightened (policy : ShellGatePolicy) (ctx : GateContext) (policy' : ShellGatePolicy)
    (ctx' : GateContext) : Prop where
  mode : policy.mode.strictness ≤ policy'.mode.strictness
  deny : policy.deny ⊆ policy'.deny
  ask : policy.ask ⊆ policy'.ask
  allow : policy'.allow ⊆ policy.allow
  trust : policy.trustCallerConfirmation = true → policy'.trustCallerConfirmation = true
  catalogue : ∀ entry ∈ policy.catalogue, ∃ entry' ∈ policy'.catalogue, Raised entry entry'
  roots : ctx'.workspaceRoots ⊆ ctx.workspaceRoots
  confirmation : ctx.needsConfirmation = true → ctx'.needsConfirmation = true

def Reaches (rank : ℕ) (finding : Option RiskFinding) : Prop :=
  ∃ found ∈ finding, rank ≤ found.level.rank

variable {lib : Libraries} {command : Text} {policy policy' : ShellGatePolicy}
  {ctx ctx' : GateContext} {segments : CommandSegments} {rank : ℕ} {rules rules' : List Text}

theorem reaches_higher (best : Option RiskFinding) (finding : RiskFinding) :
    Reaches rank (higher best finding) ↔ Reaches rank best ∨ rank ≤ finding.level.rank := by
  cases best with
  | none => simp [Reaches, higher]
  | some held =>
    by_cases hlt : held.level.rank < finding.level.rank
    · simp only [Reaches, higher, if_pos hlt, Option.mem_some_iff, exists_eq_left']
      omega
    · simp only [Reaches, higher, if_neg hlt, Option.mem_some_iff, exists_eq_left']
      omega

theorem reaches_foldl (findings : List RiskFinding) (best : Option RiskFinding) :
    Reaches rank (findings.foldl higher best) ↔
      Reaches rank best ∨ ∃ finding ∈ findings, rank ≤ finding.level.rank := by
  induction findings generalizing best with
  | nil => simp
  | cons finding findings ih => simp [ih, reaches_higher, or_assoc]

theorem isSome_find {test : Text → Bool} (hsub : rules ⊆ rules')
    (h : (rules.find? test).isSome = true) : (rules'.find? test).isSome = true := by
  rw [find?_isSome] at *
  obtain ⟨rule, hrule, htest⟩ := h
  exact ⟨rule, hsub hrule, htest⟩

theorem isOutsideWorkspace_anti {arg : Text} (hsub : rules' ⊆ rules)
    (h : isOutsideWorkspace arg rules = true) : isOutsideWorkspace arg rules' = true := by
  unfold isOutsideWorkspace at *
  split_ifs at h ⊢
  · rfl
  · simp only [Bool.not_eq_true', any_eq_false] at h ⊢
    exact fun root hroot => h root (hsub hroot)

theorem rank_escalate {level level' : RiskLevel} (h : level.rank ≤ level'.rank) :
    level.rank ≤ (escalate level').rank ∧ (escalate level).rank ≤ (escalate level').rank := by
  cases level <;> cases level' <;> revert h <;> decide

theorem findingOf_rank {entry : RiskEntry} {level : RiskLevel}
    (hlevel : entry.level.rank ≤ level.rank) (hroots : rules' ⊆ rules) (segment : Segment) :
    (findingOf entry rules segment).level.rank ≤
      (findingOf { entry with level := level } rules' segment).level.rank := by
  have hboth := rank_escalate hlevel
  have hout : (segment.argv.tail.any fun arg => isOutsideWorkspace arg rules) = true →
      (segment.argv.tail.any fun arg => isOutsideWorkspace arg rules') = true := by
    simp only [any_eq_true]
    rintro ⟨arg, harg, h⟩
    exact ⟨arg, harg, isOutsideWorkspace_anti hroots h⟩
  simp only [findingOf, Bool.and_eq_true]
  split_ifs with hold hnew hnew
  · exact hboth.2
  · exact absurd ⟨hold.1, hout hold.2⟩ hnew
  · exact hboth.1
  · exact hlevel

theorem classifyCommand_mono (h : Tightened policy ctx policy' ctx')
    (hreaches : Reaches rank (classifyCommand lib segments policy.catalogue ctx.workspaceRoots)) :
    Reaches rank (classifyCommand lib segments policy'.catalogue ctx'.workspaceRoots) := by
  rw [classifyCommand, reaches_foldl] at *
  obtain ⟨_, hnone, -⟩ | ⟨finding, hfinding, hrank⟩ := hreaches
  · cases hnone
  obtain ⟨entry, hentry, hmem⟩ := mem_flatMap.mp hfinding
  obtain ⟨entry', hentry', hsame, hlevel⟩ := h.catalogue entry hentry
  unfold entryFindings at hmem
  split at hmem
  next exec args hexec hargs =>
    obtain ⟨segment, hsegment, rfl⟩ := mem_map.mp hmem
    refine .inr ⟨_, mem_flatMap.mpr ⟨_, hentry', ?_⟩,
      hrank.trans (findingOf_rank hlevel h.roots segment)⟩
    rw [hsame, entryFindings, hexec, hargs]
    exact mem_map_of_mem hsegment
  next => cases hmem

def Denied (lib : Libraries) (command : Text) (policy : ShellGatePolicy) : Prop :=
  let segments := extractCommandSegments lib command
  (firstMatchingRule lib command segments policy.deny).isSome = true ∨
    segments.parseOk = false ∧ (denyOnUnparsable lib command segments policy.deny).isSome = true

/-- A layer behind the allow rules asks before the risk of the command is looked at. -/
def AsksEarly (lib : Libraries) (command : Text) (policy : ShellGatePolicy) (ctx : GateContext) :
    Prop :=
  let segments := extractCommandSegments lib command
  policy.trustCallerConfirmation = true ∧ ctx.needsConfirmation = true ∨
    policy.mode ≠ .yolo ∧ (structuralFlags segments ≠ [] ∨
      (firstMatchingRule lib command segments policy.ask).isSome = true)

def AsksByRisk (lib : Libraries) (command : Text) (policy : ShellGatePolicy) (ctx : GateContext) :
    Prop :=
  ∃ threshold, policy.mode.askThreshold = some threshold ∧ Reaches threshold.rank
    (classifyCommand lib (extractCommandSegments lib command) policy.catalogue ctx.workspaceRoots)

def Reasons (lib : Libraries) (command : Text) (policy : ShellGatePolicy) (ctx : GateContext)
    (k : ℕ) : Prop :=
  k ≤ 3 ∧ Denied lib command policy ∨
  k ≤ 2 ∧ (extractCommandSegments lib command).parseOk = false ∧ policy.mode ≠ .yolo ∨
  (allowedBy lib command policy).isSome = false ∧
    (k ≤ 2 ∧ AsksEarly lib command policy ctx ∨ k ≤ 1 ∧ AsksByRisk lib command policy ctx)

/-- A question of the risk layer weighs less than another one: only that may be lifted. -/
def GateOutcome.weight (outcome : GateOutcome) : ℕ :=
  match outcome.result with
  | .pass => 0
  | .confirmation => if outcome.layer = .risk then 1 else 2
  | .deny => 3

theorem rank_eq (outcome : GateOutcome) : outcome.result.rank = (outcome.weight + 1) / 2 := by
  unfold GateOutcome.weight
  cases outcome.result with
  | pass => simp [Decision.rank]
  | deny => simp [Decision.rank]
  | confirmation => by_cases hrisk : outcome.layer = .risk <;> simp [hrisk, Decision.rank]

theorem le_weight_evaluateRest {k : ℕ} (hk : 0 < k) :
    k ≤ (evaluateRest lib command (extractCommandSegments lib command) policy ctx).weight ↔
      k ≤ 2 ∧ AsksEarly lib command policy ctx ∨ k ≤ 1 ∧ AsksByRisk lib command policy ctx := by
  unfold evaluateRest AsksEarly AsksByRisk
  rw [← Bool.and_eq_true]
  split_ifs with hcaller hyolo
  · simp [byLayer, hcaller, GateOutcome.weight]
    omega
  · simp [byLayer, hcaller, hyolo, GateOutcome.weight, ApprovalMode.askThreshold]
    omega
  · split
    next flag flags hflags =>
      simp [byRule, hflags, hyolo, GateOutcome.weight]
      omega
    next hflags =>
      split
      next rule hrule =>
        simp [byRule, hrule, hyolo, GateOutcome.weight]
        omega
      next hrule =>
        split
        next threshold finding hthreshold hfinding =>
          by_cases hle : threshold.rank ≤ finding.level.rank
          · simp [hcaller, hflags, hrule, hthreshold, hfinding, Reaches, hle, GateOutcome.weight]
          · simp [hcaller, hflags, hrule, hthreshold, hfinding, Reaches, hle, byLayer,
              GateOutcome.weight]
            omega
        next hnone =>
          have hrisk : ¬ ∃ threshold, policy.mode.askThreshold = some threshold ∧
              Reaches threshold.rank (classifyCommand lib (extractCommandSegments lib command)
                policy.catalogue ctx.workspaceRoots) := by
            rintro ⟨threshold, hthreshold, finding, hfinding, -⟩
            exact hnone threshold finding hthreshold hfinding
          simp [hcaller, hflags, hrule, hrisk, byLayer, GateOutcome.weight]
          omega

theorem le_weight_of_consulted {k : ℕ} (h : Consulted lib command policy) (hk : 0 < k) :
    k ≤ (evaluate lib command policy ctx).weight ↔
      (allowedBy lib command policy).isSome = false ∧
        (k ≤ 2 ∧ AsksEarly lib command policy ctx ∨ k ≤ 1 ∧ AsksByRisk lib command policy ctx) := by
  rw [evaluate_of_consulted h]
  cases allowedBy lib command policy with
  | some rule =>
    simp [byRule, GateOutcome.weight]
    omega
  | none => simpa using le_weight_evaluateRest hk

theorem le_weight_evaluate {k : ℕ} (hk : 0 < k) :
    k ≤ (evaluate lib command policy ctx).weight ↔ Reasons lib command policy ctx k := by
  unfold Reasons Denied
  cases hrule : firstMatchingRule lib command (extractCommandSegments lib command) policy.deny with
  | some rule =>
    simp only [evaluate, hrule, byRule, GateOutcome.weight, Option.isSome_some, true_or, and_true]
    exact ⟨.inl, fun h => by omega⟩
  | none =>
    cases hparsed : (extractCommandSegments lib command).parseOk with
    | true =>
      rw [le_weight_of_consulted ⟨hrule, .inl hparsed⟩ hk]
      simp [hrule, hparsed]
    | false =>
      cases hliteral : denyOnUnparsable lib command (extractCommandSegments lib command)
          policy.deny with
      | some rule =>
        simp [evaluate, hrule, hparsed, hliteral, byRule, GateOutcome.weight]
        omega
      | none =>
        by_cases hyolo : policy.mode = .yolo
        · rw [le_weight_of_consulted ⟨hrule, .inr ⟨hliteral, hyolo⟩⟩ hk]
          simp [hrule, hparsed, hliteral, hyolo]
        · simp [evaluate, hrule, hparsed, hliteral, hyolo, byLayer, GateOutcome.weight]
          omega

theorem yolo_of_tightened (h : Tightened policy ctx policy' ctx') (hyolo : policy'.mode = .yolo) :
    policy.mode = .yolo := by
  have hmode := h.mode
  rw [hyolo] at hmode
  cases hold : policy.mode <;> rw [hold] at hmode <;> first | rfl | cases hmode

theorem askThreshold_anti {mode mode' : ApprovalMode} {threshold : RiskLevel}
    (h : mode.strictness ≤ mode'.strictness) (hthreshold : mode.askThreshold = some threshold) :
    ∃ threshold', mode'.askThreshold = some threshold' ∧ threshold'.rank ≤ threshold.rank := by
  cases mode <;> cases hthreshold
  all_goals
    cases mode' <;> first
      | exact absurd h (by decide)
      | exact ⟨_, rfl, by decide⟩

theorem Reasons.mono {k : ℕ} (h : Tightened policy ctx policy' ctx')
    (hreasons : Reasons lib command policy ctx k) : Reasons lib command policy' ctx' k := by
  obtain ⟨hk, hdenied⟩ | ⟨hk, hparsed, hyolo⟩ | ⟨hallow, hasks⟩ := hreasons
  · exact .inl ⟨hk, hdenied.imp (isSome_find h.deny) (And.imp_right (isSome_find h.deny))⟩
  · exact .inr (.inl ⟨hk, hparsed, fun hyolo' => hyolo (yolo_of_tightened h hyolo')⟩)
  · rw [← Bool.not_eq_true] at hallow
    refine .inr (.inr ⟨Bool.eq_false_iff.mpr fun hsome => hallow (isSome_find h.allow hsome), ?_⟩)
    refine hasks.imp (And.imp_right (Or.imp (And.imp h.trust h.confirmation)
      (And.imp (fun hyolo hyolo' => hyolo (yolo_of_tightened h hyolo'))
        (Or.imp_right (isSome_find h.ask))))) (And.imp_right ?_)
    rintro ⟨threshold, hthreshold, hreaches⟩
    obtain ⟨threshold', hthreshold', hle⟩ := askThreshold_anti h.mode hthreshold
    obtain ⟨finding, hfinding, hrank⟩ := classifyCommand_mono h hreaches
    exact ⟨threshold', hthreshold', finding, hfinding, hle.trans hrank⟩

theorem weight_mono (h : Tightened policy ctx policy' ctx') :
    (evaluate lib command policy ctx).weight ≤ (evaluate lib command policy' ctx').weight := by
  rcases Nat.eq_zero_or_pos (evaluate lib command policy ctx).weight with hzero | hpos
  · rw [hzero]
    exact Nat.zero_le _
  · exact (le_weight_evaluate hpos).mpr (((le_weight_evaluate hpos).mp le_rfl).mono h)

theorem evaluate_mono (h : Tightened policy ctx policy' ctx') :
    (evaluate lib command policy ctx).result.rank ≤
      (evaluate lib command policy' ctx').result.rank := by
  rw [rank_eq, rank_eq]
  exact Nat.div_le_div_right (Nat.succ_le_succ (weight_mono h))

variable (cfg : ShellLlmValidation) (verdict : Option LlmVerdict)

def objects : Bool := cfg.enabled && verdict.elim (cfg.onFailure = .ask) LlmVerdict.ask

def lifts : Bool :=
  cfg.enabled && cfg.authority = .askAndAllow && verdict.any fun verdict => !verdict.ask

def answered : ℕ → ℕ
  | 0 => if objects cfg verdict then 1 else 0
  | 1 => if lifts cfg verdict then 0 else 1
  | 2 => 1
  | _ => 2

theorem answered_mono : Monotone (answered cfg verdict) := by
  have hboth : lifts cfg verdict = true → objects cfg verdict = false := by
    cases verdict with
    | none => simp [lifts]
    | some verdict => simp +contextual [lifts, objects]
  refine monotone_nat_of_le_succ fun weight => ?_
  match weight with
  | 0 =>
    by_cases hlifts : lifts cfg verdict = true
    · simp [answered, hboth hlifts]
    · simp only [answered, hlifts]
      split <;> decide
  | 1 =>
    rw [answered, answered]
    split <;> decide
  | 2 => exact Nat.le_succ _
  | _ + 3 => exact le_rfl

theorem rank_applyLlmVerdict (outcome : GateOutcome) :
    (applyLlmVerdict outcome verdict cfg).result.rank = answered cfg verdict outcome.weight := by
  unfold applyLlmVerdict GateOutcome.weight answered objects lifts
  cases hon : cfg.enabled with
  | false =>
    cases hresult : outcome.result with
    | confirmation => by_cases hrisk : outcome.layer = .risk <;>
        simp [GateOutcome.final, hresult, hrisk, Decision.rank]
    | _ => simp [GateOutcome.final, hresult, Decision.rank]
  | true =>
    cases hresult : outcome.result with
    | deny => simp [GateOutcome.final, hresult, Decision.rank]
    | pass =>
      cases verdict with
      | none => by_cases hask : cfg.onFailure = .ask <;>
          simp [GateOutcome.final, hresult, hask, Decision.rank]
      | some verdict => cases hask : verdict.ask <;>
          simp [GateOutcome.final, hresult, hask, Decision.rank]
    | confirmation =>
      by_cases hrisk : outcome.layer = .risk
      · by_cases hmay : cfg.authority = .askAndAllow
        · cases verdict with
          | none => simp [GateOutcome.final, hresult, hrisk, hmay, Decision.rank]
          | some verdict => cases hask : verdict.ask <;>
              simp [GateOutcome.final, hresult, hrisk, hmay, hask, Option.filter, Decision.rank]
        · simp [GateOutcome.final, hresult, hrisk, hmay, Decision.rank]
      · simp [GateOutcome.final, hresult, hrisk, Decision.rank]

theorem evaluateWithLlm_eq : evaluateWithLlm lib command policy ctx cfg verdict =
    applyLlmVerdict (evaluate lib command policy ctx) verdict cfg := by
  unfold evaluateWithLlm
  dsimp only
  split_ifs with hoff hkept
  · rw [applyLlmVerdict.eq_def, if_pos hoff]
  · obtain ⟨hpass, hmay⟩ := hkept
    rw [applyLlmVerdict.eq_def, if_neg hoff]
    cases hresult : (evaluate lib command policy ctx).result with
    | pass => exact absurd hresult hpass
    | deny => rfl
    | confirmation =>
      exact (if_neg fun hrisk => hmay ⟨hresult, hrisk⟩).symm
  · rfl

/-- Tighter settings never let more pass, whatever the language model says; the order of the rules
decides nothing; and the model leaves a denial alone and lifts at most the question of the risk
layer, only with the authority to allow. -/
theorem tightening_never_loosens (lib : Libraries) (command : Text) :
    (∀ policy ctx policy' ctx', Tightened policy ctx policy' ctx' →
      (evaluate lib command policy ctx).result.rank ≤
        (evaluate lib command policy' ctx').result.rank ∧
      ∀ cfg verdict, (evaluateWithLlm lib command policy ctx cfg verdict).result.rank ≤
        (evaluateWithLlm lib command policy' ctx' cfg verdict).result.rank) ∧
    (∀ policy deny ask allow ctx, policy.deny.Perm deny → policy.ask.Perm ask →
      policy.allow.Perm allow → (evaluate lib command policy ctx).result.rank =
        (evaluate lib command { policy with deny, ask, allow } ctx).result.rank) ∧
    ∀ outcome verdict cfg,
      (outcome.result = .deny → applyLlmVerdict outcome verdict cfg = outcome.final) ∧
      ((applyLlmVerdict outcome verdict cfg).result.rank < outcome.result.rank →
        cfg.authority = .askAndAllow ∧ outcome.result = .confirmation ∧ outcome.layer = .risk) := by
  refine ⟨fun policy ctx policy' ctx' h => ⟨evaluate_mono h, fun cfg verdict => ?_⟩,
    fun policy deny ask allow ctx hdeny hask hallow => ?_,
    fun outcome verdict cfg => ⟨fun hdeny => ?_, fun hlower => ?_⟩⟩
  · rw [evaluateWithLlm_eq, evaluateWithLlm_eq, rank_applyLlmVerdict, rank_applyLlmVerdict]
    exact answered_mono cfg verdict (weight_mono h)
  · have hraised : ∀ entry ∈ policy.catalogue, ∃ entry' ∈ policy.catalogue, Raised entry entry' :=
      fun entry hentry => ⟨entry, hentry, rfl, le_rfl⟩
    have hto : Tightened policy ctx { policy with deny, ask, allow } ctx :=
      ⟨le_rfl, hdeny.subset, hask.subset, hallow.symm.subset, id, hraised, Subset.refl _, id⟩
    have hback : Tightened { policy with deny, ask, allow } ctx policy ctx :=
      ⟨le_rfl, hdeny.symm.subset, hask.symm.subset, hallow.subset, id, hraised, Subset.refl _, id⟩
    exact (evaluate_mono hto).antisymm (evaluate_mono hback)
  · rw [applyLlmVerdict.eq_def, if_pos (by simp [hdeny])]
  · rw [rank_applyLlmVerdict, rank_eq] at hlower
    unfold GateOutcome.weight answered lifts at hlower
    cases hresult : outcome.result with
    | pass => simp [hresult] at hlower
    | deny => simp [hresult] at hlower
    | confirmation =>
      by_cases hrisk : outcome.layer = .risk
      · by_cases hmay : cfg.authority = .askAndAllow
        · exact ⟨hmay, rfl, hrisk⟩
        · simp [hresult, hrisk, hmay] at hlower
      · simp [hresult, hrisk] at hlower

end ShellGate
