import RefactEngine.HistoryRepair

/-! # When a repaired history pairs every call with a result

The passes work on lists; the condition is on the positions of the original messages.
-/
namespace HistoryRepair

open List

variable {parse : ParseObject} {messages : List ChatMessage} {id : String}

def Paired (result : List ChatMessage) : Prop :=
  ∀ front m back, result = front ++ m :: back → m.role = .assistant → ∀ call ∈ m.calls,
    ∃ between answer rest, back = between ++ answer :: rest ∧ answer.isResult = true ∧
      answer.toolCallId = call.id ∧ ∀ later ∈ between, later.role.endsTurn = false

/-- Every result of a call comes after an assistant message that declares the call. -/
def Preceded (result : List ChatMessage) : Prop :=
  ∀ front m back, result = front ++ m :: back → m.isResult = true → m.toolCallId ≠ "" →
    ∃ a ∈ front, a.declaresCall m.toolCallId = true

def Repairs (parse : ParseObject) (messages : List ChatMessage) (sampling : SamplingParameters) :
    Prop :=
  ∃ result, (fixAndLimitMessagesHistory parse messages sampling).1 = .ok result ∧
    Paired result ∧ Preceded result

/-- A message whose calls all have sound arguments and an answer somewhere. -/
def Keeps (parse : ParseObject) (messages : List ChatMessage) (m : ChatMessage) : Prop :=
  isBroken parse m = false ∧ ∀ call ∈ m.calls, ∃ r ∈ messages, isBroken parse r = false ∧
    r.answers call.id = true

def DeclaresAt (parse : ParseObject) (messages : List ChatMessage) (i : ℕ) (id : String) : Prop :=
  ∃ a, messages[i]? = some a ∧ Keeps parse messages a ∧ a.declaresCall id = true

def CalledBy (parse : ParseObject) (messages : List ChatMessage) (id : String) : Prop :=
  ∃ m ∈ messages, Keeps parse messages m ∧ ∃ call ∈ m.calls, call.id = id

/-- A result that is not followed by a reply to the same call, unless it is a context file. -/
def RemainsAt (parse : ParseObject) (messages : List ChatMessage) (j : ℕ) (id : String) : Prop :=
  ∃ r, messages[j]? = some r ∧ Keeps parse messages r ∧ r.answers id = true ∧
    (r.isReply = true → ∀ k later, j < k → messages[k]? = some later →
      Keeps parse messages later → later.isReply = true → later.toolCallId ≠ id)

/-- Each call has a remaining result between it and the next declaration of the same call, or
before it if it is the first declaration; and every remaining result is declared by an assistant
message. -/
structure Repairable (parse : ParseObject) (messages : List ChatMessage) : Prop where
  answered : ∀ i id, DeclaresAt parse messages i id → ∃ j, RemainsAt parse messages j id ∧
    ((i < j ∧ ∀ k, i < k → k < j → ¬ DeclaresAt parse messages k id) ∨
      (j < i ∧ ∀ k, k < i → ¬ DeclaresAt parse messages k id))
  declared : ∀ j id, RemainsAt parse messages j id → CalledBy parse messages id →
    ∃ i, DeclaresAt parse messages i id

/-- What the passes rely on of the JSON parser: an empty object is an object, and so is one without
the space around it. -/
structure JsonText (parse : ParseObject) : Prop where
  empty : parse "\x7b\x7d" = .ok ()
  trimmed : ∀ text, parse text = .ok () → parse (trim text) = .ok ()

variable {back : List ChatMessage}

theorem isAnsweredNext_iff :
    isAnsweredNext id back = true ↔ ∃ between answer rest, back = between ++ answer :: rest ∧
      answer.isResult = true ∧ answer.toolCallId = id ∧
      ∀ later ∈ between, later.role.endsTurn = false := by
  induction back with
  | nil => simp [isAnsweredNext]
  | cons m back ih =>
    unfold isAnsweredNext
    constructor
    · intro h
      split at h
      · rename_i hans
        simp only [Bool.and_eq_true, decide_eq_true_eq] at hans
        exact ⟨[], m, back, rfl, hans.1, hans.2, by simp⟩
      · split at h
        · cases h
        · rename_i hturn
          obtain ⟨between, answer, rest, rfl, hres, hid, hbetw⟩ := ih.mp h
          refine ⟨m :: between, answer, rest, rfl, hres, hid, fun later hlater => ?_⟩
          rcases mem_cons.mp hlater with rfl | hlater
          · simpa using hturn
          · exact hbetw later hlater
    · rintro ⟨between, answer, rest, heq, hres, hid, hbetw⟩
      cases between with
      | nil =>
        cases heq
        simp [hres, hid]
      | cons head between =>
        cases heq
        have hnext := ih.mpr ⟨between, answer, rest, rfl, hres, hid,
          fun later hlater => hbetw later (mem_cons_of_mem _ hlater)⟩
        have hturn := hbetw m mem_cons_self
        split
        · rfl
        · rw [if_neg (by simp [hturn])]
          exact hnext

def PairedRec : List ChatMessage → Prop
  | [] => True
  | m :: back =>
    (m.role = .assistant → ∀ call ∈ m.calls, isAnsweredNext call.id back = true) ∧ PairedRec back

variable {result : List ChatMessage}

theorem paired_iff : Paired result ↔ PairedRec result := by
  induction result with
  | nil => simp [Paired, PairedRec]
  | cons m back ih =>
    constructor
    · intro h
      refine ⟨fun hrole call hcall => ?_, ih.mp fun front x rest heq => ?_⟩
      · exact isAnsweredNext_iff.mpr (h [] m back rfl hrole call hcall)
      · exact h (m :: front) x rest (by rw [heq, cons_append])
    · rintro ⟨hhead, htail⟩ front x rest heq hrole call hcall
      cases front with
      | nil =>
        cases heq
        exact isAnsweredNext_iff.mp (hhead hrole call hcall)
      | cons head front =>
        cases heq
        exact ih.mpr htail front x rest rfl hrole call hcall

theorem unrespondedCall_iff (idx : ℕ) (result : List ChatMessage) :
    unrespondedCall idx result = none ↔ PairedRec result := by
  induction result generalizing idx with
  | nil => simp [unrespondedCall, PairedRec]
  | cons m back ih =>
    rw [unrespondedCall, Option.or_eq_none_iff, ih, List.findSome?_eq_none_iff, PairedRec]
    refine and_congr_left fun _ => ?_
    by_cases hrole : m.role = .assistant <;> simp [hrole]

theorem unparseableCall_iff (idx : ℕ) (result : List ChatMessage) :
    unparseableCall parse idx result = none ↔
      ∀ m ∈ result, ∀ call ∈ m.calls, call.parseArgs parse = .ok () := by
  induction result generalizing idx with
  | nil => simp [unparseableCall]
  | cons m back ih =>
    rw [unparseableCall, Option.or_eq_none_iff, ih, List.findSome?_eq_none_iff,
      forall_mem_cons]
    refine and_congr_left fun _ => forall₂_congr fun call _ => ?_
    cases call.parseArgs parse <;> simp

/-- Validation of a list that begins well and whose arguments parse. -/
theorem validate_iff {first : ChatMessage} (hfirst : result.head? = some first)
    (hanchor : first.role.isAnchor = true)
    (hargs : ∀ m ∈ result, ∀ call ∈ m.calls, call.parseArgs parse = .ok ()) :
    (∃ fixed, validateChatHistory parse result = .ok fixed ∧ Paired fixed ∧ Preceded fixed) ↔
      Paired result ∧ Preceded result := by
  cases result with
  | nil => cases hfirst
  | cons m back =>
    cases hfirst
    have hany : ((first :: back).any fun m => m.role.isAnchor) = true := by simp [hanchor]
    have hparse : unparseableCall parse 0 (first :: back) = none :=
      (unparseableCall_iff 0 _).mpr hargs
    simp only [validateChatHistory, hany, hanchor, hparse, Option.none_or]
    cases hresponse : unrespondedCall 0 (first :: back) with
    | none => simp
    | some error =>
      have hnot : ¬ Paired (first :: back) := by
        rw [paired_iff, ← unrespondedCall_iff 0, hresponse]
        exact Option.some_ne_none error
      simp [hnot]

def unblock (blocks : List (ChatMessage × List ChatMessage)) : List ChatMessage :=
  blocks.flatMap fun b => b.1 :: b.2

/-- Results stand behind an assistant message that declares them, and a result that heads a block
is declared by nobody. -/
structure Blocks (blocks : List (ChatMessage × List ChatMessage)) : Prop where
  owned : ∀ b ∈ blocks, ∀ r ∈ b.2, r.isResult = true ∧ b.1.declaresCall r.toolCallId = true
  loose : ∀ b ∈ blocks, b.1.isResult = true → b.1.toolCallId ≠ "" → ∀ a ∈ blocks,
    a.1.declaresCall b.1.toolCallId = false
  named : ∀ b ∈ blocks, ∀ call ∈ b.1.calls, call.id ≠ ""

variable {blocks : List (ChatMessage × List ChatMessage)} {b : ChatMessage × List ChatMessage}

theorem Blocks.tail (h : Blocks (b :: blocks)) : Blocks blocks where
  owned c hc := h.owned c (mem_cons_of_mem _ hc)
  loose c hc hres hid a ha :=
    h.loose c (mem_cons_of_mem _ hc) hres hid a (mem_cons_of_mem _ ha)
  named c hc := h.named c (mem_cons_of_mem _ hc)

variable {m : ChatMessage}

theorem isResult_role (h : m.isResult = true) : m.role ≠ .assistant ∧ m.role.endsTurn = false := by
  simp only [ChatMessage.isResult, Bool.or_eq_true, decide_eq_true_eq] at h
  rcases h with (h | h) | h <;> rw [h] <;> decide

theorem declaresCall_role (h : m.declaresCall id = true) : m.role = .assistant := by
  simp only [ChatMessage.declaresCall, Bool.and_eq_true, decide_eq_true_eq] at h
  exact h.1

theorem declaresCall_result (h : m.isResult = true) : m.declaresCall id = false := by
  cases hdecl : m.declaresCall id with
  | false => rfl
  | true => exact absurd (declaresCall_role hdecl) (isResult_role h).1

variable {results : List ChatMessage}

theorem isAnsweredNext_results (h : ∀ r ∈ results, r.isResult = true) :
    isAnsweredNext id (results ++ back) =
      (results.any (fun r => r.toolCallId = id) || isAnsweredNext id back) := by
  induction results with
  | nil => rfl
  | cons r results ih =>
    have hr := h r mem_cons_self
    rw [cons_append, isAnsweredNext, (isResult_role hr).2,
      ih fun x hx => h x (mem_cons_of_mem _ hx)]
    by_cases hid : r.toolCallId = id <;> simp [hr, hid]

theorem isAnsweredNext_blocks (h : Blocks blocks)
    (hloose : ∀ b ∈ blocks, b.1.isResult = true → b.1.toolCallId ≠ id) :
    isAnsweredNext id (unblock blocks) = false := by
  induction blocks with
  | nil => rfl
  | cons b blocks ih =>
    have hrest := ih h.tail fun c hc => hloose c (mem_cons_of_mem _ hc)
    have hhead := hloose b mem_cons_self
    rw [unblock, flatMap_cons, cons_append, isAnsweredNext]
    split
    · rename_i hans
      simp only [Bool.and_eq_true, decide_eq_true_eq] at hans
      exact absurd hans.2 (hhead hans.1)
    · split
      · rfl
      · rename_i hturn
        -- a message that does not end the turn is no assistant, so nothing stands behind it
        have hnone : b.2 = [] := by
          rw [eq_nil_iff_forall_not_mem]
          intro r hr
          have hrole := declaresCall_role (h.owned b mem_cons_self r hr).2
          rw [hrole] at hturn
          exact hturn rfl
        rw [hnone, nil_append]
        exact hrest

theorem pairedRec_results (h : ∀ r ∈ results, r.isResult = true) :
    PairedRec (results ++ back) ↔ PairedRec back := by
  induction results with
  | nil => rfl
  | cons r results ih =>
    rw [cons_append, PairedRec, ih fun x hx => h x (mem_cons_of_mem _ hx)]
    have hrole := (isResult_role (h r mem_cons_self)).1
    exact ⟨And.right, fun hback => ⟨fun hassistant => absurd hassistant hrole, hback⟩⟩

theorem paired_blocks (h : Blocks blocks) :
    Paired (unblock blocks) ↔ ∀ b ∈ blocks, b.1.role = .assistant → ∀ call ∈ b.1.calls,
      ∃ r ∈ b.2, r.toolCallId = call.id := by
  rw [paired_iff]
  induction blocks with
  | nil => simp [unblock, PairedRec]
  | cons b blocks ih =>
    have hresults : ∀ r ∈ b.2, r.isResult = true := fun r hr =>
      (h.owned b mem_cons_self r hr).1
    have hnext : b.1.role = .assistant → ∀ call ∈ b.1.calls,
        (isAnsweredNext call.id (b.2 ++ unblock blocks) = true ↔
          ∃ r ∈ b.2, r.toolCallId = call.id) := by
      intro hrole call hcall
      have hfalse : isAnsweredNext call.id (unblock blocks) = false := by
        apply isAnsweredNext_blocks h.tail
        intro c hc hres heq
        have hdecl : b.1.declaresCall c.1.toolCallId = true := by
          simp only [ChatMessage.declaresCall, hrole, decide_true, Bool.true_and,
            any_eq_true, decide_eq_true_eq]
          exact ⟨call, hcall, heq.symm⟩
        rw [h.loose c (mem_cons_of_mem _ hc) hres
          (heq ▸ h.named b mem_cons_self call hcall) b mem_cons_self] at hdecl
        cases hdecl
      rw [isAnsweredNext_results hresults, hfalse, Bool.or_false]
      simp
    have hunblock : unblock (b :: blocks) = b.1 :: (b.2 ++ unblock blocks) := rfl
    rw [hunblock, PairedRec, pairedRec_results hresults, ih h.tail, forall_mem_cons]
    refine and_congr_left fun _ => forall_congr' fun hrole => forall₂_congr fun call hcall => ?_
    exact hnext hrole call hcall

theorem preceded_blocks (h : Blocks blocks) :
    Preceded (unblock blocks) ↔ ∀ b ∈ blocks, b.1.isResult = true → b.1.toolCallId = "" := by
  constructor
  · intro hpreceded b hb hres
    by_contra hid
    obtain ⟨before, after, rfl⟩ := append_of_mem hb
    have hsplit : unblock (before ++ b :: after) =
        unblock before ++ b.1 :: (b.2 ++ unblock after) := by
      simp [unblock]
    obtain ⟨a, ha, hdecl⟩ := hpreceded _ _ _ hsplit hres hid
    obtain ⟨c, hc, hac⟩ := mem_flatMap.mp ha
    have hc' : c ∈ before ++ b :: after := mem_append_left _ hc
    rcases mem_cons.mp hac with rfl | howned
    · rw [h.loose b hb hres hid c hc'] at hdecl
      cases hdecl
    · rw [declaresCall_result (h.owned c hc' a howned).1] at hdecl
      cases hdecl
  · intro hheads front m back heq hres hid
    induction blocks generalizing front with
    | nil => simp [unblock] at heq
    | cons b blocks ih =>
      have hrest := ih h.tail (fun c hc => hheads c (mem_cons_of_mem _ hc))
      have hunblock : unblock (b :: blocks) = b.1 :: (b.2 ++ unblock blocks) := rfl
      rw [hunblock] at heq
      cases front with
      | nil =>
        cases heq
        exact absurd (hheads b mem_cons_self hres) hid
      | cons head front =>
        rw [cons_append, List.cons.injEq] at heq
        obtain ⟨rfl, heq⟩ := heq
        rcases append_eq_append_iff.mp heq with ⟨middle, rfl, hback⟩ | ⟨middle, hb, hback⟩
        · obtain ⟨a, ha, hdecl⟩ := hrest middle hback
          exact ⟨a, mem_cons_of_mem _ (mem_append_right _ ha), hdecl⟩
        · cases middle with
          | nil =>
            obtain ⟨a, ha, hdecl⟩ := hrest [] hback.symm
            cases ha
          | cons x middle =>
            cases hback
            have hm : m ∈ b.2 := by simp [hb]
            exact ⟨b.1, mem_cons_self, (h.owned b mem_cons_self m hm).2⟩

theorem rposition_none {α : Type*} {p : α → Bool} {l : List α} :
    rposition p l = none ↔ ∀ (k : ℕ) a, l[k]? = some a → p a = false := by
  induction l with
  | nil => simp [rposition]
  | cons x l ih =>
    rw [rposition]
    cases hrest : rposition p l with
    | some i =>
      have hsome := mt ih.mpr (by rw [hrest]; exact Option.some_ne_none i)
      refine ⟨fun h => absurd h (Option.some_ne_none _), fun h => absurd (fun k a hk => ?_) hsome⟩
      exact h (k + 1) a hk
    | none =>
      constructor
      · intro h k a hk
        cases k with
        | zero =>
          cases hk
          simpa using h
        | succ k => exact ih.mp hrest k a hk
      · intro h
        have hx := h 0 x rfl
        simp [hx]

variable {i : ℕ}

theorem rposition_some {α : Type*} {p : α → Bool} {l : List α} :
    rposition p l = some i ↔ (∃ a, l[i]? = some a ∧ p a = true) ∧
      ∀ k a, i < k → l[k]? = some a → p a = false := by
  induction l generalizing i with
  | nil => simp [rposition]
  | cons x l ih =>
    rw [rposition]
    cases hrest : rposition p l with
    | some n =>
      obtain ⟨⟨a, ha, hpa⟩, hlast⟩ := ih.mp hrest
      constructor
      · intro h
        cases h
        refine ⟨⟨a, ha, hpa⟩, fun k b hk hb => ?_⟩
        cases k with
        | zero => omega
        | succ k => exact hlast k b (by omega) hb
      · rintro ⟨⟨b, hb, hpb⟩, hafter⟩
        have hle : n + 1 ≤ i := by
          by_contra hlt
          rw [hafter (n + 1) a (by omega) ha] at hpa
          cases hpa
        cases i with
        | zero => omega
        | succ i =>
          have hge : i ≤ n := by
            by_contra hlt
            rw [hlast i b (by omega) hb] at hpb
            cases hpb
          rw [show n = i by omega]
    | none =>
      have hnone := rposition_none.mp hrest
      change (if p x then some 0 else none) = some i ↔ _
      constructor
      · intro h
        split at h
        · rename_i hx
          cases h
          refine ⟨⟨x, rfl, hx⟩, fun k b hk hb => ?_⟩
          cases k with
          | zero => omega
          | succ k => exact hnone k b hb
        · cases h
      · rintro ⟨⟨b, hb, hpb⟩, -⟩
        cases i with
        | zero =>
          cases hb
          rw [if_pos hpb]
        | succ i =>
          rw [hnone i b hb] at hpb
          cases hpb

theorem findIdx?_some {α : Type*} {p : α → Bool} {l : List α} :
    l.findIdx? p = some i ↔ (∃ a, l[i]? = some a ∧ p a = true) ∧
      ∀ k a, k < i → l[k]? = some a → p a = false := by
  rw [List.findIdx?_eq_some_iff_getElem]
  constructor
  · rintro ⟨hi, hp, hbef⟩
    refine ⟨⟨l[i], List.getElem?_eq_getElem hi, hp⟩, fun k a hk ha => ?_⟩
    have hlt : k < l.length := by omega
    rw [List.getElem?_eq_getElem hlt, Option.some.injEq] at ha
    rw [← ha]
    simpa using hbef k hk
  · rintro ⟨⟨a, ha, hp⟩, hbef⟩
    obtain ⟨hi, rfl⟩ := List.getElem?_eq_some_iff.mp ha
    refine ⟨hi, hp, fun k hk => ?_⟩
    rw [hbef k _ hk (List.getElem?_eq_getElem (by omega))]
    exact Bool.false_ne_true

def DeclaresIdx (messages : List ChatMessage) (id : String) (k : ℕ) : Prop :=
  ∃ a, messages[k]? = some a ∧ a.declaresCall id = true

theorem not_declaresIdx {k : ℕ} :
    ¬ DeclaresIdx messages id k ↔ ∀ a, messages[k]? = some a → a.declaresCall id = false := by
  simp [DeclaresIdx]

variable {j : ℕ}

theorem preceding_some : rposition (fun m => m.declaresCall id) (messages.take j) = some i ↔
      i < j ∧ DeclaresIdx messages id i ∧ ∀ k, i < k → k < j → ¬ DeclaresIdx messages id k := by
  rw [rposition_some]
  simp only [List.getElem?_take]
  constructor
  · rintro ⟨⟨a, ha, hdecl⟩, hlast⟩
    split at ha
    · rename_i hij
      refine ⟨hij, ⟨a, ha, hdecl⟩, fun k hik hkj => not_declaresIdx.mpr fun b hb => ?_⟩
      exact hlast k b hik (by rw [if_pos hkj]; exact hb)
    · cases ha
  · rintro ⟨hij, ⟨a, ha, hdecl⟩, hlast⟩
    refine ⟨⟨a, by rw [if_pos hij]; exact ha, hdecl⟩, fun k b hik hb => ?_⟩
    split at hb
    · rename_i hkj
      exact not_declaresIdx.mp (hlast k hik hkj) b hb
    · cases hb

theorem preceding_none : rposition (fun m => m.declaresCall id) (messages.take j) = none ↔
      ∀ k, k < j → ¬ DeclaresIdx messages id k := by
  rw [rposition_none]
  simp only [List.getElem?_take]
  constructor
  · intro h k hkj
    exact not_declaresIdx.mpr fun b hb => h k b (by rw [if_pos hkj]; exact hb)
  · intro h k b hb
    split at hb
    · rename_i hkj
      exact not_declaresIdx.mp (h k hkj) b hb
    · cases hb

theorem following_some {offset : ℕ} :
    (messages.drop (j + 1)).findIdx? (fun m => m.declaresCall id) = some offset ↔
      DeclaresIdx messages id (j + 1 + offset) ∧
        ∀ k, j < k → k < j + 1 + offset → ¬ DeclaresIdx messages id k := by
  rw [findIdx?_some]
  simp only [List.getElem?_drop]
  refine and_congr_right fun _ => ?_
  constructor
  · intro h k hjk hk
    refine not_declaresIdx.mpr fun b hb => h (k - (j + 1)) b (by omega) ?_
    rw [show j + 1 + (k - (j + 1)) = k by omega]
    exact hb
  · intro h k b hk hb
    exact not_declaresIdx.mp (h (j + 1 + k) (by omega) (by omega)) b hb

theorem ownerFor_some : ownerFor messages j id = some i ↔
      (i < j ∧ DeclaresIdx messages id i ∧ ∀ k, i < k → k < j → ¬ DeclaresIdx messages id k) ∨
      (j < i ∧ DeclaresIdx messages id i ∧ (∀ k, k < j → ¬ DeclaresIdx messages id k) ∧
        ∀ k, j < k → k < i → ¬ DeclaresIdx messages id k) := by
  unfold ownerFor
  cases hbef : rposition (fun m => m.declaresCall id) (messages.take j) with
  | some n =>
    obtain ⟨hnj, hn, -⟩ := preceding_some.mp hbef
    rw [← preceding_some, hbef]
    refine ⟨fun h => .inl h, ?_⟩
    rintro (h | ⟨-, -, hnone, -⟩)
    · exact h
    · exact absurd hn (hnone n hnj)
  | none =>
    have hnone := preceding_none.mp hbef
    rw [← preceding_some, hbef]
    simp only [Option.map_eq_some_iff, following_some]
    constructor
    · rintro ⟨offset, ⟨hdecl, hbetw⟩, rfl⟩
      exact .inr ⟨by omega, hdecl, hnone, hbetw⟩
    · rintro (h | ⟨hji, hdecl, -, hbetw⟩)
      · cases h
      · refine ⟨i - (j + 1), ?_, by omega⟩
        rw [show j + 1 + (i - (j + 1)) = i by omega]
        exact ⟨hdecl, hbetw⟩

theorem ownerFor_none :
    ownerFor messages j id = none ↔ ∀ k, k ≠ j → ¬ DeclaresIdx messages id k := by
  constructor
  · intro h k hkj hdecl
    unfold ownerFor at h
    split at h
    · cases h
    · rename_i hbef
      have hnone := preceding_none.mp hbef
      rw [Option.map_eq_none_iff, List.findIdx?_eq_none_iff] at h
      rcases Nat.lt_or_gt_of_ne hkj with hless | hmore
      · exact hnone k hless hdecl
      · obtain ⟨a, ha, hdecl⟩ := hdecl
        have hmem : a ∈ messages.drop (j + 1) := by
          rw [mem_iff_getElem?]
          refine ⟨k - (j + 1), ?_⟩
          rw [List.getElem?_drop, show j + 1 + (k - (j + 1)) = k by omega]
          exact ha
        rw [h a hmem] at hdecl
        cases hdecl
  · intro h
    rw [Option.eq_none_iff_forall_ne_some]
    intro i hi
    rcases ownerFor_some.mp hi with ⟨hij, hdecl, -⟩ | ⟨hji, hdecl, -⟩
    · exact h i (by omega) hdecl
    · exact h i (by omega) hdecl

def ownedBy (messages : List ChatMessage) (i : ℕ) : List ChatMessage :=
  (messages.zipIdx.filter fun result => owner messages result = some i).map Prod.fst

def blocksOf (messages : List ChatMessage) : List (ChatMessage × List ChatMessage) :=
  (messages.zipIdx.filter fun entry => (owner messages entry).isNone).map fun entry =>
    (entry.1, ownedBy messages entry.2)

theorem owner_some : owner messages (m, j) = some i ↔
      m.answers m.toolCallId = true ∧ ownerFor messages j m.toolCallId = some i := by
  unfold owner ChatMessage.answers
  split <;> rename_i h <;> simp_all

theorem declaresIdx_of_owner (h : owner messages (m, j) = some i) :
    m.answers m.toolCallId = true ∧ DeclaresIdx messages m.toolCallId i := by
  obtain ⟨hans, hsome⟩ := owner_some.mp h
  refine ⟨hans, ?_⟩
  rcases ownerFor_some.mp hsome with ⟨-, hdecl, -⟩ | ⟨-, hdecl, -⟩
  · exact hdecl
  · exact hdecl

theorem owner_none (h : m.answers id = true) :
    owner messages (m, j) = none ↔ ownerFor messages j id = none := by
  simp only [ChatMessage.answers, Bool.and_eq_true, decide_eq_true_eq] at h
  unfold owner
  rw [if_pos (by simp [h.1.1, h.2]), h.1.2]

variable {r : ChatMessage}

theorem mem_ownedBy :
    r ∈ ownedBy messages i ↔ ∃ j, messages[j]? = some r ∧ owner messages (r, j) = some i := by
  simp only [ownedBy, mem_map, mem_filter, decide_eq_true_eq]
  constructor
  · rintro ⟨⟨m, j⟩, ⟨hmem, howner⟩, rfl⟩
    exact ⟨j, List.mem_zipIdx_iff_getElem?.mp hmem, howner⟩
  · rintro ⟨j, hj, howner⟩
    exact ⟨(r, j), ⟨List.mem_zipIdx_iff_getElem?.mpr hj, howner⟩, rfl⟩

theorem mem_blocksOf :
    b ∈ blocksOf messages ↔ ∃ j, messages[j]? = some b.1 ∧ owner messages (b.1, j) = none ∧
      b.2 = ownedBy messages j := by
  simp only [blocksOf, mem_map, mem_filter, Option.isNone_iff_eq_none]
  constructor
  · rintro ⟨⟨m, j⟩, ⟨hmem, howner⟩, rfl⟩
    exact ⟨j, List.mem_zipIdx_iff_getElem?.mp hmem, howner, rfl⟩
  · rintro ⟨j, hj, howner, howned⟩
    exact ⟨(b.1, j), ⟨List.mem_zipIdx_iff_getElem?.mpr hj, howner⟩, by rw [← howned]⟩

theorem unblock_unowned (h : ∀ entry ∈ messages.zipIdx, owner messages entry = none) :
    unblock (blocksOf messages) = messages := by
  have hkept : messages.zipIdx.filter (fun entry => (owner messages entry).isNone) =
      messages.zipIdx := by
    rw [filter_eq_self]
    intro entry hentry
    rw [h entry hentry]
    rfl
  have howned : ∀ i, ownedBy messages i = [] := by
    intro i
    rw [ownedBy, map_eq_nil_iff, filter_eq_nil_iff]
    intro entry hentry
    simp [h entry hentry]
  rw [blocksOf, hkept, unblock, flatMap_map]
  simp only [howned]
  rw [← map_eq_flatMap, zipIdx_map_fst]

theorem relocate_eq (messages : List ChatMessage) :
    relocateToolResultsAfterTheirCalls messages = unblock (blocksOf messages) := by
  unfold relocateToolResultsAfterTheirCalls
  split
  · rename_i hcalls
    refine (unblock_unowned fun entry hentry => ?_).symm
    rw [Option.eq_none_iff_forall_ne_some]
    intro i hi
    obtain ⟨hans, a, ha, hcall⟩ := declaresIdx_of_owner hi
    rw [all_eq_true] at hcalls
    have hnone := hcalls a (mem_of_getElem? ha)
    simp only [decide_eq_true_eq] at hnone
    simp [ChatMessage.declaresCall, hnone] at hcall
  · split
    · rename_i howners
      refine (unblock_unowned fun entry hentry => ?_).symm
      rw [all_eq_true] at howners
      exact Option.isNone_iff_eq_none.mp (howners entry hentry)
    · rw [unblock, blocksOf, flatMap_map]
      rfl

def Named (messages : List ChatMessage) : Prop := ∀ m ∈ messages, ∀ call ∈ m.calls, call.id ≠ ""

theorem answers_iff : m.answers id = true ↔ m.isResult = true ∧ m.toolCallId = id ∧ id ≠ "" := by
  simp only [ChatMessage.answers, Bool.and_eq_true, decide_eq_true_eq]
  constructor
  · rintro ⟨⟨hres, rfl⟩, hid⟩
    exact ⟨hres, rfl, hid⟩
  · rintro ⟨hres, rfl, hid⟩
    exact ⟨⟨hres, rfl⟩, hid⟩

theorem blocks_blocksOf (hnamed : Named messages) : Blocks (blocksOf messages) where
  owned b hb r hr := by
    obtain ⟨i, hi, -, hb2⟩ := mem_blocksOf.mp hb
    obtain ⟨j, hj, howner⟩ := mem_ownedBy.mp (hb2 ▸ hr)
    obtain ⟨hans, a, ha, hcall⟩ := declaresIdx_of_owner howner
    refine ⟨(answers_iff.mp hans).1, ?_⟩
    rw [hi] at ha
    cases ha
    exact hcall
  loose b hb hres hid a ha := by
    obtain ⟨j, hj, howner, -⟩ := mem_blocksOf.mp hb
    obtain ⟨i, hi, -, -⟩ := mem_blocksOf.mp ha
    have hnone := ownerFor_none.mp
      ((owner_none (answers_iff.mpr ⟨hres, rfl, hid⟩)).mp howner)
    by_cases hij : i = j
    · subst hij
      rw [Option.some.inj (hi.symm.trans hj)]
      exact declaresCall_result hres
    · exact not_declaresIdx.mp (hnone i hij) a.1 hi
  named b hb := by
    obtain ⟨j, hj, -⟩ := mem_blocksOf.mp hb
    exact hnamed b.1 (mem_of_getElem? hj)

theorem owner_of_role (h : m.role = .assistant) : owner messages (m, j) = none := by
  rw [Option.eq_none_iff_forall_ne_some]
  intro i hi
  exact (isResult_role (answers_iff.mp (owner_some.mp hi).1).1).1 h

theorem declaresCall_iff :
    m.declaresCall id = true ↔ m.role = .assistant ∧ ∃ call ∈ m.calls, call.id = id := by
  simp [ChatMessage.declaresCall]

theorem not_declaresIdx_result (hj : messages[j]? = some r) (h : r.isResult = true) :
    ¬ DeclaresIdx messages id j := by
  apply not_declaresIdx.mpr
  intro a ha
  cases hj.symm.trans ha
  exact declaresCall_result h

theorem owner_iff (hj : messages[j]? = some r) (hr : r.answers id = true) :
    owner messages (r, j) = some i ↔ DeclaresIdx messages id i ∧
      ((i < j ∧ ∀ k, i < k → k < j → ¬ DeclaresIdx messages id k) ∨
        (j < i ∧ ∀ k, k < i → ¬ DeclaresIdx messages id k)) := by
  obtain ⟨hres, rfl, -⟩ := answers_iff.mp hr
  rw [owner_some, ownerFor_some]
  constructor
  · rintro ⟨-, ⟨hij, hdecl, hbetw⟩ | ⟨hji, hdecl, hbef, hbetw⟩⟩
    · exact ⟨hdecl, .inl ⟨hij, hbetw⟩⟩
    · refine ⟨hdecl, .inr ⟨hji, fun k hk => ?_⟩⟩
      rcases Nat.lt_trichotomy k j with hless | rfl | hmore
      · exact hbef k hless
      · exact not_declaresIdx_result hj hres
      · exact hbetw k hmore hk
  · rintro ⟨hdecl, ⟨hij, hbetw⟩ | ⟨hji, hbef⟩⟩
    · exact ⟨hr, .inl ⟨hij, hdecl, hbetw⟩⟩
    · exact ⟨hr, .inr ⟨hji, hdecl, fun k hk => hbef k (by omega),
        fun k _ hk => hbef k hk⟩⟩

theorem paired_relocate (hnamed : Named messages) :
    Paired (relocateToolResultsAfterTheirCalls messages) ↔
      ∀ i id, DeclaresIdx messages id i → ∃ j r, messages[j]? = some r ∧ r.answers id = true ∧
        ((i < j ∧ ∀ k, i < k → k < j → ¬ DeclaresIdx messages id k) ∨
          (j < i ∧ ∀ k, k < i → ¬ DeclaresIdx messages id k)) := by
  rw [relocate_eq, paired_blocks (blocks_blocksOf hnamed)]
  constructor
  · rintro h i id ⟨a, ha, hdecl⟩
    obtain ⟨hrole, call, hcall, rfl⟩ := declaresCall_iff.mp hdecl
    have hb : (a, ownedBy messages i) ∈ blocksOf messages :=
      mem_blocksOf.mpr ⟨i, ha, owner_of_role hrole, rfl⟩
    obtain ⟨r, hr, hid⟩ := h _ hb hrole call hcall
    obtain ⟨j, hj, howner⟩ := mem_ownedBy.mp hr
    have hans := (owner_some.mp howner).1
    rw [hid] at hans
    exact ⟨j, r, hj, hans, ((owner_iff hj hans).mp howner).2⟩
  · intro h b hb hrole call hcall
    obtain ⟨i, hi, -, howned⟩ := mem_blocksOf.mp hb
    have hdecl : DeclaresIdx messages call.id i :=
      ⟨b.1, hi, declaresCall_iff.mpr ⟨hrole, call, hcall, rfl⟩⟩
    obtain ⟨j, r, hj, hans, hnear⟩ := h i call.id hdecl
    refine ⟨r, ?_, (answers_iff.mp hans).2.1⟩
    rw [howned]
    exact mem_ownedBy.mpr ⟨j, hj, (owner_iff hj hans).mpr ⟨hdecl, hnear⟩⟩

theorem preceded_relocate (hnamed : Named messages) :
    Preceded (relocateToolResultsAfterTheirCalls messages) ↔
      ∀ (j : ℕ) (r : ChatMessage) id, messages[j]? = some r → r.answers id = true →
        ∃ k, DeclaresIdx messages id k := by
  rw [relocate_eq, preceded_blocks (blocks_blocksOf hnamed)]
  constructor
  · intro h j r id hj hans
    by_contra hnone
    have howner : owner messages (r, j) = none :=
      (owner_none hans).mpr (ownerFor_none.mpr fun k _ hk => hnone ⟨k, hk⟩)
    obtain ⟨hres, rfl, hid⟩ := answers_iff.mp hans
    exact hid (h (r, ownedBy messages j) (mem_blocksOf.mpr ⟨j, hj, howner, rfl⟩) hres)
  · intro h b hb hres
    by_contra hid
    obtain ⟨j, hj, howner, -⟩ := mem_blocksOf.mp hb
    have hans : b.1.answers b.1.toolCallId = true := answers_iff.mpr ⟨hres, rfl, hid⟩
    obtain ⟨k, hk⟩ := h j b.1 _ hj hans
    have hnone := ownerFor_none.mp ((owner_none hans).mp howner)
    by_cases hkj : k = j
    · subst hkj
      exact not_declaresIdx_result hj hres hk
    · exact hnone k hkj hk

end HistoryRepair
