import RefactEngine.HistoryPairing

/-! # The passes in terms of the original positions

The messages that reach relocation are labelled with their original positions, which keep their
order; so a condition on the neighbours of a message there is one on the original history.
-/
namespace HistoryRepair

open List

variable {parse : ParseObject} {messages replaced : List ChatMessage} {id : String}

/-- A broken message becomes an instruction without calls, any other stays as it is. -/
inductive Replaced (parse : ParseObject) (m : ChatMessage) : ChatMessage → Prop where
  | broken (m' : ChatMessage) : isBroken parse m = true → m'.role = .cdInstruction →
      m'.calls = [] → Replaced parse m m'
  | sound : isBroken parse m = false → Replaced parse m m

theorem replaceBroken_replaced (newMaxNewTokens : ℕ) (isLast : Bool)
    (sampling : SamplingParameters) (m : ChatMessage) :
    Replaced parse m (replaceBroken parse newMaxNewTokens isLast sampling m).1 := by
  unfold replaceBroken
  split
  · rename_i hbroken
    exact .broken _ hbroken rfl rfl
  · rename_i hsound
    exact .sound (by simpa using hsound)

theorem replaceBrokenFrom_forall₂ (newMaxNewTokens last i : ℕ) (sampling : SamplingParameters)
    (messages : List ChatMessage) : List.Forall₂ (Replaced parse) messages
      (replaceBrokenFrom parse newMaxNewTokens last i sampling messages).1 := by
  induction messages generalizing i sampling with
  | nil => exact .nil
  | cons m rest ih => exact .cons (replaceBroken_replaced _ _ _ m) (ih _ _)

variable {k : ℕ}

theorem forall₂_right {α β : Type*} {R : α → β → Prop} {l : List α} {l' : List β}
    (h : List.Forall₂ R l l') {b : β} (hb : l'[k]? = some b) : ∃ a, l[k]? = some a ∧ R a b := by
  induction h generalizing k with
  | nil => simp at hb
  | cons hab hrest ih =>
    cases k with
    | zero =>
      cases hb
      exact ⟨_, rfl, hab⟩
    | succ k => exact ih hb

variable {m : ChatMessage}

theorem getElem?_replaced (h : List.Forall₂ (Replaced parse) messages replaced)
    (hm : m.isResult = true ∨ m.calls ≠ []) :
    replaced[k]? = some m ↔ messages[k]? = some m ∧ isBroken parse m = false := by
  constructor
  · intro hk
    obtain ⟨a, ha, hreplaced⟩ := forall₂_right h hk
    cases hreplaced with
    | broken _ _ hrole hcalls =>
      rcases hm with hres | hne
      · simp [ChatMessage.isResult, hrole] at hres
      · exact absurd hcalls hne
    | sound hsound => exact ⟨ha, hsound⟩
  · rintro ⟨hk, hsound⟩
    obtain ⟨b, hb, hreplaced⟩ := forall₂_right h.flip hk
    cases hreplaced with
    | broken _ hbroken =>
      rw [hsound] at hbroken
      cases hbroken
    | sound => exact hb

theorem isAnswered_replaced (h : List.Forall₂ (Replaced parse) messages replaced) :
    isAnswered replaced id = true ↔ ∃ r ∈ messages, isBroken parse r = false ∧
      r.answers id = true := by
  simp only [isAnswered, any_eq_true, mem_iff_getElem?]
  constructor
  · rintro ⟨r, ⟨k, hk⟩, hans⟩
    obtain ⟨hk', hsound⟩ := (getElem?_replaced h (.inl (answers_iff.mp hans).1)).mp hk
    exact ⟨r, ⟨k, hk'⟩, hsound, hans⟩
  · rintro ⟨r, ⟨k, hk⟩, hsound, hans⟩
    exact ⟨r, ⟨k, (getElem?_replaced h (.inl (answers_iff.mp hans).1)).mpr ⟨hk, hsound⟩⟩,
      hans⟩

def keepsCalls (messages : List ChatMessage) (m : ChatMessage) : Bool :=
  m.calls.all fun call => isAnswered messages call.id

def isAsked (messages : List ChatMessage) (m : ChatMessage) : Bool :=
  !(m.isResult && m.toolCallId ≠ "" && !isCalled messages m.toolCallId)

def keepLastAt : List (ChatMessage × ℕ) → List (ChatMessage × ℕ)
  | [] => []
  | x :: rest =>
    if rest.any (fun later => x.1.isRepeatedBy later.1) then keepLastAt rest
    else x :: keepLastAt rest

theorem keepLastAt_map (l : List (ChatMessage × ℕ)) :
    (keepLastAt l).map Prod.fst = keepLastReplies (l.map Prod.fst) := by
  induction l with
  | nil => rfl
  | cons x l ih =>
    have hany : (l.map Prod.fst).any x.1.isRepeatedBy =
        l.any fun later => x.1.isRepeatedBy later.1 := by
      simp [any_map, Function.comp_def]
    simp only [keepLastAt, map_cons, keepLastReplies, hany]
    split
    · exact ih
    · rw [map_cons, ih]

theorem keepLastAt_sublist (l : List (ChatMessage × ℕ)) : (keepLastAt l).Sublist l := by
  induction l with
  | nil => exact .refl _
  | cons x l ih =>
    rw [keepLastAt]
    split
    · exact ih.cons x
    · exact ih.cons_cons x

variable {l : List (ChatMessage × ℕ)} {x : ChatMessage × ℕ}

theorem mem_keepLastAt (hl : l.Pairwise fun x y => x.2 < y.2) :
    x ∈ keepLastAt l ↔ x ∈ l ∧ ∀ y ∈ l, x.2 < y.2 → x.1.isRepeatedBy y.1 = false := by
  induction l with
  | nil => simp [keepLastAt]
  | cons z l ih =>
    obtain ⟨hz, hl⟩ := pairwise_cons.mp hl
    have hrest := ih hl
    constructor
    · intro hx
      rw [keepLastAt] at hx
      have hcase : x ∈ keepLastAt l ∨
          (x = z ∧ l.any (fun later => z.1.isRepeatedBy later.1) = false) := by
        split at hx
        · exact .inl hx
        · rename_i hany
          rcases mem_cons.mp hx with rfl | hx
          · exact .inr ⟨rfl, by simpa using hany⟩
          · exact .inl hx
      rcases hcase with hx | ⟨rfl, hany⟩
      · obtain ⟨hxl, hlater⟩ := hrest.mp hx
        refine ⟨mem_cons_of_mem _ hxl, fun y hy hless => ?_⟩
        rcases mem_cons.mp hy with rfl | hy
        · have hgreater := hz x hxl
          omega
        · exact hlater y hy hless
      · refine ⟨mem_cons_self, fun y hy hless => ?_⟩
        rcases mem_cons.mp hy with rfl | hy
        · omega
        · simpa using any_eq_false.mp hany y hy
    · rintro ⟨hx, hlater⟩
      rw [keepLastAt]
      rcases mem_cons.mp hx with rfl | hxl
      · rw [if_neg]
        · exact mem_cons_self
        · rw [Bool.not_eq_true, any_eq_false]
          intro y hy
          rw [hlater y (mem_cons_of_mem _ hy) (hz y hy)]
          exact Bool.false_ne_true
      · have hkept := hrest.mpr ⟨hxl, fun y hy => hlater y (mem_cons_of_mem _ hy)⟩
        split
        · exact hkept
        · exact mem_cons_of_mem _ hkept

def survivors (replaced : List ChatMessage) : List (ChatMessage × ℕ) :=
  keepLastAt ((replaced.zipIdx.filter fun x => keepsCalls replaced x.1).filter fun x =>
    isAsked (dropUnanswered replaced) x.1)

theorem zipIdx_pairwise (l : List ChatMessage) : l.zipIdx.Pairwise fun x y => x.2 < y.2 := by
  have hrange : (l.zipIdx.map Prod.snd).Pairwise (· < ·) := by
    rw [zipIdx_map_snd]
    exact pairwise_lt_range'
  exact pairwise_map.mp hrange

theorem survivors_pairwise (replaced : List ChatMessage) :
    (survivors replaced).Pairwise fun x y => x.2 < y.2 :=
  ((zipIdx_pairwise replaced).filter _ |>.filter _).sublist (keepLastAt_sublist _)

theorem survivors_map (replaced : List ChatMessage) :
    (survivors replaced).map Prod.fst = removeInvalidToolCallsAndToolCallsResults replaced := by
  have hfilt : ∀ (p : ChatMessage → Bool) (l : List (ChatMessage × ℕ)),
      (l.filter fun x => p x.1).map Prod.fst = (l.map Prod.fst).filter p := by
    intro p l
    rw [filter_map]
    rfl
  rw [survivors, keepLastAt_map, hfilt, hfilt, zipIdx_map_fst]
  rfl

theorem mem_survivors :
    (m, k) ∈ survivors replaced ↔ replaced[k]? = some m ∧ keepsCalls replaced m = true ∧
      isAsked (dropUnanswered replaced) m = true ∧
      ∀ k' m', k < k' → replaced[k']? = some m' → keepsCalls replaced m' = true →
        isAsked (dropUnanswered replaced) m' = true → m.isRepeatedBy m' = false := by
  have hpairwise := ((zipIdx_pairwise replaced).filter fun x => keepsCalls replaced x.1).filter
    fun x => isAsked (dropUnanswered replaced) x.1
  rw [survivors, mem_keepLastAt hpairwise]
  simp only [mem_filter, List.mem_zipIdx_iff_getElem?, Prod.forall, and_imp]
  constructor
  · rintro ⟨⟨⟨hk, hkeeps⟩, hasked⟩, hlater⟩
    exact ⟨hk, hkeeps, hasked, fun k' m' hless hk' hkeeps' hasked' =>
      hlater m' k' hk' hkeeps' hasked' hless⟩
  · rintro ⟨hk, hkeeps, hasked, hlater⟩
    exact ⟨⟨⟨hk, hkeeps⟩, hasked⟩, fun m' k' hk' hkeeps' hasked' hless =>
      hlater k' m' hless hk' hkeeps' hasked'⟩

theorem keepsCalls_iff (h : List.Forall₂ (Replaced parse) messages replaced) :
    keepsCalls replaced m = true ↔ ∀ call ∈ m.calls, ∃ r ∈ messages, isBroken parse r = false ∧
      r.answers call.id = true := by
  rw [keepsCalls, all_eq_true]
  exact forall₂_congr fun call _ => isAnswered_replaced h

theorem isCalled_iff (h : List.Forall₂ (Replaced parse) messages replaced) :
    isCalled (dropUnanswered replaced) id = true ↔ CalledBy parse messages id := by
  simp only [isCalled, dropUnanswered, any_eq_true, mem_filter, decide_eq_true_eq,
    CalledBy]
  constructor
  · rintro ⟨m, ⟨hmem, hkeeps⟩, call, hcall, hid⟩
    obtain ⟨k, hk⟩ := mem_iff_getElem?.mp hmem
    obtain ⟨hk', hsound⟩ := (getElem?_replaced h (.inr (ne_nil_of_mem hcall))).mp hk
    exact ⟨m, mem_of_getElem? hk', ⟨hsound, (keepsCalls_iff h).mp hkeeps⟩, call, hcall, hid⟩
  · rintro ⟨m, hmem, ⟨hsound, hkeeps⟩, call, hcall, hid⟩
    obtain ⟨k, hk⟩ := mem_iff_getElem?.mp hmem
    have hk' := (getElem?_replaced h (.inr (ne_nil_of_mem hcall))).mpr ⟨hk, hsound⟩
    exact ⟨m, ⟨mem_of_getElem? hk', (keepsCalls_iff h).mpr hkeeps⟩, call, hcall, hid⟩

theorem declares_survivors (h : List.Forall₂ (Replaced parse) messages replaced) {i : ℕ} :
    (∃ a, (a, i) ∈ survivors replaced ∧ a.declaresCall id = true) ↔
      DeclaresAt parse messages i id := by
  constructor
  · rintro ⟨a, ha, hdecl⟩
    obtain ⟨-, call, hcall, -⟩ := declaresCall_iff.mp hdecl
    obtain ⟨hk, hkeeps, -⟩ := mem_survivors.mp ha
    obtain ⟨hk', hsound⟩ := (getElem?_replaced h (.inr (ne_nil_of_mem hcall))).mp hk
    exact ⟨a, hk', ⟨hsound, (keepsCalls_iff h).mp hkeeps⟩, hdecl⟩
  · rintro ⟨a, hk, ⟨hsound, hkeeps⟩, hdecl⟩
    obtain ⟨hrole, call, hcall, -⟩ := declaresCall_iff.mp hdecl
    refine ⟨a, mem_survivors.mpr ⟨?_, (keepsCalls_iff h).mpr hkeeps, ?_, ?_⟩, hdecl⟩
    · exact (getElem?_replaced h (.inr (ne_nil_of_mem hcall))).mpr ⟨hk, hsound⟩
    · simp [isAsked, ChatMessage.isResult, hrole]
    · simp [ChatMessage.isRepeatedBy, ChatMessage.isReply, hrole]

theorem isRepeatedBy_iff {r later : ChatMessage} (hr : r.answers id = true) :
    r.isRepeatedBy later = false ↔
      (r.isReply = true → later.isReply = true → later.toolCallId ≠ id) := by
  obtain ⟨-, rfl, hid⟩ := answers_iff.mp hr
  simp [ChatMessage.isRepeatedBy, hid]

theorem isReply_isResult (h : m.isReply = true) : m.isResult = true := by
  simp only [ChatMessage.isReply, ChatMessage.isResult, Bool.or_eq_true] at h ⊢
  exact .inl h

theorem remains_survivors (h : List.Forall₂ (Replaced parse) messages replaced) {j : ℕ} :
    (∃ r, (r, j) ∈ survivors replaced ∧ r.answers id = true) ↔
      RemainsAt parse messages j id ∧ CalledBy parse messages id := by
  have hasked : ∀ {r : ChatMessage}, r.isResult = true → r.toolCallId = id → id ≠ "" →
      (isAsked (dropUnanswered replaced) r = true ↔ CalledBy parse messages id) := by
    intro r hres hrid hid
    rw [← isCalled_iff h]
    simp [isAsked, hres, hrid, hid]
  constructor
  · rintro ⟨r, hr, hans⟩
    obtain ⟨hres, hrid, hid⟩ := answers_iff.mp hans
    obtain ⟨hk, hkeeps, hrasked, hlater⟩ := mem_survivors.mp hr
    obtain ⟨hk', hsound⟩ := (getElem?_replaced h (.inl hres)).mp hk
    have hcalled := (hasked hres hrid hid).mp hrasked
    refine ⟨⟨r, hk', ⟨hsound, (keepsCalls_iff h).mp hkeeps⟩, hans, ?_⟩, hcalled⟩
    intro hreply k later hless hlk hlkeeps hlreply heq
    have hlresult := isReply_isResult hlreply
    refine (isRepeatedBy_iff hans).mp (hlater k later hless ?_ ?_ ?_) hreply hlreply heq
    · exact (getElem?_replaced h (.inl hlresult)).mpr ⟨hlk, hlkeeps.1⟩
    · exact (keepsCalls_iff h).mpr hlkeeps.2
    · exact (hasked hlresult heq hid).mpr hcalled
  · rintro ⟨⟨r, hk, ⟨hsound, hkeeps⟩, hans, hlater⟩, hcalled⟩
    obtain ⟨hres, hrid, hid⟩ := answers_iff.mp hans
    refine ⟨r, mem_survivors.mpr ⟨?_, (keepsCalls_iff h).mpr hkeeps, ?_, ?_⟩, hans⟩
    · exact (getElem?_replaced h (.inl hres)).mpr ⟨hk, hsound⟩
    · exact (hasked hres hrid hid).mpr hcalled
    · intro k later hless hlk hlkeeps _
      rw [isRepeatedBy_iff hans]
      intro hreply hlreply
      obtain ⟨hlk', hlsound⟩ := (getElem?_replaced h (.inl (isReply_isResult hlreply))).mp hlk
      exact hlater hreply k later hless hlk' ⟨hlsound, (keepsCalls_iff h).mp hlkeeps⟩ hlreply

variable {y : ChatMessage × ℕ}

theorem position_lt_iff (hl : l.Pairwise fun x y => x.2 < y.2) {i j : ℕ}
    (hi : l[i]? = some x) (hj : l[j]? = some y) : x.2 < y.2 ↔ i < j := by
  have hmono : ∀ {i j : ℕ} {x y : ChatMessage × ℕ}, l[i]? = some x → l[j]? = some y → i < j →
      x.2 < y.2 := by
    intro i j x y hi hj hij
    obtain ⟨hi', rfl⟩ := List.getElem?_eq_some_iff.mp hi
    obtain ⟨hj', rfl⟩ := List.getElem?_eq_some_iff.mp hj
    exact pairwise_iff_getElem.mp hl i j hi' hj' hij
  refine ⟨fun hless => ?_, hmono hi hj⟩
  rcases Nat.lt_trichotomy i j with hij | rfl | hji
  · exact hij
  · cases hi.symm.trans hj
    omega
  · have hback := hmono hj hi hji
    omega

theorem declaresIdx_iff (hl : l.Pairwise fun x y => x.2 < y.2) {D : ℕ → Prop}
    (hD : ∀ i, D i ↔ ∃ a, (a, i) ∈ l ∧ a.declaresCall id = true) {z : ChatMessage × ℕ}
    (hz : l[k]? = some z) : DeclaresIdx (l.map Prod.fst) id k ↔ D z.2 := by
  rw [hD]
  constructor
  · rintro ⟨a, ha, hcall⟩
    rw [List.getElem?_map, hz] at ha
    cases ha
    exact ⟨z.1, mem_of_getElem? hz, hcall⟩
  · rintro ⟨a, ha, hcall⟩
    obtain ⟨k', hk'⟩ := mem_iff_getElem?.mp ha
    have hsame : k' = k := by
      have hnot₁ := mt (position_lt_iff hl hk' hz).mpr (lt_irrefl z.2)
      have hnot₂ := mt (position_lt_iff hl hz hk').mpr (lt_irrefl z.2)
      omega
    subst hsame
    refine ⟨a, ?_, hcall⟩
    rw [List.getElem?_map, hk']
    rfl

theorem near_iff (hl : l.Pairwise fun x y => x.2 < y.2) {D : ℕ → Prop}
    (hD : ∀ i, D i ↔ ∃ a, (a, i) ∈ l ∧ a.declaresCall id = true) {i j : ℕ}
    (hi : l[i]? = some x) (hj : l[j]? = some y) :
    ((i < j ∧ ∀ k, i < k → k < j → ¬ DeclaresIdx (l.map Prod.fst) id k) ∨
        (j < i ∧ ∀ k, k < i → ¬ DeclaresIdx (l.map Prod.fst) id k)) ↔
      ((x.2 < y.2 ∧ ∀ k, x.2 < k → k < y.2 → ¬ D k) ∨ (y.2 < x.2 ∧ ∀ k, k < x.2 → ¬ D k)) := by
  have hindex : ∀ {k : ℕ}, DeclaresIdx (l.map Prod.fst) id k → ∃ z, l[k]? = some z := by
    rintro k ⟨a, ha, -⟩
    rw [List.getElem?_map, Option.map_eq_some_iff] at ha
    obtain ⟨z, hz, -⟩ := ha
    exact ⟨z, hz⟩
  have hposition : ∀ {k : ℕ}, D k →
      ∃ (n : ℕ) (z : ChatMessage × ℕ), l[n]? = some z ∧ z.2 = k := by
    intro k hk
    obtain ⟨a, ha, -⟩ := (hD k).mp hk
    obtain ⟨n, hn⟩ := mem_iff_getElem?.mp ha
    exact ⟨n, (a, k), hn, rfl⟩
  rw [position_lt_iff hl hi hj, position_lt_iff hl hj hi]
  refine or_congr (and_congr_right fun _ => ?_) (and_congr_right fun _ => ?_)
  · constructor
    · intro h k hxk hky hk
      obtain ⟨n, z, hz, rfl⟩ := hposition hk
      exact h n ((position_lt_iff hl hi hz).mp hxk) ((position_lt_iff hl hz hj).mp hky)
        ((declaresIdx_iff hl hD hz).mpr hk)
    · intro h k hik hkj hk
      obtain ⟨z, hz⟩ := hindex hk
      exact h z.2 ((position_lt_iff hl hi hz).mpr hik) ((position_lt_iff hl hz hj).mpr hkj)
        ((declaresIdx_iff hl hD hz).mp hk)
  · constructor
    · intro h k hkx hk
      obtain ⟨n, z, hz, rfl⟩ := hposition hk
      exact h n ((position_lt_iff hl hz hi).mp hkx) ((declaresIdx_iff hl hD hz).mpr hk)
    · intro h k hki hk
      obtain ⟨z, hz⟩ := hindex hk
      exact h z.2 ((position_lt_iff hl hz hi).mpr hki) ((declaresIdx_iff hl hD hz).mp hk)

theorem removed_named (h : List.Forall₂ (Replaced parse) messages replaced) :
    Named (removeInvalidToolCallsAndToolCallsResults replaced) := by
  intro m hm call hcall
  rw [← survivors_map] at hm
  obtain ⟨⟨m', k⟩, hmem, rfl⟩ := mem_map.mp hm
  obtain ⟨r, -, -, hans⟩ :=
    (keepsCalls_iff h).mp (mem_survivors.mp hmem).2.1 call hcall
  exact (answers_iff.mp hans).2.2

theorem removed_getElem? {replaced : List ChatMessage} {i : ℕ} :
    (removeInvalidToolCallsAndToolCallsResults replaced)[i]? = some m ↔
      ∃ k, (survivors replaced)[i]? = some (m, k) := by
  rw [← survivors_map, List.getElem?_map, Option.map_eq_some_iff]
  constructor
  · rintro ⟨⟨m', k⟩, hk, rfl⟩
    exact ⟨k, hk⟩
  · rintro ⟨k, hk⟩
    exact ⟨(m, k), hk, rfl⟩

theorem repairable_iff (h : List.Forall₂ (Replaced parse) messages replaced) :
    (Paired (relocateToolResultsAfterTheirCalls
        (removeInvalidToolCallsAndToolCallsResults replaced)) ∧
      Preceded (relocateToolResultsAfterTheirCalls
        (removeInvalidToolCallsAndToolCallsResults replaced))) ↔ Repairable parse messages := by
  have hnamed := removed_named h
  have hl := survivors_pairwise replaced
  have hD : ∀ i id, DeclaresAt parse messages i id ↔
      ∃ a, (a, i) ∈ survivors replaced ∧ a.declaresCall id = true :=
    fun i id => (declares_survivors h).symm
  rw [paired_relocate hnamed, preceded_relocate hnamed]
  constructor
  · rintro ⟨hpaired, hpreceded⟩
    constructor
    · intro i id hdecl
      obtain ⟨a, ha, hcall⟩ := (hD i id).mp hdecl
      obtain ⟨n, hn⟩ := mem_iff_getElem?.mp ha
      obtain ⟨n', r, hn', hans, hnear⟩ := hpaired n id ⟨a, removed_getElem?.mpr ⟨i, hn⟩, hcall⟩
      obtain ⟨j, hj⟩ := removed_getElem?.mp hn'
      have hremains := (remains_survivors h).mp ⟨r, mem_of_getElem? hj, hans⟩
      rw [← survivors_map, near_iff hl (fun k => hD k id) hn hj] at hnear
      exact ⟨j, hremains.1, hnear⟩
    · intro j id hremains hcalled
      obtain ⟨r, hr, hans⟩ := (remains_survivors h).mpr ⟨hremains, hcalled⟩
      obtain ⟨n, hn⟩ := mem_iff_getElem?.mp hr
      obtain ⟨n', a, ha, hcall⟩ := hpreceded n r id (removed_getElem?.mpr ⟨j, hn⟩) hans
      obtain ⟨i, hi⟩ := removed_getElem?.mp ha
      exact ⟨i, (hD i id).mpr ⟨a, mem_of_getElem? hi, hcall⟩⟩
  · intro hrepairable
    constructor
    · rintro n id ⟨a, ha, hcall⟩
      obtain ⟨i, hi⟩ := removed_getElem?.mp ha
      have hdecl := (hD i id).mpr ⟨a, mem_of_getElem? hi, hcall⟩
      obtain ⟨j, hremains, hnear⟩ := hrepairable.answered i id hdecl
      have hcalled : CalledBy parse messages id := by
        obtain ⟨a', ha', hkeeps, hcall'⟩ := hdecl
        exact ⟨a', mem_of_getElem? ha', hkeeps, (declaresCall_iff.mp hcall').2⟩
      obtain ⟨r, hr, hans⟩ := (remains_survivors h).mpr ⟨hremains, hcalled⟩
      obtain ⟨n', hn'⟩ := mem_iff_getElem?.mp hr
      refine ⟨n', r, removed_getElem?.mpr ⟨j, hn'⟩, hans, ?_⟩
      rw [← survivors_map, near_iff hl (fun k => hD k id) hi hn']
      exact hnear
    · intro n r id hn hans
      obtain ⟨j, hj⟩ := removed_getElem?.mp hn
      obtain ⟨hremains, hcalled⟩ :=
        (remains_survivors h).mp ⟨r, mem_of_getElem? hj, hans⟩
      obtain ⟨i, hi⟩ := hrepairable.declared j id hremains hcalled
      obtain ⟨a, ha, hcall⟩ := (hD i id).mp hi
      obtain ⟨n', hn'⟩ := mem_iff_getElem?.mp ha
      exact ⟨n', a, removed_getElem?.mpr ⟨i, hn'⟩, hcall⟩

theorem mem_relocate (hm : m ∈ relocateToolResultsAfterTheirCalls messages) : m ∈ messages := by
  rw [relocate_eq] at hm
  obtain ⟨b, hb, hmb⟩ := mem_flatMap.mp hm
  obtain ⟨i, hi, -, howned⟩ := mem_blocksOf.mp hb
  rcases mem_cons.mp hmb with rfl | hr
  · exact mem_of_getElem? hi
  · obtain ⟨j, hj, -⟩ := mem_ownedBy.mp (howned ▸ hr)
    exact mem_of_getElem? hj

theorem mem_removed (hm : m ∈ removeInvalidToolCallsAndToolCallsResults replaced) :
    m ∈ replaced := by
  rw [← survivors_map] at hm
  obtain ⟨⟨m', k⟩, hmem, rfl⟩ := mem_map.mp hm
  exact mem_of_getElem? (mem_survivors.mp hmem).1

variable {call : ChatToolCall}

theorem isBroken_call (h : isBroken parse m = false) (hcall : call ∈ m.calls) :
    parse call.arguments = .ok () := by
  simp only [isBroken, incorrectReasons, ne_eq, decide_not, Bool.not_eq_false', decide_eq_true_eq,
    filterMap_eq_nil_iff] at h
  have hreason := h call hcall
  unfold ChatToolCall.incorrectReason at hreason
  split at hreason
  · assumption
  · cases hreason

theorem replaced_parseArgs (hjson : JsonText parse)
    (h : List.Forall₂ (Replaced parse) messages replaced) (hm : m ∈ replaced)
    (hcall : call ∈ m.calls) : call.parseArgs parse = .ok () := by
  obtain ⟨k, hk⟩ := mem_iff_getElem?.mp hm
  obtain ⟨-, hsound⟩ := (getElem?_replaced h (.inr (ne_nil_of_mem hcall))).mp hk
  unfold ChatToolCall.parseArgs
  split
  · exact hjson.trimmed _ (isBroken_call hsound hcall)
  · exact hjson.empty

theorem anchor_not_result (h : m.role.isAnchor = true) :
    m.isResult = false ∧ m.isReply = false := by
  simp only [Role.isAnchor, Bool.or_eq_true, decide_eq_true_eq] at h
  rcases h with (((h | h) | h) | h) | h <;> simp [ChatMessage.isResult, ChatMessage.isReply, h]

variable {rest : List ChatMessage}

variable {first : ChatMessage}

theorem head_relocate (hanchor : first.role.isAnchor = true) :
    (relocateToolResultsAfterTheirCalls (first :: rest)).head? = some first := by
  have howner : owner (first :: rest) (first, 0) = none := by
    simp [owner, (anchor_not_result hanchor).1]
  rw [relocate_eq, blocksOf, zipIdx_cons, filter_cons_of_pos (by simp [howner])]
  rfl

theorem head_removed (hanchor : first.role.isAnchor = true) (hcalls : first.calls = []) :
    ∃ rest', removeInvalidToolCallsAndToolCallsResults (first :: rest) = first :: rest' := by
  obtain ⟨hres, hreply⟩ := anchor_not_result hanchor
  rw [removeInvalidToolCallsAndToolCallsResults, dropUnanswered,
    filter_cons_of_pos (by simp [hcalls]), dropUnasked,
    filter_cons_of_pos (by simp [hres]), keepLastReplies, if_neg]
  · exact ⟨_, rfl⟩
  · simp [ChatMessage.isRepeatedBy, hreply]

/-- Whether the repair succeeds is decided by the places of calls and results alone. -/
theorem repairs_iff_repairable (parse : ParseObject) (hjson : JsonText parse)
    (messages : List ChatMessage) (sampling : SamplingParameters) (first : ChatMessage)
    (hfirst : messages.head? = some first) (hanchor : first.role.isAnchor = true)
    (hcalls : first.calls = []) :
    Repairs parse messages sampling ↔ Repairable parse messages := by
  obtain ⟨rest, rfl⟩ : ∃ rest, messages = first :: rest := by
    cases messages with
    | nil => cases hfirst
    | cons m rest =>
      cases hfirst
      exact ⟨rest, rfl⟩
  have hreplaced : List.Forall₂ (Replaced parse) (first :: rest)
      (replaceBrokenToolCallMessages parse 16000 sampling (first :: rest)).1 :=
    replaceBrokenFrom_forall₂ _ _ _ _ _
  have hrepairs : Repairs parse (first :: rest) sampling ↔ ∃ result,
      validateChatHistory parse (relocateToolResultsAfterTheirCalls
        (removeInvalidToolCallsAndToolCallsResults
          (replaceBrokenToolCallMessages parse 16000 sampling (first :: rest)).1)) = .ok result ∧
        Paired result ∧ Preceded result := Iff.rfl
  rw [hrepairs, ← repairable_iff hreplaced]
  generalize (replaceBrokenToolCallMessages parse 16000 sampling (first :: rest)).1 = replaced
    at hreplaced
  have hhead : ∃ rest', replaced = first :: rest' := by
    cases hreplaced with
    | cons hfirst' _ =>
      cases hfirst' with
      | broken _ hbroken => simp [isBroken, incorrectReasons, hcalls] at hbroken
      | sound => exact ⟨_, rfl⟩
  obtain ⟨rest', rfl⟩ := hhead
  apply validate_iff _ hanchor
  · intro m hm call hcall
    exact replaced_parseArgs hjson hreplaced (mem_removed (mem_relocate hm)) hcall
  · obtain ⟨rest'', hremoved⟩ := @head_removed rest' first hanchor hcalls
    rw [hremoved]
    exact head_relocate hanchor

def turn (role : Role) (text : String) : ChatMessage := ⟨role, .simpleText text, none, none, ""⟩

def askFor (id : String) : ChatMessage :=
  ⟨.assistant, .simpleText "calling", none, some [⟨id, "shell", "\x7b\x7d"⟩], ""⟩

def replyTo (id text : String) : ChatMessage := ⟨.tool, .simpleText text, none, none, id⟩

def parseEmptyObject : ParseObject := fun text =>
  if trim text = "\x7b\x7d" then .ok () else .error "expected value at line 1 column 1"

theorem parseEmptyObject_json : JsonText parseEmptyObject where
  empty := by decide
  trimmed text h := by
    unfold parseEmptyObject at h ⊢
    split at h
    · rename_i htrim
      rw [htrim, if_pos (by decide)]
    · cases h

def separated : List ChatMessage :=
  [turn .user "q", askFor "tc-1", turn .user "interleaved", replyTo "tc-1" "result"]

/-- The result of a separated call is moved next to it. -/
theorem separated_repairable : ∃ result,
    (fixAndLimitMessagesHistory parseEmptyObject separated ⟨4096⟩).1 = .ok result ∧
      Repairable parseEmptyObject separated := by
  have hfixed : (fixAndLimitMessagesHistory parseEmptyObject separated ⟨4096⟩).1 = .ok
      [turn .user "q", askFor "tc-1", replyTo "tc-1" "result", turn .user "interleaved"] := by
    rfl
  refine ⟨_, hfixed, (repairs_iff_repairable parseEmptyObject parseEmptyObject_json separated
    ⟨4096⟩ (turn .user "q") rfl rfl rfl).mp ⟨_, hfixed, ?_, ?_⟩⟩
  · exact paired_iff.mpr ((unrespondedCall_iff 0 _).mp (by decide))
  · intro front m back heq hresult hid
    rcases front with _ | ⟨a, _ | ⟨b, _ | ⟨c, _ | ⟨d, front⟩⟩⟩⟩
    · cases heq
      cases hresult
    · cases heq
      cases hresult
    · cases heq
      exact ⟨askFor "tc-1", by simp, by decide⟩
    · cases heq
      cases hresult
    · simp at heq

def reused : List ChatMessage :=
  [turn .user "q", askFor "x", replyTo "x" "one", turn .user "again", askFor "x",
    replyTo "x" "two"]

/-- Only the last reply of a reused identifier is kept, so the first call loses its own. -/
theorem reused_identifier_rejected :
    ¬ Repairs parseEmptyObject reused ⟨4096⟩ ∧
      (fixAndLimitMessagesHistory parseEmptyObject reused ⟨4096⟩).1 = .error
        ("Assistant message at index 1 has a tool call id 'x' that is unresponded before the " ++
          "next conversation turn (no contiguous tool message with that id)") := by
  have herror : (fixAndLimitMessagesHistory parseEmptyObject reused ⟨4096⟩).1 = .error
      ("Assistant message at index 1 has a tool call id 'x' that is unresponded before the " ++
        "next conversation turn (no contiguous tool message with that id)") := by
    decide +kernel
  refine ⟨?_, herror⟩
  rintro ⟨result, hok, -⟩
  rw [herror] at hok
  cases hok

end HistoryRepair
