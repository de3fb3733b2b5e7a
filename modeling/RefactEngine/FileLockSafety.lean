import RefactEngine.FileLocks
import RefactEngine.TextCodes

/-! # Conflicting transactions exclude each other and nobody waits in a circle

Two transactions have a key in common, one of them exclusively, exactly if they touch the same path,
the same file, or one works on a tree the other writes into. What is granted, what blocks and what
waits then follows from the ordered acquisition of the keys.
-/
namespace FileLockSafety

open ApplyPatch PatchPlan LockOrder FileLocks List

theorem display_injective {p q : List Text} (hp : ∀ name ∈ p, name ≠ [] ∧ '/' ∉ name)
    (hq : ∀ name ∈ q, name ≠ [] ∧ '/' ∉ name) (h : display p = display q) : p = q :=
  intercalate_injective hp hq (tail_eq_of_cons_eq h)

theorem aliasKey_injective {i j : FileId} (h : aliasKey i = aliasKey j) : i = j := by
  have hdecimal : (':' : Char).isDigit = false := by decide
  unfold aliasKey at h
  rw [append_assoc, append_assoc] at h
  have hsplit := append_cancel_left h
  obtain ⟨hdev, hino⟩ := @delimits_decimal ':' hdecimal i.dev j.dev (Nat.toDigits 10 i.ino)
    (Nat.toDigits 10 j.ino) trivial trivial (by simpa using hsplit)
  cases i
  cases j
  rw [FileId.mk.injEq]
  exact ⟨hdev, toDigits_ten_injective hino⟩

variable (p : List Text)

theorem pathKey_head : (pathKey p).head? = some 'p' := rfl

theorem directoryKey_head : (directoryKey p).head? = some 'd' := rfl

variable (id : FileId)

theorem aliasKey_head : (aliasKey id).head? = some 'i' := rfl

theorem pathKey_ne_directoryKey (q : List Text) : pathKey p ≠ directoryKey q := by
  intro h
  have hh := congrArg List.head? h
  rw [pathKey_head, directoryKey_head] at hh
  exact absurd hh (by decide)

theorem pathKey_ne_aliasKey : pathKey p ≠ aliasKey id := by
  intro h
  have hh := congrArg List.head? h
  rw [pathKey_head, aliasKey_head] at hh
  exact absurd hh (by decide)

theorem directoryKey_ne_aliasKey : directoryKey p ≠ aliasKey id := by
  intro h
  have hh := congrArg List.head? h
  rw [directoryKey_head, aliasKey_head] at hh
  exact absurd hh (by decide)

theorem canonical_wellFormed (target : Target) :
    ∀ name ∈ target.canonical, name ≠ [] ∧ '/' ∉ name := by
  intro name hname
  obtain ⟨units, hunits, rfl⟩ := mem_map.mp hname
  obtain ⟨hne, hslash⟩ := target.resolved.wellFormed units hunits
  refine ⟨by simpa [toStringLossy] using hne, ?_⟩
  intro hmem
  obtain ⟨unit, hunit, hlossy⟩ := mem_map.mp hmem
  cases unit with
  | char c => exact hslash (hlossy ▸ hunit)
  | invalid bytes => exact absurd hlossy (show ('\uFFFD' : Char) ≠ '/' by decide)

variable {x y : Target}

theorem pathKey_injective (h : pathKey x.canonical = pathKey y.canonical) :
    x.canonical = y.canonical :=
  display_injective (canonical_wellFormed x) (canonical_wellFormed y) (append_cancel_left h)

theorem mem_properAncestors {p components : List Text} :
    p ∈ properAncestors components ↔ p <+: components ∧ p ≠ components := by
  simp only [properAncestors, mem_map, mem_reverse, mem_range]
  constructor
  · rintro ⟨n, hn, rfl⟩
    refine ⟨ take_prefix n components, fun he => ?_⟩
    have hlen := congrArg List.length he
    rw [length_take] at hlen
    omega
  · rintro ⟨hp, hne⟩
    refine ⟨p.length, ?_, (prefix_iff_eq_take.mp hp).symm⟩
    exact lt_of_le_of_ne hp.length_le fun he => hne (hp.eq_of_length he)

theorem directoryKey_injective {p q : List Text} (hp : p <+: x.canonical) (hq : q <+: y.canonical)
    (h : directoryKey p = directoryKey q) : p = q :=
  display_injective (fun name hn => canonical_wellFormed x name (hp.subset hn))
    (fun name hn => canonical_wellFormed y name (hq.subset hn)) (append_cancel_left h)

def Owns (x : Target) (key : Key) : Prop :=
  key = pathKey x.canonical ∨ (∃ id, x.fileAlias = some id ∧ key = aliasKey id) ∨
    x.intent = .tree ∧ key = directoryKey x.canonical

def LiesBelow (x : Target) (key : Key) : Prop :=
  ∃ p ∈ properAncestors x.canonical, key = directoryKey p

structure Extends (keys' keys : KeyMap) (owned shared : Key → Prop) : Prop where
  exclusive : ∀ k, keys'.lookup k = some .exclusive ↔ keys.lookup k = some .exclusive ∨ owned k
  present : ∀ k, (keys'.lookup k).isSome ↔ (keys.lookup k).isSome ∨ owned k ∨ shared k

variable (keys : KeyMap)

theorem extends_insert (key : Key) :
    Extends (keys.insert key .exclusive) keys (fun k => k = key) fun _ => False where
  exclusive := by
    intro k
    rw [AList.lookup_insert_if]
    by_cases hk : k = key
    · simp [hk]
    · simp [hk]
  present := by
    intro k
    rw [AList.lookup_insert_if]
    by_cases hk : k = key
    · simp [hk]
    · simp [hk]

theorem extends_orInsert (parents : List (List Text)) :
    Extends (parents.foldl (fun keys p => FileLocks.orInsert keys (directoryKey p) .shared) keys) keys
      (fun _ => False) fun k => ∃ p ∈ parents, k = directoryKey p := by
  induction parents generalizing keys with
  | nil => exact ⟨by simp, by simp⟩
  | cons p parents ih =>
    obtain ⟨hex, hpr⟩ := ih (FileLocks.orInsert keys (directoryKey p) .shared)
    rw [foldl_cons]
    constructor
    · intro k
      rw [hex, FileLocks.orInsert]
      split
      · rfl
      next hnone =>
        rw [AList.lookup_insert_if]
        by_cases hk : k = directoryKey p
        · subst hk; simp [Option.not_isSome_iff_eq_none.mp hnone]
        · simp [hk]
    · intro k
      rw [hpr, FileLocks.orInsert]
      split
      next hsome =>
        by_cases hk : k = directoryKey p
        · subst hk; simp [hsome]
        · simp [hk]
      next hnone =>
        rw [AList.lookup_insert_if]
        by_cases hk : k = directoryKey p
        · simp [hk]
        · simp [hk]

variable {a b : KeyMap}

theorem Extends.trans {c : KeyMap} {o₁ s₁ o₂ s₂ : Key → Prop} (h₁ : Extends b a o₁ s₁)
    (h₂ : Extends c b o₂ s₂) :
    Extends c a (fun k => o₁ k ∨ o₂ k) fun k => s₁ k ∨ s₂ k where
  exclusive := by
    intro k
    rw [h₂.exclusive, h₁.exclusive, or_assoc]
  present := by
    intro k
    rw [h₂.present, h₁.present]
    tauto

theorem Extends.congr {o s o' s' : Key → Prop} (h : Extends b a o s)
    (ho : ∀ k, o k ↔ o' k) (hs : ∀ k, s k ↔ s' k) : Extends b a o' s' where
  exclusive := fun k => by rw [h.exclusive, ho]
  present := fun k => by rw [h.present, ho, hs]

theorem Extends.refl (a : KeyMap) : Extends a a (fun _ => False) fun _ => False where
  exclusive := fun k => by rw [or_false]
  present := fun k => by rw [or_false, or_false]

theorem extends_insertTarget (x : Target) :
    Extends (insertTarget keys x) keys (Owns x) (LiesBelow x) := by
  have hpath := extends_insert keys (pathKey x.canonical)
  have hparents := hpath.trans (extends_orInsert _ (properAncestors x.canonical))
  rw [insertTarget]
  set below := (properAncestors x.canonical).foldl
    (fun keys parent => FileLocks.orInsert keys (directoryKey parent) .shared)
    (keys.insert (pathKey x.canonical) .exclusive)
  have htree : Extends (if x.intent = .tree then below.insert (directoryKey x.canonical) .exclusive
      else below) below (fun k => x.intent = .tree ∧ k = directoryKey x.canonical)
      fun _ => False := by
    by_cases ht : x.intent = .tree
    · rw [if_pos ht]
      exact (extends_insert below _).congr (by simp [ht]) fun _ => Iff.rfl
    · rw [if_neg ht]
      exact (Extends.refl below).congr (by simp [ht]) fun _ => Iff.rfl
  have hall := hparents.trans htree
  cases hid : x.fileAlias with
  | none =>
    refine hall.congr (fun k => ?_) fun k => ?_
    · simp only [Owns, hid, reduceCtorEq, false_and, exists_false]; tauto
    · simp only [LiesBelow, false_or, or_false]
  | some id =>
    refine (hall.trans (extends_insert _ (aliasKey id))).congr (fun k => ?_) fun k => ?_
    · simp only [Owns, hid, Option.some.injEq, exists_eq_left']; tauto
    · simp only [LiesBelow, false_or, or_false]

theorem extends_lockKeys (targets : List Target) :
    Extends (lockKeys targets) ∅ (fun k => ∃ x ∈ targets, Owns x k)
      fun k => ∃ x ∈ targets, LiesBelow x k := by
  have hfold : ∀ keys : KeyMap, Extends (targets.foldl insertTarget keys) keys
      (fun k => ∃ x ∈ targets, Owns x k) fun k => ∃ x ∈ targets, LiesBelow x k := by
    induction targets with
    | nil => exact fun keys => (Extends.refl keys).congr (by simp) (by simp)
    | cons x targets ih =>
      intro keys
      refine ((extends_insertTarget keys x).trans (ih _)).congr (fun k => ?_) fun k => ?_
      · simp
      · simp
  exact hfold ∅

variable {targets : List Target} {k : Key}

theorem lookup_exclusive :
    (lockKeys targets).lookup k = some .exclusive ↔ ∃ x ∈ targets, Owns x k := by
  rw [(extends_lockKeys targets).exclusive]
  simp

theorem lookup_present : (∃ m, (lockKeys targets).lookup k = some m) ↔
      ∃ x ∈ targets, Owns x k ∨ LiesBelow x k := by
  rw [← Option.isSome_iff_exists, (extends_lockKeys targets).present]
  simp only [AList.lookup_empty, Option.isSome_none, Bool.false_eq_true, false_or]
  constructor
  · rintro (⟨x, hx, ho⟩ | ⟨x, hx, hl⟩)
    · exact ⟨x, hx, Or.inl ho⟩
    · exact ⟨x, hx, Or.inr hl⟩
  · rintro ⟨x, hx, ho | hl⟩
    · exact Or.inl ⟨x, hx, ho⟩
    · exact Or.inr ⟨x, hx, hl⟩

theorem Owns.present (hx : x ∈ targets) (h : Owns x k) :
    (lockKeys targets).lookup k = some .exclusive :=
  lookup_exclusive.mpr ⟨x, hx, h⟩

theorem touches_of_key (hx : Owns x k) (hy : Owns y k ∨ LiesBelow y k) :
    Touches x y ∨ Touches y x := by
  rcases hx with rfl | ⟨id, hid, rfl⟩ | ⟨htree, rfl⟩
  · rcases hy with (h | ⟨j, -, h⟩ | ⟨-, h⟩) | ⟨p, -, h⟩
    · exact Or.inl (Or.inl (pathKey_injective h))
    · exact absurd h (pathKey_ne_aliasKey _ _)
    · exact absurd h (pathKey_ne_directoryKey _ _)
    · exact absurd h (pathKey_ne_directoryKey _ _)
  · rcases hy with (h | ⟨j, hj, h⟩ | ⟨-, h⟩) | ⟨p, -, h⟩
    · exact absurd h.symm (pathKey_ne_aliasKey _ _)
    · exact Or.inl (Or.inr (Or.inl ⟨id, hid, by rw [hj, aliasKey_injective h]⟩))
    · exact absurd h.symm (directoryKey_ne_aliasKey _ _)
    · exact absurd h.symm (directoryKey_ne_aliasKey _ _)
  · rcases hy with (h | ⟨j, -, h⟩ | ⟨-, h⟩) | ⟨p, hp, h⟩
    · exact absurd h.symm (pathKey_ne_directoryKey _ _)
    · exact absurd h (directoryKey_ne_aliasKey _ _)
    · have hsame := @directoryKey_injective x y _ _ prefix_rfl prefix_rfl h
      exact Or.inl (Or.inl hsame)
    · have hpre := (mem_properAncestors.mp hp).1
      have hsame := @directoryKey_injective x y _ _ prefix_rfl hpre h
      exact Or.inl (Or.inr (Or.inr ⟨htree, by rw [hsame]; exact hpre⟩))

theorem key_of_touches (h : Touches x y) : ∃ k, Owns x k ∧ (Owns y k ∨ LiesBelow y k) := by
  rcases h with hsame | ⟨id, hx, hy⟩ | ⟨htree, hpre⟩
  · exact ⟨pathKey x.canonical, Or.inl rfl, Or.inl (Or.inl (by rw [hsame]))⟩
  · exact ⟨aliasKey id, Or.inr (Or.inl ⟨id, hx, rfl⟩), Or.inl (Or.inr (Or.inl ⟨id, hy, rfl⟩))⟩
  · by_cases hsame : x.canonical = y.canonical
    · exact ⟨pathKey x.canonical, Or.inl rfl, Or.inl (Or.inl (by rw [hsame]))⟩
    · exact ⟨directoryKey x.canonical, Or.inr (Or.inr ⟨htree, rfl⟩),
        Or.inr ⟨x.canonical, mem_properAncestors.mpr ⟨hpre, hsame⟩, rfl⟩⟩

variable {xs ys : List Target}

theorem related_comm : Related xs ys ↔ Related ys xs := by
  constructor
  · rintro ⟨x, hx, y, hy, h⟩; exact ⟨y, hy, x, hx, h.symm⟩
  · rintro ⟨x, hx, y, hy, h⟩; exact ⟨y, hy, x, hx, h.symm⟩

def KeysConflict (xs ys : List Target) : Prop :=
  ∃ k m m', (lockKeys xs).lookup k = some m ∧ (lockKeys ys).lookup k = some m' ∧ m.Conflicts m'

theorem KeysConflict.symm (h : KeysConflict xs ys) : KeysConflict ys xs := by
  obtain ⟨k, m, m', hx, hy, hc⟩ := h
  exact ⟨k, m', m, hy, hx, hc.symm⟩

theorem related_of_exclusive {m : Mode} (hx : (lockKeys xs).lookup k = some .exclusive)
    (hy : (lockKeys ys).lookup k = some m) : Related xs ys := by
  obtain ⟨x, hxs, hox⟩ := lookup_exclusive.mp hx
  obtain ⟨y, hys, hoy⟩ := lookup_present.mp ⟨m, hy⟩
  exact ⟨x, hxs, y, hys, touches_of_key hox hoy⟩

theorem keysConflict_of_touches (hx : x ∈ xs) (hy : y ∈ ys) (h : Touches x y) :
    KeysConflict xs ys := by
  obtain ⟨k, hox, hoy⟩ := key_of_touches h
  obtain ⟨m, hm⟩ := lookup_present.mpr ⟨y, hy, hoy⟩
  exact ⟨k, .exclusive, m, hox.present hx, hm, Or.inl rfl⟩

theorem keysConflict_iff_related : KeysConflict xs ys ↔ Related xs ys := by
  constructor
  · rintro ⟨k, m, m', hx, hy, rfl | rfl⟩
    · exact related_of_exclusive hx hy
    · exact related_comm.mp (related_of_exclusive hy hx)
  · rintro ⟨x, hx, y, hy, h | h⟩
    · exact keysConflict_of_touches hx hy h
    · exact (keysConflict_of_touches hy hx h).symm

section Plans

variable {Proc : Type}

theorem mem_plan {proc : Proc} {targets : List Target} {l : Lock Proc} {m : Mode} :
    (l, m) ∈ plan proc targets ↔ (lockKeys targets).lookup l.key = some m ∧
      (l.proc = some proc ∨ l.proc = none) := by
  simp only [plan, mem_flatMap, mem_cons, not_mem_nil, or_false, Prod.mk.injEq]
  constructor
  · rintro ⟨⟨k, n⟩, hk, ⟨rfl, rfl⟩ | ⟨rfl, rfl⟩⟩
    · exact ⟨AList.mem_inOrder.mp hk, Or.inl rfl⟩
    · exact ⟨AList.mem_inOrder.mp hk, Or.inr rfl⟩
  · obtain ⟨k, p⟩ := l
    rintro ⟨hk, rfl | rfl⟩
    · exact ⟨(k, m), AList.mem_inOrder.mpr hk, Or.inl ⟨rfl, rfl⟩⟩
    · exact ⟨(k, m), AList.mem_inOrder.mpr hk, Or.inr ⟨rfl, rfl⟩⟩

theorem climbs_plan (proc : Proc) (targets : List Target) :
    Climbs Lock.rank (plan proc targets) := by
  rw [plan, Climbs, pairwise_flatMap]
  constructor
  · intro entry _
    simp [Lock.rank, Prod.Lex.toLex_lt_toLex]
  · refine (AList.ascending_inOrder _).imp fun {a b} hab x hx y hy => ?_
    have hkey : ∀ (e : Key × Mode) z, z ∈ [((⟨e.1, some proc⟩ : Lock Proc), e.2),
        (⟨e.1, none⟩, e.2)] → z.1.key = e.1 := by
      intro e z hz
      rcases mem_pair.mp hz with rfl | rfl <;> rfl
    rw [Lock.rank, Lock.rank, Prod.Lex.toLex_lt_toLex, hkey a x hx, hkey b y hy]
    exact Or.inl hab

theorem conflict_of_plans {p q : Proc} {xs ys : List Target} {l : Lock Proc} {m m' : Mode}
    (hx : (l, m) ∈ plan p xs) (hy : (l, m') ∈ plan q ys) (hc : m.Conflicts m') : Related xs ys :=
  keysConflict_iff_related.mp ⟨l.key, m, m', (mem_plan.mp hx).1, (mem_plan.mp hy).1, hc⟩

theorem plans_of_related {xs ys : List Target} (h : Related xs ys) (p q : Proc) :
    ∃ l m m', (l, m) ∈ plan p xs ∧ (l, m') ∈ plan q ys ∧ m.Conflicts m' := by
  obtain ⟨k, m, m', hx, hy, hc⟩ := keysConflict_iff_related.mpr h
  exact ⟨⟨k, none⟩, m, m', mem_plan.mpr ⟨hx, Or.inr rfl⟩, mem_plan.mpr ⟨hy, Or.inr rfl⟩, hc⟩

end Plans

section Runs

variable {Txn Proc : Type} [DecidableEq Txn] [DecidableEq Proc] {proc : Txn → Proc}
  {s s' : State Txn Proc}

/-- Every transaction works through the plan of its paths, and a granted one holds all of it. -/
structure Planned (proc : Txn → Proc) (s : State Txn Proc) : Prop where
  table : LockOrder.Reachable Lock.rank Lock.fair s.table
  plans : ∀ t, (s.table.task t).held ++ (s.table.task t).rest ⊆ plan (proc t) (s.targets t)
  granted : ∀ t, s.granted t = true → (s.table.task t).closing = false ∧
    (s.table.task t).held = plan (proc t) (s.targets t) ∧ (s.table.task t).rest = [] ∧
    s.targets t ≠ []

omit [DecidableEq Proc] in
theorem plan_ne_nil {targets : List Target} (h : targets ≠ []) (p : Proc) :
    plan p targets ≠ [] := by
  obtain ⟨x, hx⟩ := exists_mem_of_ne_nil targets h
  have howns : Owns x (pathKey x.canonical) := Or.inl rfl
  have hmem : ((⟨pathKey x.canonical, none⟩ : Lock Proc), Mode.exclusive) ∈ plan p targets :=
    mem_plan.mpr ⟨howns.present hx, Or.inr rfl⟩
  exact ne_nil_of_mem hmem

theorem Planned.setTask {table : Table Txn (Lock Proc)} {granted : Txn → Bool} (h : Planned proc s)
    (t : Txn) (htable : LockOrder.Reachable Lock.rank Lock.fair table)
    (hothers : ∀ t', t' ≠ t → table.task t' = s.table.task t')
    (hsub : (table.task t).held ++ (table.task t).rest ⊆
      (s.table.task t).held ++ (s.table.task t).rest)
    (hgranted : ∀ t', granted t' = true → t' ≠ t ∧ s.granted t' = true) :
    Planned proc { s with table, granted } where
  table := htable
  plans := by
    intro t'
    by_cases ht : t' = t
    · subst ht; exact fun x hx => h.plans t' (hsub hx)
    · simp only [hothers t' ht]; exact h.plans t'
  granted := by
    intro t' hg
    obtain ⟨hne, hold⟩ := hgranted t' hg
    simp only [hothers t' hne]
    exact h.granted t' hold

theorem planned_step (h : Planned proc s) (hs : Step proc s s') : Planned proc s' := by
  cases hs with
  | @start t targets hne hidle =>
    have hfresh : s.granted t ≠ true := by
      intro hg
      obtain ⟨-, hheld, -, htargets⟩ := h.granted t hg
      rw [hidle] at hheld
      exact plan_ne_nil htargets (proc t) hheld.symm
    refine ⟨h.table.step (.start hidle (climbs_plan _ _)), fun t' => ?_, fun t' hg => ?_⟩
    · by_cases ht : t' = t
      · subst ht; simp
      · simpa [ht] using h.plans t'
    · have ht : t' ≠ t := fun he => hfresh (he ▸ hg)
      simpa [ht] using h.granted t' hg
  | @request t l table hstep =>
    have htable := h.table.step hstep
    cases hstep with
    | request _ _ => exact ⟨htable, h.plans, h.granted⟩
  | @acquire t l table hstep =>
    have htable := h.table.step hstep
    cases hstep with
    | @acquire _ _ m rest hr _ _ =>
      apply h.setTask t htable
      · intro t' ht; simp [ht]
      · simp [hr]
      · intro t' hg
        refine ⟨fun he => ?_, hg⟩
        subst he
        rw [(h.granted t' hg).2.2.1] at hr
        cases hr
  | @grant t observed hopen hheld hrest hne hsame =>
    refine ⟨h.table, h.plans, fun t' hg => ?_⟩
    by_cases ht : t' = t
    · subst ht; exact ⟨hopen, hheld, hrest, hne⟩
    · exact h.granted t' (by simpa [ht] using hg)
  | @close t table hstep =>
    have htable := h.table.step hstep
    cases hstep with
    | close =>
      apply h.setTask t htable
      · intro t' ht; simp [ht]
      · simp
      · intro t' hg
        by_cases ht : t' = t
        · subst ht; simp at hg
        · exact ⟨ht, by simpa [ht] using hg⟩
  | @release t l table hstep =>
    have htable := h.table.step hstep
    cases hstep with
    | release hc =>
      apply h.setTask t htable
      · intro t' ht; simp [ht]
      · intro x hx
        simp only [task_setTask_self, mem_append] at hx ⊢
        exact hx.imp_left mem_of_mem_filter
      · intro t' hg
        refine ⟨fun he => ?_, hg⟩
        subst he
        rw [(h.granted t' hg).1] at hc
        cases hc
  | @finish t table hstep =>
    have htable := h.table.step hstep
    cases hstep with
    | finish hc _ _ =>
      apply h.setTask t htable
      · intro t' ht; simp [ht]
      · intro x hx
        simp [Task.idle] at hx
      · intro t' hg
        refine ⟨fun he => ?_, hg⟩
        subst he
        rw [(h.granted t' hg).1] at hc
        cases hc

theorem planned_reachable (h : Reachable proc s) : Planned proc s := by
  induction h with
  | initial =>
    exact ⟨.initial, fun _ x hx => absurd hx not_mem_nil, fun _ hg => by cases hg⟩
  | step _ hs ih => exact planned_step ih hs

variable {t : Txn}

theorem granted_unrelated (h : Reachable proc s) {t' : Txn} (hne : t ≠ t') (ht : s.granted t = true)
    (ht' : s.granted t' = true) : ¬ Related (s.targets t) (s.targets t') := by
  have hp := planned_reachable h
  intro hrel
  obtain ⟨l, m, m', hl, hl', hc⟩ := plans_of_related hrel (proc t) (proc t')
  rw [← (hp.granted t ht).2.1] at hl
  rw [← (hp.granted t' ht').2.1] at hl'
  exact (sound_reachable hp.table).apart t t' l m m' hne hl hl' hc

theorem related_of_blocks (h : Reachable proc s) {t' : Txn} (hb : Blocks Lock.fair s.table t t') :
    Related (s.targets t) (s.targets t') := by
  have hp := planned_reachable h
  obtain ⟨l, m, m', -, hw, hc, hcase⟩ := hb
  have hl := hp.plans t (mem_append_right _ (List.mem_of_mem_head? hw))
  rcases hcase with hheld | ⟨-, -, hw'⟩
  · exact conflict_of_plans hl (hp.plans t' (mem_append_left _ hheld)) hc
  · exact conflict_of_plans hl (hp.plans t' (mem_append_right _ (List.mem_of_mem_head? hw')))
      hc

/-- Nobody but `t` has begun, and `t` waits nowhere. -/
structure Alone (table : Table Txn (Lock Proc)) (t : Txn) : Prop where
  others : ∀ t', t' ≠ t → table.task t' = .idle
  queues : ∀ l, table.queue l = []

theorem Alone.not_blocked (h : Reachable proc s) (ha : ∀ t', t' ≠ t → s.table.task t' = .idle)
    (t' : Txn) : ¬ Blocks Lock.fair s.table t t' := by
  intro hb
  by_cases ht : t' = t
  · subst ht
    exact acyclic (planned_reachable h).table t' (Relation.TransGen.single hb)
  · obtain ⟨l, m, m', -, -, -, hheld | ⟨-, -, hw⟩⟩ := hb
    · rw [Table.Holds, ha t' ht] at hheld
      cases hheld
    · rw [Table.Wants, ha t' ht] at hw
      cases hw

theorem acquires_alone (rest : List (Lock Proc × Mode)) :
    ∀ (s : State Txn Proc) (held : List (Lock Proc × Mode)), Reachable proc s → Alone s.table t →
      s.table.task t = ⟨held, rest, false⟩ → ∃ s', Reachable proc s' ∧ Alone s'.table t ∧
        s'.table.task t = ⟨held ++ rest, [], false⟩ ∧ s'.targets = s.targets := by
  induction rest with
  | nil => exact fun s held h ha ht => ⟨s, h, ha, by rw [ht, append_nil], rfl⟩
  | cons entry rest ih =>
    obtain ⟨l, m⟩ := entry
    intro s held h ha ht
    have hw : s.table.Wants t l m := by rw [Table.Wants, ht]; rfl
    have hfree : ∀ l', t ∉ s.table.queue l' := fun l' hm => by rw [ha.queues l'] at hm; cases hm
    have h₁ : Reachable proc { s with table := s.table.enqueue t l } :=
      h.step (.request (.request hw hfree))
    have hqueued : t ∈ (s.table.enqueue t l).queue l := by
      rw [queue_enqueue, if_pos rfl]
      exact mem_append_right _ (mem_singleton_self t)
    have hr : ((s.table.enqueue t l).task t).rest = (l, m) :: rest := by
      rw [Table.enqueue, ht]
    have h₂ := h₁.step (.acquire (.acquire hr hqueued (Alone.not_blocked h₁ ha.others)))
    have hheld : ((s.table.enqueue t l).task t).held = held := by rw [Table.enqueue, ht]
    have hclosing : ((s.table.enqueue t l).task t).closing = false := by rw [Table.enqueue, ht]
    simp only [hheld, hclosing] at h₂
    have halone : Alone
        (((s.table.enqueue t l).leave t).setTask t ⟨held ++ [(l, m)], rest, false⟩) t := by
      refine ⟨fun t' ht' => ?_, fun l' => ?_⟩
      · simp only [task_setTask_ne ht', task_leave]
        exact ha.others t' ht'
      · simp only [queue_setTask, queue_leave, queue_enqueue, ha.queues l']
        by_cases hl : l' = l
        · simp [hl]
        · simp [hl]
    obtain ⟨s', hs', ha', htask, htargets⟩ := ih _ (held ++ [(l, m)]) h₂ halone
      task_setTask_self
    exact ⟨s', hs', ha', by rw [htask, append_assoc]; rfl, htargets⟩

theorem granted_alone (proc : Txn → Proc) (t : Txn) {targets : List Target} (hne : targets ≠ []) :
    ∃ s, Reachable proc s ∧ Alone s.table t ∧ s.granted t = true ∧ s.targets t = targets := by
  have hstart : Reachable proc ⟨Table.setTask .initial t ⟨[], plan (proc t) targets, false⟩,
      Function.update (fun _ => []) t targets, fun _ => false⟩ :=
    Reachable.initial.step (.start hne rfl)
  have halone : Alone (Table.setTask .initial t ⟨[], plan (proc t) targets, false⟩) t :=
    ⟨fun t' ht' => task_setTask_ne ht', fun _ => rfl⟩
  obtain ⟨s, hs, ha, htask, htargets⟩ := acquires_alone _ _ [] hstart halone task_setTask_self
  have hmine : s.targets t = targets := by rw [htargets]; simp
  refine ⟨{ s with granted := Function.update s.granted t true }, ?_, ha, by simp, hmine⟩
  apply hs.step
  apply @Step.grant _ _ _ _ _ _ t targets
  · rw [htask]
  · rw [htask, hmine, nil_append]
  · rw [htask]
  · rwa [hmine]
  · rw [hmine]

/-- A transaction whose first lock another one holds waits for that one. -/
theorem waits_behind (proc : Txn → Proc) {t' : Txn} (ht : t' ≠ t) {xs ys : List Target}
    (hxs : xs ≠ []) (hys : ys ≠ []) {l : Lock Proc} {m m' : Mode}
    (hfirst : (plan (proc t') ys).head? = some (l, m)) (hl : (l, m') ∈ plan (proc t) xs)
    (hc : m.Conflicts m') : ∃ s, Reachable proc s ∧ s.granted t = true ∧ s.targets t = xs ∧
      s.targets t' = ys ∧ Blocks Lock.fair s.table t' t := by
  obtain ⟨s, hs, ha, hg, rfl⟩ := granted_alone proc t hxs
  have hstart := hs.step (.start hys (ha.others t' ht))
  have hwants : Table.Wants (s.table.setTask t' ⟨[], plan (proc t') ys, false⟩) t' l m := by
    rw [Table.Wants, task_setTask_self, hfirst]
    rfl
  have hidle : ∀ l', t' ∉ s.table.queue l' := fun l' hm => by rw [ha.queues l'] at hm; cases hm
  have hqueued := hstart.step (.request (.request hwants hidle))
  rw [← ((planned_reachable hs).granted t hg).2.1] at hl
  refine ⟨_, hqueued, hg, by simp [ht.symm], by simp, l, m, m', ?_, hwants, hc, Or.inl ?_⟩
  · rw [queue_enqueue, if_pos rfl]
    exact mem_append_right _ (mem_singleton_self t')
  · simpa [Table.Holds, Table.enqueue, ht.symm] using hl

/-- Conflicting transactions are never granted together, unrelated ones never block each other, and
no transactions wait for each other in a circle. -/
theorem locks_exclude_without_deadlock (h : Reachable proc s) :
    (∀ t t', t ≠ t' → s.granted t = true → s.granted t' = true →
      ¬ Related (s.targets t) (s.targets t')) ∧
    (∀ t t', ¬ Related (s.targets t) (s.targets t') → ¬ Blocks Lock.fair s.table t t') ∧
    ∀ t, ¬ Relation.TransGen (Blocks Lock.fair s.table) t t := by
  refine ⟨fun t t' hne ht ht' => granted_unrelated h hne ht ht', fun t t' hrel hb => ?_, ?_⟩
  · exact hrel (related_of_blocks h hb)
  · exact acyclic (planned_reachable h).table

end Runs

def removal : Target where
  resolved := ⟨[ofString ['d']], by decide⟩
  fileAlias := some ⟨1, 7⟩
  intent := .tree

def clearing : Target where
  resolved := ⟨[], by decide⟩
  fileAlias := none
  intent := .tree

/-- The second transaction waits until the first, which clears the whole tree, is done. -/
theorem removal_waits : ∃ s : State ℕ Unit, s.granted 0 = true ∧ s.targets 0 = [clearing] ∧
    s.targets 1 = [removal] ∧ Blocks Lock.fair s.table 1 0 ∧
    (∀ t t', t ≠ t' → s.granted t = true → s.granted t' = true →
      ¬ Related (s.targets t) (s.targets t')) ∧
    (∀ t t', ¬ Related (s.targets t) (s.targets t') → ¬ Blocks Lock.fair s.table t t') ∧
    ∀ t, ¬ Relation.TransGen (Blocks Lock.fair s.table) t t := by
  obtain ⟨s, hs, hg, ht, hw, hb⟩ := @waits_behind ℕ Unit _ _ 0 (fun _ => ()) 1 (by decide)
    [clearing] [removal] (cons_ne_nil _ _) (cons_ne_nil _ _) ⟨directoryKey [], some ()⟩
    .shared .exclusive (by decide) (by decide) (Or.inr rfl)
  exact ⟨s, hg, ht, hw, hb, locks_exclude_without_deadlock hs⟩

end FileLockSafety
