import RefactEngine.EvidenceCache
import RefactEngine.TextLines

/-! # Reuse stores

A bounded store of results that may be used again. A result is dropped when it is over its time to
live, when another one takes its key, or, for space, when no other one was unused for longer.
-/
namespace ReuseStores

open EvidenceCache (EvidenceCacheLimits EvidenceRecord toI64 saturatingSub)
open List

variable {α : Type*}

open ReuseStore

inductive Event (α : Type*) where
  | store (key : Text) (value : α) (nowMs : ℤ)
  | lookup (key : Text) (nowMs : ℤ)
  | setLimits (limits : EvidenceCacheLimits)

variable (r : Reusable α)

def step (store : ReuseStore α) : Event α → ReuseStore α
  | .store key value nowMs => (store.store r key value nowMs).1
  | .lookup key nowMs => (store.lookup r key nowMs).1
  | .setLimits limits => store.setLimits limits

def run (store : ReuseStore α) (events : List (Event α)) : ReuseStore α :=
  events.foldl (step r) store

def Reusable.accepts (value : α) : Bool := !(r.isReplay value || !r.isStorable value)

def totalBytes (store : ReuseStore α) : ℕ :=
  (store.entries.entries.map fun entry => r.sizeBytes entry.2.value).sum

def evictions : ℕ → ReuseStore α → List Text
  | 0, _ => []
  | rounds + 1, store =>
    if store.overLimits then
      match oldest store.entries.entries with
      | none => []
      | some victim => victim :: evictions rounds (store.remove victim)
    else []

def loopStart (store : ReuseStore α) : Event α → ReuseStore α
  | .store key value nowMs => store.inserted r key value nowMs
  | .lookup _ _ => store
  | .setLimits limits => { store with limits := limits }

def victims (store : ReuseStore α) (event : Event α) : List Text :=
  match event with
  | .store _ value _ =>
    if r.accepts value then
      evictions (loopStart r store event).entries.entries.length (loopStart r store event)
    else []
  | .lookup _ _ => []
  | .setLimits _ =>
    evictions (loopStart r store event).entries.entries.length (loopStart r store event)

def usedKey : Event α → Option Text
  | .store key value _ => if r.accepts value then some key else none
  | .lookup key _ => some key
  | .setLimits _ => none

variable (key : Text)

def noteUse (noted : ℕ × ℕ) (event : Event α) : ℕ × ℕ :=
  match usedKey r event with
  | none => noted
  | some used => (noted.1 + 1, if used = key then noted.1 + 1 else noted.2)

def lastUse (events : List (Event α)) : ℕ :=
  (events.foldl (noteUse r key) (0, 0)).2

def noteStored (noted : Option (α × ℤ)) : Event α → Option (α × ℤ)
  | .store other value nowMs =>
    if r.accepts value = true ∧ other = key then some (value, nowMs) else noted
  | .lookup _ _ => noted
  | .setLimits _ => noted

def lastStored (events : List (Event α)) : Option (α × ℤ) :=
  events.foldl (noteStored r key) none

def InTime (storedAtMs : ℤ) (ttlSecs : ℕ) : Event α → Prop
  | .store _ value nowMs =>
    r.accepts value = true → ttlSecs = 0 ∨ nowMs < storedAtMs + ttlSecs * 1000
  | .lookup _ nowMs => ttlSecs = 0 ∨ nowMs < storedAtMs + ttlSecs * 1000
  | .setLimits _ => True

/-- The entry under the key is neither replaced nor evicted, and never over its time to live. -/
def Undisturbed (key : Text) (storedAtMs : ℤ) : ReuseStore α → List (Event α) → Prop
  | _, [] => True
  | store, event :: events =>
    (∀ value nowMs, event = .store key value nowMs → r.accepts value = false) ∧
      key ∉ victims r store event ∧ InTime r storedAtMs store.limits.ttlSecs event ∧
      Undisturbed key storedAtMs (step r store event) events

structure KeepsBooks (limits : EvidenceCacheLimits) (events : List (Event α)) : Prop where
  bytes : (run r (new limits) events).bytes = totalBytes r (run r (new limits) events)
  max_entries : (run r (new limits) events).entries.entries.length ≤
    (run r (new limits) events).limits.maxEntries
  max_bytes : (run r (new limits) events).bytes ≤ (run r (new limits) events).limits.maxBytes
  /-- The loop has ended by then, in every store. -/
  ends : ∀ (store : ReuseStore α) (rounds : ℕ), store.entries.entries.length ≤ rounds →
    evict rounds store = store.enforceBounds
  victim : ∀ event earlier key later,
    victims r (run r (new limits) events) event = earlier ++ key :: later →
      (((loopStart r (run r (new limits) events) event).removeAll earlier).entries.lookup
        key).isSome ∧
      ∀ other, (((loopStart r (run r (new limits) events) event).removeAll earlier).entries.lookup
        other).isSome → other ≠ key →
          lastUse r key (events ++ [event]) < lastUse r other (events ++ [event])
  /-- An accepted value is found until it is replaced, evicted or over its time to live. -/
  kept : ∀ before key value storedAtMs after nowMs,
    events = before ++ .store key value storedAtMs :: after → r.accepts value = true →
      key ∉ victims r (run r (new limits) before) (.store key value storedAtMs) →
      Undisturbed r key storedAtMs
        (run r (new limits) (before ++ [.store key value storedAtMs]))
        (after ++ [.lookup key nowMs]) →
      ((run r (new limits) events).lookup r key nowMs).2 = some (r.markReplayed nowMs value)
  /-- What is found was accepted last, and is not over its time to live. -/
  found : ∀ key nowMs replay, ((run r (new limits) events).lookup r key nowMs).2 = some replay →
    ∃ value storedAtMs, lastStored r key events = some (value, storedAtMs) ∧
      replay = r.markReplayed nowMs value ∧
      ((run r (new limits) events).limits.ttlSecs = 0 ∨
        nowMs < storedAtMs + (run r (new limits) events).limits.ttlSecs * 1000)
  refused : ∀ key value nowMs, r.accepts value = false →
    (run r (new limits) events).store r key value nowMs = (run r (new limits) events, false)

def TtlFits (limits : EvidenceCacheLimits) : Prop := limits.ttlSecs * 1000 < 2 ^ 63

def Fits (store : ReuseStore α) : Event α → Prop
  | .store key value nowMs => r.accepts value = true →
    totalBytes r ((store.expire nowMs).remove key) + r.sizeBytes value < 2 ^ 64
  | .lookup _ _ => True
  | .setLimits limits => TtlFits limits

def AllFit : ReuseStore α → List (Event α) → Prop
  | _, [] => True
  | store, event :: events => Fits r store event ∧ AllFit (step r store event) events

namespace ReuseStore

variable {store : ReuseStore α}

@[simp] theorem limits_remove (key : Text) : (store.remove key).limits = store.limits := by
  unfold remove
  cases store.entries.lookup key <;> rfl

@[simp] theorem seq_remove (key : Text) : (store.remove key).seq = store.seq := by
  unfold remove
  cases store.entries.lookup key <;> rfl

theorem entries_remove (key : Text) : (store.remove key).entries = store.entries.erase key := by
  unfold remove
  cases hl : store.entries.lookup key with
  | none =>
    apply AList.ext
    have hnot : key ∉ store.entries.entries.keys :=
      fun hmem => AList.lookup_eq_none.mp hl (AList.mem_keys.mpr hmem)
    exact (kerase_of_notMem_keys hnot).symm
  | some entry => rfl

theorem lookup_remove (key other : Text) : (store.remove key).entries.lookup other =
    if other = key then none else store.entries.lookup other := by
  rw [entries_remove, AList.lookup_erase_if]

variable (keys : List Text)

@[simp] theorem limits_removeAll : (store.removeAll keys).limits = store.limits := by
  induction keys generalizing store with
  | nil => rfl
  | cons key keys ih => exact ih.trans (limits_remove key)

@[simp] theorem seq_removeAll : (store.removeAll keys).seq = store.seq := by
  induction keys generalizing store with
  | nil => rfl
  | cons key keys ih => exact ih.trans (seq_remove key)

theorem lookup_removeAll (other : Text) : (store.removeAll keys).entries.lookup other =
      if other ∈ keys then none else store.entries.lookup other := by
  induction keys generalizing store with
  | nil => rfl
  | cons key keys ih =>
    show ((store.remove key).removeAll keys).entries.lookup other = _
    rw [ih, lookup_remove]
    by_cases hkey : other = key
    · simp [hkey]
    · simp [hkey]

theorem remove_held {key : Text} {entry : CacheEntry α} (r : Reusable α)
    (hl : store.entries.lookup key = some entry) :
    store.entries.entries.length = (store.remove key).entries.entries.length + 1 ∧
      totalBytes r store = r.sizeBytes entry.value + totalBytes r (store.remove key) := by
  have hperm := AList.entries_perm_erase hl
  unfold totalBytes
  rw [entries_remove]
  constructor
  · rw [hperm.length_eq, length_cons]
  · rw [(hperm.map _).sum_nat, map_cons, sum_cons]

end ReuseStore

structure Books (store : ReuseStore α) : Prop where
  sized : ∀ key entry, store.entries.lookup key = some entry →
    entry.bytes = r.sizeBytes entry.value
  bytes : store.bytes = totalBytes r store

variable {r}

theorem Books.remove {store : ReuseStore α} (h : Books r store) (key : Text) :
    Books r (store.remove key) := by
  refine ⟨fun other entry hl => ?_, ?_⟩
  · rw [lookup_remove] at hl
    split_ifs at hl
    exact h.sized other entry hl
  · cases hl : store.entries.lookup key with
    | none =>
      have hsame : store.remove key = store := by simp only [ReuseStore.remove, hl]
      rw [hsame]
      exact h.bytes
    | some entry =>
      have htotal := (remove_held r hl).2
      have hbytes : (store.remove key).bytes = store.bytes - entry.bytes := by
        simp only [ReuseStore.remove, hl]
      have hsize := h.sized key entry hl
      have hsum := h.bytes
      omega

theorem Books.removeAll {store : ReuseStore α} (h : Books r store) (keys : List Text) :
    Books r (store.removeAll keys) := by
  induction keys generalizing store with
  | nil => exact h
  | cons key keys ih => exact ih (h.remove key)

variable {limits : EvidenceCacheLimits}

theorem toI64_ttl (h : TtlFits limits) :
    toI64 (min (limits.ttlSecs * 1000) (2 ^ 64 - 1)) = (limits.ttlSecs * 1000 : ℕ) := by
  unfold TtlFits at h
  have hmin : min (limits.ttlSecs * 1000) (2 ^ 64 - 1) = limits.ttlSecs * 1000 := by omega
  rw [hmin, toI64, if_pos h]

theorem le_saturatingSub {ttl : ℤ} (hpos : 0 ≤ ttl) (hfits : ttl < 2 ^ 63) (a b : ℤ) :
    ttl ≤ saturatingSub a b ↔ ttl ≤ a - b := by
  unfold saturatingSub
  omega

theorem lookup_expire {store : ReuseStore α} (h : TtlFits store.limits) (nowMs : ℤ) (key : Text)
    (entry : CacheEntry α) : (store.expire nowMs).entries.lookup key = some entry ↔
      store.entries.lookup key = some entry ∧ (store.limits.ttlSecs = 0 ∨
        nowMs < entry.storedAtMs + store.limits.ttlSecs * 1000) := by
  unfold ReuseStore.expire
  by_cases hoff : store.limits.ttlSecs = 0
  · simp [hoff]
  rw [if_neg hoff, lookup_removeAll]
  have hold : ∀ found : CacheEntry α,
      (store.ttlMs ≤ saturatingSub nowMs found.storedAtMs) ↔
        ¬ nowMs < found.storedAtMs + store.limits.ttlSecs * 1000 := by
    intro found
    unfold TtlFits at h
    rw [ReuseStore.ttlMs, toI64_ttl h, le_saturatingSub (by omega) (by omega)]
    push_cast
    omega
  have hgone : key ∈ (store.entries.entries.filter fun found =>
      decide (store.ttlMs ≤ saturatingSub nowMs found.2.storedAtMs)).map (·.1) ↔
      ∃ found, store.entries.lookup key = some found ∧
        ¬ nowMs < found.storedAtMs + store.limits.ttlSecs * 1000 := by
    simp only [mem_map, mem_filter, decide_eq_true_eq, hold]
    constructor
    · rintro ⟨⟨other, found⟩, ⟨hmem, hover⟩, rfl⟩
      exact ⟨found, AList.mem_entries_iff.mp hmem, hover⟩
    · rintro ⟨found, hl, hover⟩
      exact ⟨⟨key, found⟩, ⟨AList.mem_entries_iff.mpr hl, hover⟩, rfl⟩
  constructor
  · intro hl
    split_ifs at hl with hmem
    refine ⟨hl, Or.inr ?_⟩
    by_contra hover
    exact hmem (hgone.mpr ⟨entry, hl, hover⟩)
  · rintro ⟨hl, htime⟩
    rw [if_neg]
    · exact hl
    · intro hmem
      obtain ⟨found, hfound, hover⟩ := hgone.mp hmem
      obtain rfl := Option.some.inj (hl.symm.trans hfound)
      exact hover (htime.resolve_left hoff)

@[simp] theorem limits_expire {store : ReuseStore α} (nowMs : ℤ) :
    (store.expire nowMs).limits = store.limits := by
  unfold ReuseStore.expire
  split_ifs
  · rfl
  · exact limits_removeAll _

theorem Books.expire {store : ReuseStore α} (h : Books r store) (nowMs : ℤ) :
    Books r (store.expire nowMs) := by
  unfold ReuseStore.expire
  split_ifs
  · exact h
  · exact h.removeAll _

theorem foldl_oldest (rest : List (Σ _ : Text, CacheEntry α)) :
    ∀ entry : Σ _ : Text, CacheEntry α,
      let first := rest.foldl
        (fun first other => if other.2.usedSeq < first.2.usedSeq then other else first) entry
      first ∈ entry :: rest ∧ ∀ other ∈ entry :: rest, first.2.usedSeq ≤ other.2.usedSeq := by
  induction rest with
  | nil => simp
  | cons head rest ih =>
    intro entry
    rw [foldl_cons]
    by_cases hless : head.2.usedSeq < entry.2.usedSeq
    · obtain ⟨hmem, hle⟩ := ih head
      simp only [if_pos hless]
      refine ⟨mem_cons_of_mem _ hmem, fun other hother => ?_⟩
      rcases mem_cons.mp hother with rfl | hrest
      · exact (hle head mem_cons_self).trans hless.le
      · exact hle other hrest
    · obtain ⟨hmem, hle⟩ := ih entry
      simp only [if_neg hless]
      constructor
      · rcases mem_cons.mp hmem with heq | hrest
        · rw [heq]
          exact mem_cons_self
        · exact mem_cons_of_mem _ (mem_cons_of_mem _ hrest)
      · intro other hother
        rcases mem_cons.mp hother with rfl | hrest
        · exact hle _ mem_cons_self
        · rcases mem_cons.mp hrest with rfl | htail
          · exact (hle entry mem_cons_self).trans (not_lt.mp hless)
          · exact hle other (mem_cons_of_mem _ htail)

theorem oldest_spec {store : ReuseStore α} {victim : Text}
    (h : oldest store.entries.entries = some victim) :
    ∃ entry, store.entries.lookup victim = some entry ∧
      ∀ other found, store.entries.lookup other = some found → entry.usedSeq ≤ found.usedSeq := by
  cases hents : store.entries.entries with
  | nil =>
    rw [hents] at h
    cases h
  | cons entry rest =>
    rw [hents, oldest] at h
    obtain ⟨hmem, hle⟩ := foldl_oldest rest entry
    obtain rfl := Option.some.inj h
    rw [← hents] at hmem hle
    exact ⟨_, AList.mem_entries_iff.mp hmem,
      fun other found hl => hle ⟨other, found⟩ (AList.mem_entries_iff.mpr hl)⟩

theorem oldest_eq_none {store : ReuseStore α} (h : oldest store.entries.entries = none) :
    store.entries.entries.length = 0 := by
  cases hents : store.entries.entries with
  | nil => rfl
  | cons entry rest =>
    rw [hents] at h
    cases h

variable (rounds : ℕ)

theorem evict_eq : ∀ store : ReuseStore α,
    evict rounds store = store.removeAll (evictions rounds store) := by
  induction rounds with
  | zero => exact fun _ => rfl
  | succ rounds ih =>
    intro store
    rw [evict, evictions]
    split_ifs with hover
    · cases oldest store.entries.entries with
      | none => rfl
      | some victim => exact ih (store.remove victim)
    · rfl

theorem evict_ends : ∀ store : ReuseStore α, store.entries.entries.length ≤ rounds →
    evict rounds store = store.enforceBounds := by
  induction rounds with
  | zero =>
    intro store h
    rw [enforceBounds, Nat.le_zero.mp h]
  | succ rounds ih =>
    intro store h
    cases hover : store.overLimits with
    | false =>
      have hstays : ∀ n, evict n store = store := by
        intro n
        cases n with
        | zero => rfl
        | succ n =>
          rw [evict, hover]
          rfl
      rw [enforceBounds, hstays, hstays]
    | true =>
      cases holdest : oldest store.entries.entries with
      | none =>
        rw [enforceBounds, oldest_eq_none holdest]
        simp only [evict, hover, holdest, if_true]
      | some victim =>
        obtain ⟨entry, hl, -⟩ := oldest_spec holdest
        have hlen := (remove_held ⟨fun _ => false, fun _ v => v, fun _ => true, fun _ => 0⟩ hl).1
        rw [enforceBounds, hlen, evict, evict, if_pos hover, if_pos hover, holdest]
        exact ih _ (by omega)

theorem overLimits_enforceBounds {store : ReuseStore α} (h : Books r store) :
    store.enforceBounds.overLimits = false := by
  have hloop : ∀ (rounds : ℕ) (store : ReuseStore α), Books r store →
      store.entries.entries.length ≤ rounds → (evict rounds store).overLimits = false := by
    intro rounds
    induction rounds with
    | zero =>
      intro store h hlen
      have hnil := length_eq_zero_iff.mp (Nat.le_zero.mp hlen)
      have hbytes := h.bytes
      rw [totalBytes, hnil, map_nil, sum_nil] at hbytes
      simp [evict, overLimits, hnil, hbytes]
    | succ rounds ih =>
      intro store h hlen
      cases hover : store.overLimits with
      | false =>
        rw [evict, if_neg (by rw [hover]; exact Bool.false_ne_true)]
        exact hover
      | true =>
        rw [evict, if_pos hover]
        cases holdest : oldest store.entries.entries with
        | none =>
          have hnil := length_eq_zero_iff.mp (oldest_eq_none holdest)
          have hbytes := h.bytes
          rw [totalBytes, hnil, map_nil, sum_nil] at hbytes
          simp [overLimits, hnil, hbytes] at hover
        | some victim =>
          obtain ⟨entry, hl, -⟩ := oldest_spec holdest
          have hshort := (remove_held r hl).1
          exact ih _ (h.remove victim) (by omega)
  exact hloop _ store h le_rfl

def useCount (r : Reusable α) (events : List (Event α)) : ℕ :=
  events.countP fun event => (usedKey r event).isSome

theorem noteUse_fst (r : Reusable α) (key : Text) (events : List (Event α)) :
    (events.foldl (noteUse r key) (0, 0)).1 = useCount r events := by
  induction events using List.reverseRecOn with
  | nil => rfl
  | append_singleton events event ih =>
    rw [foldl_concat, noteUse, useCount, countP_append, countP_singleton]
    cases usedKey r event with
    | none => exact ih
    | some used => exact congrArg (· + 1) ih

theorem lastUse_concat (r : Reusable α) (key : Text) (events : List (Event α)) (event : Event α) :
    lastUse r key (events ++ [event]) =
      if usedKey r event = some key then useCount r events + 1 else lastUse r key events := by
  rw [lastUse, foldl_concat, noteUse, noteUse_fst]
  cases usedKey r event with
  | none => rfl
  | some used =>
    by_cases h : used = key
    · simp [h]
    · simp [h, lastUse]

theorem useCount_concat (r : Reusable α) (events : List (Event α)) (event : Event α) :
    useCount r (events ++ [event]) =
      useCount r events + if (usedKey r event).isSome then 1 else 0 := by
  rw [useCount, countP_append, countP_singleton]
  rfl

theorem lastUse_le (r : Reusable α) (key : Text) (events : List (Event α)) :
    lastUse r key events ≤ useCount r events := by
  induction events using List.reverseRecOn with
  | nil => exact le_rfl
  | append_singleton events event ih =>
    rw [lastUse_concat, useCount_concat]
    split_ifs with hkey hsome
    · omega
    · rw [hkey] at hsome
      exact absurd rfl hsome
    · omega
    · omega

theorem lastUse_ne {r : Reusable α} {key other : Text} (hne : key ≠ other)
    (events : List (Event α)) (hpos : 0 < lastUse r key events) :
    lastUse r key events ≠ lastUse r other events := by
  induction events using List.reverseRecOn with
  | nil => exact absurd hpos (lt_irrefl 0)
  | append_singleton events event ih =>
    have hkey := lastUse_le r key events
    have hother := lastUse_le r other events
    rw [lastUse_concat] at hpos
    rw [lastUse_concat, lastUse_concat]
    by_cases h : usedKey r event = some key
    · have hnot : usedKey r event ≠ some other := fun h' =>
        hne (Option.some.inj (h.symm.trans h'))
      rw [if_pos h, if_neg hnot]
      omega
    · rw [if_neg h] at hpos ⊢
      split_ifs
      · omega
      · exact ih hpos

theorem lastStored_concat (r : Reusable α) (key : Text) (events : List (Event α))
    (event : Event α) :
    lastStored r key (events ++ [event]) = noteStored r key (lastStored r key events) event :=
  foldl_concat ..

/-- The entries bear the time and the value that they were accepted with, and their last use. -/
structure Noted (r : Reusable α) (events : List (Event α)) (store : ReuseStore α) : Prop where
  seq : store.seq = useCount r events
  used : ∀ key entry, store.entries.lookup key = some entry →
    entry.usedSeq = lastUse r key events ∧ 0 < entry.usedSeq
  stored : ∀ key entry, store.entries.lookup key = some entry →
    lastStored r key events = some (entry.value, entry.storedAtMs)

variable {events : List (Event α)}

theorem Noted.removeAll {store : ReuseStore α}
    (h : Noted r events store) (keys : List Text) : Noted r events (store.removeAll keys) := by
  have hsub : ∀ key entry, (store.removeAll keys).entries.lookup key = some entry →
      store.entries.lookup key = some entry := by
    intro key entry hl
    rw [lookup_removeAll] at hl
    split_ifs at hl
    exact hl
  exact ⟨(seq_removeAll keys).trans h.seq, fun key entry hl => h.used key entry (hsub key entry hl),
    fun key entry hl => h.stored key entry (hsub key entry hl)⟩

theorem Noted.expire {store : ReuseStore α} (h : Noted r events store)
    (nowMs : ℤ) : Noted r events (store.expire nowMs) := by
  unfold ReuseStore.expire
  split_ifs
  · exact h
  · exact h.removeAll _

theorem Noted.loopStart {store : ReuseStore α}
    (h : Noted r events store) (event : Event α) (hloops : ∀ key nowMs, event ≠ .lookup key nowMs)
    (haccepts : ∀ key value nowMs, event = .store key value nowMs → r.accepts value = true) :
    Noted r (events ++ [event]) (loopStart r store event) := by
  cases event with
  | lookup key nowMs => exact absurd rfl (hloops key nowMs)
  | setLimits limits =>
    refine ⟨?_, fun key entry hl => ?_, fun key entry hl => ?_⟩
    · rw [useCount_concat]
      exact h.seq
    · rw [lastUse_concat, if_neg (by simp [usedKey])]
      exact h.used key entry hl
    · rw [lastStored_concat]
      exact h.stored key entry hl
  | store key value nowMs =>
    have hacc := haccepts key value nowMs rfl
    have hexp := h.expire nowMs
    have huse : usedKey r (.store key value nowMs) = some key := if_pos hacc
    have hsub : ∀ other entry, other ≠ key →
        (store.inserted r key value nowMs).entries.lookup other = some entry →
        (store.expire nowMs).entries.lookup other = some entry := by
      intro other entry hne hl
      rw [inserted, AList.lookup_insert_ne hne, lookup_remove, if_neg hne] at hl
      exact hl
    have hnew : (store.inserted r key value nowMs).entries.lookup key =
        some ⟨value, nowMs, (store.expire nowMs).seq + 1, r.sizeBytes value⟩ :=
      AList.lookup_insert _
    refine ⟨?_, fun other entry hl => ?_, fun other entry hl => ?_⟩
    · rw [useCount_concat, huse, ← hexp.seq]
      rfl
    · rw [lastUse_concat, huse]
      by_cases hkey : other = key
      · subst hkey
        obtain rfl := Option.some.inj (hnew.symm.trans hl)
        rw [if_pos rfl, ← hexp.seq]
        exact ⟨rfl, Nat.succ_pos _⟩
      · rw [if_neg fun hsome => hkey (Option.some.inj hsome).symm]
        exact hexp.used other entry (hsub other entry hkey hl)
    · rw [lastStored_concat, noteStored]
      by_cases hkey : other = key
      · subst hkey
        obtain rfl := Option.some.inj (hnew.symm.trans hl)
        rw [if_pos ⟨hacc, rfl⟩]
      · rw [if_neg fun hsame => hkey hsame.2.symm]
        exact hexp.stored other entry (hsub other entry hkey hl)

variable {nowMs : ℤ}

theorem store_eq_of_refused {store : ReuseStore α} {key : Text} {value : α}
    (h : r.accepts value = false) : store.store r key value nowMs = (store, false) := by
  rw [Reusable.accepts, Bool.not_eq_false'] at h
  rw [ReuseStore.store, if_pos h]

theorem store_eq_of_accepts {store : ReuseStore α} {key : Text} {value : α}
    (h : r.accepts value = true) : store.store r key value nowMs =
      ((store.inserted r key value nowMs).enforceBounds, true) := by
  rw [Reusable.accepts, Bool.not_eq_true'] at h
  rw [ReuseStore.store, if_neg (by rw [h]; exact Bool.false_ne_true)]

theorem Noted.step {store : ReuseStore α} (h : Noted r events store)
    (event : Event α) : Noted r (events ++ [event]) (step r store event) := by
  cases event with
  | setLimits limits =>
    have hstart := h.loopStart (.setLimits limits) nofun nofun
    rw [ReuseStores.step, setLimits, enforceBounds, evict_eq]
    exact hstart.removeAll _
  | store key value nowMs =>
    rw [ReuseStores.step]
    cases hacc : r.accepts value with
    | true =>
      rw [store_eq_of_accepts hacc, enforceBounds, evict_eq]
      apply Noted.removeAll
      exact h.loopStart _ nofun fun _ _ _ heq => by
        cases heq
        exact hacc
    | false =>
      have huse : usedKey r (.store key value nowMs) = none := by simp [usedKey, hacc]
      rw [store_eq_of_refused hacc]
      refine ⟨?_, fun other entry hl => ?_, fun other entry hl => ?_⟩
      · rw [useCount_concat, huse]
        exact h.seq
      · rw [lastUse_concat, huse, if_neg nofun]
        exact h.used other entry hl
      · rw [lastStored_concat, noteStored, if_neg (by simp [hacc])]
        exact h.stored other entry hl
  | lookup key nowMs =>
    have hexp := h.expire nowMs
    have huse : usedKey r (.lookup key nowMs) = some key := rfl
    rw [ReuseStores.step, ReuseStore.lookup]
    have hother : ∀ other entry, other ≠ key →
        (store.expire nowMs).entries.lookup other = some entry →
        entry.usedSeq = lastUse r other (events ++ [.lookup key nowMs]) ∧ 0 < entry.usedSeq := by
      intro other entry hne hl
      rw [lastUse_concat, huse, if_neg fun hsome => hne (Option.some.inj hsome).symm]
      exact hexp.used other entry hl
    cases hfound : (store.expire nowMs).entries.lookup key with
    | none =>
      dsimp only
      refine ⟨?_, fun other entry hl => ?_, fun other entry hl => ?_⟩
      · rw [useCount_concat, huse, ← hexp.seq]
        rfl
      · refine hother other entry ?_ hl
        rintro rfl
        rw [hfound] at hl
        cases hl
      · rw [lastStored_concat]
        exact hexp.stored other entry hl
    | some found =>
      dsimp only
      refine ⟨?_, fun other entry hl => ?_, fun other entry hl => ?_⟩
      · rw [useCount_concat, huse, ← hexp.seq]
        rfl
      · rw [AList.lookup_insert_if] at hl
        split_ifs at hl with hkey
        · subst hkey
          obtain rfl := Option.some.inj hl
          rw [lastUse_concat, huse, if_pos rfl, ← hexp.seq]
          exact ⟨rfl, Nat.succ_pos _⟩
        · exact hother other entry hkey hl
      · rw [lastStored_concat, noteStored]
        rw [AList.lookup_insert_if] at hl
        split_ifs at hl with hkey
        · subst hkey
          obtain rfl := Option.some.inj hl
          exact hexp.stored other found hfound
        · exact hexp.stored other entry hl

theorem overLimits_eq_false {store : ReuseStore α} : store.overLimits = false ↔
    store.entries.entries.length ≤ store.limits.maxEntries ∧
      store.bytes ≤ store.limits.maxBytes := by
  rw [overLimits, Bool.or_eq_false_iff, decide_eq_false_iff_not, decide_eq_false_iff_not, not_lt,
    not_lt]

theorem overLimits_removeAll {store : ReuseStore α} (h : store.overLimits = false)
    (keys : List Text) : (store.removeAll keys).overLimits = false := by
  induction keys generalizing store with
  | nil => exact h
  | cons key keys ih =>
    show ((store.remove key).removeAll keys).overLimits = false
    apply ih
    obtain ⟨hlen, hbytes⟩ := overLimits_eq_false.mp h
    have hshort : (store.remove key).entries.entries.length ≤ store.entries.entries.length := by
      rw [entries_remove]
      exact (kerase_sublist key store.entries.entries).length_le
    have hless : (store.remove key).bytes ≤ store.bytes := by
      unfold ReuseStore.remove
      cases store.entries.lookup key with
      | none => exact le_rfl
      | some entry => exact Nat.sub_le _ _
    rw [overLimits_eq_false, limits_remove]
    exact ⟨hshort.trans hlen, hless.trans hbytes⟩

theorem overLimits_expire {store : ReuseStore α} (h : store.overLimits = false) (nowMs : ℤ) :
    (store.expire nowMs).overLimits = false := by
  unfold ReuseStore.expire
  split_ifs
  · exact h
  · exact overLimits_removeAll h _

@[simp] theorem limits_enforceBounds {store : ReuseStore α} :
    store.enforceBounds.limits = store.limits := by
  rw [enforceBounds, evict_eq, limits_removeAll]

theorem Books.enforceBounds {store : ReuseStore α} (h : Books r store) :
    Books r store.enforceBounds := by
  rw [ReuseStore.enforceBounds, evict_eq]
  exact h.removeAll _

theorem totalBytes_remove (r : Reusable α) (store : ReuseStore α) (key : Text) :
    totalBytes r (store.remove key) =
      ((store.entries.entries.kerase key).map fun entry => r.sizeBytes entry.2.value).sum := by
  rw [totalBytes, entries_remove]
  rfl

theorem Books.inserted {store : ReuseStore α} (h : Books r store) {key : Text} {value : α}
    (hfits : totalBytes r ((store.expire nowMs).remove key) + r.sizeBytes value < 2 ^ 64) :
    Books r (store.inserted r key value nowMs) := by
  have hrem := (h.expire nowMs).remove key
  refine ⟨fun other entry hl => ?_, ?_⟩
  · rw [ReuseStore.inserted, AList.lookup_insert_if] at hl
    split_ifs at hl with hkey
    · obtain rfl := Option.some.inj hl
      rfl
    · exact hrem.sized other entry hl
  · have htotal : totalBytes r (store.inserted r key value nowMs) =
        r.sizeBytes value + totalBytes r ((store.expire nowMs).remove key) := by
      have herase : List.kerase key ((store.expire nowMs).remove key).entries.entries =
          ((store.expire nowMs).remove key).entries.entries := by
        rw [entries_remove]
        exact kerase_of_notMem_keys (notMem_keys_kerase key (AList.nodupKeys _))
      rw [totalBytes, ReuseStore.inserted, AList.entries_insert, herase]
      rfl
    rw [htotal]
    show saturatingAdd ((store.expire nowMs).remove key).bytes (r.sizeBytes value) = _
    rw [saturatingAdd, usizeMax, hrem.bytes]
    omega

theorem Books.lookup {store : ReuseStore α} (h : Books r store) (key : Text) (nowMs : ℤ) :
    Books r (store.lookup r key nowMs).1 := by
  have hexp := h.expire nowMs
  rw [ReuseStore.lookup]
  cases hfound : (store.expire nowMs).entries.lookup key with
  | none => exact ⟨hexp.sized, hexp.bytes⟩
  | some found =>
    refine ⟨fun other entry hl => ?_, ?_⟩
    · dsimp only at hl
      rw [AList.lookup_insert_if] at hl
      split_ifs at hl
      · obtain rfl := Option.some.inj hl
        exact hexp.sized key found hfound
      · exact hexp.sized other entry hl
    · have htotal := (remove_held r hfound).2
      rw [totalBytes_remove] at htotal
      dsimp only
      rw [hexp.bytes, htotal, totalBytes, AList.entries_insert, map_cons, sum_cons]

structure Sound (r : Reusable α) (store : ReuseStore α) : Prop where
  books : Books r store
  ttl : TtlFits store.limits
  within : store.overLimits = false

theorem sound_new (h : TtlFits limits) : Sound r (new limits) :=
  ⟨⟨fun _ _ hl => (by cases hl), rfl⟩, h, rfl⟩

theorem Sound.step {store : ReuseStore α} (h : Sound r store) {event : Event α}
    (hfits : Fits r store event) : Sound r (step r store event) := by
  cases event with
  | setLimits limits =>
    have hbooks : Books r { store with limits := limits } := ⟨h.books.sized, h.books.bytes⟩
    refine ⟨hbooks.enforceBounds, ?_, overLimits_enforceBounds hbooks⟩
    show TtlFits (ReuseStore.enforceBounds { store with limits := limits }).limits
    rw [limits_enforceBounds]
    exact hfits
  | store key value nowMs =>
    rw [ReuseStores.step]
    cases hacc : r.accepts value with
    | false =>
      rw [store_eq_of_refused hacc]
      exact h
    | true =>
      have hbooks := h.books.inserted (hfits hacc)
      have hlimits : (store.inserted r key value nowMs).limits = store.limits := by
        show ((store.expire nowMs).remove key).limits = store.limits
        rw [limits_remove, limits_expire]
      rw [store_eq_of_accepts hacc]
      refine ⟨hbooks.enforceBounds, ?_, overLimits_enforceBounds hbooks⟩
      rw [limits_enforceBounds, hlimits]
      exact h.ttl
  | lookup key nowMs =>
    obtain ⟨hlen, hbytes⟩ := overLimits_eq_false.mp (overLimits_expire h.within nowMs)
    rw [ReuseStores.step]
    refine ⟨h.books.lookup key nowMs, ?_, overLimits_eq_false.mpr ?_⟩
    · rw [ReuseStore.lookup]
      cases (store.expire nowMs).entries.lookup key with
      | none => exact (limits_expire nowMs).symm ▸ h.ttl
      | some found => exact (limits_expire nowMs).symm ▸ h.ttl
    · rw [ReuseStore.lookup]
      cases hfound : (store.expire nowMs).entries.lookup key with
      | none => exact ⟨hlen, hbytes⟩
      | some found =>
        dsimp only
        rw [AList.length_insert_old _ hfound]
        exact ⟨hlen, hbytes⟩

def Held (key : Text) (value : α) (storedAtMs : ℤ) (store : ReuseStore α) : Prop :=
  ∃ entry, store.entries.lookup key = some entry ∧ entry.value = value ∧
    entry.storedAtMs = storedAtMs

section Stay

variable {key : Text} {value : α} {storedAtMs : ℤ} {store : ReuseStore α}

theorem Held.removeAll (h : Held key value storedAtMs store) {keys : List Text}
    (hkeys : key ∉ keys) : Held key value storedAtMs (store.removeAll keys) := by
  obtain ⟨entry, hl, hvalue, hstored⟩ := h
  refine ⟨entry, ?_, hvalue, hstored⟩
  rw [lookup_removeAll, if_neg hkeys]
  exact hl

theorem Held.expire (h : Held key value storedAtMs store) (httl : TtlFits store.limits) {nowMs : ℤ}
    (htime : store.limits.ttlSecs = 0 ∨ nowMs < storedAtMs + store.limits.ttlSecs * 1000) :
    Held key value storedAtMs (store.expire nowMs) := by
  obtain ⟨entry, hl, hvalue, rfl⟩ := h
  exact ⟨entry, (lookup_expire httl nowMs key entry).mpr ⟨hl, htime⟩, hvalue, rfl⟩

theorem Held.lookup (h : Held key value storedAtMs store) (httl : TtlFits store.limits) {nowMs : ℤ}
    (htime : store.limits.ttlSecs = 0 ∨ nowMs < storedAtMs + store.limits.ttlSecs * 1000) :
    (store.lookup r key nowMs).2 = some (r.markReplayed nowMs value) := by
  obtain ⟨entry, hl, rfl, -⟩ := h.expire httl htime
  simp only [ReuseStore.lookup, hl]

theorem Held.step (h : Held key value storedAtMs store) (httl : TtlFits store.limits)
    {event : Event α}
    (hkeeps : ∀ other nowMs, event = .store key other nowMs → r.accepts other = false)
    (hvictims : key ∉ victims r store event)
    (htime : InTime r storedAtMs store.limits.ttlSecs event) :
    Held key value storedAtMs (step r store event) := by
  cases event with
  | setLimits limits =>
    rw [ReuseStores.step, setLimits, enforceBounds, evict_eq]
    have hstart : Held key value storedAtMs { store with limits := limits } := h
    exact hstart.removeAll hvictims
  | lookup other nowMs =>
    obtain ⟨entry, hl, hvalue, hstored⟩ := h.expire httl htime
    rw [ReuseStores.step, ReuseStore.lookup]
    cases hfound : (store.expire nowMs).entries.lookup other with
    | none => exact ⟨entry, hl, hvalue, hstored⟩
    | some found =>
      by_cases hkey : key = other
      · subst hkey
        obtain rfl := Option.some.inj (hl.symm.trans hfound)
        exact ⟨_, AList.lookup_insert _, hvalue, hstored⟩
      · exact ⟨entry, (AList.lookup_insert_ne hkey).trans hl, hvalue, hstored⟩
  | store other new nowMs =>
    rw [ReuseStores.step]
    cases hacc : r.accepts new with
    | false =>
      rw [store_eq_of_refused hacc]
      exact h
    | true =>
      obtain ⟨entry, hl, hvalue, hstored⟩ := h.expire httl (htime hacc)
      have hkey : key ≠ other := by
        rintro rfl
        rw [hkeeps new nowMs rfl] at hacc
        cases hacc
      have hinserted : Held key value storedAtMs (store.inserted r other new nowMs) := by
        refine ⟨entry, ?_, hvalue, hstored⟩
        rw [inserted, AList.lookup_insert_ne hkey, lookup_remove, if_neg hkey]
        exact hl
      rw [victims, if_pos hacc] at hvictims
      rw [store_eq_of_accepts hacc, enforceBounds, evict_eq]
      exact hinserted.removeAll hvictims

theorem Held.run (after : List (Event α)) : ∀ {store : ReuseStore α},
    Held key value storedAtMs store → Sound r store → AllFit r store after → ∀ {nowMs : ℤ},
      Undisturbed r key storedAtMs store (after ++ [.lookup key nowMs]) →
      ((run r store after).lookup r key nowMs).2 = some (r.markReplayed nowMs value) := by
  induction after with
  | nil => exact fun h hsound _ _ hundist => h.lookup hsound.ttl hundist.2.2.1
  | cons event after ih =>
    intro store h hsound hfits nowMs hundist
    obtain ⟨hkeeps, hvictims, htime, hrest⟩ := hundist
    exact ih (h.step hsound.ttl hkeeps hvictims htime) (hsound.step hfits.1) hfits.2 hrest

end Stay

theorem run_append (store : ReuseStore α) (before after : List (Event α)) :
    run r store (before ++ after) = run r (run r store before) after := foldl_append ..

theorem allFit_append (before after : List (Event α)) : ∀ store : ReuseStore α,
    AllFit r store (before ++ after) ↔
      AllFit r store before ∧ AllFit r (run r store before) after := by
  induction before with
  | nil => exact fun store => by simp [AllFit, run]
  | cons event before ih => exact fun store => (and_congr_right fun _ => ih _).trans and_assoc.symm

theorem Sound.run (events : List (Event α)) : ∀ {store : ReuseStore α}, Sound r store →
    AllFit r store events → Sound r (run r store events) := by
  induction events with
  | nil => exact fun h _ => h
  | cons event events ih => exact fun h hfits => ih (h.step hfits.1) hfits.2

theorem noted_run (r : Reusable α) (limits : EvidenceCacheLimits) (events : List (Event α)) :
    Noted r events (run r (new limits) events) := by
  induction events using List.reverseRecOn with
  | nil => exact ⟨rfl, fun _ _ hl => (by cases hl), fun _ _ hl => (by cases hl)⟩
  | append_singleton events event ih =>
    rw [run_append]
    exact ih.step event

theorem evictions_oldest : ∀ {store : ReuseStore α} {earlier : List Text} {key : Text}
    {later : List Text}, evictions rounds store = earlier ++ key :: later →
      oldest (store.removeAll earlier).entries.entries = some key := by
  induction rounds with
  | zero =>
    intro store earlier key later h
    cases earlier <;> cases h
  | succ rounds ih =>
    intro store earlier key later h
    rw [evictions] at h
    split_ifs at h with hover
    · cases holdest : oldest store.entries.entries with
      | none =>
        rw [holdest] at h
        cases earlier <;> cases h
      | some victim =>
        rw [holdest] at h
        cases earlier with
        | nil =>
          obtain rfl := (List.cons.inj h).1
          exact holdest
        | cons first earlier =>
          obtain ⟨rfl, hrest⟩ := List.cons.inj h
          show oldest ((store.remove victim).removeAll earlier).entries.entries = some key
          exact ih hrest
    · cases earlier <;> cases h

variable {events : List (Event α)}

theorem victims_cases {store : ReuseStore α} (h : Noted r events store) (event : Event α) :
    victims r store event = [] ∨ Noted r (events ++ [event]) (loopStart r store event) ∧
      victims r store event =
        evictions (loopStart r store event).entries.entries.length (loopStart r store event) := by
  cases event with
  | lookup key nowMs => exact Or.inl rfl
  | setLimits limits => exact Or.inr ⟨h.loopStart _ nofun nofun, rfl⟩
  | store key value nowMs =>
    cases hacc : r.accepts value with
    | false =>
      rw [victims, if_neg (by rw [hacc]; exact Bool.false_ne_true)]
      exact Or.inl rfl
    | true =>
      rw [victims, if_pos hacc]
      refine Or.inr ⟨h.loopStart _ nofun ?_, rfl⟩
      intro _ _ _ heq
      cases heq
      exact hacc

theorem victim_last {store : ReuseStore α} (h : Noted r events store)
    {event : Event α} {earlier : List Text} {key : Text} {later : List Text}
    (hsplit : victims r store event = earlier ++ key :: later) :
    (((loopStart r store event).removeAll earlier).entries.lookup key).isSome ∧
      ∀ other, (((loopStart r store event).removeAll earlier).entries.lookup other).isSome →
        other ≠ key → lastUse r key (events ++ [event]) < lastUse r other (events ++ [event]) := by
  rcases victims_cases h event with hnil | ⟨hnoted, hvictims⟩
  · rw [hnil] at hsplit
    cases earlier <;> cases hsplit
  · rw [hvictims] at hsplit
    have hheld := hnoted.removeAll earlier
    obtain ⟨entry, hl, hleast⟩ := oldest_spec (evictions_oldest _ hsplit)
    refine ⟨by rw [hl]; rfl, fun other hother hne => ?_⟩
    obtain ⟨found, hfound⟩ := Option.isSome_iff_exists.mp hother
    obtain ⟨huse, hpos⟩ := hheld.used key entry hl
    have hle := hleast other found hfound
    have hdiffer := lastUse_ne hne.symm (events ++ [event]) (huse ▸ hpos)
    have hother := (hheld.used other found hfound).1
    omega

theorem found_last {store : ReuseStore α} (h : Noted r events store)
    (httl : TtlFits store.limits) {key : Text} {nowMs : ℤ} {replay : α}
    (hfound : (store.lookup r key nowMs).2 = some replay) :
    ∃ value storedAtMs, lastStored r key events = some (value, storedAtMs) ∧
      replay = r.markReplayed nowMs value ∧
      (store.limits.ttlSecs = 0 ∨ nowMs < storedAtMs + store.limits.ttlSecs * 1000) := by
  rw [ReuseStore.lookup] at hfound
  cases hl : (store.expire nowMs).entries.lookup key with
  | none =>
    simp only [hl] at hfound
    cases hfound
  | some entry =>
    simp only [hl] at hfound
    obtain ⟨hstored, htime⟩ := (lookup_expire httl nowMs key entry).mp hl
    exact ⟨entry.value, entry.storedAtMs, h.stored key entry hstored,
      (Option.some.inj hfound).symm, htime⟩

theorem held_store {store : ReuseStore α} {key : Text} {value : α} {storedAtMs : ℤ}
    (hacc : r.accepts value = true)
    (hvictims : key ∉ victims r store (.store key value storedAtMs)) :
    Held key value storedAtMs (step r store (.store key value storedAtMs)) := by
  have hinserted : Held key value storedAtMs (store.inserted r key value storedAtMs) :=
    ⟨_, AList.lookup_insert _, rfl, rfl⟩
  rw [victims, if_pos hacc] at hvictims
  rw [step, store_eq_of_accepts hacc, enforceBounds, evict_eq]
  exact hinserted.removeAll hvictims

/-- In every run whose times to live and sizes fit their types, the books are right, the bounds are
kept, and what is found is what was accepted and is neither replaced, evicted nor over its time. -/
theorem store_keeps_books (r : Reusable α) (limits : EvidenceCacheLimits)
    (events : List (Event α)) (hlimits : TtlFits limits) (hfits : AllFit r (new limits) events) :
    KeepsBooks r limits events := by
  have hsound := (sound_new (r := r) hlimits).run events hfits
  have hnoted := noted_run r limits events
  refine
    { bytes := hsound.books.bytes
      max_entries := (overLimits_eq_false.mp hsound.within).1
      max_bytes := (overLimits_eq_false.mp hsound.within).2
      ends := fun store rounds h => evict_ends rounds store h
      victim := fun event earlier key later hsplit => victim_last hnoted hsplit
      kept := ?_
      found := fun key nowMs replay h => found_last hnoted hsound.ttl h
      refused := fun key value nowMs h => store_eq_of_refused h }
  rintro before key value storedAtMs after nowMs rfl haccept hvictims hundisturbed
  rw [allFit_append] at hfits
  obtain ⟨hbefore, hstore, hafter⟩ := hfits
  have hstart := ((sound_new (r := r) hlimits).run before hbefore).step hstore
  rw [run_append] at hundisturbed ⊢
  exact (held_store haccept hvictims).run after hstart hafter hundisturbed

def passedRecord : EvidenceRecord where
  specId := ['s']
  specRevision := 1
  criterionIds := []
  required := true
  verdict := .passed
  outcome := .passed
  command := ['l', 's']
  argv := [['l', 's']]
  outputTail := ['o', 'k']
  startedAt := []
  finishedAt := []
  acceptedBy := none
  reason := none
  fromCache := false
  replayedAt := none

def storedOnce : List (Event EvidenceRecord) := [.store ['k'] passedRecord 0]

/-- A record that is held for an hour. -/
theorem hour_keeps_books :
    KeepsBooks (evidenceRecords fun _ => []) ⟨64, 1000000, 3600⟩ storedOnce ∧
      ((run (evidenceRecords fun _ => []) (new ⟨64, 1000000, 3600⟩) storedOnce).lookup
        (evidenceRecords fun _ => []) ['k'] 1000).2.isSome :=
  ⟨store_keeps_books _ _ _ (by unfold TtlFits; decide)
    ⟨fun _ => by decide, trivial⟩, by decide⟩

/-- With the longest time to live of all, nothing is ever found. -/
theorem longest_ttl_forgets :
    ¬ KeepsBooks (evidenceRecords fun _ => []) ⟨64, 1000000, 2 ^ 64 - 1⟩ storedOnce := by
  intro hkeeps
  have hfound := hkeeps.kept [] ['k'] passedRecord 0 [] 1 rfl (by decide)
    (by decide) ⟨fun _ _ hevent => (by cases hevent), not_mem_nil, Or.inr (by decide), trivial⟩
  revert hfound
  decide

end ReuseStores
