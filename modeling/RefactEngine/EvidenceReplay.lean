import RefactEngine.ReuseStores

/-! # A replay answers for the same contract

Where no text of a contract holds the separators that the key puts after it, the key tells the
contract; and every record of the cache stays under the key of the execution that gave it.
-/
namespace EvidenceCache

open List
open ReuseStores (ReuseStore evidenceRecords)

structure CollisionFree (sha256 : List UInt8 → Text) : Prop where
  injective : Function.Injective sha256
  hex : ∀ bytes, ∀ c ∈ sha256 bytes, c ∈ lit "0123456789abcdef"

structure SameContract (a b : Request) : Prop where
  specId : a.spec.specId = b.spec.specId
  revision : a.spec.revision = b.spec.revision
  required : a.spec.required = b.spec.required
  criterionIds : a.spec.criterionIds = b.spec.criterionIds
  argv : a.spec.argv = b.spec.argv
  cwd : a.spec.cwd = b.spec.cwd
  env : a.spec.allowedEnv = b.spec.allowedEnv
  inputs : a.inputs = b.inputs
  toolchain : a.spec.toolchainInputs = b.spec.toolchainInputs
  mode : a.policy.mode = b.policy.mode
  deny : ∀ rule, rule ∈ a.policy.deny ↔ rule ∈ b.policy.deny
  expectedExitCodes : a.spec.expectedExitCodes = b.spec.expectedExitCodes
  expectedArtifacts : a.spec.expectedArtifacts = b.spec.expectedArtifacts

def VerifyCommandPolicy.Separable (policy : VerifyCommandPolicy) : Prop :=
  ∀ rule ∈ policy.deny, rule ≠ [] ∧ ',' ∉ rule

/-- No text holds what the key puts after it, or what starts the next part; and the directory is
written as the key writes it. -/
structure Request.Separable (request : Request) : Prop where
  argv : ∀ argument ∈ request.spec.argv,
    fieldSeparator ∉ argument ∧ ¬ heading "cwd:" <+: argument
  cwd : ∀ cwd, request.spec.cwd = some cwd → cwd ≠ [] ∧ '\\' ∉ cwd ∧ ¬ heading "env:" <:+: cwd
  env : ∀ entry ∈ request.spec.allowedEnv, fieldSeparator ∉ entry.1 ∧ fieldSeparator ∉ entry.2 ∧
    '=' ∉ entry.1 ∧ ¬ heading "files:" <+: entry.1
  inputs : ∀ input ∈ request.inputs,
    fieldSeparator ∉ input.1 ∧ ¬ heading "toolchain:" <+: input.1
  toolchain : ∀ input ∈ request.spec.toolchainInputs,
    fieldSeparator ∉ input ∧ ¬ heading "policy:" <+: input
  policy : request.policy.Separable

theorem VerifyCommandPolicy.Separable.sorted {policy : VerifyCommandPolicy}
    (h : policy.Separable) :
    ∀ rule ∈ policy.deny.insertionSort (· ≤ ·), rule ≠ [] ∧ ',' ∉ rule :=
  fun rule hmem => h rule ((mem_insertionSort (· ≤ ·)).mp hmem)

theorem ApprovalMode.debugName_injective : Function.Injective ApprovalMode.debugName := by
  intro a b h
  cases a <;> cases b <;> first | rfl | exact absurd h (by decide)

theorem ApprovalMode.semicolon_notMem_debugName (mode : ApprovalMode) : ';' ∉ mode.debugName := by
  cases mode <;> decide

variable {a b : VerifyCommandPolicy}

theorem fingerprint_injective (ha : a.Separable) (hb : b.Separable)
    (h : a.fingerprint = b.fingerprint) : a.mode = b.mode ∧ a.deny.Perm b.deny := by
  unfold VerifyCommandPolicy.fingerprint at h
  have hmode := append_cancel_left h
  obtain ⟨hname, hrest⟩ := Delimits.terminated ';' a.mode.semicolon_notMem_debugName
    b.mode.semicolon_notMem_debugName hmode
  have hjoined := append_cancel_left hrest
  have hsort := intercalate_injective ha.sorted hb.sorted hjoined
  refine ⟨ApprovalMode.debugName_injective hname, ?_⟩
  have hperm := perm_insertionSort (· ≤ ·) a.deny
  rw [hsort] at hperm
  exact hperm.symm.trans (perm_insertionSort (· ≤ ·) b.deny)

variable (ruleMatches : Text → Text → Bool)

theorem check_isOk (policy : VerifyCommandPolicy) (command : Text) :
    (policy.check ruleMatches command).isOk = true ↔
      ∀ rule ∈ policy.deny, ruleMatches rule command = false := by
  unfold VerifyCommandPolicy.check
  cases hfind : policy.deny.find? fun rule => ruleMatches rule command with
  | none =>
    rw [List.find?_eq_none] at hfind
    simpa [Except.isOk, Except.toBool] using hfind
  | some rule =>
    have hmem := List.mem_of_find?_eq_some hfind
    have hmatches := List.find?_some hfind
    constructor
    · intro h
      cases h
    · intro h
      rw [h rule hmem] at hmatches
      cases hmatches

theorem check_eq_of_fingerprint (ha : a.Separable) (hb : b.Separable)
    (h : a.fingerprint = b.fingerprint) (command : Text) :
    (a.check ruleMatches command).isOk = (b.check ruleMatches command).isOk := by
  have hperm := (fingerprint_injective ha hb h).2
  rw [Bool.eq_iff_iff, check_isOk, check_isOk]
  exact ⟨fun hall rule hmem => hall rule (hperm.mem_iff.mpr hmem),
    fun hall rule hmem => hall rule (hperm.mem_iff.mp hmem)⟩

section Keys

variable {sha256 : List UInt8 → Text}

theorem CollisionFree.notMem (h : CollisionFree sha256) {c : Char}
    (hc : c ∉ lit "0123456789abcdef") (bytes : List UInt8) : c ∉ sha256 bytes :=
  fun hmem => hc (h.hex bytes c hmem)

theorem CollisionFree.ne_marked (h : CollisionFree sha256) (bytes : List UInt8) (mark : Text)
    (hmark : '<' ∈ mark) : sha256 bytes ≠ mark := by
  rintro rfl
  exact h.notMem (by decide) bytes hmark

theorem InputDigest.text_injective (h : CollisionFree sha256) :
    Function.Injective (InputDigest.text sha256) := by
  intro a b heq
  cases a with
  | contents bytes =>
    cases b with
    | contents bytes' => exact congrArg _ (h.injective heq)
    | absent => exact absurd heq (h.ne_marked bytes (lit "<absent>") (by decide))
    | refused => exact absurd heq (h.ne_marked bytes (lit "<refused>") (by decide))
    | unreadable => exact absurd heq (h.ne_marked bytes (lit "<unreadable>") (by decide))
  | absent =>
    cases b with
    | contents bytes =>
      exact absurd heq.symm (h.ne_marked bytes (lit "<absent>") (by decide))
    | absent => rfl
    | refused | unreadable => exact absurd heq (by simp [InputDigest.text, lit])
  | refused =>
    cases b with
    | contents bytes =>
      exact absurd heq.symm (h.ne_marked bytes (lit "<refused>") (by decide))
    | refused => rfl
    | absent | unreadable => exact absurd heq (by simp [InputDigest.text, lit])
  | unreadable =>
    cases b with
    | contents bytes =>
      exact absurd heq.symm (h.ne_marked bytes (lit "<unreadable>") (by decide))
    | unreadable => rfl
    | absent | refused => exact absurd heq (by simp [InputDigest.text, lit])

theorem InputDigest.notMem_text (h : CollisionFree sha256) {c : Char}
    (hc : c ∉ lit "0123456789abcdef<absent><refused><unreadable>") (digest : InputDigest) :
    c ∉ digest.text sha256 := by
  cases digest with
  | contents bytes =>
    apply h.notMem
    exact fun hmem => hc (by simp_all [lit])
  | absent => exact fun hmem => hc (by simp_all [lit, InputDigest.text])
  | refused => exact fun hmem => hc (by simp_all [lit, InputDigest.text])
  | unreadable => exact fun hmem => hc (by simp_all [lit, InputDigest.text])

theorem slashes_of_notMem {path : Text} (h : '\\' ∉ path) : slashes path = path := by
  have hsame : ∀ c ∈ path, (if c = '\\' then '/' else c) = c :=
    fun c hmem => if_neg (show ¬ c = '\\' from fun heq => h (heq ▸ hmem))
  exact (map_congr_left hsame).trans (map_id' path)

theorem Request.Separable.cwd_slashes {request : Request} (h : request.Separable) :
    request.spec.cwd.map slashes = request.spec.cwd := by
  cases hcwd : request.spec.cwd with
  | none => rfl
  | some cwd => exact congrArg some (slashes_of_notMem (h.cwd cwd hcwd).2.1)

theorem Request.Separable.readable {request : Request} (hfree : CollisionFree sha256)
    (h : request.Separable) :
    (CacheKeyInputs.collect sha256 request.spec request.inputs
      request.policy.fingerprint).Readable where
  argv := h.argv
  cwd := by
    change request.spec.cwd.map slashes ≠ some [] ∧
      ∀ cwd, request.spec.cwd.map slashes = some cwd → _
    rw [h.cwd_slashes]
    exact ⟨fun hempty => (h.cwd [] hempty).1 rfl, fun cwd hcwd => (h.cwd cwd hcwd).2.2⟩
  env := h.env
  files := by
    intro entry hmem
    obtain ⟨input, hinput, rfl⟩ := mem_map.mp hmem
    obtain ⟨hseparator, hheading⟩ := h.inputs input hinput
    exact ⟨hseparator, input.2.notMem_text hfree (by decide), input.2.notMem_text hfree (by decide),
      hheading⟩
  toolchain := h.toolchain

theorem sameContract_of_key (hfree : CollisionFree sha256) {a b : Request} (ha : a.Separable)
    (hb : b.Separable) (h : a.key sha256 = b.key sha256) : SameContract a b := by
  have hcanonical := utf8_injective (hfree.injective h)
  have heq := CacheKeyInputs.canonical_injective (ha.readable hfree) (hb.readable hfree) hcanonical
  have hcwd := congrArg CacheKeyInputs.cwd heq
  have hfiles := congrArg CacheKeyInputs.fileContents heq
  have hpolicy := congrArg CacheKeyInputs.policy heq
  obtain ⟨hmode, hdeny⟩ := fingerprint_injective ha.policy hb.policy hpolicy
  have hinput : Function.Injective fun input : Text × InputDigest =>
      (input.1, input.2.text sha256) := by
    intro input input' hpair
    obtain ⟨hpath, htext⟩ := Prod.mk.inj hpair
    exact Prod.ext hpath (InputDigest.text_injective hfree htext)
  exact {
    specId := congrArg CacheKeyInputs.specId heq
    revision := congrArg CacheKeyInputs.specRevision heq
    required := congrArg CacheKeyInputs.required heq
    criterionIds := congrArg CacheKeyInputs.criterionIds heq
    argv := congrArg CacheKeyInputs.argv heq
    cwd := (ha.cwd_slashes.symm.trans hcwd).trans hb.cwd_slashes
    env := congrArg CacheKeyInputs.env heq
    inputs := hinput.list_map hfiles
    toolchain := congrArg CacheKeyInputs.toolchain heq
    mode := hmode
    deny := fun _ => hdeny.mem_iff
    expectedExitCodes := congrArg CacheKeyInputs.expectedExitCodes heq
    expectedArtifacts := congrArg CacheKeyInputs.expectedArtifacts heq }

end Keys

section Records

open ReuseStores ReuseStores.ReuseStore

def Holds (P : Text → EvidenceRecord → Prop) (store : ReuseStore EvidenceRecord) : Prop :=
  ∀ key entry, store.entries.lookup key = some entry → P key entry.value

variable {P : Text → EvidenceRecord → Prop} {store : ReuseStore EvidenceRecord}

theorem Holds.mono {Q : Text → EvidenceRecord → Prop} (h : Holds P store)
    (himp : ∀ key record, P key record → Q key record) : Holds Q store :=
  fun key entry hlook => himp key entry.value (h key entry hlook)

theorem Holds.removeAll (h : Holds P store) (keys : List Text) :
    Holds P (store.removeAll keys) := by
  intro key entry hlook
  rw [lookup_removeAll] at hlook
  split_ifs at hlook
  exact h key entry hlook

theorem Holds.expire (h : Holds P store) (nowMs : ℤ) : Holds P (store.expire nowMs) := by
  unfold ReuseStore.expire
  split_ifs with hoff
  · exact h
  · exact h.removeAll _

theorem Holds.enforceBounds (h : Holds P store) : Holds P store.enforceBounds := by
  rw [ReuseStore.enforceBounds, evict_eq]
  exact h.removeAll _

theorem Holds.setLimits (h : Holds P store) (limits : EvidenceCacheLimits) :
    Holds P (store.setLimits limits) :=
  @Holds.enforceBounds P { store with limits := limits } h

theorem Holds.lookup (h : Holds P store) (rfc3339 : ℤ → Text) (key : Text) (nowMs : ℤ) :
    Holds P (store.lookup (evidenceRecords rfc3339) key nowMs).1 ∧
      ∀ replay, (store.lookup (evidenceRecords rfc3339) key nowMs).2 = some replay →
        ∃ record, P key record ∧ replay = record.markReplayed rfc3339 nowMs := by
  have hexp := h.expire nowMs
  unfold ReuseStore.lookup
  dsimp only
  cases hlook : (store.expire nowMs).entries.lookup key with
  | none => exact ⟨hexp, fun replay hnone => by cases hnone⟩
  | some entry =>
    have hentry := hexp key entry hlook
    refine ⟨fun key' entry' hlook' => ?_, fun replay hreplay => ?_⟩
    · dsimp only at hlook'
      rw [AList.lookup_insert_if] at hlook'
      split_ifs at hlook' with heq
      · obtain rfl := Option.some.inj hlook'
        exact heq ▸ hentry
      · exact hexp key' entry' hlook'
    · obtain rfl := Option.some.inj hreplay
      exact ⟨entry.value, hentry, rfl⟩

theorem Holds.put (h : Holds P store) {rfc3339 : ℤ → Text} {key : Text}
    {value : EvidenceRecord} (nowMs : ℤ)
    (hvalue : value.fromCache = false → value.isStorable = true → P key value) :
    Holds P (store.store (evidenceRecords rfc3339) key value nowMs).1 := by
  cases hacc : (evidenceRecords rfc3339).accepts value with
  | false =>
    rw [store_eq_of_refused hacc]
    exact h
  | true =>
    rw [store_eq_of_accepts hacc]
    apply Holds.enforceBounds
    intro key' entry' hlook'
    simp only [inserted] at hlook'
    rw [AList.lookup_insert_if] at hlook'
    split_ifs at hlook' with heq
    · obtain rfl := Option.some.inj hlook'
      subst heq
      simp only [Reusable.accepts, evidenceRecords, Bool.not_eq_true', Bool.or_eq_false_iff,
        Bool.not_eq_false'] at hacc
      exact hvalue hacc.1 hacc.2
    · exact (h.expire nowMs).removeAll [key] key' entry' hlook'

end Records

/-- An executed result whose contract is separable. -/
structure Executed (a : Answer) : Prop where
  replay : a.mode = .replay
  fresh : a.record.fromCache = false
  result : verdictIsCacheable a.record.verdict = true
  separable : a.request.Separable

def ReplayOf (rfc3339 : ℤ → Text) (earlier : List Answer) (a : Answer) : Prop :=
  a.mode = .replay ∧ ∃ e ∈ earlier, Executed e ∧ SameContract e.request a.request ∧
    ∃ nowMs, a.record = e.record.markReplayed rfc3339 nowMs

def Replays (rfc3339 : ℤ → Text) : List Answer → Prop
  | [] => True
  | a :: earlier =>
    (a.record.fromCache = true → ReplayOf rfc3339 earlier a) ∧ Replays rfc3339 earlier

def Stored (p : Platform) (answered : List Answer) (key : Text) (record : EvidenceRecord) : Prop :=
  ∃ a ∈ answered, Executed a ∧ a.request.key p.sha256 = key ∧ a.record = record

structure Kept (p : Platform) (h : History) : Prop where
  stored : Holds (Stored p h.answered) h.cache
  running : ∀ call ∈ h.running, ∀ key, call.key = some key →
    call.mode = .replay ∧ key = call.request.key p.sha256 ∧ call.request.Separable
  replays : Replays p.rfc3339 h.answered

def Event.Separable (p : Platform) : Event → Prop
  | .call spec policy .replay inputs _ now => ∀ accepted,
      acceptedSpec p policy spec now = .ok accepted → specIsCacheable accepted = .ok () →
        Request.Separable ⟨accepted, policy, inputs⟩
  | .call _ _ .revalidate _ _ _ | .finish _ _ | .setLimits _ => True

variable {answered : List Answer}

theorem Stored.cons {p : Platform} (a : Answer) (key : Text) (record : EvidenceRecord)
    (h : Stored p answered key record) : Stored p (a :: answered) key record := by
  obtain ⟨e, hmem, he⟩ := h
  exact ⟨e, mem_cons_of_mem a hmem, he⟩

theorem kept_initial (p : Platform) (limits : EvidenceCacheLimits) : Kept p (initial limits) where
  stored _ _ h := by cases h
  running _ hmem := by cases hmem
  replays := trivial

theorem cacheKey_eq_some {p : Platform} {mode : CacheMode} {request : Request} {key : Text}
    (h : cacheKey p mode request = some key) :
    mode = .replay ∧ specIsCacheable request.spec = .ok () ∧ key = request.key p.sha256 := by
  unfold cacheKey at h
  cases mode with
  | revalidate => cases h
  | replay =>
    dsimp only at h
    cases hcacheable : specIsCacheable request.spec with
    | ok _ =>
      rw [hcacheable] at h
      exact ⟨rfl, rfl, (Option.some.inj h).symm⟩
    | error _ =>
      rw [hcacheable] at h
      cases h

theorem fromCache_execute (spec : VerificationSpec) (execution : Execution) :
    (execute spec execution).fromCache = false := by
  unfold execute
  split_ifs <;> rfl

section Steps

variable {p : Platform} {h : History}

theorem Kept.answer (hk : Kept p h) (a : Answer) (hfresh : a.record.fromCache = false) :
    Kept p { h with answered := a :: h.answered } where
  stored := hk.stored.mono fun key record hstored => hstored.cons a key record
  running := hk.running
  replays := by
    refine ⟨fun hcache => ?_, hk.replays⟩
    rw [hfresh] at hcache
    cases hcache

theorem Kept.start (hk : Kept p h) (call : Call)
    (hcall : ∀ key, call.key = some key →
      call.mode = .replay ∧ key = call.request.key p.sha256 ∧ call.request.Separable) :
    Kept p { h with running := h.running ++ [call] } where
  stored := hk.stored
  running other hmem := by
    rcases mem_append.mp hmem with hold | hlast
    · exact hk.running other hold
    · rw [mem_singleton.mp hlast]
      exact hcall
  replays := hk.replays

theorem Kept.begin (hk : Kept p h) (hfree : CollisionFree p.sha256) (request : Request)
    (mode : CacheMode) (nowMs : ℤ)
    (hseparable : mode = .replay → specIsCacheable request.spec = .ok () → request.Separable) :
    Kept p (h.begin p request mode nowMs) := by
  unfold History.begin
  cases hkey : cacheKey p mode request with
  | none => exact hk.start _ fun key hsome => by cases hsome
  | some key =>
    obtain ⟨hmode, hcacheable, rfl⟩ := cacheKey_eq_some hkey
    have hrequest := hseparable hmode hcacheable
    obtain ⟨hcache, hhit⟩ := hk.stored.lookup p.rfc3339 (request.key p.sha256) nowMs
    dsimp only
    cases hlook : h.cache.lookup (evidenceRecords p.rfc3339) (request.key p.sha256) nowMs with
    | mk cache hit =>
      rw [hlook] at hcache hhit
      have hafter : Kept p { h with cache := cache } := ⟨hcache, hk.running, hk.replays⟩
      cases hit with
      | none =>
        refine hafter.start ⟨request, mode, _, nowMs⟩ fun key hsome => ?_
        exact ⟨hmode, (Option.some.inj hsome).symm, hrequest⟩
      | some replay =>
        obtain ⟨record, ⟨e, hmem, hexecuted, hsame, rfl⟩, rfl⟩ := hhit replay rfl
        refine ⟨hcache.mono fun key record hstored => hstored.cons _ key record, hk.running,
          fun _ => ⟨hmode, e, hmem, hexecuted, ?_, nowMs, rfl⟩, hk.replays⟩
        exact sameContract_of_key hfree hexecuted.separable hrequest hsame

theorem Kept.finish (hk : Kept p h) (index : ℕ) (execution : Execution) :
    Kept p (step p h (.finish index execution)) := by
  cases hcall : h.running[index]? with
  | none => simpa only [step, hcall] using hk
  | some call =>
    simp only [step, hcall]
    have hrunning := hk.running call (mem_of_getElem? hcall)
    have hfresh := fromCache_execute call.request.spec execution
    have hans := hk.answer ⟨call.request, call.mode, execute call.request.spec execution⟩ hfresh
    refine ⟨?_, fun other hmem => hk.running other (mem_of_mem_eraseIdx hmem),
      hans.replays⟩
    cases hkey : call.key with
    | none => exact hans.stored
    | some key =>
      obtain ⟨hmode, rfl, hseparable⟩ := hrunning key hkey
      exact hans.stored.put call.nowMs fun _ hstorable =>
        ⟨_, mem_cons_self, ⟨hmode, hfresh, hstorable, hseparable⟩, rfl, rfl⟩

theorem kept_step (hfree : CollisionFree p.sha256) (hk : Kept p h) {event : Event}
    (hevent : event.Separable p) : Kept p (step p h event) := by
  cases event with
  | call spec policy mode inputs nowMs now =>
    unfold step
    dsimp only
    cases hacc : acceptedSpec p policy spec now with
    | error rejection => exact hk.answer _ rfl
    | ok accepted =>
      refine hk.begin hfree _ mode nowMs fun hmode hcacheable => ?_
      subst hmode
      exact hevent accepted hacc hcacheable
  | finish index execution => exact hk.finish index execution
  | setLimits limits => exact ⟨hk.stored.setLimits limits, hk.running, hk.replays⟩

theorem kept_run (hfree : CollisionFree p.sha256) (hk : Kept p h) {events : List Event}
    (hevents : ∀ event ∈ events, event.Separable p) : Kept p (run p h events) := by
  induction events generalizing h with
  | nil => exact hk
  | cons event events ih =>
    exact ih (kept_step hfree hk (hevents event mem_cons_self))
      fun other hmem => hevents other (mem_cons_of_mem _ hmem)

end Steps

structure Faithful (p : Platform) (h : History) : Prop where
  replays : Replays p.rfc3339 h.answered
  revalidated : ∀ a ∈ h.answered, a.mode = .revalidate → a.record.fromCache = false
  unread : ∀ spec policy inputs nowMs now,
    (step p h (.call spec policy .revalidate inputs nowMs now)).cache = h.cache
  unwritten : ∀ index call execution, h.running[index]? = some call → call.mode = .revalidate →
    (step p h (.finish index execution)).cache = h.cache

theorem Replays.mode {rfc3339 : ℤ → Text} (h : Replays rfc3339 answered) {a : Answer}
    (hmem : a ∈ answered) (hcache : a.record.fromCache = true) : a.mode = .replay := by
  induction answered with
  | nil => cases hmem
  | cons b earlier ih =>
    rcases mem_cons.mp hmem with rfl | hearly
    · exact (h.1 hcache).1
    · exact ih h.2 hearly

theorem Kept.faithful {p : Platform} {h : History} (hk : Kept p h) : Faithful p h where
  replays := hk.replays
  revalidated a hmem hmode := by
    rw [Bool.eq_false_iff]
    intro hcache
    have hreplay := hk.replays.mode hmem hcache
    rw [hmode] at hreplay
    cases hreplay
  unread spec policy inputs nowMs now := by
    unfold step
    dsimp only
    cases acceptedSpec p policy spec now with
    | error rejection => rfl
    | ok accepted => rfl
  unwritten index call execution hcall hmode := by
    simp only [step, hcall]
    cases hkey : call.key with
    | none => rfl
    | some key =>
      have hreplay := (hk.running call (mem_of_getElem? hcall) key hkey).1
      rw [hmode] at hreplay
      cases hreplay

/-- With digests that do not collide: separable requests with one key have the same contract,
separable policies with one fingerprint judge alike, and from an empty cache on, while the requests
that ask it are separable, a replay is the result of an earlier execution of the same contract. -/
theorem replays_same_contract {p : Platform} (hfree : CollisionFree p.sha256)
    (limits : EvidenceCacheLimits) {events : List Event}
    (hevents : ∀ event ∈ events, event.Separable p) :
    (∀ a b : Request, a.Separable → b.Separable → a.key p.sha256 = b.key p.sha256 →
      SameContract a b) ∧
    (∀ a b : VerifyCommandPolicy, a.Separable → b.Separable → a.fingerprint = b.fingerprint →
      ∀ command, (a.check p.ruleMatches command).isOk = (b.check p.ruleMatches command).isOk) ∧
    Faithful p (run p (initial limits) events) :=
  ⟨fun _ _ ha hb hkey => sameContract_of_key hfree ha hb hkey,
    fun _ _ ha hb hsame => check_eq_of_fingerprint p.ruleMatches ha hb hsame,
    (kept_run hfree (kept_initial p limits) hevents).faithful⟩

def hexDigest (bytes : List UInt8) : Text :=
  bytes.flatMap fun b => [Nat.digitChar (b.toNat / 16), Nat.digitChar (b.toNat % 16)]

open JsonText in
theorem collisionFree_hexDigest : CollisionFree hexDigest where
  injective := by
    have hbyte : Delimits (fun _ : UInt8 => True)
        fun b => [Nat.digitChar (b.toNat / 16), Nat.digitChar (b.toNat % 16)] := by
      refine .of_decode (fun text => text.head?.bind fun high => text.tail.head?.map fun low =>
        (UInt8.ofNat (16 * hexValue high + hexValue low), text.tail.tail)) fun b rest _ => ?_
      have hlt := b.toNat_lt
      have hhigh := hexValue_digitChar (b.toNat / 16) (by omega)
      have hlow := hexValue_digitChar (b.toNat % 16) (by omega)
      have hsum : 16 * (b.toNat / 16) + b.toNat % 16 = b.toNat := Nat.div_add_mod _ _
      simp only [cons_append, nil_append, head?_cons, tail_cons, Option.bind_some, Option.map_some,
        hhigh, hlow, hsum, UInt8.ofNat_toNat]
    exact hbyte.flatMap_injective fun b hnil => by cases hnil
  hex bytes c hmem := by
    have hdigit : ∀ n < 16, Nat.digitChar n ∈ lit "0123456789abcdef" := by decide
    obtain ⟨b, -, hc⟩ := mem_flatMap.mp hmem
    have hlt := b.toNat_lt
    rcases mem_cons.mp hc with rfl | hc
    · exact hdigit _ (by omega)
    · obtain rfl := mem_singleton.mp hc
      exact hdigit _ (by omega)

def cargoTest (arguments : List Text) : VerificationSpec where
  specId := lit "S-1"
  revision := 1
  criterionIds := []
  required := true
  command := lit "cargo test"
  proposedBy := .cardInstructions
  accepted := some ⟨evidencePolicyAuthority, lit "2026-01-01", .cardInstructions⟩
  argv := lit "cargo" :: lit "test" :: arguments
  cwd := none
  env := []
  envAllowlist := []
  expectedExitCodes := [0]
  expectedArtifacts := []
  toolchainInputs := []
  cache := ⟨[lit "src"], false, false, false⟩

def onSource (spec : VerificationSpec) : Request :=
  ⟨spec, ⟨[lit "rm", lit "sudo*"], .yolo⟩, [(lit "src/lib.rs", .contents [102, 110])]⟩

def onePlatform : Platform where
  sha256 := hexDigest
  ruleMatches rule command := decide (rule = command)
  parseVerificationArgv command := .ok ⟨none, [], [command]⟩
  unparseableProposalProseReason _ := none
  validateProposal _ := .ok ()
  rfc3339 _ := lit "now"

def passedRun : Execution :=
  ⟨.passed, .passed, lit "cargo test", lit "ok", lit "10:00", lit "10:01", none⟩

def twoCalls : List Event :=
  let request := onSource (cargoTest [])
  [.call request.spec request.policy .replay request.inputs 0 (lit "10:00"), .finish 0 passedRun,
    .call request.spec request.policy .replay request.inputs 1000 (lit "10:02")]

theorem separable_cargoTest : (onSource (cargoTest [])).Separable where
  argv := by decide
  cwd cwd hcwd := by cases hcwd
  env := by decide
  inputs := by decide
  toolchain := by decide
  policy := by
    unfold VerifyCommandPolicy.Separable
    decide

/-- The second call is answered from the cache. -/
theorem replays_cargoTest :
    (run onePlatform (initial ⟨64, 1048576, 3600⟩) twoCalls).answered.map (·.record.fromCache) =
      [true, false] ∧
    Faithful onePlatform (run onePlatform (initial ⟨64, 1048576, 3600⟩) twoCalls) := by
  refine ⟨by decide +kernel, ?_⟩
  refine (replays_same_contract collisionFree_hexDigest ⟨64, 1048576, 3600⟩
    fun event hmem => ?_).2.2
  simp only [twoCalls, mem_cons, not_mem_nil, or_false] at hmem
  rcases hmem with rfl | rfl | rfl
  · intro accepted haccepted _
    obtain rfl : cargoTest [] = accepted := Except.ok.inj haccepted
    exact separable_cargoTest
  · trivial
  · intro accepted haccepted _
    obtain rfl : cargoTest [] = accepted := Except.ok.inj haccepted
    exact separable_cargoTest

theorem key_eq_of_split (sha256 : List UInt8 → Text) (request : Request)
    (before after : List Text) (left right : Text) :
    Request.key sha256 { request with spec := { request.spec with
      argv := before ++ (left ++ fieldSeparator :: right) :: after } } =
    Request.key sha256 { request with spec := { request.spec with
      argv := before ++ left :: right :: after } } := by
  unfold Request.key CacheKeyInputs.key
  congr 2
  simp only [CacheKeyInputs.canonical, CacheKeyInputs.json, CacheKeyInputs.collect, field,
    VerificationSpec.allowedEnv, flatMap_append, flatMap_cons, append_assoc,
    cons_append, nil_append]

/-- Two contracts with one key, whatever the digest: `"a\u{1e}b"` is one argument of the first and
two of the second. And two policies with one fingerprint: only the first one refuses `rm`. -/
theorem keys_collide :
    (∀ sha256, (onSource (cargoTest [['a', fieldSeparator, 'b']])).key sha256 =
      (onSource (cargoTest [['a'], ['b']])).key sha256) ∧
    ¬ SameContract (onSource (cargoTest [['a', fieldSeparator, 'b']]))
      (onSource (cargoTest [['a'], ['b']])) ∧
    VerifyCommandPolicy.fingerprint ⟨[lit "ls", lit "rm"], .yolo⟩ =
      VerifyCommandPolicy.fingerprint ⟨[lit "ls,rm"], .yolo⟩ ∧
    (VerifyCommandPolicy.check onePlatform.ruleMatches ⟨[lit "ls", lit "rm"], .yolo⟩
      (lit "rm")).isOk ≠
      (VerifyCommandPolicy.check onePlatform.ruleMatches ⟨[lit "ls,rm"], .yolo⟩
        (lit "rm")).isOk := by
  refine ⟨fun sha256 => ?_, fun hsame => ?_, by decide, by decide⟩
  · exact key_eq_of_split sha256 (onSource (cargoTest [])) [lit "cargo", lit "test"] [] ['a'] ['b']
  · have hargv := hsame.argv
    revert hargv
    decide

end EvidenceCache
