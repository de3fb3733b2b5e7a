import RefactEngine.CoordinationSettings
import RefactEngine.FiniteMap
import RefactEngine.TextLines

/-! # Grants of peer authority

A user confirms a grant; a role passes a grant of its assigner on. A role grant is proposed against
the registry and written later, and the registry may change in between.
-/
namespace PeerGrants

open CoordinationSettings (isWhitespace)
open List
open TextLines

abbrev Text := List Char

section Chains

variable {α β : Type*}

inductive Rooted (roots : α → Prop) (links : β → Prop) (basis : β → Option α) (result : β → α) :
    α → Prop where
  | root {a : α} : roots a → Rooted roots links basis result a
  | link {l : β} {b : α} : links l → basis l = some b → Rooted roots links basis result b →
      Rooted roots links basis result (result l)

variable {roots roots' : α → Prop} {links links' : β → Prop} {basis : β → Option α} {result : β → α}

theorem Rooted.mono (hroots : ∀ a, roots a → roots' a) (hlinks : ∀ l, links l → links' l) {a : α}
    (h : Rooted roots links basis result a) : Rooted roots' links' basis result a := by
  induction h with
  | root ha => exact .root (hroots _ ha)
  | link hl hb _ ih => exact .link (hlinks _ hl) hb ih

/-- Links that never exceed their basis never exceed a root, however many there are. -/
theorem Rooted.covered {covers : α → α → Prop} (hrefl : ∀ a, covers a a)
    (htrans : ∀ {a b c}, covers a b → covers b c → covers a c)
    (hlinks : ∀ l b, links l → basis l = some b → covers b (result l)) {a : α}
    (h : Rooted roots links basis result a) : ∃ r, roots r ∧ covers r a := by
  induction h with
  | root ha => exact ⟨_, ha, hrefl _⟩
  | link hl hb _ ih =>
    obtain ⟨r, hr, hcovers⟩ := ih
    exact ⟨r, hr, htrans hcovers (hlinks _ _ hl hb)⟩

end Chains

inductive PeerAuthority where
  | metadata
  | mail
  | control
  deriving DecidableEq

def PeerAuthority.rank : PeerAuthority → ℕ
  | .metadata => 1
  | .mail => 2
  | .control => 3

def PeerAuthority.allows (held required : PeerAuthority) : Bool :=
  decide (required.rank ≤ held.rank)

structure PeerGrant where
  project : Text
  senderRoot : Text
  recipientRoot : Text
  authority : PeerAuthority
  grantedBy : Text
  expiresAtMs : ℕ
  deriving DecidableEq

abbrev Key := Text × Text × Text

def PeerGrant.key (grant : PeerGrant) : Key :=
  (grant.project, grant.senderRoot, grant.recipientRoot)

abbrev Grants := AList fun _ : Key => PeerGrant

structure PeerSettings where
  peerGrantMaxTtlSecs : ℕ
  peerGrantMaxCount : ℕ
  deriving DecidableEq

def blank (text : Text) : Bool := decide (trimBy isWhitespace text = [])

variable (grants : Grants)

def retainLive (nowMs : ℕ) : Grants :=
  grants.retain fun _ existing => decide (nowMs < existing.expiresAtMs)

/-- Expired grants are dropped also when the grant is refused for the grants that are there. -/
def grant (settings : PeerSettings) (grants : Grants) (grant : PeerGrant) (nowMs : ℕ) :
    Grants × Except Text Unit :=
  if blank grant.project ∨ blank grant.senderRoot ∨ blank grant.recipientRoot ∨
      blank grant.grantedBy ∨ grant.senderRoot = grant.recipientRoot then
    (grants, .error "peer grant identities must be distinct and nonempty".toList)
  else if grant.expiresAtMs ≤ nowMs then
    (grants, .error "peer grant is already expired".toList)
  else
    let live := retainLive grants nowMs
    match live.lookup grant.key with
    | some existing =>
      if grant.authority.rank < existing.authority.rank then
        (live, .error "peer grant cannot be silently narrowed or replaced".toList)
      else (live.insert grant.key grant, .ok ())
    | none =>
      if settings.peerGrantMaxCount ≤ live.entries.length then
        (live, .error "peer grant registry is full".toList)
      else (live.insert grant.key grant, .ok ())

def allows (grants : Grants) (project senderRoot recipientRoot : Text) (required : PeerAuthority)
    (nowMs : ℕ) : Grants × Bool :=
  let live := retainLive grants nowMs
  (live, (live.lookup (project, senderRoot, recipientRoot)).any fun grant =>
    grant.authority.allows required)

def get (project senderRoot recipientRoot : Text) (nowMs : ℕ) :
    Option PeerGrant :=
  (grants.lookup (project, senderRoot, recipientRoot)).filter fun grant =>
    decide (nowMs < grant.expiresAtMs)

def revoke (project senderRoot recipientRoot : Text) : Grants × Bool :=
  (grants.erase (project, senderRoot, recipientRoot),
    (grants.lookup (project, senderRoot, recipientRoot)).isSome)

structure RoleSpec where
  name : Text
  authorityCeiling : Option PeerAuthority
  peerMailTtlSecs : ℕ
  deriving DecidableEq

structure RoleAssignment where
  team : Text
  project : Text
  assignerRoot : Text
  memberRoot : Text
  recipientRoot : Text
  deriving DecidableEq

structure RoleGrantProposal where
  grant : PeerGrant
  deriving DecidableEq

inductive RoleRefusal where
  | roleConfersNoAuthority (role : Text)
  | aboveRoleCeiling (role : Text) (ceiling requested : PeerAuthority)
  | assignerLacksAuthority (assignerRoot recipientRoot : Text) (requested : PeerAuthority)
  | memberIsAssigner
  | indistinctIdentities
  deriving DecidableEq

def u64Max : ℕ := 2 ^ 64 - 1

def saturatingAdd (a b : ℕ) : ℕ := min (a + b) u64Max

def saturatingMul (a b : ℕ) : ℕ := min (a * b) u64Max

variable (settings : PeerSettings)

def roleGrant (role : RoleSpec) (assignment : RoleAssignment)
    (requested : PeerAuthority) (assignerGrant : PeerGrant) (nowMs : ℕ) : PeerGrant where
  project := assignment.project
  senderRoot := assignment.memberRoot
  recipientRoot := assignment.recipientRoot
  authority := requested
  grantedBy := "role:".toList ++ assignment.team ++ "/".toList ++ role.name ++
    " assigned by ".toList ++ assignment.assignerRoot
  expiresAtMs :=
    min (min (saturatingAdd nowMs (saturatingMul role.peerMailTtlSecs 1000))
      assignerGrant.expiresAtMs)
      (saturatingAdd nowMs (saturatingMul settings.peerGrantMaxTtlSecs 1000))

def proposeRoleGrant (registry : Grants) (role : RoleSpec)
    (assignment : RoleAssignment) (requested : PeerAuthority) (nowMs : ℕ) :
    Except RoleRefusal RoleGrantProposal :=
  if assignment.memberRoot = assignment.assignerRoot then .error .memberIsAssigner
  else if blank assignment.project ∨ blank assignment.assignerRoot ∨
      blank assignment.memberRoot ∨ blank assignment.recipientRoot ∨
      assignment.memberRoot = assignment.recipientRoot then .error .indistinctIdentities
  else
    match role.authorityCeiling with
    | none => .error (.roleConfersNoAuthority role.name)
    | some ceiling =>
      if ceiling.allows requested = false then
        .error (.aboveRoleCeiling role.name ceiling requested)
      else
        match (get registry assignment.project assignment.assignerRoot assignment.recipientRoot
            nowMs).filter fun grant => grant.authority.allows requested with
        | none =>
          .error (.assignerLacksAuthority assignment.assignerRoot assignment.recipientRoot requested)
        | some assignerGrant =>
          .ok ⟨roleGrant settings role assignment requested assignerGrant nowMs⟩

def applyRoleGrant (registry : Grants) (proposal : RoleGrantProposal)
    (nowMs : ℕ) : Grants × Except Text Unit :=
  grant settings registry proposal.grant nowMs

structure Made where
  role : RoleSpec
  assignment : RoleAssignment
  requested : PeerAuthority
  proposedAt : ℕ
  basis : PeerGrant
  proposal : RoleGrantProposal
  deriving DecidableEq

/-- A proposal that was written, with the grant that the assigner held at that moment. -/
structure Application where
  made : Made
  appliedAt : ℕ
  held : Option PeerGrant
  deriving DecidableEq

structure History where
  grants : Grants
  made : List Made
  /-- The grants that a user confirmed. -/
  confirmed : List PeerGrant
  applied : List Application
  /-- The application that wrote the grant under a key last, unless a user did. -/
  origin : Key → Option Application

def initial : History := ⟨∅, [], [], [], fun _ => none⟩

inductive Event where
  | grant (grant : PeerGrant) (nowMs : ℕ)
  | propose (role : RoleSpec) (assignment : RoleAssignment) (requested : PeerAuthority) (nowMs : ℕ)
  /-- Writes one of the proposals made so far. -/
  | apply (index : ℕ) (nowMs : ℕ)
  | revoke (project senderRoot recipientRoot : Text)
  | allows (project senderRoot recipientRoot : Text) (required : PeerAuthority) (nowMs : ℕ)
  | get (project senderRoot recipientRoot : Text) (nowMs : ℕ)

def heldBy (assignment : RoleAssignment) (nowMs : ℕ) : Option PeerGrant :=
  get grants assignment.project assignment.assignerRoot assignment.recipientRoot nowMs

variable (h : History)

def recordGrant (grant : PeerGrant) : Grants × Except Text Unit → History
  | (grants, .error _) => { h with grants }
  | (grants, .ok ()) =>
    { h with
      grants
      confirmed := h.confirmed ++ [grant]
      origin := Function.update h.origin grant.key none }

def recordApplication (application : Application) :
    Grants × Except Text Unit → History
  | (grants, .error _) => { h with grants }
  | (grants, .ok ()) =>
    { h with
      grants
      applied := h.applied ++ [application]
      origin := Function.update h.origin application.made.proposal.grant.key (some application) }

def advance : Event → History
  | .grant g nowMs => recordGrant h g (grant settings h.grants g nowMs)
  | .propose role assignment requested nowMs =>
    match proposeRoleGrant settings h.grants role assignment requested nowMs,
        heldBy h.grants assignment nowMs with
    | .ok proposal, some basis =>
      { h with made := h.made ++ [⟨role, assignment, requested, nowMs, basis, proposal⟩] }
    | _, _ => h
  | .apply index nowMs =>
    match h.made[index]? with
    | none => h
    | some made =>
      recordApplication h ⟨made, nowMs, heldBy h.grants made.assignment nowMs⟩
        (applyRoleGrant settings h.grants made.proposal nowMs)
  | .revoke project senderRoot recipientRoot =>
    { h with grants := (revoke h.grants project senderRoot recipientRoot).1 }
  | .allows project senderRoot recipientRoot required nowMs =>
    { h with grants := (allows h.grants project senderRoot recipientRoot required nowMs).1 }
  | .get _ _ _ _ => h

def run (events : List Event) : History :=
  events.foldl (advance settings) initial

/-- The first grant reaches the same recipient in the same project with as much authority and for as
long. -/
structure Covers (basis grant : PeerGrant) : Prop where
  project : basis.project = grant.project
  recipient : basis.recipientRoot = grant.recipientRoot
  authority : basis.authority.allows grant.authority = true
  expiry : grant.expiresAtMs ≤ basis.expiresAtMs

/-- What follows from the confirmed grants, where every role grant has the basis that is given. -/
def Follows (basis : Application → Option PeerGrant) : PeerGrant → Prop :=
  Rooted (· ∈ h.confirmed) (· ∈ h.applied) basis fun application => application.made.proposal.grant

/-- The role grant was written while the assigner held a grant that covers it, which came about in
the same way; its role allows it, and it lasts no longer than the longest term after its proposal.
-/
structure PassedOn (settings : PeerSettings) (h : History) (application : Application) : Prop where
  ceiling : ∃ ceiling, application.made.role.authorityCeiling = some ceiling ∧
    ceiling.allows application.made.proposal.grant.authority = true
  term : application.made.proposal.grant.expiresAtMs ≤
    application.made.proposedAt + settings.peerGrantMaxTtlSecs * 1000
  held : ∃ basis, application.held = some basis ∧
    basis.senderRoot = application.made.assignment.assignerRoot ∧
    application.appliedAt < basis.expiresAtMs ∧
    Covers basis application.made.proposal.grant ∧ Follows h Application.held basis

/-- When a proposal is written, the assigner's grant has not been revoked, has not expired and was
not replaced by a weaker or shorter one. -/
def StillHeld : Event → Prop
  | .apply index nowMs => ∀ made, h.made[index]? = some made →
      ∃ basis, heldBy h.grants made.assignment nowMs = some basis ∧
        basis.authority.allows made.requested = true ∧
        made.proposal.grant.expiresAtMs ≤ basis.expiresAtMs
  | _ => True

def Throughout (settings : PeerSettings) (P : History → Event → Prop) : History → List Event → Prop
  | _, [] => True
  | h, event :: events => P h event ∧ Throughout settings P (advance settings h event) events

theorem Covers.refl (grant : PeerGrant) : Covers grant grant :=
  ⟨rfl, rfl, decide_eq_true le_rfl, le_rfl⟩

theorem allows_trans {a b c : PeerAuthority} (hab : a.allows b = true) (hbc : b.allows c = true) :
    a.allows c = true := by
  rw [PeerAuthority.allows, decide_eq_true_eq] at hab hbc ⊢
  exact hbc.trans hab

theorem Covers.trans {a b c : PeerGrant} (hab : Covers a b) (hbc : Covers b c) : Covers a c :=
  ⟨hab.project.trans hbc.project, hab.recipient.trans hbc.recipient,
    allows_trans hab.authority hbc.authority, hbc.expiry.trans hab.expiry⟩

variable {g : PeerGrant} {grants : Grants} {nowMs : ℕ}

theorem lookup_retainLive {key : Key} (h : (retainLive grants nowMs).lookup key = some g) :
    grants.lookup key = some g :=
  (AList.lookup_retain.mp h).1

/-- A grant that is refused leaves some of the grants; one that is written joins the live ones. -/
theorem grant_cases (settings : PeerSettings) (grants : Grants) (g : PeerGrant) (nowMs : ℕ) :
    (∃ kept reason, grant settings grants g nowMs = (kept, .error reason) ∧
      ∀ key found, kept.lookup key = some found → grants.lookup key = some found) ∨
    grant settings grants g nowMs = ((retainLive grants nowMs).insert g.key g, .ok ()) := by
  rw [grant]
  by_cases hnames : blank g.project ∨ blank g.senderRoot ∨ blank g.recipientRoot ∨
      blank g.grantedBy ∨ g.senderRoot = g.recipientRoot
  · rw [if_pos hnames]
    exact Or.inl ⟨_, _, rfl, fun _ _ hl => hl⟩
  rw [if_neg hnames]
  by_cases hexp : g.expiresAtMs ≤ nowMs
  · rw [if_pos hexp]
    exact Or.inl ⟨_, _, rfl, fun _ _ hl => hl⟩
  rw [if_neg hexp]
  cases hold : (retainLive grants nowMs).lookup g.key with
  | some existing =>
    simp only [hold]
    by_cases hnarrow : g.authority.rank < existing.authority.rank
    · rw [if_pos hnarrow]
      exact Or.inl ⟨_, _, rfl, fun _ _ hl => lookup_retainLive hl⟩
    · rw [if_neg hnarrow]
      exact Or.inr rfl
  | none =>
    simp only [hold]
    by_cases hfull : settings.peerGrantMaxCount ≤ (retainLive grants nowMs).entries.length
    · rw [if_pos hfull]
      exact Or.inl ⟨_, _, rfl, fun _ _ hl => lookup_retainLive hl⟩
    · rw [if_neg hfull]
      exact Or.inr rfl

theorem lookup_written {found : PeerGrant} {key : Key}
    (h : ((retainLive grants nowMs).insert g.key g).lookup key = some found) :
    key = g.key ∧ found = g ∨ key ≠ g.key ∧ grants.lookup key = some found := by
  rw [AList.lookup_insert_if] at h
  split_ifs at h with hkey
  · exact Or.inl ⟨hkey, (Option.some.inj h).symm⟩
  · exact Or.inr ⟨hkey, lookup_retainLive h⟩

variable {recipientRoot senderRoot project : Text}

theorem get_eq_some_iff : get grants project senderRoot recipientRoot nowMs = some g ↔
      grants.lookup (project, senderRoot, recipientRoot) = some g ∧ nowMs < g.expiresAtMs := by
  rw [get, Option.filter_eq_some_iff, decide_eq_true_eq]

variable {proposal : RoleGrantProposal} {assignment : RoleAssignment} {requested : PeerAuthority}

theorem proposeRoleGrant_spec {settings : PeerSettings} {registry : Grants} {role : RoleSpec}
    {basis : PeerGrant}
    (hok : proposeRoleGrant settings registry role assignment requested nowMs = .ok proposal)
    (hbasis : heldBy registry assignment nowMs = some basis) :
    (∃ ceiling, role.authorityCeiling = some ceiling ∧ ceiling.allows requested = true) ∧
      basis.authority.allows requested = true ∧
      proposal.grant = roleGrant settings role assignment requested basis nowMs := by
  rw [heldBy] at hbasis
  rw [proposeRoleGrant] at hok
  split_ifs at hok
  cases hceiling : role.authorityCeiling with
  | none => rw [hceiling] at hok; cases hok
  | some ceiling =>
    simp only [hceiling, hbasis] at hok
    split_ifs at hok with hallows
    rw [Option.filter_some] at hok
    by_cases hauth : basis.authority.allows requested = true
    · rw [if_pos hauth] at hok
      cases hok
      exact ⟨⟨ceiling, rfl, Bool.of_not_eq_false hallows⟩, hauth, rfl⟩
    · rw [if_neg hauth] at hok
      cases hok

structure Checked (settings : PeerSettings) (made : Made) : Prop where
  ceiling : ∃ ceiling, made.role.authorityCeiling = some ceiling ∧
    ceiling.allows made.requested = true
  grant : made.proposal.grant =
    roleGrant settings made.role made.assignment made.requested made.basis made.proposedAt
  covers : Covers made.basis made.proposal.grant

structure Recorded (settings : PeerSettings) (h : History) : Prop where
  key : ∀ key g, h.grants.lookup key = some g → g.key = key
  origin : ∀ key g, h.grants.lookup key = some g → match h.origin key with
    | none => g ∈ h.confirmed
    | some application => application ∈ h.applied ∧ application.made.proposal.grant = g
  made : ∀ made ∈ h.made, Checked settings made ∧
    Follows h (fun application => some application.made.basis) made.basis
  applied : ∀ application ∈ h.applied, application.made ∈ h.made ∧
    ∀ basis, application.held = some basis →
      basis.senderRoot = application.made.assignment.assignerRoot ∧
      basis.project = application.made.assignment.project ∧
      basis.recipientRoot = application.made.assignment.recipientRoot ∧
      application.appliedAt < basis.expiresAtMs

/-- Every role grant that was written is covered by what the assigner held at that moment. -/
def HeldCovers : Prop :=
  ∀ application ∈ h.applied, ∃ basis, application.held = some basis ∧
    Covers basis application.made.proposal.grant ∧ Follows h Application.held basis

theorem Follows.mono {h h' : History} {basis : Application → Option PeerGrant}
    (hf : Follows h basis g) (hconfirmed : h.confirmed ⊆ h'.confirmed)
    (happlied : h.applied ⊆ h'.applied) : Follows h' basis g :=
  Rooted.mono (fun _ hm => hconfirmed hm) (fun _ hm => happlied hm) hf

variable {settings : PeerSettings} {h : History}

theorem Recorded.follows (hr : Recorded settings h) {basis : Application → Option PeerGrant}
    (hbasis : ∀ application ∈ h.applied, ∃ b, basis application = some b ∧ Follows h basis b)
    {key : Key} (hl : h.grants.lookup key = some g) : Follows h basis g := by
  have horigin := hr.origin key g hl
  cases ho : h.origin key with
  | none =>
    rw [ho] at horigin
    exact .root horigin
  | some application =>
    rw [ho] at horigin
    obtain ⟨hmem, rfl⟩ := horigin
    obtain ⟨b, hb, hfollows⟩ := hbasis application hmem
    exact .link hmem hb hfollows

theorem Recorded.follows_basis (hr : Recorded settings h) {key : Key}
    (hl : h.grants.lookup key = some g) :
    Follows h (fun application => some application.made.basis) g := by
  refine hr.follows (fun application hmem => ?_) hl
  exact ⟨_, rfl, (hr.made application.made (hr.applied application hmem).1).2⟩

theorem Recorded.follows_held (hr : Recorded settings h) (hh : HeldCovers h) {key : Key}
    (hl : h.grants.lookup key = some g) : Follows h Application.held g := by
  refine hr.follows (fun application hmem => ?_) hl
  obtain ⟨b, hb, -, hfollows⟩ := hh application hmem
  exact ⟨b, hb, hfollows⟩

theorem recorded_kept (hr : Recorded settings h) {kept : Grants}
    (hkept : ∀ key g, kept.lookup key = some g → h.grants.lookup key = some g) :
    Recorded settings { h with grants := kept } :=
  ⟨fun key g hl => hr.key key g (hkept key g hl),
    fun key g hl => hr.origin key g (hkept key g hl), hr.made, hr.applied⟩

theorem recorded_confirmed (hr : Recorded settings h) (g : PeerGrant) (nowMs : ℕ) :
    Recorded settings { h with
      grants := (retainLive h.grants nowMs).insert g.key g
      confirmed := h.confirmed ++ [g]
      origin := Function.update h.origin g.key none } := by
  refine ⟨fun key found hl => ?_, fun key found hl => ?_, fun made hmem => ?_, hr.applied⟩
  · rcases lookup_written hl with ⟨rfl, rfl⟩ | ⟨-, hold⟩
    · rfl
    · exact hr.key key found hold
  · rcases lookup_written hl with ⟨rfl, rfl⟩ | ⟨hne, hold⟩
    · simp only [Function.update_self]
      exact mem_append_right _ (mem_singleton_self _)
    · simp only [Function.update_of_ne hne]
      have horigin := hr.origin key found hold
      cases ho : h.origin key with
      | none =>
        rw [ho] at horigin
        exact mem_append_left _ horigin
      | some application =>
        rw [ho] at horigin
        exact horigin
  · obtain ⟨hchecked, hfollows⟩ := hr.made made hmem
    exact ⟨hchecked, hfollows.mono (subset_append_left _ _) (List.Subset.refl _)⟩

variable {made : Made}

theorem recorded_applied (hr : Recorded settings h) (hmade : made ∈ h.made) (nowMs : ℕ) :
    Recorded settings { h with
      grants := (retainLive h.grants nowMs).insert made.proposal.grant.key made.proposal.grant
      applied := h.applied ++ [⟨made, nowMs, heldBy h.grants made.assignment nowMs⟩]
      origin := Function.update h.origin made.proposal.grant.key
        (some ⟨made, nowMs, heldBy h.grants made.assignment nowMs⟩) } := by
  refine ⟨fun key found hl => ?_, fun key found hl => ?_, fun other hmem => ?_,
    fun application hmem => ?_⟩
  · rcases lookup_written hl with ⟨rfl, rfl⟩ | ⟨-, hold⟩
    · rfl
    · exact hr.key key found hold
  · rcases lookup_written hl with ⟨rfl, rfl⟩ | ⟨hne, hold⟩
    · simp only [Function.update_self]
      exact ⟨mem_append_right _ (mem_singleton_self _), trivial⟩
    · simp only [Function.update_of_ne hne]
      have horigin := hr.origin key found hold
      cases ho : h.origin key with
      | none =>
        rw [ho] at horigin
        exact horigin
      | some application =>
        rw [ho] at horigin
        exact ⟨mem_append_left _ horigin.1, horigin.2⟩
  · obtain ⟨hchecked, hfollows⟩ := hr.made other hmem
    exact ⟨hchecked, hfollows.mono (List.Subset.refl _) (subset_append_left _ _)⟩
  · rcases mem_append.mp hmem with hold | hnew
    · exact hr.applied application hold
    · obtain rfl := mem_singleton.mp hnew
      refine ⟨hmade, fun basis hheld => ?_⟩
      obtain ⟨hl, hlive⟩ := get_eq_some_iff.mp hheld
      have hkey : basis.key = (made.assignment.project, made.assignment.assignerRoot,
          made.assignment.recipientRoot) := hr.key _ basis hl
      simp only [PeerGrant.key, Prod.mk.injEq] at hkey
      exact ⟨hkey.2.1, hkey.1, hkey.2.2, hlive⟩

theorem checked_of_propose {role : RoleSpec} {basis : PeerGrant} (hr : Recorded settings h)
    (hok : proposeRoleGrant settings h.grants role assignment requested nowMs = .ok proposal)
    (hbasis : heldBy h.grants assignment nowMs = some basis) :
    Checked settings ⟨role, assignment, requested, nowMs, basis, proposal⟩ := by
  obtain ⟨hceiling, hauth, hgrant⟩ := proposeRoleGrant_spec hok hbasis
  obtain ⟨hl, -⟩ := get_eq_some_iff.mp hbasis
  have hkey : basis.key = (assignment.project, assignment.assignerRoot,
      assignment.recipientRoot) := hr.key _ basis hl
  simp only [PeerGrant.key, Prod.mk.injEq] at hkey
  refine ⟨hceiling, hgrant, ?_⟩
  simp only [hgrant]
  exact ⟨hkey.1, hkey.2.2, hauth, (min_le_left _ _).trans (min_le_right _ _)⟩

theorem recorded_made (hr : Recorded settings h) (hchecked : Checked settings made)
    (hfollows : Follows h (fun application => some application.made.basis) made.basis) :
    Recorded settings { h with made := h.made ++ [made] } := by
  refine ⟨hr.key, hr.origin, fun other hmem => ?_, fun application hmem => ?_⟩
  · rcases mem_append.mp hmem with hold | hnew
    · exact hr.made other hold
    · obtain rfl := mem_singleton.mp hnew
      exact ⟨hchecked, hfollows⟩
  · obtain ⟨hmade, hheld⟩ := hr.applied application hmem
    exact ⟨mem_append_left _ hmade, hheld⟩

theorem recorded_advance (hr : Recorded settings h) (event : Event) :
    Recorded settings (advance settings h event) := by
  cases event with
  | grant g nowMs =>
    rw [advance]
    rcases grant_cases settings h.grants g nowMs with ⟨kept, reason, he, hkept⟩ | he
    · rw [he]
      exact recorded_kept hr hkept
    · rw [he]
      exact recorded_confirmed hr g nowMs
  | propose role assignment requested nowMs =>
    rw [advance]
    cases hok : proposeRoleGrant settings h.grants role assignment requested nowMs with
    | error refusal => exact hr
    | ok proposal =>
      cases hbasis : heldBy h.grants assignment nowMs with
      | none => exact hr
      | some basis =>
        exact recorded_made hr (checked_of_propose hr hok hbasis)
          (hr.follows_basis (get_eq_some_iff.mp hbasis).1)
  | apply index nowMs =>
    rw [advance]
    cases hmade : h.made[index]? with
    | none => exact hr
    | some made =>
      simp only
      rw [applyRoleGrant]
      rcases grant_cases settings h.grants made.proposal.grant nowMs with
        ⟨kept, reason, he, hkept⟩ | he
      · rw [he]
        exact recorded_kept hr hkept
      · rw [he]
        exact recorded_applied hr (mem_of_getElem? hmade) nowMs
  | revoke project senderRoot recipientRoot =>
    refine recorded_kept hr fun key g hl => ?_
    rw [revoke, AList.lookup_erase_if] at hl
    split_ifs at hl
    exact hl
  | allows project senderRoot recipientRoot required nowMs =>
    exact recorded_kept hr fun key g hl => lookup_retainLive hl
  | get project senderRoot recipientRoot nowMs => exact hr

theorem heldCovers_mono {h' : History} (hh : HeldCovers h) (happlied : h'.applied = h.applied)
    (hconfirmed : h.confirmed ⊆ h'.confirmed) : HeldCovers h' := by
  intro application hmem
  rw [happlied] at hmem
  obtain ⟨basis, hheld, hcovers, hfollows⟩ := hh application hmem
  exact ⟨basis, hheld, hcovers, hfollows.mono hconfirmed (happlied ▸ List.Subset.refl _)⟩

theorem covers_of_stillHeld (hr : Recorded settings h) (hmade : made ∈ h.made) {basis : PeerGrant}
    (hheld : heldBy h.grants made.assignment nowMs = some basis)
    (hauth : basis.authority.allows made.requested = true)
    (hexpiry : made.proposal.grant.expiresAtMs ≤ basis.expiresAtMs) :
    Covers basis made.proposal.grant := by
  obtain ⟨hl, -⟩ := get_eq_some_iff.mp hheld
  have hkey : basis.key = (made.assignment.project, made.assignment.assignerRoot,
      made.assignment.recipientRoot) := hr.key _ basis hl
  simp only [PeerGrant.key, Prod.mk.injEq] at hkey
  have hgrant := (hr.made made hmade).1.grant
  refine ⟨?_, ?_, ?_, hexpiry⟩
  · rw [hgrant]
    exact hkey.1
  · rw [hgrant]
    exact hkey.2.2
  · rw [hgrant]
    exact hauth

theorem heldCovers_advance (hr : Recorded settings h) (hh : HeldCovers h) {event : Event}
    (hstill : StillHeld h event) : HeldCovers (advance settings h event) := by
  cases event with
  | grant g nowMs =>
    rw [advance]
    rcases grant_cases settings h.grants g nowMs with ⟨kept, reason, he, -⟩ | he
    · rw [he]
      exact heldCovers_mono hh rfl (List.Subset.refl _)
    · rw [he]
      exact heldCovers_mono hh rfl (subset_append_left _ _)
  | propose role assignment requested nowMs =>
    rw [advance]
    cases proposeRoleGrant settings h.grants role assignment requested nowMs with
    | error refusal => exact hh
    | ok proposal =>
      cases heldBy h.grants assignment nowMs with
      | none => exact hh
      | some basis => exact heldCovers_mono hh rfl (List.Subset.refl _)
  | apply index nowMs =>
    rw [advance]
    cases hmade : h.made[index]? with
    | none => exact hh
    | some made =>
      simp only
      rw [applyRoleGrant]
      rcases grant_cases settings h.grants made.proposal.grant nowMs with
        ⟨kept, reason, he, -⟩ | he
      · rw [he]
        exact heldCovers_mono hh rfl (List.Subset.refl _)
      · rw [he]
        have hmem := mem_of_getElem? hmade
        obtain ⟨basis, hheld, hauth, hexpiry⟩ := hstill made hmade
        have hfollows := hr.follows_held hh (get_eq_some_iff.mp hheld).1
        intro application happlication
        rcases mem_append.mp happlication with hold | hnew
        · obtain ⟨b, hb, hcovers, hf⟩ := hh application hold
          exact ⟨b, hb, hcovers, hf.mono (List.Subset.refl _) (subset_append_left _ _)⟩
        · obtain rfl := mem_singleton.mp hnew
          exact ⟨basis, hheld, covers_of_stillHeld hr hmem hheld hauth hexpiry,
            hfollows.mono (List.Subset.refl _) (subset_append_left _ _)⟩
  | revoke project senderRoot recipientRoot =>
    exact heldCovers_mono hh rfl (List.Subset.refl _)
  | allows project senderRoot recipientRoot required nowMs =>
    exact heldCovers_mono hh rfl (List.Subset.refl _)
  | get project senderRoot recipientRoot nowMs => exact hh

variable {events : List Event}

theorem recorded_run : ∀ {h : History}, Recorded settings h →
      Recorded settings (events.foldl (advance settings) h) := by
  induction events with
  | nil => exact fun hr => hr
  | cons event events ih => exact fun hr => ih (recorded_advance hr event)

theorem heldCovers_run :
    ∀ {h : History}, Recorded settings h → HeldCovers h → Throughout settings StillHeld h events →
      HeldCovers (events.foldl (advance settings) h) := by
  induction events with
  | nil => exact fun _ hh _ => hh
  | cons event events ih =>
    exact fun hr hh hstill =>
      ih (recorded_advance hr event) (heldCovers_advance hr hh hstill.1) hstill.2

theorem recorded_initial (settings : PeerSettings) : Recorded settings initial :=
  ⟨fun _ _ hl => (by cases hl), fun _ _ hl => (by cases hl),
    fun _ hmem => absurd hmem not_mem_nil, fun _ hmem => absurd hmem not_mem_nil⟩

theorem roleGrant_term (settings : PeerSettings) (role : RoleSpec) (assignment : RoleAssignment)
    (requested : PeerAuthority) (basis : PeerGrant) (nowMs : ℕ) :
    (roleGrant settings role assignment requested basis nowMs).expiresAtMs ≤
      nowMs + settings.peerGrantMaxTtlSecs * 1000 := by
  refine (min_le_right _ _).trans ((min_le_left _ _).trans ?_)
  exact Nat.add_le_add_left (min_le_left _ _) nowMs

/-- In every run, a grant is covered by a grant that a user confirmed, so that no chain of
delegations raises the authority of the confirmed grants toward a recipient. If moreover the
assigner's grant is still held whenever a proposal is written, every role grant was passed on by the
assigner. -/
theorem authority_passed_on (settings : PeerSettings) (events : List Event) :
    (∀ key g, (run settings events).grants.lookup key = some g →
      ∃ user ∈ (run settings events).confirmed, Covers user g) ∧
    (∀ (project recipient : Text) (bound : PeerAuthority),
      (∀ user ∈ (run settings events).confirmed, user.project = project →
        user.recipientRoot = recipient → bound.allows user.authority = true) →
      ∀ key g, (run settings events).grants.lookup key = some g → g.project = project →
        g.recipientRoot = recipient → bound.allows g.authority = true) ∧
    (Throughout settings StillHeld initial events →
      ∀ key g application, (run settings events).grants.lookup key = some g →
        (run settings events).origin key = some application →
        application.made.proposal.grant = g ∧
          PassedOn settings (run settings events) application) := by
  have hr : Recorded settings (run settings events) := recorded_run (recorded_initial settings)
  have hcovered : ∀ key g, (run settings events).grants.lookup key = some g →
      ∃ user ∈ (run settings events).confirmed, Covers user g := by
    intro key g hl
    apply Rooted.covered Covers.refl Covers.trans _ (hr.follows_basis hl)
    intro application basis hmem hbasis
    obtain rfl := Option.some.inj hbasis
    exact (hr.made _ (hr.applied application hmem).1).1.covers
  refine ⟨hcovered, fun project recipient bound hbound key g hl hproject hrecipient => ?_,
    fun hstill key g application hl horigin => ?_⟩
  · obtain ⟨user, hmem, hcovers⟩ := hcovered key g hl
    have huser := hbound user hmem (hcovers.project.trans hproject)
      (hcovers.recipient.trans hrecipient)
    exact allows_trans huser hcovers.authority
  · have hh : HeldCovers (run settings events) := heldCovers_run (recorded_initial settings)
      (fun _ hmem => absurd hmem not_mem_nil) hstill
    have hsource := hr.origin key g hl
    rw [horigin] at hsource
    obtain ⟨hmem, hgrant⟩ := hsource
    obtain ⟨hmade, hheld⟩ := hr.applied application hmem
    obtain ⟨⟨ceiling, hceiling, hallows⟩, hrole, -⟩ := (hr.made _ hmade).1
    obtain ⟨basis, hbasis, hcovers, hfollows⟩ := hh application hmem
    obtain ⟨hassigner, -, -, hlive⟩ := hheld basis hbasis
    refine ⟨hgrant, ⟨ceiling, hceiling, ?_⟩, ?_, basis, hbasis, hassigner, hlive, hcovers,
      hfollows⟩
    · rw [hrole]
      exact hallows
    · rw [hrole]
      exact roleGrant_term settings _ _ _ _ _

/-- A user confirms mail from a toward r, and the worker role passes it on from a to m. -/
def delegationEvents (between : List Event) : List Event :=
  [.grant ⟨['p'], ['a'], ['r'], .mail, ['u'], 100⟩ 1,
    .propose ⟨['w'], some .mail, 3600⟩ ⟨['t'], ['p'], ['a'], ['m'], ['r']⟩ .mail 2] ++ between ++
    [.apply 0 3]

theorem delegation_passed_on :
    ∃ application, (run ⟨604800, 256⟩ (delegationEvents [])).origin (['p'], ['m'], ['r']) =
        some application ∧
      PassedOn ⟨604800, 256⟩ (run ⟨604800, 256⟩ (delegationEvents [])) application := by
  have hstill : Throughout ⟨604800, 256⟩ StillHeld initial (delegationEvents []) := by
    refine ⟨trivial, trivial, fun made hmade => ?_, trivial⟩
    obtain rfl := Option.some.inj hmade
    exact ⟨⟨['p'], ['a'], ['r'], .mail, ['u'], 100⟩, by decide, by decide,
      by decide⟩
  obtain ⟨g, hl⟩ : ∃ g, (run ⟨604800, 256⟩ (delegationEvents [])).grants.lookup
      (['p'], ['m'], ['r']) = some g := Option.isSome_iff_exists.mp (by decide)
  exact ⟨_, rfl, ((authority_passed_on _ _).2.2 hstill _ g _ hl rfl).2⟩

/-- The grant of the assigner is revoked between the proposal and the application, and the role
grant is live all the same. -/
theorem revoked_but_passed_on :
    ∃ application, (run ⟨604800, 256⟩ (delegationEvents [.revoke ['p'] ['a'] ['r']])).origin
        (['p'], ['m'], ['r']) = some application ∧
      get (run ⟨604800, 256⟩ (delegationEvents [.revoke ['p'] ['a'] ['r']])).grants ['p'] ['m'] ['r']
        4 = some application.made.proposal.grant ∧
      application.made.assignment.assignerRoot = ['a'] ∧ application.held = none := by
  refine ⟨_, rfl, ?_, rfl, ?_⟩
  · decide
  · decide

def Misnamed (g : PeerGrant) : Prop :=
  blank g.project ∨ blank g.senderRoot ∨ blank g.recipientRoot ∨ blank g.grantedBy ∨
    g.senderRoot = g.recipientRoot

/-- What was allowed before a grant that is written is allowed after it, at every later time; a
grant that is refused changes no answer. -/
def NeverNarrowed (settings : PeerSettings) (grants : Grants) (g : PeerGrant) (nowMs : ℕ) : Prop :=
  ∀ project senderRoot recipientRoot required t, nowMs ≤ t →
    match grant settings grants g nowMs with
    | (after, .ok ()) =>
      (allows grants project senderRoot recipientRoot required t).2 = true →
        (allows after project senderRoot recipientRoot required t).2 = true
    | (after, .error _) =>
      (allows after project senderRoot recipientRoot required t).2 =
        (allows grants project senderRoot recipientRoot required t).2

/-- The grant can be written, and in the place of one that has no more authority but lasts longer.
-/
def Shortens (grants : Grants) (g : PeerGrant) (nowMs : ℕ) : Prop :=
  ¬ Misnamed g ∧ nowMs < g.expiresAtMs ∧
    ∃ old, grants.lookup g.key = some old ∧ old.authority.rank ≤ g.authority.rank ∧
      g.expiresAtMs < old.expiresAtMs

variable {required : PeerAuthority}

theorem allows_iff {t : ℕ} : (allows grants project senderRoot recipientRoot required t).2 = true ↔
      ∃ g, grants.lookup (project, senderRoot, recipientRoot) = some g ∧ t < g.expiresAtMs ∧
        required.rank ≤ g.authority.rank := by
  simp only [allows, Option.any_eq_true, retainLive, AList.lookup_retain, PeerAuthority.allows,
    decide_eq_true_eq, and_assoc]

theorem allows_retainLive {t : ℕ} (h : nowMs ≤ t) :
    (allows (retainLive grants nowMs) project senderRoot recipientRoot required t).2 =
      (allows grants project senderRoot recipientRoot required t).2 := by
  apply Bool.eq_iff_iff.mpr
  simp only [allows_iff, retainLive, AList.lookup_retain, decide_eq_true_eq]
  constructor
  · rintro ⟨g, ⟨hl, -⟩, hlive, hrank⟩
    exact ⟨g, hl, hlive, hrank⟩
  · rintro ⟨g, hl, hlive, hrank⟩
    exact ⟨g, ⟨hl, by omega⟩, hlive, hrank⟩

/-- A grant is refused with the answers as they were, or it is written over live grants none of
which has more authority than it. -/
theorem grant_outcome (settings : PeerSettings) (grants : Grants) (g : PeerGrant) (nowMs : ℕ) :
    (∃ kept reason, grant settings grants g nowMs = (kept, .error reason) ∧
      (kept = grants ∨ kept = retainLive grants nowMs)) ∨
    (grant settings grants g nowMs = ((retainLive grants nowMs).insert g.key g, .ok ()) ∧
      ¬ Misnamed g ∧ nowMs < g.expiresAtMs ∧
      ∀ old, grants.lookup g.key = some old → nowMs < old.expiresAtMs →
        old.authority.rank ≤ g.authority.rank) := by
  unfold grant Misnamed
  by_cases hnames : blank g.project ∨ blank g.senderRoot ∨ blank g.recipientRoot ∨
      blank g.grantedBy ∨ g.senderRoot = g.recipientRoot
  · rw [if_pos hnames]
    exact Or.inl ⟨_, _, rfl, Or.inl rfl⟩
  rw [if_neg hnames]
  by_cases hexp : g.expiresAtMs ≤ nowMs
  · rw [if_pos hexp]
    exact Or.inl ⟨_, _, rfl, Or.inl rfl⟩
  rw [if_neg hexp]
  have hlive : ∀ old, grants.lookup g.key = some old → nowMs < old.expiresAtMs →
      (retainLive grants nowMs).lookup g.key = some old := fun old hl hold =>
    AList.lookup_retain.mpr ⟨hl, decide_eq_true hold⟩
  cases hfound : (retainLive grants nowMs).lookup g.key with
  | none =>
    simp only [hfound]
    split_ifs
    · exact Or.inl ⟨_, _, rfl, Or.inr rfl⟩
    · refine Or.inr ⟨rfl, hnames, by omega, fun old hl hold => ?_⟩
      have hsome := hlive old hl hold
      rw [hfound] at hsome
      cases hsome
  | some existing =>
    simp only [hfound]
    split_ifs with hrank
    · exact Or.inl ⟨_, _, rfl, Or.inr rfl⟩
    · refine Or.inr ⟨rfl, hnames, by omega, fun old hl hold => ?_⟩
      have hsome := hlive old hl hold
      rw [hfound] at hsome
      obtain rfl := Option.some.inj hsome
      omega

theorem grant_written (settings : PeerSettings) {old : PeerGrant} (hnames : ¬ Misnamed g)
    (htime : nowMs < g.expiresAtMs) (hl : grants.lookup g.key = some old)
    (hold : nowMs < old.expiresAtMs) (hrank : old.authority.rank ≤ g.authority.rank) :
    grant settings grants g nowMs = ((retainLive grants nowMs).insert g.key g, .ok ()) := by
  have hlive : (retainLive grants nowMs).lookup g.key = some old :=
    AList.lookup_retain.mpr ⟨hl, decide_eq_true hold⟩
  have hnot : ¬ g.expiresAtMs ≤ nowMs := by omega
  have hweak : ¬ g.authority.rank < old.authority.rank := by omega
  unfold Misnamed at hnames
  rw [grant, if_neg hnames, if_neg hnot]
  simp only [hlive, if_neg hweak]

/-- A grant narrows what was allowed exactly when it takes the place of one that lasts longer. -/
theorem never_narrowed_iff (settings : PeerSettings) (grants : Grants) (g : PeerGrant)
    (nowMs : ℕ) : NeverNarrowed settings grants g nowMs ↔ ¬ Shortens grants g nowMs := by
  constructor
  · rintro hnever ⟨hnames, htime, old, hl, hrank, hlonger⟩
    have hwritten := grant_written settings hnames htime hl (by omega) hrank
    have hat := hnever g.project g.senderRoot g.recipientRoot old.authority g.expiresAtMs htime.le
    simp only [hwritten] at hat
    obtain ⟨found, hfound, hexpires, -⟩ := allows_iff.mp
      (hat (allows_iff.mpr ⟨old, hl, hlonger, le_rfl⟩))
    have hkey : (g.project, g.senderRoot, g.recipientRoot) = g.key := rfl
    rw [hkey, AList.lookup_insert] at hfound
    obtain rfl := Option.some.inj hfound
    omega
  · intro hkeeps project senderRoot recipientRoot required t ht
    rcases grant_outcome settings grants g nowMs with
      ⟨kept, reason, hrefused, rfl | rfl⟩ | ⟨hwritten, hnames, htime, hranks⟩
    · simp only [hrefused]
    · simp only [hrefused]
      exact allows_retainLive ht
    · simp only [hwritten]
      intro hbefore
      obtain ⟨old, hl, hlive, hrank⟩ := allows_iff.mp hbefore
      apply allows_iff.mpr
      by_cases hkey : (project, senderRoot, recipientRoot) = g.key
      · rw [hkey] at hl ⊢
        have hweaker : old.authority.rank ≤ g.authority.rank := hranks old hl (by omega)
        have hlonger : ¬ g.expiresAtMs < old.expiresAtMs := fun hshort =>
          hkeeps ⟨hnames, htime, old, hl, hweaker, hshort⟩
        exact ⟨g, AList.lookup_insert _, by omega, by omega⟩
      · refine ⟨old, ?_, hlive, hrank⟩
        rw [AList.lookup_insert_ne hkey]
        exact AList.lookup_retain.mpr ⟨hl, decide_eq_true (by omega)⟩

def longMail : PeerGrant := ⟨['p'], ['a'], ['r'], .mail, ['u'], 1000⟩

def shortMail : PeerGrant := ⟨['p'], ['a'], ['r'], .mail, ['u'], 100⟩

/-- Mail until 1000 is replaced by mail until 100. -/
theorem mail_shortened :
    ¬ NeverNarrowed ⟨604800, 256⟩ ((∅ : Grants).insert longMail.key longMail) shortMail 1 := by
  intro hnever
  have hat := hnever ['p'] ['a'] ['r'] .mail 500 (by decide)
  have hwritten : grant ⟨604800, 256⟩ ((∅ : Grants).insert longMail.key longMail) shortMail 1 =
      ((retainLive ((∅ : Grants).insert longMail.key longMail) 1).insert shortMail.key shortMail,
        .ok ()) :=
    grant_written _ (by unfold Misnamed; decide) (by decide) (AList.lookup_insert _) (by decide) le_rfl
  simp only [hwritten] at hat
  revert hat
  decide

end PeerGrants
