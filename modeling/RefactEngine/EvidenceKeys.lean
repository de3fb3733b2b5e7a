import RefactEngine.JsonText
import Mathlib.Data.Char
import Mathlib.Data.List.Lex
import Mathlib.Data.List.Sort

/-! # Keys of verification evidence

The key of a contract is the digest of one text: a JSON object, and then a section for each other
input. Within a section every item is followed by the same field separator.
-/
namespace EvidenceCache

open JsonText List

abbrev Text := List Char

def lit (text : String) : Text := text.toList

def utf8 (text : Text) : List UInt8 := (String.ofList text).toByteArray.data.toList

inductive ApprovalMode where
  | strict
  | balanced
  | permissive
  | yolo
  deriving DecidableEq

def ApprovalMode.debugName : ApprovalMode → Text
  | .strict => lit "Strict"
  | .balanced => lit "Balanced"
  | .permissive => lit "Permissive"
  | .yolo => lit "Yolo"

structure VerifyCommandPolicy where
  deny : List Text
  mode : ApprovalMode
  deriving DecidableEq

namespace VerifyCommandPolicy

def fingerprint (policy : VerifyCommandPolicy) : Text :=
  let deny := policy.deny.insertionSort (· ≤ ·)
  lit "mode=" ++ (policy.mode.debugName ++ [';'] ++ (lit "deny=" ++ [','].intercalate deny))

/-- Whether a rule matches a command is left to `ruleMatches`: globs and regular expressions over
the segments of the command. -/
def check (ruleMatches : Text → Text → Bool) (policy : VerifyCommandPolicy) (command : Text) :
    Except Text Unit :=
  match policy.deny.find? fun rule => ruleMatches rule command with
  | some rule => .error (lit "denied by shell policy rule '" ++ rule ++ ['\''])
  | none => .ok ()

end VerifyCommandPolicy

inductive SpecAuthority where
  | cardInstructions
  | agentProposal (agent : Text)
  | operator (operator : Text)
  deriving DecidableEq

def SpecAuthority.isUntrustedProposal : SpecAuthority → Bool
  | .agentProposal _ => true
  | .cardInstructions | .operator _ => false

structure SpecAcceptance where
  acceptedBy : Text
  acceptedAt : Text
  authority : SpecAuthority
  deriving DecidableEq

inductive ArtifactAssertion where
  | «exists»
  | nonEmpty
  | contains (needle : Text)
  deriving DecidableEq

structure ExpectedArtifact where
  path : Text
  assertion : ArtifactAssertion
  deriving DecidableEq

structure CacheDeclaration where
  deterministicInputs : List Text
  networkDependent : Bool
  timeDependent : Bool
  cacheNonDeterministic : Bool
  deriving DecidableEq

inductive NonCacheable where
  | noDeclaredInputs
  | networkDependent
  | timeDependent
  deriving DecidableEq

structure VerificationSpec where
  specId : Text
  revision : ℕ
  criterionIds : List Text
  required : Bool
  command : Text
  proposedBy : SpecAuthority
  accepted : Option SpecAcceptance
  argv : List Text
  cwd : Option Text
  env : List (Text × Text)
  envAllowlist : List Text
  expectedExitCodes : List ℤ
  expectedArtifacts : List ExpectedArtifact
  toolchainInputs : List Text
  cache : CacheDeclaration
  deriving DecidableEq

variable (spec : VerificationSpec)

def VerificationSpec.isAccepted : Bool :=
  spec.accepted.isSome && !spec.argv.isEmpty

def specIsCacheable : Except NonCacheable Unit :=
  if spec.cache.deterministicInputs.isEmpty then .error .noDeclaredInputs
  else if !spec.cache.cacheNonDeterministic && spec.cache.networkDependent then
    .error .networkDependent
  else if !spec.cache.cacheNonDeterministic && spec.cache.timeDependent then .error .timeDependent
  else .ok ()

inductive InputDigest where
  | contents (bytes : List UInt8)
  | absent
  | refused
  | unreadable
  deriving DecidableEq

variable (sha256 : List UInt8 → Text)

def InputDigest.text : InputDigest → Text
  | .contents bytes => sha256 bytes
  | .absent => lit "<absent>"
  | .refused => lit "<refused>"
  | .unreadable => lit "<unreadable>"

def insertByName (name value : Text) : List (Text × Text) → List (Text × Text)
  | [] => [(name, value)]
  | entry :: rest =>
    if name < entry.1 then (name, value) :: entry :: rest
    else if name = entry.1 then (name, value) :: rest
    else entry :: insertByName name value rest

/-- The environment that the spec allows, by name; a later value of a name replaces an earlier one.
-/
def VerificationSpec.allowedEnv : List (Text × Text) :=
  (spec.env.filter fun entry => spec.envAllowlist.contains entry.1).foldl
    (fun entries entry => insertByName entry.1 entry.2 entries) []

@[ext] structure CacheKeyInputs where
  specId : Text
  specRevision : ℕ
  required : Bool
  criterionIds : List Text
  argv : List Text
  cwd : Option Text
  env : List (Text × Text)
  fileContents : List (Text × Text)
  toolchain : List Text
  policy : Text
  expectedExitCodes : List ℤ
  expectedArtifacts : List ExpectedArtifact
  deriving DecidableEq

def slashes (path : Text) : Text :=
  path.map fun c => if c = '\\' then '/' else c

def CacheKeyInputs.collect (spec : VerificationSpec)
    (inputs : List (Text × InputDigest)) (policy : Text) : CacheKeyInputs where
  specId := spec.specId
  specRevision := spec.revision
  required := spec.required
  criterionIds := spec.criterionIds
  argv := spec.argv
  cwd := spec.cwd.map slashes
  env := spec.allowedEnv
  fileContents := inputs.map fun input => (input.1, input.2.text sha256)
  toolchain := spec.toolchainInputs
  policy := policy
  expectedExitCodes := spec.expectedExitCodes
  expectedArtifacts := spec.expectedArtifacts

def fieldSeparator : Char := Char.ofNat 0x1e

def heading (title : String) : Text := '\n' :: lit title

def field (text : Text) : Text := text ++ [fieldSeparator]

def namedField (entry : Text × Text) : Text := entry.1 ++ ['='] ++ field entry.2

def ArtifactAssertion.label : ArtifactAssertion → Text
  | .«exists» => lit "exists"
  | .nonEmpty => lit "non_empty"
  | .contains _ => lit "contains"

def ArtifactAssertion.json (assertion : ArtifactAssertion) : Text :=
  lit "\x7b\"assertion\":" ++ (jsonString assertion.label ++
    match assertion with
    | .contains needle => lit ",\"value\":" ++ (jsonString needle ++ lit "\x7d")
    | .«exists» | .nonEmpty => lit "\x7d")

def ExpectedArtifact.json (artifact : ExpectedArtifact) : Text :=
  lit "\x7b\"path\":" ++ (jsonString artifact.path ++
    (lit ",\"assertion\":" ++ (artifact.assertion.json ++ lit "\x7d")))

namespace CacheKeyInputs

def json (x : CacheKeyInputs) : Text :=
  lit "\x7b\"spec_id\":" ++ (jsonString x.specId ++
    (lit ",\"revision\":" ++ (Nat.toDigits 10 x.specRevision ++ [','] ++
      (lit "\"required\":" ++ (jsonBool x.required ++
        (lit ",\"criterion_ids\":" ++ (jsonList jsonString x.criterionIds ++
          (lit ",\"expected_artifacts\":" ++
            (jsonList ExpectedArtifact.json x.expectedArtifacts ++ lit "\x7d")))))))))

def canonical (x : CacheKeyInputs) : Text :=
  x.json ++ (heading "argv:" ++ (x.argv.flatMap field ++ heading "cwd:" ++
    (x.cwd.getD [] ++ heading "env:" ++ (x.env.flatMap namedField ++ heading "files:" ++
      (x.fileContents.flatMap namedField ++ heading "toolchain:" ++
        (x.toolchain.flatMap field ++ heading "policy:" ++
          (x.policy ++ (heading "exit:" ++
            x.expectedExitCodes.flatMap fun code => field (signedDecimal code)))))))))

def key (x : CacheKeyInputs) : Text :=
  sha256 (utf8 x.canonical)

end CacheKeyInputs

theorem utf8_injective : Function.Injective utf8 := by
  intro s t h
  have hbytes : (String.ofList s).toByteArray = (String.ofList t).toByteArray :=
    ByteArray.ext (Array.toList_inj.mp h)
  exact String.ofList_injective (String.toByteArray_inj.mp hbytes)

theorem ArtifactAssertion.delimits_json :
    Delimits (fun _ : ArtifactAssertion => True) ArtifactAssertion.json := by
  intro a b s t _ _ heq
  simp only [ArtifactAssertion.json, append_assoc] at heq
  have hopen := append_cancel_left heq
  obtain ⟨hlabel, hrest⟩ := delimits_jsonString trivial trivial hopen
  cases a with
  | «exists» =>
    cases b with
    | «exists» => exact ⟨rfl, append_cancel_left hrest⟩
    | nonEmpty => exact absurd hlabel (by simp [ArtifactAssertion.label, lit])
    | contains needle => exact absurd hlabel (by simp [ArtifactAssertion.label, lit])
  | nonEmpty =>
    cases b with
    | «exists» => exact absurd hlabel (by simp [ArtifactAssertion.label, lit])
    | nonEmpty => exact ⟨rfl, append_cancel_left hrest⟩
    | contains needle => exact absurd hlabel (by simp [ArtifactAssertion.label, lit])
  | contains needle =>
    cases b with
    | «exists» => exact absurd hlabel (by simp [ArtifactAssertion.label, lit])
    | nonEmpty => exact absurd hlabel (by simp [ArtifactAssertion.label, lit])
    | contains needle' =>
      simp only [append_assoc] at hrest
      have hvalue := append_cancel_left hrest
      obtain ⟨rfl, hend⟩ := delimits_jsonString trivial trivial hvalue
      exact ⟨rfl, append_cancel_left hend⟩

theorem ExpectedArtifact.delimits_json :
    Delimits (fun _ : ExpectedArtifact => True) ExpectedArtifact.json := by
  rintro ⟨path, assertion⟩ ⟨path', assertion'⟩ s t _ _ heq
  simp only [ExpectedArtifact.json, append_assoc] at heq
  have hpath := append_cancel_left heq
  obtain ⟨rfl, hrest⟩ := delimits_jsonString trivial trivial hpath
  have hassertion := append_cancel_left hrest
  obtain ⟨rfl, hend⟩ := ArtifactAssertion.delimits_json trivial trivial hassertion
  exact ⟨rfl, append_cancel_left hend⟩

theorem jsonString_ne_bracket (text s t : Text) : jsonString text ++ s ≠ ']' :: t := by
  intro h
  cases h

theorem ExpectedArtifact.json_ne_bracket (artifact : ExpectedArtifact) (s t : Text) :
    artifact.json ++ s ≠ ']' :: t := by
  intro h
  have hhead := congrArg List.head? h
  simp [ExpectedArtifact.json, lit] at hhead

variable {x y : CacheKeyInputs}

theorem CacheKeyInputs.json_append_injective {s t : Text} (h : x.json ++ s = y.json ++ t) :
    x.specId = y.specId ∧ x.specRevision = y.specRevision ∧ x.required = y.required ∧
      x.criterionIds = y.criterionIds ∧ x.expectedArtifacts = y.expectedArtifacts ∧ s = t := by
  simp only [CacheKeyInputs.json, append_assoc] at h
  have hid := append_cancel_left h
  obtain ⟨hspecId, hid⟩ := delimits_jsonString trivial trivial hid
  have hrev := append_cancel_left hid
  rw [← append_assoc (Nat.toDigits 10 x.specRevision),
    ← append_assoc (Nat.toDigits 10 y.specRevision)] at hrev
  obtain ⟨hspecRevision, hrest⟩ := delimits_decimal (c := ',') (by decide) trivial trivial hrev
  have hbool := append_cancel_left hrest
  obtain ⟨hreq, hrest⟩ := delimits_jsonBool trivial trivial hbool
  have hlist := append_cancel_left hrest
  obtain ⟨hcriteria, hrest⟩ :=
    delimits_jsonList delimits_jsonString jsonString_ne_bracket trivial trivial hlist
  have hartifacts := append_cancel_left hrest
  obtain ⟨hexpected, hrest⟩ :=
    delimits_jsonList ExpectedArtifact.delimits_json ExpectedArtifact.json_ne_bracket trivial
      trivial hartifacts
  exact ⟨hspecId, hspecRevision, hreq, hcriteria, hexpected, append_cancel_left hrest⟩

theorem append_ne_stop {c : Char} {a m s t : Text} (hc : c ∉ m) (ha : ¬ m <+: a) :
    a ++ c :: s ≠ m ++ t := by
  intro h
  rcases append_eq_append_iff.mp h with ⟨u, hu, hrest⟩ | ⟨u, hu, -⟩
  · cases u with
    | nil => exact ha ⟨[], by rw [hu, append_nil, append_nil]⟩
    | cons d u =>
      obtain ⟨rfl, -⟩ := List.cons.inj hrest
      exact hc (hu ▸ mem_append_right a mem_cons_self)
  · exact ha ⟨u, hu.symm⟩

variable {title : String}

theorem fieldSeparator_notMem_heading (h : fieldSeparator ∉ lit title) :
    fieldSeparator ∉ heading title :=
  not_mem_cons_of_ne_of_not_mem (by decide) h

theorem delimits_fields (htitle : fieldSeparator ∉ lit title) :
    Delimits (fun l : List Text => ∀ a ∈ l, fieldSeparator ∉ a ∧ ¬ heading title <+: a)
      fun l => l.flatMap field ++ heading title := by
  have hfield : Delimits (fun a : Text => fieldSeparator ∉ a ∧ ¬ heading title <+: a) field :=
    (Delimits.terminated fieldSeparator).mono fun _ ha => ha.1
  apply hfield.flatMap
  intro a s t ha
  rw [field, append_assoc]
  exact append_ne_stop (fieldSeparator_notMem_heading htitle) ha.2

theorem delimits_namedFields (htitle : '=' ∉ lit title) {valid : Text × Text → Prop}
    (hseparator : ∀ e, valid e → fieldSeparator ∉ e.1 ∧ fieldSeparator ∉ e.2)
    (hheading : ∀ e, valid e → ¬ heading title <+: e.1)
    (hentry : ∀ e e', valid e → valid e' → e.1 ++ ['='] ++ e.2 = e'.1 ++ ['='] ++ e'.2 → e = e') :
    Delimits (fun l : List (Text × Text) => ∀ e ∈ l, valid e)
      fun l => l.flatMap namedField ++ heading title := by
  have hfield : Delimits valid namedField := by
    intro e e' s t he he' heq
    have hnot : ∀ e, valid e → fieldSeparator ∉ e.1 ++ ['='] ++ e.2 := by
      intro e he hmem
      simp only [mem_append, mem_singleton] at hmem
      rcases hmem with (hname | hequals) | hvalue
      · exact (hseparator e he).1 hname
      · exact absurd hequals (by decide)
      · exact (hseparator e he).2 hvalue
    simp only [namedField, field, ← append_assoc] at heq
    obtain ⟨hboth, hst⟩ := Delimits.terminated fieldSeparator (hnot e he) (hnot e' he') heq
    exact ⟨hentry e e' he he' hboth, hst⟩
  apply hfield.flatMap
  intro e s t he
  simp only [namedField, append_assoc]
  exact append_ne_stop (not_mem_cons_of_ne_of_not_mem (by decide) htitle) (hheading e he)

theorem exitCodes_injective {codes codes' : List ℤ}
    (h : (codes.flatMap fun code => field (signedDecimal code)) =
      codes'.flatMap fun code => field (signedDecimal code)) : codes = codes' := by
  have hcode : Delimits (fun _ : ℤ => True) fun code => field (signedDecimal code) := by
    apply ((Delimits.terminated fieldSeparator).comp signedDecimal_injective).mono
    exact fun code _ => notMem_signedDecimal (by decide) (by decide) code
  refine hcode.flatMap_injective (fun code hnil => ?_) h
  exact absurd (append_eq_nil_iff.mp hnil).2 (cons_ne_nil _ _)

theorem newline_notMem_exitCodes (codes : List ℤ) :
    '\n' ∉ codes.flatMap fun code => field (signedDecimal code) := by
  intro h
  obtain ⟨code, -, hmem⟩ := mem_flatMap.mp h
  rcases mem_append.mp hmem with hdigits | hlast
  · exact notMem_signedDecimal (by decide) (by decide) code hdigits
  · exact absurd (mem_singleton.mp hlast) (by decide)

structure CacheKeyInputs.Readable (x : CacheKeyInputs) : Prop where
  argv : ∀ argument ∈ x.argv, fieldSeparator ∉ argument ∧ ¬ heading "cwd:" <+: argument
  cwd : x.cwd ≠ some [] ∧ ∀ cwd, x.cwd = some cwd → ¬ heading "env:" <:+: cwd
  env : ∀ entry ∈ x.env, fieldSeparator ∉ entry.1 ∧ fieldSeparator ∉ entry.2 ∧ '=' ∉ entry.1 ∧
    ¬ heading "files:" <+: entry.1
  files : ∀ entry ∈ x.fileContents, fieldSeparator ∉ entry.1 ∧ fieldSeparator ∉ entry.2 ∧
    '=' ∉ entry.2 ∧ ¬ heading "toolchain:" <+: entry.1
  toolchain : ∀ input ∈ x.toolchain, fieldSeparator ∉ input ∧ ¬ heading "policy:" <+: input

theorem CacheKeyInputs.Readable.cwd_getD (hx : x.Readable) :
    ¬ heading "env:" <:+: x.cwd.getD [] := by
  cases hcwd : x.cwd with
  | none => simp [heading]
  | some cwd => exact hx.cwd.2 cwd hcwd

theorem CacheKeyInputs.cwd_eq_of_getD (hx : x.cwd ≠ some []) (hy : y.cwd ≠ some [])
    (h : x.cwd.getD [] = y.cwd.getD []) : x.cwd = y.cwd := by
  cases hxc : x.cwd with
  | none =>
    cases hyc : y.cwd with
    | none => rfl
    | some cwd =>
      rw [hxc, hyc] at h
      exact absurd (hyc.trans (congrArg some h.symm)) hy
  | some cwd =>
    cases hyc : y.cwd with
    | none =>
      rw [hxc, hyc] at h
      exact absurd (hxc.trans (congrArg some h)) hx
    | some cwd' =>
      rw [hxc, hyc] at h
      exact congrArg some h

theorem CacheKeyInputs.canonical_injective (hx : x.Readable) (hy : y.Readable)
    (h : x.canonical = y.canonical) : x = y := by
  unfold CacheKeyInputs.canonical at h
  obtain ⟨hspecId, hrev, hreq, hcriteria, hartifacts, hrest⟩ := json_append_injective h
  have hargv := append_cancel_left hrest
  obtain ⟨hargv, hrest⟩ := delimits_fields (by decide) hx.argv hy.argv hargv
  obtain ⟨hcwd, hrest⟩ := delimits_marker (by decide) hx.cwd_getD hy.cwd_getD hrest
  obtain ⟨henv, hrest⟩ := delimits_namedFields (by decide)
    (fun e he => ⟨he.1, he.2.1⟩) (fun e he => he.2.2.2)
    (fun e e' he he' heq => by
      obtain ⟨hname, hvalue⟩ := Delimits.terminated '=' he.2.2.1 he'.2.2.1 heq
      exact Prod.ext hname hvalue) hx.env hy.env hrest
  obtain ⟨hfiles, hrest⟩ := delimits_namedFields (by decide)
    (fun e he => ⟨he.1, he.2.1⟩) (fun e he => he.2.2.2)
    (fun e e' he he' heq => by
      rw [append_assoc, append_assoc] at heq
      obtain ⟨hname, hvalue⟩ := eq_of_append_last (m := []) he.2.2.1 he'.2.2.1 heq (by decide)
      exact Prod.ext hname hvalue) hx.files hy.files hrest
  obtain ⟨htoolchain, hrest⟩ := delimits_fields (by decide) hx.toolchain hy.toolchain hrest
  obtain ⟨hpolicy, hcodes⟩ := eq_of_append_last (newline_notMem_exitCodes _)
    (newline_notMem_exitCodes _) hrest (by decide)
  have hexit := exitCodes_injective hcodes
  have hcwd := cwd_eq_of_getD hx.cwd.1 hy.cwd.1 hcwd
  exact CacheKeyInputs.ext hspecId hrev hreq hcriteria hargv hcwd henv hfiles htoolchain
    hpolicy hexit hartifacts

end EvidenceCache
