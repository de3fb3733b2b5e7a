import Mathlib.Data.List.DropRight
import RefactEngine.JsonSyntax
import RefactEngine.ToolCallRecovery
import RefactEngine.Utf8Prefix

/-! # The first object of a text

The scan for a JSON object over the bytes of a text, with the counter of braces as it is compiled:
`checks` says whether an overflow panics or wraps around. `none` is a panic.
-/
namespace JsonScanning

open JsonSyntax JsonValues ToolCallRecovery Utf8Prefix List

structure Scanner where
  depth : ℤ
  inString : Bool
  escapeNext : Bool

variable (checks : Bool)

def addI32 (a b : ℤ) : Option ℤ :=
  if checks then if -2 ^ 31 ≤ a + b ∧ a + b < 2 ^ 31 then some (a + b) else none
  else some ((a + b).bmod (2 ^ 32))

def turn (s : Scanner) (ch : Char) : Option (Scanner × Bool) :=
  if s.escapeNext then some ({ s with escapeNext := false }, false)
  else if ch = '\\' ∧ s.inString then some ({ s with escapeNext := true }, false)
  else if ch = '"' then some ({ s with inString := !s.inString }, false)
  else if s.inString then some (s, false)
  else if ch = '{' then (addI32 checks s.depth 1).map fun d => ({ s with depth := d }, false)
  else if ch = '}' then
    (addI32 checks s.depth (-1)).map fun d => ({ s with depth := d }, decide (d = 0))
  else some (s, false)

def scan (checks : Bool) (s : Scanner) (bytes : List UInt8) (i : ℕ) : Option (Option ℕ) :=
  match bytes with
  | [] => some none
  | b :: rest =>
    match turn checks s (Char.ofUInt8 b) with
    | none => none
    | some (_, true) => some (some i)
    | some (s', false) => scan checks s' rest (i + 1)

def utf8 (text : Text) : List UInt8 := text.flatMap String.utf8EncodeChar

def extractFirstJsonObject (text : Text) : Option (Option Text) :=
  let object := text.dropWhile (· ≠ '{')
  if object = [] then some none
  else
    match scan checks ⟨0, false, false⟩ (utf8 object) 0 with
    | none => none
    | some none => some none
    | some (some i) =>
      if isCharBoundary object (i + 1) then some (some (takeBytes object (i + 1))) else none

/-- What the recovery takes from elsewhere: serde_json, fresh identifiers and classes of
characters. -/
structure Host (F : Type) where
  parse : String → Option (Json F)
  print : Json F → String
  uuid : ℕ → String
  isAlphanumeric : Char → Bool
  isWhitespace : Char → Bool

variable {F : Type}

def splitAtFirst (marker : Text) : Text → Option (Text × Text)
  | [] => none
  | c :: rest =>
    if marker <+: c :: rest then some ([], (c :: rest).drop marker.length)
    else (splitAtFirst marker rest).map fun parts => (c :: parts.1, parts.2)

def beforeLast (marker : Text) : Text → Option Text
  | [] => none
  | c :: rest =>
    match beforeLast marker rest with
    | some before => some (c :: before)
    | none => if marker <+: c :: rest then some [] else none

variable (host : Host F)

def extractCleanPreamble (before : Text) : Text :=
  let kept := match beforeLast "assistant".toList before with
    | some preAssistant => preAssistant.rdropWhile fun c : Char =>
      !(c.isAlphanum || decide (c ∈ ['.', '!', '?', ')', '"', '\'']))
    | none => before.rdropWhile fun c : Char => !(c.isAlphanum || decide (c ∈ ['.', '!', '?']))
  kept.rdropWhile host.isWhitespace

def leakedCall (id name arguments : String) : Json F :=
  .obj [("type", .str "function"), ("id", .str id),
    ("function", .obj [("name", .str name), ("arguments", .str arguments)])]

def isWord (c : Char) : Bool := host.isAlphanumeric c || decide (c = '_')

variable (allowed : List String) (content : Text)

def findChatmlSingleTool :
    Option (Option (Text × List (Json F))) :=
  match splitAtFirst "to=functions.".toList content with
  | none => some none
  | some (before, afterMarker) =>
    let toolName := String.ofList (afterMarker.takeWhile (isWord host))
    if toolName = "" ∨ toolName ∉ allowed then some none
    else (extractFirstJsonObject checks (afterMarker.dropWhile (isWord host))).map fun found =>
      found.bind fun arguments =>
        match host.parse (String.ofList arguments) with
        | some (.obj _) => some (extractCleanPreamble host before,
          [leakedCall ("call_" ++ host.uuid 0) toolName (String.ofList arguments)])
        | _ => none

def multiCall (use : Json F × ℕ) : Option (Json F) :=
  let toolName := stripPrefix "functions." ((field use.1 "recipient_name").getD "")
  if toolName = "" ∨ toolName ∉ allowed then none
  else some (functionCall ("call_" ++ host.uuid (use.2 + 1) ++ "_" ++ toString use.2) toolName
    (argumentsText host.print ((use.1.get "parameters").getD (.obj []))) use.2)

def findChatmlMultiTool :
    Option (Option (Text × List (Json F))) :=
  match splitAtFirst "to=multi_tool_use.parallel".toList content with
  | none => some none
  | some (before, rest) =>
    (extractFirstJsonObject checks rest).map fun found => do
      let parsed ← host.parse (String.ofList (← found))
      let uses ← (parsed.get "tool_uses").bind asArray
      let calls := uses.zipIdx.filterMap (multiCall host allowed)
      if calls.isEmpty then none else some (extractCleanPreamble host before, calls)

def recoverToolCallsFromChatmlContent : Option (Option (Text × List (Json F))) :=
  if content = [] ∨ allowed = [] then some none
  else do
    let single ← findChatmlSingleTool checks host allowed content
    let multi ← findChatmlMultiTool checks host allowed content
    return (multi.filter (!·.2.isEmpty)).or (single.filter (!·.2.isEmpty))

variable {c : Char}

theorem utf8_ascii (h : c.utf8Size = 1) :
    ∃ b, String.utf8EncodeChar c = [b] ∧ Char.ofUInt8 b = c := by
  refine ⟨_, String.utf8EncodeChar_eq_singleton h, Char.ext (UInt32.toNat_inj.mp ?_)⟩
  have hsmall : c.val.toNat ≤ 127 := UInt32.le_iff_toNat_le.mp (Char.utf8Size_eq_one_iff.mp h)
  change c.val.toUInt8.toUInt32.toNat = c.val.toNat
  rw [UInt8.toNat_toUInt32, UInt32.toNat_toUInt8, Nat.mod_eq_of_lt (by omega)]

theorem utf8_high (h : c.utf8Size ≠ 1) :
    128 ≤ c.toNat ∧ ∀ b ∈ String.utf8EncodeChar c, 128 ≤ b.toNat := by
  have hor : ∀ x k : UInt8, 128 ≤ k.toNat → 128 ≤ (x ||| k).toNat := fun x k hk => by
    rw [UInt8.toNat_or]
    exact hk.trans Nat.right_le_or
  constructor
  · by_contra hsmall
    refine h (Char.utf8Size_eq_one_iff.mpr (UInt32.le_iff_toNat_le.mpr ?_))
    exact Nat.le_of_lt_succ (Nat.not_le.mp hsmall)
  · have hcases : c.utf8Size = 2 ∨ c.utf8Size = 3 ∨ c.utf8Size = 4 := by
      have hpos := c.utf8Size_pos
      have hle := c.utf8Size_le_four
      omega
    rcases hcases with h2 | h3 | h4
    · simp only [String.utf8EncodeChar_eq_cons_cons h2, mem_cons, not_mem_nil, or_false]
      rintro b (rfl | rfl)
      all_goals exact hor _ _ (by decide)
    · simp only [String.utf8EncodeChar_eq_cons_cons_cons h3, mem_cons, not_mem_nil, or_false]
      rintro b (rfl | rfl | rfl)
      all_goals exact hor _ _ (by decide)
    · simp only [String.utf8EncodeChar_eq_cons_cons_cons_cons h4, mem_cons, not_mem_nil, or_false]
      rintro b (rfl | rfl | rfl | rfl)
      all_goals exact hor _ _ (by decide)

theorem turn_high (checks : Bool) (s : Scanner) (h : 128 ≤ c.toNat) :
    turn checks s c = some ({ s with escapeNext := false }, false) := by
  have hne : ∀ d : Char, d.toNat < 128 → c ≠ d := by
    rintro d hd rfl
    omega
  obtain ⟨depth, inString, escapeNext⟩ := s
  simp only [turn, hne '\\' (by decide), hne '"' (by decide), hne '{' (by decide),
    hne '}' (by decide), false_and, if_false, ite_self]
  cases escapeNext <;> rfl

theorem scan_high (checks : Bool) {bytes : List UInt8} (hne : bytes ≠ [])
    (h : ∀ b ∈ bytes, 128 ≤ b.toNat) (s : Scanner) (rest : List UInt8) (i : ℕ) :
    scan checks s (bytes ++ rest) i =
      scan checks { s with escapeNext := false } rest (i + bytes.length) := by
  induction bytes generalizing s i with
  | nil => exact absurd rfl hne
  | cons b bytes ih =>
    have hb : 128 ≤ (Char.ofUInt8 b).toNat := (h b mem_cons_self).trans_eq b.toNat_toUInt32.symm
    rw [cons_append, scan, turn_high checks s hb]
    dsimp only
    by_cases hnil : bytes = []
    · rw [hnil]
      rfl
    · rw [ih hnil fun b hb => h b (mem_cons_of_mem _ hb), length_cons, Nat.add_assoc,
        Nat.add_comm 1]

theorem scan_utf8 (checks : Bool) (s : Scanner) (c : Char) (text : Text) (i : ℕ) :
    scan checks s (utf8 (c :: text)) i =
      match turn checks s c with
      | none => none
      | some (_, true) => some (some i)
      | some (s', false) => scan checks s' (utf8 text) (i + c.utf8Size) := by
  rw [utf8, flatMap_cons]
  by_cases hc : c.utf8Size = 1
  · obtain ⟨b, hb, hchar⟩ := utf8_ascii hc
    rw [hb, singleton_append, scan, hchar, hc]
    rfl
  · obtain ⟨hhigh, hbytes⟩ := utf8_high hc
    rw [scan_high checks String.utf8EncodeChar_ne_nil hbytes, turn_high checks s hhigh,
      String.length_utf8EncodeChar]
    rfl

/-- Before everything is closed, the counter leaves its type or comes back to a multiple of its
range. -/
def overruns (checks : Bool) (s : Mode × ℤ) : Text → Prop
  | [] => False
  | c :: rest =>
    checks = true ∧ (readChar s c).2 = 2 ^ 31 ∨
    ((readChar s c).2 < s.2 ∧ (readChar s c).2 ≠ 0 ∧ 2 ^ 32 ∣ (readChar s c).2) ∨
    (readChar s c ≠ (.plain, 0) ∧ overruns checks (readChar s c) rest)

def scanner (s : Mode × ℤ) : Scanner :=
  ⟨if checks then s.2 else s.2.bmod (2 ^ 32), decide (s.1 ≠ .plain), decide (s.1 = .escaped)⟩

theorem turn_spec {checks : Bool} {s : Mode × ℤ} (c : Char)
    (hrange : checks = true → 0 ≤ s.2 ∧ s.2 < 2 ^ 31) :
    turn checks (scanner checks s) c =
      if checks = true ∧ (readChar s c).2 = 2 ^ 31 then none
      else some (scanner checks (readChar s c),
        decide ((readChar s c).2 < s.2 ∧ 2 ^ 32 ∣ (readChar s c).2)) := by
  obtain ⟨mode, depth⟩ := s
  have hsame : ∀ mode', (if checks = true ∧ depth = 2 ^ 31 then none
      else some (scanner checks (mode', depth), decide (depth < depth ∧ (2 ^ 32 : ℤ) ∣ depth))) =
      some (scanner checks (mode', depth), false) := by
    intro mode'
    rw [if_neg fun h => absurd h.2 (hrange h.1).2.ne]
    simp
  cases mode with
  | escaped => exact (hsame .quoted).symm
  | quoted =>
    simp only [turn, scanner, readChar]
    by_cases hback : c = '\\'
    · simpa [hback, scanner] using (hsame .escaped).symm
    · by_cases hquote : c = '"'
      · simpa [hback, hquote, scanner] using (hsame .plain).symm
      · simpa [hback, hquote, scanner] using (hsame .quoted).symm
  | plain =>
    have hopen : addI32 checks (scanner checks (.plain, depth)).depth 1 =
        if checks = true ∧ depth + 1 = 2 ^ 31 then none
        else some (scanner checks (.plain, depth + 1)).depth := by
      cases checks with
      | false => simp [addI32, scanner]
      | true =>
        have hin := hrange rfl
        dsimp only at hin
        by_cases hfull : depth + 1 = 2 ^ 31
        · simp [addI32, scanner, hfull]
        · simp only [addI32, scanner, if_true, true_and, if_neg hfull]
          exact if_pos (by omega)
    have hclose : addI32 checks (scanner checks (.plain, depth)).depth (-1) =
        some (scanner checks (.plain, depth - 1)).depth := by
      cases checks with
      | false => simp [addI32, scanner, ← Int.sub_eq_add_neg]
      | true =>
        have hin := hrange rfl
        dsimp only at hin
        simp only [addI32, scanner, if_true, ← Int.sub_eq_add_neg]
        exact if_pos (by omega)
    have hzero : (scanner checks (.plain, depth - 1)).depth = 0 ↔ (2 ^ 32 : ℤ) ∣ depth - 1 := by
      cases checks with
      | false => exact Int.dvd_iff_bmod_eq_zero.symm
      | true =>
        have hin := hrange rfl
        dsimp only at hin
        simp only [scanner, if_true]
        omega
    by_cases hquote : c = '"'
    · simpa [turn, readChar, hquote, scanner] using (hsame .quoted).symm
    · by_cases hbrace : c = '{'
      · subst hbrace
        have hturn : turn checks (scanner checks (.plain, depth)) '{' =
            (addI32 checks (scanner checks (.plain, depth)).depth 1).map fun d =>
              (⟨d, false, false⟩, false) := rfl
        have hread : readChar (.plain, depth) '{' = (.plain, depth + 1) := rfl
        have hflag : decide (depth + 1 < depth ∧ (2 ^ 32 : ℤ) ∣ depth + 1) = false :=
          decide_eq_false fun h => absurd h.1 (by omega)
        rw [hturn, hopen, hread]
        dsimp only
        by_cases hfull : checks = true ∧ depth + 1 = 2 ^ 31
        · rw [if_pos hfull, if_pos hfull, Option.map_none]
        · rw [if_neg hfull, if_neg hfull, Option.map_some, hflag]
          rfl
      · by_cases hend : c = '}'
        · subst hend
          have hturn : turn checks (scanner checks (.plain, depth)) '}' =
              (addI32 checks (scanner checks (.plain, depth)).depth (-1)).map fun d =>
                (⟨d, false, false⟩, decide (d = 0)) := rfl
          have hread : readChar (.plain, depth) '}' = (.plain, depth - 1) := rfl
          have hfit : ¬ (checks = true ∧ depth - 1 = 2 ^ 31) := by
            rintro ⟨hchecks, hfull⟩
            have hin := (hrange hchecks).2
            dsimp only at hin
            omega
          have hflag : decide (depth - 1 < depth ∧ (2 ^ 32 : ℤ) ∣ depth - 1) =
              decide ((scanner checks (.plain, depth - 1)).depth = 0) :=
            decide_eq_decide.mpr ((and_iff_right (by omega)).trans hzero.symm)
          rw [hturn, hclose, hread]
          dsimp only
          rw [if_neg hfit, hflag]
          rfl
        · simpa [turn, readChar, hquote, hbrace, hend, scanner] using (hsame .plain).symm

theorem scan_spec {checks : Bool} {s : Mode × ℤ} (hpos : 1 ≤ s.2)
    (hrange : checks = true → s.2 < 2 ^ 31) (text : Text) (i : ℕ) :
    (¬ overruns checks s text → scan checks (scanner checks s) (utf8 text) i =
      some ((closing s text).map fun t => i + byteLength t - 1)) ∧
    (overruns checks s text → scan checks (scanner checks s) (utf8 text) i = none ∨
      ∃ t, t <+: text ∧ t ≠ [] ∧ t.foldl readChar s ≠ (.plain, 0) ∧
        scan checks (scanner checks s) (utf8 text) i = some (some (i + byteLength t - 1))) := by
  induction text generalizing s i with
  | nil => exact ⟨fun _ => rfl, fun h => h.elim⟩
  | cons c rest ih =>
    rw [scan_utf8, turn_spec c fun hchecks => ⟨by omega, hrange hchecks⟩, overruns, closing]
    by_cases hfull : checks = true ∧ (readChar s c).2 = 2 ^ 31
    · rw [if_pos hfull]
      exact ⟨fun h => absurd (Or.inl hfull) h, fun _ => Or.inl rfl⟩
    by_cases hstop : (readChar s c).2 < s.2 ∧ 2 ^ 32 ∣ (readChar s c).2
    · obtain ⟨rfl, hread⟩ := readChar_down hstop.1
      have hlast : i + byteLength ['}'] - 1 = i := rfl
      rw [if_neg hfull, decide_eq_true hstop]
      by_cases hzero : (readChar s '}').2 = 0
      · have hend : readChar s '}' = (.plain, 0) := by rw [hread] at hzero ⊢; exact congrArg _ hzero
        rw [if_pos hend, Option.map_some, hlast]
        refine ⟨fun _ => rfl, fun h => ?_⟩
        rcases h with h | h | h
        · exact absurd h hfull
        · exact absurd hzero h.2.1
        · exact absurd hend h.1
      · have hbad : readChar s '}' ≠ (.plain, 0) := fun h => hzero (by rw [h])
        refine ⟨fun h => absurd (Or.inr (Or.inl ⟨hstop.1, hzero, hstop.2⟩)) h, fun _ => Or.inr ?_⟩
        exact ⟨['}'], ⟨rest, rfl⟩, by simp, hbad, by rw [hlast]⟩
    · have hpos' : 1 ≤ (readChar s c).2 := by
        by_contra hlow
        have hdown : (readChar s c).2 < s.2 := by omega
        have hzero : (readChar s c).2 = 0 := by
          rw [(readChar_down hdown).2] at hlow ⊢
          dsimp only at *
          omega
        exact hstop ⟨hdown, hzero ▸ Int.dvd_zero _⟩
      have hrange' : checks = true → (readChar s c).2 < 2 ^ 31 := fun hchecks => by
        have hup := readChar_up s c
        have hlow := hrange hchecks
        have hne : (readChar s c).2 ≠ 2 ^ 31 := fun h => hfull ⟨hchecks, h⟩
        omega
      have hopen : readChar s c ≠ (.plain, 0) := fun h => by
        rw [h] at hpos'
        exact absurd hpos' (by decide)
      obtain ⟨hgood, hbad⟩ := ih hpos' hrange' (i + c.utf8Size)
      rw [if_neg hfull, decide_eq_false hstop, if_neg hopen]
      dsimp only
      constructor
      · intro h
        rw [hgood fun hrest => h (Or.inr (Or.inr ⟨hopen, hrest⟩)), Option.map_map]
        congr 2
        funext t
        rw [Function.comp_apply, byteLength_cons, Nat.add_assoc]
      · rintro (h | ⟨hdown, -, hdvd⟩ | ⟨-, h⟩)
        · exact absurd h hfull
        · exact absurd ⟨hdown, hdvd⟩ hstop
        · rcases hbad h with hpanic | ⟨t, hpre, -, hleft, hscan⟩
          · exact Or.inl hpanic
          · refine Or.inr ⟨c :: t, cons_prefix_cons.mpr ⟨rfl, hpre⟩, by simp, hleft, ?_⟩
            rw [hscan, byteLength_cons, Nat.add_assoc]

theorem isCharBoundary_append (s t : Text) : isCharBoundary (s ++ t) (byteLength s) = true := by
  induction s with
  | nil =>
    rw [byteLength_nil]
    cases t <;> rfl
  | cons c s ih =>
    obtain ⟨n, hn⟩ : ∃ n, c.utf8Size + byteLength s = n + 1 :=
      ⟨c.utf8Size + byteLength s - 1, by have := c.utf8Size_pos; omega⟩
    rw [byteLength_cons, hn, cons_append, isCharBoundary, if_neg (by omega), ← hn,
      Nat.add_sub_cancel_left]
    exact ih

theorem extract_brace (checks : Bool) {pre : Text} (hpre : '{' ∉ pre) (more : Text) :
    (¬ overruns checks (.plain, 1) more →
      extractFirstJsonObject checks (pre ++ '{' :: more) =
        some ((closing (.plain, 1) more).map ('{' :: ·))) ∧
    (overruns checks (.plain, 1) more →
      extractFirstJsonObject checks (pre ++ '{' :: more) = none ∨
      ∃ t, ¬ Balanced ('{' :: t) ∧
        extractFirstJsonObject checks (pre ++ '{' :: more) = some (some ('{' :: t))) := by
  have hdrop : (pre ++ '{' :: more).dropWhile (· ≠ '{') = '{' :: more := by
    rw [dropWhile_append_of_pos fun c hc => by simpa using ne_of_mem_of_not_mem hc hpre]
    simp
  have hscan : scan checks ⟨0, false, false⟩ (utf8 ('{' :: more)) 0 =
      scan checks (scanner checks (.plain, 1)) (utf8 more) 1 := by
    have hstart : (⟨0, false, false⟩ : Scanner) = scanner checks (.plain, 0) := by
      cases checks <;> rfl
    have hfit : ¬ (checks = true ∧ (readChar (.plain, 0) '{').2 = 2 ^ 31) :=
      fun h => absurd h.2 (by decide)
    rw [hstart, scan_utf8, turn_spec '{' fun _ => by decide, if_neg hfit]
    rfl
  have hfound : ∀ t, t <+: more → takeBytes ('{' :: more) (1 + byteLength t - 1 + 1) = '{' :: t ∧
      isCharBoundary ('{' :: more) (1 + byteLength t - 1 + 1) = true := by
    rintro t ⟨suf, rfl⟩
    have hlen : 1 + byteLength t - 1 + 1 = byteLength ('{' :: t) := by
      rw [byteLength_cons]
      have hsize : '{'.utf8Size = 1 := rfl
      omega
    rw [hlen, ← cons_append, takeBytes_append, if_pos le_rfl, Nat.sub_self, takeBytes_zero,
      append_nil]
    exact ⟨rfl, isCharBoundary_append _ _⟩
  obtain ⟨hgood, hbad⟩ := @scan_spec checks (.plain, 1) le_rfl (fun _ => by decide) more 1
  rw [extractFirstJsonObject, hdrop, hscan, if_neg (by simp)]
  constructor
  · intro h
    rw [hgood h]
    cases hclosing : closing (.plain, 1) more with
    | none => rfl
    | some t =>
      obtain ⟨htake, hboundary⟩ := hfound t (closing_spec hclosing).1
      simp only [Option.map_some, htake, hboundary, if_true]
  · intro h
    rcases hbad h with hpanic | ⟨t, hprefix, -, hleft, hindex⟩
    · rw [hpanic]
      exact Or.inl rfl
    · obtain ⟨htake, hboundary⟩ := hfound t hprefix
      refine Or.inr ⟨t, fun hbalanced => hleft hbalanced.closed, ?_⟩
      rw [hindex]
      simp only [htake, hboundary, if_true]

/-- A call of an allowed tool that was written into the content, and nothing for the parallel
tool. -/
structure Leaks (host : Host F) (allowed : List String) (content before name text object : Text) :
    Prop where
  marker : splitAtFirst "to=functions.".toList content = some (before, name ++ text)
  single : splitAtFirst "to=multi_tool_use.parallel".toList content = none
  named : String.ofList name ∈ allowed ∧ name ≠ [] ∧ ∀ c ∈ name, isWord host c = true
  ends : ∀ c, text.head? = some c → isWord host c = false
  written : ∃ pre suf, text = pre ++ object ++ suf ∧ '{' ∉ pre ∧ Written .object object
  parses : ∃ members, host.parse (String.ofList object) = some (.obj members)

structure CutsOut (checks : Bool) (text : Text) : Prop where
  sound : ∃ found, extractFirstJsonObject checks text = some found ∧ ∀ t, found = some t →
    ∃ pre suf, text = pre ++ t ++ suf ∧ '{' ∉ pre ∧ t.head? = some '{' ∧ Balanced t
  whole : ∀ pre object suf, text = pre ++ object ++ suf → '{' ∉ pre → Written .object object →
    extractFirstJsonObject checks text = some (some object)
  recovered : ∀ (F : Type) (host : Host F) allowed content before name object,
    Leaks host allowed content before name text object →
    recoverToolCallsFromChatmlContent checks host allowed content =
      some (some (extractCleanPreamble host before,
        [leakedCall ("call_" ++ host.uuid 0) (String.ofList name) (String.ofList object)]))

def Overruns (text : Text) : Prop :=
  ∃ pre more, text = pre ++ '{' :: more ∧ '{' ∉ pre ∧ overruns checks (.plain, 1) more

theorem extract_whole {checks : Bool} {text pre object suf : Text} (h : ¬ Overruns checks text)
    (htext : text = pre ++ object ++ suf) (hpre : '{' ∉ pre) (hobject : Written .object object) :
    extractFirstJsonObject checks text = some (some object) := by
  obtain ⟨inner, rfl, hclosing⟩ := closing_object hobject
  rw [append_assoc, cons_append] at htext
  subst htext
  rw [(extract_brace checks hpre _).1 fun hover => h ⟨pre, _, rfl, hpre, hover⟩, hclosing]
  rfl

theorem extract_sound {checks : Bool} {text : Text} (h : ¬ Overruns checks text) :
    ∃ found, extractFirstJsonObject checks text = some found ∧ ∀ t, found = some t →
      ∃ pre suf, text = pre ++ t ++ suf ∧ '{' ∉ pre ∧ t.head? = some '{' ∧ Balanced t := by
  by_cases hbrace : '{' ∈ text
  · obtain ⟨pre, more, rfl, hpre⟩ := eq_append_cons_of_mem hbrace
    refine ⟨_, (extract_brace checks hpre _).1 fun hover => h ⟨pre, _, rfl, hpre, hover⟩, ?_⟩
    intro t ht
    obtain ⟨t, hclosing, rfl⟩ := Option.map_eq_some_iff.mp ht
    obtain ⟨⟨suf, rfl⟩, -⟩ := closing_spec hclosing
    exact ⟨pre, suf, by simp, hpre, rfl, balanced_of_closing hclosing⟩
  · have hnone : text.dropWhile (· ≠ '{') = [] :=
      dropWhile_eq_nil_iff.mpr fun c hc => by simpa using ne_of_mem_of_not_mem hc hbrace
    refine ⟨none, ?_, nofun⟩
    rw [extractFirstJsonObject, hnone]
    rfl

theorem Leaks.recovered {checks : Bool} {host : Host F} {allowed : List String}
    {content before name text object : Text}
    (h : Leaks host allowed content before name text object) (hfit : ¬ Overruns checks text) :
    recoverToolCallsFromChatmlContent checks host allowed content =
      some (some (extractCleanPreamble host before,
        [leakedCall ("call_" ++ host.uuid 0) (String.ofList name) (String.ofList object)])) := by
  obtain ⟨hallow, hne, hword⟩ := h.named
  obtain ⟨pre, suf, htext, hpre, hobject⟩ := h.written
  obtain ⟨members, hparse⟩ := h.parses
  have htake : (name ++ text).takeWhile (isWord host) = name ∧
      (name ++ text).dropWhile (isWord host) = text := by
    rw [takeWhile_append_of_pos hword, dropWhile_append_of_pos hword]
    cases text with
    | nil => simp
    | cons c rest => simp [h.ends c rfl]
  have hsingle : findChatmlSingleTool checks host allowed content =
      some (some (extractCleanPreamble host before,
        [leakedCall ("call_" ++ host.uuid 0) (String.ofList name) (String.ofList object)])) := by
    have hnamed : ¬ (String.ofList name = "" ∨ String.ofList name ∉ allowed) := by
      simpa [hallow] using hne
    rw [findChatmlSingleTool, h.marker]
    simp only [htake.1, htake.2, if_neg hnamed, extract_whole hfit htext hpre hobject,
      Option.map_some, Option.bind_some, hparse]
  have hmulti : findChatmlMultiTool checks host allowed content = some none := by
    rw [findChatmlMultiTool, h.single]
  have hcont : ¬ (content = [] ∨ allowed = []) := by
    rintro (rfl | rfl)
    · cases h.marker
    · cases hallow
  rw [recoverToolCallsFromChatmlContent, if_neg hcont, hsingle, hmulti]
  rfl

/-- The object is cut out and recovered exactly where the counter of braces holds. -/
theorem cutsOut_iff (checks : Bool) (text : Text) : CutsOut checks text ↔ ¬ Overruns checks text := by
  constructor
  · rintro h ⟨pre, more, rfl, hpre, hover⟩
    obtain ⟨found, hfound, hsound⟩ := h.sound
    rcases (extract_brace checks hpre more).2 hover with hpanic | ⟨t, hleft, hcut⟩
    · rw [hpanic] at hfound
      cases hfound
    · rw [hcut] at hfound
      obtain ⟨_, _, -, -, -, hbalanced⟩ := hsound _ (Option.some.inj hfound).symm
      exact hleft hbalanced
  · intro h
    exact ⟨extract_sound h, fun _ _ _ => extract_whole h,
      fun _ _ _ _ _ _ _ hleak => hleak.recovered h⟩

theorem overruns_braces (n : ℕ) {d : ℤ} (hpos : 0 ≤ d) (hd : d < 2 ^ 31) (hn : 2 ^ 31 ≤ d + n) :
    overruns true (.plain, d) (replicate n '{') := by
  induction n generalizing d with
  | zero => omega
  | succ n ih =>
    have hread : readChar (.plain, d) '{' = (.plain, d + 1) := rfl
    rw [replicate_succ, overruns, hread]
    by_cases hfull : d + 1 = 2 ^ 31
    · exact Or.inl ⟨rfl, hfull⟩
    · have hne : ((.plain, d + 1) : Mode × ℤ) ≠ (.plain, 0) := by simp; omega
      push_cast at hn
      exact Or.inr (Or.inr ⟨hne, ih (by omega) (by omega) (by omega)⟩)

theorem not_cutsOut_braces {n : ℕ} (hn : 2 ^ 31 ≤ n + 1) :
    ¬ CutsOut true (replicate (n + 1) '{') := by
  intro h
  obtain ⟨found, hfound, hsound⟩ := h.sound
  have hover := @overruns_braces n 1 (by decide) (by decide) (by omega)
  rcases (@extract_brace true [] (by simp) _).2 hover with hpanic | ⟨t, hleft, hcut⟩
  · rw [nil_append, ← replicate_succ, hfound] at hpanic
    cases hpanic
  · rw [nil_append, ← replicate_succ, hfound] at hcut
    obtain ⟨_, _, -, -, -, hbalanced⟩ := hsound _ (Option.some.inj hcut)
    exact hleft hbalanced

/-- With overflow checks the scan panics on as many open braces as the counter can hold. -/
theorem deep_braces_panic : ¬ CutsOut true (replicate (2 ^ 31) '{') := by
  have hlength : 2 ^ 31 - 1 + 1 = 2 ^ 31 := by norm_num
  rw [← hlength]
  exact not_cutsOut_braces hlength.ge


end JsonScanning
