import Mathlib.Data.Int.Basic
import Mathlib.Data.List.Basic

/-! # JSON texts

The texts of JSON values, and how a reader that only counts braces outside of string literals goes
through them.
-/
namespace JsonSyntax

open List

abbrev Text := List Char

inductive Mode where
  | plain
  | quoted
  | escaped
  deriving DecidableEq

def readChar (s : Mode × ℤ) (c : Char) : Mode × ℤ :=
  match s.1 with
  | .escaped => (.quoted, s.2)
  | .quoted =>
    if c = '\\' then (.escaped, s.2) else if c = '"' then (.plain, s.2) else (.quoted, s.2)
  | .plain =>
    if c = '"' then (.quoted, s.2)
    else if c = '{' then (.plain, s.2 + 1)
    else if c = '}' then (.plain, s.2 - 1)
    else (.plain, s.2)

variable (text : Text)

/-- Outside of string literals the braces nest until the end, where the first one is closed. -/
structure Balanced : Prop where
  closed : text.foldl readChar (.plain, 0) = (.plain, 0)
  nested : ∀ t, t <+: text → t ≠ [] → t ≠ text → 0 < (t.foldl readChar (.plain, 0)).2

/-- The text up to where the braces are closed for the first time. -/
def closing (s : Mode × ℤ) : Text → Option Text
  | [] => none
  | c :: rest =>
    if readChar s c = (.plain, 0) then some [c] else (closing (readChar s c) rest).map (c :: ·)

variable {s : Mode × ℤ}

theorem readChar_down {c : Char} (h : (readChar s c).2 < s.2) :
    c = '}' ∧ readChar s c = (.plain, s.2 - 1) := by
  obtain ⟨mode, depth⟩ := s
  cases mode with
  | escaped => exact absurd h (Int.lt_irrefl _)
  | quoted =>
    simp only [readChar] at h
    split_ifs at h <;> exact absurd h (Int.lt_irrefl _)
  | plain =>
    simp only [readChar] at h ⊢
    split_ifs at h ⊢ with hquote hopen hclose
    · exact absurd h (Int.lt_irrefl _)
    · dsimp only at h; omega
    · exact ⟨hclose, rfl⟩
    · exact absurd h (Int.lt_irrefl _)

theorem readChar_up (s : Mode × ℤ) (c : Char) : (readChar s c).2 ≤ s.2 + 1 := by
  obtain ⟨mode, depth⟩ := s
  have hstay : depth ≤ depth + 1 := by omega
  cases mode with
  | escaped => exact hstay
  | quoted =>
    simp only [readChar]
    split_ifs <;> exact hstay
  | plain =>
    simp only [readChar]
    split_ifs <;> dsimp only <;> omega

theorem closing_spec {text t : Text} (h : closing s text = some t) :
    t <+: text ∧ t ≠ [] ∧ t.foldl readChar s = (.plain, 0) := by
  induction text generalizing s t with
  | nil => cases h
  | cons c rest ih =>
    rw [closing] at h
    split_ifs at h with hend
    · cases h
      exact ⟨⟨rest, rfl⟩, by simp, hend⟩
    · obtain ⟨t', ht', rfl⟩ := Option.map_eq_some_iff.mp h
      obtain ⟨hpre, -, hread⟩ := ih ht'
      exact ⟨cons_prefix_cons.mpr ⟨rfl, hpre⟩, by simp, hread⟩

theorem closing_nested {text t : Text} (h : closing s text = some t) (hs : 0 < s.2) :
    ∀ u, u <+: t → u ≠ t → 0 < (u.foldl readChar s).2 := by
  induction text generalizing s t with
  | nil => cases h
  | cons c rest ih =>
    rw [closing] at h
    intro u hpre hne
    cases u with
    | nil => exact hs
    | cons c' u =>
      split_ifs at h with hend
      · cases h
        obtain ⟨rfl, hnil⟩ := cons_prefix_cons.mp hpre
        exact absurd (by rw [prefix_nil.mp hnil]) hne
      · obtain ⟨t', ht', rfl⟩ := Option.map_eq_some_iff.mp h
        obtain ⟨rfl, hinner⟩ := cons_prefix_cons.mp hpre
        refine ih ht' ?_ u hinner fun he => hne (by rw [he])
        -- Only the brace that ends the object takes the nesting down to nothing.
        by_contra hdown
        obtain ⟨-, hread⟩ := @readChar_down s c' (by omega)
        rw [hread] at hend hdown
        exact hend (congrArg (Prod.mk _) (by dsimp only at hdown; omega))

theorem balanced_of_closing {text t : Text} (h : closing (.plain, 1) text = some t) :
    Balanced ('{' :: t) where
  closed := (closing_spec h).2.2
  nested := by
    intro u hpre hne hlast
    cases u with
    | nil => exact absurd rfl hne
    | cons c u =>
      obtain ⟨rfl, hinner⟩ := cons_prefix_cons.mp hpre
      exact closing_nested h Int.one_pos u hinner fun he => hlast (by rw [he])

def IsSpace : Prop := ∀ c ∈ text, c ∈ [' ', '\t', '\n', '\r']

def IsDigits : Prop := text ≠ [] ∧ ∀ c ∈ text, c.isDigit = true

def IsNumber : Prop :=
  ∃ sign int frac exp, text = sign ++ int ++ frac ++ exp ∧ sign ∈ [[], ['-']] ∧
    IsDigits int ∧ (int.head? = some '0' → int.length = 1) ∧
    (frac = [] ∨ ∃ digits, frac = '.' :: digits ∧ IsDigits digits) ∧
    (exp = [] ∨ ∃ e sign' digits, exp = e :: (sign' ++ digits) ∧ e ∈ ['e', 'E'] ∧
      sign' ∈ [[], ['+'], ['-']] ∧ IsDigits digits)

def IsScalar : Prop :=
  text ∈ ["null".toList, "true".toList, "false".toList] ∨ IsNumber text

def IsHexDigit (c : Char) : Prop := c.isDigit = true ∨ c ∈ "abcdefABCDEF".toList

inductive StringBody : Text → Prop where
  | nil : StringBody []
  | char {c t} (hc : c ≠ '"' ∧ c ≠ '\\' ∧ 32 ≤ c.toNat) (h : StringBody t) : StringBody (c :: t)
  | escape {c t} (hc : c ∈ "\"\\/bfnrt".toList) (h : StringBody t) : StringBody ('\\' :: c :: t)
  | unicode {hex t} (hlength : hex.length = 4) (hhex : ∀ c ∈ hex, IsHexDigit c)
      (h : StringBody t) : StringBody ('\\' :: 'u' :: (hex ++ t))

inductive Kind where
  | value
  | elements
  | members
  | object

inductive Written : Kind → Text → Prop where
  | scalar {t} (h : IsScalar t) : Written .value t
  | string {t} (h : StringBody t) : Written .value ('"' :: (t ++ ['"']))
  | noElements {ws} (h : IsSpace ws) : Written .value ('[' :: (ws ++ [']']))
  | array {t} (h : Written .elements t) : Written .value ('[' :: (t ++ [']']))
  | object {t} (h : Written .object t) : Written .value t
  | element {ws t ws'} (hws : IsSpace ws) (h : Written .value t) (hws' : IsSpace ws') :
      Written .elements (ws ++ (t ++ ws'))
  | moreElements {s t} (hs : Written .elements s) (ht : Written .elements t) :
      Written .elements (s ++ ',' :: t)
  | member {ws key ws₁ ws₂ t ws₃} (hws : IsSpace ws) (hkey : StringBody key)
      (hws₁ : IsSpace ws₁) (hws₂ : IsSpace ws₂) (h : Written .value t) (hws₃ : IsSpace ws₃) :
      Written .members (ws ++ ('"' :: (key ++ ['"']) ++ (ws₁ ++ ':' :: (ws₂ ++ (t ++ ws₃)))))
  | moreMembers {s t} (hs : Written .members s) (ht : Written .members t) :
      Written .members (s ++ ',' :: t)
  | noMembers {ws} (h : IsSpace ws) : Written .object ('{' :: (ws ++ ['}']))
  | braces {t} (h : Written .members t) : Written .object ('{' :: (t ++ ['}']))

def Neutral : Prop :=
  ∀ (d : ℤ) (rest : Text), 1 ≤ d →
    closing (.plain, d) (text ++ rest) = (closing (.plain, d) rest).map (text ++ ·)

theorem Neutral.append {s t : Text} (hs : Neutral s) (ht : Neutral t) : Neutral (s ++ t) := by
  intro d rest hd
  rw [append_assoc, hs d _ hd, ht d _ hd, Option.map_map]
  simp [Function.comp_def]

theorem closing_char {c : Char} (s' : Mode × ℤ) (hread : readChar s c = s')
    (hopen : s' ≠ (.plain, 0)) (rest : Text) : closing s (c :: rest) = (closing s' rest).map (c :: ·) := by
  rw [closing, hread, if_neg hopen]

theorem neutral_clear {text : Text} (h : ∀ c ∈ text, c ∉ ['"', '{', '}']) : Neutral text := by
  intro d rest hd
  induction text with
  | nil => simp
  | cons c text ih =>
    have hc := h c mem_cons_self
    simp only [mem_cons, not_mem_nil, or_false, not_or] at hc
    have hread : readChar (.plain, d) c = (.plain, d) := by simp [readChar, hc]
    have hopen : ((.plain, d) : Mode × ℤ) ≠ (.plain, 0) := by simp; omega
    rw [cons_append, closing_char _ hread hopen, ih fun c hc => h c (mem_cons_of_mem _ hc),
      Option.map_map]
    rfl

theorem closing_quoted {text : Text} (h : ∀ c ∈ text, c ≠ '"' ∧ c ≠ '\\') (d : ℤ) (rest : Text) :
    closing (.quoted, d) (text ++ rest) = (closing (.quoted, d) rest).map (text ++ ·) := by
  induction text with
  | nil => simp
  | cons c text ih =>
    have hread : readChar (.quoted, d) c = (.quoted, d) := by simp [readChar, h c mem_cons_self]
    rw [cons_append, closing_char _ hread (by simp), ih fun c hc => h c (mem_cons_of_mem _ hc),
      Option.map_map]
    rfl

theorem neutral_string {text : Text} (h : StringBody text) : Neutral ('"' :: (text ++ ['"'])) := by
  intro d rest hd
  have hopen : ((.plain, d) : Mode × ℤ) ≠ (.plain, 0) := by simp; omega
  have hbody : closing (.quoted, d) (text ++ '"' :: rest) =
      (closing (.plain, d) rest).map (text ++ '"' :: ·) := by
    induction h with
    | nil => exact closing_char (.plain, d) rfl hopen rest
    | char hc _ ih =>
      rw [cons_append, ← singleton_append, closing_quoted (by simpa using ⟨hc.1, hc.2.1⟩), ih,
        Option.map_map]
      rfl
    | @escape c t hc _ ih =>
      rw [cons_append, cons_append, closing_char (.escaped, d) rfl (by simp),
        closing_char (.quoted, d) rfl (by simp), ih, Option.map_map, Option.map_map]
      rfl
    | @unicode hex t _ hhex _ ih =>
      have hplain : ∀ c ∈ hex, c ≠ '"' ∧ c ≠ '\\' := by
        intro c hc
        constructor
        · rintro rfl
          exact absurd (hhex _ hc) (by unfold IsHexDigit; decide)
        · rintro rfl
          exact absurd (hhex _ hc) (by unfold IsHexDigit; decide)
      rw [cons_append, cons_append, append_assoc, closing_char (.escaped, d) rfl (by simp),
        closing_char (.quoted, d) rfl (by simp), closing_quoted hplain, ih, Option.map_map,
        Option.map_map, Option.map_map]
      simp [Function.comp_def]
  rw [cons_append, append_assoc, singleton_append,
    closing_char (.quoted, d) rfl (by simp), hbody, Option.map_map]
  simp [Function.comp_def]

theorem IsSpace.neutral {text : Text} (h : IsSpace text) : Neutral text :=
  neutral_clear fun c hc => by
    have hspace := h c hc
    revert hspace
    simp only [mem_cons, not_mem_nil, or_false]
    rintro (rfl | rfl | rfl | rfl) <;> decide

theorem IsScalar.neutral {text : Text} (h : IsScalar text) : Neutral text := by
  apply neutral_clear
  have hdigits : ∀ digits, IsDigits digits → ∀ c ∈ digits, c ∉ ['"', '{', '}'] := by
    rintro digits ⟨-, hall⟩ c hc hbad
    have hdigit := hall c hc
    simp only [mem_cons, not_mem_nil, or_false] at hbad
    rcases hbad with rfl | rfl | rfl <;> exact absurd hdigit (by decide)
  rcases h with hword | ⟨sign, int, frac, exp, rfl, hsign, hint, -, hfrac, hexp⟩
  · simp only [mem_cons, not_mem_nil, or_false] at hword
    rcases hword with rfl | rfl | rfl <;> simp
  · intro c hc
    simp only [mem_append] at hc
    rcases hc with ((hc | hc) | hc) | hc
    · simp only [mem_cons, not_mem_nil, or_false] at hsign
      rcases hsign with rfl | rfl
      · cases hc
      · rw [mem_singleton.mp hc]
        decide
    · exact hdigits int hint c hc
    · rcases hfrac with rfl | ⟨digits, rfl, hall⟩
      · cases hc
      · rcases mem_cons.mp hc with rfl | hc
        · decide
        · exact hdigits digits hall c hc
    · rcases hexp with rfl | ⟨e, sign', digits, rfl, he, hsign', hall⟩
      · cases hc
      · simp only [mem_cons, mem_append, not_mem_nil, or_false] at hc he hsign'
        rcases hc with rfl | hc | hc
        · rcases he with rfl | rfl <;> decide
        · rcases hsign' with rfl | rfl | rfl
          · cases hc
          all_goals
            rw [mem_singleton.mp hc]
            decide
        · exact hdigits digits hall c hc

theorem neutral_braces {inner : Text} (h : Neutral inner) : Neutral ('{' :: (inner ++ ['}'])) := by
  intro d rest hd
  have hup : ((.plain, d + 1) : Mode × ℤ) ≠ (.plain, 0) := by simp; omega
  have hopen : ((.plain, d) : Mode × ℤ) ≠ (.plain, 0) := by simp; omega
  have hdown : readChar (.plain, d + 1) '}' = (.plain, d) := by simp [readChar]
  rw [cons_append, append_assoc, singleton_append, closing_char (.plain, d + 1) rfl hup,
    h (d + 1) _ (by omega), closing_char _ hdown hopen, Option.map_map, Option.map_map]
  simp [Function.comp_def]

theorem Written.neutral {kind : Kind} {text : Text} (h : Written kind text) : Neutral text := by
  have hclear : ∀ c ∈ ['[', ']', ',', ':'], Neutral [c] := fun c hc => neutral_clear fun d hd => by
    rw [mem_singleton.mp hd]
    revert hc
    simp only [mem_cons, not_mem_nil, or_false]
    rintro (rfl | rfl | rfl | rfl) <;> decide
  have hcons : ∀ c ∈ ['[', ']', ',', ':'], ∀ {t}, Neutral t → Neutral (c :: t) :=
    fun c hc t ht => (hclear c hc).append ht
  induction h with
  | scalar h => exact h.neutral
  | string h => exact neutral_string h
  | noElements h => exact hcons _ (by decide) (h.neutral.append (hclear _ (by decide)))
  | array _ ih => exact hcons _ (by decide) (ih.append (hclear _ (by decide)))
  | object _ ih => exact ih
  | element hws _ hws' ih => exact hws.neutral.append (ih.append hws'.neutral)
  | moreElements _ _ ihs iht => exact ihs.append (hcons _ (by decide) iht)
  | member hws hkey hws' hws'' _ hws''' ih =>
    refine hws.neutral.append ((neutral_string hkey).append (hws'.neutral.append ?_))
    exact hcons _ (by decide) (hws''.neutral.append (ih.append hws'''.neutral))
  | moreMembers _ _ ihs iht => exact ihs.append (hcons _ (by decide) iht)
  | noMembers h => exact neutral_braces h.neutral
  | braces _ ih => exact neutral_braces ih

theorem closing_object {object : Text} (h : Written .object object) :
    ∃ inner, object = '{' :: inner ∧
      ∀ rest, closing (.plain, 1) (inner ++ rest) = some inner := by
  have hinner : ∀ inner, Neutral inner → ∀ rest,
      closing (.plain, 1) (inner ++ ['}'] ++ rest) = some (inner ++ ['}']) := by
    intro inner hneutral rest
    rw [append_assoc, hneutral 1 _ (by decide)]
    rfl
  cases h with
  | noMembers h => exact ⟨_, rfl, hinner _ h.neutral⟩
  | braces h => exact ⟨_, rfl, hinner _ h.neutral⟩

end JsonSyntax
