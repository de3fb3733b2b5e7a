import RefactEngine.TextCodes

/-! # JSON texts

Strings, lists and booleans as a compact serializer writes them. Each of them delimits its values.
-/
namespace JsonText

abbrev Text := List Char

/-- The escapes of a string: short ones where there are any, else the code of a control character.
-/
def escapeChar (c : Char) : Text :=
  if c = '"' then ['\\', '"']
  else if c = '\\' then ['\\', '\\']
  else if c = '\n' then ['\\', 'n']
  else if c = '\r' then ['\\', 'r']
  else if c = '\t' then ['\\', 't']
  else if c.toNat = 8 then ['\\', 'b']
  else if c.toNat = 12 then ['\\', 'f']
  else if c.toNat < 32 then
    ['\\', 'u', '0', '0', Nat.digitChar (c.toNat / 16), Nat.digitChar (c.toNat % 16)]
  else [c]

def jsonString (text : Text) : Text :=
  '"' :: (text.flatMap escapeChar ++ ['"'])

def jsonBool (b : Bool) : Text :=
  if b then ['t', 'r', 'u', 'e'] else ['f', 'a', 'l', 's', 'e']

def jsonList {α : Type*} (render : α → Text) : List α → Text
  | [] => ['[', ']']
  | a :: l => '[' :: (render a ++ (l.flatMap (fun b => ',' :: render b) ++ [']']))

def hexValue (c : Char) : ℕ :=
  if c.isDigit then c.toNat - 48 else c.toNat - 87

theorem hexValue_digitChar : ∀ n < 16, hexValue (Nat.digitChar n) = n := by
  decide

def shortEscape (c : Char) : Char :=
  if c = 'n' then '\n' else if c = 'r' then '\r' else if c = 't' then '\t'
  else if c = 'b' then Char.ofNat 8 else if c = 'f' then Char.ofNat 12 else c

def unescape : Text → Option (Char × Text)
  | [] => none
  | '\\' :: 'u' :: _ :: _ :: a :: b :: rest =>
    some (Char.ofNat (16 * hexValue a + hexValue b), rest)
  | '\\' :: c :: rest => some (shortEscape c, rest)
  | c :: rest => some (c, rest)

theorem unescape_of_ne {c : Char} (h : c ≠ '\\') (rest : Text) :
    unescape (c :: rest) = some (c, rest) := by
  unfold unescape
  split <;> simp_all

theorem unescape_escapeChar (c : Char) (rest : Text) :
    unescape (escapeChar c ++ rest) = some (c, rest) := by
  unfold escapeChar
  split_ifs with hquote hslash hline hreturn htab hback hform hcontrol
  · rw [hquote]
    rfl
  · rw [hslash]
    rfl
  · rw [hline]
    rfl
  · rw [hreturn]
    rfl
  · rw [htab]
    rfl
  · rw [← Char.ofNat_toNat c, hback]
    rfl
  · rw [← Char.ofNat_toNat c, hform]
    rfl
  · have hhigh := hexValue_digitChar (c.toNat / 16) (by omega)
    have hlow := hexValue_digitChar (c.toNat % 16) (by omega)
    have hsum : 16 * (c.toNat / 16) + c.toNat % 16 = c.toNat := Nat.div_add_mod _ _
    change some (Char.ofNat (16 * hexValue _ + hexValue _), rest) = _
    rw [hhigh, hlow, hsum, Char.ofNat_toNat]
  · exact unescape_of_ne hslash rest

theorem delimits_escapeChar : Delimits (fun _ : Char => True) escapeChar :=
  .of_decode unescape fun c rest _ => unescape_escapeChar c rest

theorem escapeChar_ne_quote (c : Char) (rest tail : Text) : escapeChar c ++ rest ≠ '"' :: tail := by
  intro h
  have hdecode := congrArg unescape h
  rw [unescape_escapeChar, unescape_of_ne (by decide)] at hdecode
  obtain ⟨rfl, -⟩ := Prod.mk.inj (Option.some.inj hdecode)
  cases h

theorem delimits_jsonString : Delimits (fun _ : Text => True) jsonString := by
  have hchars := @Delimits.flatMap _ _ _ _ delimits_escapeChar ['"']
    fun c rest tail _ => escapeChar_ne_quote c rest tail
  exact (hchars.cons '"').mono fun _ _ _ _ => trivial

theorem delimits_jsonBool : Delimits (fun _ : Bool => True) jsonBool := by
  intro a b s t _ _ heq
  cases a <;> cases b
  · exact ⟨rfl, List.append_cancel_left heq⟩
  · cases heq
  · cases heq
  · exact ⟨rfl, List.append_cancel_left heq⟩

theorem delimits_jsonList {α : Type*} {render : α → Text}
    (h : Delimits (fun _ : α => True) render) (hopen : ∀ a s t, render a ++ s ≠ ']' :: t) :
    Delimits (fun _ : List α => True) (jsonList render) := by
  have hrest : Delimits (fun l : List α => ∀ a ∈ l, True)
      fun l => l.flatMap (fun b => ',' :: render b) ++ [']'] :=
    (h.cons ',').flatMap fun _ _ _ _ hbad => by cases hbad
  intro l l' s t _ _ heq
  cases l with
  | nil =>
    cases l' with
    | nil => exact ⟨rfl, List.append_cancel_left heq⟩
    | cons b l' =>
      simp only [jsonList, List.cons_append, List.nil_append, List.append_assoc] at heq
      exact absurd (List.cons.inj heq).2.symm (hopen b _ s)
  | cons a l =>
    cases l' with
    | nil =>
      simp only [jsonList, List.cons_append, List.nil_append, List.append_assoc] at heq
      exact absurd (List.cons.inj heq).2 (hopen a _ t)
    | cons b l' =>
      simp only [jsonList, List.cons_append, List.append_assoc] at heq
      obtain ⟨rfl, htail⟩ := h trivial trivial (List.cons.inj heq).2
      obtain ⟨rfl, hst⟩ := @hrest l l' s t (fun _ _ => trivial) (fun _ _ => trivial)
        (by simpa only [List.append_assoc, List.cons_append] using htail)
      exact ⟨rfl, hst⟩

example : jsonString ['a', '"', '\n', Char.ofNat 1] =
    ['"', 'a', '\\', '"', '\\', 'n', '\\', 'u', '0', '0', '0', '1', '"'] := by decide

end JsonText
