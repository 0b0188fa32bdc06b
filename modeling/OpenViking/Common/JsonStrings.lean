import OpenViking.Common.Json

/-!
# Strings that are read back from JSON text

The text that `json.dumps` prints for a string and for an array of strings, with no blanks: from the
text and what follows it, the string and what follows are known.

* `quote_append_inj`: a string in quotes;
* `arrayText_append_inj`: an array of strings.
-/

namespace OpenViking.Json

/-! ## Characters -/

/-- The value of a hexadecimal digit. -/
def hexValue (c : Char) : ℕ :=
  if c.isDigit then c.toNat - '0'.toNat else c.toNat - 'a'.toNat + 10

/-- The character of an escape without digits. -/
def unescapeLetter (c : Char) : Char :=
  if c = 'n' then '\n'
  else if c = 'r' then '\r'
  else if c = 't' then '\t'
  else if c = 'b' then '\x08'
  else if c = 'f' then '\x0c'
  else c

/-- The first character of the text of a string, and the rest of the text. -/
def unescape : List Char → Option (Char × List Char)
  | [] => none
  | c :: t =>
    if c = '\\' then
      match t with
      | [] => none
      | e :: t =>
        if e = 'u' then
          match t with
          | _ :: _ :: h :: l :: t => some (Char.ofNat (16 * hexValue h + hexValue l), t)
          | _ => none
        else some (unescapeLetter e, t)
    else some (c, t)

theorem hexValue_digitChar {n : ℕ} (h : n < 32) :
    16 * hexValue (Nat.digitChar (n / 16)) + hexValue (Nat.digitChar (n % 16)) = n := by
  have hall : ∀ m : Fin 32, 16 * hexValue (Nat.digitChar (m.1 / 16)) +
      hexValue (Nat.digitChar (m.1 % 16)) = m.1 := by decide
  exact hall ⟨n, h⟩

/-- **An escaped character is read back.** -/
theorem unescape_escapeChar (c : Char) (t : List Char) : unescape (escapeChar c ++ t) = some (c, t) := by
  unfold escapeChar
  split_ifs with hquote hslash hn hr ht hb hf hcontrol
  all_goals try
    subst_vars
    rfl
  · show some (Char.ofNat (16 * hexValue (Nat.digitChar (c.toNat / 16)) +
      hexValue (Nat.digitChar (c.toNat % 16))), t) = some (c, t)
    rw [hexValue_digitChar hcontrol, Char.ofNat_toNat]
  · show unescape (c :: t) = _
    rw [unescape.eq_def]
    dsimp only
    rw [if_neg hslash]

variable {a b : List Char}

theorem escapeChar_append_inj {c d : Char} (h : escapeChar c ++ a = escapeChar d ++ b) : c = d ∧ a = b := by
  have hread := congrArg unescape h
  rw [unescape_escapeChar, unescape_escapeChar] at hread
  exact Prod.mk.inj (Option.some.inj hread)

/-- No character starts as the end of a string does. -/
theorem escapeChar_append_ne (c : Char) (a b : List Char) : escapeChar c ++ a ≠ '"' :: b := by
  unfold escapeChar
  split_ifs with hquote
  all_goals
    intro h
    have hhead := (List.cons.inj h).1
  case neg => exact hquote hhead
  all_goals exact absurd hhead (by decide)

/-! ## Strings and arrays -/

theorem flatMap_escapeChar_inj {s t a b : List Char}
    (h : s.flatMap escapeChar ++ '"' :: a = t.flatMap escapeChar ++ '"' :: b) : s = t ∧ a = b := by
  induction s generalizing t with
  | nil =>
    cases t with
    | nil => exact ⟨rfl, (List.cons.inj h).2⟩
    | cons d t =>
      rw [List.flatMap_cons, List.append_assoc] at h
      exact absurd h.symm (escapeChar_append_ne d _ _)
  | cons c s ih =>
    cases t with
    | nil =>
      rw [List.flatMap_cons, List.append_assoc] at h
      exact absurd h (escapeChar_append_ne c _ _)
    | cons d t =>
      rw [List.flatMap_cons, List.flatMap_cons, List.append_assoc, List.append_assoc] at h
      obtain ⟨rfl, hrest⟩ := escapeChar_append_inj h
      obtain ⟨rfl, hab⟩ := ih hrest
      exact ⟨rfl, hab⟩

/-- **A string in quotes is read back.** -/
theorem quote_append_inj {s t : String} (h : quote s ++ a = quote t ++ b) : s = t ∧ a = b := by
  rw [quote, quote, List.cons_append, List.cons_append, List.append_assoc, List.append_assoc] at h
  obtain ⟨hst, hab⟩ := flatMap_escapeChar_inj (List.cons.inj h).2
  exact ⟨String.toList_inj.1 hst, hab⟩

/-- The further items of an array of strings, and its end. -/
def moreText : List String → List Char
  | [] => [']']
  | s :: l => ',' :: (quote s ++ moreText l)

/-- An array of strings. -/
def arrayText : List String → List Char
  | [] => ['[', ']']
  | s :: l => '[' :: (quote s ++ moreText l)

theorem moreText_append_inj {l l' : List String}
    (h : moreText l ++ a = moreText l' ++ b) : l = l' ∧ a = b := by
  induction l generalizing l' with
  | nil =>
    cases l' with
    | nil => exact ⟨rfl, (List.cons.inj h).2⟩
    | cons s l' => exact absurd (List.cons.inj h).1 (by decide)
  | cons s l ih =>
    cases l' with
    | nil => exact absurd (List.cons.inj h).1 (by decide)
    | cons t l' =>
      rw [moreText, moreText, List.cons_append, List.cons_append, List.append_assoc,
        List.append_assoc] at h
      obtain ⟨rfl, hmore⟩ := quote_append_inj (List.cons.inj h).2
      obtain ⟨rfl, hab⟩ := ih hmore
      exact ⟨rfl, hab⟩

/-- **An array of strings is read back.** -/
theorem arrayText_append_inj {l l' : List String}
    (h : arrayText l ++ a = arrayText l' ++ b) : l = l' ∧ a = b := by
  have hquote : ∀ (s : String) (t u : List Char), quote s ++ t ≠ ']' :: u := fun s t u h =>
    absurd (List.cons.inj h).1 (by decide)
  cases l with
  | nil =>
    cases l' with
    | nil => exact ⟨rfl, (List.cons.inj (List.cons.inj h).2).2⟩
    | cons t l' =>
      simp only [arrayText, List.cons_append, List.append_assoc] at h
      exact absurd (List.cons.inj h).2.symm (hquote t _ _)
  | cons s l =>
    cases l' with
    | nil =>
      rw [arrayText, arrayText, List.cons_append, List.cons_append, List.append_assoc] at h
      exact absurd (List.cons.inj h).2 (hquote s _ _)
    | cons t l' =>
      rw [arrayText, arrayText, List.cons_append, List.cons_append, List.append_assoc,
        List.append_assoc] at h
      obtain ⟨rfl, hmore⟩ := quote_append_inj (List.cons.inj h).2
      obtain ⟨rfl, hab⟩ := moreText_append_inj hmore
      exact ⟨rfl, hab⟩

end OpenViking.Json
