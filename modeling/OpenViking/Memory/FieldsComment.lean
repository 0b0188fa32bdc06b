import OpenViking.Common.Json
import Mathlib.Data.List.DropRight

/-!
# The comment with the fields

The search for the comment `<!-- MEMORY_FIELDS … -->` in the text of a memory file
(`session/memory/utils/messages.py`): the regular expression
`<!--\s*MEMORY_FIELDS\s*([\s\S]*?)\s*-->`, its first match and its removal; and `str.strip`.

* `strip_append_spaces`, `strip_of_ends`: what stripping takes away, and what it leaves.
-/

namespace OpenViking.Memory

/-! ## Model -/

/-- `str.isspace` of a character, and `\s`. -/
def isSpace (c : Char) : Bool :=
  let n := c.toNat
  decide (9 ≤ n ∧ n ≤ 13 ∨ 28 ≤ n ∧ n ≤ 32 ∨ n = 0x85 ∨ n = 0xa0 ∨ n = 0x1680 ∨
    0x2000 ≤ n ∧ n ≤ 0x200a ∨ n = 0x2028 ∨ n = 0x2029 ∨ n = 0x202f ∨ n = 0x205f ∨ n = 0x3000)

/-- `str.strip`. -/
def strip (t : List Char) : List Char := (t.dropWhile isSpace).rdropWhile isSpace

/-- The rest of a text after a word that it starts with. -/
def dropPrefix (w t : List Char) : Option (List Char) :=
  if w <+: t then some (t.drop w.length) else none

/-- The start of a comment. -/
def opener : List Char := ['<', '!', '-', '-']

/-- The name that the comment begins with. -/
def fieldsName : List Char := ['M', 'E', 'M', 'O', 'R', 'Y', '_', 'F', 'I', 'E', 'L', 'D', 'S']

/-- The end of a comment. -/
def arrow : List Char := ['-', '-', '>']

/-- `<!--\s*MEMORY_FIELDS\s*`, where the text begins. -/
def openComment (t : List Char) : Option (List Char) := do
  let t ← dropPrefix opener t
  let t ← dropPrefix fieldsName (t.dropWhile isSpace)
  some (t.dropWhile isSpace)

/-- `([\s\S]*?)\s*-->`: the group, as short as it can be, and what follows. -/
def lazyGroup : List Char → Option (List Char × List Char)
  | [] => none
  | c :: t =>
    match dropPrefix arrow ((c :: t).dropWhile isSpace) with
    | some after => some ([], after)
    | none => (lazyGroup t).map fun m => (c :: m.1, m.2)

/-- `re.search`: the text before the first match, its group, and the text after it. -/
def search : List Char → Option (List Char × List Char × List Char)
  | [] => none
  | c :: t =>
    match (openComment (c :: t)).bind lazyGroup with
    | some m => some ([], m)
    | none => (search t).map fun m => (c :: m.1, m.2)

/-- At most so many matches taken out. -/
def removeMatches : ℕ → List Char → List Char
  | 0, t => t
  | n + 1, t =>
    match search t with
    | none => t
    | some (before, _, after) => before ++ removeMatches n after

/-- `re.sub(pattern, "", t)`. -/
def sub (t : List Char) : List Char := removeMatches t.length t

/-- The comment that `_serialize_with_metadata` puts after the content. -/
def comment (json : List Char) : List Char :=
  opener ++ ([' '] ++ (fieldsName ++ ('\n' :: (json ++ ('\n' :: arrow)))))

/-! ## Stripping -/

theorem strip_append_spaces (t : List Char) {spaces : List Char}
    (h : ∀ c ∈ spaces, isSpace c = true) : strip (t ++ spaces) = strip t := by
  have hright : ∀ t, (t ++ spaces).rdropWhile isSpace = t.rdropWhile isSpace := by
    induction spaces using List.reverseRecOn with
    | nil => simp
    | append_singleton spaces c ih =>
      intro t
      rw [← List.append_assoc, List.rdropWhile_concat_pos _ _ c (h c (by simp)),
        ih fun d hd => h d (List.mem_append_left _ hd)]
  rw [strip, strip, List.dropWhile_append]
  split_ifs with hnil
  · rw [List.isEmpty_iff.1 hnil, List.dropWhile_eq_nil_iff.2 h]
  · exact hright _

/-- A text without a blank at either end. -/
theorem strip_of_ends {c : Char} {t : List Char} (hc : isSpace c = false)
    (hlast : ∀ d ∈ (c :: t).getLast?, isSpace d = false) : strip (c :: t) = c :: t := by
  rw [strip, List.dropWhile_cons_of_neg (by simp [hc]), List.rdropWhile_eq_self_iff]
  intro hne
  rw [hlast _ (List.getLast?_eq_some_getLast hne)]
  simp

end OpenViking.Memory
