import OpenViking.Common.Json
import Mathlib.Tactic.SplitIfs

/-!
# JSON values on lines of their own

The text that `json.dumps` prints without an indentation and without escapes for what is not ASCII,
and the two ways in which Python cuts a text into lines.  Outside of its strings such a text is plain
ASCII, and nowhere does it have a control character.

* `inside_of_not_plain`: what is not plain is in a string;
* `splitlines_line`, `splitlines_cut`: the first line of a text.
-/

namespace OpenViking

/-! ## Lines -/

/-- A line boundary of `str.splitlines`. -/
def isLineEnd (c : Char) : Bool :=
  decide (10 ≤ c.toNat ∧ c.toNat ≤ 13 ∨ 28 ≤ c.toNat ∧ c.toNat ≤ 30 ∨ c.toNat = 0x85 ∨
    c.toNat = 0x2028 ∨ c.toNat = 0x2029)

/-- The line boundaries that are not control characters below the space. -/
def isSeparator (c : Char) : Bool :=
  decide (c.toNat = 0x85 ∨ c.toNat = 0x2028 ∨ c.toNat = 0x2029)

/-- `str.splitlines`. -/
def splitlines : List Char → List (List Char)
  | [] => []
  | '\r' :: '\n' :: t => [] :: splitlines t
  | c :: t =>
    if isLineEnd c then [] :: splitlines t
    else
      match splitlines t with
      | [] => [[c]]
      | l :: ls => (c :: l) :: ls

theorem splitlines_cons {c : Char} (hc : isLineEnd c = false) (t : List Char) :
    splitlines (c :: t) =
      match splitlines t with
      | [] => [[c]]
      | l :: ls => (c :: l) :: ls := by
  rw [splitlines]
  · rw [if_neg (by rw [hc]; decide)]
  · intro t' hcr _
    rw [hcr] at hc
    exact absurd hc (by decide)

theorem splitlines_lineEnd {c : Char} (hc : isLineEnd c = true) (t : List Char) :
    ∃ ls, splitlines (c :: t) = [] :: ls := by
  unfold splitlines
  split
  · rename_i heq
    cases heq
  · exact ⟨_, rfl⟩
  · rename_i heq
    obtain ⟨rfl, rfl⟩ := List.cons.inj heq
    rw [if_pos hc]
    exact ⟨_, rfl⟩

/-- The first line ends at the first boundary. -/
theorem splitlines_cut {a : List Char} (ha : ∀ c ∈ a, isLineEnd c = false) {c : Char}
    (hc : isLineEnd c = true) (t : List Char) : ∃ ls, splitlines (a ++ c :: t) = a :: ls := by
  induction a with
  | nil => exact splitlines_lineEnd hc t
  | cons x a ih =>
    obtain ⟨ls, hls⟩ := ih fun c hc => ha c (List.mem_cons_of_mem x hc)
    rw [List.cons_append, splitlines_cons (ha x List.mem_cons_self), hls]
    exact ⟨ls, rfl⟩

theorem splitlines_line {a : List Char} (ha : ∀ c ∈ a, isLineEnd c = false) (t : List Char) :
    splitlines (a ++ '\n' :: t) = a :: splitlines t := by
  induction a with
  | nil =>
    show splitlines ('\n' :: t) = _
    rw [splitlines]
    · rw [if_pos (by decide)]
    · intro t' h
      exact absurd h (by decide)
  | cons x a ih =>
    rw [List.cons_append, splitlines_cons (ha x List.mem_cons_self),
      ih fun c hc => ha c (List.mem_cons_of_mem x hc)]

/-! ## The lexical structure of JSON -/

/-- Where a reader of a text is: outside of the strings, in one, or after a backslash in one. -/
inductive Lex where
  | outside
  | inside
  | escaped
  deriving DecidableEq, Repr

/-- What is outside of the strings of a text on one line. -/
def isPlain (c : Char) : Bool := decide (32 ≤ c.toNat ∧ c.toNat < 127 ∧ c ≠ '"')

namespace Lex

/-- One character: none where it cannot stand. -/
def next : Lex → Char → Option Lex
  | .outside, c => if c = '"' then some .inside else if isPlain c then some .outside else none
  | .inside, c =>
    if c.toNat < 32 then none
    else if c = '"' then some .outside
    else if c = '\\' then some .escaped
    else some .inside
  | .escaped, c => if c.toNat < 32 then none else some .inside

/-- A text. -/
def read (s : Lex) : List Char → Option Lex
  | [] => some s
  | c :: t => (s.next c).bind fun s => s.read t

theorem read_append (s : Lex) (a b : List Char) : s.read (a ++ b) = (s.read a).bind fun s => s.read b := by
  induction a generalizing s with
  | nil => rfl
  | cons c a ih =>
    show (s.next c).bind _ = ((s.next c).bind _).bind _
    cases s.next c with
    | none => rfl
    | some s => exact ih s

theorem read_plain {a : List Char} (ha : a.all isPlain = true) : outside.read a = some .outside := by
  induction a with
  | nil => rfl
  | cons c a ih =>
    rw [List.all_cons, Bool.and_eq_true] at ha
    have hc := ha.1
    have hq : c ≠ '"' := by
      rintro rfl
      exact absurd hc (by decide)
    show (Option.bind (if c = '"' then _ else _) _) = _
    rw [if_neg hq, if_pos hc]
    exact ih ha.2

/-- Nowhere does a text that can be read have a control character. -/
theorem not_control_of_next {s s' : Lex} {c : Char} (h : s.next c = some s') : 32 ≤ c.toNat := by
  cases s with
  | outside =>
    rw [next] at h
    split_ifs at h with hq hp
    · rw [hq]
      decide
    · exact (of_decide_eq_true hp).1
  | inside =>
    rw [next] at h
    split_ifs at h <;> omega
  | escaped =>
    rw [next] at h
    split_ifs at h
    omega

theorem not_control {s s' : Lex} {t : List Char} (h : s.read t = some s') : ∀ c ∈ t, 32 ≤ c.toNat := by
  induction t generalizing s with
  | nil => simp
  | cons c t ih =>
    obtain ⟨u, hu, ht⟩ := Option.bind_eq_some_iff.1 h
    exact List.forall_mem_cons.2 ⟨not_control_of_next hu, ih ht⟩

/-- What is before a character that is not plain ends in a string. -/
theorem inside_of_not_plain {a b : List Char} {c : Char} (hc : isPlain c = false) (hq : c ≠ '"')
    {s : Lex} (h : outside.read (a ++ c :: b) = some s) :
    outside.read a = some .inside ∨ outside.read a = some .escaped := by
  rw [read_append] at h
  obtain ⟨u, hu, ht⟩ := Option.bind_eq_some_iff.1 h
  cases u with
  | inside => exact .inl hu
  | escaped => exact .inr hu
  | outside =>
    obtain ⟨v, hv, -⟩ := Option.bind_eq_some_iff.1 ht
    rw [next, if_neg hq, if_neg (by rw [hc]; decide)] at hv
    cases hv

end Lex

/-! ## The text of a value -/

namespace Json

mutual

/-- The text of a value on one line; `gap` follows the commas and the colons. -/
def line (gap : List Char) : Json → List Char
  | .null => "null".toList
  | .bool true => "true".toList
  | .bool false => "false".toList
  | .number n => n.text
  | .str s => quote s
  | .arr [] => "[]".toList
  | .arr (v :: vs) => '[' :: (v.line gap ++ (lineMore gap vs ++ [']']))
  | .obj [] => "{}".toList
  | .obj ((k, v) :: kvs) =>
    '{' :: (quote k ++ (':' :: (gap ++ (v.line gap ++ (lineMorePairs gap kvs ++ ['}'])))))

def lineMore (gap : List Char) : List Json → List Char
  | [] => []
  | v :: vs => ',' :: (gap ++ (v.line gap ++ lineMore gap vs))

def lineMorePairs (gap : List Char) : List (String × Json) → List Char
  | [] => []
  | (k, v) :: kvs =>
    ',' :: (gap ++ (quote k ++ (':' :: (gap ++ (v.line gap ++ lineMorePairs gap kvs)))))

end

/-! ### Reading it -/

theorem next_digitChar : ∀ n < 16, Lex.inside.next (Nat.digitChar n) = some .inside := by decide

theorem read_escapeChar (c : Char) : Lex.inside.read (escapeChar c) = some .inside := by
  unfold escapeChar
  split_ifs with h1 h2 h3 h4 h5 h6 h7 h8
  all_goals try rfl
  · have hhigh := next_digitChar (c.toNat / 16) (by omega)
    have hlow := next_digitChar (c.toNat % 16) (by omega)
    show ((Lex.inside.next _).bind fun s => (Lex.next s _).bind fun s => Lex.read s []) = _
    rw [hhigh, Option.bind_some, hlow]
    rfl
  · show (Option.bind (if _ then _ else _) _) = _
    rw [if_neg h8, if_neg h1, if_neg h2]
    rfl

theorem read_flatMap_escapeChar (t : List Char) :
    Lex.inside.read (t.flatMap escapeChar) = some .inside := by
  induction t with
  | nil => rfl
  | cons c t ih => rw [List.flatMap_cons, Lex.read_append, read_escapeChar, Option.bind_some, ih]

theorem read_quote (s : String) : Lex.outside.read (quote s) = some .outside := by
  show Lex.inside.read (_ ++ _) = _
  rw [Lex.read_append, read_flatMap_escapeChar]
  rfl

theorem isPlain_number (n : JsonNumber) : n.text.all isPlain = true := by
  have hall : numberChars.all isPlain = true := by decide
  rw [List.all_eq_true] at hall ⊢
  intro c hc
  exact hall c (by simpa using List.all_eq_true.1 n.plain c hc)

theorem read_number (n : JsonNumber) : Lex.outside.read n.text = some .outside :=
  Lex.read_plain (isPlain_number n)

variable {gap : List Char}

/-- A plain character, and a text. -/
theorem read_cons {c : Char} (hc : isPlain c = true) (t : List Char) :
    Lex.outside.read (c :: t) = Lex.outside.read t := by
  have h : Lex.outside.read [c] = some .outside :=
    Lex.read_plain (by rw [List.all_cons, hc]; rfl)
  rw [← List.singleton_append, Lex.read_append, h, Option.bind_some]

theorem read_append {a : List Char} (ha : Lex.outside.read a = some .outside) (t : List Char) :
    Lex.outside.read (a ++ t) = Lex.outside.read t := by
  rw [Lex.read_append, ha, Option.bind_some]

mutual

/-- Outside of its strings, the text of a value is plain. -/
theorem read_line (hgap : gap.all isPlain = true) :
    (v : Json) → Lex.outside.read (v.line gap) = some .outside
  | .null | .bool true | .bool false => by rw [line]; rfl
  | .number n => by rw [line, read_number]
  | .str s => by rw [line, read_quote]
  | .arr [] => by rw [line]; rfl
  | .arr (v :: vs) => by
    rw [line, read_cons (by decide), read_append (read_line hgap v),
      read_append (read_lineMore hgap vs)]
    rfl
  | .obj [] => by rw [line]; rfl
  | .obj ((k, v) :: kvs) => by
    rw [line, read_cons (by decide), read_append (read_quote k), read_cons (by decide),
      read_append (Lex.read_plain hgap), read_append (read_line hgap v),
      read_append (read_lineMorePairs hgap kvs)]
    rfl

theorem read_lineMore (hgap : gap.all isPlain = true) :
    (vs : List Json) → Lex.outside.read (lineMore gap vs) = some .outside
  | [] => by rw [lineMore]; rfl
  | v :: vs => by
    rw [lineMore, read_cons (by decide), read_append (Lex.read_plain hgap),
      read_append (read_line hgap v), read_lineMore hgap vs]

theorem read_lineMorePairs (hgap : gap.all isPlain = true) :
    (kvs : List (String × Json)) → Lex.outside.read (lineMorePairs gap kvs) = some .outside
  | [] => by rw [lineMorePairs]; rfl
  | (k, v) :: kvs => by
    rw [lineMorePairs, read_cons (by decide), read_append (Lex.read_plain hgap),
      read_append (read_quote k), read_cons (by decide), read_append (Lex.read_plain hgap),
      read_append (read_line hgap v), read_lineMorePairs hgap kvs]

end

/-! ### The characters in it -/

theorem escapeChar_of_not_plain {c : Char} (hc : 127 ≤ c.toNat) : escapeChar c = [c] := by
  unfold escapeChar
  split_ifs with h1 h2 h3 h4 h5 h6 h7 h8
  all_goals first
    | rfl
    | omega
    | (subst_vars; exact absurd hc (by decide))

theorem toNat_lt_of_all {l : List Char} (h : l.all (fun c => decide (c.toNat < 127)) = true)
    {d : Char} (hd : d ∈ l) : d.toNat < 127 :=
  of_decide_eq_true (List.all_eq_true.1 h d hd)

theorem toNat_lt_of_mem_escapeChar {c d : Char} (hd : d ∈ escapeChar c) (hne : d ≠ c) : d.toNat < 127 := by
  have hdigit : ∀ n < 16, (Nat.digitChar n).toNat < 127 := by decide
  unfold escapeChar at hd
  split_ifs at hd with h1 h2 h3 h4 h5 h6 h7 h8
  iterate 7 exact toNat_lt_of_all rfl hd
  · rw [show ['\\', 'u', '0', '0', Nat.digitChar (c.toNat / 16), Nat.digitChar (c.toNat % 16)] =
      ['\\', 'u', '0', '0'] ++ [Nat.digitChar (c.toNat / 16), Nat.digitChar (c.toNat % 16)] from
      rfl, List.mem_append] at hd
    rcases hd with hd | hd
    · exact toNat_lt_of_all rfl hd
    · rcases List.mem_cons.1 hd with hd | hd
      · rw [hd]
        exact hdigit _ (by omega)
      · rw [List.mem_singleton.1 hd]
        exact hdigit _ (by omega)
  · exact absurd (List.mem_singleton.1 hd) hne

variable {c : Char}

theorem mem_quote (hc : 127 ≤ c.toNat) (s : String) : c ∈ quote s ↔ c ∈ s.toList := by
  have hq : c ≠ '"' := by
    rintro rfl
    exact absurd hc (by decide)
  rw [quote, List.mem_cons, List.mem_append, List.mem_singleton, List.mem_flatMap]
  constructor
  · rintro (h | ⟨d, hd, hcd⟩ | h)
    · exact absurd h hq
    · by_cases hne : c = d
      · rwa [hne]
      · have := toNat_lt_of_mem_escapeChar hcd hne
        omega
    · exact absurd h hq
  · intro h
    refine .inr (.inl ⟨c, h, ?_⟩)
    rw [escapeChar_of_not_plain hc]
    exact List.mem_singleton_self c

theorem not_mem_of_plain {t : List Char} (ht : t.all isPlain = true) (hc : 127 ≤ c.toNat) : c ∉ t := by
  intro h
  have := (of_decide_eq_true (List.all_eq_true.1 ht c h)).2.1
  omega

theorem exists_mem_append {p : String → Prop} {l l' : List String} :
    (∃ s ∈ l ++ l', p s) ↔ (∃ s ∈ l, p s) ∨ ∃ s ∈ l', p s := by
  simp only [List.mem_append, or_and_right, exists_or]

mutual

/-- A character that is not ASCII is in the text of a value if it is in one of its strings. -/
theorem mem_line (hgap : gap.all isPlain = true) (hc : 127 ≤ c.toNat) :
    (v : Json) → (c ∈ v.line gap ↔ ∃ s ∈ v.strings, c ∈ s.toList)
  | .null | .bool true | .bool false => by
    rw [line]
    exact iff_of_false (not_mem_of_plain (by decide) hc) (by simp [strings])
  | .number n => by
    rw [line]
    exact iff_of_false (not_mem_of_plain (isPlain_number n) hc) (by simp [strings])
  | .str s => by
    rw [line, strings, mem_quote hc]
    simp
  | .arr [] => by
    rw [line, strings, stringsOf]
    exact iff_of_false (not_mem_of_plain (by decide) hc) (by simp)
  | .arr (v :: vs) => by
    have hopen : c ∉ ['['] := not_mem_of_plain (by decide) hc
    have hclose : c ∉ [']'] := not_mem_of_plain (by decide) hc
    rw [line, strings, stringsOf, ← List.singleton_append, List.mem_append, List.mem_append,
      List.mem_append, or_iff_right hopen, or_iff_left hclose, mem_line hgap hc v,
      mem_lineMore hgap hc vs, exists_mem_append]
  | .obj [] => by
    rw [line, strings, stringsOfPairs]
    exact iff_of_false (not_mem_of_plain (by decide) hc) (by simp)
  | .obj ((k, v) :: kvs) => by
    have hopen : c ∉ ['{'] := not_mem_of_plain (by decide) hc
    have hcolon : c ∉ [':'] := not_mem_of_plain (by decide) hc
    have hclose : c ∉ ['}'] := not_mem_of_plain (by decide) hc
    rw [line, strings, stringsOfPairs, ← List.singleton_append, List.mem_append, List.mem_append,
      or_iff_right hopen, mem_quote hc, ← List.singleton_append, List.mem_append, or_iff_right hcolon,
      List.mem_append, or_iff_right (not_mem_of_plain hgap hc), List.mem_append, List.mem_append,
      or_iff_left hclose, mem_line hgap hc v, mem_lineMorePairs hgap hc kvs, List.exists_mem_cons_iff,
      exists_mem_append]

theorem mem_lineMore (hgap : gap.all isPlain = true) (hc : 127 ≤ c.toNat) :
    (vs : List Json) → (c ∈ lineMore gap vs ↔ ∃ s ∈ stringsOf vs, c ∈ s.toList)
  | [] => by simp [lineMore, stringsOf]
  | v :: vs => by
    have hcomma : c ∉ [','] := not_mem_of_plain (by decide) hc
    rw [lineMore, stringsOf, ← List.singleton_append, List.mem_append, List.mem_append,
      List.mem_append, or_iff_right hcomma, or_iff_right (not_mem_of_plain hgap hc),
      mem_line hgap hc v, mem_lineMore hgap hc vs, exists_mem_append]

theorem mem_lineMorePairs (hgap : gap.all isPlain = true) (hc : 127 ≤ c.toNat) :
    (kvs : List (String × Json)) →
      (c ∈ lineMorePairs gap kvs ↔ ∃ s ∈ stringsOfPairs kvs, c ∈ s.toList)
  | [] => by simp [lineMorePairs, stringsOfPairs]
  | (k, v) :: kvs => by
    have hcomma : c ∉ [','] := not_mem_of_plain (by decide) hc
    have hcolon : c ∉ [':'] := not_mem_of_plain (by decide) hc
    rw [lineMorePairs, stringsOfPairs, ← List.singleton_append, List.mem_append,
      or_iff_right hcomma, List.mem_append, or_iff_right (not_mem_of_plain hgap hc),
      List.mem_append, mem_quote hc, ← List.singleton_append, List.mem_append, or_iff_right hcolon,
      List.mem_append, or_iff_right (not_mem_of_plain hgap hc), List.mem_append,
      mem_line hgap hc v, mem_lineMorePairs hgap hc kvs, List.exists_mem_cons_iff,
      exists_mem_append]

end

/-! ### Lines of it -/

theorem isLineEnd_of_control {c : Char} (h : isLineEnd c = true) (hc : 32 ≤ c.toNat) :
    isSeparator c = true := by
  rw [isLineEnd, decide_eq_true_iff] at h
  rw [isSeparator, decide_eq_true_iff]
  omega

theorem isLineEnd_of_isSeparator {c : Char} (h : isSeparator c = true) :
    isLineEnd c = true ∧ 127 ≤ c.toNat := by
  rw [isSeparator, decide_eq_true_iff] at h
  rw [isLineEnd, decide_eq_true_iff]
  omega

/-- The strings of a value have none of the separators. -/
def OnOneLine (v : Json) : Prop := ∀ s ∈ v.strings, ∀ c ∈ s.toList, isSeparator c = false

theorem newline_not_mem_line (hgap : gap.all isPlain = true) (v : Json) : '\n' ∉ v.line gap := by
  intro h
  exact absurd (Lex.not_control (read_line hgap v) _ h) (by decide)

theorem not_isLineEnd_of_onOneLine (hgap : gap.all isPlain = true) {v : Json}
    (h : v.OnOneLine) : ∀ c ∈ v.line gap, isLineEnd c = false := by
  intro c hc
  by_contra hend
  rw [Bool.not_eq_false] at hend
  have hsep := isLineEnd_of_control hend (Lex.not_control (read_line hgap v) c hc)
  obtain ⟨s, hs, hcs⟩ := (mem_line hgap (isLineEnd_of_isSeparator hsep).2 v).1 hc
  exact absurd hsep (by rw [h s hs c hcs]; decide)

/-- Where the strings have a separator, the first line of the text ends in one of them. -/
theorem exists_cut (hgap : gap.all isPlain = true) {v : Json} (h : ¬ v.OnOneLine) :
    ∃ a c b, v.line gap = a ++ c :: b ∧ isLineEnd c = true ∧ (∀ d ∈ a, isLineEnd d = false) ∧
      (Lex.outside.read a = some .inside ∨ Lex.outside.read a = some .escaped) := by
  unfold OnOneLine at h
  push Not at h
  obtain ⟨s, hs, c, hcs, hc⟩ := h
  rw [ne_eq, Bool.not_eq_false] at hc
  obtain ⟨hend, hlow⟩ := isLineEnd_of_isSeparator hc
  have hmem : c ∈ v.line gap := (mem_line hgap hlow v).2 ⟨s, hs, hcs⟩
  -- the first line boundary of the text
  obtain ⟨d, hfind⟩ : ∃ d, (v.line gap).find? isLineEnd = some d :=
    Option.isSome_iff_exists.1 (List.find?_isSome.2 ⟨c, hmem, hend⟩)
  obtain ⟨hd, a, b, hsplit, ha⟩ := List.find?_eq_some_iff_append.1 hfind
  have hread := read_line hgap v
  have hmemd : d ∈ v.line gap := by
    rw [hsplit]
    exact List.mem_append_right _ List.mem_cons_self
  have hsep := (isLineEnd_of_isSeparator
    (isLineEnd_of_control hd (Lex.not_control hread d hmemd))).2
  rw [hsplit] at hread
  refine ⟨a, d, b, hsplit, hd, fun e he => ?_, Lex.inside_of_not_plain ?_ ?_ hread⟩
  · simpa using ha e he
  · rw [isPlain, decide_eq_false_iff_not]
    omega
  · rintro rfl
    exact absurd hsep (by decide)

end Json

end OpenViking
