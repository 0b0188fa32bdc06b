import Mathlib.Data.Finset.Basic
import Mathlib.Data.Finset.Dedup
import OpenViking.Common.JsonLines
import OpenViking.Session.Turns
import OpenViking.Wiki.Schemas

/-!
# Documents of wiki nodes

How `NodeContentGenerator._parse_document` (`wiki/documents.py`, 185-218) checks the Markdown that a
model answers, and the two scanners of headings that it and the staged generation use (233-269).

Deviation: the first line is replaced by the title of the node, which "is already canonical pipeline
state", and the result is scanned again.  The scanner takes closing hashes off a heading and ends it
at a line break, so that a title with either is not found again and no answer is ever accepted.

Results:

* `parseDocument_iff`: the titles for which well-formed documents are accepted;
* `parseDocument_ne_ok`: for other titles no answer is.
-/

namespace OpenViking.Wiki

open Fs Memory Session

/-! ## Model -/

/-- `\s*#*\s*$`. -/
def isClosing (t : Str) : Bool := ((t.dropWhile isSpace).dropWhile (· = '#')).all isSpace

/-- `(.+?)\s*#*\s*$`: the shortest beginning, of one character at least, whose rest closes. -/
def headingGroup : Str → Str
  | [] => []
  | c :: t => if isClosing t then [c] else c :: headingGroup t

/-- `^(#{1,6})\s+(.+?)\s*#*\s*$` on a stripped line: the level and the text of a heading. -/
def heading (stripped : Str) : Option (ℕ × Str) :=
  let level := (stripped.takeWhile (· = '#')).length
  let rest := stripped.dropWhile (· = '#')
  if 1 ≤ level ∧ level ≤ 6 ∧ rest.head?.any isSpace then
    some (level, strip (headingGroup (rest.dropWhile isSpace)))
  else none

/-- A line that opens or closes a code fence. -/
def isFence (stripped : Str) : Bool := "```".toList.isPrefixOf stripped || "~~~".toList.isPrefixOf stripped

/-- The loop of `_markdown_headings` (236-245). -/
def scanHeadings : Bool → List Str → List (ℕ × Str)
  | _, [] => []
  | inFence, line :: lines =>
    let stripped := strip line
    if isFence stripped then scanHeadings (!inFence) lines
    else if inFence then scanHeadings inFence lines
    else (heading stripped).toList ++ scanHeadings inFence lines

/-- `_markdown_headings` (233-246). -/
def markdownHeadings (markdown : Str) : List (ℕ × Str) := scanHeadings false (splitlines markdown)

/-- The texts of the headings of a level. -/
def textsAt (level : ℕ) (headings : List (ℕ × Str)) : List Str :=
  headings.filterMap fun h => if h.1 = level then some h.2 else none

/-- `^#\s+\S` on a stripped line. -/
def startsH1 : Str → Bool
  | '#' :: rest => rest.head?.any isSpace && !rest.all isSpace
  | _ => false

/-- The lines after the first under the title of the node (198-199). -/
def titled (title : Text) (rest : List Str) : Str :=
  '#' :: ' ' :: title.val ++ rest.flatMap fun line => '\n' :: line

/-- What `_parse_document` raises. -/
inductive DocumentError where
  | notText
  | notTitled
  | notOnlyH1
  | noH2
  | removed (missing : Finset Str)
  | tooLong (tokenCount : ℕ)
  deriving DecidableEq

/-- `_parse_document` (185-218), on the `markdown` of a response. -/
def parseDocument (maxDocumentTokens : ℕ) (title : Text) (requiredH2 : Finset Str) (result : Str) :
    Except DocumentError Str :=
  match requireText result with
  | none => .error .notText
  | some response =>
    match splitlines (strip response.val) with
    | [] => .error .notTitled
    | first :: rest =>
      let markdown := titled title rest
      let headings := markdownHeadings markdown
      let h2 := (textsAt 2 headings).toFinset
      if startsH1 (strip first) = false then .error .notTitled
      else if textsAt 1 headings ≠ [title.val] then .error .notOnlyH1
      else if h2 = ∅ then .error .noH2
      else if requiredH2 \ h2 ≠ ∅ then .error (.removed (requiredH2 \ h2))
      else if maxDocumentTokens < estimateTextTokens markdown then
        .error (.tooLong (estimateTextTokens markdown))
      else .ok markdown

/-! ## Lines -/

variable {line a : Str} {lines rest : List Str} {c : Char}

/-- A text without a line boundary. -/
def OneLine (line : Str) : Prop := ∀ c ∈ line, isLineEnd c = false

variable {t : Str}

theorem oneLine_of_mem_splitlines (h : line ∈ splitlines t) : OneLine line := by
  induction t using splitlines.induct generalizing line with
  | case1 => cases h
  | case2 t ih =>
    rw [splitlines, List.mem_cons] at h
    rcases h with rfl | h
    · intro c hc
      cases hc
    · exact ih h
  | case3 c t hcr hend ih =>
    rw [splitlines, if_pos hend, List.mem_cons] at h
    · rcases h with rfl | h
      · intro c hc
        cases hc
      · exact ih h
    · exact hcr
  | case4 c t hcr hend hnil ih =>
    rw [splitlines, if_neg hend, hnil, List.mem_singleton] at h
    · subst h
      intro d hd
      rw [List.mem_singleton.1 hd]
      exact Bool.not_eq_true _ ▸ hend
    · exact hcr
  | case5 c t hcr hend l ls hcons ih =>
    rw [splitlines, if_neg hend, hcons, List.mem_cons] at h
    · rcases h with rfl | h
      · intro d hd
        rcases List.mem_cons.1 hd with rfl | hd
        · exact Bool.not_eq_true _ ▸ hend
        · exact ih (hcons ▸ List.mem_cons_self) d hd
      · exact ih (hcons ▸ List.mem_cons_of_mem l h)
    · exact hcr

theorem splitlines_oneLine (ha : OneLine a) (hne : a ≠ []) : splitlines a = [a] := by
  induction a with
  | nil => exact absurd rfl hne
  | cons c a ih =>
    rw [splitlines_cons (ha c List.mem_cons_self)]
    cases a with
    | nil => rfl
    | cons d a => rw [ih (fun e he => ha e (List.mem_cons_of_mem c he)) (List.cons_ne_nil d a)]

/-- The scanner finds in joined lines what it finds in the lines. -/
theorem scanHeadings_join (inFence : Bool) (ha : OneLine a) (hrest : ∀ line ∈ rest, OneLine line) :
    scanHeadings inFence (splitlines (a ++ rest.flatMap fun line => '\n' :: line)) =
      scanHeadings inFence (a :: rest) := by
  induction rest generalizing a inFence with
  | nil =>
    rw [List.flatMap_nil, List.append_nil]
    cases a with
    | nil => cases inFence <;> decide
    | cons c a => rw [splitlines_oneLine ha (List.cons_ne_nil c a)]
  | cons r rest ih =>
    have hjoin := fun b => ih b (hrest r List.mem_cons_self)
      fun line hline => hrest line (List.mem_cons_of_mem r hline)
    rw [List.flatMap_cons, List.cons_append, splitlines_line ha]
    simp only [scanHeadings.eq_2 _ a, hjoin]

/-! ## The text of a heading -/

theorem headingGroup_starts (t : Str) : headingGroup t <+: t := by
  induction t with
  | nil => exact List.prefix_rfl
  | cons c t ih =>
    rw [headingGroup]
    split_ifs
    · exact ⟨t, rfl⟩
    · exact (List.prefix_cons_inj c).2 ih

theorem of_isClosing (h : isClosing t = true) (hc : c ∈ t) : c = '#' ∨ isSpace c = true := by
  rw [isClosing, List.all_eq_true] at h
  rw [← List.takeWhile_append_dropWhile (p := isSpace) (l := t), List.mem_append] at hc
  rcases hc with hc | hc
  · exact Or.inr (List.mem_takeWhile_imp hc)
  · rw [← List.takeWhile_append_dropWhile (p := (· = '#')) (l := t.dropWhile isSpace),
      List.mem_append] at hc
    rcases hc with hc | hc
    · exact Or.inl (by simpa using List.mem_takeWhile_imp (p := fun d => decide (d = '#')) hc)
    · exact Or.inr (h c hc)

/-- A text that ends neither in a hash nor in a blank is taken whole. -/
theorem headingGroup_eq_self (h : ∀ c ∈ t.getLast?, c ≠ '#' ∧ isSpace c = false) : headingGroup t = t := by
  induction t with
  | nil => rfl
  | cons c t ih =>
    cases t with
    | nil => rfl
    | cons d t =>
      have hlast : ∀ e ∈ (d :: t).getLast?, e ≠ '#' ∧ isSpace e = false :=
        fun e he => h e (by rwa [List.getLast?_cons_cons])
      rw [headingGroup, if_neg, ih hlast]
      intro hclosing
      have hmem := List.getLast?_eq_some_getLast (List.cons_ne_nil d t)
      have hends := hlast _ (Option.mem_def.2 hmem)
      rcases of_isClosing hclosing (List.getLast_mem (List.cons_ne_nil d t)) with hhash | hspace
      · exact hends.1 hhash
      · rw [hends.2] at hspace
        cases hspace

/-- A hash after a text is not part of the heading. -/
theorem length_headingGroup_hash (h : t ≠ []) : (headingGroup (t ++ ['#'])).length ≤ t.length := by
  induction t with
  | nil => exact absurd rfl h
  | cons c t ih =>
    rw [List.cons_append, headingGroup]
    split_ifs with hclosing
    · simp
    · cases t with
      | nil => exact absurd rfl hclosing
      | cons d t => simpa using ih (List.cons_ne_nil d t)

theorem mem_of_mem_strip (h : c ∈ strip t) : c ∈ t :=
  (List.dropWhile_suffix isSpace).mem ((List.rdropWhile_prefix ..).mem h)

theorem length_strip_le (t : Str) : (strip t).length ≤ t.length :=
  ((List.rdropWhile_prefix ..).length_le).trans (List.dropWhile_suffix isSpace).length_le

/-! ## The first line -/

theorem rdropWhile_append {p : Char → Bool} {a b : Str} (h : b.rdropWhile p ≠ []) :
    (a ++ b).rdropWhile p = a ++ b.rdropWhile p := by
  have hne : b.reverse.dropWhile p ≠ [] := fun hnil => h (by rw [List.rdropWhile, hnil]; rfl)
  rw [List.rdropWhile, List.reverse_append, List.dropWhile_append, if_neg (by simpa using hne),
    List.reverse_append, List.reverse_reverse, List.rdropWhile]

/-- A line with an H1 is no fence, and is read as its heading. -/
theorem heading_title {d : Char} (hd : isSpace d = false) :
    isFence (strip ('#' :: ' ' :: d :: t)) = false ∧
      heading (strip ('#' :: ' ' :: d :: t)) =
        some (1, strip (headingGroup ((d :: t).rdropWhile isSpace))) := by
  have hne : (d :: t).rdropWhile isSpace ≠ [] := by
    intro hnil
    have := List.rdropWhile_eq_nil_iff.1 hnil d List.mem_cons_self
    rw [hd] at this
    cases this
  have hstrip : strip ('#' :: ' ' :: d :: t) = '#' :: ' ' :: (d :: t).rdropWhile isSpace :=
    rdropWhile_append (a := ['#', ' ']) hne
  obtain ⟨e, u, heq⟩ := List.exists_cons_of_ne_nil hne
  have hed : e = d := by
    have hstarts := List.rdropWhile_prefix isSpace (d :: t)
    rw [heq] at hstarts
    exact (List.cons_prefix_cons.1 hstarts).1
  subst hed
  rw [hstrip, heq]
  refine ⟨rfl, ?_⟩
  have hdrop : (' ' :: e :: u).dropWhile isSpace = e :: u := by
    rw [List.dropWhile_cons_of_pos (by decide), List.dropWhile_cons_of_neg (by simp [hd])]
  show (if 1 ≤ 1 ∧ 1 ≤ 6 ∧ isSpace ' ' = true then
    some (1, strip (headingGroup ((' ' :: e :: u).dropWhile isSpace))) else none) = _
  rw [if_pos (by decide), hdrop]

/-! ## Titles -/

/-- A title that the scanner finds again as it is: on one line, and without a hash at its end unless
the hash is all of it. -/
def Canonical (title : Text) : Prop :=
  OneLine title.val ∧ (title.val.getLast? = some '#' → title.val = ['#'])

theorem Text.dropWhile_val (title : Text) : title.val.dropWhile isSpace = title.val := by
  refine (List.dropWhile_suffix isSpace).eq_of_length_le ?_
  have hle := (List.rdropWhile_prefix isSpace (title.val.dropWhile isSpace)).length_le
  rwa [← strip, title.strip_val] at hle

theorem Text.rdropWhile_val (title : Text) : title.val.rdropWhile isSpace = title.val := by
  have h := title.strip_val
  rwa [strip, title.dropWhile_val] at h

theorem Text.exists_cons (title : Text) : ∃ d t, title.val = d :: t ∧ isSpace d = false := by
  obtain ⟨d, t, heq⟩ := List.exists_cons_of_ne_nil title.ne_nil
  refine ⟨d, t, heq, ?_⟩
  have hhead := List.head?_dropWhile_not isSpace title.val
  rw [title.dropWhile_val, heq] at hhead
  simpa using hhead

theorem isSpace_of_isLineEnd (h : isLineEnd c = true) : isSpace c = true := by
  simp only [isLineEnd, isSpace, decide_eq_true_eq] at h ⊢
  omega

theorem Text.isSpace_last (title : Text) (h : title.val.getLast? = some c) : isSpace c = false := by
  have hends := List.rdropWhile_eq_self_iff.1 title.rdropWhile_val title.ne_nil
  rw [List.getLast?_eq_some_getLast title.ne_nil] at h
  rw [← Option.some.inj h]
  exact Bool.not_eq_true _ ▸ hends

theorem scanHeadings_title {d : Char} (hd : isSpace d = false) (lines : List Str) :
    scanHeadings false (('#' :: ' ' :: d :: t) :: lines) =
      (1, strip (headingGroup ((d :: t).rdropWhile isSpace))) :: scanHeadings false lines := by
  obtain ⟨hfence, hheading⟩ := heading_title (t := t) hd
  rw [scanHeadings, hfence, hheading]
  rfl

/-- The heading that a title is read as. -/
theorem headingGroup_title {title : Text} (hline : OneLine title.val) :
    strip (headingGroup title.val) = title.val ↔ Canonical title := by
  rw [Canonical, and_iff_right hline]
  refine ⟨fun heq hhash => ?_, fun h => ?_⟩
  · -- without the hash something is missing
    by_contra hne
    obtain ⟨t, ht⟩ := List.getLast?_eq_some_iff.1 hhash
    have hnil : t ≠ [] := by
      intro hnil
      exact hne (by rw [ht, hnil, List.nil_append])
    have hle := (length_strip_le _).trans (length_headingGroup_hash hnil)
    rw [← ht, heq, ht, List.length_append, List.length_singleton] at hle
    omega
  · by_cases hhash : title.val.getLast? = some '#'
    · have hclosed : strip (headingGroup ['#']) = ['#'] := by decide
      rw [h hhash, hclosed]
    · rw [headingGroup_eq_self fun c hc => ⟨?_, title.isSpace_last hc⟩, title.strip_val]
      intro heq
      exact hhash (heq ▸ hc)

theorem OneLine.title (h : OneLine a) : OneLine ('#' :: ' ' :: a) := by
  intro c hc
  rcases List.mem_cons.1 hc with rfl | hc
  · decide
  rcases List.mem_cons.1 hc with rfl | hc
  · decide
  · exact h c hc

theorem exists_lineEnd (h : ¬ OneLine a) : ∃ p c s, a = p ++ c :: s ∧ OneLine p ∧ isLineEnd c = true := by
  induction a with
  | nil => exact absurd (fun c hc => absurd hc List.not_mem_nil) h
  | cons d a ih =>
    by_cases hd : isLineEnd d = true
    · exact ⟨[], d, a, rfl, fun c hc => absurd hc List.not_mem_nil, hd⟩
    · obtain ⟨p, c, s, heq, hp, hc⟩ := ih fun hline => h fun c hc => by
        rcases List.mem_cons.1 hc with rfl | hc
        · exact Bool.not_eq_true _ ▸ hd
        · exact hline c hc
      refine ⟨d :: p, c, s, by rw [heq, List.cons_append], fun e he => ?_, hc⟩
      rcases List.mem_cons.1 he with rfl | he
      · exact Bool.not_eq_true _ ▸ hd
      · exact hp e he

/-- The headings of a document with its title put in. -/
theorem markdownHeadings_titled (title : Text) (hrest : ∀ line ∈ rest, OneLine line) :
    (Canonical title →
      markdownHeadings (titled title rest) = (1, title.val) :: scanHeadings false rest) ∧
    (¬ Canonical title →
      ∃ text headings, text ≠ title.val ∧ markdownHeadings (titled title rest) = (1, text) :: headings) := by
  obtain ⟨d, t, heq, hd⟩ := title.exists_cons
  by_cases hline : OneLine title.val
  · have hfound : markdownHeadings (titled title rest) =
        (1, strip (headingGroup title.val)) :: scanHeadings false rest := by
      have hjoin := scanHeadings_join false hline.title hrest
      rw [heq, scanHeadings_title hd, ← heq, title.rdropWhile_val] at hjoin
      exact hjoin
    rw [hfound]
    refine ⟨fun h => ?_, fun h => ⟨_, _, fun htext => ?_, rfl⟩⟩
    · rw [(headingGroup_title hline).2 h]
    · exact h ((headingGroup_title hline).1 htext)
  · refine ⟨fun h => absurd h.1 hline, fun _ => ?_⟩
    -- the first line ends inside of the title
    obtain ⟨p, c, s, hcut, hp, hc⟩ := exists_lineEnd hline
    obtain ⟨p', rfl⟩ : ∃ p', p = d :: p' := by
      cases p with
      | nil =>
        rw [heq] at hcut
        rw [(List.cons.inj hcut).1, isSpace_of_isLineEnd hc] at hd
        cases hd
      | cons e p' =>
        rw [heq] at hcut
        exact ⟨p', by rw [(List.cons.inj hcut).1]⟩
    obtain ⟨ls, hls⟩ := splitlines_cut hp.title hc (s ++ rest.flatMap fun line => '\n' :: line)
    refine ⟨strip (headingGroup ((d :: p').rdropWhile isSpace)), scanHeadings false ls,
      fun htext => ?_, ?_⟩
    · have hmem : c ∈ title.val := by simp [hcut]
      rw [← htext] at hmem
      have hin := (List.rdropWhile_prefix isSpace (d :: p')).mem
        ((headingGroup_starts _).mem (mem_of_mem_strip hmem))
      rw [hp c hin] at hc
      cases hc
    · rw [markdownHeadings, titled, hcut, ← scanHeadings_title hd, ← hls]
      congr 2
      simp

/-! ## Acceptance -/

variable {maxDocumentTokens : ℕ} {title : Text} {requiredH2 : Finset Str} {result : Str}

/-- A document that starts with an H1 and then has no other, has an H2 and all that are required,
and is short enough under the title. -/
structure WellFormed (maxDocumentTokens : ℕ) (title : Text) (requiredH2 : Finset Str) (result : Str)
    (rest : List Str) : Prop where
  lines : ∃ first, splitlines (strip result) = first :: rest ∧ startsH1 (strip first) = true
  onlyH1 : textsAt 1 (scanHeadings false rest) = []
  h2 : textsAt 2 (scanHeadings false rest) ≠ []
  required : ∀ text ∈ requiredH2, text ∈ textsAt 2 (scanHeadings false rest)
  tokens : estimateTextTokens (titled title rest) ≤ maxDocumentTokens

/-- What an accepted answer looks like. -/
theorem parseDocument_eq_ok {markdown : Str}
    (h : parseDocument maxDocumentTokens title requiredH2 result = .ok markdown) :
    ∃ rest, (∀ line ∈ rest, OneLine line) ∧ markdown = titled title rest ∧
      textsAt 1 (markdownHeadings markdown) = [title.val] ∧
      requiredH2 ⊆ (textsAt 2 (markdownHeadings markdown)).toFinset := by
  unfold parseDocument at h
  split at h
  · cases h
  split at h
  · cases h
  · rename_i response _ first rest hlines
    dsimp only at h
    split_ifs at h with _ h1 _ hrequired _
    obtain rfl := Except.ok.inj h
    refine ⟨rest, fun line hline => ?_, rfl, not_not.1 h1, Finset.sdiff_eq_empty_iff_subset.1 (not_not.1 hrequired)⟩
    exact oneLine_of_mem_splitlines (hlines ▸ List.mem_cons_of_mem first hline)

/-- For a title that is not found again no answer is ever accepted. -/
theorem parseDocument_ne_ok (h : ¬ Canonical title) (requiredH2 : Finset Str) (result markdown : Str) :
    parseDocument maxDocumentTokens title requiredH2 result ≠ .ok markdown := by
  intro hok
  obtain ⟨rest, hrest, rfl, h1, _⟩ := parseDocument_eq_ok hok
  obtain ⟨text, headings, hne, hheadings⟩ := (markdownHeadings_titled title hrest).2 h
  rw [hheadings] at h1
  exact hne (List.cons.inj h1).1

/-- A well-formed document is accepted, with its first line replaced, exactly for a title on one line
that does not end with a hash, or is one. -/
theorem parseDocument_iff (h : WellFormed maxDocumentTokens title requiredH2 result rest) :
    parseDocument maxDocumentTokens title requiredH2 result = .ok (titled title rest) ↔
      Canonical title := by
  refine ⟨fun hok => by_contra fun hnot => parseDocument_ne_ok hnot _ _ _ hok, fun hcanonical => ?_⟩
  obtain ⟨first, hlines, hfirst⟩ := h.lines
  have hne : strip result ≠ [] := by
    intro hnil
    rw [hnil] at hlines
    cases hlines
  have hrest : ∀ line ∈ rest, OneLine line :=
    fun line hline => oneLine_of_mem_splitlines (hlines ▸ List.mem_cons_of_mem first hline)
  have hheadings := (markdownHeadings_titled title hrest).1 hcanonical
  have h1 : textsAt 1 (markdownHeadings (titled title rest)) = [title.val] := by
    rw [hheadings]
    exact congrArg (title.val :: ·) h.onlyH1
  have h2 : textsAt 2 (markdownHeadings (titled title rest)) = textsAt 2 (scanHeadings false rest) := by
    rw [hheadings]
    rfl
  unfold parseDocument
  rw [requireText, dif_pos hne]
  simp only [strip_strip, hlines, hfirst, h1, h2]
  rw [if_neg (by simp), if_neg (by simp), if_neg (by simpa using h.h2), if_neg, if_neg (Nat.not_lt.2 h.tokens)]
  rw [not_not, Finset.sdiff_eq_empty_iff_subset]
  intro text htext
  exact List.mem_toFinset.2 (h.required text htext)

theorem wellFormed_short (h : estimateTextTokens (titled title ["## B".toList]) ≤ 20) :
    WellFormed 20 title ∅ "# A\n## B".toList ["## B".toList] where
  lines := ⟨"# A".toList, by decide, by decide⟩
  onlyH1 := by decide
  h2 := by decide
  required := by simp
  tokens := h

theorem parseDocument_iff_plainTitle :
    parseDocument 20 ⟨['A'], by decide, by decide⟩ ∅ "# A\n## B".toList = .ok "# A\n## B".toList :=
  (parseDocument_iff (wellFormed_short (by decide))).2
    ⟨fun c hc => List.mem_singleton.1 hc ▸ by decide, by decide⟩

/-- No document is accepted for a node with the title `C#`. -/
theorem parseDocument_fails : ∃ title : Text, title.val = "C#".toList ∧
    WellFormed 20 title ∅ "# A\n## B".toList ["## B".toList] ∧
    parseDocument 20 title ∅ "# A\n## B".toList = .error .notOnlyH1 :=
  ⟨⟨"C#".toList, by decide, by decide⟩, rfl, wellFormed_short (by decide), by decide⟩

end OpenViking.Wiki
