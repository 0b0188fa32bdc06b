import Mathlib.Algebra.Order.BigOperators.Group.List
import OpenViking.Common.Bisect
import OpenViking.Session.Turns

/-!
# Shortened texts

`truncate_text_to_token_budget` (`utils/token_estimation.py`, 51-90) with its own marker and ratio; three
quarters of a number below 2^51 are exact in a float.

Results:

* `estimateTextTokens_truncate_le`: the text that is left fits;
* `truncateText_shortened`: it is a start and an end of the text with the marker between them or nothing.
-/

namespace OpenViking.Session

open Memory (isSpace)

/-! ## Estimates -/

theorem textWeight_append (first rest : List Char) :
    textWeight (first ++ rest) = textWeight first + textWeight rest := by
  rw [textWeight, List.map_append, List.sum_append]
  rfl

theorem textWeight_sublist {first text : List Char} (h : first.Sublist text) :
    textWeight first ≤ textWeight text := by
  unfold textWeight
  exact (h.map fun c => codePointWeight c.toNat).sum_le_sum fun _ _ => Nat.zero_le _

theorem estimateTextTokens_mono {first text : List Char} (h : textWeight first ≤ textWeight text) :
    estimateTextTokens first ≤ estimateTextTokens text := by
  unfold estimateTextTokens
  omega

theorem estimateTextTokens_append_le (first rest : List Char) :
    estimateTextTokens (first ++ rest) ≤ estimateTextTokens first + estimateTextTokens rest := by
  unfold estimateTextTokens
  rw [textWeight_append]
  omega

/-! ## Truncation -/

/-- `_prefix_length` (74-83). -/
def prefixLength (value : List Char) (budget : ℕ) : ℕ :=
  bisectLast (fun mid => decide (estimateTextTokens (value.take mid) ≤ budget)) value.length 0 value.length

/-- The marker of a cut. -/
def truncationMarker : List Char := ['\n', '…', '\n']

/-- `truncate_text_to_token_budget` (51-90). -/
def truncateTextToTokenBudget (text : List Char) (maxTokens : ℕ) : List Char :=
  if text = [] ∨ estimateTextTokens text ≤ maxTokens then text
  else if maxTokens = 0 then []
  else
    let marker := if maxTokens ≤ estimateTextTokens truncationMarker then [] else truncationMarker
    let contentTokens := maxTokens - estimateTextTokens marker
    let headTokens := contentTokens * 3 / 4
    let tailTokens := contentTokens - headTokens
    let headEnd := prefixLength text headTokens
    let remaining := text.drop headEnd
    let tailLength := prefixLength remaining.reverse tailTokens
    let tail := remaining.drop (remaining.length - tailLength)
    (text.take headEnd).rdropWhile isSpace ++ marker ++ tail.dropWhile isSpace

/-- A start and an end of a text, with the marker of a cut between them or nothing. -/
def Shortened (text short : List Char) : Prop :=
  ∃ head middle tail, text = head ++ middle ++ tail ∧
    (short = head ++ tail ∨ short = head ++ truncationMarker ++ tail)

variable (text : List Char)

theorem Shortened.refl : Shortened text text :=
  ⟨text, [], [], by simp, .inl (List.append_nil text).symm⟩

theorem shortened_nil : Shortened text [] :=
  ⟨[], text, [], by simp, .inl rfl⟩

theorem prefixLength_fits (value : List Char) (budget : ℕ) :
    estimateTextTokens (value.take (prefixLength value budget)) ≤ budget := by
  have hempty : decide (estimateTextTokens (value.take 0) ≤ budget) = true := by
    rw [List.take_zero]
    exact decide_eq_true (Nat.zero_le _)
  exact of_decide_eq_true (bisectLast_passes (fun mid => decide (estimateTextTokens (value.take mid) ≤ budget))
    value.length hempty value.length)

theorem textWeight_reverse : textWeight text.reverse = textWeight text := by
  rw [textWeight, List.map_reverse, List.sum_reverse]
  rfl

/-- The text that is left fits. -/
theorem estimateTextTokens_truncate_le (maxTokens : ℕ) :
    estimateTextTokens (truncateTextToTokenBudget text maxTokens) ≤ maxTokens := by
  unfold truncateTextToTokenBudget
  by_cases hfits : text = [] ∨ estimateTextTokens text ≤ maxTokens
  · rw [if_pos hfits]
    rcases hfits with rfl | hfits
    · exact Nat.zero_le _
    · exact hfits
  rw [if_neg hfits]
  by_cases hzero : maxTokens = 0
  · rw [if_pos hzero]
    exact Nat.zero_le _
  rw [if_neg hzero]
  dsimp only
  have hmarker : estimateTextTokens
      (if maxTokens ≤ estimateTextTokens truncationMarker then [] else truncationMarker) ≤ maxTokens := by
    split_ifs with hsmall
    · exact Nat.zero_le _
    · omega
  generalize (if maxTokens ≤ estimateTextTokens truncationMarker then [] else truncationMarker) = marker at hmarker
  generalize hcontent : maxTokens - estimateTextTokens marker = contentTokens
  generalize hheadTokens : contentTokens * 3 / 4 = headTokens
  have hhead := prefixLength_fits text headTokens
  generalize prefixLength text headTokens = headEnd at hhead
  have htail := prefixLength_fits (text.drop headEnd).reverse (contentTokens - headTokens)
  generalize prefixLength (text.drop headEnd).reverse (contentTokens - headTokens) = tailLength at htail
  rw [List.take_reverse] at htail
  have hstripped : estimateTextTokens ((text.take headEnd).rdropWhile isSpace) ≤ headTokens :=
    (estimateTextTokens_mono (textWeight_sublist (List.rdropWhile_prefix isSpace _).sublist)).trans hhead
  have htrimmed : estimateTextTokens
      (((text.drop headEnd).drop ((text.drop headEnd).length - tailLength)).dropWhile isSpace) ≤
        contentTokens - headTokens := by
    refine (estimateTextTokens_mono ?_).trans htail
    rw [textWeight_reverse]
    exact textWeight_sublist (List.dropWhile_sublist _)
  have hfirst := estimateTextTokens_append_le ((text.take headEnd).rdropWhile isSpace ++ marker)
    (((text.drop headEnd).drop ((text.drop headEnd).length - tailLength)).dropWhile isSpace)
  have hsecond := estimateTextTokens_append_le ((text.take headEnd).rdropWhile isSpace) marker
  have hthree : contentTokens * 3 / 4 ≤ contentTokens := by omega
  omega

/-- The text that is left is a shortened one. -/
theorem truncateText_shortened (maxTokens : ℕ) :
    Shortened text (truncateTextToTokenBudget text maxTokens) := by
  unfold truncateTextToTokenBudget
  by_cases hfits : text = [] ∨ estimateTextTokens text ≤ maxTokens
  · rw [if_pos hfits]
    exact Shortened.refl text
  rw [if_neg hfits]
  by_cases hzero : maxTokens = 0
  · rw [if_pos hzero]
    exact shortened_nil text
  rw [if_neg hzero]
  dsimp only
  generalize maxTokens - _ = contentTokens
  generalize prefixLength text (contentTokens * 3 / 4) = headEnd
  generalize (text.drop headEnd).length - _ = cut
  obtain ⟨space, hhead⟩ := List.rdropWhile_prefix isSpace (text.take headEnd)
  obtain ⟨space', htail⟩ := (List.dropWhile_suffix isSpace : ((text.drop headEnd).drop cut).dropWhile isSpace <:+ _)
  refine ⟨(text.take headEnd).rdropWhile isSpace, space ++ (text.drop headEnd).take cut ++ space',
    ((text.drop headEnd).drop cut).dropWhile isSpace, ?_, ?_⟩
  · have hjoin : ∀ head tail, head ++ space = text.take headEnd → space' ++ tail = (text.drop headEnd).drop cut →
        text = head ++ (space ++ (text.drop headEnd).take cut ++ space') ++ tail := by
      intro head tail hhead htail
      calc text = text.take headEnd ++ text.drop headEnd := (List.take_append_drop headEnd text).symm
        _ = text.take headEnd ++ ((text.drop headEnd).take cut ++ (text.drop headEnd).drop cut) := by
            rw [List.take_append_drop cut]
        _ = _ := by
            rw [← hhead, ← htail]
            simp only [List.append_assoc]
    exact hjoin _ _ hhead htail
  · split_ifs with hsmall
    · left
      rw [List.append_nil]
    · exact .inr rfl

end OpenViking.Session
