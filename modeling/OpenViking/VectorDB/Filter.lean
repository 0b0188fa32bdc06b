import Mathlib
import OpenViking.VectorDB.FieldGroups

/-!
# Filters

A model of the filter operators (`scalar/filter/filter_ops.{h,cpp}`): each computes the bitmap of
the offsets that it selects, alone or on top of the bitmap that the conditions before it in an
`and` or an `or` have accumulated.  `none` is the null pointer.

Results:

* `and_means_intersection_iff`: when an `and` is the intersection of its conditions, in any order;
* `or_means_union_iff`: when an `or` is their union, in any order.
-/

namespace OpenViking.VectorDB

open Full

/-! ## Model -/

/-- The operator whose conditions are combined, `on_res_op`. -/
inductive LogicName where
  | and
  | or
  deriving DecidableEq, Repr

/-- The filter operators, after parsing.  `depth` is that of the directory semantics, from the
parameter `-d=`; the bounds of a range are those that `load_json_doc` leaves. -/
inductive FilterOp (R : Type) where
  | mustOp (field : String) (typeConds : List String) (depth : ℤ)
  | mustNotOp (field : String) (typeConds : List String) (depth : ℤ)
  | rangeOp (field : String) (rangeOut : Bool) (lessThan : R) (lessThanEqual : Bool)
      (greaterThan : R) (greaterThanEqual : Bool)
  | range2dOp (field0 field1 : String) (x y radius : R)
  | labelInOp (labels : List ℕ)
  | prefixOp (field prefixValue : String)
  | containsOp (field substringValue : String)
  | regexOp (field patternValue : String)
  | andOp (ignoreEmptyCondition : Bool) (logicConds : List (FilterOp R))
  | orOp (logicConds : List (FilterOp R))

/-- What a filter is evaluated on: the field groups, `get_offset_by_label` as the registered
converter of labels (`none` for a negative offset), and `std::regex` with `std::regex_search`. -/
structure FilterContext (R : Type) where
  fieldGroups : FieldBitmapGroupSet R
  offsetByLabel : ℕ → Option ℕ
  compile : String → Option (String → Bool)

variable {R : Type} [LinearOrder R] [Add R] [Sub R] [Mul R] [Zero R]

/-- The operand of an operator is empty, and `calc_bitmap` returns null at once: no `conds`, no
labels, an empty prefix, substring or pattern.  A `must_not` has no such check. -/
def FilterOp.noOperand : FilterOp R → Bool
  | .mustOp _ typeConds _ => typeConds.isEmpty
  | .labelInOp labels => labels.isEmpty
  | .prefixOp _ prefixValue => prefixValue = ""
  | .containsOp _ substringValue => substringValue = ""
  | .regexOp _ patternValue => patternValue = ""
  | _ => false

/-- A `must_not`. -/
def FilterOp.isMustNot : FilterOp R → Bool
  | .mustNotOp _ _ _ => true
  | _ => false

namespace FilterContext

variable (c : FilterContext R)

/-- `calc_bitmap` of `MustOp`, `RangeOp`, `LabelInOp`, `PrefixOp`, `ContainsOp` and `RegexOp`
(`filter_ops.cpp`, 771-798 and so on), where `self` is `calc_self_bitmap`. -/
def fieldBitmap (noOperand : Bool) (self pres : Option (Finset ℕ)) (onResOp : LogicName) :
    Option (Finset ℕ) :=
  if noOperand then none
  else match pres, onResOp with
    | none, _ => self
    | some pres, .and => self.map (pres ∩ ·)
    | some pres, .or => match self with
      | none => some pres
      | some temp => some (pres ∪ temp)

/-- `MustNotOp::calc_bitmap` (816-863): on an accumulated bitmap an `and` takes away the bitmaps of
the very keys. -/
def mustNotBitmap (field : String) (typeConds : List String) (self pres : Option (Finset ℕ))
    (onResOp : LogicName) : Option (Finset ℕ) :=
  match pres, onResOp with
  | none, _ => self
  | some pres, .and => match typeConds with
    | [] => some pres
    | [key] => some (pres \ (c.fieldGroups.getBitmap field key).getD ∅)
    | keys => some (pres \ (c.fieldGroups.makeFieldCopy field keys).getD ∅)
  | some pres, .or => some (pres ∪ self.getD ∅)

/-- `LogicOpBase::calc_bitmap` (349-370). -/
def logicBitmap (self pres : Option (Finset ℕ)) (onResOp : LogicName) : Option (Finset ℕ) :=
  match pres, onResOp with
  | none, _ => self
  | some pres, .and => self.map (pres ∩ ·)
  | some pres, .or => some (pres ∪ self.getD ∅)

/-- `calc_bitmap(field_group_set, pres, on_res_op)`, where `self` is `calc_self_bitmap`. -/
def combine (op : FilterOp R) (self pres : Option (Finset ℕ)) (onResOp : LogicName) :
    Option (Finset ℕ) :=
  match op with
  | .mustNotOp field typeConds _ => c.mustNotBitmap field typeConds self pres onResOp
  | .andOp _ _ => logicBitmap self pres onResOp
  | .orOp _ => logicBitmap self pres onResOp
  | op => fieldBitmap op.noOperand self pres onResOp

mutual

/-- `calc_self_bitmap`. -/
def calcSelfBitmap : FilterOp R → Option (Finset ℕ)
  | .mustOp field typeConds depth =>
    if c.fieldGroups.isPathFieldName field then
      c.fieldGroups.makePathFieldCopy field typeConds depth
    else c.fieldGroups.makeFieldCopy field typeConds
  | .mustNotOp field typeConds depth =>
    if c.fieldGroups.isPathFieldName field then
      some (c.fieldGroups.makePathFieldExcludeCopy field typeConds depth)
    else some (c.fieldGroups.makeFieldExcludeCopy field typeConds)
  | .rangeOp field rangeOut lessThan lessThanEqual greaterThan greaterThanEqual =>
    c.fieldGroups.makeRangeCopy rangeOut field lessThan lessThanEqual greaterThan greaterThanEqual
  | .range2dOp field0 field1 x y radius => c.fieldGroups.makeRange2dCopy field0 field1 x y radius
  | .labelInOp labels =>
    match labels.filterMap c.offsetByLabel with
    | [] => none
    | offsets => some offsets.toFinset
  | .prefixOp field prefixValue => c.fieldGroups.makeFieldPrefixCopy field prefixValue
  | .containsOp field substringValue => c.fieldGroups.makeFieldContainsCopy field substringValue
  | .regexOp field patternValue =>
    c.fieldGroups.makeFieldRegexCopy c.compile field patternValue
  | .andOp ignoreEmptyCondition logicConds =>
    if ignoreEmptyCondition then intersectPresent logicConds none else andLoop logicConds none
  | .orOp logicConds => orLoop logicConds none

/-- The loop of `calc_self_bitmap` for `and` (333-346): a null ends it. -/
def andLoop : List (FilterOp R) → Option (Finset ℕ) → Option (Finset ℕ)
  | [], pres => pres
  | op :: ops, pres =>
    match c.combine op (calcSelfBitmap op) pres .and with
    | none => none
    | some pres => andLoop ops (some pres)

/-- The loop for `or`: after a null it goes on with nothing accumulated. -/
def orLoop : List (FilterOp R) → Option (Finset ℕ) → Option (Finset ℕ)
  | [], pres => pres
  | op :: ops, pres => orLoop ops (c.combine op (calcSelfBitmap op) pres .or)

/-- The loop for `and` with `ignore_empty_condition` (319-331): conditions without a bitmap are
passed over. -/
def intersectPresent : List (FilterOp R) → Option (Finset ℕ) → Option (Finset ℕ)
  | [], pres => pres
  | op :: ops, pres =>
    match c.combine op (calcSelfBitmap op) none .and, pres with
    | none, pres => intersectPresent ops pres
    | some condResult, none => intersectPresent ops (some condResult)
    | some condResult, some pres => intersectPresent ops (some (pres ∩ condResult))

end

/-- `calc_bitmap(field_group_set, pres, on_res_op)`. -/
def calcBitmap (op : FilterOp R) (pres : Option (Finset ℕ)) (onResOp : LogicName) :
    Option (Finset ℕ) :=
  c.combine op (c.calcSelfBitmap op) pres onResOp

/-- The offsets that a condition selects when it is evaluated alone, null read as none. -/
def alone (op : FilterOp R) : Finset ℕ := (c.calcBitmap op none .and).getD ∅

/-- The offsets that `and` selects, without `ignore_empty_condition`. -/
def andBitmap (conds : List (FilterOp R)) : Finset ℕ :=
  (c.calcSelfBitmap (.andOp false conds)).getD ∅

/-- The offsets that `or` selects. -/
def orBitmap (conds : List (FilterOp R)) : Finset ℕ := (c.calcSelfBitmap (.orOp conds)).getD ∅

/-! ## One step -/

/-- What a `must_not` takes away from an accumulated bitmap: the rows with one of the very keys. -/
def excluded : FilterOp R → Finset ℕ
  | .mustNotOp field typeConds _ => (c.fieldGroups.makeFieldCopy field typeConds).getD ∅
  | _ => ∅

/-- A row stays in the bitmap that an `and` has accumulated. -/
def Keeps (op : FilterOp R) (o : ℕ) : Prop :=
  if op.isMustNot then o ∉ c.excluded op else o ∈ c.alone op

variable (op : FilterOp R)

omit [LinearOrder R] [Add R] [Sub R] [Mul R] [Zero R] in
/-- The three ways to combine a condition with what is accumulated. -/
theorem combine_cases :
    (∃ field typeConds depth, op = .mustNotOp field typeConds depth) ∨
      (op.noOperand = false ∧ op.isMustNot = false ∧
        ∀ self pres onResOp, c.combine op self pres onResOp = logicBitmap self pres onResOp) ∨
      (op.isMustNot = false ∧ ∀ self pres onResOp,
        c.combine op self pres onResOp = fieldBitmap op.noOperand self pres onResOp) := by
  cases op with
  | mustNotOp field typeConds depth => exact .inl ⟨_, _, _, rfl⟩
  | andOp ignoreEmptyCondition conds => exact .inr (.inl ⟨rfl, rfl, fun _ _ _ => rfl⟩)
  | orOp conds => exact .inr (.inl ⟨rfl, rfl, fun _ _ _ => rfl⟩)
  | _ => exact .inr (.inr ⟨rfl, fun _ _ _ => rfl⟩)

theorem alone_eq : c.alone op = if op.noOperand then ∅ else (c.calcSelfBitmap op).getD ∅ := by
  unfold alone calcBitmap
  rcases c.combine_cases op with ⟨field, typeConds, depth, rfl⟩ | ⟨hno, -, hop⟩ | ⟨-, hop⟩
  · rfl
  · rw [hop, hno]
    rfl
  · rw [hop]
    cases op.noOperand <;> rfl

/-- The first condition of an `and` or an `or` is evaluated as it is alone. -/
theorem calcBitmap_none (onResOp : LogicName) : (c.calcBitmap op none onResOp).getD ∅ = c.alone op := by
  unfold alone calcBitmap
  rcases c.combine_cases op with ⟨field, typeConds, depth, rfl⟩ | ⟨-, -, hop⟩ | ⟨-, hop⟩
  · rfl
  · simp only [hop, logicBitmap]
  · simp only [hop, fieldBitmap]

/-- One more condition of an `and`. -/
theorem mem_calcBitmap_and (pres : Finset ℕ) (o : ℕ) :
    o ∈ (c.calcBitmap op (some pres) .and).getD ∅ ↔ o ∈ pres ∧ c.Keeps op o := by
  have halone := c.alone_eq op
  unfold calcBitmap
  rcases c.combine_cases op with ⟨field, typeConds, depth, rfl⟩ | ⟨hno, hnot, hop⟩ | ⟨hnot, hop⟩
  · match typeConds with
    | [] | [key] => simp [combine, mustNotBitmap, Keeps, FilterOp.isMustNot, excluded,
        FieldBitmapGroupSet.makeFieldCopy]
    | key :: key' :: keys => simp [combine, mustNotBitmap, Keeps, FilterOp.isMustNot, excluded]
  · rw [hop, Keeps, hnot, halone, hno]
    cases c.calcSelfBitmap op <;> simp [logicBitmap]
  · rw [hop, Keeps, hnot, halone]
    cases op.noOperand <;> cases c.calcSelfBitmap op <;> simp [fieldBitmap]

/-- One more condition of an `or`: what is accumulated stays unless the condition has no operand. -/
theorem mem_calcBitmap_or (pres : Option (Finset ℕ)) (o : ℕ) :
    o ∈ (c.calcBitmap op pres .or).getD ∅ ↔
      (op.noOperand = false ∧ o ∈ pres.getD ∅) ∨ o ∈ c.alone op := by
  have halone := c.alone_eq op
  unfold calcBitmap
  rcases c.combine_cases op with ⟨field, typeConds, depth, rfl⟩ | ⟨hno, -, hop⟩ | ⟨-, hop⟩
  · rw [halone]
    cases pres <;> simp [combine, mustNotBitmap, FilterOp.noOperand]
  · rw [hop, halone, hno]
    cases pres <;> simp [logicBitmap]
  · rw [hop, halone]
    cases op.noOperand <;> cases c.calcSelfBitmap op <;> cases pres <;> simp [fieldBitmap]

/-! ## The loops -/

theorem mem_andLoop (conds : List (FilterOp R)) (pres : Finset ℕ) (o : ℕ) :
    o ∈ (c.andLoop conds (some pres)).getD ∅ ↔ o ∈ pres ∧ ∀ op ∈ conds, c.Keeps op o := by
  induction conds generalizing pres with
  | nil => simp [andLoop]
  | cons op conds ih =>
    have hstep := c.mem_calcBitmap_and op pres o
    rw [andLoop, List.forall_mem_cons, ← and_assoc, ← hstep, calcBitmap]
    cases c.combine op (c.calcSelfBitmap op) (some pres) .and with
    | none => simp
    | some next => exact ih next

/-- What an `and` selects in the order it has: the rows that its first condition selects and every
later one keeps. -/
theorem mem_andBitmap (conds : List (FilterOp R)) (o : ℕ) :
    o ∈ c.andBitmap (op :: conds) ↔ o ∈ c.alone op ∧ ∀ cond ∈ conds, c.Keeps cond o := by
  have hself : c.calcSelfBitmap (.andOp false (op :: conds)) = c.andLoop (op :: conds) none := by
    simp [calcSelfBitmap]
  rw [andBitmap, hself, andLoop, ← c.calcBitmap_none op .and, calcBitmap]
  cases c.combine op (c.calcSelfBitmap op) none .and with
  | none => simp
  | some pres => exact c.mem_andLoop conds pres o

theorem mem_orLoop (conds : List (FilterOp R)) (pres : Option (Finset ℕ)) (o : ℕ) :
    o ∈ (c.orLoop conds pres).getD ∅ ↔
      (o ∈ pres.getD ∅ ∧ ∀ op ∈ conds, op.noOperand = false) ∨
        ∃ before op after, conds = before ++ op :: after ∧ o ∈ c.alone op ∧
          ∀ op ∈ after, op.noOperand = false := by
  induction conds generalizing pres with
  | nil => simp [orLoop]
  | cons op conds ih =>
    rw [orLoop]
    refine (ih _).trans ?_
    rw [show c.combine op (c.calcSelfBitmap op) pres .or = c.calcBitmap op pres .or from rfl,
      c.mem_calcBitmap_or, List.forall_mem_cons]
    constructor
    · rintro (⟨⟨hop, ho⟩ | ho, hall⟩ | ⟨before, op', after, rfl, ho, hall⟩)
      · exact .inl ⟨ho, hop, hall⟩
      · exact .inr ⟨[], op, conds, rfl, ho, hall⟩
      · exact .inr ⟨op :: before, op', after, rfl, ho, hall⟩
    · rintro (⟨ho, hop, hall⟩ | ⟨before, op', after, heq, ho, hall⟩)
      · exact .inl ⟨.inl ⟨hop, ho⟩, hall⟩
      · cases before with
        | nil =>
          obtain ⟨rfl, rfl⟩ := List.cons_eq_cons.1 heq
          exact .inl ⟨.inr ho, hall⟩
        | cons b before =>
          obtain ⟨rfl, rfl⟩ := List.cons_eq_cons.1 heq
          exact .inr ⟨before, op', after, rfl, ho, hall⟩

/-- What an `or` selects in the order it has: the rows of a condition with no null after it. -/
theorem mem_orBitmap (conds : List (FilterOp R)) (o : ℕ) :
    o ∈ c.orBitmap conds ↔ ∃ before op after, conds = before ++ op :: after ∧ o ∈ c.alone op ∧
      ∀ op ∈ after, op.noOperand = false := by
  rw [orBitmap, calcSelfBitmap, mem_orLoop]
  simp

/-! ## Intersections -/

/-- An `and` selects what all its conditions select alone, and so in any order. -/
def MeansIntersection (conds : List (FilterOp R)) : Prop :=
  (∀ o, o ∈ c.andBitmap conds ↔ ∀ cond ∈ conds, o ∈ c.alone cond) ∧
    ∀ conds', conds'.Perm conds → c.andBitmap conds' = c.andBitmap conds

/-- The rows that a `must_not` does not select alone, of those below `element_size_`: on a path
field also the rows below its keys. -/
def matched : FilterOp R → Finset ℕ
  | .mustNotOp field typeConds depth =>
    (if c.fieldGroups.isPathFieldName field then
      c.fieldGroups.makePathFieldCopy field typeConds depth
    else c.fieldGroups.makeFieldCopy field typeConds).getD ∅
  | _ => ∅

/-- For the rows that the first condition and all but the `must_not` conditions select, not to have
the very keys of the later `must_not` conditions is to lie below `element_size_` and not to be
matched by them. -/
def MustNotAgree : List (FilterOp R) → Prop
  | [] => True
  | first :: rest => ∀ o ∈ c.alone first,
    (∀ cond ∈ rest, cond.isMustNot = false → o ∈ c.alone cond) →
      ((∀ cond ∈ rest, cond.isMustNot = true → o ∉ c.excluded cond) ↔
        ∀ cond ∈ rest, cond.isMustNot = true →
          o ∈ c.fieldGroups.makeFullTemp ∧ o ∉ c.matched cond)

theorem mem_alone_mustNotOp {op : FilterOp R} (h : op.isMustNot = true) (o : ℕ) :
    o ∈ c.alone op ↔ o ∈ c.fieldGroups.makeFullTemp ∧ o ∉ c.matched op := by
  rw [alone_eq]
  cases op with
  | mustNotOp field typeConds depth =>
    rw [show (FilterOp.mustNotOp field typeConds depth).noOperand = false from rfl,
      if_neg Bool.false_ne_true, calcSelfBitmap, matched]
    split_ifs with hpath
    · simp [FieldBitmapGroupSet.makePathFieldExcludeCopy]
    · match typeConds with
      | [] | [key] => simp [FieldBitmapGroupSet.makeFieldExcludeCopy, FieldBitmapGroupSet.makeFieldCopy]
      | key :: key' :: keys => simp [FieldBitmapGroupSet.makeFieldExcludeCopy]
  | _ => cases h

/-- In one order: an `and` is the intersection of its conditions exactly when its later `must_not`
conditions treat the candidates as they would alone. -/
theorem andBitmap_inter_iff {conds : List (FilterOp R)} (hne : conds ≠ []) :
    (∀ o, o ∈ c.andBitmap conds ↔ ∀ cond ∈ conds, o ∈ c.alone cond) ↔ c.MustNotAgree conds := by
  obtain ⟨first, rest, rfl⟩ := List.exists_cons_of_ne_nil hne
  -- each side, with the `must_not` conditions apart
  have hkeeps : ∀ o, (∀ cond ∈ rest, c.Keeps cond o) ↔
      (∀ cond ∈ rest, cond.isMustNot = false → o ∈ c.alone cond) ∧
        ∀ cond ∈ rest, cond.isMustNot = true → o ∉ c.excluded cond := by
    intro o
    rw [← forall₂_and]
    refine forall₂_congr fun cond _ => ?_
    unfold Keeps
    cases cond.isMustNot <;> simp
  have halone : ∀ o, (∀ cond ∈ rest, o ∈ c.alone cond) ↔
      (∀ cond ∈ rest, cond.isMustNot = false → o ∈ c.alone cond) ∧
        ∀ cond ∈ rest, cond.isMustNot = true →
          o ∈ c.fieldGroups.makeFullTemp ∧ o ∉ c.matched cond := by
    intro o
    rw [← forall₂_and]
    refine forall₂_congr fun cond _ => ?_
    cases hnot : cond.isMustNot with
    | true => simp [c.mem_alone_mustNotOp hnot]
    | false => simp
  unfold MustNotAgree
  refine forall_congr' fun o => ?_
  rw [mem_andBitmap, List.forall_mem_cons, hkeeps, halone, and_congr_right_iff,
    and_congr_right_iff]

/-- **When `and` means intersection.**  In every order of the conditions, a later `must_not` keeps
of the candidates the rows that it selects alone. -/
theorem and_means_intersection_iff {conds : List (FilterOp R)} (hne : conds ≠ []) :
    c.MeansIntersection conds ↔ ∀ conds', conds'.Perm conds → c.MustNotAgree conds' := by
  have hinter : ∀ {conds' : List (FilterOp R)}, conds'.Perm conds →
      ((∀ o, o ∈ c.andBitmap conds' ↔ ∀ cond ∈ conds, o ∈ c.alone cond) ↔
        c.MustNotAgree conds') := by
    intro conds' hperm
    rw [← c.andBitmap_inter_iff fun hnil => hne (hnil ▸ hperm).symm.eq_nil]
    simp only [hperm.mem_iff]
  constructor
  · rintro ⟨hmeans, horder⟩ conds' hperm
    rw [← hinter hperm, horder conds' hperm]
    exact hmeans
  · intro hagree
    have hmeans := (hinter (List.Perm.refl conds)).2 (hagree conds (List.Perm.refl conds))
    refine ⟨hmeans, fun conds' hperm => Finset.ext fun o => ?_⟩
    rw [(hinter hperm).2 (hagree conds' hperm) o, hmeans o]

/-! ## Unions -/

/-- An `or` selects what one of its conditions selects alone, and so in any order. -/
def MeansUnion (conds : List (FilterOp R)) : Prop :=
  (∀ o, o ∈ c.orBitmap conds ↔ ∃ cond ∈ conds, o ∈ c.alone cond) ∧
    ∀ conds', conds'.Perm conds → c.orBitmap conds' = c.orBitmap conds

/-- **When `or` means union.**  No condition is without operand, or no condition selects anything. -/
theorem or_means_union_iff (conds : List (FilterOp R)) :
    c.MeansUnion conds ↔
      (∀ cond ∈ conds, cond.noOperand = false) ∨ ∀ cond ∈ conds, c.alone cond = ∅ := by
  constructor
  · rintro ⟨hmeans, horder⟩
    by_contra hnot
    push Not at hnot
    obtain ⟨⟨empty, hempty, hno⟩, cond, hcond, o, ho⟩ := hnot
    rw [ne_eq, Bool.not_eq_false] at hno
    -- with the condition without operand last, nothing is left
    obtain ⟨before, after, rfl⟩ := List.append_of_mem hempty
    have hperm : (before ++ after ++ [empty]).Perm (before ++ empty :: after) := by
      rw [List.append_assoc]
      exact (@List.perm_append_comm _ after [empty]).append_left before
    have hlast : o ∈ c.orBitmap (before ++ after ++ [empty]) := by
      rw [horder _ hperm, hmeans o]
      exact ⟨cond, hcond, ho⟩
    obtain ⟨pre, op, post, heq, hop, hpost⟩ := (c.mem_orBitmap _ o).1 hlast
    rcases List.eq_nil_or_concat post with rfl | ⟨post, last, rfl⟩
    · obtain ⟨-, rfl⟩ := List.append_inj' heq rfl |>.imp id List.singleton_inj.1
      rw [alone_eq, if_pos hno] at hop
      cases hop
    · rw [List.concat_eq_append, ← List.cons_append, ← List.append_assoc] at heq
      obtain ⟨-, rfl⟩ := List.append_inj' heq rfl |>.imp id List.singleton_inj.1
      rw [hpost empty (by simp)] at hno
      cases hno
  · rintro (hno | hempty)
    · have hor : ∀ {conds' : List (FilterOp R)}, conds'.Perm conds → ∀ o,
          o ∈ c.orBitmap conds' ↔ ∃ cond ∈ conds, o ∈ c.alone cond := by
        intro conds' hperm o
        rw [mem_orBitmap]
        constructor
        · rintro ⟨before, op, after, rfl, ho, -⟩
          exact ⟨op, hperm.mem_iff.1 (by simp), ho⟩
        · rintro ⟨op, hop, ho⟩
          obtain ⟨before, after, rfl⟩ := List.append_of_mem (hperm.mem_iff.2 hop)
          exact ⟨before, op, after, rfl, ho, fun op' hop' => hno op' (hperm.mem_iff.1 (by simp [hop']))⟩
      refine ⟨hor (List.Perm.refl _), fun conds' hperm => Finset.ext fun o => ?_⟩
      rw [hor hperm, hor (List.Perm.refl _)]
    · have hor : ∀ {conds' : List (FilterOp R)}, conds'.Perm conds → c.orBitmap conds' = ∅ := by
        intro conds' hperm
        refine Finset.eq_empty_of_forall_notMem fun o ho => ?_
        obtain ⟨before, op, after, rfl, ho, -⟩ := (c.mem_orBitmap _ o).1 ho
        rw [hempty op (hperm.mem_iff.1 (by simp))] at ho
        cases ho
      refine ⟨fun o => ?_, fun conds' hperm => ?_⟩
      · rw [hor (List.Perm.refl _)]
        refine iff_of_false (by simp) ?_
        rintro ⟨cond, hcond, ho⟩
        rw [hempty cond hcond] at ho
        cases ho
      · rw [hor hperm, hor (List.Perm.refl _)]

end FilterContext

/-! ## A row below a path -/

/-- One row, with the tag x at the path /a/b. -/
def oneRow : FilterContext ℤ where
  fieldGroups := (FieldBitmapGroupSet.create [("path", .dir), ("tag", .bitmaps)]).addRowData 0
    ⟨(SortedMap.empty.put "path" "/a/b").put "tag" "x", SortedMap.empty⟩
    ⟨SortedMap.empty, SortedMap.empty⟩
  offsetByLabel := fun _ => none
  compile := fun _ => none

/-- The rows with the tag x, but not below /b. -/
def tagNotElsewhere : List (FilterOp ℤ) := [.mustOp "tag" ["x"] (-1), .mustNotOp "path" ["/b"] (-1)]

theorem and_means_intersection_iff_tagNotElsewhere : oneRow.MeansIntersection tagNotElsewhere := by
  refine (oneRow.and_means_intersection_iff (by simp [tagNotElsewhere])).2 fun conds' hperm => ?_
  rcases List.perm_pair.1 hperm with rfl | rfl
  all_goals
    simp only [FilterContext.MustNotAgree]
    decide +kernel

/-- The rows with the tag x, but not below /a. -/
def tagNotBelow : List (FilterOp ℤ) := [.mustOp "tag" ["x"] (-1), .mustNotOp "path" ["/a"] (-1)]

/-- The row is below /a, and `and` selects it. -/
theorem not_meansIntersection_tagNotBelow : ¬ oneRow.MeansIntersection tagNotBelow := by
  rintro ⟨hmeans, -⟩
  have hsel : 0 ∈ oneRow.andBitmap tagNotBelow := by decide +kernel
  have hnot : 0 ∉ oneRow.alone (.mustNotOp "path" ["/a"] (-1)) := by decide +kernel
  exact hnot ((hmeans 0).1 hsel _ (by simp [tagNotBelow]))

/-- The rows with the tag x, or with no path at all. -/
def tagOrNoPath : List (FilterOp ℤ) := [.mustOp "tag" ["x"] (-1), .mustOp "path" [] (-1)]

/-- The condition without keys discards the row that the first one has selected. -/
theorem not_meansUnion_tagOrNoPath : ¬ oneRow.MeansUnion tagOrNoPath := by
  rintro ⟨hmeans, -⟩
  have hsel : 0 ∈ oneRow.alone (.mustOp "tag" ["x"] (-1)) := by decide +kernel
  have hnot : 0 ∉ oneRow.orBitmap tagOrNoPath := by decide +kernel
  exact hnot ((hmeans 0).2 ⟨_, by simp [tagOrNoPath], hsel⟩)

end OpenViking.VectorDB
