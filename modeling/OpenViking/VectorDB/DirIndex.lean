import Mathlib.Data.List.Basic
import Mathlib.Data.String.Basic

/-!
# The directory trie

A model of `DirIndex` (`scalar/bitmap_holder/dir_index.{h,cpp}`): the keys of a path field in a
trie of their segments, with at each leaf the bitmaps of the keys that end there.  The trie does not
own the bitmaps, it points to them: what stands for such a pointer is any `β`.

Results:

* `DirIndex.bound_addKey`: adding a key binds its bitmap to its segments, and changes nothing else;
* `DirIndex.mem_getMergedBitmaps`: the bitmaps below a prefix, within a depth.
-/

namespace OpenViking.VectorDB

/-! ## Model -/

/-- `children_` of a `TrieNode` (`dir_index.h`, 14-30): each child with its segment, `is_leaf_`,
its bitmaps (`leaf_bitmap_`, then its `leaf_bitmap_collisions_`) and its own children. -/
inductive TrieChildren (β : Type) where
  | nil
  | cons (segment : String) (isLeaf : Bool) (bitmaps : List β) (children : TrieChildren β)
      (siblings : TrieChildren β)
  deriving DecidableEq

/-- `DirIndex`, its root node. -/
structure DirIndex (β : Type) where
  isLeaf : Bool
  bitmaps : List β
  children : TrieChildren β
  deriving DecidableEq

/-- `split_path` (`dir_index.cpp`, 7-20): the non-empty segments. -/
def splitPath (path : String) : List String :=
  ((path.toList.splitOn '/').filter (· ≠ [])).map String.ofList

variable {β : Type} [DecidableEq β]

/-- `bind_leaf_bitmap` (38-55). -/
def bindLeafBitmap (bitmaps : List β) (bitmap : β) : List β :=
  if bitmap ∈ bitmaps then bitmaps else bitmaps ++ [bitmap]

namespace TrieChildren

/-- The new nodes for the segments of a key. -/
def ofKey (bitmap : β) : List String → TrieChildren β
  | [] => .nil
  | s :: segs => .cons s (segs = []) (if segs = [] then [bitmap] else []) (ofKey bitmap segs) .nil

/-- `add_key` (`dir_index.h`, 37-53) below a node, for one or more segments. -/
def addKey (bitmap : β) : TrieChildren β → List String → TrieChildren β
  | .nil, segs => ofKey bitmap segs
  | .cons seg isLeaf bitmaps children siblings, [] => .cons seg isLeaf bitmaps children siblings
  | .cons seg isLeaf bitmaps children siblings, s :: segs =>
    if seg = s then
      if segs = [] then .cons seg true (bindLeafBitmap bitmaps bitmap) children siblings
      else .cons seg isLeaf bitmaps (addKey bitmap children segs) siblings
    else .cons seg isLeaf bitmaps children (addKey bitmap siblings (s :: segs))

/-- The node at the end of the segments, below a node. -/
def findNode : TrieChildren β → List String → Option (DirIndex β)
  | .nil, _ => none
  | .cons _ _ _ _ _, [] => none
  | .cons seg isLeaf bitmaps children siblings, s :: segs =>
    if seg = s then
      if segs = [] then some ⟨isLeaf, bitmaps, children⟩ else findNode children segs
    else findNode siblings (s :: segs)

/-- `collect_bitmaps_recursive` (71-97) over the children of a node, `left` levels down from them;
`none` for no limit. -/
def collectBitmaps (left : Option ℕ) : TrieChildren β → List β
  | .nil => []
  | .cons _ isLeaf bitmaps children siblings =>
    (if isLeaf then bitmaps else []) ++
      (if left = some 0 then [] else collectBitmaps (left.map (· - 1)) children) ++
      collectBitmaps left siblings

end TrieChildren

namespace DirIndex

/-- A trie without keys. -/
def empty : DirIndex β := ⟨false, [], .nil⟩

/-- `add_key(key, bitmap)`. -/
def addKey (d : DirIndex β) (key : String) (bitmap : β) : DirIndex β :=
  match splitPath key with
  | [] => { d with isLeaf := true, bitmaps := bindLeafBitmap d.bitmaps bitmap }
  | s :: segs => { d with children := d.children.addKey bitmap (s :: segs) }

/-- `find_node(path)` (22-36). -/
def findNode (d : DirIndex β) (path : String) : Option (DirIndex β) :=
  match splitPath path with
  | [] => some d
  | s :: segs => d.children.findNode (s :: segs)

/-- `get_merged_bitmaps(path_prefix, depth, bitmaps)` (57-69). -/
def getMergedBitmaps (d : DirIndex β) (pathPrefix : String) (depth : ℤ) : List β :=
  match d.findNode pathPrefix with
  | none => []
  | some node =>
    (if node.isLeaf then node.bitmaps else []) ++
      if depth ≠ -1 ∧ depth ≤ 0 then []
      else node.children.collectBitmaps (if depth = -1 then none else some (depth.toNat - 1))

end DirIndex

/-! ## Keys and bitmaps -/

omit [DecidableEq β] in
@[simp] theorem mem_bindLeafBitmap [DecidableEq β] {bitmaps : List β} {bitmap x : β} :
    x ∈ bindLeafBitmap bitmaps bitmap ↔ x ∈ bitmaps ∨ x = bitmap := by
  unfold bindLeafBitmap
  split_ifs with h
  · refine ⟨.inl, ?_⟩
    rintro (hx | rfl)
    · exact hx
    · exact h
  · simp

namespace TrieChildren

/-- The segments of the children. -/
def segments : TrieChildren β → List String
  | .nil => []
  | .cons seg _ _ _ siblings => seg :: segments siblings

/-- Children have different segments, and only leaves have bitmaps. -/
def Wf : TrieChildren β → Prop
  | .nil => True
  | .cons seg isLeaf bitmaps children siblings =>
    seg ∉ siblings.segments ∧ (isLeaf = false → bitmaps = []) ∧ children.Wf ∧ siblings.Wf

/-- A bitmap is bound to the leaf at the end of a path. -/
def Bound : TrieChildren β → List String → β → Prop
  | .nil, _, _ => False
  | .cons seg _ bitmaps children siblings, path, x =>
    (path = [seg] ∧ x ∈ bitmaps) ∨ (∃ path', path = seg :: path' ∧ children.Bound path' x) ∨
      siblings.Bound path x

omit [DecidableEq β] in
theorem not_bound_nil (f : TrieChildren β) (x : β) : ¬ f.Bound [] x := by
  induction f with
  | nil => exact id
  | cons seg isLeaf bitmaps children siblings _ ih => simp [Bound, ih]

variable {f : TrieChildren β}

omit [DecidableEq β] in
theorem mem_segments_of_bound {s : String} {path : List String} {x : β}
    (h : f.Bound (s :: path) x) : s ∈ f.segments := by
  induction f with
  | nil => exact h.elim
  | cons seg isLeaf bitmaps children siblings _ ih =>
    rcases h with ⟨h, -⟩ | ⟨path', h, -⟩ | h
    · exact (List.cons_eq_cons.1 h).1 ▸ List.mem_cons_self
    · exact (List.cons_eq_cons.1 h).1 ▸ List.mem_cons_self
    · exact List.mem_cons_of_mem _ (ih h)

variable {segs path : List String}

omit [DecidableEq β] in
theorem bound_ofKey {bitmap x : β} (hne : segs ≠ []) :
    (ofKey bitmap segs).Bound path x ↔ path = segs ∧ x = bitmap := by
  induction segs generalizing path with
  | nil => exact absurd rfl hne
  | cons s segs ih =>
    by_cases hs : segs = []
    · subst hs
      simp [ofKey, Bound]
    · simp only [ofKey, Bound, hs, if_false, List.not_mem_nil, and_false, false_or, or_false, ih hs]
      constructor
      · rintro ⟨path', rfl, rfl, rfl⟩
        exact ⟨rfl, rfl⟩
      · rintro ⟨rfl, rfl⟩
        exact ⟨segs, rfl, rfl, rfl⟩

omit [DecidableEq β] in
theorem wf_ofKey (bitmap : β) (segs : List String) : (ofKey bitmap segs).Wf := by
  induction segs with
  | nil => trivial
  | cons s segs ih =>
    refine ⟨by simp [segments], fun h => ?_, ih, trivial⟩
    simp only [decide_eq_false_iff_not] at h
    simp [h]

/-- Adding a key binds its bitmap to its segments, and leaves the other bindings. -/
theorem bound_addKey {bitmap x : β} (hne : segs ≠ []) : (f.addKey bitmap segs).Bound path x ↔
      f.Bound path x ∨ (path = segs ∧ x = bitmap) := by
  induction f generalizing segs path with
  | nil => simp [addKey, bound_ofKey hne, Bound]
  | cons seg isLeaf bitmaps children siblings ihc ihs =>
    obtain ⟨s, segs, rfl⟩ := List.exists_cons_of_ne_nil hne
    unfold addKey
    split_ifs with hseg hsegs
    · subst hseg hsegs
      simp only [Bound, mem_bindLeafBitmap]
      generalize (∃ path', path = seg :: path' ∧ children.Bound path' x) = below
      tauto
    · subst hseg
      simp only [Bound, ihc hsegs]
      constructor
      · rintro (h | ⟨path', rfl, h | ⟨rfl, rfl⟩⟩ | h)
        · exact .inl (.inl h)
        · exact .inl (.inr (.inl ⟨path', rfl, h⟩))
        · exact .inr ⟨rfl, rfl⟩
        · exact .inl (.inr (.inr h))
      · rintro ((h | h | h) | ⟨rfl, rfl⟩)
        · exact .inl h
        · obtain ⟨path', rfl, h⟩ := h
          exact .inr (.inl ⟨path', rfl, .inl h⟩)
        · exact .inr (.inr h)
        · exact .inr (.inl ⟨segs, rfl, .inr ⟨rfl, rfl⟩⟩)
    · simp only [Bound, ihs hne]
      generalize (∃ path', path = seg :: path' ∧ children.Bound path' x) = below
      tauto

theorem segments_addKey (f : TrieChildren β) (bitmap : β) (s : String) (segs : List String) :
    ∀ t, t ∈ (f.addKey bitmap (s :: segs)).segments ↔ t ∈ f.segments ∨ t = s := by
  induction f with
  | nil => simp [addKey, ofKey, segments]
  | cons seg isLeaf bitmaps children siblings _ ih =>
    intro t
    unfold addKey
    split_ifs with hseg hsegs
    · subst hseg
      simp only [segments, List.mem_cons]
      tauto
    · subst hseg
      simp only [segments, List.mem_cons]
      tauto
    · simp only [segments, List.mem_cons, ih]
      tauto

theorem Wf.addKey (h : f.Wf) (bitmap : β) (segs : List String) : (f.addKey bitmap segs).Wf := by
  induction f generalizing segs with
  | nil => exact wf_ofKey bitmap segs
  | cons seg isLeaf bitmaps children siblings ihc ihs =>
    obtain ⟨h1, h2, h3, h4⟩ := h
    cases segs with
    | nil => exact ⟨h1, h2, h3, h4⟩
    | cons s segs =>
      unfold TrieChildren.addKey
      split_ifs with hseg hsegs
      · exact ⟨h1, by simp, h3, h4⟩
      · exact ⟨h1, h2, ihc h3 segs, h4⟩
      · refine ⟨?_, h2, h3, ihs h4 _⟩
        rw [segments_addKey]
        exact not_or.2 ⟨h1, hseg⟩

omit [DecidableEq β] in
/-- The bitmaps below a node are those bound at most `left` levels below its children. -/
theorem mem_collectBitmaps (h : f.Wf) {left : Option ℕ} {x : β} :
    x ∈ f.collectBitmaps left ↔
      ∃ path, f.Bound path x ∧ ∀ n, left = some n → path.length ≤ n + 1 := by
  induction f generalizing left with
  | nil => simp [collectBitmaps, Bound]
  | cons seg isLeaf bitmaps children siblings ihc ihs =>
    obtain ⟨h1, h2, h3, h4⟩ := h
    have hown : x ∈ (if isLeaf then bitmaps else []) ↔ x ∈ bitmaps := by
      cases isLeaf with
      | true => simp
      | false => simp [h2 rfl]
    have hchildren : x ∈ (if left = some 0 then [] else children.collectBitmaps (left.map (· - 1))) ↔
        ∃ path, children.Bound path x ∧ ∀ n, left = some n → path.length + 1 ≤ n + 1 := by
      split_ifs with hleft
      · subst hleft
        refine iff_of_false (by simp) ?_
        rintro ⟨path, hb, hlen⟩
        have := hlen 0 rfl
        obtain rfl := List.eq_nil_of_length_eq_zero (by omega : path.length = 0)
        exact not_bound_nil _ _ hb
      · rw [ihc h3]
        refine exists_congr fun path => and_congr Iff.rfl ?_
        cases left with
        | none => simp
        | some n =>
          have hn : n ≠ 0 := fun hn => hleft (by rw [hn])
          simp only [Option.map_some, Option.some.injEq, forall_eq']
          omega
    rw [collectBitmaps, List.mem_append, List.mem_append, hown, hchildren, ihs h4]
    constructor
    · rintro ((hx | ⟨path, hb, hlen⟩) | ⟨path, hb, hlen⟩)
      · exact ⟨[seg], .inl ⟨rfl, hx⟩, by simp⟩
      · exact ⟨seg :: path, .inr (.inl ⟨path, rfl, hb⟩), hlen⟩
      · exact ⟨path, .inr (.inr hb), hlen⟩
    · rintro ⟨path, ⟨rfl, hx⟩ | ⟨path', rfl, hb⟩ | hb, hlen⟩
      · exact .inl (.inl hx)
      · exact .inl (.inr ⟨path', hb, hlen⟩)
      · exact .inr ⟨path, hb, hlen⟩

omit [DecidableEq β] in
/-- Below the node at the end of some segments stands what is bound to longer paths. -/
theorem findNode_spec (h : f.Wf) {segs : List String} (hne : segs ≠ []) :
    (∀ node, f.findNode segs = some node →
      node.children.Wf ∧ (node.isLeaf = false → node.bitmaps = []) ∧
      ∀ path x, f.Bound (segs ++ path) x ↔
        (path = [] ∧ x ∈ node.bitmaps) ∨ node.children.Bound path x) ∧
      (f.findNode segs = none → ∀ path x, ¬ f.Bound (segs ++ path) x) := by
  induction f generalizing segs with
  | nil => exact ⟨by simp [findNode], fun _ _ _ hb => hb⟩
  | cons seg isLeaf bitmaps children siblings ihc ihs =>
    obtain ⟨h1, h2, h3, h4⟩ := h
    obtain ⟨s, segs, rfl⟩ := List.exists_cons_of_ne_nil hne
    unfold findNode
    split_ifs with hseg hsegs
    · subst hseg hsegs
      refine ⟨fun node hnode => ?_, by simp⟩
      cases hnode
      refine ⟨h3, h2, fun path x => ?_⟩
      have hsib : ¬ siblings.Bound (seg :: path) x := fun hb => h1 (mem_segments_of_bound hb)
      simp [Bound, hsib]
    · subst hseg
      have hsib : ∀ path x, ¬ siblings.Bound (seg :: path) x := fun path x hb =>
        h1 (mem_segments_of_bound hb)
      have hiff : ∀ path x, (TrieChildren.cons seg isLeaf bitmaps children siblings).Bound
          (seg :: segs ++ path) x ↔ children.Bound (segs ++ path) x := by
        intro path x
        simp [Bound, hsib, hsegs]
      refine ⟨fun node hnode => ?_, fun hnode path x hb => ?_⟩
      · obtain ⟨hwf, hleaf, hspec⟩ := (ihc h3 hsegs).1 node hnode
        exact ⟨hwf, hleaf, fun path x => (hiff path x).trans (hspec path x)⟩
      · exact (ihc h3 hsegs).2 hnode path x ((hiff path x).1 hb)
    · have hiff : ∀ path x, (TrieChildren.cons seg isLeaf bitmaps children siblings).Bound
          (s :: segs ++ path) x ↔ siblings.Bound (s :: segs ++ path) x := by
        intro path x
        simp [Bound, Ne.symm hseg]
      refine ⟨fun node hnode => ?_, fun hnode path x hb => ?_⟩
      · obtain ⟨hwf, hleaf, hspec⟩ := (ihs h4 hne).1 node hnode
        exact ⟨hwf, hleaf, fun path x => (hiff path x).trans (hspec path x)⟩
      · exact (ihs h4 hne).2 hnode path x ((hiff path x).1 hb)

end TrieChildren

namespace DirIndex

/-- A bitmap is bound to the leaf at the end of a path from the root. -/
def Bound (d : DirIndex β) (path : List String) (x : β) : Prop :=
  (path = [] ∧ x ∈ d.bitmaps) ∨ d.children.Bound path x

/-- Children have different segments, and only leaves have bitmaps. -/
def Wf (d : DirIndex β) : Prop := (d.isLeaf = false → d.bitmaps = []) ∧ d.children.Wf

omit [DecidableEq β] in
theorem wf_empty : (empty : DirIndex β).Wf := ⟨fun _ => rfl, trivial⟩

omit [DecidableEq β] in
theorem not_bound_empty (path : List String) (x : β) : ¬ (empty : DirIndex β).Bound path x := by
  simp [empty, Bound, TrieChildren.Bound]

variable {d : DirIndex β}

theorem Wf.addKey (h : d.Wf) (key : String) (bitmap : β) : (d.addKey key bitmap).Wf := by
  unfold DirIndex.addKey
  split
  · exact ⟨by simp, h.2⟩
  · exact ⟨h.1, h.2.addKey _ _⟩

/-- Adding a key binds its bitmap to its segments, and changes nothing else. -/
theorem bound_addKey {key : String} {bitmap x : β} {path : List String} :
    (d.addKey key bitmap).Bound path x ↔ d.Bound path x ∨ (path = splitPath key ∧ x = bitmap) := by
  unfold addKey Bound
  split
  · rename_i hnil
    simp only [hnil, mem_bindLeafBitmap]
    tauto
  · rename_i s segs hcons
    rw [hcons]
    simp only [TrieChildren.bound_addKey (List.cons_ne_nil s segs)]
    tauto

omit [DecidableEq β] in
/-- The node of a prefix has what is bound below the prefix. -/
theorem findNode_spec (h : d.Wf) (pathPrefix : String) :
    (∃ node, d.findNode pathPrefix = some node ∧ node.Wf ∧
      ∀ path x, d.Bound (splitPath pathPrefix ++ path) x ↔ node.Bound path x) ∨
      (d.findNode pathPrefix = none ∧ ∀ path x, ¬ d.Bound (splitPath pathPrefix ++ path) x) := by
  unfold findNode
  split
  · rename_i hnil
    exact .inl ⟨d, rfl, h, by simp [hnil]⟩
  · rename_i s segs hcons
    have hspec := TrieChildren.findNode_spec h.2 (List.cons_ne_nil s segs)
    have hbound : ∀ path x, d.Bound (s :: segs ++ path) x ↔
        d.children.Bound (s :: segs ++ path) x := by simp [Bound]
    rw [hcons]
    cases hf : d.children.findNode (s :: segs) with
    | none => exact .inr ⟨rfl, fun path x hb => hspec.2 hf path x ((hbound path x).1 hb)⟩
    | some node =>
      obtain ⟨hwf, hleaf, hiff⟩ := hspec.1 node hf
      exact .inl ⟨node, rfl, ⟨hleaf, hwf⟩, fun path x => (hbound path x).trans (hiff path x)⟩

omit [DecidableEq β] in
/-- The bitmaps below a prefix, at most `depth` levels down. -/
theorem mem_getMergedBitmaps (h : d.Wf) {pathPrefix : String} {depth : ℤ} {x : β} :
    x ∈ d.getMergedBitmaps pathPrefix depth ↔
      ∃ path, d.Bound (splitPath pathPrefix ++ path) x ∧ (depth ≠ -1 → path.length ≤ depth.toNat) := by
  have hnode := findNode_spec h pathPrefix
  unfold getMergedBitmaps
  rcases hnode with ⟨node, hf, ⟨hleaf, hwf⟩, hbound⟩ | ⟨hf, hbound⟩
  · simp only [hf, hbound]
    have hown : x ∈ (if node.isLeaf then node.bitmaps else []) ↔ x ∈ node.bitmaps := by
      cases hl : node.isLeaf with
      | true => simp
      | false => simp [hleaf hl]
    rw [List.mem_append, hown]
    constructor
    · rintro (hx | hx)
      · exact ⟨[], Or.inl ⟨rfl, hx⟩, by simp⟩
      · split_ifs at hx with hd hneg
        · cases hx
        · obtain ⟨path, hb, -⟩ := (TrieChildren.mem_collectBitmaps hwf).1 hx
          exact ⟨path, Or.inr hb, fun hne => absurd hneg hne⟩
        · obtain ⟨path, hb, hlen⟩ := (TrieChildren.mem_collectBitmaps hwf).1 hx
          have := hlen _ rfl
          exact ⟨path, Or.inr hb, fun _ => by omega⟩
    · rintro ⟨path, ⟨rfl, hx⟩ | hb, hlen⟩
      · exact .inl hx
      · right
        have hpos : path ≠ [] := fun hnil => TrieChildren.not_bound_nil _ _ (hnil ▸ hb)
        have hpos := List.length_pos_iff.2 hpos
        rw [if_neg (by rintro ⟨hne, hd⟩; have := hlen hne; omega),
          TrieChildren.mem_collectBitmaps hwf]
        refine ⟨path, hb, fun n hn => ?_⟩
        split_ifs at hn with hd
        have := hlen hd
        cases hn
        omega
  · simp only [hf, List.not_mem_nil, false_iff]
    rintro ⟨path, hb, -⟩
    exact hbound path x hb

end DirIndex

end OpenViking.VectorDB
