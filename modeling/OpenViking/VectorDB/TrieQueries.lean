import OpenViking.VectorDB.DirIndex
import Mathlib.Data.List.Nodup
import Mathlib.Data.List.Perm.Basic

/-!
# Prefix queries of the directory trie

`get_merged_bitmaps` (`dir_index.cpp`, 57-97) as a list: which bitmaps it returns and how often, on
a trie to which keys have been added.  Different spellings of one path end at one leaf, so a leaf
may have several bitmaps.

Results:

* `DirIndex.nodup_getMergedBitmaps`: a bitmap is returned once;
* `DirIndex.getMergedBitmaps_perm`: a query returns the bitmaps of the keys below its prefix.
-/

namespace OpenViking.VectorDB

variable {β : Type}

/-! ## Once each -/

namespace TrieChildren

/-- No leaf has a bitmap twice. -/
def LeavesNodup : TrieChildren β → Prop
  | .nil => True
  | .cons _ _ bitmaps children siblings =>
    bitmaps.Nodup ∧ children.LeavesNodup ∧ siblings.LeavesNodup

/-- A bitmap is bound to one path. -/
def BoundOnce (f : TrieChildren β) : Prop :=
  ∀ path path' x, f.Bound path x → f.Bound path' x → path = path'

theorem nodup_bindLeafBitmap [DecidableEq β] {bitmaps : List β} (h : bitmaps.Nodup) (bitmap : β) :
    (bindLeafBitmap bitmaps bitmap).Nodup := by
  unfold bindLeafBitmap
  split_ifs with hmem
  · exact h
  · rw [← List.concat_eq_append]
    exact h.concat hmem

theorem leavesNodup_ofKey (bitmap : β) (segs : List String) : (ofKey bitmap segs).LeavesNodup := by
  induction segs with
  | nil => trivial
  | cons s segs ih =>
    refine ⟨?_, ih, trivial⟩
    split_ifs
    · exact List.nodup_singleton bitmap
    · exact List.nodup_nil

variable {f : TrieChildren β}

theorem LeavesNodup.addKey [DecidableEq β] (h : f.LeavesNodup) (bitmap : β)
    (segs : List String) : (f.addKey bitmap segs).LeavesNodup := by
  induction f generalizing segs with
  | nil => exact leavesNodup_ofKey bitmap segs
  | cons seg isLeaf bitmaps children siblings ihc ihs =>
    obtain ⟨hown, hchildren, hsiblings⟩ := h
    cases segs with
    | nil => exact ⟨hown, hchildren, hsiblings⟩
    | cons s segs =>
      unfold TrieChildren.addKey
      split_ifs
      · exact ⟨nodup_bindLeafBitmap hown bitmap, hchildren, hsiblings⟩
      · exact ⟨hown, ihc hchildren segs, hsiblings⟩
      · exact ⟨hown, hchildren, ihs hsiblings (s :: segs)⟩

/-- Below a node every bitmap is collected once. -/
theorem nodup_collectBitmaps (hwf : f.Wf) (hnodup : f.LeavesNodup)
    (honce : f.BoundOnce) (left : Option ℕ) : (f.collectBitmaps left).Nodup := by
  induction f generalizing left with
  | nil => exact List.nodup_nil
  | cons seg isLeaf bitmaps children siblings ihc ihs =>
    obtain ⟨hseg, hleaf, hwfc, hwfs⟩ := hwf
    obtain ⟨hown, hnc, hns⟩ := hnodup
    have honcec : children.BoundOnce := fun path path' x hb hb' =>
      (List.cons_eq_cons.1 (honce _ _ x (.inr (.inl ⟨path, rfl, hb⟩))
        (.inr (.inl ⟨path', rfl, hb'⟩)))).2
    have honces : siblings.BoundOnce := fun path path' x hb hb' =>
      honce path path' x (.inr (.inr hb)) (.inr (.inr hb'))
    have hsub : ∀ x ∈ (if isLeaf then bitmaps else []), x ∈ bitmaps := by
      intro x hx
      split_ifs at hx
      · exact hx
      · cases hx
    have hbelow : ∀ x ∈ (if left = some 0 then [] else children.collectBitmaps (left.map (· - 1))),
        ∃ path, path ≠ [] ∧ children.Bound path x := by
      intro x hx
      split_ifs at hx
      · cases hx
      · obtain ⟨path, hb, -⟩ := (mem_collectBitmaps hwfc).1 hx
        exact ⟨path, fun hnil => not_bound_nil children x (hnil ▸ hb), hb⟩
    have hbeside : ∀ x ∈ siblings.collectBitmaps left, ∃ path, siblings.Bound path x := by
      intro x hx
      obtain ⟨path, hb, -⟩ := (mem_collectBitmaps hwfs).1 hx
      exact ⟨path, hb⟩
    -- A sibling's path starts with another segment.
    have hother : ∀ path x, siblings.Bound (seg :: path) x → False := fun path x hb =>
      hseg (mem_segments_of_bound hb)
    unfold collectBitmaps
    rw [List.nodup_append, List.nodup_append]
    refine ⟨⟨?_, ?_, ?_⟩, ihs hwfs hns honces left, ?_⟩
    · split_ifs
      · exact hown
      · exact List.nodup_nil
    · split_ifs
      · exact List.nodup_nil
      · exact ihc hwfc hnc honcec _
    · rintro x hx y hy rfl
      obtain ⟨path, hne, hb⟩ := hbelow x hy
      have hpath := honce _ _ x (.inl ⟨rfl, hsub x hx⟩) (.inr (.inl ⟨path, rfl, hb⟩))
      exact hne (List.cons_eq_cons.1 hpath).2.symm
    · rintro x hx y hy rfl
      obtain ⟨path, hb⟩ := hbeside x hy
      rcases List.mem_append.1 hx with hx | hx
      · have hpath := honce _ _ x (.inl ⟨rfl, hsub x hx⟩) (.inr (.inr hb))
        exact hother [] x (hpath ▸ hb)
      · obtain ⟨path', -, hb'⟩ := hbelow x hx
        have hpath := honce _ _ x (.inr (.inl ⟨path', rfl, hb'⟩)) (.inr (.inr hb))
        exact hother path' x (hpath ▸ hb)

/-- The node at the end of some segments has no bitmap twice. -/
theorem leavesNodup_findNode (h : f.LeavesNodup) {segs : List String}
    {node : DirIndex β} (hnode : f.findNode segs = some node) :
    node.bitmaps.Nodup ∧ node.children.LeavesNodup := by
  induction f generalizing segs with
  | nil => cases hnode
  | cons seg isLeaf bitmaps children siblings ihc ihs =>
    obtain ⟨hown, hchildren, hsiblings⟩ := h
    cases segs with
    | nil => cases hnode
    | cons s segs =>
      unfold findNode at hnode
      split_ifs at hnode
      · obtain rfl := Option.some.inj hnode
        exact ⟨hown, hchildren⟩
      · exact ihc hchildren hnode
      · exact ihs hsiblings hnode

end TrieChildren

namespace DirIndex

/-- No leaf has a bitmap twice. -/
def LeavesNodup (d : DirIndex β) : Prop := d.bitmaps.Nodup ∧ d.children.LeavesNodup

/-- A bitmap is bound to one path. -/
def BoundOnce (d : DirIndex β) : Prop :=
  ∀ path path' x, d.Bound path x → d.Bound path' x → path = path'

theorem leavesNodup_empty : (empty : DirIndex β).LeavesNodup := ⟨List.nodup_nil, trivial⟩

variable {d : DirIndex β}

theorem LeavesNodup.addKey [DecidableEq β] (h : d.LeavesNodup) (key : String)
    (bitmap : β) : (d.addKey key bitmap).LeavesNodup := by
  unfold DirIndex.addKey
  split
  · exact ⟨TrieChildren.nodup_bindLeafBitmap h.1 bitmap, h.2⟩
  · exact ⟨h.1, h.2.addKey bitmap _⟩

/-- The bitmaps of a node and those collected below it. -/
theorem nodup_collect {node : DirIndex β} (hwf : node.Wf) (hnodup : node.LeavesNodup)
    (honce : node.BoundOnce) {below : List β}
    (hbelow : below = [] ∨ ∃ left, below = node.children.collectBitmaps left) :
    ((if node.isLeaf then node.bitmaps else []) ++ below).Nodup := by
  have honcec : node.children.BoundOnce := fun path path' x hb hb' =>
    honce path path' x (.inr hb) (.inr hb')
  rw [List.nodup_append]
  refine ⟨?_, ?_, ?_⟩
  · split_ifs
    · exact hnodup.1
    · exact List.nodup_nil
  · rcases hbelow with rfl | ⟨left, rfl⟩
    · exact List.nodup_nil
    · exact TrieChildren.nodup_collectBitmaps hwf.2 hnodup.2 honcec left
  · rintro x hx y hy rfl
    split_ifs at hx
    · rcases hbelow with rfl | ⟨left, rfl⟩
      · cases hy
      · obtain ⟨path, hb, -⟩ := (TrieChildren.mem_collectBitmaps hwf.2).1 hy
        have hpath := honce [] path x (.inl ⟨rfl, hx⟩) (.inr hb)
        exact TrieChildren.not_bound_nil _ x (hpath ▸ hb)
    · cases hx

/-- **A query returns every bitmap once.** -/
theorem nodup_getMergedBitmaps (hwf : d.Wf) (hnodup : d.LeavesNodup)
    (honce : d.BoundOnce) (pathPrefix : String) (depth : ℤ) :
    (d.getMergedBitmaps pathPrefix depth).Nodup := by
  unfold getMergedBitmaps
  rcases findNode_spec hwf pathPrefix with ⟨node, hf, hnwf, hbound⟩ | ⟨hf, -⟩
  · have hnnodup : node.LeavesNodup := by
      unfold findNode at hf
      split at hf
      · obtain rfl := Option.some.inj hf
        exact hnodup
      · exact TrieChildren.leavesNodup_findNode hnodup.2 hf
    have hnonce : node.BoundOnce := fun path path' x hb hb' =>
      List.append_cancel_left (honce _ _ x ((hbound path x).2 hb) ((hbound path' x).2 hb'))
    rw [hf]
    refine nodup_collect hnwf hnnodup hnonce ?_
    split_ifs
    · exact .inl rfl
    · exact .inr ⟨_, rfl⟩
    · exact .inr ⟨_, rfl⟩
  · rw [hf]
    exact List.nodup_nil

/-! ## Keys added in a list -/

/-- Every key added with its bitmap, in the order of the list. -/
def addKeys [DecidableEq β] (d : DirIndex β) (keys : List (String × β)) : DirIndex β :=
  keys.foldl (fun d kb => d.addKey kb.1 kb.2) d

variable [DecidableEq β]

theorem bound_addKeys {keys : List (String × β)} {path : List String} {x : β} :
    (d.addKeys keys).Bound path x ↔
      d.Bound path x ∨ ∃ kb ∈ keys, path = splitPath kb.1 ∧ x = kb.2 := by
  induction keys generalizing d with
  | nil => simp [addKeys]
  | cons kb keys ih =>
    show (DirIndex.addKeys (d.addKey kb.1 kb.2) keys).Bound path x ↔ _
    rw [ih, bound_addKey]
    simp only [List.mem_cons, exists_eq_or_imp]
    tauto

theorem Wf.addKeys (h : d.Wf) (keys : List (String × β)) : (d.addKeys keys).Wf := by
  induction keys generalizing d with
  | nil => exact h
  | cons kb keys ih => exact ih (h.addKey kb.1 kb.2)

theorem LeavesNodup.addKeys (h : d.LeavesNodup) (keys : List (String × β)) :
    (d.addKeys keys).LeavesNodup := by
  induction keys generalizing d with
  | nil => exact h
  | cons kb keys ih => exact ih (h.addKey kb.1 kb.2)

/-- The path has the segments of the prefix and at most `depth` more; any number for `-1`. -/
def Below (pathPrefix : String) (depth : ℤ) (key : String) : Prop :=
  splitPath pathPrefix <+: splitPath key ∧
    (depth = -1 ∨ ((splitPath key).length : ℤ) ≤ (splitPath pathPrefix).length + depth)

instance (pathPrefix : String) (depth : ℤ) (key : String) : Decidable (Below pathPrefix depth key) :=
  inferInstanceAs (Decidable (_ ∧ _))

/-- The bitmaps of the keys below a prefix. -/
def bitmapsBelow (keys : List (String × β)) (pathPrefix : String) (depth : ℤ) : List β :=
  (keys.filter fun kb => Below pathPrefix depth kb.1).map Prod.snd

/-- **A query returns the bitmaps of the keys below its prefix**, each once, when the keys have been
added to a trie without bitmaps and every key has its own. -/
theorem getMergedBitmaps_perm (hwf : d.Wf) (hnodup : d.LeavesNodup)
    (hfree : ∀ path x, ¬ d.Bound path x) {keys : List (String × β)}
    (hown : (keys.map Prod.snd).Nodup) (pathPrefix : String) {depth : ℤ} (hdepth : depth = -1 ∨ 0 ≤ depth) :
    ((d.addKeys keys).getMergedBitmaps pathPrefix depth).Perm
      (bitmapsBelow keys pathPrefix depth) := by
  have hbound : ∀ path x, (d.addKeys keys).Bound path x ↔
      ∃ kb ∈ keys, path = splitPath kb.1 ∧ x = kb.2 := fun path x => by
    rw [bound_addKeys, or_iff_right (hfree path x)]
  have honce : (d.addKeys keys).BoundOnce := by
    intro path path' x hb hb'
    obtain ⟨kb, hkb, rfl, rfl⟩ := (hbound path x).1 hb
    obtain ⟨kb', hkb', rfl, heq⟩ := (hbound path' kb.2).1 hb'
    rw [List.inj_on_of_nodup_map hown hkb hkb' heq]
  refine (List.perm_ext_iff_of_nodup (nodup_getMergedBitmaps (hwf.addKeys keys)
    (hnodup.addKeys keys) honce pathPrefix depth) ?_).2 fun x => ?_
  · exact hown.sublist (List.filter_sublist.map Prod.snd)
  · rw [mem_getMergedBitmaps (hwf.addKeys keys)]
    unfold bitmapsBelow
    simp only [List.mem_map, List.mem_filter, decide_eq_true_eq]
    constructor
    · rintro ⟨path, hb, hlen⟩
      obtain ⟨kb, hkb, hpath, rfl⟩ := (hbound _ x).1 hb
      refine ⟨kb, ⟨hkb, ⟨path, hpath⟩, ?_⟩, rfl⟩
      rw [← hpath, List.length_append]
      by_cases hd : depth = -1
      · exact .inl hd
      · have := hlen hd
        right
        omega
    · rintro ⟨kb, ⟨hkb, ⟨path, hpath⟩, hlen⟩, rfl⟩
      refine ⟨path, (hbound _ _).2 ⟨kb, hkb, hpath, rfl⟩, fun hd => ?_⟩
      rw [← hpath, List.length_append] at hlen
      have := hlen.resolve_left hd
      omega

end DirIndex

end OpenViking.VectorDB
