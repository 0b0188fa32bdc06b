import OpenViking.Common.Buffer
import OpenViking.Common.Slashes
import OpenViking.VectorDB.TrieQueries

/-!
# The directory trie on disk

`serialize_to_stream` and `parse_from_stream` of `DirIndex` (`dir_index.cpp`, 99-145): every node is
written with its segment, its leaf flag and the number of its children, then its children in the
order of an `unordered_map`, which is any order.  The bitmaps are not written.  After a parse every
key of the field is added again (`bitmap_field_group.cpp`, 321-328), in any order.

Results:

* `parseNodes_of_serializes`: what was written, in whatever order, is parsed to its end;
* `prefix_queries_exact`: what a query returns, before and after a round through a stream.
-/

namespace OpenViking.VectorDB

open Buffer

/-! ## `io_utils.h` -/

/-- `UINT32_MAX` -/
def uint32Max : ℕ := 2 ^ 32 - 1

/-- The bytes of a `std::string`. -/
def bytesOf (s : String) : List UInt8 := s.toByteArray.data.toList

/-- `write_str` (34-44): the size in 32 bits, or a mark and the size in 64 bits. -/
def writeStr (content : String) : List UInt8 :=
  (if (bytesOf content).length ≥ uint32Max then toLE 4 uint32Max ++ toLE 8 (bytesOf content).length
    else toLE 4 (bytesOf content).length) ++ bytesOf content

/-- `in.read`, `none` at the end of the stream. -/
def readBytes (n : ℕ) (stream : List UInt8) : Option (List UInt8 × List UInt8) :=
  if n ≤ stream.length then some (stream.take n, stream.drop n) else none

/-- `read_bin` of an unsigned number of `w` bytes. -/
def readBin (w : ℕ) (stream : List UInt8) : Option (ℕ × List UInt8) :=
  (readBytes w stream).map fun x => (ofLE x.1, x.2)

/-- `read_str` (46-64). -/
def readStr (stream : List UInt8) : Option (String × List UInt8) := do
  let (lenOrFlag, stream) ← readBin 4 stream
  let (len, stream) ← if lenOrFlag = uint32Max then readBin 8 stream else some (lenOrFlag, stream)
  let (content, stream) ← readBytes len stream
  let text ← String.fromUTF8? content.toByteArray
  some (text, stream)

theorem readBytes_append (x rest : List UInt8) : readBytes x.length (x ++ rest) = some (x, rest) := by
  unfold readBytes
  rw [if_pos (by simp), List.take_left, List.drop_left]

theorem readBin_toLE {w n : ℕ} (h : n < 256 ^ w) (rest : List UInt8) :
    readBin w (toLE w n ++ rest) = some (n, rest) := by
  have hread := readBytes_append (toLE w n) rest
  rw [length_toLE] at hread
  unfold readBin
  rw [hread, Option.map_some, ofLE_toLE h]

/-- A text is read back from where it was written. -/
theorem readStr_writeStr {content : String} (h : (bytesOf content).length < 2 ^ 64)
    (rest : List UInt8) : readStr (writeStr content ++ rest) = some (content, rest) := by
  have htext : String.fromUTF8? (bytesOf content).toByteArray = some content := by
    have hbytes : (bytesOf content).toByteArray = content.toByteArray := by
      apply ByteArray.ext
      rw [bytesOf, List.data_toByteArray, Array.toArray_toList]
    rw [hbytes]
    exact dif_pos content.isValidUTF8
  unfold readStr writeStr
  split_ifs with hlong
  · rw [List.append_assoc, List.append_assoc, readBin_toLE (by decide)]
    simp only [Option.bind_eq_bind, Option.bind_some, if_true]
    rw [readBin_toLE (by norm_num; omega), Option.bind_some, readBytes_append]
    simp only [Option.bind_some, htext]
  · have hlen : (bytesOf content).length ≠ uint32Max := by omega
    rw [List.append_assoc, readBin_toLE (by unfold uint32Max at hlong; norm_num; omega)]
    simp only [Option.bind_eq_bind, Option.bind_some, if_neg hlen]
    rw [readBytes_append]
    simp only [Option.bind_some, htext]

theorem le_length_writeStr (content : String) : 4 ≤ (writeStr content).length := by
  unfold writeStr
  split_ifs <;> simp only [List.length_append, length_toLE] <;> omega

/-! ## The trie -/

variable {β : Type}

/-- A node below the root: its segment, `is_leaf_` and its children. -/
structure TrieNode (β : Type) where
  segment : String
  isLeaf : Bool
  children : TrieChildren β

/-- `children_` as a list. -/
def TrieChildren.nodes : TrieChildren β → List (TrieNode β)
  | .nil => []
  | .cons segment isLeaf _ children siblings => ⟨segment, isLeaf, children⟩ :: siblings.nodes

/-- What `serialize_recursive` writes of a node before its children. -/
def writeHead (segment : String) (isLeaf : Bool) (childrenNum : ℕ) : List UInt8 :=
  writeStr segment ++ (toLE 1 isLeaf.toNat ++ toLE 8 childrenNum)

/-- Some nodes have been written one after the other by `serialize_recursive` (99-112).  The children
of each come in the order of its `unordered_map`, which is any. -/
inductive Serializes : List (TrieNode β) → List UInt8 → Prop
  | nil : Serializes [] []
  | cons {node : TrieNode β} {nodes order : List (TrieNode β)} {below beside : List UInt8}
      (hperm : order.Perm node.children.nodes) (hbelow : Serializes order below)
      (hbeside : Serializes nodes beside) :
      Serializes (node :: nodes)
        (writeHead node.segment node.isLeaf order.length ++ (below ++ beside))

/-- `serialize_to_stream` (114-118) has written the trie. -/
def DirIndex.SerializesTo (d : DirIndex β) (output : List UInt8) : Prop :=
  ∃ order below, order.Perm d.children.nodes ∧ Serializes order below ∧
    output = writeHead "" d.isLeaf order.length ++ below

theorem exists_serializes (f : TrieChildren β) : ∃ bytes, Serializes f.nodes bytes := by
  induction f with
  | nil => exact ⟨[], .nil⟩
  | cons segment isLeaf bitmaps children siblings ihc ihs =>
    obtain ⟨below, hbelow⟩ := ihc
    obtain ⟨beside, hbeside⟩ := ihs
    exact ⟨_, @Serializes.cons _ ⟨segment, isLeaf, children⟩ _ _ _ _ (List.Perm.refl _) hbelow hbeside⟩

theorem DirIndex.exists_serializesTo (d : DirIndex β) : ∃ output, d.SerializesTo output := by
  obtain ⟨below, hbelow⟩ := exists_serializes d.children
  exact ⟨_, _, below, List.Perm.refl _, hbelow, rfl⟩

/-- `children_[segment] = child`, for a child that has been read before the others. -/
def TrieChildren.consRead (segment : String) (isLeaf : Bool) (children siblings : TrieChildren β) :
    TrieChildren β :=
  if segment ∈ siblings.segments then siblings else .cons segment isLeaf [] children siblings

/-- `parse_recursive` (120-133) for `count` nodes, with what is left of the stream. -/
def parseNodes : ℕ → ℕ → List UInt8 → Option (TrieChildren β × List UInt8)
  | _, 0, input => some (.nil, input)
  | 0, _ + 1, _ => none
  | fuel + 1, count + 1, input => do
    let (segment, input) ← readStr input
    let (isLeaf, input) ← readBin 1 input
    let (childrenNum, input) ← readBin 8 input
    let (children, input) ← parseNodes fuel childrenNum input
    let (siblings, input) ← parseNodes fuel count input
    some (.consRead segment (isLeaf ≠ 0) children siblings, input)

/-- `parse_from_stream` (134-137); every node takes at least a byte of the stream. -/
def parseFromStream (input : List UInt8) : Option (DirIndex β) := do
  let (_, input) ← readStr input
  let (isLeaf, input) ← readBin 1 input
  let (childrenNum, input) ← readBin 8 input
  let (children, _) ← parseNodes input.length childrenNum input
  some ⟨isLeaf ≠ 0, [], children⟩

/-! ## The round through a stream -/

namespace TrieChildren

/-- Sizes that a `size_t` holds: those of the segments, and up to `n` children of a node. -/
def Fits (n : ℕ) : TrieChildren β → Prop
  | .nil => True
  | .cons segment _ _ children siblings =>
    (bytesOf segment).length < 2 ^ 64 ∧ children.nodes.length ≤ n ∧ children.Fits n ∧
      siblings.Fits n

theorem segments_eq (f : TrieChildren β) : f.segments = f.nodes.map TrieNode.segment := by
  induction f with
  | nil => rfl
  | cons segment isLeaf bitmaps children siblings _ ih => rw [segments, nodes, List.map_cons, ih]

/-- The nodes of a well-formed list of children. -/
theorem nodes_spec {n : ℕ} {f : TrieChildren β} (hwf : f.Wf) (hfits : f.Fits n) :
    (f.nodes.map TrieNode.segment).Nodup ∧ ∀ node ∈ f.nodes,
      (bytesOf node.segment).length < 2 ^ 64 ∧ node.children.nodes.length ≤ n ∧
        node.children.Wf ∧ node.children.Fits n := by
  induction f with
  | nil => exact ⟨List.nodup_nil, fun _ h => absurd h List.not_mem_nil⟩
  | cons segment isLeaf bitmaps children siblings _ ih =>
    obtain ⟨hseg, -, hwfc, hwfs⟩ := hwf
    obtain ⟨hbytes, hlen, hfitsc, hfitss⟩ := hfits
    obtain ⟨hnodup, hnodes⟩ := ih hwfs hfitss
    refine ⟨List.nodup_cons.2 ⟨segments_eq siblings ▸ hseg, hnodup⟩, fun node hnode => ?_⟩
    rcases List.mem_cons.1 hnode with rfl | hnode
    · exact ⟨hbytes, hlen, hwfc, hfitsc⟩
    · exact hnodes node hnode

/-- A trie as it comes out of a stream: different segments beside each other, and no bitmaps. -/
structure Bare (f : TrieChildren β) : Prop where
  wf : f.Wf
  nodup : f.LeavesNodup
  free : ∀ path x, ¬ f.Bound path x

theorem bare_nil : (nil : TrieChildren β).Bare := ⟨trivial, trivial, fun _ _ h => h⟩

theorem Bare.cons {children siblings : TrieChildren β} (hc : children.Bare) (hs : siblings.Bare)
    {segment : String} (hseg : segment ∉ siblings.segments) (isLeaf : Bool) :
    (TrieChildren.cons segment isLeaf [] children siblings).Bare where
  wf := ⟨hseg, fun _ => rfl, hc.wf, hs.wf⟩
  nodup := ⟨List.nodup_nil, hc.nodup, hs.nodup⟩
  free := by
    rintro path x (⟨-, hx⟩ | ⟨path', -, hb⟩ | hb)
    · cases hx
    · exact hc.free path' x hb
    · exact hs.free path x hb

end TrieChildren

theorem le_length_writeHead (segment : String) (isLeaf : Bool) (childrenNum : ℕ) :
    1 ≤ (writeHead segment isLeaf childrenNum).length := by
  have := le_length_writeStr segment
  unfold writeHead
  rw [List.length_append]
  omega

/-- What `parse_recursive` reads before the children. -/
theorem read_writeHead (segment : String) (hseg : (bytesOf segment).length < 2 ^ 64) (isLeaf : Bool)
    {childrenNum : ℕ} (hnum : childrenNum < 2 ^ 64) (rest : List UInt8) :
    ∃ afterStr afterLeaf, readStr (writeHead segment isLeaf childrenNum ++ rest) =
        some (segment, afterStr) ∧
      readBin 1 afterStr = some (isLeaf.toNat, afterLeaf) ∧
      readBin 8 afterLeaf = some (childrenNum, rest) := by
  refine ⟨toLE 1 isLeaf.toNat ++ (toLE 8 childrenNum ++ rest), toLE 8 childrenNum ++ rest, ?_, ?_, ?_⟩
  · unfold writeHead
    rw [List.append_assoc, List.append_assoc, readStr_writeStr hseg]
  · exact readBin_toLE (by cases isLeaf <;> decide) _
  · exact readBin_toLE (by norm_num; omega) _

/-- **What was written is parsed to its end**, in whatever order the children were written. -/
theorem parseNodes_of_serializes {n : ℕ} (hn : n < 2 ^ 64) {nodes : List (TrieNode β)}
    {bytes : List UInt8} (h : Serializes nodes bytes) (hnodup : (nodes.map TrieNode.segment).Nodup)
    (hnodes : ∀ node ∈ nodes, (bytesOf node.segment).length < 2 ^ 64 ∧
      node.children.nodes.length ≤ n ∧ node.children.Wf ∧ node.children.Fits n)
    (fuel : ℕ) (hfuel : bytes.length ≤ fuel) (rest : List UInt8) :
    ∃ f : TrieChildren β, parseNodes fuel nodes.length (bytes ++ rest) = some (f, rest) ∧ f.Bare ∧
      f.segments = nodes.map TrieNode.segment := by
  induction h generalizing fuel rest with
  | nil => exact ⟨.nil, by cases fuel <;> rfl, TrieChildren.bare_nil, rfl⟩
  | @cons node nodes order below beside hperm hbelow hbeside ihbelow ihbeside =>
    obtain ⟨hbytes, hlen, hwf, hfits⟩ := hnodes node List.mem_cons_self
    obtain ⟨hseg, hnodup'⟩ := List.nodup_cons.1 hnodup
    obtain ⟨horder, horderNodes⟩ := TrieChildren.nodes_spec hwf hfits
    have hnum : order.length < 2 ^ 64 := by
      rw [hperm.length_eq]
      omega
    have hhead := le_length_writeHead node.segment node.isLeaf order.length
    simp only [List.length_append] at hfuel
    obtain ⟨fuel, rfl⟩ : ∃ k, fuel = k + 1 := ⟨fuel - 1, by omega⟩
    obtain ⟨children, hparsec, hbarec, -⟩ := ihbelow ((hperm.map _).nodup_iff.2 horder)
      (fun node hnode => horderNodes node (hperm.mem_iff.1 hnode)) fuel (by omega) (beside ++ rest)
    obtain ⟨siblings, hparses, hbares, hsegments⟩ := ihbeside hnodup'
      (fun node hnode => hnodes node (List.mem_cons_of_mem _ hnode)) fuel (by omega) rest
    have hnot : node.segment ∉ siblings.segments := by
      rw [hsegments]
      exact hseg
    obtain ⟨afterStr, afterLeaf, hstr, hleaf, hcount⟩ :=
      read_writeHead node.segment hbytes node.isLeaf hnum (below ++ (beside ++ rest))
    refine ⟨.cons node.segment (node.isLeaf.toNat ≠ 0) [] children siblings, ?_,
      hbarec.cons hbares hnot _, by rw [TrieChildren.segments, hsegments, List.map_cons]⟩
    rw [List.length_cons, List.append_assoc, List.append_assoc, parseNodes, hstr]
    simp only [Option.bind_eq_bind, Option.bind_some, hleaf, hcount, hparsec, hparses]
    unfold TrieChildren.consRead
    rw [if_neg hnot]

/-- A trie that was written is parsed to one without bitmaps. -/
theorem parseFromStream_of_serializesTo {n : ℕ} (hn : n < 2 ^ 64) {d : DirIndex β} (hwf : d.Wf)
    (hfits : d.children.Fits n) (hlen : d.children.nodes.length ≤ n) {output : List UInt8}
    (h : d.SerializesTo output) :
    ∃ d' : DirIndex β, parseFromStream output = some d' ∧ d'.Wf ∧ d'.LeavesNodup ∧
      ∀ path x, ¬ d'.Bound path x := by
  obtain ⟨order, below, hperm, hbelow, rfl⟩ := h
  obtain ⟨hnodup, hnodes⟩ := TrieChildren.nodes_spec hwf.2 hfits
  have hnum : order.length < 2 ^ 64 := by
    rw [hperm.length_eq]
    omega
  obtain ⟨children, hparse, hbare, -⟩ := parseNodes_of_serializes hn hbelow
    ((hperm.map _).nodup_iff.2 hnodup) (fun node hnode => hnodes node (hperm.mem_iff.1 hnode))
    below.length le_rfl []
  obtain ⟨afterStr, afterLeaf, hstr, hleaf, hcount⟩ :=
    read_writeHead "" (by decide) d.isLeaf hnum below
  rw [List.append_nil] at hparse
  refine ⟨⟨d.isLeaf.toNat ≠ 0, [], children⟩, ?_, ⟨fun _ => rfl, hbare.wf⟩,
    ⟨List.nodup_nil, hbare.nodup⟩, ?_⟩
  · unfold parseFromStream
    rw [hstr]
    simp only [Option.bind_eq_bind, Option.bind_some, hleaf, hcount, hparse]
  · rintro path x (⟨-, hx⟩ | hb)
    · cases hx
    · exact hbare.free path x hb

/-! ## Sizes -/

theorem length_bytesOf (s : String) : (bytesOf s).length = s.utf8ByteSize := by
  unfold bytesOf
  rw [Array.length_toList]
  rfl

/-- A segment is no longer than its key. -/
theorem length_bytesOf_le {key segment : String} (h : segment ∈ splitPath key) :
    (bytesOf segment).length ≤ (bytesOf key).length := by
  obtain ⟨part, hpart, rfl⟩ := List.mem_map.1 h
  obtain ⟨pre, suf, hkey⟩ := @infix_intercalate _ ['/'] _ (List.mem_filter.1 hpart).1
  rw [List.intercalate_splitOn] at hkey
  have hstring : key = String.ofList pre ++ String.ofList part ++ String.ofList suf := by
    rw [← String.toList_inj, ← hkey]
    simp [String.toList_append]
  rw [length_bytesOf, length_bytesOf, hstring, String.utf8ByteSize_append,
    String.utf8ByteSize_append]
  omega

namespace TrieChildren

theorem Fits.mono {n m : ℕ} (hnm : n ≤ m) {f : TrieChildren β} (h : f.Fits n) : f.Fits m := by
  induction f with
  | nil => trivial
  | cons segment isLeaf bitmaps children siblings ihc ihs =>
    exact ⟨h.1, h.2.1.trans hnm, ihc h.2.2.1, ihs h.2.2.2⟩

theorem length_nodes_ofKey (bitmap : β) (segs : List String) : (ofKey bitmap segs).nodes.length ≤ 1 := by
  cases segs with
  | nil => exact Nat.zero_le 1
  | cons s segs => exact le_refl 1

theorem fits_ofKey (bitmap : β) {segs : List String}
    (hsegs : ∀ s ∈ segs, (bytesOf s).length < 2 ^ 64) {n : ℕ} (hn : 0 < n) :
    (ofKey bitmap segs).Fits n := by
  induction segs with
  | nil => trivial
  | cons s segs ih =>
    exact ⟨hsegs s List.mem_cons_self, (length_nodes_ofKey bitmap segs).trans hn,
      ih fun t ht => hsegs t (List.mem_cons_of_mem s ht), trivial⟩

/-- A key brings at most one new child to a node. -/
theorem length_nodes_addKey [DecidableEq β] (f : TrieChildren β) (bitmap : β) (segs : List String) :
    (f.addKey bitmap segs).nodes.length ≤ f.nodes.length + 1 := by
  induction f with
  | nil => exact length_nodes_ofKey bitmap segs
  | cons segment isLeaf bitmaps children siblings _ ihs =>
    cases segs with
    | nil => exact Nat.le_succ _
    | cons s segs =>
      unfold TrieChildren.addKey
      split_ifs
      · exact Nat.le_succ _
      · exact Nat.le_succ _
      · exact Nat.succ_le_succ ihs

theorem Fits.addKey [DecidableEq β] {n : ℕ} {f : TrieChildren β} (h : f.Fits n) (bitmap : β)
    {segs : List String} (hsegs : ∀ s ∈ segs, (bytesOf s).length < 2 ^ 64) :
    (f.addKey bitmap segs).Fits (n + 1) := by
  induction f generalizing segs with
  | nil => exact fits_ofKey bitmap hsegs (Nat.succ_pos n)
  | cons segment isLeaf bitmaps children siblings ihc ihs =>
    obtain ⟨hbytes, hlen, hc, hs⟩ := h
    have hc' := hc.mono (Nat.le_succ n)
    have hs' := hs.mono (Nat.le_succ n)
    cases segs with
    | nil => exact ⟨hbytes, hlen.trans (Nat.le_succ n), hc', hs'⟩
    | cons s segs =>
      unfold TrieChildren.addKey
      split_ifs
      · exact ⟨hbytes, hlen.trans (Nat.le_succ n), hc', hs'⟩
      · exact ⟨hbytes, (length_nodes_addKey children bitmap segs).trans (Nat.succ_le_succ hlen),
          ihc hc fun t ht => hsegs t (List.mem_cons_of_mem s ht), hs'⟩
      · exact ⟨hbytes, hlen.trans (Nat.le_succ n), hc', ihs hs hsegs⟩

end TrieChildren

namespace DirIndex

variable [DecidableEq β]

/-- After `n` keys no node has more than `n` children. -/
theorem fits_addKeys {d : DirIndex β} {n : ℕ} (hfits : d.children.Fits n)
    (hlen : d.children.nodes.length ≤ n) {keys : List (String × β)}
    (hkeys : ∀ kb ∈ keys, (bytesOf kb.1).length < 2 ^ 64) :
    (d.addKeys keys).children.Fits (n + keys.length) ∧
      (d.addKeys keys).children.nodes.length ≤ n + keys.length := by
  induction keys generalizing d n with
  | nil => exact ⟨hfits, hlen⟩
  | cons kb keys ih =>
    have hstep : (d.addKey kb.1 kb.2).children.Fits (n + 1) ∧
        (d.addKey kb.1 kb.2).children.nodes.length ≤ n + 1 := by
      have hsegs : ∀ s ∈ splitPath kb.1, (bytesOf s).length < 2 ^ 64 := fun s hs =>
        (length_bytesOf_le hs).trans_lt (hkeys kb List.mem_cons_self)
      unfold DirIndex.addKey
      split
      · exact ⟨hfits.mono (Nat.le_succ n), hlen.trans (Nat.le_succ n)⟩
      · rename_i s segs hcons
        rw [hcons] at hsegs
        exact ⟨hfits.addKey kb.2 hsegs,
          (TrieChildren.length_nodes_addKey _ _ _).trans (Nat.succ_le_succ hlen)⟩
    have hrest := ih hstep.1 hstep.2 fun kb' hkb' => hkeys kb' (List.mem_cons_of_mem kb hkb')
    rw [List.length_cons, show n + (keys.length + 1) = n + 1 + keys.length by omega]
    exact hrest

/-- What the trie of some keys answers: the bitmaps of the keys below the prefix. -/
def Exact (d : DirIndex β) (keys : List (String × β)) : Prop :=
  ∀ (pathPrefix : String) (depth : ℤ), depth = -1 ∨ 0 ≤ depth →
    (d.getMergedBitmaps pathPrefix depth).Perm (bitmapsBelow keys pathPrefix depth)

/-- **Prefix queries are exact.**  When every key of a list has been added with its own bitmap, a
query returns the bitmaps of the keys below its prefix, each once; and so does the trie that has
been written to a stream, parsed and given every key again, in any order.  The sizes are those that
a `size_t` holds. -/
theorem prefix_queries_exact {keys : List (String × β)} (hown : (keys.map Prod.snd).Nodup)
    (hnum : keys.length < 2 ^ 64) (hsize : ∀ kb ∈ keys, (bytesOf kb.1).length < 2 ^ 64) :
    (empty.addKeys keys).Exact keys ∧ (∃ output, (empty.addKeys keys).SerializesTo output) ∧
      ∀ output, (empty.addKeys keys).SerializesTo output →
        ∃ d : DirIndex β, parseFromStream output = some d ∧
          ∀ order : List (String × β), order.Perm keys → (d.addKeys order).Exact keys := by
  have hempty : ∀ path x, ¬ (empty : DirIndex β).Bound path x := not_bound_empty
  refine ⟨fun pathPrefix depth hdepth =>
    getMergedBitmaps_perm wf_empty leavesNodup_empty hempty hown pathPrefix hdepth,
    exists_serializesTo _, ?_⟩
  intro output houtput
  obtain ⟨hfits, hlen⟩ := fits_addKeys (d := (empty : DirIndex β)) (n := 0) trivial le_rfl hsize
  rw [Nat.zero_add] at hfits hlen
  obtain ⟨d, hparse, hwf, hnodup, hfree⟩ :=
    parseFromStream_of_serializesTo hnum (wf_empty.addKeys keys) hfits hlen houtput
  refine ⟨d, hparse, fun order horder pathPrefix depth hdepth => ?_⟩
  have hownOrder : (order.map Prod.snd).Nodup := (horder.map Prod.snd).nodup_iff.2 hown
  exact (getMergedBitmaps_perm hwf hnodup hfree hownOrder pathPrefix hdepth).trans
    ((horder.filter _).map Prod.snd)

/-- Two spellings of one path, and the path above it. -/
def spellings : List (String × ℕ) := [("/a/b", 1), ("a//b/", 2), ("/a", 3)]

theorem prefix_queries_exact_spellings : (empty.addKeys spellings).Exact spellings :=
  (prefix_queries_exact (by decide) (by decide) (by decide +kernel)).1

example : (empty.addKeys spellings).getMergedBitmaps "/a" 1 = [3, 1, 2] := by decide +kernel

end DirIndex

end OpenViking.VectorDB
