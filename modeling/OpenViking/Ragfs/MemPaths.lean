import OpenViking.Common.Slashes
import OpenViking.Ragfs.Encryption
import OpenViking.Ragfs.MemFs

/-!
# Paths of an in-memory file system

* `normalizePath_absolute`, `parentPath_absolute`: the path with given components, and the one above it.
-/

namespace OpenViking.Ragfs

namespace MemFileSystem

/-- The directory with these components. -/
def dirPath (parts : List Path) : Path := if parts = [] then ['/'] else absolute parts

theorem normalizePath_absolute {parts : List Path} (h : parts ≠ [])
    (hparts : ∀ part ∈ parts, IsComponent part) : normalizePath (absolute parts) = absolute parts := by
  have hhead := head?_absolute h
  have hlast := getLast?_absolute h hparts
  generalize absolute parts = path at hhead hlast
  unfold normalizePath
  rw [if_pos hhead]
  split_ifs with hroot
  · rcases hroot with rfl | rfl
    · cases hhead
    · exact absurd rfl hlast
  · dsimp only
    rw [if_neg (fun h => hlast h.2)]

theorem parentPath_absolute {parts : List Path} {part : Path} (hparts : ∀ p ∈ parts, IsComponent p)
    (hpart : IsComponent part) : parentPath (absolute (parts ++ [part])) = some (dirPath parts) := by
  have hall : ∀ p ∈ parts ++ [part], IsComponent p := by
    intro p hp
    rcases List.mem_append.1 hp with hp | hp
    · exact hparts p hp
    · rwa [List.mem_singleton.1 hp]
  have hne : absolute (parts ++ [part]) ≠ ['/'] := by
    intro heq
    have := getLast?_absolute (List.append_ne_nil_of_right_ne_nil parts (List.cons_ne_nil _ _)) hall
    rw [heq] at this
    exact this rfl
  rw [parentPath, if_neg hne, normalizePath_absolute (by simp) hall,
    splitOn_absolute fun p hp => (hall p hp).2]
  unfold dirPath
  by_cases h : parts = []
  · rw [if_pos h, h]
    rfl
  · have hlen : ¬ ([] :: (parts ++ [part])).length ≤ 2 := by
      have := List.length_pos_of_ne_nil h
      rw [List.length_cons, List.length_append, List.length_singleton]
      omega
    dsimp only
    rw [if_neg hlen, if_neg h, ← List.cons_append, List.dropLast_concat, absolute_eq_intercalate]

end MemFileSystem

end OpenViking.Ragfs
