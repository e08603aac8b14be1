import LabKernel.Fs.ParentLookup

/-! # Trees of directories

The directories that the root leads to, each with the text of a path to it. A path of the tree is one that
path resolution follows.
-/

namespace LabKernel

variable {sb : SuperBlock} {d : Disk}

/-! ## Names -/

namespace Fs

end Fs

/-! ## Trees -/

/-- The text of the path to a directory from the root: a slash and a name for each step down to a directory
whose `..` leads back. -/
inductive TreePath (sb : SuperBlock) (d : Disk) : U32 → List U8 → Prop
  | root : TreePath sb d rootInode []
  | child {t u : U32} {name text : List U8} (parent : TreePath sb d t text)
      (named : name ≠ nameText dot ∧ name ≠ nameText dotDot) (edge : entry sb d t name = some u)
      (directory : (inodeRead sb u d).type = inodeTypeDir)
      (back : entry sb d u (nameText dotDot) = some t) : TreePath sb d u (text ++ slash :: name)

/-- The directories of `live` form a tree below the root, with `.` and `..` entries; names are words
without slashes that end within their 60 bytes, and removed entries are zeroed. -/
structure DirTree (sb : SuperBlock) (d : Disk) (live : U32 → Prop) : Prop where
  path : ∀ t, live t → (inodeRead sb t d).type = inodeTypeDir → ∃ text, TreePath sb d t text
  self : ∀ t, live t → (inodeRead sb t d).type = inodeTypeDir → entry sb d t (nameText dot) = some t
  top : entry sb d rootInode (nameText dotDot) = some rootInode
  names : ∀ t, live t → (inodeRead sb t d).type = inodeTypeDir → ∀ k < (inodeRead sb t d).size.toNat / 64,
    let de := dirEntry (diskStore sb d).trees t k
    if de.name 0 = 0 then de.inodeNum = 0 else slash ∉ nameText de.name ∧ ∃ n < maxlenFilename, de.name n = 0

/-- An edge leads out of a directory. -/
theorem directory_of_entry {t u : U32} {name : List U8} (edge : entry sb d t name = some u) :
    (inodeRead sb t d).type = inodeTypeDir := by
  by_contra file
  rw [entry, if_neg file] at edge
  cases edge

namespace DirTree

variable {live : U32 → Prop} {t u : U32}

/-- Every directory has a parent, which is a directory. -/
theorem parent (tree : DirTree sb d live) (alive : live t) (directory : (inodeRead sb t d).type = inodeTypeDir) :
    ∃ u, entry sb d t (nameText dotDot) = some u ∧ (inodeRead sb u d).type = inodeTypeDir ∧
      (t ≠ rootInode → ∃ name, entry sb d u name = some t) := by
  obtain ⟨text, path⟩ := tree.path t alive directory
  cases path with
  | root => exact ⟨rootInode, tree.top, directory, fun other => absurd rfl other⟩
  | child above named edge type back => exact ⟨_, back, directory_of_entry edge, fun _ => ⟨_, edge⟩⟩

end DirTree

/-- A path as `inode_to_path` writes it: the root has a slash. -/
def rooted (text : List U8) : List U8 := if text = [] then [slash] else text

namespace TreePath

variable {live : U32 → Prop} {t : U32} {text : List U8}

end TreePath

end LabKernel
