import Unescape.FileTree
import Unescape.Settings.Load

set_option autoImplicit false

/-! # Finding the settings of a directory

Settings apply to a directory and to everything below it, so they are searched from a directory
upwards. If no directory on the way up has a settings file, the directories directly below the
start are tried.

Going up works on the path as it is written: the last component is dropped. Whether a file stands at a
path is a question to the file tree, which follows `..` to the directory above. -/

namespace Unescape

namespace Settings

/-- The first of some directories that has a settings file. -/
def firstWithFile? (t : FileTree) (dirs : List Path) : Option Path :=
  dirs.find? fun dir => (t.read? (dir.child fileName)).isSome

/-- The settings that apply to a directory, and the directory that holds them: the nearest one from
    `start` upwards, else one directly below `start`. Without either they are empty and belong to
    `start` itself. -/
def discover (reader : Reader) (t : FileTree) (start : Path) : Logged (Settings × Path) := do
  match firstWithFile? t start.ancestors <|> firstWithFile? t (t.childDirectories start) with
  | some dir => return (← load reader (t.read? (dir.child fileName)), dir)
  | none => return (empty, start)

end Settings

end Unescape
