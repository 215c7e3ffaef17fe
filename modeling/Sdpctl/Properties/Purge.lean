import Sdpctl.Cli

/-!
The reach of `quarantine purge`. The command stays inside quarantine exactly for
names that lead to something below it; a name that climbs out, names the directory
itself or starts at the root removes what it leads to.
-/

namespace Sdpctl

open FileTree

variable {fs : Tree} {p q : Path}

end Sdpctl
