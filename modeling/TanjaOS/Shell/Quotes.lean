import TanjaOS.Shell.Sudo
import TanjaOS.Shell.Vars
import TanjaOS.Shell.Wildcards

/-!
Quoted text in the arguments of a command. The shell looks for quotes in each piece between blanks
and not along the line: it puts the pieces together again with single blanks, and a piece with a `*`
from the middle of a quoted text is a wildcard to it.
-/

open Lib

namespace TanjaOS

section Quotes

end Quotes

section Pieces

variable {open? : Option Byte} {text w : Bytes}

end Pieces

section Room

variable {s : FsState} {dir out : Bytes} {done : List Bytes}

end Room

section Output

variable {env : Env} {s : FsState} {line w : Bytes}

end Output

section Trace

end Trace

end TanjaOS
