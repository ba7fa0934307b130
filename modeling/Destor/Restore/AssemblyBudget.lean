/- digest: How many bytes the forward assembly area holds: a full area is assembled once, which may
   leave it full. -/

import Destor.Library.Transition
import Destor.Restore.AssemblyRestore
import Mathlib.Data.List.MinMax

set_option autoImplicit false
set_option relaxedAutoImplicit false

namespace Destor

open Library.Outcome Library.Transition

namespace AssemblyRestore

section Assemble

variable {cfg : Config} {env : RestoreEnv} {con : Option Container} {id : Int} {c : Chunk}
  {cs area recipe : List Chunk} {s s' : AssemblyRestore}

end Assemble

section Budget

variable {cfg : Config} {env : RestoreEnv} {c : Chunk} {recipe stream : List Chunk}
  {s s' : AssemblyRestore}

end Budget

section Example

end Example

end AssemblyRestore

end Destor
