import Std.Data.ExtTreeMap
import Std.Data.ExtTreeSet

/-
  LockCell.Names — what clients, locks and servers go by, and finite maps and sets of
  names.

  A name is any text. Names are ordered by their code points, which is also the order of
  their UTF-8 bytes, and a map or set lists its names in that order. Two maps that agree
  on every name are equal (`Std.ExtTreeMap.ext_getElem?`), whatever the order in which
  they were filled.
-/

namespace LockCell

/-- Who asks for locks. -/
abbrev Client := String

/-- What a lock is called; also its key in the store. -/
abbrev Path := String

/-- A server's identity in its cell. -/
abbrev Node := String

/-- Where a server is reached. -/
abbrev Addr := String

/-- A finite map from names. -/
abbrev Dict (β : Type) := Std.ExtTreeMap String β compare

/-- A finite set of names. -/
abbrev Names := Std.ExtTreeSet String compare

/-- A string of bytes: a stored value, an entry of the log, a file. -/
abbrev Bytes := List UInt8

end LockCell
