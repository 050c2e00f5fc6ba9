import RankOne.Text.Unicode

/-!
# Disks

What the library asks of a file system: whether a path leads anywhere, reading and writing whole
files, directories with their parents, and a rename that replaces its target in one step. Any of
the operations may be refused, and none of them changes anything when it is, except that the
directories made on the way to a refused one stay, and so does what a refused write has written.
-/

set_option autoImplicit false

namespace RankOne

class Disk (m : Type → Type) where
  present : String → m Bool
  read : String → m (Except Fault Bytes)
  makeDirectories : String → m (Except Fault Unit)
  createTemporary : String → m (Except Fault String)
  write : String → Bytes → m (Except Fault Unit)
  rename : String → String → m (Except Fault Unit)
  remove : String → m (Except Fault Unit)

class Console (m : Type → Type) where
  say : Unicode.Codes → m Unit

def joinPath (directory name : String) : String :=
  if name.startsWith "/" ∨ directory.isEmpty then name
  else if directory.endsWith "/" then directory ++ name
  else directory ++ "/" ++ name

end RankOne
