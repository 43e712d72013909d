/-!
# Settings — paths as they are shown

A path is shown in its normal form: no empty parts, no parts that stand for the directory they
are in, one slash at the root, or two where exactly two were written.  The path without parts is
the directory itself.
-/

namespace Abacus.Path

/-- The slashes that a path begins at. -/
def root (path : String) : String :=
  match path.toList.takeWhile (· == '/') with
  | []         => ""
  | ['/', '/'] => "//"
  | _          => "/"

/-- The parts of a path that lead somewhere. -/
def parts (path : String) : List String :=
  (path.splitOn "/").filter fun p => p != "" && p != "."

/-- A path in normal form. -/
def normal (path : String) : String :=
  match root path ++ "/".intercalate (parts path) with
  | "" => "."
  | s  => s

/-- A name in a directory. -/
def child (directory name : String) : String := directory ++ "/" ++ name

end Abacus.Path
