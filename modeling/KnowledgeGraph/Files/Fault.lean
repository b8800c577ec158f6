/-!
# Faults of files

Why a file or a directory cannot be had. The wording is in `FileFault.message` alone.
-/

namespace KnowledgeGraph

/-- Why a file cannot be read or written. -/
inductive FileFault where
  /-- There is nothing at a place. -/
  | notFound
  /-- There is something at a place where a directory should be made. -/
  | occupied
  /-- A part of a path that should be a directory is none. -/
  | notDirectory
  /-- There is a directory where a file should be. -/
  | isDirectory
  /-- A part of a path or the whole has too many bytes. -/
  | nameTooLong
  /-- A path has a zero character. -/
  | zeroInName
  /-- A file holds no text. -/
  | notText
  /-- A file holds no tables. -/
  | notTables
  deriving DecidableEq

/-- The fault in words. -/
def FileFault.message : FileFault → String
  | .notFound => "No such file or directory (os error 2)"
  | .occupied => "File exists (os error 17)"
  | .notDirectory => "Not a directory (os error 20)"
  | .isDirectory => "Is a directory (os error 21)"
  | .nameTooLong => "File name too long (os error 36)"
  | .zeroInName => "file name contained an unexpected NUL byte"
  | .notText => "stream did not contain valid UTF-8"
  | .notTables => "invalid data"

end KnowledgeGraph
