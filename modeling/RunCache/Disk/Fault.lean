/-! # Faults of a disk

    Why an operation on files is refused, and how the system words it. -/

namespace RunCache.Disk

/-- Why an operation on files is refused. -/
inductive Fault where
  | missing
  | present
  | notDirectory
  | isDirectory
  | nameTooLong
  | tooManyLinks
  | nulInName
  | other (text : String)
deriving DecidableEq, Repr

/-- The system's wording. -/
def Fault.message : Fault → String
  | .missing => "No such file or directory (os error 2)"
  | .present => "File exists (os error 17)"
  | .notDirectory => "Not a directory (os error 20)"
  | .isDirectory => "Is a directory (os error 21)"
  | .nameTooLong => "File name too long (os error 36)"
  | .tooManyLinks => "Too many levels of symbolic links (os error 40)"
  | .nulInName => "file name contained an unexpected NUL byte"
  | .other text => text

end RunCache.Disk
