/-!
# Faults of the file system

* `FileFault`: why a file could not be read or written;
* `WalkFault`: why an entry of a tree could not be visited.
-/

namespace Covenant

/-- Why an operation on a file failed. -/
inductive FileFault where
  | notFound
  | exists
  | notDirectory
  | isDirectory
  | tooManyLinks
  | nameTooLong
  | invalidName
  /-- The file holds octets that are no text. -/
  | notText
  /-- Any other fault, in words. -/
  | other (description : String)
deriving DecidableEq

/-- The message of a fault. -/
def FileFault.message : FileFault → String
  | .notFound => "No such file or directory (os error 2)"
  | .exists => "File exists (os error 17)"
  | .notDirectory => "Not a directory (os error 20)"
  | .isDirectory => "Is a directory (os error 21)"
  | .tooManyLinks => "Too many levels of symbolic links (os error 40)"
  | .nameTooLong => "File name too long (os error 36)"
  | .invalidName => "file name contained an unexpected NUL byte"
  | .notText => "stream did not contain valid UTF-8"
  | .other description => description

/-- Why an entry of a tree could not be visited. -/
inductive WalkFault where
  | unreadable (path : String) (fault : FileFault)
  /-- A link leads back to a directory that is being visited. -/
  | loop (ancestor path : String)
  /-- Any other fault, in words. -/
  | other (description : String)
deriving DecidableEq

/-- The message of a fault. -/
def WalkFault.message : WalkFault → String
  | .unreadable path fault => "IO error for operation on " ++ path ++ ": " ++ fault.message
  | .loop ancestor path =>
    "File system loop found: " ++ path ++ " points to an ancestor " ++ ancestor
  | .other description => description

end Covenant
