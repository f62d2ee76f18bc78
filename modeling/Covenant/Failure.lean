import Covenant.Contract.Error

/-!
# Failures of commands

* `Failure`: why a command was given up, with its message;
* `Failure.ofContractError`: faults of the file system are failures on files, all others are malformed input;
* `ExitCode`: how a command ended, and the number for it.
-/

namespace Covenant

/-- Why a command was given up. -/
inductive Failure where
  | invalidInput (description : String)
  | file (description : String)
  | malformed (description : String)
  | unwritable (description : String)
  | internal (description : String)
deriving DecidableEq, Repr

namespace Failure

/-- The message of a failure. -/
def message : Failure → String
  | .invalidInput s => "Invalid input: " ++ s
  | .file s => "File error: " ++ s
  | .malformed s => "Parse error: " ++ s
  | .unwritable s => "Serialization error: " ++ s
  | .internal s => "Internal error: " ++ s

/-- Whether the user can mend it. -/
def isUserError : Failure → Bool
  | .invalidInput _ | .file _ | .malformed _ => true
  | .unwritable _ | .internal _ => false

/-- Whether a file could not be read or written. -/
def isFileError : Failure → Bool
  | .file _ => true
  | _ => false

/-- The failure of a command that depends on a contract. -/
def ofContractError : ContractError → Failure
  | .file fault => .file fault.message
  | .walk fault => .file fault.message
  | e => .malformed e.message

end Failure

/-- How a command ended. -/
inductive ExitCode where
  | success | verificationFailed | invalidInput | fileError | internalError
deriving DecidableEq, Repr

namespace ExitCode

/-- The number that tells other programs how a command ended. -/
def number : ExitCode → UInt8
  | .success => 0
  | .verificationFailed => 1
  | .invalidInput => 3
  | .fileError => 4
  | .internalError => 10

/-- The end of a command that checked contracts. -/
def ofSuccess (success : Bool) : ExitCode := if success then .success else .verificationFailed

theorem number_ofSuccess (success : Bool) : (ofSuccess success).number = if success then 0 else 1 := by
  cases success <;> rfl

/-- The end of a command that was given up. -/
def ofFailure (f : Failure) : ExitCode :=
  if f.isFileError then .fileError else if f.isUserError then .invalidInput else .internalError

end ExitCode

end Covenant
