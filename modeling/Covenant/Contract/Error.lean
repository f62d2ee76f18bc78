import Covenant.FileFault
import Covenant.Method
import Covenant.Yaml.ToJson

/-!
# Errors of contracts

* `FieldFault`: what is wrong with the value of a field;
* `ContractError`: why a contract could not be loaded or generated, with its message.
-/

namespace Covenant

/-- What is wrong with the value of a field. -/
inductive FieldFault where
  | notText
  | unknownMethod (text : String)
  | statusOutOfRange
  | notSingleEntry (found : Yaml.Kind)
  | nameNotScalar (found : Yaml.Kind)
  | unusableKey (fault : Yaml.KeyFault)
  | duplicateName (source : String)
  | circularReference
  | foreignReference
  | danglingReference
  /-- Any other fault, in words. -/
  | other (description : String)
deriving DecidableEq

/-- The words for a fault. -/
def FieldFault.message : FieldFault → String
  | .notText => "must be a string"
  | .unknownMethod text => Method.unknownMessage text
  | .statusOutOfRange => "must be an integer between 100 and 599"
  | .notSingleEntry found => "list entries must be single-key mappings, found " ++ found.name
  | .nameNotScalar found => "names must be scalars, found " ++ found.name
  | .unusableKey fault => fault.message
  | .duplicateName source => "duplicate contract name from '" ++ source ++ "'"
  | .circularReference => "circular reference"
  | .foreignReference => "only local references are supported"
  | .danglingReference => "reference target not found"
  | .other description => description

/-- Why a contract could not be loaded or generated. -/
inductive ContractError where
  | missingField (contract path : String)
  | unsupportedDeclaration (contract path : String) (found : Yaml.Kind)
  | invalidField (contract path : String) (fault : FieldFault)
  /-- The text is no YAML document. -/
  | unreadable (contract reason : String)
  | file (fault : FileFault)
  | walk (fault : WalkFault)
deriving DecidableEq

/-- The message of an error. -/
def ContractError.message : ContractError → String
  | .missingField contract path =>
    "Contract '" ++ contract ++ "' is missing required field '" ++ path ++ "'"
  | .unsupportedDeclaration contract path found =>
    "Contract '" ++ contract ++ "': '" ++ path ++
      "' must be a mapping or a list of single-key mappings, found " ++ found.name
  | .invalidField contract path fault =>
    "Contract '" ++ contract ++ "': invalid value at '" ++ path ++ "': " ++ fault.message
  | .unreadable contract reason => "Parse error in '" ++ contract ++ "': " ++ reason
  | .file fault => "File error: " ++ fault.message
  | .walk fault => "Discovery error: " ++ fault.message

end Covenant
