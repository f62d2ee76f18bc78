import Covenant.Contract.Reader
import Covenant.Disk.Walk

/-!
# Collections of contracts

A collection is what a walk finds below a path, each file read as a contract.

* `Entry`: the name, the file and the contract, or why there is none;
* `Entry.ofFile`, `Entry.ofFound`: one file on its own;
* `Entry.settleNames`: of the contracts with one name, only the first keeps it;
* `Disk.collection`: the entries below a path.

An entry without a contract takes no name away from others.
-/

namespace Covenant

/-- A file with the contract in it, or with the reason why there is none. -/
structure Entry where
  name : String
  path : String
  contract : Except ContractError Contract

namespace Entry

/-- The contract in a file. -/
def ofFile (d : Disk) (root path : String) : Rand Entry := fun s =>
  let name := Path.contractName root path
  match d.readText path with
  | .error fault => (⟨name, path, .error (.file fault)⟩, s)
  | .ok text =>
    match Contract.ofText name text s with
    | .ok (c, s) => (⟨name, path, .ok c⟩, s)
    | .error e => (⟨name, path, .error e⟩, s)

/-- The entry for what a walk found. -/
def ofFound (d : Disk) (root : String) : Found → Rand Entry
  | .file path => ofFile d root path
  | .blocked path fault => fun s => (⟨Path.contractName root path, path, .error (.walk fault)⟩, s)

/-- The entries for all that a walk found. -/
def ofAllFound (d : Disk) (root : String) : List Found → Rand (List Entry)
  | [] => fun s => ([], s)
  | f :: fs => fun s =>
    let first := ofFound d root f s
    let rest := ofAllFound d root fs first.2
    (first.1 :: rest.1, rest.2)

/-- The entry without its contract, whose name is taken. -/
def rejectName (e : Entry) : Entry :=
  { e with contract := .error (.invalidField e.name "name" (.duplicateName e.path)) }

/-- Contracts whose name is taken lose it. -/
def settleNames (taken : List String) : List Entry → List Entry
  | [] => []
  | e :: es =>
    match e.contract with
    | .error _ => e :: settleNames taken es
    | .ok _ =>
      if taken.contains e.name then e.rejectName :: settleNames taken es
      else e :: settleNames (e.name :: taken) es

end Entry

/-- The entries below a path, or why the path itself cannot be visited. -/
def Disk.collection (d : Disk) (root : String) : Except WalkFault (Rand (List Entry)) :=
  (d.walk root).map fun found s =>
    let loaded := Entry.ofAllFound d root found s
    (Entry.settleNames [] loaded.1, loaded.2)

end Covenant
