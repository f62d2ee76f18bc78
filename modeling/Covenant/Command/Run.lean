import Covenant.Collection
import Covenant.Command.Report
import Covenant.CommandLine
import Covenant.Exchange.Outgoing
import Covenant.Rules

/-!
# Contracts checked and run

* `Surroundings`: the clock, the service and the order of tasks, as the effects of a monad;
* `Disk.contracts`: the entries of a directory;
* `Entry.check`: the outcome of reading a contract;
* `Entry.run`: the outcome of an exchange with the service;
* `CheckArguments.perform`, `RunArguments.perform`: the commands.

Each entry has one outcome, in the order of the entries.
-/

namespace Covenant

/-- What a command needs beside the disk. -/
structure Surroundings (m : Type → Type) where
  now : m Timestamp
  /-- Sends a request and waits for the reply, no longer than so many milliseconds. -/
  exchange : UInt64 → Outgoing → m (Except ExchangeError Reply)
  /-- Carries out tasks, of which at most so many are under way at a time. The results come in the order
  of the tasks. -/
  together : {α : Type} → UInt64 → List (m α) → m (List α)

/-- The entries of a directory. -/
def Disk.contracts (d : Disk) (path : String) : Except Failure (Rand (List Entry)) :=
  if d.isDirectory path then
    match d.collection path with
    | .ok entries => .ok entries
    | .error fault => .error (.ofContractError (.walk fault))
  else .error (.file ("Contracts directory '" ++ path ++ "' does not exist or is not a directory"))

/-! ## Reading -/

/-- The outcome of reading a contract. -/
def Entry.check (e : Entry) : Outcome :=
  match e.contract with
  | .ok _ => .pass e.name 0
  | .error err => .fail e.name [err.message] 0

/-- Reads the contracts of a directory and reports which are malformed. -/
def CheckArguments.perform [Monad m] (a : CheckArguments) (world : Surroundings m) (color : Bool)
    (source : Source) (d : Disk) : m Ended := do
  let start ← world.now
  match d.contracts a.contracts with
  | .error f => return .ofFailure d f
  | .ok entries =>
    let outcomes := (entries source).1.map Entry.check
    let stop ← world.now
    let report : RunReport := ⟨.ofOutcomes outcomes (start.millisecondsSince stop), stop⟩
    return report.deliver d color a.format a.output

/-! ## Running -/

/-- What is wrong with the answer to the request of a contract. -/
def Contract.complaints (c : Contract) (o : CheckOptions) : Except ExchangeError Reply → List String
  | .error e => [e.message]
  | .ok reply => (validate c.expected reply o).texts

/-- The outcome of an exchange with the service. Without a contract there is none. -/
def Entry.run [Monad m] (e : Entry) (world : Surroundings m) (s : Settings) : m Outcome :=
  match e.contract with
  | .error err => return .fail e.name [err.message] 0
  | .ok c => do
    let start ← world.now
    let answer ← match c.request.outgoing s.baseUrl with
      | .error err => pure (.error err)
      | .ok request => world.exchange s.timeoutMs request
    let stop ← world.now
    let options := { CheckOptions.standard with ignoreHeaderCase := s.ignoreHeaderCase }
    return .ofLines e.name (c.complaints options answer) (start.millisecondsSince stop)

/-- The settings of a run: what the command line says goes before what the environment says. -/
def RunArguments.settings (a : RunArguments) (environment : String → Option String) : Settings :=
  let s := Settings.ofVariables environment
  { baseUrl := a.baseUrl
    timeoutMs := a.timeoutMs.getD s.timeoutMs
    concurrency := a.concurrency.getD s.concurrency
    ignoreHeaderCase := a.ignoreHeaderCase || s.ignoreHeaderCase }

/-- Runs the contracts of a directory against the service and reports which do not hold. -/
def RunArguments.perform [Monad m] (a : RunArguments) (world : Surroundings m)
    (environment : String → Option String) (color : Bool) (source : Source) (d : Disk) : m Ended := do
  let s := a.settings environment
  match s.check with
  | .error f => return .ofFailure d f
  | .ok () =>
    match d.contracts a.contracts with
    | .error f => return .ofFailure d f
    | .ok entries =>
      let start ← world.now
      let outcomes ← world.together s.concurrency ((entries source).1.map fun e => e.run world s)
      let stop ← world.now
      let report : RunReport := ⟨.ofOutcomes outcomes (start.millisecondsSince stop), stop⟩
      return report.deliver d color a.format a.output

end Covenant
