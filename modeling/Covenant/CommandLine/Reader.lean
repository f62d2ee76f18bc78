import Covenant.CommandLine
import Covenant.Text.Split

/-!
# Reading command lines

* `Given`: what the options of one level say, with `Given.turnOn` and `Given.put` for one more option;
* `Scan`: what is read of one level, where the last option may still wait for its value;
* `Level.scan`: one level read up to its end or to a command;
* `Invocation.read`: a whole command line.

The value of an option is looked at when the next option or the end of the level is reached, and what
stands before a command only after what stands behind it. So of several errors, an unknown argument
comes before the value in front of it, and the command's errors come before those of the options in
front of the command.
-/

namespace Covenant

open Covenant.Text

/-! ## What options say -/

/-- What the options of one level say. -/
structure Given where
  verbose : Nat := 0
  quiet : Bool := false
  logFormat : Option LogFormat := none
  contracts : Option String := none
  baseUrl : Option String := none
  timeoutMs : Option UInt64 := none
  concurrency : Option UInt64 := none
  format : Option Format := none
  output : Option String := none
  document : Option String := none
  directory : Option String := none
  ignoreHeaderCase : Bool := false
  force : Bool := false
deriving DecidableEq

namespace Given

/-- A switch may be turned on once, and only `verbose` more often. -/
def turnOn (g : Given) (s : Switch) : Except UsageError Given :=
  let once (isOn : Bool) (g : Given) := if isOn then .error (.repeated (.switch s)) else .ok g
  match s with
  | .verbose => .ok { g with verbose := g.verbose + 1 }
  | .quiet => once g.quiet { g with quiet := true }
  | .help => .error .helpWanted
  | .version => .error .versionWanted
  | .ignoreHeaderCase => once g.ignoreHeaderCase { g with ignoreHeaderCase := true }
  | .force => once g.force { g with force := true }

/-- A path is any text but the empty one. -/
def path (s : Setting) (value : String) : Except UsageError String :=
  if value.isEmpty then .error (.foreignValue s value) else .ok value

/-- A word of 64 bits in decimal. -/
def word (s : Setting) (value : String) : Except UsageError UInt64 :=
  match Settings.word? value with
  | some w => .ok w
  | none => .error (.notNumber s value)

/-- One of the names that an option takes. -/
def named (s : Setting) (ofName? : String → Option α) (value : String) : Except UsageError α :=
  match ofName? value with
  | some a => .ok a
  | none => .error (.foreignValue s value)

/-- An option may have its value once, whatever the second value is. -/
def put (g : Given) (s : Setting) (value : String) : Except UsageError Given :=
  let once (isGiven : Bool) (read : Except UsageError Given) :=
    if isGiven then .error (.repeated (.setting s)) else read
  match s with
  | .logFormat => once g.logFormat.isSome
      ((named s LogFormat.ofName? value).map fun f => { g with logFormat := some f })
  | .contracts => once g.contracts.isSome ((path s value).map fun p => { g with contracts := some p })
  | .baseUrl => once g.baseUrl.isSome (.ok { g with baseUrl := some value })
  | .timeoutMs => once g.timeoutMs.isSome ((word s value).map fun w => { g with timeoutMs := some w })
  | .concurrency => once g.concurrency.isSome
      ((word s value).map fun w => { g with concurrency := some w })
  | .format => once g.format.isSome
      ((named s Format.ofName? value).map fun f => { g with format := some f })
  | .output => once g.output.isSome ((path s value).map fun p => { g with output := some p })
  | .document => once g.document.isSome ((path s value).map fun p => { g with document := some p })
  | .directory => once g.directory.isSome ((path s value).map fun p => { g with directory := some p })

end Given

/-! ## One level -/

/-- What is read of one level. The last option may wait for its value, or have it without its having
been looked at. -/
structure Scan where
  given : Given := {}
  last : Option (Setting × Option String) := none

namespace Scan

/-- Whether the last option waits for its value. -/
def waits (sc : Scan) : Bool :=
  match sc.last with
  | some (_, none) => true
  | _ => false

/-- What is given, with the value of the last option looked at. -/
def settle (sc : Scan) : Except UsageError Given :=
  match sc.last with
  | none => .ok sc.given
  | some (s, none) => .error (.missingValue s)
  | some (s, some value) => sc.given.put s value

/-- One more switch. -/
def turnOn (sc : Scan) (s : Switch) : Except UsageError Scan := do
  return { given := ← (← sc.settle).turnOn s }

/-- One more option, with its value. -/
def put (sc : Scan) (s : Setting) (value : String) : Except UsageError Scan := do
  return { given := ← (← sc.settle).put s value }

/-- One more option, whose value is to come. -/
def await (sc : Scan) (s : Setting) : Except UsageError Scan := do
  return { given := ← sc.settle, last := some (s, none) }

/-- The value that the last option waits for. -/
def supply (sc : Scan) (value : String) : Scan :=
  { sc with last := sc.last.map fun (s, _) => (s, some value) }

end Scan

namespace Level

/-- Short options in one argument. What follows an option with a value is the value, an equals sign
between them aside. -/
def readShort (l : Level) (sc : Scan) : List Char → Except UsageError Scan
  | [] => .ok sc
  | c :: cs =>
    match l.short? c with
    | none => .error (.unknownArgument (String.ofList ['-', c]))
    | some (.switch s) => do readShort l (← sc.turnOn s) cs
    | some (.setting s) =>
      match cs with
      | [] => sc.await s
      | '=' :: value => sc.put s (String.ofList value)
      | value => sc.put s (String.ofList value)

/-- A long option in one argument, with its value behind an equals sign or to come. -/
def readLong (l : Level) (sc : Scan) (cs : List Char) : Except UsageError Scan :=
  let (name, value?) := match splitFirst? '=' cs with
    | some (name, value) => (String.ofList name, some (String.ofList value))
    | none => (String.ofList cs, none)
  match l.long? name, value? with
  | none, _ => .error (.unknownArgument ("--" ++ name))
  | some (.switch s), some _ => .error (.unwantedValue s)
  | some (.switch s), none => sc.turnOn s
  | some (.setting s), some value => sc.put s value
  | some (.setting s), none => sc.await s

/-- The error of an argument that is no option. Behind two dashes not even a command is looked for. -/
def strayArgument (l : Level) (escaped : Bool) (a : String) : UsageError :=
  let isCommand := (ofCommand? a).isSome || a == helpCommand
  if l = .top && !(escaped && isCommand) then .unknownCommand a else .unknownArgument a

/-- The answer to a call for help: the help, or the first name that is no command. -/
def helpOn : List String → UsageError
  | [] => .helpWanted
  | name :: names =>
    if name = helpCommand ∨ (ofCommand? name).isSome then
      match names with
      | [] => .helpWanted
      | name :: _ => .unknownCommand name
    else .unknownCommand name

/-- One level read up to its end or to a command, with the level and the arguments behind that. -/
def scan (l : Level) (sc : Scan) : List String → Except UsageError (Scan × Option (Level × List String))
  | [] => .ok (sc, none)
  | a :: as =>
    if l = .top ∧ !sc.waits ∧ a = helpCommand then .error (helpOn as)
    else match (if l = .top && !sc.waits then ofCommand? a else none) with
      | some inner => .ok (sc, some (inner, as))
      | none =>
        match a.toList with
        | ['-', '-'] =>
          match as with
          | [] => .ok (sc, none)
          | b :: _ => .error (l.strayArgument true b)
        | '-' :: '-' :: cs => do scan l (← l.readLong sc cs) as
        | '-' :: c :: cs => do scan l (← l.readShort sc (c :: cs)) as
        | _ => if sc.waits then scan l (sc.supply a) as else .error (l.strayArgument false a)

end Level

/-! ## Whole command lines -/

namespace Given

/-- A value that must be given. -/
def need (value : Option α) : Except UsageError α :=
  match value with
  | some a => .ok a
  | none => .error .missingArgument

/-- The command that options ask for. The base URL can also come from the environment. -/
def command (g : Given) (environment : String → Option String) : Level → Except UsageError Command
  | .top => .error .missingCommand
  | .run => do
    let contracts ← need g.contracts
    let baseUrl ← need (g.baseUrl.or (environment Settings.baseUrlVariable))
    return .run {
      contracts, baseUrl
      timeoutMs := g.timeoutMs
      concurrency := g.concurrency
      format := g.format.getD .table
      output := g.output
      ignoreHeaderCase := g.ignoreHeaderCase }
  | .check => do
    return .check ⟨← need g.contracts, g.format.getD .table, g.output⟩
  | .generate => do
    return .generate ⟨← need g.document, ← need g.directory, g.force⟩

/-- A command with what is said at both levels. What stands nearer to the end counts. -/
def invocation (outer inner : Given) (command : Command) : Invocation where
  verbosity := (min (if inner.verbose = 0 then outer.verbose else inner.verbose) 255).toUInt8
  quiet := outer.quiet || inner.quiet
  logFormat := (inner.logFormat.or outer.logFormat).getD .text
  command := command

end Given

namespace Invocation

/-- What a command line without a command lacks. -/
def withoutCommand (g : Given) : UsageError := if g = {} then .nothingSaid else .missingCommand

/-- What a command line asks for. -/
def read (environment : String → Option String) (arguments : List String) :
    Except UsageError Invocation := do
  let (sc, behind) ← Level.top.scan {} arguments
  match behind with
  | none => throw (withoutCommand (← sc.settle))
  | some (level, rest) =>
    let (inner, _) ← level.scan {} rest
    let inner ← inner.settle
    let command ← inner.command environment level
    return (← sc.settle).invocation inner command

end Invocation

end Covenant
