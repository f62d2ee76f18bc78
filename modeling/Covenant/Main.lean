import Covenant.Command
import Covenant.CommandLine.Usage
import Covenant.Exchange.Redirect
import Std.Async.DNS
import Std.Async.TCP
import Std.Async.Timer
import Std.Time.DateTime.Timestamp

/-!
# The program

Takes the part of the disk that a command looks at into a `Disk`, lets the command work on that, and
brings what it changed back. The clock and the network are those of the machine.
-/

open Covenant

namespace Covenant.Main

/-! ## The disk -/

/-- The location of an absolute path without links and dots. -/
def locationOf (path : String) : Location := Path.parts path

/-- The absolute path of a location. -/
def pathOf (loc : Location) : String := "/" ++ "/".intercalate loc

/-- A disk with what stands at a location, and with all that stands in it, as deep as asked for. Of the
files in it, only those of contracts have their contents. A link has the place it leads to as target, and
that place is taken too. -/
def capture (d : Disk) (loc : Location) (deep withContents : Bool) : Nat → IO Disk
  | 0 => return d
  | depth + 1 => do
    let root ← IO.FS.realPath "/"
    let path := root / pathOf loc
    match ← path.symlinkMetadata.toBaseIO with
    | .error _ => return d
    | .ok info =>
      match info.type with
      | .symlink =>
        match ← (IO.FS.realPath path).toBaseIO with
        | .error _ => return d.put loc (.link (pathOf (loc ++ ["missing"])))
        | .ok target =>
          let d := d.put loc (.link target.toString)
          let inner := locationOf target.toString
          if (d.node? inner).isSome then return d
          let above := (List.range inner.length).map fun n => inner.take n
          let d ← above.foldlM (fun d l => capture d l false false depth) d
          capture d inner deep withContents depth
      | .dir =>
        let d := if loc = [] || (d.node? loc).isSome then d else d.put loc .directory
        if !deep then return d
        let names ← path.readDir
        let capture (d : Disk) (name : String) :=
          capture d (loc ++ [name]) true (Path.isContractFile name) depth
        (names.toList.map fun e => e.fileName).foldlM capture d
      | _ =>
        if withContents then
          let octets ← IO.FS.readBinFile path
          return d.put loc (.file octets.toList)
        else return d.put loc (.file [])

/-- Greatest depth to which directories are taken. -/
def depthLimit : Nat := 64

/-- A disk with what a path leads to. -/
def capturePath (d : Disk) (path : String) (deep withContents : Bool) : IO Disk := do
  let loc := if Path.isAbsolute path then locationOf path else d.workingDirectory ++ locationOf path
  let above := (List.range loc.length).map fun n => loc.take n
  let d ← above.foldlM (fun d l => capture d l false false depthLimit) d
  capture d loc deep withContents depthLimit

/-- The disk that a command works on. -/
def diskFor (c : Command) : IO Disk := do
  let here ← IO.FS.realPath (← IO.currentDir)
  let d := Disk.empty (locationOf here.toString)
  let output (d : Disk) : Option String → IO Disk
    | some path => capturePath d path false false
    | none => return d
  match c with
  | .run a => output (← capturePath d a.contracts true true) a.output
  | .check a => output (← capturePath d a.contracts true true) a.output
  | .generate a => capturePath (← capturePath d a.document false true) a.directory true false

/-- Brings the changes of a disk to the machine. -/
def publish (before after : Disk) : IO Unit := do
  for (loc, node) in after.entries.reverse do
    if before.node? loc != some node then
      match node with
      | .directory => IO.FS.createDirAll (pathOf loc)
      | .file octets => IO.FS.writeBinFile (pathOf loc) (ByteArray.mk octets.toArray)
      | .link _ => pure ()

/-! ## Clock and network -/

section Network

open Std.Async

/-- The time. -/
def now : IO Timestamp := do
  let t := (← Std.Time.Timestamp.now).toNanosecondsSinceUnixEpoch.val
  return ⟨t / 1000000000, (t % 1000000000).toNat⟩

/-- The number of an error of the system. -/
def errorNumber (e : IO.Error) : UInt32 :=
  match e with
  | .noSuchThing _ n _ | .otherError n _ | .resourceVanished n _ | .timeExpired n _
  | .resourceBusy n _ | .permissionDenied _ n _ | .hardwareFault n _ => 0 - n
  | _ => 0

/-- The name of an error of the network. -/
def errorName (e : IO.Error) : String :=
  match errorNumber e with
  | 99 => "EADDRNOTAVAIL"
  | 103 => "ECONNABORTED"
  | 104 => "ECONNRESET"
  | 110 => "ETIMEDOUT"
  | 111 => "ECONNREFUSED"
  | _ => "EIO"

/-- A connection to the service of a URL. -/
def connect (host : String) (port : UInt16) : Async TCP.Socket.Client := do
  let bare := String.ofList (host.toList.filter fun c => c ≠ '[' ∧ c ≠ ']')
  let addresses ← DNS.getAddrInfo bare (Decimal.ofNat port.toNat)
  match addresses[0]? with
  | none => throw (IO.userError "no address")
  | some address =>
    let client ← TCP.Socket.Client.mk
    client.connect (match address with
      | .v4 a => .v4 ⟨a, port⟩
      | .v6 a => .v6 ⟨a, port⟩)
    return client

/-- All that the service sends until it closes the connection. -/
def receiveAll (client : TCP.Socket.Client) : Async (List UInt8) := do
  let mut octets := ByteArray.empty
  repeat
    match ← client.recv? 65536 with
    | some more => octets := octets ++ more
    | none => break
  return octets.toList

instance : Inhabited (Except ExchangeError Received) := ⟨.error Received.brokenOff⟩

/-- One request and its response, within so many milliseconds. -/
def send (timeoutMs : UInt64) (r : Outgoing) : IO (Except ExchangeError Received) := do
  let host := (r.url.authority.map fun a => a.host.text).getD ""
  let port := r.url.effectivePort?.getD 80
  let unreachable (code : String) : Except ExchangeError Received := .error (.unreachable host port code)
  if r.url.scheme != "http" then
    return .error (.interrupted "only connections without encryption are supported")
  let talk : Async (Except ExchangeError Received) := do
    let attempt : Async (Except IO.Error TCP.Socket.Client) :=
      try return .ok (← connect host port) catch e => return .error e
    match ← attempt with
    | .error e => return unreachable (errorName e)
    | .ok client =>
      client.send (ByteArray.mk r.octets.toArray)
      return Received.ofOctets (r.method == .head) (← receiveAll client)
  let clock : Async (Except ExchangeError Received) := do
    sleep (Std.Time.Millisecond.Offset.ofNat timeoutMs.toNat)
    return unreachable "ETIMEDOUT"
  match ← (Async.race talk clock).block.toBaseIO with
  | .ok answer => return answer
  | .error e => return .error (.interrupted e.toString)

/-- Tasks of which at most so many are under way: the next one starts when the first one that has started
is over. -/
def together (limit : Nat) (actions : List (IO α)) : IO (List α) := do
  let start (action : IO α) : IO (Task (Except IO.Error α)) := IO.asTask action .dedicated
  let step (done : List α × List (Task (Except IO.Error α))) (action : IO α) := do
    match done with
    | (results, []) => return (results ++ [← action], [])
    | (results, first :: others) =>
      let result ← IO.ofExcept (← IO.wait first)
      return (results ++ [result], others ++ [← start action])
  let (results, underWay) ← (actions.drop limit).foldlM step ([], ← (actions.take limit).mapM start)
  return results ++ (← underWay.mapM fun task => do IO.ofExcept (← IO.wait task))

/-- The clock and the network of the machine. -/
def machine : Surroundings IO where
  now := now
  exchange := fun timeoutMs r => exchangeWith (send timeoutMs) redirectLimit r
  together := fun limit actions => together limit.toNat actions

end Network

/-! ## The command line -/

/-- The variables of the environment that count. -/
def environment : IO (String → Option String) := do
  let names := [Settings.baseUrlVariable, Settings.timeoutVariable, Settings.concurrencyVariable,
    Settings.ignoreHeaderCaseVariable]
  let values ← names.mapM fun name => do return (name, ← IO.getEnv name)
  return fun name => (values.lookup name).join

/-- A word of eight random octets. -/
def seed : IO UInt64 := do
  let octets ← IO.getRandomBytes 8
  return octets.toList.foldl (fun w b => w * 256 + b.toUInt64) 0

/-- Does what a command line asks for, and answers how it ended. -/
def perform (i : Invocation) (environment : String → Option String) : IO ExitCode := do
  let color ← (← IO.getStdout).isTty
  let disk ← diskFor i.command
  let ended ← i.perform machine environment color (.ofSeed (← seed)) disk
  publish disk ended.disk
  IO.print ended.output
  IO.eprint ended.errors
  return ended.exit

end Covenant.Main

/-- Runs the program. -/
def main (arguments : List String) : IO UInt32 := do
  let environment ← Covenant.Main.environment
  match Invocation.read environment arguments with
  | .error e =>
    if e.isInformation then IO.print e.message else IO.eprint e.message
    return e.exitNumber.toUInt32
  | .ok i =>
    match ← (Covenant.Main.perform i environment).toBaseIO with
    | .ok exit => return exit.number.toUInt32
    | .error e =>
      let failure := Failure.file e.toString
      IO.eprintln ("Error: " ++ failure.message)
      return (ExitCode.ofFailure failure).number.toUInt32
