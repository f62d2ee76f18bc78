import Covenant.Placeholder
import Covenant.Violation

/-!
# Comparing values

The comparison walks the expected tree. What only the actual tree has is never reported: an object may
have further fields and an array further items.

* `Step`, `pathText`: places in a tree and their text, as in `orders[1].items[0].sku`;
* `leafMatches`: equality of leaves, up to escapes and numeric value;
* `Diff.compare`: the violations of an actual tree, in the order of the expected one, or the first place
  that lies too deep;
* `compare`: the same with standard settings, where a tree that is too deep is one violation.
-/

namespace Covenant

/-! ## Places -/

/-- One step down into a tree. -/
inductive Step where
  | field (key : String)
  | index (i : Nat)
deriving DecidableEq

/-- The text of a place one step further down. -/
def extendPath (parent : String) : Step → String
  | .field key => if parent = "" then key else parent ++ "." ++ key
  | .index i => parent ++ "[" ++ Decimal.ofNat i ++ "]"

/-- The text of a place. -/
def pathText (steps : List Step) : String :=
  steps.foldl extendPath ""

theorem pathText_append_singleton (steps : List Step) (s : Step) :
    pathText (steps ++ [s]) = extendPath (pathText steps) s := by
  simp [pathText]

/-! ## Failures of a check -/

/-- Why a check could not be carried out. -/
inductive CheckError where
  /-- The tree goes deeper than the limit at a place. -/
  | tooDeep (place : String) (limit : Nat)
  | internal (message : String)
deriving DecidableEq

/-- The message of a failed check. -/
def CheckError.message : CheckError → String
  | .tooDeep place limit =>
    "value tree exceeds maximum depth of " ++ Decimal.ofNat limit ++ " at '" ++ place ++ "'"
  | .internal message => message

/-! ## Leaves -/

/-- Whether a leaf of the expected tree is met by a value. An escaped token stands for its text. -/
def leafMatches (expected actual : Json) : Bool :=
  match expected, actual with
  | .string e, .string a => (escaped? e).getD e == a
  | .number e, .number a => e.same a
  | .bool e, .bool a => e == a
  | .null, .null => true
  | _, _ => false

/-! ## Trees -/

/-- Settings of a comparison. -/
structure Diff where
  /-- Key of a difference at the root. -/
  rootLabel : String
  maxDepth : Nat

namespace Diff

/-- Nesting that a comparison follows. -/
def defaultDepth : Nat := 128

/-- Key of a difference at the root of a body. -/
def bodyLabel : String := "body"

def standard : Diff := ⟨bodyLabel, defaultDepth⟩

/-- The key for a path text. -/
def label (d : Diff) (path : String) : String :=
  if path = "" then d.rootLabel else path

/-- The violation of a received value that does not meet the expected one. -/
def unmet (d : Diff) (path : String) (expected actual : Json) : Violation :=
  ⟨d.label path, expected, .present actual⟩

mutual
/-- The violations below a place that both trees have. -/
def compareAt (d : Diff) (path : String) (depth : Nat) (expected actual : Json) :
    Except CheckError (List Violation) :=
  if d.maxDepth < depth then .error (.tooDeep (d.label path) d.maxDepth)
  else
    match Wildcard.ofJson? expected with
    | some w => .ok (if w.accepts actual then [] else [d.unmet path expected actual])
    | none =>
      match expected with
      | .object es =>
        match actual with
        | .object as => compareFields d path (depth + 1) es as
        | _ => .ok [d.unmet path expected actual]
      | .array es =>
        match actual with
        | .array as => compareItems d path (depth + 1) 0 es as
        | _ => .ok [d.unmet path expected actual]
      | _ => .ok (if leafMatches expected actual then [] else [d.unmet path expected actual])
/-- The violations of the fields of an expected object. -/
def compareFields (d : Diff) (path : String) (depth : Nat) (expected : List (String × Json))
    (actual : List (String × Json)) : Except CheckError (List Violation) :=
  match expected with
  | [] => .ok []
  | (key, e) :: es =>
    let child := extendPath path (.field key)
    match Json.lookup actual key with
    | some a =>
      match compareAt d child depth e a with
      | .error err => .error err
      | .ok vs =>
        match compareFields d path depth es actual with
        | .error err => .error err
        | .ok ws => .ok (vs ++ ws)
    | none =>
      match compareFields d path depth es actual with
      | .error err => .error err
      | .ok ws => .ok (⟨child, e, .missing⟩ :: ws)
/-- The violations of the items of an expected array, from an index on. -/
def compareItems (d : Diff) (path : String) (depth : Nat) (i : Nat) (expected : List Json)
    (actual : List Json) : Except CheckError (List Violation) :=
  match expected, actual with
  | [], _ => .ok []
  | e :: es, a :: as =>
    match compareAt d (extendPath path (.index i)) depth e a with
    | .error err => .error err
    | .ok vs =>
      match compareItems d path depth (i + 1) es as with
      | .error err => .error err
      | .ok ws => .ok (vs ++ ws)
  | e :: es, [] =>
    match compareItems d path depth (i + 1) es [] with
    | .error err => .error err
    | .ok ws => .ok (⟨extendPath path (.index i), e, .missing⟩ :: ws)
end

/-- The violations of an actual tree, or the first place of the expected tree that is too deep. -/
def compare (d : Diff) (expected actual : Json) : Except CheckError (List Violation) :=
  d.compareAt "" 0 expected actual

end Diff

/-- The violation that stands for a tree beyond the standard limit. -/
def depthViolation (e : CheckError) : Violation :=
  let key := match e with
    | .tooDeep place _ => place
    | .internal _ => Diff.bodyLabel
  ⟨key, .string ("nesting within " ++ Decimal.ofNat Diff.defaultDepth ++ " levels"),
    .present (.string e.message)⟩

/-- The violations of a body under standard settings. -/
def compare (expected actual : Json) : List Violation :=
  match Diff.standard.compare expected actual with
  | .ok vs => vs
  | .error e => [depthViolation e]

end Covenant
