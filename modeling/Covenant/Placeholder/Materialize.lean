import Covenant.Placeholder

/-!
# Resolving tokens in a tree

Loading a contract replaces each generator token by one random value and removes escapes. An escaped
wildcard in an expected value stays escaped, because the comparison has to tell it from a wildcard.

* `Role`: whether a tree is sent or expected;
* `materializeText`: what a string becomes;
* `materialize`: the tree with all its strings resolved, in document order.
-/

namespace Covenant

/-- The side of a contract that a value belongs to. -/
inductive Role where
  /-- Sent to the service. -/
  | request
  /-- Compared with what the service answers. -/
  | response
deriving DecidableEq

/-- What a declared string becomes. -/
def materializeText (role : Role) (s : String) : Rand Json :=
  match Generator.parse? s with
  | some g => g.generate
  | none =>
    match escaped? s with
    | some t => pure (.string (if role = .response ∧ isWildcard t then s else t))
    | none => pure (.string s)

mutual
/-- A declared value with its tokens resolved. -/
def materialize (role : Role) : Json → Rand Json
  | .string s => materializeText role s
  | .array items => do
    return .array (← materializeItems role items)
  | .object fields => do
    return .object (← materializeFields role fields)
  | v => pure v
def materializeItems (role : Role) : List Json → Rand (List Json)
  | [] => pure []
  | v :: vs => do
    let v ← materialize role v
    let vs ← materializeItems role vs
    return v :: vs
def materializeFields (role : Role) : List (String × Json) → Rand (List (String × Json))
  | [] => pure []
  | (k, v) :: fs => do
    let v ← materialize role v
    let fs ← materializeFields role fs
    return (k, v) :: fs
end

end Covenant
