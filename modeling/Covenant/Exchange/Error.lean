import Covenant.Decimal

/-!
# Errors of exchanges

* `ExchangeError`: why a request got no reply, with its message.
-/

namespace Covenant

/-- Why a request got no reply. -/
inductive ExchangeError where
  /-- The service could not be reached, or did not answer in time. -/
  | unreachable (host : String) (port : UInt16) (code : String)
  /-- The contract does not describe a request that can be sent. -/
  | invalidRequest (reason : String)
  /-- The exchange began and broke off. -/
  | interrupted (reason : String)
deriving DecidableEq, Repr

/-- The message of an error. -/
def ExchangeError.message : ExchangeError → String
  | .unreachable host port code =>
    "Could not reach " ++ host ++ ":" ++ Decimal.ofNat port.toNat ++ " (" ++ code ++ ")"
  | .invalidRequest reason => "Invalid request: " ++ reason
  | .interrupted reason => "Transport error: " ++ reason

end Covenant
