import Covenant.Failure
import Covenant.Text.Blank
import Covenant.Url

/-!
# Settings of a run

* `Settings`: base URL, time limit, number of exchanges at a time, and how headers are matched;
* `Settings.ofVariables`: the settings that variables of the environment give;
* `Settings.fault?`: why settings cannot be used.
-/

namespace Covenant

open Covenant.Text

/-- How contracts are run against a service. -/
structure Settings where
  baseUrl : String
  /-- Time limit of an exchange in milliseconds. -/
  timeoutMs : UInt64
  /-- Greatest number of exchanges at a time. -/
  concurrency : UInt64
  ignoreHeaderCase : Bool
deriving DecidableEq

/-- Why settings cannot be used. -/
inductive SettingsFault where
  | invalidBaseUrl (text : String) (error : UrlError)
  | foreignScheme (scheme : String)
  | noTime
  | noConcurrency
deriving DecidableEq, Repr

/-- The words for a fault. -/
def SettingsFault.message : SettingsFault → String
  | .invalidBaseUrl text error => "Invalid base URL '" ++ text ++ "': " ++ error.message
  | .foreignScheme scheme => "Base URL must use http or https, got '" ++ scheme ++ "'"
  | .noTime => "Timeout must be greater than zero"
  | .noConcurrency => "Concurrency must be at least 1"

namespace Settings

/-- The settings where nothing else is asked for. -/
def standard : Settings := ⟨"http://localhost:8080", 5000, 8, false⟩

def baseUrlVariable : String := "CONTRACT_VERIFY_BASE_URL"
def timeoutVariable : String := "CONTRACT_VERIFY_TIMEOUT_MS"
def concurrencyVariable : String := "CONTRACT_VERIFY_CONCURRENCY"
def ignoreHeaderCaseVariable : String := "CONTRACT_VERIFY_IGNORE_HEADER_CASE"

/-- A word of 64 bits in decimal, with an optional plus sign. -/
def word? (s : String) : Option UInt64 := (Decimal.unsigned? 0xFFFFFFFFFFFFFFFF s).map UInt64.ofNat

/-- Whether a text switches a setting on. -/
def isOn (s : String) : Bool := ["1", "true", "yes", "on"].contains (lowerText (trim s))

/-- The settings that variables give. A number that cannot be read leaves the standard value. -/
def ofVariables (lookup : String → Option String) : Settings where
  baseUrl := (lookup baseUrlVariable).getD standard.baseUrl
  timeoutMs := ((lookup timeoutVariable).bind word?).getD standard.timeoutMs
  concurrency := ((lookup concurrencyVariable).bind word?).getD standard.concurrency
  ignoreHeaderCase := ((lookup ignoreHeaderCaseVariable).map isOn).getD standard.ignoreHeaderCase

/-- The first reason why settings cannot be used. -/
def fault? (s : Settings) : Option SettingsFault :=
  match Url.parse s.baseUrl with
  | .error e => some (.invalidBaseUrl s.baseUrl e)
  | .ok url =>
    if url.scheme ≠ "http" ∧ url.scheme ≠ "https" then some (.foreignScheme url.scheme)
    else if s.timeoutMs = 0 then some .noTime
    else if s.concurrency = 0 then some .noConcurrency
    else none

/-- Refuses settings that cannot be used. -/
def check (s : Settings) : Except Failure Unit :=
  match s.fault? with
  | some fault => .error (.invalidInput fault.message)
  | none => .ok ()

end Settings

end Covenant
