import EpochConsensus.Fault

/-! # Telemetry settings

What a replica logs under which name, read from environment variables.
-/
namespace EpochConsensus

/-- How a replica logs. -/
structure Telemetry where
  /-- The name recorded on every event. -/
  serviceName : String
  /-- The filter for events. -/
  logLevel : String
  /-- One JSON object on each line instead of text for people. -/
  jsonLogs : Bool
  /-- Whether events are written to the console at all. -/
  consoleOutput : Bool
deriving DecidableEq

namespace Telemetry

def default : Telemetry := ⟨"alter-bft", "info", false, true⟩

/-- The words for yes, in any case.  No letter outside ASCII has one of their letters as its lower
case, so the lower case of ASCII decides. -/
def flag (value : String) : Bool := ["true", "1", "yes"].contains value.toLower

/-- The settings that some variables give, with the defaults for those that are absent. -/
def ofLookup (lookup : String → Option String) : Telemetry where
  serviceName := (lookup "ALTER_SERVICE_NAME").getD default.serviceName
  logLevel := (lookup "ALTER_LOG_LEVEL" <|> lookup "RUST_LOG").getD default.logLevel
  jsonLogs := ((lookup "ALTER_JSON_LOGS").map flag).getD default.jsonLogs
  consoleOutput := ((lookup "ALTER_CONSOLE_OUTPUT").map flag).getD default.consoleOutput

/-- The settings of one replica, which is named after its process. -/
def forProcess (t : Telemetry) (process : ProcessId) : Telemetry :=
  { t with serviceName := t.serviceName ++ "-p" ++ toString process.toNat }

end Telemetry

end EpochConsensus
