import EpochConsensus.Roster
import EpochConsensus.Timeout

/-! # Configuration

A replica is configured by fourteen fields, each with a default.  `Settings` assigns values to some
of the fields; `Settings.config` fills in the defaults, and `Config.validate` refuses a
configuration with an empty queue, window or store, or without a delay.
-/
namespace EpochConsensus

/-- What a replica runs. -/
inductive Model where
  /-- Consensus epochs, under an assumption on message delay. -/
  | sync
  /-- A measurement of message delay. -/
  | delta
deriving DecidableEq

/-- What a faulty process does. -/
inductive Attack where
  /-- It proposes different blocks to the two halves of the processes. -/
  | equivocation
  /-- It never proposes. -/
  | silent
deriving DecidableEq

/-- The configuration of a replica. -/
structure Config where
  /-- The epochs that are kept at once. -/
  maxActiveEpochs : Nat
  /-- The first epoch that is no longer started; zero for none. -/
  maxEpochToStart : Nat
  /-- The heights that the block store holds. -/
  blockchainSize : Nat
  messageQueueSize : Nat
  timeoutQueueSize : Nat
  /-- Without it timeouts are requested of nobody. -/
  scheduleTimeouts : Bool
  /-- The messages that an epoch keeps until it starts. -/
  pendingMessagesLimit : Nat
  smallDelta : Millis
  bigDelta : Millis
  /-- Whether a block is decided once every process has voted for it. -/
  fastPathEnabled : Bool
  model : Model
  /-- The processes that misbehave. -/
  byzantines : ProcessSet
  byzantineAttack : Attack
  /-- The verified statements that a verifier remembers. -/
  verifierCacheSize : Nat
deriving DecidableEq

namespace Config

def default : Config where
  maxActiveEpochs := 2000
  maxEpochToStart := 0
  blockchainSize := 2000
  messageQueueSize := 32
  timeoutQueueSize := 100
  scheduleTimeouts := true
  pendingMessagesLimit := 1024
  smallDelta := 200
  bigDelta := 1000
  fastPathEnabled := false
  model := .sync
  byzantines := .empty
  byzantineAttack := .equivocation
  verifierCacheSize := 1024

def isByzantine (c : Config) (process : ProcessId) : Bool := c.byzantines.contains process

/-- How long an epoch waits for each reason. -/
def patience (c : Config) : TimeoutKind → Millis
  | .propose => c.smallDelta + c.bigDelta
  | .equivocation | .quitEpoch | .epochChange => c.smallDelta * 2

/-! ### Fields -/

/-- The fields of a configuration. -/
inductive Field where
  | maxActiveEpochs
  | maxEpochToStart
  | blockchainSize
  | messageQueueSize
  | timeoutQueueSize
  | scheduleTimeouts
  | pendingMessagesLimit
  | smallDelta
  | bigDelta
  | fastPathEnabled
  | model
  | byzantines
  | byzantineAttack
  | verifierCacheSize
deriving DecidableEq

namespace Field

/-- Every field, in the order in which they are written. -/
def all : List Field :=
  [maxActiveEpochs, maxEpochToStart, blockchainSize, messageQueueSize, timeoutQueueSize,
    scheduleTimeouts, pendingMessagesLimit, smallDelta, bigDelta, fastPathEnabled, model,
    byzantines, byzantineAttack, verifierCacheSize]

theorem mem_all (f : Field) : f ∈ all := by cases f <;> decide

/-- The type of a field's values. -/
def Value : Field → Type
  | scheduleTimeouts | fastPathEnabled => Bool
  | model => Model
  | byzantines => ProcessSet
  | byzantineAttack => Attack
  | _ => Nat

def name : Field → String
  | maxActiveEpochs => "max_active_epochs"
  | maxEpochToStart => "max_epoch_to_start"
  | blockchainSize => "blockchain_size"
  | messageQueueSize => "message_queue_size"
  | timeoutQueueSize => "timeout_queue_size"
  | scheduleTimeouts => "schedule_timeouts"
  | pendingMessagesLimit => "pending_messages_limit"
  | smallDelta => "small_delta"
  | bigDelta => "big_delta"
  | fastPathEnabled => "fast_path_enabled"
  | model => "model"
  | byzantines => "byzantines"
  | byzantineAttack => "byzantine_attack"
  | verifierCacheSize => "verifier_cache_size"

end Field

/-- The value of a field. -/
def get (c : Config) : (f : Field) → f.Value
  | .maxActiveEpochs => c.maxActiveEpochs
  | .maxEpochToStart => c.maxEpochToStart
  | .blockchainSize => c.blockchainSize
  | .messageQueueSize => c.messageQueueSize
  | .timeoutQueueSize => c.timeoutQueueSize
  | .scheduleTimeouts => c.scheduleTimeouts
  | .pendingMessagesLimit => c.pendingMessagesLimit
  | .smallDelta => c.smallDelta
  | .bigDelta => c.bigDelta
  | .fastPathEnabled => c.fastPathEnabled
  | .model => c.model
  | .byzantines => c.byzantines
  | .byzantineAttack => c.byzantineAttack
  | .verifierCacheSize => c.verifierCacheSize

/-- The configuration with these values. -/
def ofValues (v : (f : Field) → f.Value) : Config where
  maxActiveEpochs := v .maxActiveEpochs
  maxEpochToStart := v .maxEpochToStart
  blockchainSize := v .blockchainSize
  messageQueueSize := v .messageQueueSize
  timeoutQueueSize := v .timeoutQueueSize
  scheduleTimeouts := v .scheduleTimeouts
  pendingMessagesLimit := v .pendingMessagesLimit
  smallDelta := v .smallDelta
  bigDelta := v .bigDelta
  fastPathEnabled := v .fastPathEnabled
  model := v .model
  byzantines := v .byzantines
  byzantineAttack := v .byzantineAttack
  verifierCacheSize := v .verifierCacheSize

theorem get_ofValues (v : (f : Field) → f.Value) (f : Field) : (ofValues v).get f = v f := by
  cases f <;> rfl

theorem ofValues_get (c : Config) : ofValues c.get = c := rfl

/-! ### Validation -/

/-- The fields that must not be zero, in the order in which they are checked. -/
def positive (c : Config) : List (Field × Nat) :=
  [(.maxActiveEpochs, c.maxActiveEpochs), (.blockchainSize, c.blockchainSize),
    (.messageQueueSize, c.messageQueueSize), (.timeoutQueueSize, c.timeoutQueueSize),
    (.pendingMessagesLimit, c.pendingMessagesLimit), (.verifierCacheSize, c.verifierCacheSize),
    (.smallDelta, c.smallDelta)]

/-- Refuses a configuration for the first field that is zero and must not be. -/
def validate (c : Config) : Except Rejection Unit :=
  match c.positive.find? fun e => e.2 == 0 with
  | some e => .error (.config (.zero e.1.name))
  | none => .ok ()

/-- What must not be zero is not, in a configuration that is not refused. -/
theorem pos_of_validate {c : Config} (h : c.validate = .ok ()) {f : Field} {n : Nat}
    (checked : (f, n) ∈ c.positive) : 0 < n := by
  simp only [validate] at h
  split at h
  · cases h
  · rename_i hnone
    have hne := List.find?_eq_none.mp hnone (f, n) checked
    exact Nat.pos_of_ne_zero (by simpa using hne)

end Config

/-! ### Settings -/

/-- Values for some of the fields. -/
abbrev Settings := (f : Config.Field) → Option f.Value

namespace Settings

/-- Nothing set. -/
def empty : Settings := fun _ => none

/-- The settings with one field set. -/
def set (s : Settings) (f : Config.Field) (v : f.Value) : Settings :=
  fun g => if h : f = g then some (h ▸ v) else s g

@[simp] theorem set_self (s : Settings) (f : Config.Field) (v : f.Value) :
    s.set f v f = some v := by
  simp [set]

theorem set_of_ne (s : Settings) {f g : Config.Field} (v : f.Value) (h : f ≠ g) :
    s.set f v g = s g := by
  simp [set, h]

/-- The configuration with the defaults for the fields that are not set. -/
def config (s : Settings) : Config := .ofValues fun f => (s f).getD (Config.default.get f)

/-- The configuration, if it is valid. -/
def validConfig (s : Settings) : Except Rejection Config := do
  s.config.validate
  return s.config

end Settings

end EpochConsensus
