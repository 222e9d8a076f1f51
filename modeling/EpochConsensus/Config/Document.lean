import EpochConsensus.Config
import EpochConsensus.Json

/-! # Configuration documents

A configuration as JSON text.  `Config.write` gives the one form in which configurations are
written: an object with every field in its order.  `Config.Draft.read?` accepts more: an object with
any of the fields in any order and other keys beside them, or a list of values in the order of the
fields.  A draft keeps what has been read, `Draft.config` fills in the rest, and `Config.parse`
validates the outcome; none of it goes through `Settings`.
-/
namespace EpochConsensus

namespace Model

def name : Model → String
  | sync => "sync"
  | delta => "delta"

def all : List Model := [sync, delta]

end Model

namespace Attack

def name : Attack → String
  | equivocation => "equivocation"
  | silent => "silent"

def all : List Attack := [equivocation, silent]

end Attack

/-! ### Values -/

/-- A natural number up to `limit`. -/
def readNat? (limit : Nat) (text : List Char) : Option (Nat × List Char) := do
  let (digits, rest) ← Json.integer? text
  let n := Json.ofDigits digits
  if n ≤ limit then some (n, rest) else none

def readBool? (text : List Char) : Option (Bool × List Char) :=
  match Json.literal? ['t', 'r', 'u', 'e'] text with
  | some rest => some (true, rest)
  | none => (false, ·) <$> Json.literal? ['f', 'a', 'l', 's', 'e'] text

/-- A choice between named values: a string with the name, or an object whose only key is the name
and whose value is null. -/
def readChoice? {α : Type} (all : List α) (name : α → String) :
    List Char → Option (α × List Char)
  | '"' :: text => do
    let (key, rest) ← Json.string? text
    return (← all.find? fun a => (name a).toList == key, rest)
  | '\x7b' :: text => do
    let (key, rest) ← Json.string? (← Json.token? '"' text)
    let a ← all.find? fun a => (name a).toList == key
    let rest ← Json.token? ':' rest
    let rest ← Json.literal? ['n', 'u', 'l', 'l'] (Json.skipBlank rest)
    return (a, ← Json.token? '\x7d' rest)
  | _ => none

def readProcess? (text : List Char) : Option (ProcessId × List Char) := do
  let (n, rest) ← readNat? (UInt16.size - 1) text
  return (UInt16.ofNat n, rest)

/-- A list of processes, in any order and with repetitions. -/
def readProcesses? : List Char → Option (ProcessSet × List Char)
  | '[' :: text => do
    let (processes, rest) ← Json.items? readProcess? text
    return (.ofList processes, rest)
  | _ => none

def writeNat (n : Nat) : String := toString n

def writeBool (b : Bool) : String := if b then "true" else "false"

/-- A string without anything that needs an escape, in quotes. -/
def quote (s : String) : String := "\"" ++ s ++ "\""

def writeProcesses (s : ProcessSet) : String :=
  "[" ++ ",".intercalate (s.processes.map fun p => writeNat p.toNat) ++ "]"

namespace Config.Field

/-- The value of a field at the front of a text. -/
def read? : (f : Field) → List Char → Option (f.Value × List Char)
  | .maxActiveEpochs | .maxEpochToStart | .blockchainSize | .messageQueueSize
  | .timeoutQueueSize | .pendingMessagesLimit | .smallDelta | .bigDelta | .verifierCacheSize =>
    readNat? (UInt64.size - 1)
  | .scheduleTimeouts | .fastPathEnabled => readBool?
  | .model => readChoice? Model.all Model.name
  | .byzantineAttack => readChoice? Attack.all Attack.name
  | .byzantines => readProcesses?

/-- The text of a field's value. -/
def write : (f : Field) → f.Value → String
  | .maxActiveEpochs, n | .maxEpochToStart, n | .blockchainSize, n | .messageQueueSize, n
  | .timeoutQueueSize, n | .pendingMessagesLimit, n | .smallDelta, n | .bigDelta, n
  | .verifierCacheSize, n => writeNat n
  | .scheduleTimeouts, b | .fastPathEnabled, b => writeBool b
  | .model, m => quote (Model.name m)
  | .byzantineAttack, a => quote (Attack.name a)
  | .byzantines, s => writeProcesses s

end Config.Field

/-! ### Drafts -/

namespace Config

/-- What has been read of a document: the fields that have come, with their values. -/
structure Draft where
  maxActiveEpochs : Option Nat
  maxEpochToStart : Option Nat
  blockchainSize : Option Nat
  messageQueueSize : Option Nat
  timeoutQueueSize : Option Nat
  scheduleTimeouts : Option Bool
  pendingMessagesLimit : Option Nat
  smallDelta : Option Millis
  bigDelta : Option Millis
  fastPathEnabled : Option Bool
  model : Option Model
  byzantines : Option ProcessSet
  byzantineAttack : Option Attack
  verifierCacheSize : Option Nat

namespace Draft

/-- Nothing read. -/
def empty : Draft where
  maxActiveEpochs := none
  maxEpochToStart := none
  blockchainSize := none
  messageQueueSize := none
  timeoutQueueSize := none
  scheduleTimeouts := none
  pendingMessagesLimit := none
  smallDelta := none
  bigDelta := none
  fastPathEnabled := none
  model := none
  byzantines := none
  byzantineAttack := none
  verifierCacheSize := none

/-- The value that has come for a field. -/
def get? (d : Draft) : (f : Field) → Option f.Value
  | .maxActiveEpochs => d.maxActiveEpochs
  | .maxEpochToStart => d.maxEpochToStart
  | .blockchainSize => d.blockchainSize
  | .messageQueueSize => d.messageQueueSize
  | .timeoutQueueSize => d.timeoutQueueSize
  | .scheduleTimeouts => d.scheduleTimeouts
  | .pendingMessagesLimit => d.pendingMessagesLimit
  | .smallDelta => d.smallDelta
  | .bigDelta => d.bigDelta
  | .fastPathEnabled => d.fastPathEnabled
  | .model => d.model
  | .byzantines => d.byzantines
  | .byzantineAttack => d.byzantineAttack
  | .verifierCacheSize => d.verifierCacheSize

/-- The draft with the value that comes for a field. -/
def put (d : Draft) : (f : Field) → f.Value → Draft
  | .maxActiveEpochs, v => { d with maxActiveEpochs := some v }
  | .maxEpochToStart, v => { d with maxEpochToStart := some v }
  | .blockchainSize, v => { d with blockchainSize := some v }
  | .messageQueueSize, v => { d with messageQueueSize := some v }
  | .timeoutQueueSize, v => { d with timeoutQueueSize := some v }
  | .scheduleTimeouts, v => { d with scheduleTimeouts := some v }
  | .pendingMessagesLimit, v => { d with pendingMessagesLimit := some v }
  | .smallDelta, v => { d with smallDelta := some v }
  | .bigDelta, v => { d with bigDelta := some v }
  | .fastPathEnabled, v => { d with fastPathEnabled := some v }
  | .model, v => { d with model := some v }
  | .byzantines, v => { d with byzantines := some v }
  | .byzantineAttack, v => { d with byzantineAttack := some v }
  | .verifierCacheSize, v => { d with verifierCacheSize := some v }

/-- The configuration of a draft.  What has not come has its default. -/
def config (d : Draft) : Config where
  maxActiveEpochs := d.maxActiveEpochs.getD default.maxActiveEpochs
  maxEpochToStart := d.maxEpochToStart.getD default.maxEpochToStart
  blockchainSize := d.blockchainSize.getD default.blockchainSize
  messageQueueSize := d.messageQueueSize.getD default.messageQueueSize
  timeoutQueueSize := d.timeoutQueueSize.getD default.timeoutQueueSize
  scheduleTimeouts := d.scheduleTimeouts.getD default.scheduleTimeouts
  pendingMessagesLimit := d.pendingMessagesLimit.getD default.pendingMessagesLimit
  smallDelta := d.smallDelta.getD default.smallDelta
  bigDelta := d.bigDelta.getD default.bigDelta
  fastPathEnabled := d.fastPathEnabled.getD default.fastPathEnabled
  model := d.model.getD default.model
  byzantines := d.byzantines.getD default.byzantines
  byzantineAttack := d.byzantineAttack.getD default.byzantineAttack
  verifierCacheSize := d.verifierCacheSize.getD default.verifierCacheSize

/-! ### Documents -/

/-- The field with this name. -/
def field? (key : List Char) : Option Field := Field.all.find? fun f => f.name.toList == key

/-- Reads one member of an object after the opening quote of its key.  The value of an unknown key
is passed over; a field may be given once.  `rounds` bounds the length of the text. -/
def readMember? (rounds : Nat) (d : Draft) (text : List Char) :
    Option (Draft × List Char) := do
  let (key, rest) ← Json.string? text
  let rest := Json.skipBlank (← Json.token? ':' rest)
  match field? key with
  | none => (d, ·) <$> Json.passValue? rounds rest
  | some f =>
    if (d.get? f).isSome then none
    let (v, rest) ← f.read? rest
    return (d.put f v, rest)

/-- The rest of an object after a member.  Every member takes at least its comma, so that `rounds`
still bounds the length of the text. -/
def readMembers? : (rounds : Nat) → Draft → List Char → Option (Draft × List Char)
  | 0, _, _ => none
  | rounds + 1, d, text =>
    match Json.skipBlank text with
    | '\x7d' :: rest => some (d, rest)
    | ',' :: rest => do
      let (d, rest) ← d.readMember? rounds (← Json.token? '"' rest)
      readMembers? rounds d rest
    | _ => none

/-- An object after its opening brace. -/
def readObject? (text : List Char) : Option (Draft × List Char) :=
  match Json.skipBlank text with
  | '\x7d' :: rest => some (.empty, rest)
  | '"' :: rest => do
    let rounds := rest.length
    let (d, rest) ← empty.readMember? rounds rest
    readMembers? rounds d rest
  | _ => none

/-- The rest of a list of values after its first one, for the fields that are left. -/
def readValues? : List Field → Draft → List Char → Option (Draft × List Char)
  | fields, d, text =>
    match fields, Json.skipBlank text with
    | _, ']' :: rest => some (d, rest)
    | f :: fields, ',' :: rest => do
      let (v, rest) ← f.read? (Json.skipBlank rest)
      readValues? fields (d.put f v) rest
    | _, _ => none

/-- A list of values, after its opening bracket, for the fields in their order. -/
def readList? (text : List Char) : Option (Draft × List Char) :=
  match Json.skipBlank text with
  | ']' :: rest => some (.empty, rest)
  | text =>
    match Field.all with
    | f :: fields => do
      let (v, rest) ← f.read? text
      readValues? fields (empty.put f v) rest
    | [] => none

/-- The draft that a whole document gives. -/
def read? (text : String) : Option Draft := do
  let (d, rest) ← match Json.skipBlank text.toList with
    | '\x7b' :: rest => readObject? rest
    | '[' :: rest => readList? rest
    | _ => none
  if (Json.skipBlank rest).isEmpty then some d else none

end Draft

/-- Reads a document, fills in the defaults and validates. -/
def parse (text : String) : Except Rejection Config :=
  match Draft.read? text with
  | some d => do
    let c := d.config
    c.validate
    return c
  | none => .error (.config .unreadable)

/-- The document of a configuration. -/
def write (c : Config) : String :=
  "\x7b" ++ ",".intercalate (Field.all.map fun f =>
    quote f.name ++ ":" ++ f.write (c.get f)) ++ "\x7d"

end Config

end EpochConsensus
