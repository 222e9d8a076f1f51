import EpochConsensus.Proofs.Chain
import EpochConsensus.Proofs.Epoch.Calls
import EpochConsensus.Proofs.Window
import EpochConsensus.Replica

/-! # A run as a path of moves

A run of a replica is a sequence of calls, each of which lets one epoch act and then settles what
came of it.  A `Turn.Move` is one of the changes that calls are made of; every run is a path of
moves (`Turn.run_moves`, in `Paths`), so what all moves keep holds throughout a run.  A call that
meets a fault breaks off, and what it did before is a path of moves, too: `breakOff` and
`breakStart` are the moves of an epoch that gets to some point of a call and no further.
-/
namespace EpochConsensus

/-- What a replica is called with. -/
inductive Input where
  | bootstrap
  | message (m : Message)
  | timeout (t : Timeout)

/-- Every signature that comes with the call was heard. -/
def Input.CarriesOnly (heard : Endorsement → Prop) : Input → Prop
  | message m => m.CarriesOnly heard
  | bootstrap | timeout _ => True

theorem Input.carriesOnly_true (i : Input) : i.CarriesOnly fun _ => True := by
  cases i with
  | bootstrap | timeout => trivial
  | message => exact fun _ _ => trivial

/-! ### New replicas -/

theorem mapError_eq_ok {ε δ α : Type} {f : ε → δ} {x : Except ε α} {a : α} :
    x.mapError f = .ok a ↔ x = .ok a := by
  cases x <;> simp [Except.mapError]

/-- A replica before any call. -/
structure Replica.Fresh (id : ProcessId) (count : Nat) (config : Config) (r : Replica) : Prop where
  member : id.toNat < count
  own : r.id = id
  size : r.count = count
  settings : r.config = config
  chain : r.chain.Levelled ∧ r.chain.anchor = none
  window : r.window = .ofConfig config id
  deferred : r.deferred = none

/-- A replica that is set up is fresh. -/
theorem Replica.fresh_create {id : ProcessId} {count : Nat} {config : Config} {r : Replica}
    (h : Replica.create id count config = .ok r) : Replica.Fresh id count config r := by
  unfold Replica.create at h
  simp only [pure, Except.pure] at h
  obtain ⟨_, -, h⟩ := bind_eq_ok.mp h
  split at h
  · obtain ⟨_, hthrow, -⟩ := bind_eq_ok.mp h
    cases hthrow
  rename_i hmember
  obtain ⟨w, hw, h⟩ := bind_eq_ok.mp h
  obtain ⟨chain, hchain, h⟩ := bind_eq_ok.mp h
  cases h
  have hwindow : Window.create config id = .ok w := mapError_eq_ok.mp hw
  unfold Window.create at hwindow
  simp only [pure, Except.pure] at hwindow
  obtain ⟨_, -, hwindow⟩ := bind_eq_ok.mp hwindow
  exact ⟨by omega, rfl, rfl, rfl, Chain.levelled_create (mapError_eq_ok.mp hchain),
    (Except.ok.inj hwindow).symm, rfl⟩

/-- A replica is set up only with a valid configuration. -/
theorem Replica.valid_of_create {id : ProcessId} {count : Nat} {config : Config} {r : Replica}
    (h : Replica.create id count config = .ok r) : config.validate = .ok () := by
  unfold Replica.create at h
  obtain ⟨_, hvalid, -⟩ := bind_eq_ok.mp h
  exact mapError_eq_ok.mp hvalid

namespace Turn

variable {τ : Type} (services : Services τ) (heard : Endorsement → Prop)

/-- One more call. -/
def take (t : Turn τ) : Input → Except Fault (Turn τ)
  | .bootstrap => t.bootstrap services
  | .message m => t.handleMessage services m
  | .timeout timeout => t.handleTimeout services timeout

/-- One call after the other. -/
def run (inputs : List Input) (t : Turn τ) : Except Fault (Turn τ) :=
  inputs.foldlM (fun t i => t.take services i) t

/-- Nothing keeps a start waiting but a full window. -/
def AtRest (t : Turn τ) : Prop :=
  t.replica.deferred.isSome = true → t.replica.window.isFull = true

/-- The next epoch is due with these certificates; the outcomes are those that remain. -/
inductive Due (t : Turn τ) : Carried → List Outcome → Prop
  | first (new : t.replica.window.lastEpoch = none) : Due t ⟨none, none⟩ t.outcomes
  | next {e : Epoch} {carried : Carried} {rest : List Outcome}
      (outcome : t.outcomes = .finished e carried.valid carried.locked :: rest)
      (last : t.replica.window.lastEpoch = some e) (free : t.replica.deferred = none) :
      Due t carried rest
  | resumed {carried : Carried} (waits : t.replica.deferred = some carried) :
      Due t carried t.outcomes

/-- A start takes the deferred one away. -/
def settled (t : Turn τ) (rest : List Outcome) : Turn τ :=
  { t with replica.deferred := none, outcomes := rest }

/-- The turn with the next epoch as the last one. -/
def advanced (t : Turn τ) (e : Epoch) : Turn τ :=
  { t with replica.window.lastEpoch := some e }

/-- One change that a call makes to a replica. -/
inductive Move : Turn τ → Turn τ → Prop
  /-- An epoch receives a message. -/
  | receive {t : Turn τ} {e : Epoch} {inst inst' : Instance} {m : Message}
      {c : Context (Chain × τ)} {w : Window}
      (claimed : t.replica.window.claim? e = .ok (some inst)) (admitted : m.CarriesOnly heard)
      (done : inst.receive (t.replica.host services) m t.context = .ok (inst', c))
      (kept : t.replica.window.put inst' = .ok w) : Move t (t.absorb services w c)
  /-- An epoch takes a timeout. -/
  | expire {t : Turn τ} {e : Epoch} {inst inst' : Instance} {timeout : Timeout}
      {c : Context (Chain × τ)} {w : Window}
      (found : t.replica.window.instance? e = .ok (some inst))
      (done : inst.expire (t.replica.host services) timeout t.context = .ok (inst', c))
      (kept : t.replica.window.put inst' = .ok w) : Move t (t.absorb services w c)
  /-- A call on an epoch gets to some point and no further. -/
  | breakOff {t : Turn τ} {m : Machine} {s' : Step (Chain × τ)} {w : Window}
      (found : t.replica.window.instance? m.epoch = .ok (some (.consensus m)))
      (running : m.phase ≠ .inactive ∧ m.phase ≠ .finished)
      (part : (t.replica.host services).Moves heard ⟨t.context, m⟩ s')
      (kept : t.replica.window.put (.consensus s'.machine) = .ok w) :
      Move t (t.absorb services w s'.toContext)
  /-- Outcomes that are of no consequence are dropped. -/
  | drop {t : Turn τ} {rest : List Outcome} (h : rest <:+ t.outcomes) :
      Move t { t with outcomes := rest }
  /-- The window is full when the last epoch ends. -/
  | defer {t : Turn τ} {e : Epoch} {carried : Carried} {rest : List Outcome}
      (outcome : t.outcomes = .finished e carried.valid carried.locked :: rest)
      (last : t.replica.window.lastEpoch = some e) :
      Move t { t with replica.deferred := some carried, outcomes := rest }
  /-- The next epoch starts. -/
  | start {t : Turn τ} {carried : Carried} {rest : List Outcome} {e : Epoch}
      {inst inst' : Instance} {c : Context (Chain × τ)} {w : Window} (due : t.Due carried rest)
      (next : t.replica.window.nextEpoch = .ok e)
      (found : t.replica.window.instance? e = .ok (some inst) ∨
        inst = t.replica.window.factory.create e)
      (done : inst.start (t.replica.host services) carried.valid carried.locked t.context =
        .ok (inst', c))
      (kept : { t.replica.window with lastEpoch := some e }.put inst' = .ok w) :
      Move t ({ t.settled rest with records := t.records ++ [Record.started e carried] }.absorb
        services w c)
  /-- The start of the next epoch gets to some point and no further. -/
  | breakStart {t : Turn τ} {carried : Carried} {rest : List Outcome} {e : Epoch}
      {m : Machine} {b s' : Step (Chain × τ)} {w : Window} (due : t.Due carried rest)
      (next : t.replica.window.nextEpoch = .ok e)
      (found : t.replica.window.instance? e = .ok (some (.consensus m)) ∨
        .consensus m = t.replica.window.factory.create e)
      (begun : (t.replica.host services).begin
        ⟨t.context, m.opened carried.valid carried.locked⟩ = .ok b)
      (part : (t.replica.host services).Moves heard { b with machine.pending := [] } s')
      (kept : { t.replica.window with lastEpoch := some e }.put (.consensus s'.machine) = .ok w) :
      Move t ({ t.settled rest with records := t.records ++ [Record.started e carried] }.absorb
        services w s'.toContext)
  /-- The next epoch is beyond the limit. -/
  | cutOff {t : Turn τ} {carried : Carried} {rest : List Outcome} {e : Epoch}
      (due : t.Due carried rest) (next : t.replica.window.nextEpoch = .ok e) :
      Move t ((t.settled rest).advanced e)
  /-- A decided block is committed. -/
  | decide {t : Turn τ} {e : Epoch} {b : Block} {rest : List Outcome} {w : Window} {chain : Chain}
      {committed : List Block} (outcome : t.outcomes = .decided e b :: rest)
      (new : t.replica.window.finishEpoch e = .ok (w, true))
      (done : t.replica.chain.commit b = .ok (chain, committed)) :
      Move t ({ t with outcomes := rest }.deliver e w chain committed)

/-- Any number of moves. -/
abbrev Moves : Turn τ → Turn τ → Prop := Relation.ReflTransGen (Move services heard)

variable {services} {heard} {t t' : Turn τ}

/-- What is on record stays on record. -/
theorem Move.records (move : Move services heard t t') : t.records <+: t'.records := by
  cases move with
  | receive => exact List.prefix_append _ _
  | expire | breakOff => exact List.prefix_append _ _
  | start | breakStart => exact (List.prefix_append _ _).trans (List.prefix_append _ _)
  | drop | defer | cutOff | decide => exact List.prefix_refl _

theorem Moves.records (moves : Moves services heard t t') : t.records <+: t'.records := by
  induction moves with
  | refl => exact List.prefix_refl _
  | tail _ move ih => exact ih.trans move.records

/-- Who has heard more moves as well. -/
theorem Move.mono {heard' : Endorsement → Prop} (move : Move services heard t t')
    (hle : ∀ e, heard e → heard' e) : Move services heard' t t' := by
  cases move with
  | receive claimed admitted done kept =>
    exact .receive claimed (fun e he => hle e (admitted e he)) done kept
  | expire found done kept => exact .expire found done kept
  | breakOff found running part kept =>
    exact .breakOff found running (Host.Moves.mono part hle) kept
  | drop h => exact .drop h
  | defer outcome last => exact .defer outcome last
  | start due next found done kept => exact .start due next found done kept
  | breakStart due next found begun part kept =>
    exact .breakStart due next found begun (Host.Moves.mono part hle) kept
  | cutOff due next => exact .cutOff due next
  | decide outcome new done => exact .decide outcome new done

theorem Moves.mono {heard' : Endorsement → Prop} (moves : Moves services heard t t')
    (hle : ∀ e, heard e → heard' e) : Moves services heard' t t' :=
  Relation.ReflTransGen.mono (fun _ _ move => Move.mono move hle) _ _ moves

end Turn

end EpochConsensus
