import EpochConsensus.Proofs.Replica.Discipline
import EpochConsensus.Proofs.Verifier
import Mathlib.Data.Finset.Card

/-! # Systems

A system is a number of processes with a table of public keys.  The honest ones are replicas behind
verifiers, in any states that they reach; all others and the network are only known by the bytes
that arrive.  Any bytes may arrive anywhere, at any time and any number of times, as long as they
carry no forged signature of an honest process.  What a verifier has accepted may reach its replica
in any order and repeatedly, or never; timeouts may fire at any time; and an honest process may stop
for good at any point of a call, as it does when it meets a fault.

In every reachable state each honest process has come there by moves in which it heard only genuine
signatures (`System.Reachable.served`), so it is in order (`System.Reachable.orderly`).
-/
namespace EpochConsensus

/-- What a system consists of: who is faulty, and what each process starts with. -/
structure System (τ κ : Type) where
  /-- The number of processes. -/
  count : Nat
  bounded : count ≤ 65535
  /-- One public key for each process. -/
  keys : List κ
  keyed : keys.length = count
  /-- Checks one signature. -/
  check : κ → Bytes → Signature → Bool
  faulty : Finset ProcessId
  config : ProcessId → Config
  replica : ProcessId → Replica
  services : ProcessId → Services τ
  world : ProcessId → τ
  /-- The honest processes run consensus, honestly. -/
  created : ∀ q, q.toNat < count → q ∉ faulty →
    Replica.create q count (config q) = .ok (replica q) ∧ (config q).model = .sync ∧
      (config q).isByzantine q = false

/-- An honest process: what its replica has done so far, its verifier with the messages that it has
accepted, and whether the process has stopped. -/
structure Node (τ κ : Type) where
  turn : Turn τ
  verifier : Verifier κ
  accepted : List Message
  halted : Bool

namespace System

variable {τ κ : Type} (S : System τ κ)

/-- The honest processes in the middle of a run. -/
abbrev State (_ : System τ κ) := ProcessId → Node τ κ

/-- The processes that are not faulty. -/
def Honest (q : ProcessId) : Prop := q.toNat < S.count ∧ q ∉ S.faulty

/-- The process has signed these bytes. -/
def Signed (g : S.State) (q : ProcessId) (bytes : Bytes) : Prop :=
  ∃ decided x s, Record.acted decided x ∈ (g q).turn.records ∧ x.effect.signed? q = some s ∧
    s.payload = bytes

/-- The signature checks, and if its author is honest, then the author made it. -/
def Genuine (g : S.State) (e : Endorsement) : Prop :=
  Verifier.Confirms S.check S.keys e ∧
    (e.signer ∉ S.faulty → S.Signed g e.signer e.statement.payload)

/-- The bytes carry no forged signature: what checks under the key of an honest process in them was
made by that process. -/
def Unforged (g : S.State) (bytes : Bytes) : Prop :=
  ∀ m, Message.decode bytes = .ok m →
    ∀ e ∈ m.endorsements, Verifier.Confirms S.check S.keys e → S.Genuine g e

/-- The system before any call. -/
def initial : S.State := fun q =>
  ⟨.start (S.replica q) (S.world q), .empty S.keys (S.config q).verifierCacheSize, [], false⟩

/-- The state with another one of a process. -/
def update (g : S.State) (q : ProcessId) (node : Node τ κ) : S.State :=
  fun r => if r = q then node else g r

/-- An honest process does something. -/
inductive Step (g : S.State) : S.State → Prop
  /-- Bytes arrive at the verifier. -/
  | arrive {q : ProcessId} {bytes : Bytes} {r : Except Rejection Message} {v : Verifier κ}
      (honest : S.Honest q) (up : (g q).halted = false) (unforged : S.Unforged g bytes)
      (answer : (g q).verifier.verify S.check bytes = (r, v)) :
      Step g (S.update g q
        { g q with verifier := v, accepted := (g q).accepted ++ r.toOption.toList })
  /-- The replica is called, with a message only if that was accepted. -/
  | call {q : ProcessId} {i : Input} {t : Turn τ} (honest : S.Honest q)
      (up : (g q).halted = false) (accepted : ∀ m, i = .message m → m ∈ (g q).accepted)
      (done : (g q).turn.take (S.services q) i = .ok t) :
      Step g (S.update g q { g q with turn := t })
  /-- The process stops, maybe in the middle of a call that has sent something. -/
  | halt {q : ProcessId} {t : Turn τ} (honest : S.Honest q) (up : (g q).halted = false)
      (point : Turn.Moves (S.services q) (S.Genuine g) (g q).turn t) :
      Step g (S.update g q { g q with turn := t, halted := true })

/-- The states of a system. -/
def Reachable (g : S.State) : Prop := Relation.ReflTransGen S.Step S.initial g

/-- The certificate holds a genuine signature of the process. -/
def Supports (g : S.State) (q : ProcessId) (c : Certificate) : Prop :=
  ∃ signature, (⟨q, c.statement, signature⟩ : Endorsement) ∈ c.endorsements ∧
    S.Genuine g ⟨q, c.statement, signature⟩

/-- The certificate holds genuine signatures of more than half of the processes. -/
def Majority (g : S.State) (c : Certificate) : Prop :=
  ∃ Q : Finset ProcessId, S.count / 2 < Q.card ∧ ∀ q ∈ Q, S.Supports g q c

variable {S} {g g' : S.State}

theorem update_self (q : ProcessId) (node : Node τ κ) : S.update g q node q = node := if_pos rfl

theorem update_of_ne {q r : ProcessId} (node : Node τ κ) (h : r ≠ q) :
    S.update g q node r = g r := if_neg h

/-! ### Signatures -/

/-- Only processes of the system have keys. -/
theorem Genuine.lt_count {e : Endorsement} (h : S.Genuine g e) : e.signer.toNat < S.count := by
  obtain ⟨⟨key, hkey, -⟩, -⟩ := h
  have hlt := (List.getElem?_eq_some_iff.mp hkey).1
  rwa [S.keyed] at hlt

/-- What the first state has on record of each process the second one has, too. -/
def Precedes (g g' : S.State) : Prop := ∀ q, (g q).turn.records <+: (g' q).turn.records

/-- What is genuine stays genuine. -/
theorem Genuine.mono {e : Endorsement} (h : S.Genuine g e) (precedes : Precedes g g') :
    S.Genuine g' e := by
  refine ⟨h.1, fun honest => ?_⟩
  obtain ⟨decided, x, s, hx, hs, hbytes⟩ := h.2 honest
  exact ⟨decided, x, s, (precedes e.signer).subset hx, hs, hbytes⟩

/-- What is on record of a process was signed by it. -/
theorem signed_of_mem {q : ProcessId} {s : Statement}
    (h : s ∈ History.blockStatements q (g q).turn.records) : S.Signed g q s.payload := by
  obtain ⟨record, hrecord, hsigned⟩ := List.mem_filterMap.mp h
  cases record with
  | started => cases hsigned
  | acted decided x =>
    exact ⟨decided, x, s, hrecord, (Option.filter_eq_some_iff.mp hsigned).1, rfl⟩

theorem precedes_update {q : ProcessId} {node : Node τ κ}
    (h : (g q).turn.records <+: node.turn.records) : Precedes g (S.update g q node) := by
  intro r
  by_cases hr : r = q
  · subst hr
    rw [update_self]
    exact h
  · rw [update_of_ne node hr]

/-! ### What honest processes have heard -/

/-- An honest process has heard only genuine signatures, and rests between its calls. -/
structure Served (g : S.State) (q : ProcessId) (node : Node τ κ) : Prop where
  moves : Turn.Moves (S.services q) (S.Genuine g) (.start (S.replica q) (S.world q)) node.turn
  atRest : node.halted = false → node.turn.AtRest
  remembers : node.verifier.Remembers S.keys (S.Genuine g)
  accepted : ∀ m ∈ node.accepted, m.CarriesOnly (S.Genuine g)

theorem Served.mono {q : ProcessId} {node : Node τ κ} (h : S.Served g q node)
    (precedes : Precedes g g') : S.Served g' q node := by
  have hgenuine : ∀ e, S.Genuine g e → S.Genuine g' e := fun e he => he.mono precedes
  refine ⟨Turn.Moves.mono h.moves hgenuine, h.atRest, ⟨h.remembers.keys, ?_⟩, ?_⟩
  · exact fun e he => hgenuine e (h.remembers.cache e he)
  · exact fun m hm e he => hgenuine e (h.accepted m hm e he)

/-- An honest process is in order, and has heard only genuine signatures. -/
theorem Served.orderly {q : ProcessId} {node : Node τ κ} (h : S.Served g q node)
    (honest : S.Honest q) :
    node.turn.Orderly ((S.replica q).host (S.services q)) (S.Genuine g) (S.services q) := by
  obtain ⟨hcreated, hsync, hhonest⟩ := S.created q honest.1 honest.2
  exact Turn.Moves.orderly h.moves
    (Turn.orderly_start (Replica.fresh_create hcreated) hsync hhonest (S.world q))

theorem served_initial {q : ProcessId} (honest : S.Honest q) :
    S.Served S.initial q (S.initial q) := by
  have hfresh := Replica.fresh_create (S.created q honest.1 honest.2).1
  refine ⟨.refl, fun _ => Turn.atRest_start hfresh.deferred _, ⟨rfl, ?_⟩, ?_⟩
  · intro e he
    cases he
  · intro m hm
    cases hm

/-- If only genuine signatures are heard, then every honest process stays served. -/
theorem served_update (h : ∀ r, S.Honest r → S.Served g r (g r)) {q : ProcessId}
    {node : Node τ κ} (served : S.Served g q node)
    (records : (g q).turn.records <+: node.turn.records) :
    ∀ r, S.Honest r → S.Served (S.update g q node) r (S.update g q node r) := by
  -- what one process has signed on top makes no signature less genuine
  have hprecedes := precedes_update records
  intro r hr
  by_cases heq : r = q
  · subst heq
    rw [update_self]
    exact served.mono hprecedes
  · rw [update_of_ne node heq]
    exact (h r hr).mono hprecedes

/-- Every step keeps every honest process served. -/
theorem Step.served (step : S.Step g g') (h : ∀ r, S.Honest r → S.Served g r (g r)) :
    ∀ r, S.Honest r → S.Served g' r (g' r) := by
  cases step with
  | @arrive q bytes r v honest up unforged answer =>
    obtain ⟨hremembers, hkept⟩ := Verifier.verify_keeps (h q honest).remembers unforged answer
    refine served_update h { h q honest with remembers := hremembers, accepted := ?_ }
      (List.prefix_refl _)
    intro m hm
    rcases List.mem_append.mp hm with hold | hnew
    · exact (h q honest).accepted m hold
    · cases r with
      | error reason => cases hnew
      | ok m' =>
        obtain rfl := List.mem_singleton.mp hnew
        exact hkept m rfl
  | @call q i t honest up accepted done =>
    have hadmitted : i.CarriesOnly (S.Genuine g) := by
      cases i with
      | bootstrap | timeout => trivial
      | message m => exact (h q honest).accepted m (accepted m rfl)
    obtain ⟨hmoves, hrest⟩ := Turn.take_moves ((h q honest).atRest up) hadmitted done
    exact served_update h
      { h q honest with moves := (h q honest).moves.trans hmoves, atRest := fun _ => hrest }
      (Turn.Moves.records hmoves)
  | @halt q t honest up point =>
    refine served_update h { h q honest with moves := (h q honest).moves.trans point, atRest := ?_ }
      (Turn.Moves.records point)
    intro hup
    cases hup

/-- **In every reachable state each honest process has heard only genuine signatures.** -/
theorem Reachable.served (reached : S.Reachable g) {q : ProcessId} (honest : S.Honest q) :
    S.Served g q (g q) := by
  have hall : ∀ r, S.Honest r → S.Served g r (g r) := by
    induction reached with
    | refl => exact fun r hr => served_initial hr
    | tail _ step ih => exact step.served ih
  exact hall q honest

/-- **So it is in order.** -/
theorem Reachable.orderly (reached : S.Reachable g) {q : ProcessId} (honest : S.Honest q) :
    (g q).turn.Orderly ((S.replica q).host (S.services q)) (S.Genuine g) (S.services q) :=
  (reached.served honest).orderly honest

/-! ### Calls in a row -/

theorem update_eq_self (g : S.State) (q : ProcessId) : S.update g q (g q) = g := by
  funext r
  by_cases hr : r = q
  · rw [hr, update_self]
  · rw [update_of_ne _ hr]

theorem update_update (q : ProcessId) (node node' : Node τ κ) :
    S.update (S.update g q node) q node' = S.update g q node' := by
  funext r
  by_cases hr : r = q
  · rw [hr, update_self, update_self]
  · rw [update_of_ne _ hr, update_of_ne _ hr, update_of_ne _ hr]

/-- The bytes can hold the message, and all its signatures are genuine. -/
def Deliverable (S : System τ κ) (g : S.State) (m : Message) : Prop :=
  m.Writable ∧ m.CarriesOnly (S.Genuine g)

theorem Deliverable.mono {m : Message} (h : S.Deliverable g m) (precedes : Precedes g g') :
    S.Deliverable g' m :=
  ⟨h.1, fun e he => (h.2 e he).mono precedes⟩

theorem Deliverable.unforged {m : Message} (h : S.Deliverable g m) : S.Unforged g m.encode := by
  intro m' hm' e he _
  obtain rfl := Except.ok.inj ((Message.decode_encode h.1).symm.trans hm')
  exact h.2 e he

/-- An honest process accepts what can be delivered, whatever it has heard before. -/
theorem Deliverable.arrive {m : Message} (h : S.Deliverable g m) (reached : S.Reachable g)
    {q : ProcessId} (honest : S.Honest q) (up : (g q).halted = false) :
    ∃ v a, m ∈ a ∧ S.Reachable (S.update g q { g q with verifier := v, accepted := a }) := by
  have hkeys := (reached.served honest).remembers.keys
  have hanswer : ((g q).verifier.verify S.check m.encode).1 = .ok m :=
    Verifier.verify_encode h.1 fun e he => hkeys ▸ (h.2 e he).1
  exact ⟨_, _, List.mem_append_right _ List.mem_cons_self,
    reached.tail (.arrive honest up h.unforged (Prod.ext hanswer rfl))⟩

/-- A call is taken as soon as its message has arrived. -/
theorem Reachable.take (reached : S.Reachable g) {q : ProcessId} (honest : S.Honest q)
    (up : (g q).halted = false) {i : Input} (deliverable : ∀ m, i = .message m → S.Deliverable g m)
    {t : Turn τ} (done : (g q).turn.take (S.services q) i = .ok t) :
    ∃ node, S.Reachable (S.update g q node) ∧ node.turn = t ∧ node.halted = false := by
  obtain ⟨v, a, haccepted, reached₁⟩ : ∃ v a, (∀ m, i = .message m → m ∈ a) ∧
      S.Reachable (S.update g q { g q with verifier := v, accepted := a }) := by
    cases i with
    | bootstrap | timeout =>
      exact ⟨(g q).verifier, (g q).accepted, nofun, (update_eq_self g q).symm ▸ reached⟩
    | message m =>
      obtain ⟨v, a, hm, reached₁⟩ := (deliverable m rfl).arrive reached honest up
      exact ⟨v, a, by rintro _ ⟨⟩; exact hm, reached₁⟩
  have hstep := Step.call (g := S.update g q { g q with verifier := v, accepted := a }) honest
    (by rw [update_self]; exact up) (by rw [update_self]; exact haccepted)
    (by rw [update_self]; exact done)
  rw [update_update, update_self] at hstep
  exact ⟨_, reached₁.tail hstep, rfl, up⟩

/-- **An honest process may take any calls in a row** whose messages can be delivered. -/
theorem Reachable.run (reached : S.Reachable g) {q : ProcessId} (honest : S.Honest q)
    (up : (g q).halted = false) {inputs : List Input}
    (deliverable : ∀ m, Input.message m ∈ inputs → S.Deliverable g m) {t : Turn τ}
    (ran : (g q).turn.run (S.services q) inputs = .ok t) :
    ∃ node, S.Reachable (S.update g q node) ∧ node.turn = t ∧ node.halted = false := by
  induction inputs generalizing g with
  | nil =>
    obtain rfl := Except.ok.inj ran
    exact ⟨g q, (update_eq_self g q).symm ▸ reached, rfl, up⟩
  | cons i inputs ih =>
    obtain ⟨u, htake, hrun⟩ := bind_eq_ok.mp ran
    obtain ⟨node, reached₁, rfl, hup⟩ := reached.take honest up
      (fun m hm => deliverable m (hm ▸ List.mem_cons_self)) htake
    have hadmitted : i.CarriesOnly (S.Genuine g) := by
      cases i with
      | bootstrap | timeout => trivial
      | message m => exact (deliverable m List.mem_cons_self).2
    have hrecords := Turn.Moves.records
      (Turn.take_moves ((reached.served honest).atRest up) hadmitted htake).1
    obtain ⟨node', reached₂, hturn, hup'⟩ := ih reached₁ (by rw [update_self]; exact hup)
      (fun m hm => (deliverable m (List.mem_cons_of_mem _ hm)).mono (precedes_update hrecords))
      (by rw [update_self]; exact hrun)
    rw [update_update] at reached₂
    exact ⟨node', reached₂, hturn, hup'⟩

/-! ### A process that signs alone -/

open Turn

/-- Processes that all propose the same value and sign with the same bytes. -/
def uniform (count : Nat) (bounded : count ≤ 65535) (faulty : Finset ProcessId) :
    System Unit Unit where
  count
  bounded
  keys := List.replicate count ()
  keyed := List.length_replicate
  check := fun _ _ signature => signature == ⟨.fill 64 1⟩
  faulty
  config := fun _ => soloConfig
  replica := fun q => { soloReplica with id := q, count, window := .ofConfig soloConfig q }
  services := fun _ => soloServices
  world := fun _ => ()
  created := by
    intro q member _
    refine ⟨?_, rfl, rfl⟩
    unfold Replica.create
    rw [if_neg (Nat.not_le.mpr member)]
    rfl

/-- A process that signs alone. -/
def solo : System Unit Unit := uniform 1 (by decide) ∅

theorem solo_honest : solo.Honest 0 := ⟨by decide, Finset.notMem_empty 0⟩

/-- The vote of the process for its own first proposal. -/
def soloVote : Vote := ⟨0, 0, soloBlock.id, 0, ⟨.fill 64 1⟩, 0, none⟩

def soloCalls : List Input := [.bootstrap, .message (.vote soloVote)]

/-- The vote can be delivered once the process has proposed. -/
theorem solo_deliverable {g : solo.State}
    (h : soloVote.statement ∈ History.blockStatements 0 (g 0).turn.records) :
    solo.Deliverable g (.vote soloVote) := by
  refine ⟨nofun, fun e he => ?_⟩
  obtain rfl := List.mem_singleton.mp he
  exact ⟨⟨(), rfl, rfl⟩, fun _ => signed_of_mem h⟩

/-- The process starts, and its vote is received. -/
theorem solo_reached : ∃ g : solo.State, solo.Reachable g ∧
    (Turn.start soloReplica ()).run soloServices soloCalls = .ok (g 0).turn := by
  obtain ⟨t, hstart, hsigned⟩ : ∃ t, (Turn.start soloReplica ()).take soloServices .bootstrap =
      .ok t ∧ History.blockStatements 0 t.records = [soloVote.statement] :=
    exists_of_toOption (by decide +kernel)
  obtain ⟨u, hrun, -⟩ : ∃ u, (Turn.start soloReplica ()).run soloServices soloCalls = .ok u ∧
      u.outcomes.length = 0 := exists_of_toOption (by decide +kernel)
  obtain ⟨t', ht', hrest⟩ := bind_eq_ok.mp hrun
  obtain rfl : t = t' := Except.ok.inj (hstart.symm.trans ht')
  obtain ⟨node, reached, rfl, hup⟩ := Reachable.take (g := solo.initial) .refl solo_honest rfl
    (fun _ h => by cases h) hstart
  have hproposed : soloVote.statement ∈ History.blockStatements 0
      (solo.update solo.initial 0 node 0).turn.records := by
    rw [update_self, hsigned]
    exact List.mem_singleton_self _
  have hvote : ∀ m, Input.message m ∈ [Input.message (.vote soloVote)] →
      solo.Deliverable (solo.update solo.initial 0 node) m := by
    intro m hm
    cases List.mem_singleton.mp hm
    exact solo_deliverable hproposed
  obtain ⟨node', reached', rfl, -⟩ := reached.run solo_honest (by rwa [update_self]) hvote
    (by rwa [update_self])
  refine ⟨_, reached', ?_⟩
  rwa [update_self]

end System

end EpochConsensus
