import EpochConsensus.Network
import EpochConsensus.Proofs.Replica.Deliveries
import Mathlib.Data.Int.ModEq
import Mathlib.Data.List.Nodup

/-! # Whose turn it is and whom a message reaches

The number of processes is any number, but their ids have sixteen bits.  As long as every process
has an id, turns go round once in as many epochs as there are processes, whatever epoch they are
counted from (`existsUnique_rotation`), a message that is passed on is addressed to all others
(`Replica.mem_others`), and a broadcast comes once into every inbox (`Network.send_all`).

The last two lists are made up to the number of processes modulo `2 ^ 16`.  With exactly that many
processes they are empty, although each process has an id and the number is accepted.
-/
namespace EpochConsensus

/-! ### Turns -/

/-- Turns are counted modulo the number of processes, if these have different ids. -/
theorem rotation_eq_iff {count : Nat} (pos : 0 < count) (small : count ≤ 2 ^ 16) {e : Epoch}
    {q : ProcessId} : rotation count e = .ok q ↔ e.toNat % count = q.toNat := by
  have hturn : rotation count e = .ok (UInt16.ofNat (e.toNat % count)) := by
    unfold rotation remainder
    rw [if_neg (Nat.ne_of_gt pos)]
    rfl
  have hsmall : e.toNat % count < UInt16.size := lt_of_lt_of_le (Nat.mod_lt _ pos) small
  rw [hturn, Except.ok.injEq, ← UInt16.toNat_inj, UInt16.toNat_ofNat_of_lt' hsmall]

/-- Among `count` numbers in a row there is one with a given remainder. -/
theorem exists_mod_eq {count q : Nat} (hq : q < count) (first : Nat) :
    ∃ k, first ≤ k ∧ k < first + count ∧ k % count = q := by
  have hrest : first % count < count := Nat.mod_lt _ (Nat.zero_lt_of_lt hq)
  refine ⟨first + (q + (count - first % count)) % count, Nat.le_add_right _ _,
    Nat.add_lt_add_left (Nat.mod_lt _ (Nat.zero_lt_of_lt hq)) _, ?_⟩
  calc (first + (q + (count - first % count)) % count) % count
      = (first % count + (q + (count - first % count))) % count := by
        rw [Nat.add_mod_mod, Nat.mod_add_mod]
    _ = (q + count) % count := by
        congr 1
        omega
    _ = q := by rw [Nat.add_mod_right, Nat.mod_eq_of_lt hq]

/-- **In as many epochs as there are processes, each of these has one turn.** -/
theorem existsUnique_rotation {count : Nat} (small : count ≤ 2 ^ 16) {q : ProcessId}
    (hq : q.toNat < count) {first : Nat} (low : first + count ≤ UInt64.size) :
    ∃! e : Epoch, (first ≤ e.toNat ∧ e.toNat < first + count) ∧ rotation count e = .ok q := by
  have hpos : 0 < count := Nat.zero_lt_of_lt hq
  obtain ⟨k, hfirst, hlast, hk⟩ := exists_mod_eq hq first
  have hnat : (UInt64.ofNat k).toNat = k := UInt64.toNat_ofNat_of_lt' (by omega)
  refine ⟨UInt64.ofNat k, ⟨by omega, (rotation_eq_iff hpos small).mpr (hnat.symm ▸ hk)⟩, ?_⟩
  rintro e ⟨⟨hefirst, helast⟩, hturn⟩
  have hmod : e.toNat ≡ k [MOD count] := ((rotation_eq_iff hpos small).mp hturn).trans hk.symm
  have heq : e.toNat = k := hmod.eq_of_abs_lt (by rw [abs_lt]; omega)
  exact UInt64.toNat_inj.mp (heq.trans hnat.symm)

/-- An epoch is the turn of one of the processes. -/
theorem exists_rotation {count : Nat} (small : count ≤ 2 ^ 16) (pos : 0 < count) (e : Epoch) :
    ∃ q : ProcessId, rotation count e = .ok q ∧ q.toNat < count := by
  have hmod : e.toNat % count < count := Nat.mod_lt _ pos
  have hnat : (UInt16.ofNat (e.toNat % count)).toNat = e.toNat % count :=
    UInt16.toNat_ofNat_of_lt' (lt_of_lt_of_le hmod small)
  exact ⟨_, (rotation_eq_iff pos small).mpr hnat.symm, hnat.symm ▸ hmod⟩

/-! ### Addresses -/

theorem processRange_zero (last : ProcessId) :
    processRange 0 last = (List.range last.toNat).map UInt16.ofNat := by
  simp [processRange]

theorem mem_processRange_zero {last q : ProcessId} :
    q ∈ processRange 0 last ↔ q.toNat < last.toNat := by
  rw [processRange_zero, List.mem_map]
  constructor
  · rintro ⟨i, hi, rfl⟩
    have hi := List.mem_range.mp hi
    rwa [UInt16.toNat_ofNat_of_lt' (hi.trans last.toNat_lt)]
  · intro hq
    exact ⟨q.toNat, List.mem_range.mpr hq, UInt16.ofNat_toNat⟩

theorem nodup_processRange_zero (last : ProcessId) : (processRange 0 last).Nodup := by
  rw [processRange_zero]
  refine List.Nodup.map_on ?_ List.nodup_range
  intro i hi j hj heq
  have hi := (List.mem_range.mp hi).trans last.toNat_lt
  have hj := (List.mem_range.mp hj).trans last.toNat_lt
  rw [← UInt16.toNat_ofNat_of_lt' hi, heq, UInt16.toNat_ofNat_of_lt' hj]

/-- The others are the processes with ids below the number of processes, cut to sixteen bits. -/
theorem Replica.mem_others {r : Replica} {q : ProcessId} :
    q ∈ r.others ↔ q.toNat < r.count % 2 ^ 16 ∧ q ≠ r.id := by
  rw [others, List.mem_filter, mem_processRange_zero, decide_eq_true_iff]
  rfl

/-! ### Broadcasts -/

namespace Network

/-- The network after bytes came into the first `k` inboxes. -/
def reached (n : Network) (bytes : Bytes) (k : Nat) : Network where
  inboxes := n.inboxes.mapIdx fun i inbox => if i < k then inbox.map (· ++ [bytes]) else inbox
  isolated := n.isolated
  delivered := n.delivered + (n.inboxes.toList.take k).countP Option.isSome

theorem reached_zero (n : Network) (bytes : Bytes) : n.reached bytes 0 = n := by
  have hinboxes : n.inboxes.mapIdx (fun _ inbox => inbox) = n.inboxes :=
    Array.ext (by simp) (by simp)
  simp [reached, hinboxes]

/-- All inboxes are reached once, and no bytes are counted for a process that was stopped. -/
theorem reached_count (n : Network) (bytes : Bytes) : n.reached bytes n.count =
    { n with
      inboxes := n.inboxes.map (Option.map (· ++ [bytes]))
      delivered := n.delivered + n.inboxes.countP Option.isSome } := by
  have hinboxes : (n.reached bytes n.count).inboxes =
      n.inboxes.map (Option.map (· ++ [bytes])) := by
    refine Array.ext (by simp [reached]) ?_
    intro i hi _
    have hin : i < n.count := by simpa [reached, count] using hi
    simp [reached, hin]
  have htaken : n.inboxes.toList.take n.count = n.inboxes.toList := List.take_length
  rw [← hinboxes]
  simp [reached, htaken]

/-- What is written at a place depends on what is there. -/
theorem modify_congr {α : Type} {xs : Array α} {i : Nat} {f g : α → α}
    (h : ∀ x, xs[i]? = some x → f x = g x) : xs.modify i f = xs.modify i g := by
  apply Array.ext_getElem?
  intro j
  rw [Array.getElem?_modify, Array.getElem?_modify]
  by_cases hj : i = j
  · subst hj
    cases hx : xs[i]? with
    | none => rfl
    | some x => simp [h x hx]
  · simp [hj]

/-- Bytes come last into an inbox, and are counted if its process runs. -/
theorem deliver_eq (n : Network) (bytes : Bytes) (q : ProcessId) : n.deliver bytes q =
    { n with
      inboxes := n.inboxes.modify q.toNat (Option.map (· ++ [bytes]))
      delivered := n.delivered + n.inboxes[q.toNat]?.join.toList.length } := by
  have hsame : n.inboxes.modify q.toNat id = n.inboxes := Array.toList_inj.mp (by simp)
  unfold deliver
  cases hinbox : n.inboxes[q.toNat]? with
  | none =>
    rw [modify_congr (g := id) (by simp [hinbox]), hsame]
    rfl
  | some inbox =>
    cases inbox with
    | none =>
      rw [modify_congr (g := id) (by simp [hinbox]), hsame]
      rfl
    | some waiting =>
      rw [modify_congr (g := Option.map fun _ => waiting ++ [bytes]) (by simp [hinbox])]
      rfl

/-- The next inbox is reached as well. -/
theorem deliver_reached (n : Network) (bytes : Bytes) {k : Nat} (hk : k < n.count)
    (small : k < 2 ^ 16) :
    (n.reached bytes k).deliver bytes (UInt16.ofNat k) = n.reached bytes (k + 1) := by
  have hplace : (UInt16.ofNat k).toNat = k := UInt16.toNat_ofNat_of_lt' small
  have hk' : k < n.inboxes.size := hk
  have hinboxes : (n.reached bytes k).inboxes.modify k (Option.map (· ++ [bytes])) =
      (n.reached bytes (k + 1)).inboxes := by
    refine Array.ext (by simp [reached]) ?_
    intro i _ _
    by_cases hik : k = i
    · subst hik
      simp [reached, Array.getElem_modify]
    · have hlt : i < k + 1 ↔ i < k := by omega
      simp only [reached, Array.getElem_modify, Array.getElem_mapIdx, hik, hlt, if_false]
  have hcount : (n.inboxes.toList.take (k + 1)).countP Option.isSome =
      (n.inboxes.toList.take k).countP Option.isSome + n.inboxes[k].toList.length := by
    rw [List.take_succ_eq_append_getElem (by simpa using hk'), List.countP_append]
    cases hrun : n.inboxes[k] <;> simp [hrun]
  rw [deliver_eq, hplace, hinboxes]
  simp [reached, Array.getElem?_eq_getElem hk', hcount, Nat.add_assoc]

/-- A broadcast comes once into the inbox of every process that runs, as far as ids of sixteen bits
reach. -/
theorem send_all (n : Network) {sender : ProcessId} (connected : sender ∉ n.isolated)
    (bytes : Bytes) : n.send sender bytes .all = n.reached bytes (n.count % 2 ^ 16) := by
  -- The induction is on the number of deliveries; up to `2 ^ 16` each goes to another place.
  have hfold : ∀ k, k ≤ n.count → k ≤ 2 ^ 16 →
      ((List.range k).map UInt16.ofNat).foldl (fun n q => n.deliver bytes q) n =
        n.reached bytes k := by
    intro k
    induction k with
    | zero => exact fun _ _ => (n.reached_zero bytes).symm
    | succ k ih =>
      intro hk small
      rw [List.range_succ, List.map_append, List.foldl_append, ih (by omega) (by omega)]
      exact n.deliver_reached bytes (by omega) (by omega)
  unfold send
  rw [if_neg connected]
  simp only [processRange_zero]
  exact hfold _ (Nat.mod_le _ _) (Nat.mod_lt _ (by decide)).le

end Network

/-! ### Systems -/

namespace Turn

variable {τ : Type} {services : Services τ} {heard : Endorsement → Prop} {t t' : Turn τ}

/-- A replica stays the process that it is, among as many others. -/
theorem Move.identity (move : Move services heard t t') :
    t'.replica.id = t.replica.id ∧ t'.replica.count = t.replica.count := by
  cases move <;> exact ⟨rfl, rfl⟩

theorem run_identity {r : Replica} {world : τ} {inputs : List Input} (fresh : r.deferred = none)
    (ran : (start r world).run services inputs = .ok t) :
    t.replica.id = r.id ∧ t.replica.count = r.count := by
  have moves : Moves services (fun _ => True) (start r world) t :=
    (run_moves (atRest_start fresh world) (fun i _ => i.carriesOnly_true) ran).1
  clear ran
  induction moves with
  | refl => exact ⟨rfl, rfl⟩
  | tail _ move ih => exact ⟨move.identity.1.trans ih.1, move.identity.2.trans ih.2⟩

/-- **Every process has its turn and is reached**, at any time of a run.  As long as every process
has an id, one epoch out of as many in a row as there are processes is that of a given process.
With fewer processes than ids, a message is passed on to every process but this one, and to each
once; and what is broadcast over a network of that size, by a sender that is not isolated, comes
once into the inbox of every process that runs. -/
theorem run_reaches {id : ProcessId} {count : Nat} {config : Config} {r : Replica} {world : τ}
    {inputs : List Input} (created : Replica.create id count config = .ok r)
    (ran : (start r world).run services inputs = .ok t) :
    (count ≤ 2 ^ 16 →
      (∀ first, first + count ≤ 2 ^ 64 → ∀ q : ProcessId, q.toNat < count →
        ∃! e : Epoch, (first ≤ e.toNat ∧ e.toNat < first + count) ∧
          (t.replica.host services).proposer e = .ok q) ∧
      ∀ e, ∃ q : ProcessId, (t.replica.host services).proposer e = .ok q ∧ q.toNat < count) ∧
    (count < 2 ^ 16 →
      (∀ m, ∃ recipients,
        t.replica.action? services (.forward m) = some (.send ⟨id, .only recipients, m⟩) ∧
          recipients.Nodup ∧ ∀ q, q ∈ recipients ↔ q.toNat < count ∧ q ≠ id) ∧
      ∀ n : Network, n.count = count → ∀ sender ∉ n.isolated, ∀ bytes, n.send sender bytes .all =
        { n with
          inboxes := n.inboxes.map (Option.map (· ++ [bytes]))
          delivered := n.delivered + n.inboxes.countP Option.isSome }) := by
  have hfresh := Replica.fresh_create created
  obtain ⟨hid, hcount⟩ := run_identity hfresh.deferred ran
  rw [hfresh.own] at hid
  rw [hfresh.size] at hcount
  have hturn : (t.replica.host services).proposer = rotation count := congrArg rotation hcount
  rw [hturn]
  constructor
  · intro numbered
    refine ⟨fun first low q hq => existsUnique_rotation numbered hq low, fun e => ?_⟩
    exact exists_rotation numbered (Nat.zero_lt_of_lt hfresh.member) e
  · intro numbered
    have hcut : count % 2 ^ 16 = count := Nat.mod_eq_of_lt numbered
    constructor
    · intro m
      refine ⟨t.replica.others, by rw [← hid]; rfl, (nodup_processRange_zero _).filter _, ?_⟩
      intro q
      rw [Replica.mem_others, hcount, hid, hcut]
    · rintro n rfl sender connected bytes
      rw [n.send_all connected, hcut, n.reached_count]

/-- One of `count` processes, before any call. -/
def crowdReplica (id : ProcessId) (count : Nat) : Replica where
  id
  count
  config := soloConfig
  chain := .empty 2 Nat.two_pos
  window := .ofConfig soloConfig id
  deferred := none

/-- Process 3 of 65535, the most that have a turn and are reached. -/
theorem run_reaches_most : ∃ t, Replica.create 3 65535 soloConfig = .ok (crowdReplica 3 65535) ∧
    65535 < 2 ^ 16 ∧
    (start (crowdReplica 3 65535) ()).run soloServices [.bootstrap] = .ok t ∧
    t.replica.window.lastEpoch = some 0 ∧
    (∃! e : Epoch, (2 ^ 64 - 65535 ≤ e.toNat ∧ e.toNat < 2 ^ 64 - 65535 + 65535) ∧
      (t.replica.host soloServices).proposer e = .ok 65534) ∧
    ∃ recipients, t.replica.action? soloServices (.forward (.silence ⟨0, 0, .empty⟩)) =
        some (.send ⟨3, .only recipients, .silence ⟨0, 0, .empty⟩⟩) ∧
      65534 ∈ recipients ∧ 3 ∉ recipients := by
  obtain ⟨t, ran, hlast⟩ : ∃ t, (start (crowdReplica 3 65535) ()).run soloServices [.bootstrap] =
      .ok t ∧ t.replica.window.lastEpoch = some 0 := exists_of_toOption (by decide +kernel)
  have created : Replica.create 3 65535 soloConfig = .ok (crowdReplica 3 65535) := rfl
  obtain ⟨hturns, -⟩ := (run_reaches created ran).1 (by decide)
  obtain ⟨haddressed, -⟩ := (run_reaches created ran).2 (by decide)
  obtain ⟨recipients, hforward, -, hmem⟩ := haddressed (.silence ⟨0, 0, .empty⟩)
  exact ⟨t, created, by decide, ran, hlast, hturns _ (by decide) 65534 (by decide), recipients,
    hforward, (hmem 65534).mpr ⟨by decide, by decide⟩, fun h => ((hmem 3).mp h).2 rfl⟩

/-- With 65536 processes, which are accepted and have an id each, nothing is passed on to anybody
and a broadcast reaches no inbox. -/
theorem reaches_nobody :
    Replica.create 0 65536 soloConfig = .ok (crowdReplica 0 65536) ∧
    (∀ m, (crowdReplica 0 65536).action? soloServices (.forward m) =
      some (.send ⟨0, .only [], m⟩)) ∧
    ∃ n, Network.create 65536 = .ok n ∧ n.count = 65536 ∧ n.isolated = [] ∧
      (n.send 0 [7] .all).inbox 5 = [] ∧ (n.send 0 [7] .all).delivered = 0 := by
  have hothers : (crowdReplica 0 65536).others = [] := by
    refine List.eq_nil_iff_forall_not_mem.mpr ?_
    intro q hq
    exact Nat.not_lt_zero _ (Replica.mem_others.mp hq).1
  refine ⟨rfl, ?_, ?_⟩
  · intro m
    rw [← hothers]
    rfl
  · let n : Network := ⟨.replicate 65536 (some []), [], 0⟩
    have hcreate : Network.create 65536 = .ok n := by
      unfold Network.create slotCount
      rw [if_neg (by decide)]
      rfl
    have hcount : n.count = 65536 := Array.size_replicate
    have hsend : n.send 0 [7] .all = n := by
      rw [n.send_all (by simp [n]), hcount]
      exact n.reached_zero [7]
    exact ⟨n, hcreate, hcount, rfl, by simp [hsend, n, Network.inbox], by rw [hsend]⟩

end Turn

end EpochConsensus
