import EpochConsensus.Proofs.Replica.Paths

/-! # The delivered chain

Whatever a replica is called with, and whatever its policy, the blocks that it hands to the
application form one chain from height zero to the anchor of its store, and the epochs they are
handed over in never decrease (`run_delivers`).  The epochs only ever add blocks to the store, so
each commit walks down to the anchor of the one before (`Chain.commit_chained`), and a decision that
is not new delivers nothing.
-/
namespace EpochConsensus

/-- The block that is handed to the application, and the epoch. -/
def Action.delivery? : Action → Option (Epoch × Block)
  | deliver epoch b => some (epoch, b)
  | send _ | request _ _ => none

namespace Replica

variable {τ : Type} (services : Services τ) (r : Replica)

/-- An epoch hands nothing to the application itself. -/
theorem delivery_action {e : Effect} {a : Action} (h : r.action? services e = some a) :
    a.delivery? = none := by
  cases e with
  | broadcast | forward | send => cases h; rfl
  | request t accepted =>
    simp only [action?] at h
    split at h
    · cases h
      rfl
    · cases h
  | takeValue | addBlock | decide | finish => cases h

/-- The answers of a replica to its epochs only add blocks to the store. -/
theorem levelled_of_evolves {w w' : Chain × τ} (h : (r.host services).Evolves w w')
    (hw : w.1.Levelled) : w'.1.Levelled ∧ w'.1.anchor = w.1.anchor := by
  induction h with
  | refl => exact ⟨hw, rfl⟩
  | @tail u v _ answer ih =>
    obtain ⟨hlevelled, hanchor⟩ := ih
    cases answer with
    | accepts t =>
      have hsame : ((r.host services).accepts t u).2.1 = u.1 := by
        simp only [host]
        split <;> rfl
      rw [hsame]
      exact ⟨hlevelled, hanchor⟩
    | nextValue => exact ⟨hlevelled, hanchor⟩
    | addBlock hadd =>
      simp only [host, pure, Except.pure] at hadd
      obtain ⟨⟨chain, added⟩, hchain, hv⟩ := bind_eq_ok.mp hadd
      obtain ⟨rfl, rfl⟩ := Prod.mk.inj (Except.ok.inj hv)
      obtain ⟨hlevelled', hanchor'⟩ := hlevelled.add hchain
      exact ⟨hlevelled', hanchor'.trans hanchor⟩

end Replica

namespace Turn

variable {τ : Type} (services : Services τ)

/-- The blocks handed to the application so far, with the epochs. -/
def deliveries (t : Turn τ) : List (Epoch × Block) := t.actions.toList.filterMap (·.delivery?)

/-- The blocks handed to the application so far. -/
def delivered (t : Turn τ) : List Block := t.deliveries.map (·.2)

/-- What every move keeps of the deliveries. -/
structure Delivering (t : Turn τ) : Prop where
  placed : t.replica.window.Placed
  sound : ∀ inst, t.replica.window.Holds inst →
    inst.Sound (t.replica.host services) fun _ => True
  levelled : t.replica.chain.Levelled
  chained : Block.Chained t.delivered
  anchored : t.delivered.getLast? = t.replica.chain.anchor
  ordered : (t.deliveries.map (·.1)).Pairwise (· ≤ ·)
  bounded : ∀ d ∈ t.deliveries, d.1.toNat < Window.upTo t.replica.window.lastDecided

variable {services} {t t' : Turn τ}

/-! ### What an epoch does -/

theorem deliveries_absorb (t : Turn τ) (w : Window) (c : Context (Chain × τ)) :
    (t.absorb services w c).deliveries = t.deliveries := by
  have hnone : (c.effects.toList.filterMap fun e =>
      (t.replica.action? services e).bind Action.delivery?) = [] := by
    rw [List.filterMap_eq_nil_iff]
    intro e _
    cases h : t.replica.action? services e with
    | none => rfl
    | some a => exact t.replica.delivery_action services h
  simp only [deliveries, absorb, Array.toList_appendList, List.filterMap_append,
    List.filterMap_filterMap]
  rw [hnone, List.append_nil]

/-- A call on one epoch delivers nothing and leaves the anchor where it is. -/
theorem Delivering.absorb (h : t.Delivering services) {inst inst' : Instance}
    {c : Context (Chain × τ)} {last : Option Epoch} {w : Window}
    (sane : Instance.Sane (t.replica.host services) (fun _ => True) (t.replica.chain, t.world)
      inst inst' c)
    (kept : { t.replica.window with lastEpoch := last }.put inst' = .ok w) :
    (t.absorb services w c).Delivering services := by
  -- an epoch reaches the store only through its questions to the host
  obtain ⟨hlevelled, hanchor⟩ :=
    t.replica.levelled_of_evolves services sane.world h.levelled
  have hdeliveries : (t.absorb services w c).deliveries = t.deliveries := deliveries_absorb t w c
  have hplaced : { t.replica.window with lastEpoch := last : Window }.Placed := h.placed
  have hdecided : w.lastDecided = t.replica.window.lastDecided := by
    obtain ⟨_, -, rfl⟩ := Window.put_eq kept
    rfl
  refine ⟨hplaced.put kept, ?_, hlevelled, ?_, ?_, ?_, ?_⟩
  · intro x hx
    rcases Window.holds_put hplaced kept hx with rfl | ⟨hold, -⟩
    · exact sane.sound
    · exact h.sound x hold
  · unfold delivered
    rw [hdeliveries]
    exact h.chained
  · unfold delivered
    rw [hdeliveries]
    exact h.anchored.trans hanchor.symm
  · rw [hdeliveries]
    exact h.ordered
  · rw [hdeliveries]
    intro d hd
    show d.1.toNat < Window.upTo w.lastDecided
    rw [hdecided]
    exact h.bounded d hd

/-! ### Decisions -/

theorem deliveries_deliver (t : Turn τ) (e : Epoch) (w : Window) (chain : Chain)
    (committed : List Block) :
    (t.deliver e w chain committed).deliveries =
      t.deliveries ++ committed.reverse.map fun b => (e, b) := by
  simp [deliveries, deliver, List.filterMap_append, List.filterMap_map, Action.delivery?]

/-- A new decision delivers the blocks from the anchor up to the decided one, in an epoch that is
above those before. -/
theorem Delivering.deliver (h : t.Delivering services) {e : Epoch} {b : Block} {w : Window}
    {chain : Chain} {committed : List Block}
    (new : t.replica.window.finishEpoch e = .ok (w, true))
    (done : t.replica.chain.commit b = .ok (chain, committed)) :
    (t.deliver e w chain committed).Delivering services := by
  have hdelivered : (t.deliver e w chain committed).delivered =
      t.delivered ++ committed.reverse := by
    unfold delivered
    rw [deliveries_deliver]
    simp [Function.comp_def]
  obtain ⟨hlevelled, hchained, hanchored⟩ :=
    Chain.commit_chained h.levelled done h.chained h.anchored
  obtain ⟨hundecided, hw⟩ := Window.finishEpoch_eq new
  -- a decision is new only above all decisions before, which keeps the epochs in order
  have hlater : Window.upTo t.replica.window.lastDecided ≤ e.toNat := by
    simpa [Window.isUndecided] using hundecided
  refine ⟨h.placed.finishEpoch new, ?_, hlevelled, ?_, ?_, ?_, ?_⟩
  · intro x hx
    obtain ⟨y, hy, rfl⟩ := Window.holds_finishEpoch new hx
    unfold Window.close
    split
    · exact Instance.sound_stop (h.sound y hy)
    · exact h.sound y hy
  · rw [hdelivered]
    exact hchained
  · rw [hdelivered]
    exact hanchored
  · rw [deliveries_deliver, List.map_append, List.pairwise_append]
    refine ⟨h.ordered, ?_, ?_⟩
    · rw [List.map_map]
      exact List.pairwise_map.mpr (List.pairwise_of_forall fun _ _ => UInt64.le_refl e)
    · intro x hx y hy
      obtain ⟨d, hd, rfl⟩ := List.mem_map.mp hx
      obtain ⟨_, hp, rfl⟩ := List.mem_map.mp hy
      obtain ⟨_, -, rfl⟩ := List.mem_map.mp hp
      have hbound := h.bounded d hd
      show d.1 ≤ e
      rw [UInt64.le_iff_toNat_le]
      omega
  · rw [deliveries_deliver]
    intro d hd
    show d.1.toNat < Window.upTo w.lastDecided
    rw [hw]
    show d.1.toNat < e.toNat + 1
    rcases List.mem_append.mp hd with hold | hnew
    · have hbound := h.bounded d hold
      omega
    · obtain ⟨_, -, rfl⟩ := List.mem_map.mp hnew
      exact Nat.lt_succ_self _

/-! ### Runs -/

/-- The record of a start plays no part in the deliveries. -/
theorem Delivering.recordStart (h : t.Delivering services) (rest : List Outcome) (e : Epoch)
    (carried : Carried) : Delivering services
      { t.settled rest with records := t.records ++ [Record.started e carried] } := { h with }

/-- An epoch to be started is sound, whether it is new or has waited. -/
theorem Delivering.sound_next (h : t.Delivering services) {e : Epoch} {inst : Instance}
    (found : t.replica.window.instance? e = .ok (some inst) ∨
      inst = t.replica.window.factory.create e) :
    inst.Sound (t.replica.host services) fun _ => True := by
  rcases found with hfound | rfl
  · exact h.sound _ (Window.instance_cases hfound).1
  · exact Instance.sound_create _ _

theorem Move.delivering (move : Move services (fun _ => True) t t')
    (h : t.Delivering services) : t'.Delivering services := by
  cases move with
  | receive claimed admitted done kept =>
    refine h.absorb (Instance.receive_sane ?_ admitted done) kept
    rcases (Window.source_of_claim claimed).2 with hold | rfl
    · exact h.sound _ hold
    · exact Instance.sound_create _ _
  | expire found done kept =>
    exact h.absorb (Instance.expire_sane (h.sound _ (Window.instance_cases found).1) done) kept
  | breakOff found running part kept =>
    have hsane := Host.moves_sane running.1 (h.sound _ (Window.instance_cases found).1) part
    exact h.absorb (Instance.sane_consensus hsane) kept
  | drop => exact { h with }
  | defer => exact { h with }
  | start due next found done kept =>
    exact (h.recordStart _ _ _).absorb (Instance.start_sane (h.sound_next found)
      (fun _ _ _ _ => trivial) (fun _ _ _ _ => trivial) done) kept
  | breakStart due next found begun part kept =>
    exact (h.recordStart _ _ _).absorb (Instance.sane_consensus (Host.begun_sane
      (h.sound_next found) (fun _ _ _ _ => trivial) (fun _ _ _ _ => trivial) begun part)) kept
  | cutOff => exact { h with }
  | @decide e b rest w chain committed outcome new done =>
    have hdropped : Delivering services { t with outcomes := rest } := { h with }
    exact hdropped.deliver new done

theorem Moves.delivering (moves : Moves services (fun _ => True) t t')
    (h : t.Delivering services) : t'.Delivering services := by
  induction moves with
  | refl => exact h
  | tail _ move ih => exact move.delivering ih

/-- Before any call nothing is delivered. -/
theorem delivering_start {id : ProcessId} {count : Nat} {config : Config} {r : Replica}
    (h : Replica.Fresh id count config r) (world : τ) :
    (Turn.start r world).Delivering services := by
  refine ⟨?_, ?_, h.chain.1, .nil, h.chain.2.symm, .nil, ?_⟩
  · show r.window.Placed
    rw [h.window]
    exact Window.placed_ofConfig config id
  · intro inst hinst
    have hheld : r.window.Holds inst := hinst
    rw [h.window] at hheld
    exact absurd hheld (Window.not_holds_ofConfig config id)
  · intro d hd
    cases hd

/-- **The delivered chain.**  At every point `t'` of a run, in the middle of a call as well, the
blocks delivered so far form one chain from height zero without a gap, none of them twice, in epochs
that never decrease; between two calls the last one is the anchor of the store. -/
theorem run_delivers {id : ProcessId} {count : Nat} {config : Config} {r : Replica} {world : τ}
    {inputs : List Input} (created : Replica.create id count config = .ok r)
    (ran : (Turn.start r world).run services inputs = .ok t)
    (point : Moves services (fun _ => True) t t') :
    (∀ b ∈ t'.delivered.head?, b.height = 0 ∧ b.parent = none) ∧
      t'.delivered.IsChain
        (fun a b => b.height.toNat = a.height.toNat + 1 ∧ b.parent = some a.id) ∧
      t'.delivered.Nodup ∧ (t'.deliveries.map (·.1)).Pairwise (· ≤ ·) ∧
      t.delivered.getLast? = t.replica.chain.anchor := by
  have hfresh := Replica.fresh_create created
  have hmoves : Moves services (fun _ => True) (Turn.start r world) t := by
    refine (run_moves (atRest_start hfresh.deferred world) ?_ ran).1
    rintro (_ | m | timeout) _
    · trivial
    · exact fun _ _ => trivial
    · trivial
  have hran : t.Delivering services := hmoves.delivering (delivering_start hfresh world)
  have hpoint : t'.Delivering services := Moves.delivering point hran
  refine ⟨?_, ?_, hpoint.chained.nodup, hpoint.ordered, hran.anchored⟩
  · intro b hb
    have hheight := hpoint.chained.first b hb
    exact ⟨hheight, b.rooted.mpr hheight⟩
  · exact hpoint.chained.links.imp fun a b h => ⟨h.height, h.parent⟩

/-! ### A replica on its own -/

/-- A system of one process with a small window. -/
def soloConfig : Config := { Config.default with maxActiveEpochs := 2, blockchainSize := 2 }

def soloReplica : Replica where
  id := 0
  count := 1
  config := soloConfig
  chain := .empty 2 (by decide)
  window := .ofConfig soloConfig 0
  deferred := none

theorem create_solo : Replica.create 0 1 soloConfig = .ok soloReplica := rfl

/-- Services that always propose the same value. -/
def soloServices : Services Unit where
  nextValue := fun world => (some [1], world)
  accepts := fun _ world => (true, world)
  sign := fun _ => ⟨.fill 64 1⟩

def soloBlock : Block := .genesis [1]

/-- The process receives its proposal and its vote, and decides. -/
def soloInputs : List Input :=
  [.bootstrap, .message (.propose ⟨0, soloBlock, none, 0, 0, ⟨.fill 64 1⟩⟩),
    .message (.vote ⟨0, 0, soloBlock.id, 0, ⟨.fill 64 1⟩, 0, none⟩),
    .timeout ⟨0, .equivocation, 400⟩]

/-- In this run a block is delivered, and it is the anchor. -/
theorem run_delivers_solo :
    ∃ t, (Turn.start soloReplica ()).run soloServices soloInputs = .ok t ∧
      t.delivered = [soloBlock] ∧ t.delivered.getLast? = t.replica.chain.anchor := by
  obtain ⟨t, hran, hdelivered⟩ : ∃ t, (Turn.start soloReplica ()).run soloServices soloInputs =
      .ok t ∧ t.delivered = [soloBlock] := exists_of_toOption (by decide +kernel)
  exact ⟨t, hran, hdelivered, (run_delivers create_solo hran .refl).2.2.2.2⟩

end Turn

end EpochConsensus
