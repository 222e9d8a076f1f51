import EpochConsensus.Proofs.Replica.Announcements
import EpochConsensus.Proofs.Replica.Orderly

/-! # What a replica has sent

Whatever a replica sends is an effect of one of its epochs, with the replica's signature on it where
the replica is the author, and the effect is on record (`Turn.Documented`).  So a block statement
that an honest replica has sent to all is of an epoch that has begun, and a message that carries no
other block statement of this replica (`Turn.Trusts`) carries none of a later epoch
(`Turn.Orderly.behind`).
-/
namespace EpochConsensus

/-- The statement that a process signs and sends to all. -/
def Action.broadcast? (process : ProcessId) : Action → Option Statement
  | send ⟨_, .all, m⟩ => m.statementBy? process
  | send _ | request _ _ | deliver _ _ => none

namespace Replica

variable {τ : Type} (services : Services τ) (r : Replica)

/-- Its signature does not change what a replica states. -/
theorem statementBy_sign (m : Message) (process : ProcessId) :
    (r.sign services m).statementBy? process = m.statementBy? process := by
  unfold sign
  split
  · cases m <;> rfl
  · rfl

/-- What an effect amounts to depends neither on the window nor on the store. -/
theorem action_congr (w : Window) (chain : Chain) (e : Effect) :
    ({ r with window := w, chain } : Replica).action? services e = r.action? services e := by
  cases e <;> rfl

/-- What a replica sends to all an epoch of it has broadcast. -/
theorem broadcast_of_action {x : Effect} {sender : ProcessId} {m : Message}
    (h : r.action? services x = some (.send ⟨sender, .all, m⟩)) :
    ∃ m₀, x = .broadcast m₀ ∧ m = r.sign services m₀ := by
  cases x with
  | broadcast m₀ =>
    cases h
    exact ⟨m₀, rfl, rfl⟩
  | request t accepted =>
    simp only [action?] at h
    split at h
    · cases h
    · cases h
  | forward | send | takeValue | addBlock | decide | finish => cases h

end Replica

namespace Turn

variable {τ : Type} {services : Services τ} {heard : Endorsement → Prop} {t t' : Turn τ}

theorem mem_appendList {α : Type} {xs : Array α} {ys : List α} {a : α} :
    a ∈ xs ++ ys ↔ a ∈ xs ∨ a ∈ ys := by
  rw [← Array.mem_toList_iff, Array.toList_appendList, List.mem_append, Array.mem_toList_iff]

/-- All that was sent is on record. -/
def Documented (services : Services τ) (t : Turn τ) : Prop := ∀ env, Action.send env ∈ t.actions →
  ∃ decided x, Record.acted decided x ∈ t.records ∧
    t.replica.action? services x.effect = some (.send env)

/-- What an epoch does goes on record. -/
theorem Documented.absorb (h : t.Documented services) (w : Window) (c : Context (Chain × τ)) :
    (t.absorb services w c).Documented services := by
  intro env henv
  have hsame := t.replica.action_congr services w c.world.1
  rcases mem_appendList.mp henv with hold | hnew
  · obtain ⟨decided, x, hx, hsent⟩ := h env hold
    exact ⟨decided, x, List.mem_append_left _ hx, (hsame _).trans hsent⟩
  · obtain ⟨e, he, hsent⟩ := List.mem_filterMap.mp hnew
    obtain ⟨x, hx, rfl⟩ : ∃ x ∈ c.moments, x.effect = e := by
      simpa [Context.effects] using he
    refine ⟨_, x, List.mem_append_right _ (List.mem_map_of_mem ?_), (hsame _).trans hsent⟩
    simpa using hx

/-- Commits send nothing. -/
theorem Documented.deliver (h : t.Documented services) (e : Epoch) (w : Window) (chain : Chain)
    (committed : List Block) : (t.deliver e w chain committed).Documented services := by
  intro env henv
  have hsame := t.replica.action_congr services w chain
  rcases mem_appendList.mp henv with hold | hnew
  · obtain ⟨decided, x, hx, hsent⟩ := h env hold
    exact ⟨decided, x, hx, (hsame _).trans hsent⟩
  · obtain ⟨b, -, hb⟩ := List.mem_map.mp hnew
    cases hb

theorem Documented.recordStart (h : t.Documented services) (e : Epoch) (carried : Carried)
    (rest : List Outcome) : Documented services
      { t.settled rest with records := t.records ++ [Record.started e carried] } := by
  intro env henv
  obtain ⟨decided, x, hx, hsent⟩ := h env henv
  exact ⟨decided, x, List.mem_append_left _ hx, hsent⟩

theorem Move.documented (move : Move services heard t t') (h : t.Documented services) :
    t'.Documented services := by
  cases move with
  | receive | expire | breakOff => exact h.absorb _ _
  | start | breakStart => exact (h.recordStart _ _ _).absorb _ _
  | drop | defer | cutOff => exact h
  | decide => exact Documented.deliver (t := { t with outcomes := _ }) h _ _ _ _

theorem Moves.documented (moves : Moves services heard t t') (h : t.Documented services) :
    t'.Documented services := by
  induction moves with
  | refl => exact h
  | tail _ move ih => exact move.documented ih

theorem documented_start (r : Replica) (world : τ) : (Turn.start r world).Documented services := by
  intro env henv
  cases Array.mem_toList_iff.mpr henv

/-! ### Trust -/

/-- A signature of one of the processes; if it is this replica's on a block, then the replica has
sent the statement to all before. -/
def Trusts (t : Turn τ) (e : Endorsement) : Prop :=
  e.signer.toNat < t.replica.count ∧ (e.signer = t.replica.id → e.statement.isBlock = true →
    ∃ a ∈ t.actions, a.broadcast? t.replica.id = some e.statement)

/-- Every call comes with signatures that the replica trusts by then. -/
def Trusting (services : Services τ) : Turn τ → List Input → Prop
  | _, [] => True
  | t, input :: inputs => input.CarriesOnly t.Trusts ∧
    match t.take services input with
    | .ok t' => Trusting services t' inputs
    | .error _ => True

/-! Whether given calls come with trusted signatures can be decided. -/

instance (t : Turn τ) : DecidablePred t.Trusts := fun e =>
  inferInstanceAs (Decidable (e.signer.toNat < t.replica.count ∧
    (e.signer = t.replica.id → e.statement.isBlock = true →
      ∃ a ∈ t.actions, a.broadcast? t.replica.id = some e.statement)))

instance (heard : Endorsement → Prop) [DecidablePred heard] :
    (input : Input) → Decidable (input.CarriesOnly heard)
  | .bootstrap | .timeout _ => .isTrue trivial
  | .message m => inferInstanceAs (Decidable (∀ e ∈ m.endorsements, heard e))

instance decidableTrusting (services : Services τ) :
    (t : Turn τ) → (inputs : List Input) → Decidable (t.Trusting services inputs)
  | _, [] => .isTrue trivial
  | t, input :: inputs =>
    have : Decidable (match t.take services input with
        | .ok t' => Trusting services t' inputs
        | .error _ => True) :=
      match t.take services input with
      | .ok t' => decidableTrusting services t' inputs
      | .error _ => .isTrue trivial
    inferInstanceAs (Decidable (input.CarriesOnly t.Trusts ∧ _))

end Turn

namespace Host

variable {σ : Type} (p : Host σ)

/-- A signature of one of the processes; if it is this one's on a block, then of an epoch below
`k`. -/
def Behind (k : Nat) (x : Endorsement) : Prop :=
  p.Member x ∧ (x.signer = p.id → x.statement.isBlock = true → x.statement.epoch.toNat < k)

end Host

namespace Turn

variable {τ : Type} {services : Services τ} {t : Turn τ} {p : Host (Chain × τ)}
  {heard : Endorsement → Prop}

/-- **What an honest replica trusts carries no block statement of its own about an epoch that has
not begun.** -/
theorem Orderly.behind (h : t.Orderly p heard services) (documented : t.Documented services)
    {x : Endorsement} (trusted : t.Trusts x) :
    p.Behind (Window.upTo t.replica.window.lastEpoch) x := by
  obtain rfl := h.host
  refine ⟨trusted.1, fun own block => ?_⟩
  obtain ⟨a, ha, hsent⟩ := trusted.2 own block
  obtain ⟨sender, m, rfl⟩ : ∃ sender m, a = .send ⟨sender, .all, m⟩ := by
    unfold Action.broadcast? at hsent
    split at hsent
    · exact ⟨_, _, rfl⟩
    all_goals cases hsent
  obtain ⟨decided, y, hy, haction⟩ := documented _ ha
  obtain ⟨m, heffect, rfl⟩ := t.replica.broadcast_of_action services haction
  have hsigned : y.effect.blockSigned? t.replica.id = some x.statement := by
    rw [heffect, Effect.blockSigned?, Option.filter_eq_some_iff]
    refine ⟨?_, block⟩
    rw [← hsent]
    exact (t.replica.statementBy_sign services m _).symm
  obtain ⟨-, start, started⟩ := (h.accounted decided y hy).started_of_signed hsigned
  exact (h.consecutive.starts _ _ started).1

end Turn

end EpochConsensus
