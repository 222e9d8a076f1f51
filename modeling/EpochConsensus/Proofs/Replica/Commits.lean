import EpochConsensus.Proofs.Chain.Contents
import EpochConsensus.Proofs.Replica.Discipline
import EpochConsensus.Proofs.Replica.Faults
import EpochConsensus.Proofs.Replica.Sent
import EpochConsensus.Proofs.Replica.Stages

/-! # Every decision can be committed

Whether a block extends the committed chain is asked when an epoch decides; the commit comes later,
when other outcomes have been settled and other epochs may have started.  In between, blocks are
only added to the store, which cuts no block off, and no other decision is committed: a call leaves
at most one decision to settle, and epochs that start meanwhile leave none, since they have not
heard this process's vote yet.  So an honest replica finds the way down from every decided block
(`Turn.run_commits`).
-/
namespace EpochConsensus

/-- A new store is tidy. -/
theorem Replica.tidy_of_create {id : ProcessId} {count : Nat} {config : Config} {r : Replica}
    (h : Replica.create id count config = .ok r) : r.chain.Tidy := by
  unfold Replica.create at h
  simp only [pure, Except.pure] at h
  obtain ⟨_, -, h⟩ := bind_eq_ok.mp h
  split at h
  · obtain ⟨_, hthrow, -⟩ := bind_eq_ok.mp h
    cases hthrow
  obtain ⟨w, -, h⟩ := bind_eq_ok.mp h
  obtain ⟨chain, hchain, h⟩ := bind_eq_ok.mp h
  cases h
  exact Chain.tidy_create (mapError_eq_ok.mp hchain)

/-- The answers of a replica to its epochs cut no block off. -/
theorem Replica.tidy_of_evolves {τ : Type} (services : Services τ) (r : Replica)
    {w w' : Chain × τ} (h : (r.host services).Evolves w w') (hw : w.1.Tidy) :
    w'.1.Tidy ∧ ∀ b, w.1.extendsChain b = true → w'.1.extendsChain b = true := by
  induction h with
  | refl => exact ⟨hw, fun _ hb => hb⟩
  | @tail u v _ answer ih =>
    obtain ⟨htidy, hlinked⟩ := ih
    cases answer with
    | accepts t =>
      have hsame : ((r.host services).accepts t u).2.1 = u.1 := by
        simp only [host]
        split <;> rfl
      rw [hsame]
      exact ⟨htidy, hlinked⟩
    | nextValue => exact ⟨htidy, hlinked⟩
    | addBlock hadd =>
      simp only [host, pure, Except.pure] at hadd
      obtain ⟨⟨chain, added⟩, hchain, hv⟩ := bind_eq_ok.mp hadd
      obtain ⟨rfl, rfl⟩ := Prod.mk.inj (Except.ok.inj hv)
      exact ⟨htidy.add hchain, fun b hb => htidy.extendsChain_add hchain (hlinked b hb)⟩

namespace Turn

variable {τ : Type} {services : Services τ} {p : Host (Chain × τ)} {k : Nat} {t t' : Turn τ}
  {m : Machine} {s' : Step (Chain × τ)} {w : Window} {rest : List Outcome}

/-- What every stride keeps of an honest replica whose messages carry no block statement of its own
about an epoch from `k` on: whatever decision is left to settle can be committed. -/
structure Committable (p : Host (Chain × τ)) (k : Nat) (services : Services τ) (t : Turn τ) :
    Prop where
  orderly : t.Orderly p p.Member services
  member : p.id.toNat < p.count
  reached : k ≤ Window.upTo t.replica.window.lastEpoch
  tidy : t.replica.chain.Tidy
  /-- No epoch that has not begun has heard a block statement of this process about itself. -/
  hushed : ∀ m, t.replica.window.Holds (.consensus m) →
    Window.upTo t.replica.window.lastEpoch ≤ m.epoch.toNat → p.Hushed m
  single : t.outcomes.countP Outcome.isDecision ≤ 1
  linked : ∀ e b, .decided e b ∈ t.outcomes → t.replica.chain.extendsChain b = true

/-! ### One epoch acts -/

/-- What an epoch does leaves the store tidy, and the decided blocks linked. -/
theorem linked_absorb (tidy : t.replica.chain.Tidy)
    (linked : ∀ e b, .decided e b ∈ t.outcomes → t.replica.chain.extendsChain b = true)
    (announced : (t.replica.host services).Announced (t.replica.chain, t.world) s') :
    s'.world.1.Tidy ∧ ∀ e b, .decided e b ∈ t.outcomes ++ s'.toContext.outcomes →
      s'.world.1.extendsChain b = true := by
  obtain ⟨htidy, hkept⟩ := t.replica.tidy_of_evolves services announced.evolved tidy
  refine ⟨htidy, fun e b hb => ?_⟩
  rcases List.mem_append.mp hb with hold | hnew
  · exact hkept b (linked e b hold)
  · obtain ⟨v, hv, hextends, hrest⟩ := announced.linked e b hnew
    have hvtidy := (t.replica.tidy_of_evolves services hv tidy).1
    exact (t.replica.tidy_of_evolves services hrest hvtidy).2 b hextends

/-- An epoch that has not begun is hushed, whether it is in the window or new. -/
theorem Committable.hushed_source (h : t.Committable p k services) {e : Epoch}
    (source : t.replica.window.Holds (.consensus m) ∨
      .consensus m = t.replica.window.factory.create e)
    (later : Window.upTo t.replica.window.lastEpoch ≤ m.epoch.toNat) : p.Hushed m := by
  rcases source with hheld | hcreated
  · exact h.hushed m hheld later
  · unfold Factory.create at hcreated
    rw [h.orderly.model] at hcreated
    cases hcreated
    exact Host.hushed_create _ _ _ _

/-- An epoch that has not begun waits, whether it is in the window or new. -/
theorem Committable.inactive (h : t.Committable p k services)
    (standing : Standing p p.Member t.records t.replica.window m)
    (later : Window.upTo t.replica.window.lastEpoch ≤ m.epoch.toNat) : p.Waiting p.Member m := by
  cases standing with
  | waiting hwaiting => exact hwaiting
  | running started =>
    have hbound := (h.orderly.consecutive.starts _ _ started).1
    omega
  | finished hphase old => omega

/-- What is said about the block statements of this process is less than what an epoch from `k` on
needs. -/
theorem foreign_of_behind {e : Epoch} (hk : k ≤ e.toNat) {x : Endorsement} (hx : p.Behind k x) :
    p.Foreign e x := by
  refine ⟨hx.1, fun own block heq => ?_⟩
  have hlt := hx.2 own block
  rw [heq] at hlt
  omega

/-- A call of one epoch leaves at most one decision to settle, and that can be committed. -/
theorem Committable.absorb (h : t.Committable p k services) (quiet : t.outcomes = [])
    (orderly : (t.absorb services w s'.toContext).Orderly p p.Member services)
    (kept : t.replica.window.put (.consensus s'.machine) = .ok w) (left : Host.Left m s')
    (announced : p.Announced (t.replica.chain, t.world) s')
    (hushed : Window.upTo t.replica.window.lastEpoch ≤ m.epoch.toNat → p.Hushed s'.machine) :
    (t.absorb services w s'.toContext).Committable p k services := by
  obtain rfl := h.orderly.host
  obtain ⟨htidy, hlinked⟩ := linked_absorb h.tidy h.linked announced
  have hlast := Window.lastEpoch_put kept
  refine ⟨orderly, h.member, ?_, htidy, ?_, ?_, hlinked⟩
  · show k ≤ Window.upTo w.lastEpoch
    rw [hlast]
    exact h.reached
  · intro y hy later
    replace later : Window.upTo t.replica.window.lastEpoch ≤ y.epoch.toNat := hlast ▸ later
    rcases Window.holds_put h.orderly.placed kept hy with heq | ⟨hold, -⟩
    · obtain rfl := Instance.consensus.inj heq
      rw [left.leaves.epoch] at later
      exact hushed later
    · exact h.hushed y hold later
  · rw [outcomes_absorb, quiet, List.nil_append]
    exact left.decisions

/-- So does a message. -/
theorem Committable.receive (h : t.Committable p k services) (quiet : t.outcomes = []) {e : Epoch}
    {inst inst' : Instance} {x : Message} {c : Context (Chain × τ)}
    (claimed : t.replica.window.claim? e = .ok (some inst)) (admitted : x.CarriesOnly (p.Behind k))
    (done : inst.receive (t.replica.host services) x t.context = .ok (inst', c))
    (kept : t.replica.window.put inst' = .ok w) :
    (t.absorb services w c).Committable p k services := by
  have hmember : x.CarriesOnly p.Member := fun y hy => (admitted y hy).1
  have horderly := h.orderly.receive claimed hmember done kept
  obtain ⟨m, rfl, hm⟩ := h.orderly.standing_of_claim claimed
  obtain ⟨s', hs', rfl, rfl⟩ := Instance.ofStep_eq_ok done
  rw [h.orderly.host] at hs'
  obtain ⟨hleft, hannounced⟩ : Host.Left m s' ∧ p.Announced (t.replica.chain, t.world) s' := by
    rcases hm.sound_or_finished with hsound | hfinished
    · exact ⟨Host.receive_leaves hsound hmember hs', Host.receive_announced hsound hmember hs'⟩
    · obtain rfl := Host.receive_finished (s := ⟨t.context, m⟩) hfinished hs'
      exact ⟨.idle m _, Host.announced_start _ m⟩
  refine h.absorb quiet horderly kept hleft hannounced fun later => ?_
  -- an epoch that has not begun keeps the message
  have hwaiting := h.inactive hm later
  have hhushed := h.hushed_source (Window.source_of_claim claimed).2 later
  obtain rfl := Host.receive_inactive (s := ⟨t.context, m⟩) hwaiting.inactive hs'
  exact Host.Hushed.keep (s := ⟨t.context, m⟩) hhushed hwaiting.honest fun z hz =>
    foreign_of_behind (Nat.le_trans h.reached later) (admitted z hz)

/-- So does a timeout. -/
theorem Committable.expire (h : t.Committable p k services) (quiet : t.outcomes = []) {e : Epoch}
    {inst inst' : Instance} {timeout : Timeout} {c : Context (Chain × τ)}
    (found : t.replica.window.instance? e = .ok (some inst))
    (done : inst.expire (t.replica.host services) timeout t.context = .ok (inst', c))
    (kept : t.replica.window.put inst' = .ok w) :
    (t.absorb services w c).Committable p k services := by
  have horderly := h.orderly.expire found done kept
  have hheld := (Window.instance_cases found).1
  obtain ⟨m, rfl, hm⟩ := h.orderly.standing inst hheld
  obtain ⟨s', hs', rfl, rfl⟩ := Instance.ofStep_eq_ok done
  rw [h.orderly.host] at hs'
  have hleft : Host.Left m s' := Host.expire_leaves hs'
  refine h.absorb quiet horderly kept hleft (Host.expire_announced hs') fun later => ?_
  have hwaiting := h.inactive hm later
  obtain rfl := Host.expire_idle (s := ⟨t.context, m⟩) (.inl hwaiting.inactive) hs'
  exact h.hushed m hheld later

/-! ### The next epoch -/

/-- What is due carries no block statement about the next epoch. -/
theorem Orderly.foreign_due (h : t.Orderly p p.Member services) {carried : Carried}
    (due : t.Due carried rest) {e : Epoch} (next : t.replica.window.nextEpoch = .ok e) :
    (∀ c ∈ carried.valid, c.CarriesOnly (p.Foreign e)) ∧
      ∀ c ∈ carried.locked, c.CarriesOnly (p.Foreign e) := by
  have hforeign : ∀ c, p.CertifiesBefore p.Member e c → c.CarriesOnly (p.Foreign e) := by
    rintro c ⟨d, hd, hcertifies⟩ x hx
    refine ⟨hcertifies.heard x hx, fun _ _ heq => ?_⟩
    obtain ⟨y, -, rfl⟩ := List.mem_map.mp hx
    have hepoch : c.statement.epoch = d := hcertifies.epoch
    exact UInt64.ne_of_lt hd (hepoch.symm.trans heq)
  obtain ⟨hinherits, -⟩ := h.inherits due next
  exact ⟨fun c hc => hforeign c (hinherits.valid c hc),
    fun c hc => hforeign c (hinherits.locked c hc)⟩

/-- The start of the next epoch adds no decision to those that are left. -/
theorem Committable.start (h : t.Committable p k services) {carried : Carried} {e : Epoch}
    {inst inst' : Instance} {c : Context (Chain × τ)} (due : t.Due carried rest)
    (next : t.replica.window.nextEpoch = .ok e)
    (found : t.replica.window.instance? e = .ok (some inst) ∨
      inst = t.replica.window.factory.create e)
    (done : inst.start (t.replica.host services) carried.valid carried.locked t.context =
      .ok (inst', c))
    (kept : { t.replica.window with lastEpoch := some e }.put inst' = .ok w)
    (orderly : ({ t.settled rest with records := t.records ++ [Record.started e carried] }.absorb
      services w c).Orderly p p.Member services) :
    ({ t.settled rest with records := t.records ++ [Record.started e carried] }.absorb
      services w c).Committable p k services := by
  obtain rfl := h.orderly.host
  have hrest := (due.cases_carried h.orderly).1
  have hnext := Window.toNat_nextEpoch next
  obtain ⟨m, rfl, rfl, hwaiting⟩ := h.orderly.waiting_next next found
  obtain ⟨s', hs', rfl, rfl⟩ := Instance.ofStep_eq_ok done
  obtain ⟨hvalid, hlocked⟩ := h.orderly.foreign_due due next
  have hhushed : (t.replica.host services).Hushed m :=
    h.hushed_source (found.imp_left fun hfound => (Window.instance_cases hfound).1)
      (Nat.le_of_eq hnext.symm)
  have hannounced : (t.replica.host services).Announced (t.replica.chain, t.world) s' :=
    Host.start_announced hhushed.sound hwaiting.inactive hvalid hlocked hs'
  have hquiet := Host.start_quiet hhushed hwaiting.inactive h.member hvalid hlocked hs'
  obtain ⟨htidy, hlinked⟩ := linked_absorb (t := t.settled rest) h.tidy
    (fun e b hb => h.linked e b (hrest.subset hb)) hannounced
  have hlast : w.lastEpoch = some m.epoch := Window.lastEpoch_put kept
  refine ⟨orderly, h.member, ?_, htidy, ?_, ?_, hlinked⟩
  · have hreached := h.reached
    show k ≤ Window.upTo w.lastEpoch
    rw [hlast]
    show k ≤ m.epoch.toNat + 1
    omega
  · intro y hy later
    replace later : m.epoch.toNat + 1 ≤ y.epoch.toNat := by
      have hlater : Window.upTo w.lastEpoch ≤ y.epoch.toNat := later
      rwa [hlast] at hlater
    have hplaced : { t.replica.window with lastEpoch := some m.epoch : Window }.Placed :=
      h.orderly.placed
    rcases Window.holds_put hplaced kept hy with heq | ⟨hold, -⟩
    · -- the epoch itself has begun by now
      obtain rfl := Instance.consensus.inj heq
      have hsane := Host.start_sane hhushed.sound hvalid hlocked hs'
      rw [hsane.epoch] at later
      omega
    · exact h.hushed y hold (by omega)
  · have hfewer : rest.countP Outcome.isDecision ≤ t.outcomes.countP Outcome.isDecision :=
      hrest.sublist.countP_le
    have hsingle := h.single
    show (rest ++ s'.toContext.outcomes).countP Outcome.isDecision ≤ 1
    rw [List.countP_append, hquiet]
    omega

/-! ### Settling -/

theorem Committable.drop (h : t.Committable p k services) (hrest : rest <:+ t.outcomes) :
    Committable p k services { t with outcomes := rest } :=
  { h with
    orderly := h.orderly.drop hrest.subset
    single := Nat.le_trans hrest.sublist.countP_le h.single
    linked := fun e b hb => h.linked e b (hrest.subset hb) }

/-- Once the only decision is committed none is left. -/
theorem Committable.deliver (h : t.Committable p k services) {e : Epoch} {b : Block}
    {chain : Chain} {committed : List Block} (outcome : t.outcomes = .decided e b :: rest)
    (new : t.replica.window.finishEpoch e = .ok (w, true))
    (done : t.replica.chain.commit b = .ok (chain, committed)) :
    ({ t with outcomes := rest }.deliver e w chain committed).Committable p k services := by
  have hmem : Outcome.decided e b ∈ t.outcomes := outcome ▸ List.mem_cons_self
  have hrest : rest <:+ t.outcomes := outcome ▸ List.suffix_cons _ _
  have hdropped := h.drop hrest
  obtain ⟨c, started⟩ := h.orderly.agreed e b hmem
  have hbound := (h.orderly.consecutive.starts e c started).1
  have horderly := hdropped.orderly.deliver ⟨c, started⟩ new done
  have hlast : w.lastEpoch = t.replica.window.lastEpoch := by
    rw [(Window.finishEpoch_eq new).2]
  have hnone : rest.countP Outcome.isDecision = 0 := by
    have hsingle := h.single
    rw [outcome, List.countP_cons_of_pos (by rfl)] at hsingle
    omega
  refine ⟨horderly, h.member, ?_, h.tidy.commit done, ?_, ?_, ?_⟩
  · show k ≤ Window.upTo w.lastEpoch
    rw [hlast]
    exact h.reached
  · intro y hy later
    replace later : Window.upTo t.replica.window.lastEpoch ≤ y.epoch.toNat := hlast ▸ later
    -- an epoch that has not begun is above the decided one, so the decision leaves it as it is
    have habove : e < y.epoch := by
      rw [UInt64.lt_iff_toNat_lt]
      omega
    exact h.hushed y ((Window.holds_later new (x := .consensus y) habove).mp hy) later
  · exact hdropped.single
  · intro d b' hb'
    exact absurd rfl (List.countP_eq_zero.mp hnone _ hb')

/-- **Every stride leaves decisions that can be committed.** -/
theorem Stride.committable (stride : Stride services (p.Behind k) t t')
    (h : t.Committable p k services) : t'.Committable p k services := by
  have hmove : Move services p.Member t t' := stride.move.mono fun _ hx => hx.1
  have horderly := hmove.orderly h.orderly
  cases stride with
  | receive quiet claimed admitted done kept => exact h.receive quiet claimed admitted done kept
  | expire quiet found done kept => exact h.expire quiet found done kept
  | late outcome covered => exact h.drop (outcome ▸ List.suffix_cons _ _)
  | pass outcome other => exact h.drop (outcome ▸ List.suffix_cons _ _)
  | @defer e carried rest outcome last full =>
    have hrest : rest <:+ t.outcomes := outcome ▸ List.suffix_cons _ _
    exact { h.drop hrest with orderly := horderly }
  | start due room next limit found done kept => exact h.start due next found done kept horderly
  | @cutOff carried rest e due room next limit =>
    have hrest := (due.cases_carried h.orderly).1
    have hnext := Window.toNat_nextEpoch next
    have hreached := h.reached
    refine { h.drop hrest with orderly := horderly, reached := ?_, hushed := ?_ }
    · show k ≤ e.toNat + 1
      omega
    · intro y hy later
      have hlater : e.toNat + 1 ≤ y.epoch.toNat := later
      exact h.hushed y hy (by omega)
  | decide outcome new done => exact h.deliver outcome new done

theorem Strides.committable (strides : Strides services (p.Behind k) t t')
    (h : t.Committable p k services) : t'.Committable p k services := by
  induction strides with
  | refl => exact h
  | tail _ stride ih => exact stride.committable ih

/-! ### Runs -/

/-- An honest replica before any call. -/
theorem committable_start {id : ProcessId} {count : Nat} {config : Config} {r : Replica}
    (created : Replica.create id count config = .ok r) (sync : config.model = .sync)
    (honest : config.isByzantine id = false) (world : τ) :
    (Turn.start r world).Committable (r.host services) 0 services := by
  have hfresh := Replica.fresh_create created
  refine ⟨orderly_start hfresh sync honest world, ?_, Nat.zero_le _,
    Replica.tidy_of_create created, ?_, Nat.zero_le 1, ?_⟩
  · show r.id.toNat < r.count
    rw [hfresh.own, hfresh.size]
    exact hfresh.member
  · intro m hm
    have hheld : r.window.Holds (.consensus m) := hm
    rw [hfresh.window] at hheld
    exact absurd hheld (Window.not_holds_ofConfig config id)
  · intro e b hb
    cases hb

/-- What is kept between two calls of an honest replica. -/
structure Assured (p : Host (Chain × τ)) (services : Services τ) (t : Turn τ) : Prop where
  committable : ∃ k, t.Committable p k services
  documented : t.Documented services
  atRest : t.AtRest

/-- Where a decision is settled the way down from its block is there, so that it can be
committed. -/
theorem Committable.grounded (h : t.Committable p k services) {e : Epoch} {b : Block}
    (outcome : t.outcomes = .decided e b :: rest) :
    (∃ bs, t.replica.chain.descend b.height.toNat b.id = ⟨bs, .grounded⟩ ∧
      t.replica.chain.Descends b.height.toNat b.id bs) ∧
      ∃ chain committed, t.replica.chain.commit b = .ok (chain, committed) := by
  have hlinked := h.linked e b (outcome ▸ List.mem_cons_self)
  obtain ⟨bs, hwalk⟩ := h.tidy.extendsChain_iff.mp hlinked
  exact ⟨⟨bs, (h.tidy.descend_eq_iff b.height.toNat_lt).mpr hwalk, hwalk⟩,
    Chain.commit_of_extendsChain hlinked⟩

/-- **What a replica does with messages that it trusts** leaves decisions that can be committed, at
every point. -/
theorem Assured.point (h : t.Assured p services) {u : Turn τ}
    (strides : Strides services t.Trusts { t with outcomes := [] } u) :
    ∃ k, u.Committable p k services := by
  obtain ⟨k, hcommittable⟩ := h.committable
  have hquiet := hcommittable.drop List.nil_suffix
  have hreached : Committable p (Window.upTo t.replica.window.lastEpoch) services
      { t with outcomes := [] } := { hquiet with reached := Nat.le_refl _ }
  have hbehind : Strides services (p.Behind (Window.upTo t.replica.window.lastEpoch))
      { t with outcomes := [] } u :=
    Strides.mono strides fun x hx => hcommittable.orderly.behind h.documented hx
  exact ⟨_, Strides.committable hbehind hreached⟩

theorem Assured.take (h : t.Assured p services) {input : Input}
    (trusted : input.CarriesOnly t.Trusts) (taken : t.take services input = .ok t') :
    t'.Assured p services := by
  obtain ⟨hstrides, hrest⟩ := take_strides h.atRest trusted taken
  have hquiet : Documented services { t with outcomes := [] } := h.documented
  exact ⟨h.point hstrides, Moves.documented (Strides.moves hstrides) hquiet, hrest⟩

/-- No call meets a fault of a commit. -/
theorem Assured.apart (h : t.Assured p services) {input : Input}
    (trusted : input.CarriesOnly t.Trusts) : Meets Fault.Apart (t.take services input) := by
  intro f fails hf
  obtain ⟨u, hstrides, e, b, rest, w, outcome, -, hcommit⟩ :=
    take_fault h.atRest trusted hf fails
  obtain ⟨k, hcommittable⟩ := h.point hstrides
  obtain ⟨-, chain, committed, done⟩ := hcommittable.grounded outcome
  rw [done] at hcommit
  cases hcommit

/-- Nor does a run. -/
theorem Assured.run_apart {inputs : List Input} (h : t.Assured p services)
    (trusting : Trusting services t inputs) : Meets Fault.Apart (t.run services inputs) := by
  induction inputs generalizing t with
  | nil => exact .pure t
  | cons input inputs ih =>
    obtain ⟨trusted, hlater⟩ := trusting
    unfold run
    rw [List.foldlM_cons]
    refine .bind (h.apart trusted) fun u taken => ?_
    rw [taken] at hlater
    exact ih (h.take trusted taken) hlater

/-- What comes before a call in a run leaves the replica assured, and the call is with what it
trusts by then. -/
theorem Assured.run {pre post : List Input} {input : Input} (h : t.Assured p services)
    (trusting : Trusting services t (pre ++ input :: post)) (ran : t.run services pre = .ok t') :
    t'.Assured p services ∧ input.CarriesOnly t'.Trusts := by
  induction pre generalizing t with
  | nil =>
    cases ran
    exact ⟨h, trusting.1⟩
  | cons first pre ih =>
    obtain ⟨trusted, hlater⟩ := trusting
    unfold Turn.run at ran
    rw [List.foldlM_cons] at ran
    obtain ⟨u, taken, ran⟩ := bind_eq_ok.mp ran
    rw [taken] at hlater
    exact ih (h.take trusted taken) hlater ran

/-- **Commits.**  Call an honest replica with messages that carry only signatures of processes of
the system, and none of its own on a block that it has not sent to all before.  Then no call meets
a fault of a commit.  At every point `u` of every call at which a decision is to be settled, all
blocks on the way from the decided one down to the anchor are stored and linked. -/
theorem run_commits {id : ProcessId} {count : Nat} {config : Config} {r : Replica} {world : τ}
    {inputs : List Input} (created : Replica.create id count config = .ok r)
    (sync : config.model = .sync) (honest : config.isByzantine id = false)
    (trusting : Trusting services (Turn.start r world) inputs) :
    (∀ f, (Turn.start r world).run services inputs = .error f → ¬ f.OfCommit) ∧
      ∀ pre input post t u, inputs = pre ++ input :: post →
        (Turn.start r world).run services pre = .ok t →
        Strides services t.Trusts { t with outcomes := [] } u →
        ∀ e b rest, u.outcomes = .decided e b :: rest →
          (∃ bs, u.replica.chain.descend b.height.toNat b.id = ⟨bs, .grounded⟩ ∧
            u.replica.chain.Descends b.height.toNat b.id bs) ∧
          ∃ chain committed, u.replica.chain.commit b = .ok (chain, committed) := by
  have hassured : (Turn.start r world).Assured (r.host services) services :=
    ⟨⟨0, committable_start created sync honest world⟩, documented_start r world,
      atRest_start (Replica.fresh_create created).deferred world⟩
  refine ⟨hassured.run_apart trusting, ?_⟩
  rintro pre input post t u rfl ran strides e b rest outcome
  obtain ⟨k, hcommittable⟩ := (hassured.run trusting ran).1.point strides
  exact hcommittable.grounded outcome

/-- The second of two processes receives the proposal of the first one and the vote that it has
sent itself. -/
def votedInputs : List Input :=
  secondInputs ++ [.message (.vote ⟨0, 0, soloBlock.id, 1, ⟨.fill 64 1⟩, 0, some ⟨.fill 64 1⟩⟩)]

/-- The end of its wait for evidence. -/
def evidenceTimeout : Timeout := ⟨0, .equivocation, 400⟩

/-- What these calls come to, and the next one before anything is settled. -/
def votedCall : Except Fault (Turn Unit × Turn Unit) := do
  let t ← (Turn.start secondReplica ()).run soloServices votedInputs
  let inst ← t.replica.window.instance? 0
  return (t, ← ({ t with outcomes := [] } : Turn Unit).call soloServices inst
    (·.expire (t.replica.host soloServices) evidenceTimeout))

/-- In this run a block is decided while the next epoch has already started, and the way down from
the block is there. -/
theorem run_commits_second :
    Trusting soloServices (Turn.start secondReplica ())
        (votedInputs ++ [.timeout evidenceTimeout]) ∧
      ∃ t u, (Turn.start secondReplica ()).run soloServices votedInputs = .ok t ∧
        Strides soloServices t.Trusts { t with outcomes := [] } u ∧
        u.replica.window.lastEpoch = some 1 ∧ u.outcomes = [.decided 0 soloBlock] ∧
        ∃ bs, u.replica.chain.Descends soloBlock.height.toNat soloBlock.id bs := by
  have created : Replica.create 1 2 soloConfig = .ok secondReplica := rfl
  have trusting : Trusting soloServices (Turn.start secondReplica ())
      (votedInputs ++ [.timeout evidenceTimeout]) := by decide +kernel
  obtain ⟨⟨t, u⟩, hcalls, hstate⟩ : ∃ x, votedCall = .ok x ∧
      (x.1.replica.deferred, x.2.replica.window.lastEpoch, x.2.outcomes) =
        (none, some 1, [.decided 0 soloBlock]) := exists_of_toOption (by decide +kernel)
  simp only [Prod.mk.injEq] at hstate
  obtain ⟨hfree, hlast, houtcomes⟩ := hstate
  unfold votedCall at hcalls
  simp only [bind_eq_ok, pure, Except.pure] at hcalls
  obtain ⟨t', ran, inst, found, u', called, heq⟩ := hcalls
  obtain ⟨rfl, rfl⟩ := Prod.mk.inj (Except.ok.inj heq)
  have atRest : ({ t' with outcomes := [] } : Turn Unit).AtRest := fun hsome => by
    simp [hfree] at hsome
  obtain ⟨hstrides, -⟩ := called_strides t'.Trusts atRest
    (fun i inst' c w hi done kept => .expire rfl (hi ▸ found) done kept) called
  obtain ⟨⟨bs, -, hwalk⟩, -⟩ := (run_commits created rfl rfl trusting).2 votedInputs
    (.timeout evidenceTimeout) [] t' u' rfl ran hstrides 0 soloBlock [] houtcomes
  exact ⟨trusting, t', u', ran, hstrides, hlast, houtcomes, bs, hwalk⟩

end Turn

end EpochConsensus
