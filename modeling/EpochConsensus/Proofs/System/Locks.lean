import EpochConsensus.Proofs.Epoch.Justification
import EpochConsensus.Proofs.System.Agreement

/-! # Locks across epochs

Once all honest processes have gone on from an epoch with a lock of it, every later certificate
builds on what was certified there (`lock_safety`).  The induction is on the epoch of the later
certificate.  One of its signers is honest and signed the block with a proposal or with a vote.  In
both cases the block has a parent that a majority has certified, and by the rule for proposing or
the rule for voting that certificate ranks at least as high as the lock with which the signer
started its epoch, which in turn ranks at least as high as the lock with which it went on.
-/
namespace EpochConsensus

/-- What ranks at least as high as a certificate is a certificate of no earlier epoch. -/
theorem Certificate.exists_of_ranksAtLeast {x : Option Certificate} {l : Certificate}
    (h : ranksAtLeast x (some l) = true) : ∃ c, x = some c ∧ l.epoch ≤ c.epoch := by
  cases x with
  | none => cases h
  | some c => exact ⟨c, rfl, of_decide_eq_true h⟩

namespace System

variable {τ κ : Type} {S : System τ κ} {g : S.State} {e : Epoch}

/-! ### What a block builds on -/

/-- Every honest process that has started the epoch after `e` has done so with a lock of no earlier
epoch than `e`. -/
def LockedSince (S : System τ κ) (g : S.State) (e : Epoch) : Prop :=
  ∀ q, S.Honest q → ∀ (next : Epoch) (start : Carried), next.toNat = e.toNat + 1 →
    Record.started next start ∈ (g q).turn.records →
    ∃ c, start.locked = some c ∧ e ≤ c.epoch

/-- The block builds on one that a majority has certified in an epoch from `e` on and before
`later`. -/
def BuildsOn (S : System τ κ) (g : S.State) (e later : Epoch) (b : Block) : Prop :=
  ∃ c, S.Majority g c ∧ e ≤ c.epoch ∧ c.epoch < later ∧ Host.NamesParent c b

/-- The lock with which an honest process starts a later epoch is of no earlier epoch, either. -/
theorem LockedSince.of_started (locked : S.LockedSince g e) (reached : S.Reachable g)
    {q : ProcessId} (honest : S.Honest q) {later : Epoch} {start : Carried}
    (started : History.Started (g q).turn.records later start) (after : e < later) :
    ∃ c, start.locked = some c ∧ e ≤ c.epoch := by
  have hlt := UInt64.lt_iff_toNat_lt.mp after
  obtain ⟨next, hnext⟩ : ∃ next : Epoch, next.toNat = e.toNat + 1 := by
    refine ⟨UInt64.ofNat (e.toNat + 1), UInt64.toNat_ofNat_of_lt ?_⟩
    have := later.toNat_lt
    show _ < 2 ^ 64
    omega
  have hle : next ≤ later := by
    rw [UInt64.le_iff_toNat_le]
    omega
  have hconsecutive := (reached.orderly honest).consecutive
  obtain ⟨first, hfirst, -, hranks⟩ := hconsecutive.earlier later start started next hle
  obtain ⟨l, hl, hafter⟩ := locked q honest next first hnext hfirst
  rw [hl] at hranks
  obtain ⟨c, hc, hle⟩ := Certificate.exists_of_ranksAtLeast hranks
  exact ⟨c, hc, UInt64.le_trans hafter hle⟩

/-- A majority has certified what an honest process holds for certified. -/
theorem majority_of_certifies {q : ProcessId} (honest : S.Honest q) {d : Epoch} {c : Certificate}
    (h : ((S.replica q).host (S.services q)).Certifies (S.Genuine g) d c) : S.Majority g c := by
  have hquorum := h.quorum
  rw [honest.host_count] at hquorum
  exact majority_of_hasQuorum hquorum h.heard

/-- **Every block that an honest process signs in a later epoch builds on a certified one** of an
epoch in between. -/
theorem LockedSince.buildsOn (locked : S.LockedSince g e) (reached : S.Reachable g)
    {q : ProcessId} (honest : S.Honest q) {s : Statement}
    (hs : s ∈ History.blockStatements q (g q).turn.records) (after : e < s.epoch) :
    ∃ b : Block, s = ⟨s.epoch, .block b.height b.id⟩ ∧ S.BuildsOn g e s.epoch b := by
  have horderly := reached.orderly honest
  obtain ⟨record, hrecord, hsigned⟩ := List.mem_filterMap.mp hs
  cases record with
  | started => cases hsigned
  | acted decided x =>
    rw [← honest.host_id] at hsigned
    obtain ⟨m, start, started, hfaithful, -, hsigns⟩ :=
      (horderly.accounted decided x hrecord).signs hsigned
    rw [hsigns.epoch] at after
    obtain ⟨l, hl, hafter⟩ := locked.of_started reached honest started after
    have hinherits := (horderly.consecutive.starts _ _ started).2
    cases hsigns with
    | @propose b value phase turn next =>
      refine ⟨b, rfl, ?_⟩
      -- until it leaves the first phase an epoch holds what it was started with
      rw [(hfaithful.holding.waiting (.inl phase)).1] at next
      have hranks := hinherits.ranks
      rw [hl] at hranks
      obtain ⟨c, hc, hle⟩ := Certificate.exists_of_ranksAtLeast hranks
      rw [hc] at next
      obtain ⟨d, hd, hcertifies⟩ := hinherits.valid c hc
      have hepoch := hcertifies.epoch
      refine ⟨c, majority_of_certifies honest hcertifies, UInt64.le_trans hafter hle, ?_, ?_⟩
      · rw [hepoch]
        exact hd
      · refine Host.namesParent_of_nextBlock ?_ next
        rw [hepoch]
        exact hcertifies.block
    | @vote proposal votable =>
      refine ⟨proposal.block, rfl, ?_⟩
      -- the proposal was voted for because it ranks as high as the lock of the start
      have hranks := votable.ranks
      rw [hfaithful.initial, hl] at hranks
      obtain ⟨c, hc, hle⟩ := Certificate.exists_of_ranksAtLeast hranks
      obtain ⟨hepoch, hvalid, hgenuine⟩ :=
        hfaithful.sound.proposals _ (m.proposals.mem_single? votable.single)
      obtain ⟨hquorum, hearlier, hparent⟩ :=
        Host.namesParent_of_isJustified hc (Host.isValid_eq_true hvalid).2
      rw [honest.host_count] at hquorum
      rw [hepoch] at hearlier
      have hcarried : c.CarriesOnly (S.Genuine g) := Proposal.carriesOnly_certificate hgenuine c hc
      exact ⟨c, majority_of_hasQuorum hquorum hcarried, UInt64.le_trans hafter hle, hearlier,
        hparent⟩

/-! ### Later certificates -/

/-- **Locks are safe.**  If the majorities of epoch `e` certify nothing but the block `b`, and all
honest processes go on to the next epoch with a lock of no earlier epoch, then whatever a majority
certifies in a later epoch is a block from which the links to the predecessors lead down, height by
height, to `b`. -/
theorem lock_safety (reached : S.Reachable g) (few : S.faulty.card ≤ S.count / 2) {b : Block}
    (names : ∀ (c : Certificate) (key : BlockKey), S.Majority g c →
      c.statement = ⟨e, .block key.1 key.2⟩ → key = b.key)
    (locked : S.LockedSince g e) {c : Certificate} {later : Epoch} {key : BlockKey}
    (majority : S.Majority g c) (hc : c.statement = ⟨later, .block key.1 key.2⟩)
    (after : e < later) : ∃ b', b'.key = key ∧ Relation.TransGen Block.Follows b b' := by
  induction hn : later.toNat using Nat.strong_induction_on generalizing c later key with
  | _ n ih =>
    obtain ⟨q, honest, signature, -, hgenuine⟩ := majority.exists_honest few
    have hsigned := hgenuine.on_record honest.2 (by rw [hc]; rfl)
    simp only [hc] at hsigned
    obtain ⟨b', hnames, parent, hmajority, hfrom, hbefore, height, id, hparent, hlink, hheight⟩ :=
      locked.buildsOn reached honest hsigned after
    have hkey : b'.key = key := (key_of_statement_eq key b'.key hnames).symm
    refine ⟨b', hkey, ?_⟩
    -- the block on which `b'` builds is `b`, or leads down to it
    have hbelow : ∃ a : Block, a.key = (height, id) ∧ Relation.ReflTransGen Block.Follows b a := by
      rcases UInt64.lt_or_eq_of_le hfrom with hlt | heq
      · have hless : parent.epoch.toNat < n := hn ▸ UInt64.lt_iff_toNat_lt.mp hbefore
        obtain ⟨a, ha, hpath⟩ := @ih _ hless parent parent.epoch (height, id) hmajority hparent
          hlt rfl
        exact ⟨a, ha, hpath.to_reflTransGen⟩
      · rw [← heq] at hparent
        exact ⟨b, (names parent (height, id) hmajority hparent).symm, .refl⟩
    obtain ⟨a, ha, hpath⟩ := hbelow
    obtain ⟨rfl, rfl⟩ := Prod.mk.inj ha
    exact Relation.TransGen.tail' hpath ⟨hheight, hlink⟩

/-! ### Two epochs of three processes -/

/-- The third of three processes is faulty. -/
def minority : System Unit Unit := uniform trio.count trio.bounded {2}

theorem minority_few : minority.faulty.card ≤ minority.count / 2 := by decide

theorem minority_honest {q : ProcessId} (h : minority.Honest q) : q = 0 ∨ q = 1 := by
  obtain ⟨hlt, hne⟩ := h
  have hthird : q.toNat ≠ 2 := fun heq =>
    hne (Finset.mem_singleton.mpr (UInt16.toNat_inj.mp heq))
  have hcases : q.toNat = 0 ∨ q.toNat = 1 := by
    change q.toNat < 3 at hlt
    omega
  exact hcases.imp (fun h => UInt16.toNat_inj.mp h) fun h => UInt16.toNat_inj.mp h

/-- The votes for the first block, of its honest proposer and of the faulty process. -/
def minorityVotes : List Input :=
  [.message (.vote soloVote), .message (.vote { soloVote with sender := 2 })]

/-- The first process proposes, and the votes certify its block. -/
def proposerCalls : List Input := .bootstrap :: minorityVotes

/-- The second one hears of the block before it is certified.  It proposes the next block. -/
def successorCalls : List Input :=
  .bootstrap :: .message (.propose ⟨0, Turn.soloBlock, none, 0, 0, ⟨.fill 64 1⟩⟩) :: minorityVotes

/-- The block that is proposed in the second epoch. -/
def secondBlock : Block := .ofFields 1 (some Turn.soloBlock.id) [1] (by simp)

/-- The certificate of its proposer and of the faulty process. -/
def secondCertificate : Certificate :=
  ((Certificate.block 1 1 secondBlock.id).add 1 ⟨.fill 64 1⟩).add 2 ⟨.fill 64 1⟩

/-- The epochs that were started, each with the epoch of its lock. -/
def startedLocks {τ : Type} (h : History τ) : List (Epoch × Option Epoch) :=
  h.filterMap fun
    | .started e c => some (e, c.locked.map (·.epoch))
    | .acted _ _ => none

theorem lockedSince_of_startedLocks (h : ∀ q, S.Honest q →
    startedLocks (g q).turn.records = [(0, none), (1, some 0)]) : S.LockedSince g 0 := by
  intro q honest next start hnext hstarted
  obtain rfl : next = 1 := UInt64.toNat_inj.mp hnext
  have hmem : ((1 : Epoch), start.locked.map (·.epoch)) ∈ startedLocks (g q).turn.records :=
    List.mem_filterMap.mpr ⟨_, hstarted, rfl⟩
  rw [h q honest] at hmem
  have hlock : start.locked.map (·.epoch) = some 0 := by simpa using hmem
  obtain ⟨c, hc, hepoch⟩ := Option.map_eq_some_iff.mp hlock
  exact ⟨c, hc, UInt64.le_of_eq hepoch.symm⟩

/-- All these messages can be delivered once the first process has proposed. -/
theorem minority_deliverable {g : minority.State}
    (proposed : soloVote.statement ∈ History.blockStatements 0 (g 0).turn.records) {m : Message}
    (hm : Input.message m ∈ successorCalls) : minority.Deliverable g m := by
  have hfirst : minority.Genuine g ⟨0, soloVote.statement, ⟨.fill 64 1⟩⟩ :=
    ⟨⟨(), rfl, rfl⟩, fun _ => signed_of_mem proposed⟩
  have hthird : minority.Genuine g ⟨2, soloVote.statement, ⟨.fill 64 1⟩⟩ :=
    ⟨⟨(), rfl, rfl⟩, fun honest => absurd (Finset.mem_singleton_self _) honest⟩
  have hcases : m = .propose ⟨0, Turn.soloBlock, none, 0, 0, ⟨.fill 64 1⟩⟩ ∨ m = .vote soloVote ∨
      m = .vote { soloVote with sender := 2 } := by
    simpa [successorCalls, minorityVotes] using hm
  rcases hcases with rfl | rfl | rfl
  · refine ⟨show Turn.soloBlock.byteSize < 2 ^ 32 by decide +kernel, fun e he => ?_⟩
    obtain rfl := List.mem_singleton.mp he
    exact hfirst
  · refine ⟨by rintro ⟨⟩, fun e he => ?_⟩
    obtain rfl := List.mem_singleton.mp he
    exact hfirst
  · refine ⟨by rintro ⟨⟩, fun e he => ?_⟩
    obtain rfl := List.mem_singleton.mp he
    exact hthird

/-- What a process has signed and with which locks it has started, at the end of some calls. -/
def signedAndStarted (q : ProcessId) (t : Turn Unit) :
    List Statement × List (Epoch × Option Epoch) :=
  (History.blockStatements q t.records, startedLocks t.records)

/-- Both honest processes go on to the second epoch with a lock of the first one, and the second of
them proposes there. -/
theorem minority_reached : ∃ g : minority.State, minority.Reachable g ∧
    signedAndStarted 0 (g 0).turn = ([soloVote.statement], [(0, none), (1, some 0)]) ∧
    signedAndStarted 1 (g 1).turn =
      ([soloVote.statement, secondCertificate.statement], [(0, none), (1, some 0)]) := by
  have honest : minority.Honest 0 := ⟨by decide, by decide⟩
  have honest' : minority.Honest 1 := ⟨by decide, by decide⟩
  obtain ⟨t, hstart, hsigned⟩ : ∃ t,
      (minority.initial 0).turn.take (minority.services 0) .bootstrap = .ok t ∧
        History.blockStatements 0 t.records = [soloVote.statement] :=
    exists_of_toOption (by decide +kernel)
  obtain ⟨u, hfirst, hfacts⟩ : ∃ u,
      (minority.initial 0).turn.run (minority.services 0) proposerCalls = .ok u ∧
        signedAndStarted 0 u = ([soloVote.statement], [(0, none), (1, some 0)]) :=
    exists_of_toOption (by decide +kernel)
  obtain ⟨v, hsecond, hfacts'⟩ : ∃ v,
      (minority.initial 1).turn.run (minority.services 1) successorCalls = .ok v ∧
        signedAndStarted 1 v =
          ([soloVote.statement, secondCertificate.statement], [(0, none), (1, some 0)]) :=
    exists_of_toOption (by decide +kernel)
  obtain ⟨t', ht', hvotes⟩ := bind_eq_ok.mp hfirst
  obtain rfl : t = t' := Except.ok.inj (hstart.symm.trans ht')
  obtain ⟨node, reached, rfl, hup⟩ := Reachable.take (g := minority.initial) .refl honest rfl
    (fun _ h => by cases h) hstart
  -- from the proposal on everything can be delivered
  have hproposed : soloVote.statement ∈ History.blockStatements 0
      (minority.update minority.initial 0 node 0).turn.records := by
    rw [update_self, hsigned]
    exact List.mem_singleton_self _
  have hheard : ∀ m, Input.message m ∈ minorityVotes → Input.message m ∈ successorCalls :=
    fun m hm => List.mem_cons_of_mem _ (List.mem_cons_of_mem _ hm)
  obtain ⟨node', reached', rfl, -⟩ := reached.run honest (by rwa [update_self])
    (fun m hm => minority_deliverable hproposed (hheard m hm)) (by rwa [update_self])
  have hproposed' : soloVote.statement ∈ History.blockStatements 0
      (minority.update (minority.update minority.initial 0 node) 0 node' 0).turn.records := by
    rw [update_self, (Prod.mk.inj hfacts).1]
    exact List.mem_singleton_self _
  obtain ⟨node'', reached'', rfl, -⟩ := reached'.run honest' rfl
    (fun m hm => minority_deliverable hproposed' hm) hsecond
  refine ⟨_, reached'', ?_, ?_⟩
  · rwa [update_of_ne _ (by decide), update_self]
  · rwa [update_self]

/-- The certificate of the second block has an honest and a faulty signer. -/
theorem majority_secondCertificate {g : minority.State}
    (signed : History.blockStatements 1 (g 1).turn.records =
      [soloVote.statement, secondCertificate.statement]) :
    minority.Majority g secondCertificate := by
  refine ⟨{1, 2}, by decide, fun q hq => ?_⟩
  have hcases : q = 1 ∨ q = 2 := by simpa using hq
  rcases hcases with rfl | rfl
  · refine ⟨⟨.fill 64 1⟩, List.mem_cons_self, ⟨(), rfl, rfl⟩, fun _ => signed_of_mem ?_⟩
    rw [signed]
    exact List.mem_cons_of_mem _ List.mem_cons_self
  · exact ⟨⟨.fill 64 1⟩, List.mem_cons_of_mem _ List.mem_cons_self, ⟨(), rfl, rfl⟩,
      fun honest => absurd (Finset.mem_singleton_self _) honest⟩

/-- Whatever is certified in the first epoch is the block that both honest processes voted for. -/
theorem key_of_minority {g : minority.State}
    (signed : History.blockStatements 0 (g 0).turn.records = [soloVote.statement])
    (signed' : History.blockStatements 1 (g 1).turn.records =
      [soloVote.statement, secondCertificate.statement])
    {c : Certificate} {key : BlockKey} (certified : minority.Majority g c)
    (block : c.statement = ⟨0, .block key.1 key.2⟩) : key = Turn.soloBlock.key := by
  obtain ⟨q, honest, signature, -, hgenuine⟩ := certified.exists_honest minority_few
  have hmem : c.statement ∈ History.blockStatements q (g q).turn.records :=
    hgenuine.on_record honest.2 (by rw [block]; rfl)
  have hvoted : c.statement = soloVote.statement := by
    rcases minority_honest honest with rfl | rfl
    · rw [signed] at hmem
      exact List.mem_singleton.mp hmem
    · rw [signed', block] at hmem
      rcases List.mem_cons.mp hmem with hvoted | hlater
      · exact block.trans hvoted
      · have hepoch := congrArg Statement.epoch (List.mem_singleton.mp hlater)
        cases hepoch
  exact key_of_statement_eq key Turn.soloBlock.key (block.symm.trans hvoted)

/-- A run into the second epoch in which one process of three is faulty.  The block certified there
leads down to the only one that is certified in the first epoch. -/
theorem lock_safety_minority : ∃ g, minority.Reachable g ∧
    minority.Majority g secondCertificate ∧ minority.LockedSince g 0 ∧
      ∃ b, b.key = secondBlock.key ∧ Relation.TransGen Block.Follows Turn.soloBlock b := by
  obtain ⟨g, reached, hfirst, hsecond⟩ := minority_reached
  obtain ⟨hsigned, hstarted⟩ := Prod.mk.inj hfirst
  obtain ⟨hsigned', hstarted'⟩ := Prod.mk.inj hsecond
  have hlocked : minority.LockedSince g 0 := by
    refine lockedSince_of_startedLocks fun q honest => ?_
    rcases minority_honest honest with rfl | rfl
    · exact hstarted
    · exact hstarted'
  have hmajority : minority.Majority g secondCertificate := majority_secondCertificate hsigned'
  refine ⟨g, reached, hmajority, hlocked, ?_⟩
  have hnames : ∀ (c : Certificate) (key : BlockKey), minority.Majority g c →
      c.statement = ⟨0, .block key.1 key.2⟩ → key = Turn.soloBlock.key :=
    fun _ _ certified block => key_of_minority hsigned hsigned' certified block
  exact lock_safety reached minority_few hnames hlocked hmajority rfl (by decide)

end System

end EpochConsensus
