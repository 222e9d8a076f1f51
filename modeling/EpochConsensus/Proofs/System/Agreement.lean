import EpochConsensus.Proofs.System.Steps

/-! # Agreement in one epoch

Two majorities have a process in common, and an honest process signs at most one block statement of
an epoch.  So two certificates of one epoch for different blocks show a faulty process that signed
both; without faulty processes all that lock or decide in an epoch do so on the block that its
proposer signed (`agreement`).
-/
namespace EpochConsensus

/-- What is counted at most once is equal. -/
theorem eq_of_countP_le_one {α : Type} {l : List α} {f : α → Bool} (h : l.countP f ≤ 1) {a b : α}
    (ha : a ∈ l) (hb : b ∈ l) (hfa : f a = true) (hfb : f b = true) : a = b := by
  rw [List.countP_eq_length_filter] at h
  have ha' : a ∈ l.filter f := List.mem_filter.mpr ⟨ha, hfa⟩
  have hb' : b ∈ l.filter f := List.mem_filter.mpr ⟨hb, hfb⟩
  -- at most one element is left to be `a` and `b`
  match hl : l.filter f, h with
  | [], _ =>
    rw [hl] at ha'
    cases ha'
  | [x], _ =>
    rw [hl, List.mem_singleton] at ha' hb'
    rw [ha', hb']

/-- An honest replica signs one block statement of an epoch. -/
theorem Turn.Orderly.statement_unique {τ : Type} {p : Host (Chain × τ)}
    {heard : Endorsement → Prop} {services : Services τ} {t : Turn τ}
    (h : t.Orderly p heard services) {s s' : Statement}
    (hs : s ∈ History.blockStatements p.id t.records)
    (hs' : s' ∈ History.blockStatements p.id t.records) (epoch : s.epoch = s'.epoch) : s = s' :=
  eq_of_countP_le_one (h.signedOnce s'.epoch) hs hs' (by simpa using epoch) (by simp)

namespace System

variable {τ κ : Type} {S : System τ κ} {g : S.State}

/-! ### Majorities -/

/-- Two majorities among `n` processes have a process in common. -/
theorem exists_common {n : Nat} {Q Q' : Finset ProcessId} (hQ : n / 2 < Q.card)
    (hQ' : n / 2 < Q'.card) (bounded : ∀ q ∈ Q ∪ Q', q.toNat < n) : ∃ q ∈ Q, q ∈ Q' := by
  have hunion : (Q ∪ Q').card ≤ n := by
    have hle := Finset.card_le_card_of_injOn (s := Q ∪ Q') (t := Finset.range n) UInt16.toNat
      (fun q hq => Finset.mem_coe.mpr (Finset.mem_range.mpr (bounded q hq)))
      (fun q _ r _ h => UInt16.toNat_inj.mp h)
    rwa [Finset.card_range] at hle
  have hsum := Finset.card_union_add_card_inter Q Q'
  have hpos : 0 < (Q ∩ Q').card := by omega
  obtain ⟨q, hq⟩ := Finset.card_pos.mp hpos
  exact ⟨q, (Finset.mem_inter.mp hq).1, (Finset.mem_inter.mp hq).2⟩

/-- A quorum of genuine signatures is a majority. -/
theorem majority_of_hasQuorum {c : Certificate} (quorum : c.hasQuorum S.count = true)
    (genuine : c.CarriesOnly (S.Genuine g)) : S.Majority g c := by
  refine ⟨c.signatures.processes.toFinset, ?_, ?_⟩
  · rw [List.toFinset_card_of_nodup c.signatures.nodup_processes, Roster.length_processes]
    exact of_decide_eq_true quorum
  · intro q hq
    obtain ⟨entry, hentry, rfl⟩ := List.mem_map.mp (List.mem_toFinset.mp hq)
    have hmem : (⟨entry.1, c.statement, entry.2⟩ : Endorsement) ∈ c.endorsements :=
      List.mem_map.mpr ⟨entry, hentry, rfl⟩
    exact ⟨entry.2, hmem, genuine _ hmem⟩

/-! ### What honest processes have signed -/

/-- The host id of an honest process is its own. -/
theorem Honest.host_id {q : ProcessId} (honest : S.Honest q) :
    ((S.replica q).host (S.services q)).id = q :=
  (Replica.fresh_create (S.created q honest.1 honest.2).1).own

theorem Honest.host_count {q : ProcessId} (honest : S.Honest q) :
    ((S.replica q).host (S.services q)).count = S.count :=
  (Replica.fresh_create (S.created q honest.1 honest.2).1).size

theorem Honest.host_proposer {q : ProcessId} (honest : S.Honest q) :
    ((S.replica q).host (S.services q)).proposer = rotation S.count := by
  show rotation (S.replica q).count = _
  rw [(Replica.fresh_create (S.created q honest.1 honest.2).1).size]

/-- A genuine block signature of an honest process is on record there. -/
theorem Genuine.on_record {e : Endorsement} (h : S.Genuine g e) (honest : e.signer ∉ S.faulty)
    (block : e.statement.isBlock = true) :
    e.statement ∈ History.blockStatements e.signer (g e.signer).turn.records := by
  obtain ⟨decided, x, s, hx, hs, hbytes⟩ := h.2 honest
  obtain rfl := Statement.payload_injective hbytes
  refine List.mem_filterMap.mpr ⟨_, hx, ?_⟩
  exact Option.filter_eq_some_iff.mpr ⟨hs, block⟩

/-- An honest process signs one block statement of an epoch. -/
theorem Reachable.statement_unique (reached : S.Reachable g) {q : ProcessId}
    (honest : S.Honest q) {s s' : Statement}
    (hs : s ∈ History.blockStatements q (g q).turn.records)
    (hs' : s' ∈ History.blockStatements q (g q).turn.records) (epoch : s.epoch = s'.epoch) :
    s = s' := by
  have horderly := reached.orderly honest
  have hid := honest.host_id
  refine horderly.statement_unique ?_ ?_ epoch
  · rwa [hid]
  · rwa [hid]

/-- A process that supports two certificates of one epoch on different blocks is faulty. -/
theorem Reachable.faulty_of_supports (reached : S.Reachable g) {q : ProcessId}
    {c c' : Certificate} (h : S.Supports g q c) (h' : S.Supports g q c')
    (block : c.statement.isBlock = true) (block' : c'.statement.isBlock = true)
    (epoch : c.statement.epoch = c'.statement.epoch) (differ : c.statement ≠ c'.statement) :
    q ∈ S.faulty := by
  obtain ⟨signature, -, hgenuine⟩ := h
  obtain ⟨signature', -, hgenuine'⟩ := h'
  by_contra hfaulty
  have honest : S.Honest q := ⟨hgenuine.lt_count, hfaulty⟩
  exact differ (reached.statement_unique honest (hgenuine.on_record hfaulty block)
    (hgenuine'.on_record hfaulty block') epoch)

/-! ### What the proposer has signed -/

/-- The proposer of the statement's epoch is a process that has signed the statement, unless it is
faulty. -/
def ProposerSigned (S : System τ κ) (g : S.State) (s : Statement) : Prop :=
  ∃ r, rotation S.count s.epoch = .ok r ∧ r.toNat < S.count ∧
    (r ∉ S.faulty → s ∈ History.blockStatements r (g r).turn.records)

/-- What an honest epoch has recorded as proposed was signed by the proposer. -/
theorem proposerSigned_of_recorded {q : ProcessId} (honest : S.Honest q) {start : Carried}
    {m : Machine} (hm : ((S.replica q).host (S.services q)).Faithful (S.Genuine g) start m)
    {proposal : Proposal} (recorded : proposal ∈ m.proposals.toList) :
    S.ProposerSigned g ⟨m.epoch, .block proposal.block.height proposal.block.id⟩ := by
  obtain ⟨hepoch, hvalid, hgenuine⟩ := hm.sound.proposals proposal recorded
  have hturn := (Host.isValid_eq_true hvalid).1
  rw [honest.host_proposer, hepoch] at hturn
  have hsigned := hgenuine _ List.mem_cons_self
  refine ⟨proposal.sender, hturn, hsigned.lt_count, fun hfaulty => ?_⟩
  have hrecord := hsigned.on_record hfaulty rfl
  rwa [← hepoch]

/-- A process that has signed a block statement has done so as the proposer, or has voted for a
recorded proposal. -/
theorem Reachable.proposerSigned (reached : S.Reachable g) {q : ProcessId}
    (honest : S.Honest q) {s : Statement}
    (hs : s ∈ History.blockStatements q (g q).turn.records) : S.ProposerSigned g s := by
  have horderly := reached.orderly honest
  obtain ⟨record, hrecord, hsigned⟩ := List.mem_filterMap.mp hs
  cases record with
  | started => cases hsigned
  | acted decided x =>
    rw [← honest.host_id] at hsigned
    obtain ⟨m, start, -, hfaithful, -, hsigns⟩ :=
      (horderly.accounted decided x hrecord).signs hsigned
    cases hsigns with
    | propose phase turn next =>
      rw [honest.host_proposer, honest.host_id] at turn
      exact ⟨q, turn, honest.1, fun _ => hs⟩
    | vote votable =>
      exact proposerSigned_of_recorded honest hfaithful (m.proposals.mem_single? votable.single)

/-- With a minority of faulty processes a majority contains an honest one. -/
theorem Majority.exists_honest {c : Certificate} (h : S.Majority g c)
    (few : S.faulty.card ≤ S.count / 2) : ∃ q, S.Honest q ∧ S.Supports g q c := by
  obtain ⟨Q, hcard, hsupports⟩ := h
  obtain ⟨q, hq, hfaulty⟩ := Finset.exists_mem_notMem_of_card_lt_card
    (Nat.lt_of_le_of_lt few hcard)
  obtain ⟨signature, hmem, hgenuine⟩ := hsupports q hq
  exact ⟨q, ⟨hgenuine.lt_count, hfaulty⟩, signature, hmem, hgenuine⟩

/-- So the proposer of its epoch has signed what it names. -/
theorem Reachable.proposerSigned_of_majority (reached : S.Reachable g) {c : Certificate}
    (h : S.Majority g c) (block : c.statement.isBlock = true)
    (few : S.faulty.card ≤ S.count / 2) : S.ProposerSigned g c.statement := by
  obtain ⟨q, honest, signature, -, hgenuine⟩ := h.exists_honest few
  exact reached.proposerSigned honest (hgenuine.on_record honest.2 block)

/-- An honest proposer signs one block. -/
theorem ProposerSigned.unique (reached : S.Reachable g) {s s' : Statement}
    (hs : S.ProposerSigned g s) (hs' : S.ProposerSigned g s') (epoch : s.epoch = s'.epoch)
    (honest : ∀ r, rotation S.count s.epoch = .ok r → r ∉ S.faulty) : s = s' := by
  obtain ⟨r, hr, hmember, hsigned⟩ := hs
  obtain ⟨r', hr', -, hsigned'⟩ := hs'
  rw [← epoch, hr] at hr'
  obtain rfl : r = r' := Except.ok.inj hr'
  have hr := honest r hr
  exact reached.statement_unique ⟨hmember, hr⟩ (hsigned hr) (hsigned' hr) epoch

/-! ### Locks and decisions -/

/-- The process locks or decides this block in the epoch. -/
inductive Settles (S : System τ κ) (g : S.State) (q : ProcessId) (e : Epoch) : BlockKey → Prop
  /-- The epoch acts while it holds a lock of its own, as it does when it takes the lock. -/
  | lock {decided : Option Epoch} {x : Moment (Chain × τ)} {m : Machine} {c : Certificate}
      {key : BlockKey} (acted : Record.acted decided x ∈ (g q).turn.records)
      (machine : x.machine = some m) (epoch : m.epoch = e) (locked : m.locked = some c)
      (names : c.statement = ⟨e, .block key.1 key.2⟩) : Settles S g q e key
  | decide {decided : Option Epoch} {x : Moment (Chain × τ)} {b : Block}
      (acted : Record.acted decided x ∈ (g q).turn.records)
      (effect : x.effect = .decide e b) : Settles S g q e b.key

/-- What an honest process locks or decides was signed by the proposer of the epoch. -/
theorem Settles.proposerSigned (reached : S.Reachable g) {q : ProcessId} (honest : S.Honest q)
    (few : S.faulty.card ≤ S.count / 2) {e : Epoch} {key : BlockKey}
    (h : S.Settles g q e key) : S.ProposerSigned g ⟨e, .block key.1 key.2⟩ := by
  have horderly := reached.orderly honest
  cases h with
  | @lock decided x m c _ acted machine epoch locked names =>
    obtain ⟨-, -, start, started, hfaithful⟩ :=
      (horderly.accounted decided x acted).act m machine
    have hinherits := (horderly.consecutive.starts _ _ started).2
    have hown : c.epoch = m.epoch := by
      rw [epoch]
      exact congrArg Statement.epoch names
    -- a lock of the epoch itself is certified in it by a majority, of which one is honest
    have hcertifies := hfaithful.holding.handover.certifies hinherits locked hown
    have hquorum := hcertifies.quorum
    rw [honest.host_count] at hquorum
    rw [← names]
    refine reached.proposerSigned_of_majority (majority_of_hasQuorum hquorum hcertifies.heard)
      ?_ few
    rw [names]
    rfl
  | @decide decided x b acted effect =>
    have haccounted := horderly.accounted decided x acted
    cases hm : x.machine with
    | none =>
      have hquestion := haccounted.question hm
      rw [effect] at hquestion
      exact hquestion.elim
    | some m =>
      obtain ⟨hact, -, start, -, hfaithful⟩ := haccounted.act m hm
      rw [effect] at hact
      cases hact with
      | decide recorded => exact proposerSigned_of_recorded honest hfaithful recorded

/-- A statement names one block. -/
theorem key_of_statement_eq {e e' : Epoch} (key key' : BlockKey)
    (h : (⟨e, .block key.1 key.2⟩ : Statement) = ⟨e', .block key'.1 key'.2⟩) : key = key' := by
  injection h with _ hsubject
  injection hsubject with hheight hid
  exact Prod.ext hheight hid

/-- **Accountability and agreement.**  Two certificates of one epoch that hold genuine signatures of
majorities for different blocks show a faulty process that has signed both.  Where no process is
faulty, all that lock or decide in an epoch do so on one block. -/
theorem agreement (reached : S.Reachable g) :
    (∀ (e : Epoch) (key key' : BlockKey) (c c' : Certificate),
        c.statement = ⟨e, .block key.1 key.2⟩ → c'.statement = ⟨e, .block key'.1 key'.2⟩ →
        key ≠ key' → S.Majority g c → S.Majority g c' →
        ∃ q, q.toNat < S.count ∧ q ∈ S.faulty ∧ S.Supports g q c ∧ S.Supports g q c') ∧
      (S.faulty = ∅ → ∀ (e : Epoch) (key key' : BlockKey) (q q' : ProcessId),
        q.toNat < S.count → q'.toNat < S.count → S.Settles g q e key → S.Settles g q' e key' →
        key = key') := by
  constructor
  · intro e key key' c c' hc hc' hne ⟨Q, hcard, hQ⟩ ⟨Q', hcard', hQ'⟩
    have hbounded : ∀ q ∈ Q ∪ Q', q.toNat < S.count := by
      intro q hq
      rcases Finset.mem_union.mp hq with hq | hq
      · obtain ⟨signature, -, hgenuine⟩ := hQ q hq
        exact hgenuine.lt_count
      · obtain ⟨signature, -, hgenuine⟩ := hQ' q hq
        exact hgenuine.lt_count
    obtain ⟨q, hq, hq'⟩ := exists_common hcard hcard' hbounded
    refine ⟨q, hbounded q (Finset.mem_union_left _ hq), ?_, hQ q hq, hQ' q hq'⟩
    apply reached.faulty_of_supports (hQ q hq) (hQ' q hq')
    · rw [hc]
      rfl
    · rw [hc']
      rfl
    · rw [hc, hc']
    · rw [hc, hc']
      exact fun heq => hne (key_of_statement_eq key key' heq)
  · intro all e key key' q q' hq hq' h h'
    have hempty : ∀ r, r ∉ S.faulty := fun r => all ▸ Finset.notMem_empty r
    have few : S.faulty.card ≤ S.count / 2 := by simp [all]
    have hsigned := h.proposerSigned reached ⟨hq, hempty q⟩ few
    have hsigned' := h'.proposerSigned reached ⟨hq', hempty q'⟩ few
    exact key_of_statement_eq key key' (hsigned.unique reached hsigned' rfl fun r _ => hempty r)

/-! ### Two faulty processes of three, and an honest one alone -/

/-- The second and the third of three processes are faulty. -/
def trio : System Unit Unit := uniform 3 (by decide) {1, 2}

/-- Both of them have signed this block. -/
def faultyCertificate (id : BlockId) : Certificate :=
  ((Certificate.block 0 0 id).add 1 ⟨.fill 64 1⟩).add 2 ⟨.fill 64 1⟩

theorem supports_faultyCertificate (id : BlockId) {q : ProcessId} (hq : q ∈ trio.faulty) :
    trio.Supports trio.initial q (faultyCertificate id) := by
  have hcases : q = 1 ∨ q = 2 := by simpa [trio, uniform] using hq
  rcases hcases with rfl | rfl
  · exact ⟨⟨.fill 64 1⟩, List.mem_cons_self, ⟨(), rfl, rfl⟩, fun h => absurd hq h⟩
  · exact ⟨⟨.fill 64 1⟩, List.mem_cons_of_mem _ List.mem_cons_self, ⟨(), rfl, rfl⟩,
      fun h => absurd hq h⟩

theorem majority_faultyCertificate (id : BlockId) :
    trio.Majority trio.initial (faultyCertificate id) :=
  ⟨trio.faulty, by decide, fun _ hq => supports_faultyCertificate id hq⟩

/-- After its first vote the process alone has locked its first block. -/
theorem solo_settles {g : solo.State}
    (h : (Turn.start Turn.soloReplica ()).run Turn.soloServices soloCalls = .ok (g 0).turn) :
    solo.Settles g 0 0 Turn.soloBlock.key := by
  obtain ⟨t, ht, hlock⟩ : ∃ t, (Turn.start Turn.soloReplica ()).run Turn.soloServices soloCalls =
      .ok t ∧ t.records.any (fun
        | .acted _ x => x.machine.any fun m =>
          m.epoch = 0 && m.locked.any (·.statement = soloVote.statement)
        | .started _ _ => false) = true := exists_of_toOption (by decide +kernel)
  obtain rfl := Except.ok.inj (h.symm.trans ht)
  obtain ⟨record, hrecord, hlock⟩ := List.any_eq_true.mp hlock
  cases record with
  | started => cases hlock
  | acted decided x =>
    obtain ⟨m, hm, hlock⟩ := (Option.any_eq_true _ _).mp hlock
    obtain ⟨hepoch, hlock⟩ := Bool.and_eq_true_iff.mp hlock
    obtain ⟨c, hc, hnames⟩ := (Option.any_eq_true _ _).mp hlock
    exact .lock hrecord hm (of_decide_eq_true hepoch) hc (of_decide_eq_true hnames)

/-- Of three processes the two faulty ones are shown by the certificates of two blocks; the process
alone locks nothing but its block. -/
theorem agreement_trio_solo :
    (∃ q ∈ trio.faulty, trio.Supports trio.initial q (faultyCertificate ⟨.fill 32 1⟩) ∧
        trio.Supports trio.initial q (faultyCertificate ⟨.fill 32 2⟩)) ∧
      ∃ g, solo.Reachable g ∧ solo.Settles g 0 0 Turn.soloBlock.key ∧
        ∀ key, solo.Settles g 0 0 key → key = Turn.soloBlock.key := by
  constructor
  · obtain ⟨q, -, hfaulty, hfirst, hsecond⟩ := (agreement (S := trio) .refl).1 0
      (0, ⟨.fill 32 1⟩) (0, ⟨.fill 32 2⟩) (faultyCertificate ⟨.fill 32 1⟩)
      (faultyCertificate ⟨.fill 32 2⟩) rfl rfl (by decide) (majority_faultyCertificate _)
      (majority_faultyCertificate _)
    exact ⟨q, hfaulty, hfirst, hsecond⟩
  · obtain ⟨g, reached, hran⟩ := solo_reached
    have hsettles := solo_settles hran
    refine ⟨g, reached, hsettles, fun key hkey => ?_⟩
    exact (agreement reached).2 rfl 0 key Turn.soloBlock.key 0 0 (by decide) (by decide) hkey
      hsettles

end System

end EpochConsensus
