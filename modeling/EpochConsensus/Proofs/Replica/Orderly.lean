import EpochConsensus.Proofs.Replica.History

/-! # The epochs of an honest replica

An honest replica starts its epochs one after the other, each with what the one before handed over,
and each of them once; what acts is always a started and undecided epoch, and together with the vote
that it still may give it signs at most one block statement.  `Orderly` says this of a replica in
the middle of a call, and every move keeps it (`Move.orderly`).
-/
namespace EpochConsensus

namespace Turn

variable {τ : Type} (p : Host (Chain × τ)) (heard : Endorsement → Prop)

open History

/-- Where an epoch in the window stands. -/
inductive Standing (records : History τ) (w : Window) (m : Machine) : Prop
  | waiting (h : p.Waiting heard m)
  | running {start : Carried} (started : Started records m.epoch start)
      (h : p.Faithful heard start m)
      (signing : signedIn p.id records m.epoch + p.signaturesLeft m ≤ 1)
      (undecided : Window.upTo w.lastDecided ≤ m.epoch.toNat)
  | finished (h : m.phase = .finished) (old : m.epoch.toNat < Window.upTo w.lastEpoch)

/-- What every move keeps of an honest replica. -/
structure Orderly (services : Services τ) (t : Turn τ) : Prop where
  host : t.replica.host services = p
  model : t.replica.window.factory.model = .sync
  honest : t.replica.window.factory.policy.isHonest = true
  levelled : t.replica.chain.Levelled
  placed : t.replica.window.Placed
  decided : Window.upTo t.replica.window.lastDecided ≤ Window.upTo t.replica.window.lastEpoch
  standing : ∀ inst, t.replica.window.Holds inst →
    ∃ m, inst = .consensus m ∧ Standing p heard t.records t.replica.window m
  consecutive : Consecutive p heard (Window.upTo t.replica.window.lastEpoch) t.records
  accounted : ∀ decided x, Record.acted decided x ∈ t.records →
    Accounted p heard t.records decided x
  signedOnce : ∀ e, signedIn p.id t.records e ≤ 1
  deferred : ∀ c ∈ t.replica.deferred,
    ∃ e, t.replica.window.lastEpoch = some e ∧ HandsOver p heard t.records e c
  finished : ∀ e valid locked, Outcome.finished e valid locked ∈ t.outcomes →
    HandsOver p heard t.records e ⟨valid, locked⟩
  agreed : ∀ e b, Outcome.decided e b ∈ t.outcomes → ∃ c, Started t.records e c

variable {p heard} {services : Services τ} {t t' : Turn τ}

theorem Standing.mono {records records' : History τ} {w w' : Window} {m : Machine}
    (h : Standing p heard records w m) (knows : ∀ e c, Started records e c → Started records' e c)
    (signed : signedIn p.id records' m.epoch = signedIn p.id records m.epoch)
    (decided : w'.lastDecided = w.lastDecided)
    (last : Window.upTo w.lastEpoch ≤ Window.upTo w'.lastEpoch) :
    Standing p heard records' w' m := by
  cases h with
  | waiting h => exact .waiting h
  | running started h signing undecided =>
    refine .running (knows _ _ started) h ?_ ?_
    · rw [signed]
      exact signing
    · rw [decided]
      exact undecided
  | finished h old => exact .finished h (by omega)

/-- An epoch in the window is sound, unless it is finished. -/
theorem Standing.sound_or_finished {records : History τ} {w : Window} {m : Machine}
    (h : Standing p heard records w m) : p.Sound heard m ∨ m.phase = .finished := by
  cases h with
  | waiting h => exact .inl h.sound
  | running started h => exact .inl h.sound
  | finished h => exact .inr h

/-- An epoch that was not started has signed nothing. -/
theorem Orderly.signedIn_eq_zero (h : t.Orderly p heard services) {e : Epoch}
    (new : Window.upTo t.replica.window.lastEpoch ≤ e.toNat) : signedIn p.id t.records e = 0 := by
  unfold signedIn
  rw [List.countP_eq_zero]
  intro s hs hepoch
  obtain rfl : s.epoch = e := of_decide_eq_true hepoch
  obtain ⟨record, hrecord, hsigned⟩ := List.mem_filterMap.mp hs
  cases record with
  | started => cases hsigned
  | acted decided x =>
    obtain ⟨-, start, started⟩ := (h.accounted decided x hrecord).started_of_signed hsigned
    have hbound := (h.consecutive.starts _ _ started).1
    omega

/-- Outcomes may be dropped. -/
theorem Orderly.drop (h : t.Orderly p heard services) {rest : List Outcome}
    (hrest : rest ⊆ t.outcomes) :
    ({ t with outcomes := rest } : Turn τ).Orderly p heard services :=
  { h with
    finished := fun e valid locked ho => h.finished e valid locked (hrest ho)
    agreed := fun e b ho => h.agreed e b (hrest ho) }

/-! ### One epoch acts -/

theorem context_absorb (t : Turn τ) (w : Window) :
    t.absorb services w t.context = { t with replica.window := w } := by
  simp [absorb, context, Context.start, Context.effects]

/-- An epoch that does nothing may be put into its slot. -/
theorem Orderly.put (h : t.Orderly p heard services) {m : Machine} {w : Window}
    (hm : Standing p heard t.records t.replica.window m)
    (kept : t.replica.window.put (.consensus m) = .ok w) :
    ({ t with replica.window := w } : Turn τ).Orderly p heard services := by
  have hplaced := h.placed.put kept
  have hstanding : ∀ inst, w.Holds inst →
      ∃ m, inst = .consensus m ∧ Standing p heard t.records t.replica.window m := by
    intro inst hinst
    rcases Window.holds_put h.placed kept hinst with rfl | ⟨hold, -⟩
    · exact ⟨m, rfl, hm⟩
    · exact h.standing inst hold
  obtain ⟨_, -, rfl⟩ := Window.put_eq kept
  refine { h with placed := hplaced, standing := ?_ }
  intro inst hinst
  obtain ⟨m, rfl, hm⟩ := hstanding inst hinst
  exact ⟨m, rfl, hm.mono (fun _ _ h => h) rfl rfl (Nat.le_refl _)⟩

/-- What an epoch leaves to be settled is a decision of its own, or what it hands over. -/
theorem outcome_cases {w : Chain × τ} {start : Carried} {m : Machine} {k : Nat}
    {s' : Step (Chain × τ)} (served : p.Served heard w start m k s') {o : Outcome}
    (ho : o ∈ s'.effects.toList.filterMap Outcome.ofEffect?) :
    (∃ b, o = .decided m.epoch b) ∨
      ∃ valid locked, o = .finished m.epoch valid locked ∧
        p.Handover heard start m.epoch ⟨valid, locked⟩ := by
  obtain ⟨e, he, ho⟩ := List.mem_filterMap.mp ho
  obtain ⟨x, hx, rfl⟩ : ∃ x ∈ s'.moments, x.effect = e := by
    simpa [Context.effects] using he
  cases served.logged.moments x hx with
  | @question effect world evolved hq => cases effect <;> first | exact hq.elim | cases ho
  | @act effect world m' evolved hm hact =>
    obtain ⟨hfaithful, hepoch⟩ := hm
    cases hact with
    | decide recorded =>
      cases ho
      exact .inl ⟨_, by rw [hepoch]⟩
    | finish =>
      cases ho
      have hhandover := hfaithful.holding.handover
      rw [hepoch] at hhandover
      exact .inr ⟨_, _, by rw [hepoch], hhandover⟩
    | _ => cases ho

/-- **A call that serves a started and undecided epoch keeps the replica in order.** -/
theorem Orderly.absorb (h : t.Orderly p heard services) {start : Carried} {m : Machine} {k : Nat}
    {s' : Step (Chain × τ)} {w : Window} (started : Started t.records m.epoch start)
    (undecided : Window.upTo t.replica.window.lastDecided ≤ m.epoch.toNat)
    (served : p.Served heard (t.replica.chain, t.world) start m k s')
    (signing : signedIn p.id t.records m.epoch + k ≤ 1)
    (kept : t.replica.window.put (.consensus s'.machine) = .ok w) :
    (t.absorb services w s'.toContext).Orderly p heard services := by
  have hrecords : (t.absorb services w s'.toContext).records =
      t.records ++ ofContext t.replica.window.lastDecided s'.toContext := rfl
  have hknows : ∀ e c, Started t.records e c →
      Started (t.records ++ ofContext t.replica.window.lastDecided s'.toContext) e c :=
    fun e c hc => started_append.mpr hc
  have hlevelled : ∀ world : Chain × τ, p.Evolves (t.replica.chain, t.world) world →
      world.1.Levelled := by
    intro world hevolves
    rw [← h.host] at hevolves
    exact (t.replica.levelled_of_evolves services hevolves h.levelled).1
  have hsigned : ∀ e, e ≠ m.epoch →
      signedIn p.id (t.records ++ ofContext t.replica.window.lastDecided s'.toContext) e =
        signedIn p.id t.records e := by
    intro e hne
    rw [signedIn_append, signedIn_ofContext_of_ne served _ hne, Nat.add_zero]
  have hown := signedIn_ofContext_add_le served t.replica.window.lastDecided signing
  have hplaced := h.placed.put kept
  -- the other slots hold other epochs, for which nothing was signed
  have hheld : ∀ inst, w.Holds inst → inst = .consensus s'.machine ∨
      t.replica.window.Holds inst ∧ inst.epoch ≠ m.epoch := by
    intro inst hinst
    have hcases := Window.holds_put h.placed kept hinst
    have hepoch : Instance.epoch (.consensus s'.machine) = m.epoch := served.epoch
    rwa [hepoch] at hcases
  obtain ⟨_, -, rfl⟩ := Window.put_eq kept
  refine ⟨h.host, h.model, h.honest, hlevelled _ served.logged.world, hplaced, h.decided,
    ?_, ?_, ?_, ?_, ?_, ?_, ?_⟩
  · -- standing
    intro inst hinst
    rw [hrecords]
    rcases hheld inst hinst with rfl | ⟨hold, hne⟩
    · have hstarted : Started (t.records ++ ofContext t.replica.window.lastDecided s'.toContext)
          s'.machine.epoch start := by
        rw [served.epoch]
        exact hknows _ _ started
      refine ⟨_, rfl, .running hstarted served.faithful ?_ ?_⟩
      · rw [served.epoch]
        exact hown
      · rw [served.epoch]
        exact undecided
    · obtain ⟨m', rfl, hm'⟩ := h.standing inst hold
      exact ⟨m', rfl, hm'.mono hknows (hsigned _ hne) rfl (Nat.le_refl _)⟩
  · -- consecutive
    exact h.consecutive.append _ _
  · -- accounted
    intro decided x hx
    rw [hrecords] at hx ⊢
    rcases List.mem_append.mp hx with hold | hnew
    · exact (h.accounted decided x hold).mono hknows
    · obtain ⟨y, hy, heq⟩ := List.mem_map.mp hnew
      obtain ⟨rfl, rfl⟩ : t.replica.window.lastDecided = decided ∧ y = x := by
        simpa using heq
      exact accounted_ofContext served hlevelled (hknows _ _ started) undecided (by simpa using hy)
  · -- signedOnce
    intro e
    rw [hrecords]
    by_cases he : e = m.epoch
    · subst he
      omega
    · rw [hsigned e he]
      exact h.signedOnce e
  · -- deferred
    intro c hc
    obtain ⟨e, hlast, hover⟩ := h.deferred c hc
    exact ⟨e, hlast, hover.mono hknows⟩
  · -- finished
    intro e valid locked ho
    rcases List.mem_append.mp ho with hold | hnew
    · exact (h.finished e valid locked hold).mono hknows
    · rcases outcome_cases served hnew with ⟨b, heq⟩ | ⟨_, _, heq, hhandover⟩
      · cases heq
      · cases heq
        exact ⟨start, hknows _ _ started, hhandover⟩
  · -- agreed
    intro e b ho
    rcases List.mem_append.mp ho with hold | hnew
    · obtain ⟨c, hc⟩ := h.agreed e b hold
      exact ⟨c, hknows _ _ hc⟩
    · rcases outcome_cases served hnew with ⟨_, heq⟩ | ⟨_, _, heq, -⟩
      · cases heq
        exact ⟨start, hknows _ _ started⟩
      · cases heq

/-! ### The next epoch -/

/-- What is due is the first start, or what the last epoch hands over. -/
theorem Due.cases_carried {carried : Carried} {rest : List Outcome} (due : t.Due carried rest)
    (h : t.Orderly p heard services) :
    rest <:+ t.outcomes ∧ ((t.replica.window.lastEpoch = none ∧ carried = ⟨none, none⟩) ∨
      ∃ d, t.replica.window.lastEpoch = some d ∧ HandsOver p heard t.records d carried) := by
  cases due with
  | first new => exact ⟨List.suffix_refl _, .inl ⟨new, rfl⟩⟩
  | @next d carried rest outcome last free =>
    refine ⟨outcome ▸ List.suffix_cons _ _, .inr ⟨d, last, ?_⟩⟩
    exact h.finished d carried.valid carried.locked (outcome ▸ List.mem_cons_self)
  | resumed waits => exact ⟨List.suffix_refl _, .inr (h.deferred _ waits)⟩

/-- The next epoch may be started with what is due, and every epoch before it was started with
certificates that rank no higher. -/
theorem Orderly.inherits (h : t.Orderly p heard services) {carried : Carried}
    {rest : List Outcome} (due : t.Due carried rest) {e : Epoch}
    (next : t.replica.window.nextEpoch = .ok e) :
    p.Inherits heard e carried ∧ ∀ d < e, ∃ c, Started t.records d c ∧ carried.RanksAtLeast c := by
  have hnext := Window.toNat_nextEpoch next
  rcases (due.cases_carried h).2 with ⟨hlast, rfl⟩ | ⟨d₀, hlast, start, started, hhandover⟩
  · rw [hlast] at hnext
    refine ⟨⟨by simp, by simp, rfl⟩, ?_⟩
    intro d hd
    rw [UInt64.lt_iff_toNat_lt, hnext] at hd
    exact absurd hd (Nat.not_lt_zero _)
  · rw [hlast] at hnext
    have hnext : e.toNat = d₀.toNat + 1 := hnext
    have hlt : d₀ < e := by
      rw [UInt64.lt_iff_toNat_lt]
      omega
    obtain ⟨hinherits, hranks⟩ := hhandover.inherits (h.consecutive.starts d₀ start started).2 hlt
    refine ⟨hinherits, ?_⟩
    intro d hd
    -- below the next epoch there are the last one and those before it
    have hle : d ≤ d₀ := by
      rw [UInt64.lt_iff_toNat_lt] at hd
      rw [UInt64.le_iff_toNat_le]
      omega
    obtain ⟨c, hc, hranks'⟩ := h.consecutive.earlier d₀ start started d hle
    exact ⟨c, hc, hranks.trans hranks'⟩

/-- The number of the next epoch may be used up. -/
theorem Orderly.advanced (h : t.Orderly p heard services) {carried : Carried}
    {rest : List Outcome} (due : t.Due carried rest) {e : Epoch}
    (next : t.replica.window.nextEpoch = .ok e) :
    ((t.settled rest).advanced e).Orderly p heard services := by
  have hnext := Window.toNat_nextEpoch next
  have hlast : Window.upTo t.replica.window.lastEpoch ≤ Window.upTo (some e) := by
    show _ ≤ e.toNat + 1
    omega
  have hrest := (due.cases_carried h).1
  refine { h.drop hrest.subset with
    decided := Nat.le_trans h.decided hlast, standing := ?_
    consecutive := h.consecutive.mono hlast, deferred := ?_ }
  · intro inst hinst
    obtain ⟨m, rfl, hm⟩ := h.standing inst hinst
    exact ⟨m, rfl, hm.mono (fun _ _ h => h) rfl rfl hlast⟩
  · intro c hc
    cases hc

/-- The turn with the start of an epoch on record. -/
def recordStart (t : Turn τ) (e : Epoch) (c : Carried) : Turn τ :=
  { t with records := t.records ++ [Record.started e c] }

theorem started_recordStart {d e : Epoch} {c c' : Carried} :
    Started (t.recordStart e c).records d c' ↔ Started t.records d c' ∨ (d = e ∧ c' = c) := by
  simp [Started, recordStart]

/-- The next epoch may be put on record as started with what is due. -/
theorem Orderly.recordStart (h : t.Orderly p heard services) {carried : Carried}
    {rest : List Outcome} (due : t.Due carried rest) {e : Epoch}
    (next : t.replica.window.nextEpoch = .ok e) :
    (((t.settled rest).advanced e).recordStart e carried).Orderly p heard services := by
  have hadvanced := h.advanced due next
  have hnext := Window.toNat_nextEpoch next
  obtain ⟨hinherits, hbefore⟩ := h.inherits due next
  have hknows : ∀ d c, Started t.records d c →
      Started (((t.settled rest).advanced e).recordStart e carried).records d c :=
    fun d c hc => started_recordStart.mpr (.inl hc)
  have hsigned : ∀ d, signedIn p.id
      (((t.settled rest).advanced e).recordStart e carried).records d =
        signedIn p.id t.records d := by
    intro d
    show signedIn p.id (t.records ++ [Record.started e carried]) d = _
    rw [signedIn_append, signedIn_started, Nat.add_zero]
  have hconsecutive : Consecutive p heard e.toNat t.records := by
    rw [hnext]
    exact h.consecutive
  refine { hadvanced with
    standing := ?_, consecutive := hconsecutive.start hinherits hbefore, accounted := ?_
    signedOnce := ?_, deferred := ?_, finished := ?_, agreed := ?_ }
  · intro inst hinst
    obtain ⟨m, rfl, hm⟩ := hadvanced.standing inst hinst
    exact ⟨m, rfl, hm.mono hknows (hsigned _) rfl (Nat.le_refl _)⟩
  · intro decided x hx
    have hold : Record.acted decided x ∈ t.records := by
      rcases List.mem_append.mp hx with hold | hnew
      · exact hold
      · cases List.mem_singleton.mp hnew
    exact (h.accounted decided x hold).mono hknows
  · intro d
    rw [hsigned d]
    exact h.signedOnce d
  · intro c hc
    cases hc
  · exact fun d valid locked ho => (hadvanced.finished d valid locked ho).mono hknows
  · intro d b ho
    obtain ⟨c, hc⟩ := hadvanced.agreed d b ho
    exact ⟨c, hknows _ _ hc⟩

/-! ### Moves -/

/-- A new instance of an honest replica waits. -/
theorem Orderly.waiting_create (h : t.Orderly p heard services) (e : Epoch) :
    ∃ m, t.replica.window.factory.create e = .consensus m ∧ p.Waiting heard m := by
  have hsound : (t.replica.window.factory.create e).Sound p heard := Instance.sound_create _ _
  unfold Factory.create at hsound ⊢
  rw [h.model] at hsound ⊢
  exact ⟨_, rfl, rfl, h.honest, hsound⟩

/-- A message goes to an epoch in the window or to a new one. -/
theorem Orderly.standing_of_claim (h : t.Orderly p heard services) {e : Epoch} {inst : Instance}
    (claimed : t.replica.window.claim? e = .ok (some inst)) :
    ∃ m, inst = .consensus m ∧ Standing p heard t.records t.replica.window m := by
  rcases (Window.source_of_claim claimed).2 with hold | rfl
  · exact h.standing inst hold
  · obtain ⟨m, hm, hwaiting⟩ := h.waiting_create e
    exact ⟨m, hm, .waiting hwaiting⟩

/-- A message leaves the replica in order, whichever epoch it reaches. -/
theorem Orderly.receive (h : t.Orderly p heard services) {e : Epoch} {inst inst' : Instance}
    {x : Message} {c : Context (Chain × τ)} {w : Window}
    (claimed : t.replica.window.claim? e = .ok (some inst)) (admitted : x.CarriesOnly heard)
    (done : inst.receive (t.replica.host services) x t.context = .ok (inst', c))
    (kept : t.replica.window.put inst' = .ok w) :
    (t.absorb services w c).Orderly p heard services := by
  rw [h.host] at done
  obtain ⟨m, rfl, hm⟩ := h.standing_of_claim claimed
  obtain ⟨s', hs', rfl, rfl⟩ := Instance.ofStep_eq_ok done
  cases hm with
  | waiting hwaiting =>
    obtain ⟨hwaiting', -, hcontext⟩ := hwaiting.receive admitted hs'
    rw [hcontext, context_absorb]
    exact h.put (.waiting hwaiting') kept
  | running started hfaithful signing undecided =>
    exact h.absorb started undecided (Host.receive_served hfaithful admitted hs') signing kept
  | finished hphase old =>
    obtain rfl := Host.receive_finished (s := ⟨t.context, m⟩) hphase hs'
    rw [context_absorb]
    exact h.put (.finished hphase old) kept

/-- So does a timeout. -/
theorem Orderly.expire (h : t.Orderly p heard services) {e : Epoch} {inst inst' : Instance}
    {timeout : Timeout} {c : Context (Chain × τ)} {w : Window}
    (found : t.replica.window.instance? e = .ok (some inst))
    (done : inst.expire (t.replica.host services) timeout t.context = .ok (inst', c))
    (kept : t.replica.window.put inst' = .ok w) :
    (t.absorb services w c).Orderly p heard services := by
  rw [h.host] at done
  obtain ⟨m, rfl, hm⟩ := h.standing inst (Window.instance_cases found).1
  obtain ⟨s', hs', rfl, rfl⟩ := Instance.ofStep_eq_ok done
  cases hm with
  | waiting hwaiting =>
    obtain rfl := Host.expire_idle (s := ⟨t.context, m⟩) (.inl hwaiting.inactive) hs'
    rw [context_absorb]
    exact h.put (.waiting hwaiting) kept
  | running started hfaithful signing undecided =>
    exact h.absorb started undecided (Host.expire_served hfaithful hs') signing kept
  | finished hphase old =>
    obtain rfl := Host.expire_idle (s := ⟨t.context, m⟩) (.inr hphase) hs'
    rw [context_absorb]
    exact h.put (.finished hphase old) kept

/-- So does a call that breaks off, whatever it did before. -/
theorem Orderly.breakOff (h : t.Orderly p heard services) {m : Machine}
    {s' : Step (Chain × τ)} {w : Window}
    (found : t.replica.window.instance? m.epoch = .ok (some (.consensus m)))
    (running : m.phase ≠ .inactive ∧ m.phase ≠ .finished)
    (part : (t.replica.host services).Moves heard ⟨t.context, m⟩ s')
    (kept : t.replica.window.put (.consensus s'.machine) = .ok w) :
    (t.absorb services w s'.toContext).Orderly p heard services := by
  rw [h.host] at part
  obtain ⟨m', heq, hm⟩ := h.standing _ (Window.instance_cases found).1
  obtain rfl := Instance.consensus.inj heq
  cases hm with
  | waiting hwaiting => exact absurd hwaiting.inactive running.1
  | running started hfaithful signing undecided =>
    exact h.absorb started undecided (Host.moves_served hfaithful part) signing kept
  | finished hphase old => exact absurd hphase running.2

/-- The instance of an epoch that was not started is new or waits. -/
theorem Orderly.waiting_next (h : t.Orderly p heard services) {e : Epoch} {inst : Instance}
    (next : t.replica.window.nextEpoch = .ok e)
    (found : t.replica.window.instance? e = .ok (some inst) ∨
      inst = t.replica.window.factory.create e) :
    ∃ m, inst = .consensus m ∧ m.epoch = e ∧ p.Waiting heard m := by
  have hnext := Window.toNat_nextEpoch next
  rcases found with hfound | rfl
  · obtain ⟨hheld, hepoch⟩ := Window.instance_cases hfound
    obtain ⟨m, rfl, hm⟩ := h.standing inst hheld
    have hepoch : m.epoch = e := hepoch
    refine ⟨m, rfl, hepoch, ?_⟩
    cases hm with
    | waiting hwaiting => exact hwaiting
    | running started =>
      have hbound := (h.consecutive.starts _ _ started).1
      rw [hepoch] at hbound
      omega
    | finished hphase old =>
      rw [hepoch] at old
      omega
  · obtain ⟨m, hm, hwaiting⟩ := h.waiting_create e
    refine ⟨m, hm, ?_, hwaiting⟩
    have hepoch := t.replica.window.factory.epoch_create e
    rw [hm] at hepoch
    exact hepoch

/-- All signatures in what is due were heard. -/
theorem Orderly.heard_due (h : t.Orderly p heard services) {carried : Carried}
    {rest : List Outcome} (due : t.Due carried rest) {e : Epoch}
    (next : t.replica.window.nextEpoch = .ok e) :
    (∀ c ∈ carried.valid, c.CarriesOnly heard) ∧ ∀ c ∈ carried.locked, c.CarriesOnly heard := by
  obtain ⟨hinherits, -⟩ := h.inherits due next
  refine ⟨?_, ?_⟩
  · intro c hc
    obtain ⟨_, -, hcertifies⟩ := hinherits.valid c hc
    exact hcertifies.heard
  · intro c hc
    obtain ⟨_, -, hcertifies⟩ := hinherits.locked c hc
    exact hcertifies.heard

/-- A start that serves the next epoch keeps the replica in order. -/
theorem Orderly.start (h : t.Orderly p heard services) {carried : Carried} {rest : List Outcome}
    {m : Machine} {s' : Step (Chain × τ)} {w : Window} (due : t.Due carried rest)
    (next : t.replica.window.nextEpoch = .ok m.epoch)
    (served : p.Served heard (t.replica.chain, t.world) carried m 1 s')
    (kept : { t.replica.window with lastEpoch := some m.epoch }.put (.consensus s'.machine) =
      .ok w) :
    ({ t.settled rest with records := t.records ++ [Record.started m.epoch carried] }.absorb
      services w s'.toContext).Orderly p heard services := by
  have hstarted := h.recordStart due next
  have hnext := Window.toNat_nextEpoch next
  -- the number is new, so nothing was signed in the epoch yet and one signature is allowed
  refine Orderly.absorb hstarted (started_recordStart.mpr (.inr ⟨rfl, rfl⟩)) ?_ served ?_ kept
  · show Window.upTo t.replica.window.lastDecided ≤ m.epoch.toNat
    rw [hnext]
    exact h.decided
  · show signedIn p.id (t.records ++ [Record.started m.epoch carried]) m.epoch + 1 ≤ 1
    rw [signedIn_append, signedIn_started, h.signedIn_eq_zero (Nat.le_of_eq hnext.symm)]

/-- A decision ends the epochs up to it that are not decided, and leaves the others as they are. -/
theorem Standing.close {records : History τ} {w w' : Window} {m : Machine}
    (h : Standing p heard records w m) {e : Epoch} (hbound : e.toNat < Window.upTo w.lastEpoch)
    (decided : w'.lastDecided = some e) (last : w'.lastEpoch = w.lastEpoch) :
    ∃ m', w.close e (.consensus m) = .consensus m' ∧ Standing p heard records w' m' := by
  have hdecided : Window.upTo w'.lastDecided = e.toNat + 1 := by
    rw [decided]
    rfl
  unfold Window.close
  by_cases hclosed : (w.isUndecided (Instance.epoch (.consensus m)) &&
      decide (Instance.epoch (.consensus m) ≤ e)) = true
  · rw [if_pos hclosed]
    rw [Bool.and_eq_true] at hclosed
    refine ⟨m.stop, rfl, .finished rfl ?_⟩
    have hle : m.epoch.toNat ≤ e.toNat := UInt64.le_iff_toNat_le.mp (of_decide_eq_true hclosed.2)
    show m.epoch.toNat < Window.upTo w'.lastEpoch
    rw [last]
    omega
  · rw [if_neg hclosed]
    refine ⟨m, rfl, ?_⟩
    cases h with
    | waiting hwaiting => exact .waiting hwaiting
    | running started hfaithful signing undecided =>
      refine .running started hfaithful signing ?_
      -- an undecided epoch that stays open is above the decided one
      have hopen : ¬ m.epoch ≤ e := by
        intro hle
        apply hclosed
        simp [Instance.epoch, Window.isUndecided, undecided, hle]
      rw [UInt64.le_iff_toNat_le] at hopen
      omega
    | finished hphase old =>
      rw [← last] at old
      exact .finished hphase old

/-- A decision is on a started epoch, and ends every epoch up to it. -/
theorem Orderly.deliver (h : t.Orderly p heard services) {e : Epoch} {b : Block} {w : Window}
    {chain : Chain} {committed : List Block} (started : ∃ c, Started t.records e c)
    (new : t.replica.window.finishEpoch e = .ok (w, true))
    (done : t.replica.chain.commit b = .ok (chain, committed)) :
    (t.deliver e w chain committed).Orderly p heard services := by
  obtain ⟨c₀, hc₀⟩ := started
  have hbound := (h.consecutive.starts e c₀ hc₀).1
  have hlevelled : chain.Levelled := by
    rcases Chain.commit_cases h.levelled done with ⟨rfl, -⟩ | ⟨-, -, -, hlevelled⟩
    · exact h.levelled
    · exact hlevelled
  have hplaced := h.placed.finishEpoch new
  have hheld : ∀ inst, w.Holds inst → ∃ y, t.replica.window.Holds y ∧
      inst = t.replica.window.close e y := fun inst hinst => Window.holds_finishEpoch new hinst
  obtain ⟨-, rfl⟩ := Window.finishEpoch_eq new
  refine { h with levelled := hlevelled, placed := hplaced, decided := hbound, standing := ?_ }
  intro inst hinst
  obtain ⟨y, hy, rfl⟩ := hheld inst hinst
  obtain ⟨m, rfl, hm⟩ := h.standing y hy
  exact hm.close hbound rfl rfl

/-- **Every move keeps an honest replica in order.** -/
theorem Move.orderly (move : Move services heard t t') (h : t.Orderly p heard services) :
    t'.Orderly p heard services := by
  cases move with
  | receive claimed admitted done kept => exact h.receive claimed admitted done kept
  | expire found done kept => exact h.expire found done kept
  | breakOff found running part kept => exact h.breakOff found running part kept
  | drop hrest => exact h.drop hrest.subset
  | @defer e carried rest outcome last =>
    have hrest : rest ⊆ t.outcomes := by
      rw [outcome]
      exact List.subset_cons_self _ _
    refine { h.drop hrest with deferred := ?_ }
    rintro _ ⟨⟩
    exact ⟨e, last, h.finished e carried.valid carried.locked (outcome ▸ List.mem_cons_self)⟩
  | start due next found done kept =>
    rw [h.host] at done
    obtain ⟨m, rfl, rfl, hwaiting⟩ := h.waiting_next next found
    obtain ⟨s', hs', rfl, rfl⟩ := Instance.ofStep_eq_ok done
    obtain ⟨hvalid, hlocked⟩ := h.heard_due due next
    exact h.start due next (Host.start_served hwaiting hvalid hlocked hs') kept
  | breakStart due next found begun part kept =>
    rw [h.host] at begun part
    obtain ⟨m, heq, rfl, hwaiting⟩ := h.waiting_next next found
    obtain rfl := Instance.consensus.inj heq
    obtain ⟨hvalid, hlocked⟩ := h.heard_due due next
    exact h.start due next (Host.begun_served hwaiting hvalid hlocked begun part) kept
  | cutOff due next => exact h.advanced due next
  | @decide e b rest w chain committed outcome new done =>
    have hrest : rest ⊆ t.outcomes := by
      rw [outcome]
      exact List.subset_cons_self _ _
    exact (h.drop hrest).deliver (h.agreed e b (outcome ▸ List.mem_cons_self)) new done

theorem Moves.orderly (moves : Moves services heard t t') (h : t.Orderly p heard services) :
    t'.Orderly p heard services := by
  induction moves with
  | refl => exact h
  | tail _ move ih => exact move.orderly ih

/-- An honest replica is in order before any call. -/
theorem orderly_start {id : ProcessId} {count : Nat} {config : Config} {r : Replica}
    (hr : Replica.Fresh id count config r) (sync : config.model = .sync)
    (honest : config.isByzantine id = false) (world : τ) :
    (Turn.start r world).Orderly (r.host services) heard services := by
  have hholds : ∀ inst, ¬ r.window.Holds inst := by
    intro inst hinst
    rw [hr.window] at hinst
    exact Window.not_holds_ofConfig config id hinst
  refine ⟨rfl, ?_, ?_, hr.chain.1, ?_, ?_, ?_, .nil, ?_, ?_, ?_, ?_, ?_⟩
  · show r.window.factory.model = .sync
    rw [hr.window]
    exact sync
  · show r.window.factory.policy.isHonest = true
    rw [hr.window]
    simp [Window.ofConfig, Factory.ofConfig, Policy.ofConfig, Policy.isHonest, honest]
  · intro i inst hi
    exact absurd ⟨i, hi⟩ (hholds inst)
  · show Window.upTo r.window.lastDecided ≤ Window.upTo r.window.lastEpoch
    rw [hr.window]
    exact Nat.le_refl _
  · intro inst hinst
    exact absurd hinst (hholds inst)
  · intro decided x hx
    cases hx
  · intro e
    exact Nat.zero_le 1
  · intro c hc
    have hnone : r.deferred = some c := hc
    rw [hr.deferred] at hnone
    cases hnone
  · intro e valid locked ho
    cases ho
  · intro e b ho
    cases ho

end Turn

end EpochConsensus
