import EpochConsensus.Proofs.Replica.Moves

/-! # Every call is a path of strides

A `Turn.Stride` is one step of a call that meets no fault: an epoch acts, once nothing is left to
settle, or the oldest outcome is settled.  It says what it does to the queue of outcomes, so that
what a replica keeps only between two steps can be followed through a call.  Every call is a path of
strides (`Turn.take_strides`) and a stride is a move (`Turn.Stride.move`), so every run is a path of
moves (`Turn.run_moves`).
-/
namespace EpochConsensus.Turn

variable {τ : Type} (services : Services τ) (heard : Endorsement → Prop)

/-- One step of a call. -/
inductive Stride : Turn τ → Turn τ → Prop
  /-- An epoch receives a message. -/
  | receive {t : Turn τ} {e : Epoch} {inst inst' : Instance} {m : Message}
      {c : Context (Chain × τ)} {w : Window} (quiet : t.outcomes = [])
      (claimed : t.replica.window.claim? e = .ok (some inst)) (admitted : m.CarriesOnly heard)
      (done : inst.receive (t.replica.host services) m t.context = .ok (inst', c))
      (kept : t.replica.window.put inst' = .ok w) : Stride t (t.absorb services w c)
  /-- An epoch takes a timeout. -/
  | expire {t : Turn τ} {e : Epoch} {inst inst' : Instance} {timeout : Timeout}
      {c : Context (Chain × τ)} {w : Window} (quiet : t.outcomes = [])
      (found : t.replica.window.instance? e = .ok (some inst))
      (done : inst.expire (t.replica.host services) timeout t.context = .ok (inst', c))
      (kept : t.replica.window.put inst' = .ok w) : Stride t (t.absorb services w c)
  /-- A decision comes late: another one covers it. -/
  | late {t : Turn τ} {e : Epoch} {b : Block} {rest : List Outcome}
      (outcome : t.outcomes = .decided e b :: rest)
      (covered : t.replica.window.isUndecided e = false) : Stride t { t with outcomes := rest }
  /-- An epoch ends that is not the last one. -/
  | pass {t : Turn τ} {e : Epoch} {valid locked : Option Certificate} {rest : List Outcome}
      (outcome : t.outcomes = .finished e valid locked :: rest)
      (other : t.replica.window.lastEpoch ≠ some e) : Stride t { t with outcomes := rest }
  /-- The window is full when the last epoch ends. -/
  | defer {t : Turn τ} {e : Epoch} {carried : Carried} {rest : List Outcome}
      (outcome : t.outcomes = .finished e carried.valid carried.locked :: rest)
      (last : t.replica.window.lastEpoch = some e) (full : t.replica.window.isFull = true) :
      Stride t { t with replica.deferred := some carried, outcomes := rest }
  /-- The next epoch starts. -/
  | start {t : Turn τ} {carried : Carried} {rest : List Outcome} {e : Epoch}
      {inst inst' : Instance} {c : Context (Chain × τ)} {w : Window} (due : t.Due carried rest)
      (room : t.replica.window.isFull = false) (next : t.replica.window.nextEpoch = .ok e)
      (limit : ¬ t.replica.window.CutsOff e)
      (found : t.replica.window.instance? e = .ok (some inst) ∨
        inst = t.replica.window.factory.create e)
      (done : inst.start (t.replica.host services) carried.valid carried.locked t.context =
        .ok (inst', c))
      (kept : { t.replica.window with lastEpoch := some e }.put inst' = .ok w) :
      Stride t ({ t.settled rest with records := t.records ++ [Record.started e carried] }.absorb
        services w c)
  /-- The next epoch is beyond the limit. -/
  | cutOff {t : Turn τ} {carried : Carried} {rest : List Outcome} {e : Epoch}
      (due : t.Due carried rest) (room : t.replica.window.isFull = false)
      (next : t.replica.window.nextEpoch = .ok e) (limit : t.replica.window.CutsOff e) :
      Stride t ((t.settled rest).advanced e)
  /-- A decided block is committed. -/
  | decide {t : Turn τ} {e : Epoch} {b : Block} {rest : List Outcome} {w : Window} {chain : Chain}
      {committed : List Block} (outcome : t.outcomes = .decided e b :: rest)
      (new : t.replica.window.finishEpoch e = .ok (w, true))
      (done : t.replica.chain.commit b = .ok (chain, committed)) :
      Stride t ({ t with outcomes := rest }.deliver e w chain committed)

/-- Any number of strides. -/
abbrev Strides : Turn τ → Turn τ → Prop := Relation.ReflTransGen (Stride services heard)

variable {services} {heard} {t t' : Turn τ}

/-- **A stride is a move.** -/
theorem Stride.move (stride : Stride services heard t t') : Move services heard t t' := by
  cases stride with
  | receive quiet claimed admitted done kept => exact .receive claimed admitted done kept
  | expire quiet found done kept => exact .expire found done kept
  | late outcome covered => exact .drop (outcome ▸ List.suffix_cons _ _)
  | pass outcome other => exact .drop (outcome ▸ List.suffix_cons _ _)
  | defer outcome last full => exact .defer outcome last
  | start due room next limit found done kept => exact .start due next found done kept
  | cutOff due room next limit => exact .cutOff due next
  | decide outcome new done => exact .decide outcome new done

/-- **So are any number of strides.** -/
theorem Strides.moves (strides : Strides services heard t t') : Moves services heard t t' :=
  Relation.ReflTransGen.mono (fun _ _ stride => Stride.move stride) _ _ strides

/-- Who has heard more strides as well. -/
theorem Stride.mono {heard' : Endorsement → Prop} (stride : Stride services heard t t')
    (hle : ∀ e, heard e → heard' e) : Stride services heard' t t' := by
  cases stride with
  | receive quiet claimed admitted done kept =>
    exact .receive quiet claimed (fun e he => hle e (admitted e he)) done kept
  | expire quiet found done kept => exact .expire quiet found done kept
  | late outcome covered => exact .late outcome covered
  | pass outcome other => exact .pass outcome other
  | defer outcome last full => exact .defer outcome last full
  | start due room next limit found done kept => exact .start due room next limit found done kept
  | cutOff due room next limit => exact .cutOff due room next limit
  | decide outcome new done => exact .decide outcome new done

theorem Strides.mono {heard' : Endorsement → Prop} (strides : Strides services heard t t')
    (hle : ∀ e, heard e → heard' e) : Strides services heard' t t' :=
  Relation.ReflTransGen.mono (fun _ _ stride => Stride.mono stride hle) _ _ strides

/-! ### Starts -/

variable (heard)

/-- With room in the window the next epoch starts, or it is beyond the limit. -/
theorem startEpoch_cases {carried : Carried} (room : t.replica.window.isFull = false)
    (h : t.startEpoch services carried = .ok t') :
    ∃ e, t.replica.window.nextEpoch = .ok e ∧
      ((t.replica.window.CutsOff e ∧ t' = t.advanced e) ∨
        ¬ t.replica.window.CutsOff e ∧ ∃ inst inst' c w,
          (t.replica.window.instance? e = .ok (some inst) ∨
            inst = t.replica.window.factory.create e) ∧
          inst.start (t.replica.host services) carried.valid carried.locked t.context =
            .ok (inst', c) ∧
          { t.replica.window with lastEpoch := some e }.put inst' = .ok w ∧
          t' = { t with records := t.records ++ [Record.started e carried] }.absorb
            services w c) := by
  unfold startEpoch at h
  simp only [pure, Except.pure] at h
  obtain ⟨⟨w, c, started⟩, hnext, h⟩ := bind_eq_ok.mp h
  cases h
  rcases Window.startNext_cases hnext with ⟨full, -⟩ | ⟨-, e, next, ⟨limit, rfl, rfl, rfl⟩ |
    ⟨limit, rfl, inst, inst', found, done, kept⟩⟩
  · rw [room] at full
    cases full
  · -- nothing happens beyond the limit, but the epoch counts as the last one
    refine ⟨e, next, .inl ⟨limit, ?_⟩⟩
    simp [absorb, advanced, context, Context.start, Context.effects]
  · refine ⟨e, next, .inr ⟨limit, inst, inst', c, w, found, done, kept, ?_⟩⟩
    have hlast : w.lastEpoch = some e := by
      obtain ⟨i, -, rfl⟩ := Window.put_eq kept
      rfl
    simp [hlast]

/-- With room in the window a start that is due moves on. -/
theorem startEpoch_strides {carried : Carried} {rest : List Outcome} (due : t.Due carried rest)
    (room : t.replica.window.isFull = false)
    (h : (t.settled rest).startEpoch services carried = .ok t') :
    Stride services heard t t' ∧ t'.replica.deferred = none := by
  obtain ⟨e, next, ⟨limit, rfl⟩ | ⟨limit, inst, inst', c, w, found, done, kept, rfl⟩⟩ :=
    startEpoch_cases (t := t.settled rest) room h
  · exact ⟨.cutOff due room next limit, rfl⟩
  · exact ⟨.start due room next limit found done kept, rfl⟩

/-- A start goes ahead, or waits while the window is full. -/
theorem startOrDefer_cases {carried : Carried} (h : t.startOrDefer services carried = .ok t') :
    t.replica.window.isFull = true ∧ t' = { t with replica.deferred := some carried } ∨
      t.replica.window.isFull = false ∧ t.startEpoch services carried = .ok t' := by
  unfold startOrDefer at h
  split at h
  · rename_i full
    exact .inl ⟨full, (Except.ok.inj h).symm⟩
  · rename_i room
    exact .inr ⟨Bool.eq_false_iff.mpr room, h⟩

/-- A deferred start is tried again. -/
theorem resume_cases (h : t.resume services = .ok t') :
    t.replica.deferred = none ∧ t' = t ∨ ∃ carried, t.replica.deferred = some carried ∧
      { t with replica.deferred := none }.startOrDefer services carried = .ok t' := by
  unfold resume at h
  split at h
  · rename_i free
    exact .inl ⟨free, (Except.ok.inj h).symm⟩
  · rename_i carried waits
    exact .inr ⟨carried, waits, h⟩

/-- A start that is due moves on, or waits for room. -/
theorem startOrDefer_strides {carried : Carried} {rest : List Outcome} (due : t.Due carried rest)
    (waits : t.replica.window.isFull = true →
      Strides services heard t { t.settled rest with replica.deferred := some carried })
    (h : (t.settled rest).startOrDefer services carried = .ok t') :
    Strides services heard t t' ∧ t'.AtRest := by
  rcases startOrDefer_cases h with ⟨full, rfl⟩ | ⟨room, h⟩
  · exact ⟨waits full, fun _ => full⟩
  · obtain ⟨hstride, hfree⟩ := startEpoch_strides heard due room h
    exact ⟨.single hstride, fun hsome => by simp [hfree] at hsome⟩

theorem atRest_start {r : Replica} (deferred : r.deferred = none) (world : τ) :
    (Turn.start r world).AtRest := by
  intro hsome
  simp [start, deferred] at hsome

/-- At rest nothing is deferred while there is room. -/
theorem AtRest.free (h : t.AtRest) (room : t.replica.window.isFull = false) :
    t.replica.deferred = none := by
  unfold AtRest at h
  rw [room] at h
  simpa using h

/-- After a decision a deferred start goes ahead. -/
theorem resume_strides (h : t.resume services = .ok t') :
    Strides services heard t t' ∧ t'.AtRest := by
  rcases resume_cases h with ⟨free, rfl⟩ | ⟨carried, hdeferred, h⟩
  · exact ⟨.refl, fun hsome => by simp [free] at hsome⟩
  · refine startOrDefer_strides heard (.resumed hdeferred) (fun _ => ?_) h
    -- without room the start is deferred as it was
    have hsame : { t.settled t.outcomes with replica.deferred := some carried } = t := by
      rw [← hdeferred]
      rfl
    rw [hsame]

/-! ### Settling -/

/-- A decision comes late, or its block is committed and delivered, and a deferred start is tried
again. -/
theorem onDecided_cases {e : Epoch} {b : Block} (h : t.onDecided services e b = .ok t') :
    t.replica.window.isUndecided e = false ∧ t' = t ∨
      ∃ w chain committed, t.replica.window.finishEpoch e = .ok (w, true) ∧
        t.replica.chain.commit b = .ok (chain, committed) ∧
        (t.deliver e w chain committed).resume services = .ok t' := by
  unfold onDecided at h
  simp only [pure, Except.pure] at h
  obtain ⟨⟨w, isNew⟩, hfinish, h⟩ := bind_eq_ok.mp h
  cases isNew with
  | false => exact .inl ⟨(Window.finishEpoch_covered hfinish).1, (Except.ok.inj h).symm⟩
  | true =>
    obtain ⟨⟨chain, committed⟩, done, h⟩ := bind_eq_ok.mp h
    exact .inr ⟨w, chain, committed, hfinish, done, h⟩

theorem onDecided_strides {e : Epoch} {b : Block} {rest : List Outcome} (atRest : t.AtRest)
    (outcome : t.outcomes = .decided e b :: rest)
    (h : { t with outcomes := rest }.onDecided services e b = .ok t') :
    Strides services heard t t' ∧ t'.AtRest := by
  rcases onDecided_cases h with ⟨covered, rfl⟩ | ⟨w, chain, committed, new, done, h⟩
  · exact ⟨.single (.late outcome covered), atRest⟩
  · obtain ⟨hstrides, hrest⟩ := resume_strides heard h
    exact ⟨.head (.decide outcome new done) hstrides, hrest⟩

theorem onOutcome_strides {o : Outcome} {rest : List Outcome} (atRest : t.AtRest)
    (outcome : t.outcomes = o :: rest)
    (h : { t with outcomes := rest }.onOutcome services o = .ok t') :
    Strides services heard t t' ∧ t'.AtRest := by
  cases o with
  | decided e b => exact onDecided_strides heard atRest outcome h
  | finished e valid locked =>
    simp only [onOutcome] at h
    split at h
    · rename_i last
      by_cases full : t.replica.window.isFull = true
      · obtain ⟨-, rfl⟩ :=
          (startOrDefer_cases h).resolve_right fun room => by simp [full] at room
        exact ⟨.single (.defer outcome last full), fun _ => full⟩
      · have hfree := atRest.free (Bool.eq_false_iff.mpr full)
        have hsame : { t with outcomes := rest } = t.settled rest := by
          unfold settled
          rw [← hfree]
        rw [hsame] at h
        exact startOrDefer_strides heard (.next outcome last hfree) (fun h => absurd h full) h
    · rename_i other
      cases h
      exact ⟨.single (.pass outcome other), atRest⟩

/-- What the settling of each outcome keeps, settling keeps. -/
theorem settleUpTo_keeps {motive : Turn τ → Prop}
    (step : ∀ u o rest u', motive u → u.outcomes = o :: rest →
      { u with outcomes := rest }.onOutcome services o = .ok u' → motive u')
    {rounds : Nat} (h : settleUpTo services rounds t = .ok t') (ht : motive t) : motive t' := by
  induction rounds generalizing t with
  | zero =>
    cases h
    exact ht
  | succ rounds ih =>
    unfold settleUpTo at h
    split at h
    · cases h
      exact ht
    · rename_i o rest queue
      obtain ⟨u, hu, h⟩ := bind_eq_ok.mp h
      exact ih h (step _ _ _ _ ht queue hu)

theorem settleUpTo_strides {rounds : Nat} (atRest : t.AtRest)
    (h : settleUpTo services rounds t = .ok t') : Strides services heard t t' ∧ t'.AtRest := by
  refine settleUpTo_keeps (motive := fun u => Strides services heard t u ∧ u.AtRest) ?_ h
    ⟨.refl, atRest⟩
  intro u o rest u' ⟨hstrides, hrest⟩ outcome hu
  obtain ⟨hstrides', hrest'⟩ := onOutcome_strides heard hrest outcome hu
  exact ⟨hstrides.trans hstrides', hrest'⟩

/-! ### Calls -/

/-- The first epoch starts. -/
theorem firstEpoch_strides {u : Turn τ} (atRest : t.AtRest)
    (new : t.replica.window.lastEpoch = none)
    (h : ({ t with outcomes := [] } : Turn τ).startEpoch services ⟨none, none⟩ = .ok u) :
    Strides services heard { t with outcomes := [] } u ∧ u.AtRest := by
  by_cases full : t.replica.window.isFull = true
  · -- a window without slots starts nothing
    unfold startEpoch at h
    simp only [pure, Except.pure] at h
    obtain ⟨⟨w, c, started⟩, hnext, h⟩ := bind_eq_ok.mp h
    rcases Window.startNext_cases hnext with ⟨-, rfl, rfl, rfl⟩ | ⟨room, -⟩
    · cases h
      refine ⟨?_, fun _ => full⟩
      simpa [absorb, context, Context.start, Context.effects] using
        Relation.ReflTransGen.refl (r := Stride services heard) (a := { t with outcomes := [] })
    · rw [full] at room
      cases room
  · have hfree := atRest.free (Bool.eq_false_iff.mpr full)
    have hsame : { t with outcomes := [] } = ({ t with outcomes := [] } : Turn τ).settled [] := by
      unfold settled
      simp only
      rw [← hfree]
    rw [hsame] at h
    obtain ⟨hstride, hfree'⟩ := startEpoch_strides heard (t := { t with outcomes := [] })
      (.first new) (Bool.eq_false_iff.mpr full) h
    exact ⟨.single hstride, fun hsome => by simp [hfree'] at hsome⟩

theorem bootstrap_strides (atRest : t.AtRest) (h : t.bootstrap services = .ok t') :
    Strides services heard { t with outcomes := [] } t' ∧ t'.AtRest := by
  unfold bootstrap at h
  simp only [pure, Except.pure] at h
  split at h
  · cases h
    exact ⟨.refl, atRest⟩
  rename_i hnew
  obtain ⟨u, hu, h⟩ := bind_eq_ok.mp h
  obtain ⟨hfirst, hfirst'⟩ := firstEpoch_strides heard atRest (by simpa using hnew) hu
  obtain ⟨hstrides, hrest⟩ := settleUpTo_strides heard hfirst' h
  exact ⟨hfirst.trans hstrides, hrest⟩

/-- A call runs an instance, puts it back and takes over what it did. -/
theorem call_some {i : Instance}
    {act : Instance → Context (Chain × τ) → Except Fault (Instance × Context (Chain × τ))}
    {u : Turn τ} : t.call services (some i) act = .ok u ↔
      ∃ inst c w, act i t.context = .ok (inst, c) ∧ t.replica.window.put inst = .ok w ∧
        u = t.absorb services w c := by
  unfold call
  simp only [pure, Except.pure]
  constructor
  · intro h
    obtain ⟨⟨inst, c⟩, done, h⟩ := bind_eq_ok.mp h
    obtain ⟨w, kept, h⟩ := bind_eq_ok.mp h
    exact ⟨inst, c, w, done, kept, (Except.ok.inj h).symm⟩
  · rintro ⟨inst, c, w, done, kept, rfl⟩
    exact bind_eq_ok.mpr ⟨(inst, c), done, bind_eq_ok.mpr ⟨w, kept, rfl⟩⟩

/-- A call on one epoch is one stride, or none. -/
theorem called_strides {inst : Option Instance}
    {act : Instance → Context (Chain × τ) → Except Fault (Instance × Context (Chain × τ))}
    (atRest : t.AtRest)
    (stride : ∀ i inst' c w, inst = some i → act i t.context = .ok (inst', c) →
      t.replica.window.put inst' = .ok w → Stride services heard t (t.absorb services w c))
    {u : Turn τ} (h : t.call services inst act = .ok u) :
    Strides services heard t u ∧ u.AtRest := by
  cases inst with
  | none =>
    cases h
    exact ⟨.refl, atRest⟩
  | some i =>
    obtain ⟨inst', c, w, done, kept, rfl⟩ := call_some.mp h
    refine ⟨.single (stride i inst' c w rfl done kept), ?_⟩
    -- the call leaves the deferred start and the fullness of the window alone
    obtain ⟨_, -, rfl⟩ := Window.put_eq kept
    exact atRest

/-- A call on one epoch, and settling what came of it. -/
theorem call_strides {inst : Option Instance}
    {act : Instance → Context (Chain × τ) → Except Fault (Instance × Context (Chain × τ))}
    (atRest : t.AtRest)
    (stride : ∀ i inst' c w, inst = some i → act i t.context = .ok (inst', c) →
      t.replica.window.put inst' = .ok w → Stride services heard t (t.absorb services w c))
    {u : Turn τ} (hu : t.call services inst act = .ok u) (h : u.settle services = .ok t') :
    Strides services heard t t' ∧ t'.AtRest := by
  obtain ⟨hcalled, hcalled'⟩ := called_strides heard atRest stride hu
  obtain ⟨hstrides, hrest⟩ := settleUpTo_strides heard hcalled' h
  exact ⟨hcalled.trans hstrides, hrest⟩

variable {heard}

/-- **Every call is a path of strides.** -/
theorem take_strides {input : Input} (atRest : t.AtRest) (admitted : input.CarriesOnly heard)
    (h : t.take services input = .ok t') :
    Strides services heard { t with outcomes := [] } t' ∧ t'.AtRest := by
  cases input with
  | bootstrap => exact bootstrap_strides heard atRest h
  | message m =>
    unfold take handleMessage at h
    simp only at h
    split at h
    · cases h
      exact ⟨.refl, atRest⟩
    · obtain ⟨inst, claimed, h⟩ := bind_eq_ok.mp h
      obtain ⟨u, hu, h⟩ := bind_eq_ok.mp h
      exact call_strides heard (t := { t with outcomes := [] }) atRest
        (fun i inst' c w hi done kept => .receive rfl (hi ▸ claimed) admitted done kept) hu h
  | timeout timeout =>
    unfold take handleTimeout at h
    obtain ⟨inst, found, h⟩ := bind_eq_ok.mp h
    obtain ⟨u, hu, h⟩ := bind_eq_ok.mp h
    exact call_strides heard (t := { t with outcomes := [] }) atRest
      (fun i inst' c w hi done kept => .expire rfl (hi ▸ found) done kept) hu h

/-- **Every call is a path of moves.** -/
theorem take_moves {input : Input} (atRest : t.AtRest) (admitted : input.CarriesOnly heard)
    (h : t.take services input = .ok t') : Moves services heard t t' ∧ t'.AtRest := by
  obtain ⟨hstrides, hrest⟩ := take_strides atRest admitted h
  exact ⟨.head (.drop List.nil_suffix) (Strides.moves hstrides), hrest⟩

/-- **Every run is a path of moves.** -/
theorem run_moves {inputs : List Input} (atRest : t.AtRest)
    (admitted : ∀ i ∈ inputs, i.CarriesOnly heard) (h : t.run services inputs = .ok t') :
    Moves services heard t t' ∧ t'.AtRest := by
  refine foldlM_keeps (motive := fun u => Moves services heard t u ∧ u.AtRest) ?_ h ⟨.refl, atRest⟩
  intro u input u' hinput ⟨hmoves, hrest⟩ hround
  obtain ⟨hmoves', hrest'⟩ := take_moves hrest (admitted input hinput) hround
  exact ⟨hmoves.trans hmoves', hrest'⟩

end EpochConsensus.Turn
