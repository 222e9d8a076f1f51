import EpochConsensus.Proofs.Epoch.Course

/-! # Runs of an epoch

A stride of an epoch is a change of its course, or a few of them (`changes_of_stride`); so is every
call, with the host in any state (`take_changes`).  Hence every run of calls is a path of changes
(`run_changes`).
-/
namespace EpochConsensus.Course

variable {σ : Type} {p : Host σ} {heard : Endorsement → Prop} {c c' : Course σ}
  {log : List (Entry σ)} {s s' : Step σ}

theorem within_append {xs : List (Moment σ)} (h : s'.moments.toList = s.moments.toList ++ xs) :
    within log s' = ⟨s'.machine, (within log s).log ++ xs.map .did⟩ := by
  simp [within, h]

theorem change_of_calm (h : s.Calm s') : Change p (within log s) (within log s') := by
  obtain ⟨xs, hxs, calm⟩ := h.moments
  rw [within_append hxs]
  exact .calm h.alike calm

theorem change_of_resigns (xs : List (Moment σ)) (h : s.machine.Resigns s'.machine)
    (hxs : s'.moments.toList = s.moments.toList ++ xs)
    (plain : ∀ x ∈ xs, x.effect.IsPlain ∧
      ∀ m ∈ x.machine, m.equivocation = s.machine.equivocation) :
    Change p (within log s) (within log s') := by
  rw [within_append hxs]
  exact .resign h plain

/-! ### Strides -/

/-- A vote is counted, and the proposer exposed if it is to be. -/
theorem changes_of_count (hs : p.Running heard s) {v : Vote} {proposer : ProcessId} {signed : Bool}
    (active : s.machine.phase ≠ .commit ∧ s.machine.phase ≠ .finished)
    (current : v.epoch = s.machine.epoch) (turn : p.proposer s.machine.epoch = .ok proposer)
    (unsigned : signed = false → (s.machine.counted proposer v).signedBy proposer =
      (s.machine.votes.get s.machine.epoch v.height v.blockId).signedBy proposer) :
    Changes p (within log s) (within log (p.looked proposer signed
      { s with machine := s.machine.count proposer v })) := by
  have hcounting : ∀ (d : Context σ) (timers : Timers),
      (within log { s with toContext := d, machine.timers := timers }).Counting p proposer v := by
    intro d timers
    refine ⟨?_, turn, (hs.sound.statement_counted proposer current).trans ?_⟩
    · have hstarted := hs.started
      show s.machine.phase = _ ∨ s.machine.phase = _ ∨ s.machine.phase = _
      cases hphase : s.machine.phase <;> simp [hphase] at active hstarted ⊢
    · rw [Vote.statement, current]
      rfl
  cases signed with
  | false => exact .single (.count (hcounting s.toContext s.machine.timers) (.inl (unsigned rfl)))
  | true =>
    rcases p.exposeEquivocation_cases proposer { s with machine := s.machine.count proposer v } with
      ⟨heq, known⟩ | ⟨fresh, two, d, timers, asked, heq⟩
    · simp only [Host.looked, if_true, heq]
      exact .single (.count (hcounting s.toContext s.machine.timers) (.inr known))
    · simp only [Host.looked, if_true, heq, within_forwardAll]
      have hasked : s.Calm { s with toContext := d, machine.timers := timers } :=
        (Host.Asks.calm (s := s) asked).trans
          (.of_alike .aside)
      exact .head (change_of_calm hasked)
        (.single (.expose (hcounting d timers) fresh two d.world))

theorem changes_of_silence (b : Silence) (s : Step σ) :
    Changes p (within log s) (within log (p.onSilence b s)) := by
  rcases p.onSilence_cases b s with heq | ⟨-, phase, heq⟩
  · rw [heq]
  rw [heq]
  cases quorum : (Host.blamed b s).machine.blame.hasQuorum p.count with
  | false => exact .single (.blame quorum)
  | true =>
    rw [if_pos rfl]
    rcases phase with phase | phase
    · rw [Host.onSilenceCertificate_ready (s := Host.blamed b s) phase]
      refine .head (change_of_resigns [_] ?_ Array.toList_push ?_)
        (.single (change_of_calm (p.schedule_calm _ _)))
      · exact ⟨rfl, rfl, rfl, rfl, rfl, .inl ⟨phase, rfl⟩⟩
      · simp only [List.mem_singleton, forall_eq]
        exact ⟨⟨rfl, rfl⟩, by rintro m ⟨⟩; rfl⟩
    · rw [Host.onSilenceCertificate_locked (s := Host.blamed b s) phase]
      exact .single (change_of_resigns [] ⟨rfl, rfl, rfl, rfl, rfl, .inr rfl⟩
        (List.append_nil _).symm (by simp))

theorem changes_of_stride (hs : p.Running heard s) (h : p.Stride heard offered s s') :
    Changes p (within log s) (within log s') := by
  cases h with
  | schedule timers asked =>
    exact .single (change_of_calm ((Host.Asks.calm asked).trans
      (.of_alike .aside)))
  | refuse asked => exact .single (change_of_calm (Host.store_calm asked))
  | @enlist proposal _ fresh valid admitted asked =>
    refine .single (change_of_calm ((Host.store_calm asked).trans (.of_alike ?_)))
    obtain ⟨proposals, heq⟩ := Host.enlist_eq s.machine proposal
    rw [heq]
    exact .aside
  | relay => exact .single (change_of_calm (.emit ⟨rfl, rfl⟩))
  | count active current turn admitted unsigned =>
    exact changes_of_count hs active current turn unsigned
  | lock phase counted quorum =>
    simp only [within_emit, List.append_assoc]
    exact .single (.lock phase counted quorum rfl _)
  | @pass d phase counted quorum locked lock =>
    let m : Machine := { s.machine with phase := .finished, valid := some d, locked := locked }
    let xs : List (Moment σ) := [⟨.broadcast (.quitEpoch d), s.world, some m⟩,
      ⟨.finish s.machine.epoch (some d) locked, s.world, some m⟩]
    refine .single (change_of_resigns xs ⟨rfl, rfl, rfl, rfl, rfl, .inr rfl⟩ ?_ ?_)
    · simp [xs, m]
    · simp only [xs, List.mem_cons, List.not_mem_nil, or_false, forall_eq_or_imp, forall_eq]
      exact ⟨⟨⟨rfl, rfl⟩, by rintro _ ⟨⟩; rfl⟩, ⟨rfl, rfl⟩, by rintro _ ⟨⟩; rfl⟩
  | decide phase locked names fast counted all =>
    exact .single (.decide phase locked names (.fast fast counted all))
  | @commit key proposal phase decided found linked =>
    obtain ⟨recorded, hid⟩ := s.machine.proposals.mem_find? found
    obtain ⟨current, valid, -⟩ := hs.sound.proposals _ recorded
    rw [within_emit]
    exact .single (.commit ⟨phase, ⟨key.1, hid ▸ decided⟩, recorded, current, valid, linked⟩ rfl)
  | cast =>
    exact .single (change_of_calm
      (.trans (.emit ⟨rfl, rfl⟩) (.trans (.emit ⟨rfl, rfl⟩) (.of_alike .aside))))
  | follow faulty =>
    refine .single (change_of_calm (.of_alike ⟨rfl, rfl, rfl, rfl, rfl, rfl, rfl, ?_⟩))
    intro honest
    rw [honest] at faulty
    cases faulty
  | silence => exact changes_of_silence _ s

theorem changes_of_strides (hs : p.Running heard s) (h : p.Strides heard offered s s') :
    Changes p (within log s) (within log s') := by
  induction h with
  | refl => exact .refl
  | tail strides stride ih =>
    exact ih.trans (changes_of_stride (Host.Strides.running strides hs) stride)

/-! ### Calls -/

theorem within_start (log : List (Entry σ)) (w : σ) (m : Machine) :
    within log ⟨.start w, m⟩ = ⟨m, log⟩ := by
  simp [within, Context.start]

theorem changes_of_receive {m : Machine} {w : σ} (hm : p.Sound heard m) {x : Message}
    (admitted : x.CarriesOnly heard) (h : p.receive x ⟨.start w, m⟩ = .ok s') :
    Changes p ⟨m, log⟩ (within log s') := by
  rw [← within_start log w m]
  by_cases hphase : m.phase = .inactive
  · obtain rfl := Host.receive_inactive (s := ⟨.start w, m⟩) hphase h
    exact .single (change_of_calm (Host.keep_calm x _))
  · have hrunning : p.Running heard ⟨.start w, m⟩ := ⟨hphase, hm⟩
    have hstrides : p.Strides heard (fun _ => True) ⟨.start w, m⟩ s' :=
      Host.receive_strides hrunning admitted (fun _ _ => trivial) h
    exact changes_of_strides hrunning hstrides

theorem changes_of_start {m : Machine} {w : σ} (hm : p.Sound heard m)
    {valid locked : Option Certificate} (hvalid : ∀ c ∈ valid, c.CarriesOnly heard)
    (hlocked : ∀ c ∈ locked, c.CarriesOnly heard)
    (h : p.start valid locked ⟨.start w, m⟩ = .ok s') :
    Changes p ⟨m, log⟩ (within log s') := by
  by_cases hphase : m.phase = .inactive
  · have hopens : Change p ⟨m, log⟩ (within log ⟨.start w, m.opened valid locked⟩) := by
      rw [within_start]
      exact .opens hphase valid locked
    refine .head hopens ?_
    rcases Host.start_cases (s := ⟨.start w, m⟩) hphase h with ⟨-, rfl⟩ | ⟨b, hb, hrest⟩
    · exact .single (change_of_calm (.of_alike .aside))
    · have hbegun : Step.Calm ⟨.start w, m.opened valid locked⟩ { b with machine.pending := [] } :=
        (Host.begin_calm hb).trans
          (.of_alike .aside)
      have hrunning := hm.begun hvalid hlocked hb
      have hstrides : p.Strides heard (fun _ => True) { b with machine.pending := [] } s' :=
        Host.start_strides hrunning hm.pending (fun _ _ _ _ => trivial) hrest
      exact .head (change_of_calm hbegun)
        (changes_of_strides hrunning hstrides)
  · unfold Host.start at h
    rw [if_pos (by simp [Machine.started, hphase])] at h
    cases h
    rw [within_start]

/-- A timeout that is due: what makes the epoch decide on its lock is on the log. -/
theorem changes_of_onTimeout {kind : TimeoutKind} (hs : p.Running heard s)
    (resolved : kind = .equivocation → s.machine.phase = .locked → (within log s).Resolved p)
    (h : p.onTimeout kind s = .ok s') : Changes p (within log s) (within log s') := by
  rcases Host.onTimeout_cases h with
    rfl | ⟨-, -, rfl⟩ | ⟨hkind, phase, rfl⟩ | ⟨-, rfl⟩ | ⟨-, done⟩
  · exact .refl
  · exact .single (change_of_calm (.emit ⟨rfl, rfl⟩))
  · rcases p.decideLocked_cases s with heq | ⟨d, id, locked, names, heq⟩
    · rw [heq]
    · have hdecide : Change p (within log s) (within log (Host.decided d id s)) :=
        .decide phase locked names (resolved hkind phase)
      have hrunning : p.Running heard (Host.decided d id s) :=
        Host.Move.running (.decide phase locked names) hs
      have hcommit : p.Strides heard (fun _ => True) (Host.decided d id s) _ :=
        Host.tryToCommit_strides _
      rw [heq]
      exact .head hdecide (changes_of_strides hrunning hcommit)
  · refine .single (change_of_resigns [_] ⟨rfl, rfl, rfl, rfl, rfl, .inr rfl⟩
      Array.toList_push ?_)
    simp only [List.mem_singleton, forall_eq]
    exact ⟨⟨rfl, rfl⟩, by rintro _ ⟨⟩; rfl⟩
  · exact .single (change_of_calm (Host.proposeSplit_calm done))

theorem changes_of_expire {m : Machine} {w : σ} (hm : p.Sound heard m) {t : Timeout}
    (last : log.getLast? = some (.called (.expire t) m))
    (h : p.expire t ⟨.start w, m⟩ = .ok s') : Changes p ⟨m, log⟩ (within log s') := by
  rw [← within_start log w m]
  rcases Host.expire_cases h with rfl | ⟨hstarted, hcurrent, h⟩
  · exact .refl
  have hrunning : p.Running heard ⟨.start w, { m with timers := m.timers.expire t.kind }⟩ :=
    ⟨hstarted, { hm with }⟩
  have htimer : Step.Calm ⟨.start w, m⟩ ⟨.start w, { m with timers := m.timers.expire t.kind }⟩ :=
    .of_alike .aside
  refine .head (change_of_calm htimer) (changes_of_onTimeout hrunning ?_ h)
  -- the call has done nothing yet, so the timeout is the last thing on the log
  intro hkind hphase
  refine .waited (t := t) (m := m) ?_ hkind hcurrent hphase
  simpa [within, Context.start] using last

/-! ### Runs -/

/-- **Every call is a path of changes**, and leaves the epoch sound. -/
theorem take_changes (hc : p.Sound (fun _ => True) c.machine) {call : Call} {w : σ}
    (h : c.take p call w = .ok c') : Changes p c c' ∧ p.Sound (fun _ => True) c'.machine := by
  obtain ⟨s, hs, rfl⟩ := take_eq_ok.mp h
  suffices h : Changes p ⟨c.machine, c.log ++ [.called call c.machine]⟩
      (within (c.log ++ [.called call c.machine]) s) ∧ p.Sound (fun _ => True) s.machine from
    ⟨.head (.call c call) h.1, h.2⟩
  cases call with
  | start valid locked =>
    exact ⟨changes_of_start hc (fun _ _ _ _ => trivial) (fun _ _ _ _ => trivial) hs,
      (Host.start_sane hc (fun _ _ _ _ => trivial) (fun _ _ _ _ => trivial) hs).sound⟩
  | receive x =>
    exact ⟨changes_of_receive hc (fun _ _ => trivial) hs,
      (Host.receive_sane hc (fun _ _ => trivial) hs).sound⟩
  | expire t =>
    exact ⟨changes_of_expire hc (by simp) hs, (Host.expire_sane hc hs).sound⟩
  | stop =>
    cases hs
    refine ⟨?_, { hc with }⟩
    have hstop : Change p ⟨c.machine, c.log ++ [.called .stop c.machine]⟩
        ⟨c.machine.stop, (c.log ++ [.called .stop c.machine]) ++ [].map .did⟩ :=
      .resign ⟨rfl, rfl, rfl, rfl, rfl, .inr rfl⟩ (by simp)
    simpa [within, Context.start] using Relation.ReflTransGen.single hstop

/-- What every call on a sound epoch keeps, a run keeps. -/
theorem run_keeps {motive : Course σ → Prop} {calls : List (Call × σ)}
    (round : ∀ d x d', x ∈ calls → p.Sound (fun _ => True) d.machine → motive d →
      d.take p x.1 x.2 = .ok d' → motive d')
    (hc : p.Sound (fun _ => True) c.machine) (h : c.run p calls = .ok c') (start : motive c) :
    motive c' ∧ p.Sound (fun _ => True) c'.machine := by
  unfold run at h
  refine foldlM_keeps (motive := fun d => motive d ∧ p.Sound (fun _ => True) d.machine)
    ?_ h ⟨start, hc⟩
  rintro d x d' hx ⟨hmotive, hd⟩ taken
  exact ⟨round d x d' hx hd hmotive taken, (take_changes hd taken).2⟩

/-- **So is every run of calls.** -/
theorem run_changes {calls : List (Call × σ)} (hc : p.Sound (fun _ => True) c.machine)
    (h : c.run p calls = .ok c') : Changes p c c' ∧ p.Sound (fun _ => True) c'.machine :=
  run_keeps (motive := Changes p c)
    (fun _ _ _ _ hd hpath taken => hpath.trans (take_changes hd taken).1) hc h .refl

/-- An epoch that was never called holds nothing. -/
theorem sound_create (epoch : Epoch) (policy : Policy) (pendingLimit : Nat) :
    p.Sound heard (create (σ := σ) epoch policy pendingLimit).machine := by
  refine ⟨?_, ?_, ?_, ⟨rfl, ?_⟩, ?_, ?_⟩ <;> intro x hx <;> cases hx

end EpochConsensus.Course
