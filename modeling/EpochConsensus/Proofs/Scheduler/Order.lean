import EpochConsensus.Proofs.Scheduler

/-! # The order of timeouts

A wake-up leaves nothing behind that is due, so whatever waits after it, and whatever is requested
later, has its deadline at that moment or after (`Log.Ordered.le_gone`).  Timeouts of different
wake-ups therefore come in the order of their deadlines.  Within one wake-up they come in the order
in which they were seen: a wake-up that comes after two deadlines may publish the later one first
(`exists_inverted`), and nothing else disturbs the order (`steps_ordered`).  The clock may stand
still between two wake-ups, so they are told apart by their numbers.
-/
namespace EpochConsensus.Timekeeper

variable {k : Timekeeper} {l l' : Log} {capacity : Nat} {accepted : List (Millis × Timeout)}
  {x y : Expiry}

/-- The deadlines are in order, or one wake-up found both due and the requests were seen in this
order. -/
def Expiry.Precedes (accepted : List (Millis × Timeout)) (x y : Expiry) : Prop :=
  x.deadline ≤ y.deadline ∨
    x.wakeUp = y.wakeUp ∧ x.moment = y.moment ∧ [x.request, y.request].Sublist accepted

theorem Expiry.Precedes.mono (h : x.Precedes accepted y) (more : List (Millis × Timeout)) :
    x.Precedes (accepted ++ more) y :=
  h.imp_right fun ⟨wakeUp, moment, seen⟩ =>
    ⟨wakeUp, moment, seen.trans (List.sublist_append_left accepted more)⟩

namespace Log

/-- What was put into the output queue, in this order. -/
def published (l : Log) : List Expiry := l.removed.filter Expiry.isPublished

/-- No timeout was published after one of a later deadline. -/
def InDeadlineOrder (l : Log) : Prop := (l.published.map Expiry.deadline).Pairwise (· ≤ ·)

instance (l : Log) : Decidable l.InDeadlineOrder :=
  inferInstanceAs (Decidable ((l.published.map Expiry.deadline).Pairwise (· ≤ ·)))

/-- What holds of the order after any steps. -/
structure Ordered (l : Log) : Prop where
  /-- Requests wait in the order in which they were seen. -/
  seen : l.keeper.scheduler.pending.Sublist l.accepted
  /-- Nothing that waits was due at the last wake-up, or only just. -/
  waits : ∀ e ∈ l.keeper.scheduler.pending, l.rearmed ≤ e.1
  /-- Whatever was removed was due by then. -/
  done : ∀ x ∈ l.removed, x.deadline ≤ l.rearmed
  removed : l.removed.Pairwise (Expiry.Precedes l.accepted)
  /-- The next wake-up has a number of its own. -/
  numbered : ∀ x ∈ l.removed, x.wakeUp < l.wakeUps

theorem ordered_start (k : Timekeeper) (idle : k.scheduler.pending = []) :
    (start k).Ordered := by
  constructor <;> simp [start, idle]

theorem gone_sublist (l : Log) :
    (l.gone.map Expiry.request).Sublist l.keeper.scheduler.pending := by
  rw [gone, map_request_expiries]
  exact List.filter_sublist

/-- A wake-up removes nothing with an earlier deadline than what was removed before. -/
theorem Ordered.le_gone (hl : l.Ordered) (hx : x ∈ l.removed) (hy : y ∈ l.gone) :
    x.deadline ≤ y.deadline :=
  (hl.done x hx).trans (hl.waits y.request (l.gone_sublist.subset (List.mem_map_of_mem hy)))

/-- One wake-up removes requests in the order in which they were seen. -/
theorem Ordered.gone (hl : l.Ordered) : l.gone.Pairwise (Expiry.Precedes l.accepted) := by
  rw [List.pairwise_iff_forall_sublist]
  intro x y hxy
  have hx : x ∈ l.gone := hxy.subset List.mem_cons_self
  have hy : y ∈ l.gone := hxy.subset (List.mem_cons_of_mem x List.mem_cons_self)
  obtain ⟨hwakeUp, hmoment, -⟩ := mem_gone hx
  obtain ⟨hwakeUp', hmoment', -⟩ := mem_gone hy
  exact .inr ⟨hwakeUp.trans hwakeUp'.symm, hmoment.trans hmoment'.symm,
    ((hxy.map Expiry.request).trans l.gone_sublist).trans hl.seen⟩

theorem Ordered.fire (hl : l.Ordered) (past : l.rearmed ≤ l.keeper.now) : l.fire.Ordered := by
  rw [fire_log_eq]
  refine ⟨List.filter_sublist.trans hl.seen, fun e he => ?_, ?_, ?_, ?_⟩
  · exact (Scheduler.mem_pending_wake.mp he).2.le
  · exact List.forall_mem_append.mpr
      ⟨fun x hx => (hl.done x hx).trans past, fun x hx => (mem_gone hx).2.2.1⟩
  · refine List.pairwise_append.mpr ⟨hl.removed, hl.gone, fun x hx y hy => ?_⟩
    exact .inl (hl.le_gone hx hy)
  · exact List.forall_mem_append.mpr ⟨fun x hx => Nat.lt_succ_of_lt (hl.numbered x hx),
      fun x hx => (mem_gone hx).1 ▸ Nat.lt_succ_self l.wakeUps⟩

end Log

/-- Steps keep the order. -/
theorem Step.ordered (step : Step l l') (past : l.rearmed ≤ l.keeper.now) (hl : l.Ordered) :
    l'.Ordered := by
  cases step with
  | schedule t =>
    rw [schedule_eq]
    exact { hl with }
  | pass ms => exact { hl with }
  | @see t rest running waits =>
    refine ⟨hl.seen.append (List.Sublist.refl _), List.forall_mem_append.mpr ⟨hl.waits, ?_⟩,
      hl.done, hl.removed.imp fun h => h.mono _, hl.numbered⟩
    exact List.forall_mem_singleton.mpr (past.trans (Nat.le_add_right _ _))
  | fire running late => exact hl.fire past
  | take =>
    rw [take_log_eq]
    exact { hl with }
  | leave => exact { hl with }
  | close => exact { hl with }

theorem Steps.ordered (steps : Steps (.start k) l) (created : create capacity = .ok k) :
    l.Ordered := by
  induction steps with
  | refl => exact Log.ordered_start k (by rw [eq_of_create created]; rfl)
  | tail steps last ih => exact last.ordered (Steps.sound steps (sound_start created)).past ih

/-- **Only a late wake-up disturbs the order of deadlines.**  Wherever a run has come to, a wake-up
puts timeouts behind what was published before, none with an earlier deadline, and in the order in
which their requests were seen.  So of two timeouts in the output queue the first is due no later
than the second, or one wake-up found both due and the first was seen first.  Where no wake-up
published two different deadlines, all are in the order of their deadlines. -/
theorem steps_ordered (created : create capacity = .ok k) (steps : Steps (.start k) l) :
    l.taken ++ l.keeper.fired = l.published.map Expiry.timeout ∧
    (l.fire.published = l.published ++ l.gone.filter Expiry.isPublished ∧
      (l.gone.map Expiry.request).Sublist l.accepted ∧
      ∀ x ∈ l.published, ∀ y ∈ l.gone, x.wakeUp < y.wakeUp ∧ x.deadline ≤ y.deadline) ∧
    l.published.Pairwise (Expiry.Precedes l.accepted) ∧
    ((∀ x ∈ l.published, ∀ y ∈ l.published, x.wakeUp = y.wakeUp → x.deadline = y.deadline) →
      l.InDeadlineOrder) := by
  have hl := Steps.ordered steps created
  have hpublished : l.published.Pairwise (Expiry.Precedes l.accepted) :=
    hl.removed.sublist List.filter_sublist
  refine ⟨(Steps.sound steps (sound_start created)).given,
    ⟨List.filter_append .., l.gone_sublist.trans hl.seen, fun x hx y hy => ?_⟩,
    hpublished, fun single => ?_⟩
  · have hremoved : x ∈ l.removed := (List.mem_filter.mp hx).1
    exact ⟨(mem_gone hy).1 ▸ hl.numbered x hremoved, hl.le_gone hremoved hy⟩
  · refine List.pairwise_map.mpr (hpublished.imp_of_mem fun {x y} hx hy hxy => ?_)
    rcases hxy with hle | ⟨hwakeUp, -⟩
    · exact hle
    · exact (single x hx y hy hwakeUp).le

/-- Two wake-ups at one moment.  The first is late, and only the second one finds the request that
was seen in between. -/
theorem steps_ordered_twice : ∃ k l, create 2 = .ok k ∧ Steps (.start k) l ∧
    l.keeper.fired = [⟨1, .propose, 500⟩, ⟨1, .quitEpoch, 0⟩] ∧
    l.published.map (fun x => (x.moment, x.deadline)) = [(700, 500), (700, 700)] ∧
    l.InDeadlineOrder := by
  have created : create 2 = .ok ⟨2, 0, [], .start 0, [], true, true⟩ := rfl
  obtain ⟨l, steps, hfired, hmoments, hsingle⟩ : ∃ l,
      Steps (.start ⟨2, 0, [], .start 0, [], true, true⟩) l ∧
      l.keeper.fired = [⟨1, .propose, 500⟩, ⟨1, .quitEpoch, 0⟩] ∧
      l.published.map (fun x => (x.moment, x.deadline)) = [(700, 500), (700, 700)] ∧
      ∀ x ∈ l.published, ∀ y ∈ l.published, x.wakeUp = y.wakeUp → x.deadline = y.deadline :=
    ⟨_, .tail (.tail (.tail (.tail (.tail (.tail (.tail .refl
      (.schedule ⟨1, .propose, 500⟩)) (.see rfl rfl)) (.pass 700)) (.fire rfl (by decide +kernel)))
      (.schedule ⟨1, .quitEpoch, 0⟩)) (.see rfl rfl)) (.fire rfl (by decide +kernel)),
      by decide +kernel⟩
  exact ⟨_, l, created, steps, hfired, hmoments, (steps_ordered created steps).2.2.2 hsingle⟩

/-- A wake-up that comes after two deadlines publishes the later one first, as its request was seen
first. -/
theorem exists_inverted : ∃ k l, create 2 = .ok k ∧ Steps (.start k) l ∧
    l.keeper.fired = [⟨1, .propose, 2000⟩, ⟨1, .equivocation, 500⟩] ∧
    l.published.map Expiry.deadline = [2000, 500] ∧ ¬ l.InDeadlineOrder := by
  refine ⟨⟨2, 0, [], .start 0, [], true, true⟩, _, rfl, .tail (.tail (.tail (.tail (.tail (.tail
    .refl (.schedule ⟨1, .propose, 2000⟩)) (.schedule ⟨1, .equivocation, 500⟩)) (.see rfl rfl))
    (.see rfl rfl)) (.pass 2000)) (.fire rfl (by decide +kernel)), ?_⟩
  decide +kernel

end EpochConsensus.Timekeeper
