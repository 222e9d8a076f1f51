import EpochConsensus.Proofs.Basic
import EpochConsensus.Scheduler
import Mathlib.Algebra.Order.Group.Nat
import Mathlib.Algebra.Order.Sub.Basic
import Mathlib.Logic.Relation
import Mathlib.Order.MinMax

/-! # Timeouts on time, and once

The one timer of a scheduler is set in two places: after a wake-up for the earliest deadline that
waits, or an idle period ahead, and at a request for its deadline if that is earlier.  Together
they keep it at the earliest deadline at all times, as if it had been set from all requests at the
last wake-up (`Scheduler.ArmedSince`).

`Timekeeper.Step` lists what can happen around a scheduler, in any order: requests come in and are
seen, time passes, the timer goes off at some moment from the one that it is set for on, and what
fired is taken, until the output queue is closed.  A `Timekeeper.Log` keeps what was accepted, and
what was removed when.  `steps_fire_once` compares the two after any steps.

The calls of a `Timekeeper` are runs of such steps (`exists_steps_sleep` and what follows it).  Its
clock stops at every deadline on the way, so that nothing is due any more wherever it is moved to
(`atRest_sleep`).
-/
namespace EpochConsensus

namespace Scheduler

variable {s : Scheduler} {r now m : Millis} {t : Timeout} {e : Millis × Timeout}

/-! ### The timer -/

/-- Nothing before the earliest moment of a list is in it. -/
theorem le_foldl_min {l : List (Millis × Timeout)} :
    m ≤ l.foldl (fun d e => min d e.1) r ↔ m ≤ r ∧ ∀ e ∈ l, m ≤ e.1 := by
  induction l generalizing r with
  | nil => simp
  | cons e l ih => rw [List.foldl_cons, ih, le_min_iff, List.forall_mem_cons, and_assoc]

theorem foldl_min_eq {l : List (Millis × Timeout)} :
    l.foldl (fun d e => min d e.1) r = r ∨ ∃ e ∈ l, l.foldl (fun d e => min d e.1) r = e.1 := by
  induction l generalizing r with
  | nil => exact .inl rfl
  | cons e l ih =>
    rw [List.foldl_cons]
    rcases ih (r := min r e.1) with h | ⟨e', he', h⟩
    · rw [h]
      rcases min_choice r e.1 with hmin | hmin
      · exact .inl hmin
      · exact .inr ⟨e, List.mem_cons_self, hmin⟩
    · exact .inr ⟨e', List.mem_cons_of_mem e he', h⟩

/-- The timer was set at `r` for the earliest deadline, and has followed the requests since. -/
def ArmedSince (s : Scheduler) (r : Millis) : Prop := s.armed = s.nextDeadline r

theorem armedSince_start (now : Millis) : (start now).ArmedSince now := rfl

theorem ArmedSince.accept (h : s.ArmedSince r) (now : Millis) (t : Timeout) :
    (s.accept now t).ArmedSince r := by
  have harmed : s.armed = s.pending.foldl (fun d e => min d e.1) (r + idle) := h
  simp [ArmedSince, nextDeadline, Scheduler.accept, List.foldl_append, harmed]

theorem armedSince_wake (s : Scheduler) (now : Millis) : (s.wake now).2.ArmedSince now := rfl

theorem ArmedSince.le_iff (h : s.ArmedSince r) :
    m ≤ s.armed ↔ m ≤ r + idle ∧ ∀ e ∈ s.pending, m ≤ e.1 := by
  rw [h, nextDeadline, le_foldl_min]

theorem ArmedSince.le_idle (h : s.ArmedSince r) : s.armed ≤ r + idle := (h.le_iff.mp le_rfl).1

theorem ArmedSince.le_deadline (h : s.ArmedSince r) (he : e ∈ s.pending) : s.armed ≤ e.1 :=
  (h.le_iff.mp le_rfl).2 e he

/-- The timer is set for a deadline, unless all are further away than an idle period. -/
theorem ArmedSince.eq_idle_or_deadline (h : s.ArmedSince r) :
    s.armed = r + idle ∨ ∃ e ∈ s.pending, s.armed = e.1 := by
  rw [h]
  exact foldl_min_eq

/-! ### A wake-up -/

theorem pending_wake (s : Scheduler) (now : Millis) :
    (s.wake now).2.pending = s.pending.filter fun e => ¬ e.1 ≤ now := rfl

theorem mem_pending_wake : e ∈ (s.wake now).2.pending ↔ e ∈ s.pending ∧ now < e.1 := by
  simp [pending_wake]

end Scheduler

namespace Timekeeper

variable {k : Timekeeper} {t : Timeout}

/-! ### The queues -/

theorem eq_of_create {capacity : Nat} (created : create capacity = .ok k) :
    k = ⟨capacity, 0, [], .start 0, [], true, true⟩ := by
  obtain ⟨n, hn, h⟩ := bind_eq_ok.mp created
  unfold queueCapacity at hn
  split at hn
  · cases hn
  · split at hn
    · cases hn
    · cases hn
      cases h
      rfl

theorem schedule_eq (k : Timekeeper) (t : Timeout) :
    (k.schedule t).1 = { k with requests := (k.schedule t).1.requests } := by
  unfold schedule
  split <;> rfl

theorem take_eq (k : Timekeeper) : k.take.2 = { k with fired := k.take.2.fired } := by
  unfold take
  split <;> rfl

/-- Nothing is lost in taking. -/
theorem take_fired (k : Timekeeper) : k.take.1.toList ++ k.take.2.fired = k.fired := by
  unfold take
  split
  · rfl
  · rename_i hqueue
    exact hqueue.symm

/-- Publishing changes nothing but the output queue. -/
theorem publish_eq (k : Timekeeper) (t : Timeout) :
    k.publish t = { k with fired := (k.publish t).fired } := by
  unfold publish
  split <;> rfl

theorem foldl_publish_eq (k : Timekeeper) (ts : List Timeout) :
    ts.foldl publish k = { k with fired := (ts.foldl publish k).fired } := by
  induction ts generalizing k with
  | nil => rfl
  | cons t ts ih => rw [List.foldl_cons, ih, publish_eq k t]

theorem fire_eq (k : Timekeeper) :
    k.fire = { k with scheduler := (k.scheduler.wake k.now).2, fired := k.fire.fired } := by
  unfold fire
  simp only
  rw [foldl_publish_eq]

/-- Lets the scheduler see a request, in front of those that wait still. -/
def seeing (k : Timekeeper) (t : Timeout) (rest : List Timeout) : Timekeeper :=
  { k with requests := rest, scheduler := k.scheduler.accept k.now t }

/-! ### What a run has done -/

/-- A request that was removed, and the output queue at that moment. -/
structure Expiry where
  /-- Which wake-up removed it; they are counted from zero. -/
  wakeUp : Nat
  moment : Millis
  deadline : Millis
  timeout : Timeout
  /-- Whether the queue was open. -/
  attended : Bool
  before : List Timeout
  after : List Timeout

namespace Expiry

variable (x : Expiry)

/-- The request as it waited. -/
def request : Millis × Timeout := (x.deadline, x.timeout)

/-- Whether the timeout was put last into the output queue. -/
def isPublished : Bool := x.after = x.before ++ [x.timeout]

end Expiry

/-- The removal of these requests in one wake-up, one after the other. -/
def expiries (wakeUp : Nat) (k : Timekeeper) : List (Millis × Timeout) → List Expiry
  | [] => []
  | e :: es =>
    ⟨wakeUp, k.now, e.1, e.2, k.attended, k.fired, (k.publish e.2).fired⟩ ::
      expiries wakeUp (k.publish e.2) es

/-- Where a run has come to, and what was accepted, removed and taken on the way.  Requests that are
equal are not told apart. -/
structure Log where
  keeper : Timekeeper
  /-- When the timer was last set for the earliest deadline of all. -/
  rearmed : Millis
  /-- How often the timer has gone off. -/
  wakeUps : Nat
  /-- Deadlines and timeouts, in the order in which the scheduler saw them. -/
  accepted : List (Millis × Timeout)
  removed : List Expiry
  taken : List Timeout

namespace Log

/-- Nothing is done yet. -/
def start (k : Timekeeper) : Log := ⟨k, k.now, 0, [], [], []⟩

variable (l : Log)

/-- The scheduler sees a request. -/
def see (t : Timeout) (rest : List Timeout) : Log :=
  { l with
    keeper := l.keeper.seeing t rest
    accepted := l.accepted ++ [(l.keeper.now + t.duration, t)] }

/-- The requests that a wake-up removes now. -/
def gone : List Expiry :=
  expiries l.wakeUps l.keeper (l.keeper.scheduler.pending.filter fun e => e.1 ≤ l.keeper.now)

/-- The scheduler wakes up. -/
def fire : Log :=
  { l with
    keeper := l.keeper.fire
    rearmed := l.keeper.now
    wakeUps := l.wakeUps + 1
    removed := l.removed ++ l.gone }

/-- Somebody takes the oldest timeout that fired. -/
def take : Log :=
  { l with
    keeper := l.keeper.take.2
    taken := l.taken ++ l.keeper.take.1.toList }

end Log

/-- What can happen next. -/
inductive Step : Log → Log → Prop
  | schedule {l : Log} (t : Timeout) :
    Step l { l with keeper := (l.keeper.schedule t).1 }
  | pass {l : Log} (ms : Millis) :
    Step l { l with keeper := { l.keeper with now := l.keeper.now + ms } }
  | see {l : Log} {t : Timeout} {rest : List Timeout} (running : l.keeper.running = true)
      (waits : l.keeper.requests = t :: rest) : Step l (l.see t rest)
  /-- The timer goes off at the moment that it is armed for, or later. -/
  | fire {l : Log} (running : l.keeper.running = true)
      (late : l.keeper.scheduler.armed ≤ l.keeper.now) : Step l l.fire
  | take {l : Log} : Step l l.take
  | leave {l : Log} : Step l { l with keeper := l.keeper.leave }
  | close {l : Log} : Step l { l with keeper := { l.keeper with running := false } }

/-- Any number of steps. -/
abbrev Steps : Log → Log → Prop := Relation.ReflTransGen Step

/-! ### One wake-up -/

theorem map_request_expiries (wakeUp : Nat) (k : Timekeeper) (es : List (Millis × Timeout)) :
    (expiries wakeUp k es).map Expiry.request = es := by
  induction es generalizing k with
  | nil => rfl
  | cons e es ih => rw [expiries, List.map_cons, ih, Expiry.request]

/-- A timeout that fires is published if there is room. -/
theorem isPublished_publish (k : Timekeeper) (t : Timeout) :
    decide ((k.publish t).fired = k.fired ++ [t]) =
      (k.attended && decide (k.fired.length < k.capacity)) := by
  unfold publish
  split
  · rename_i room
    simp [room]
  · rename_i full
    simp [full]

theorem mem_expiries {wakeUp : Nat} {es : List (Millis × Timeout)} {x : Expiry}
    (hx : x ∈ expiries wakeUp k es) : x.wakeUp = wakeUp ∧ x.moment = k.now ∧
      x.isPublished = (x.attended && decide (x.before.length < k.capacity)) := by
  induction es generalizing k with
  | nil => cases hx
  | cons e es ih =>
    rcases List.mem_cons.mp hx with rfl | hx
    · exact ⟨rfl, rfl, k.isPublished_publish e.2⟩
    · have hrest := ih hx
      rw [publish_eq] at hrest
      exact hrest

/-- The output queue grows by what was published. -/
theorem fired_expiries (wakeUp : Nat) (k : Timekeeper) (es : List (Millis × Timeout)) :
    ((es.map (·.2)).foldl publish k).fired =
      k.fired ++ ((expiries wakeUp k es).filter Expiry.isPublished).map Expiry.timeout := by
  induction es generalizing k with
  | nil => simp [expiries]
  | cons e es ih =>
    rw [List.map_cons, List.foldl_cons, ih, expiries, List.filter_cons, Expiry.isPublished]
    by_cases put : (k.publish e.2).fired = k.fired ++ [e.2]
    · simp [put]
    · have hsame : (k.publish e.2).fired = k.fired := by
        unfold publish at put ⊢
        split
        · rename_i room
          simp [room] at put
        · rfl
      simp [hsame]

theorem fired_fire (l : Log) :
    l.keeper.fire.fired = l.keeper.fired ++ (l.gone.filter Expiry.isPublished).map Expiry.timeout :=
  fired_expiries ..

/-- A wake-up removes some requests and leaves the others. -/
theorem perm_gone (l : Log) :
    (l.gone.map Expiry.request ++ l.keeper.fire.scheduler.pending).Perm
      l.keeper.scheduler.pending := by
  rw [Log.gone, map_request_expiries, fire_eq, Scheduler.pending_wake]
  simp only [decide_not]
  exact List.filter_append_perm _ _

theorem fire_log_eq (l : Log) :
    l.fire = { l with
      keeper := { l.keeper with
        scheduler := (l.keeper.scheduler.wake l.keeper.now).2
        fired := l.keeper.fire.fired }
      rearmed := l.keeper.now
      wakeUps := l.wakeUps + 1
      removed := l.removed ++ l.gone } :=
  congrArg (fun k => ({ l with
    keeper := k
    rearmed := l.keeper.now
    wakeUps := l.wakeUps + 1
    removed := l.removed ++ l.gone } : Log)) l.keeper.fire_eq

theorem take_log_eq (l : Log) :
    l.take = { l with
      keeper := { l.keeper with fired := l.keeper.take.2.fired }
      taken := l.taken ++ l.keeper.take.1.toList } :=
  congrArg (fun k => ({ l with
    keeper := k
    taken := l.taken ++ l.keeper.take.1.toList } : Log)) l.keeper.take_eq

theorem mem_gone {l : Log} {x : Expiry} (hx : x ∈ l.gone) :
    x.wakeUp = l.wakeUps ∧ x.moment = l.keeper.now ∧ x.deadline ≤ l.keeper.now ∧
      x.isPublished = (x.attended && decide (x.before.length < l.keeper.capacity)) := by
  have hrequest : x.request ∈ l.gone.map Expiry.request := List.mem_map_of_mem hx
  rw [Log.gone, map_request_expiries, List.mem_filter, decide_eq_true_iff] at hrequest
  obtain ⟨hwakeUp, hmoment, hpublished⟩ := mem_expiries hx
  exact ⟨hwakeUp, hmoment, hrequest.2, hpublished⟩

/-! ### Runs -/

/-- What holds after any steps. -/
structure Log.Sound (capacity : Nat) (l : Log) : Prop where
  size : l.keeper.capacity = capacity
  past : l.rearmed ≤ l.keeper.now
  armed : l.keeper.scheduler.ArmedSince l.rearmed
  /-- What was accepted was removed or still waits, and is not both. -/
  kept : l.accepted.Perm (l.removed.map Expiry.request ++ l.keeper.scheduler.pending)
  due : ∀ x ∈ l.removed, x.deadline ≤ x.moment
  room : ∀ x ∈ l.removed, x.isPublished = (x.attended && decide (x.before.length < capacity))
  /-- What was published was taken in this order, or is still to be taken. -/
  given : l.taken ++ l.keeper.fired = (l.removed.filter Expiry.isPublished).map Expiry.timeout

variable {capacity : Nat} {l l' : Log}

theorem sound_start (created : create capacity = .ok k) : (Log.start k).Sound capacity := by
  rw [eq_of_create created]
  exact ⟨rfl, le_rfl, Scheduler.armedSince_start 0, .nil, by simp [Log.start], by simp [Log.start],
    rfl⟩

theorem Step.sound (step : Step l l') (hl : l.Sound capacity) : l'.Sound capacity := by
  cases step with
  | schedule t =>
    rw [schedule_eq]
    exact { hl with }
  | pass ms => exact { hl with past := Nat.le_add_right_of_le hl.past }
  | @see t rest running waits =>
    refine { hl with armed := hl.armed.accept _ _, kept := ?_ }
    have hkept := hl.kept.append_right [(l.keeper.now + t.duration, t)]
    rwa [List.append_assoc] at hkept
  | fire running late =>
    rw [fire_log_eq]
    refine { hl with
      past := le_rfl
      armed := Scheduler.armedSince_wake _ _
      kept := ?_
      due := List.forall_mem_append.mpr ⟨hl.due, fun x hx => ?_⟩
      room := List.forall_mem_append.mpr ⟨hl.room, fun x hx => hl.size ▸ (mem_gone hx).2.2.2⟩
      given := ?_ }
    · rw [List.map_append, List.append_assoc]
      exact hl.kept.trans ((perm_gone l).symm.append_left _)
    · obtain ⟨-, hmoment, hdue, -⟩ := mem_gone hx
      exact hmoment ▸ hdue
    · show l.taken ++ l.keeper.fire.fired = _
      rw [fired_fire, ← List.append_assoc, hl.given, List.filter_append, List.map_append]
  | take =>
    rw [take_log_eq]
    refine { hl with given := ?_ }
    show (l.taken ++ l.keeper.take.1.toList) ++ l.keeper.take.2.fired = _
    rw [List.append_assoc, take_fired]
    exact hl.given
  | leave => exact { hl with }
  | close => exact { hl with }

theorem Steps.sound (steps : Steps l l') (hl : l.Sound capacity) : l'.Sound capacity := by
  induction steps with
  | refl => exact hl
  | tail _ last ih => exact last.sound ih

/-- **Every timeout fires once, on time, and never early.**  After any steps the timer is set for
no later than the earliest deadline that waits, nor than an idle period after it was last set from
all of them.  What was removed was due then.  A wake-up removes all that is due and nothing else.
Every request that was accepted was either removed, once, or waits still.  What was removed was put
into the output queue at that moment, unless the queue was closed or full; and what was put there,
in this order, is what was taken and what is still to be taken. -/
theorem steps_fire_once (created : create capacity = .ok k) (steps : Steps (.start k) l) :
    (∀ e ∈ l.keeper.scheduler.pending, l.keeper.scheduler.armed ≤ e.1) ∧
    (l.rearmed ≤ l.keeper.now ∧ l.keeper.scheduler.armed ≤ l.rearmed + Scheduler.idle) ∧
    (∀ x ∈ l.removed, x.deadline ≤ x.moment) ∧
    (∀ e, e ∈ l.fire.keeper.scheduler.pending ↔
      e ∈ l.keeper.scheduler.pending ∧ l.keeper.now < e.1) ∧
    (∃ gone, l.fire.removed = l.removed ++ gone ∧
      gone.map Expiry.request =
        l.keeper.scheduler.pending.filter (fun e => e.1 ≤ l.keeper.now) ∧
      (∀ x ∈ gone, x.moment = l.keeper.now) ∧
      l.fire.keeper.fired =
        l.keeper.fired ++ (gone.filter Expiry.isPublished).map Expiry.timeout) ∧
    l.accepted.Perm (l.removed.map Expiry.request ++ l.keeper.scheduler.pending) ∧
    (∀ x ∈ l.removed, x.isPublished = (x.attended && decide (x.before.length < capacity))) ∧
    l.taken ++ l.keeper.fired = (l.removed.filter Expiry.isPublished).map Expiry.timeout := by
  have hl := Steps.sound steps (sound_start created)
  refine ⟨fun e he => hl.armed.le_deadline he, ⟨hl.past, hl.armed.le_idle⟩, hl.due, ?_, ?_,
    hl.kept, hl.room, hl.given⟩
  · intro e
    rw [fire_log_eq]
    exact Scheduler.mem_pending_wake
  · exact ⟨l.gone, rfl, map_request_expiries .., fun x hx => (mem_gone hx).2.1, fired_fire l⟩

/-- A late wake-up with room for one timeout, while another request waits for longer than the timer
ever does. -/
theorem steps_fire_once_late : ∃ k l, create 1 = .ok k ∧ Steps (.start k) l ∧
    l.removed.map (fun x => (x.timeout, x.moment, x.isPublished)) =
      [(⟨1, .propose, 500⟩, 700, true), (⟨1, .quitEpoch, 0⟩, 700, false)] ∧
    l.keeper.scheduler = ⟨[(100000, ⟨2, .propose, 100000⟩)], 60700⟩ ∧
    l.keeper.scheduler.armed ≤ l.rearmed + Scheduler.idle ∧
    l.accepted.Perm (l.removed.map Expiry.request ++ l.keeper.scheduler.pending) := by
  have created : create 1 = .ok ⟨1, 0, [], .start 0, [], true, true⟩ := rfl
  obtain ⟨l, steps, hremoved, hscheduler⟩ : ∃ l,
      Steps (.start ⟨1, 0, [], .start 0, [], true, true⟩) l ∧
      l.removed.map (fun x => (x.timeout, x.moment, x.isPublished)) =
        [(⟨1, .propose, 500⟩, 700, true), (⟨1, .quitEpoch, 0⟩, 700, false)] ∧
      l.keeper.scheduler = ⟨[(100000, ⟨2, .propose, 100000⟩)], 60700⟩ :=
    ⟨_, .tail (.tail (.tail (.tail (.tail (.tail (.tail (.tail .refl
      (.schedule ⟨1, .propose, 500⟩)) (.see rfl rfl))
      (.schedule ⟨1, .quitEpoch, 0⟩)) (.see rfl rfl))
      (.schedule ⟨2, .propose, 100000⟩)) (.see rfl rfl))
      (.pass 700)) (.fire rfl (by decide +kernel)), by decide +kernel⟩
  obtain ⟨-, ⟨-, hidle⟩, -, -, -, hkept, -⟩ := steps_fire_once created steps
  exact ⟨_, l, created, steps, hremoved, hscheduler, hidle, hkept⟩

/-! ### Calls -/

theorem see_of_requests {rest : List Timeout} (waits : k.requests = t :: rest) :
    k.see = (k.seeing t rest).see := by
  unfold see
  rw [waits]
  rfl

theorem exists_steps_see (running : l.keeper.running = true) :
    ∃ l', Steps l l' ∧ l'.keeper = l.keeper.see := by
  induction hwait : l.keeper.requests generalizing l with
  | nil =>
    refine ⟨l, .refl, ?_⟩
    unfold see
    rw [hwait]
    exact congrArg (fun ts => ({ l.keeper with requests := ts } : Timekeeper)) hwait
  | cons t rest ih =>
    obtain ⟨l', steps, heq⟩ := @ih (l.see t rest) running rfl
    exact ⟨l', .head (.see running hwait) steps, heq.trans (see_of_requests hwait).symm⟩

/-- The clock stands at the moment of the wake-up, and nothing else has changed but what waits and
what fired. -/
theorem wake_eq (k : Timekeeper) : k.wake =
    { k with
      now := max k.now k.scheduler.armed
      scheduler := (k.scheduler.wake (max k.now k.scheduler.armed)).2
      fired := k.wake.fired } :=
  fire_eq _

theorem exists_steps_wake (running : l.keeper.running = true) :
    ∃ l', Steps l l' ∧ l'.keeper = l.keeper.wake := by
  have hnow : l.keeper.now + (l.keeper.scheduler.armed - l.keeper.now) =
      max l.keeper.now l.keeper.scheduler.armed := add_tsub_eq_max
  refine ⟨_, .tail (.single (.pass (l.keeper.scheduler.armed - l.keeper.now))) (.fire running ?_),
    ?_⟩
  · exact hnow ▸ le_max_right _ _
  · simp only [Log.fire, hnow]
    rfl

theorem exists_steps_wakeUntil (rounds : Nat) {target : Millis} (running : l.keeper.running = true)
    (early : l.keeper.now ≤ target) :
    ∃ l', Steps l l' ∧ l'.keeper = wakeUntil rounds target l.keeper ∧ l'.keeper.now ≤ target := by
  induction rounds generalizing l with
  | zero => exact ⟨l, .refl, rfl, early⟩
  | succ rounds ih =>
    rw [wakeUntil]
    split
    · rename_i due
      obtain ⟨l₁, steps, heq⟩ := exists_steps_wake running
      have hwake := heq.trans l.keeper.wake_eq
      obtain ⟨l', more, hend⟩ := @ih l₁ (hwake ▸ running) (hwake ▸ max_le early due)
      exact ⟨l', steps.trans more, heq ▸ hend⟩
    · exact ⟨l, .refl, rfl, early⟩

/-- Moving the clock ahead is a run, whether the scheduler runs or not. -/
theorem exists_steps_sleep (l : Log) (ms : Millis) :
    ∃ l', Steps l l' ∧ l'.keeper = l.keeper.sleep ms := by
  cases running : l.keeper.running with
  | false =>
    refine ⟨_, .single (.pass ms), ?_⟩
    simp [sleep, running]
  | true =>
    obtain ⟨l₁, seen, heq₁⟩ := exists_steps_see running
    have hrunning : l₁.keeper.running = true := heq₁ ▸ running
    obtain ⟨l₂, woken, heq₂, htime⟩ := exists_steps_wakeUntil
      (l₁.keeper.scheduler.pending.length + ms / Scheduler.idle + 2) hrunning
      (Nat.le_add_right l₁.keeper.now ms)
    refine ⟨_, .tail (seen.trans woken) (.pass (l₁.keeper.now + ms - l₂.keeper.now)), ?_⟩
    simp only [Nat.add_sub_cancel' htime]
    simp only [sleep, running, if_true, heq₂, heq₁]
    rfl

theorem exists_steps_drain (l : Log) : ∃ l', Steps l l' ∧
    l'.keeper = l.keeper.drain.2 ∧ l'.taken = l.taken ++ l.keeper.drain.1 := by
  induction hqueue : l.keeper.fired generalizing l with
  | nil =>
    refine ⟨l, .refl, ?_, ?_⟩
    · exact congrArg (fun ts => ({ l.keeper with fired := ts } : Timekeeper)) hqueue
    · simp [drain, hqueue]
  | cons t fired ih =>
    have htake : l.keeper.take = (some t, { l.keeper with fired }) := by
      unfold take
      rw [hqueue]
    obtain ⟨l', steps, hkeeper, htaken⟩ := ih l.take (by simp [Log.take, htake])
    refine ⟨l', .head .take steps, ?_, ?_⟩
    · rw [hkeeper]
      simp [Log.take, htake, drain]
    · rw [htaken]
      simp [Log.take, htake, drain, hqueue]

theorem exists_steps_close (l : Log) : ∃ l', Steps l l' ∧ l'.keeper = l.keeper.close := by
  obtain ⟨l', steps, heq⟩ := exists_steps_sleep l 0
  refine ⟨_, .tail steps .close, ?_⟩
  rw [heq]
  rfl

/-! ### Nothing is left behind -/

/-- The timer is set for a moment that is still to come. -/
def AtRest (k : Timekeeper) : Prop :=
  ∃ r, k.scheduler.ArmedSince r ∧ r ≤ k.now ∧ k.now < k.scheduler.armed

theorem AtRest.not_due (rest : k.AtRest) {e : Millis × Timeout}
    (waits : e ∈ k.scheduler.pending) : k.now < e.1 := by
  obtain ⟨r, harmed, -, hnow⟩ := rest
  exact hnow.trans_le (harmed.le_deadline waits)

theorem atRest_create {capacity : Nat} (created : create capacity = .ok k) : k.AtRest := by
  rw [eq_of_create created]
  exact ⟨0, Scheduler.armedSince_start 0, le_rfl, Nat.zero_lt_succ _⟩

/-- A wake-up at the moment that the timer is set for fires a timeout, or comes an idle period
after the one before. -/
theorem wake_uses {r target : Millis} (armed : k.scheduler.ArmedSince r) (past : r ≤ k.now)
    (due : k.scheduler.armed ≤ target) (early : k.now ≤ target) :
    k.wake.scheduler.pending.length + (target - k.wake.now) / Scheduler.idle <
      k.scheduler.pending.length + (target - r) / Scheduler.idle := by
  have hpast : r ≤ max k.now k.scheduler.armed := past.trans (le_max_left _ _)
  have harmed : k.scheduler.armed ≤ max k.now k.scheduler.armed := le_max_right _ _
  have hnow : max k.now k.scheduler.armed ≤ target := max_le early due
  rw [wake_eq]
  generalize max k.now k.scheduler.armed = now at hpast harmed hnow
  rw [Scheduler.pending_wake]
  rcases armed.eq_idle_or_deadline with hidle | ⟨e, he, hdeadline⟩
  -- Nothing may be due, but then an idle period has passed since `r`.
  · refine Nat.add_lt_add_of_le_of_lt (List.length_filter_le _ _) ?_
    rw [hidle] at harmed
    have hlater : target - now + Scheduler.idle ≤ target - r := by
      refine Nat.le_sub_of_add_le ?_
      calc target - now + Scheduler.idle + r
          = target - now + (r + Scheduler.idle) := by rw [Nat.add_assoc, Nat.add_comm r]
        _ ≤ target - now + now := Nat.add_le_add_left harmed _
        _ = target := Nat.sub_add_cancel hnow
    calc (target - now) / Scheduler.idle
        < (target - now) / Scheduler.idle + 1 := Nat.lt_succ_self _
      _ = (target - now + Scheduler.idle) / Scheduler.idle :=
        (Nat.add_div_right _ (Nat.zero_lt_succ _)).symm
      _ ≤ (target - r) / Scheduler.idle := Nat.div_le_div_right hlater
  -- Otherwise the timeout that the timer was set for is removed.
  · refine Nat.add_lt_add_of_lt_of_le ?_ (Nat.div_le_div_right (Nat.sub_le_sub_left hpast target))
    refine List.length_filter_lt_length_iff_exists.mpr ⟨e, he, ?_⟩
    simpa [← hdeadline] using harmed

/-- Enough rounds set the timer for a moment after the target.  The measure goes by the moment `r`
of the last wake-up and not by the clock, which need not move when a timeout is due at once. -/
theorem wakeUntil_armed {rounds : Nat} {r : Millis} (target : Millis)
    (armed : k.scheduler.ArmedSince r) (past : r ≤ k.now) (early : k.now ≤ target)
    (enough : k.scheduler.pending.length + (target - r) / Scheduler.idle < rounds) :
    ∃ r', (wakeUntil rounds target k).scheduler.ArmedSince r' ∧ r' ≤ target ∧
      target < (wakeUntil rounds target k).scheduler.armed := by
  induction rounds generalizing k r with
  | zero => exact absurd enough (Nat.not_lt_zero _)
  | succ rounds ih =>
    rw [wakeUntil]
    split
    · rename_i due
      have huses := wake_uses armed past due early
      have hwake := k.wake_eq
      refine @ih k.wake k.wake.now ?_ le_rfl ?_ ?_
      · rw [hwake]
        exact Scheduler.armedSince_wake _ _
      · rw [hwake]
        exact max_le early due
      · exact huses.trans_le (Nat.le_of_lt_succ enough)
    · rename_i later
      exact ⟨r, armed, past.trans early, Nat.lt_of_not_le later⟩

/-- **On a clock that stops at every deadline, nothing is left behind.**  The rounds suffice:
wherever the clock is moved to, the timer is set for a later moment. -/
theorem atRest_sleep (running : k.running = true) (rest : k.AtRest) (ms : Millis) :
    (k.sleep ms).AtRest := by
  obtain ⟨r, harmed, hpast, hnow⟩ := rest
  have hseen : ∀ (ts : List Timeout) (s : Scheduler), s.ArmedSince r →
      (ts.foldl (fun s t => s.accept k.now t) s).ArmedSince r := by
    intro ts
    induction ts with
    | nil => exact fun s hs => hs
    | cons t ts ih => exact fun s hs => ih _ (hs.accept k.now t)
  -- Since the timer is at rest, the last wake-up is less than an idle period ago.
  have hms : k.now + ms - r ≤ ms + Scheduler.idle := by
    refine Nat.sub_le_of_le_add ?_
    calc k.now + ms
        ≤ r + Scheduler.idle + ms := Nat.add_le_add_right (hnow.le.trans harmed.le_idle) ms
      _ = ms + Scheduler.idle + r := by rw [Nat.add_comm, Nat.add_comm r, Nat.add_assoc]
  have henough : (k.now + ms - r) / Scheduler.idle < ms / Scheduler.idle + 2 := by
    refine Nat.lt_succ_of_le ((Nat.div_le_div_right hms).trans_eq ?_)
    exact Nat.add_div_right ms (Nat.zero_lt_succ _)
  obtain ⟨r', hr', htarget, hlater⟩ := wakeUntil_armed (k := k.see) (k.now + ms)
    (hseen k.requests k.scheduler harmed) hpast (Nat.le_add_right _ _)
    (Nat.add_lt_add_left henough _)
  unfold sleep
  simp only [running, if_true]
  exact ⟨r', hr', htarget, hlater⟩

end Timekeeper

end EpochConsensus
