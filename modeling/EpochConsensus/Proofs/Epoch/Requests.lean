import EpochConsensus.Epoch.Script
import EpochConsensus.Proofs.Epoch.Bookings

/-! # No timeout request is lost or doubled

Between two calls the request for a kind of timeout stands in one of few ways, by its timer and by
what is on the log (`Course.Booked`): it is not yet due, it was refused so far, or it was taken on
once.  Every booking keeps this, hence so does every call, and no run loses or doubles a request
(`Course.run_requests`).
-/
namespace EpochConsensus

variable {σ : Type}

/-! ### Requests on the log -/

namespace Effect

/-- The host takes a timeout of this kind on. -/
def takesOn (kind : TimeoutKind) : Effect → Bool
  | request t accepted => accepted && t.kind = kind
  | _ => false

theorem takesOn_of_not_isRequest {e : Effect} (h : e.isRequest = false) (kind : TimeoutKind) :
    e.takesOn kind = false := by
  cases e with
  | request t accepted => cases h
  | _ => rfl

end Effect

def Entry.takesOn (kind : TimeoutKind) : Entry σ → Bool
  | called _ _ => false
  | did x => x.effect.takesOn kind

namespace Course

/-- How many requests for a kind of timeout the host has taken on. -/
def taken (c : Course σ) (kind : TimeoutKind) : Nat := c.log.countP (·.takesOn kind)

/-- A request for a kind of timeout was taken on, or it is marked as refused. -/
def Asked (c : Course σ) (kind : TimeoutKind) : Prop :=
  0 < c.taken kind ∨ c.machine.timers.get kind = .refused

end Course

/-- The phases that come before any request for a kind of timeout. -/
def TimeoutKind.Early (phase : Phase) : TimeoutKind → Prop
  | propose | epochChange => phase = .inactive
  | equivocation | quitEpoch => phase = .inactive ∨ phase = .ready

/-- The epoch cannot go on for sure without a timeout of this kind. -/
def Host.Needs (p : Host σ) (m : Machine) : TimeoutKind → Prop
  | .propose => m.phase = .ready ∧ p.proposer m.epoch ≠ .ok p.id
  | .equivocation => m.phase = .locked
  | .quitEpoch => m.phase = .epochChange
  | .epochChange => False

/-! ### Calls and runs -/

namespace Course

variable {p : Host σ} {c c' : Course σ} {log : List (Entry σ)} {s s' t : Step σ}
  {kind l : TimeoutKind}

/-- How the request for a kind of timeout stands between two calls: it is not yet due, or it was
refused so far, or it was taken on once. -/
structure Booked (p : Host σ) (c : Course σ) (kind : TimeoutKind) : Prop where
  once : c.taken kind ≤ 1
  refused : c.machine.timers.get kind = .refused → c.taken kind = 0
  early : kind.Early c.machine.phase → c.machine.timers.get kind = .idle ∧ c.taken kind = 0
  needed : p.Needs c.machine kind → c.Asked kind

theorem taken_append (m : Machine) (new : List (Entry σ)) :
    (⟨m, c.log ++ new⟩ : Course σ).taken kind = c.taken kind + new.countP (·.takesOn kind) := by
  simp [taken, List.countP_append]

theorem taken_of_mute (h : s.Mute s') (log : List (Entry σ)) (kind : TimeoutKind) :
    (within log s').taken kind = (within log s).taken kind := by
  obtain ⟨xs, hxs, plain⟩ := h.moments
  rw [within_append hxs, taken_append, Nat.add_eq_left, List.countP_eq_zero]
  intro y hy
  obtain ⟨x, hx, rfl⟩ := List.mem_map.mp hy
  simp [Entry.takesOn, Effect.takesOn_of_not_isRequest (plain x hx)]

/-- What neither the timer nor the log of a kind of timeout shows makes no difference to it, unless
the epoch comes to wait. -/
theorem Booked.aside (h : Booked p c kind)
    (timer : c'.machine.timers.get kind = c.machine.timers.get kind)
    (taken : c'.taken kind = c.taken kind)
    (early : kind.Early c'.machine.phase → kind.Early c.machine.phase)
    (needed : p.Needs c'.machine kind → p.Needs c.machine kind) : Booked p c' kind := by
  refine ⟨taken ▸ h.once, ?_, ?_, ?_⟩
  · rw [timer, taken]
    exact h.refused
  · rw [timer, taken]
    exact h.early ∘ early
  · unfold Asked
    rw [timer, taken]
    exact h.needed ∘ needed

/-- A request that is not yet taken on goes on the log with its answer. -/
theorem within_schedule (log : List (Entry σ))
    (unaccepted : s.machine.timers.get kind ≠ .accepted) : ∃ accepted, ∃ x : Moment σ,
      x.effect = .request ⟨s.machine.epoch, kind, p.patience kind⟩ accepted ∧
      within log (p.schedule kind s) =
        ⟨{ s.machine with
            timers := s.machine.timers.set (if accepted then .accepted else .refused) kind },
          (within log s).log ++ [.did x]⟩ := by
  obtain ⟨accepted, world, heq⟩ := Host.schedule_of_unaccepted (p := p) kind unaccepted
  refine ⟨accepted, ⟨_, world, none⟩, rfl, ?_⟩
  rw [heq, within_append Array.toList_push]
  rfl

/-- A request of another kind makes no difference. -/
theorem Booked.schedule_other (h : Booked p (within log s) l) (other : l ≠ kind) :
    Booked p (within log (p.schedule kind s)) l := by
  by_cases haccepted : s.machine.timers.get kind = .accepted
  · rwa [Host.schedule, if_pos haccepted]
  obtain ⟨accepted, x, hx, heq⟩ := within_schedule (p := p) log haccepted
  rw [heq]
  refine h.aside ?_ ?_ id id
  · simp [within, Timers.get_set, other]
  · simp [taken_append, Entry.takesOn, Effect.takesOn, hx, Ne.symm other]

/-- A request that was not taken on before is now booked. -/
theorem booked_schedule (unaccepted : s.machine.timers.get kind ≠ .accepted)
    (untaken : (within log s).taken kind = 0) (late : ¬ kind.Early s.machine.phase) :
    Booked p (within log (p.schedule kind s)) kind := by
  obtain ⟨accepted, x, hx, heq⟩ := within_schedule (p := p) log unaccepted
  have htaken : (within log (p.schedule kind s)).taken kind = if accepted then 1 else 0 := by
    rw [heq, taken_append, untaken]
    cases accepted <;> simp [Entry.takesOn, Effect.takesOn, hx]
  have htimer : (within log (p.schedule kind s)).machine.timers.get kind =
      if accepted then .accepted else .refused := by
    rw [heq]
    simp [Timers.get_set]
  have hphase : (within log (p.schedule kind s)).machine.phase = s.machine.phase := by rw [heq]
  refine ⟨?_, ?_, ?_, fun _ => ?_⟩
  · rw [htaken]
    split <;> decide
  · rw [htaken, htimer]
    cases accepted <;> simp
  · rw [hphase]
    exact fun early => absurd early late
  · unfold Asked
    rw [htaken, htimer]
    cases accepted <;> simp

/-- **No change in the middle of a call loses or doubles a request.** -/
theorem booked_of_booking (booking : p.Booking s s') (h : ∀ l, Booked p (within log s) l) (l) :
    Booked p (within log s') l := by
  cases booking with
  | mute mute phase =>
    refine (h l).aside (by simp [within, mute.timers]) (taken_of_mute mute log l) ?_ ?_
    · show l.Early s'.machine.phase → l.Early s.machine.phase
      rcases phase with hphase | hphase | hphase
      · rw [hphase]
        exact id
      · cases l <;> simp [TimeoutKind.Early, hphase]
      · cases l <;> simp [TimeoutKind.Early, hphase]
    · show p.Needs s'.machine l → p.Needs s.machine l
      rcases phase with hphase | hphase | hphase <;>
        cases l <;> simp +contextual [Host.Needs, hphase, mute.epoch]
  | @again kind refused =>
    by_cases hl : l = kind
    · subst hl
      refine booked_schedule (by simp [refused]) ((h l).refused refused) fun early => ?_
      have hidle := ((h l).early early).1
      rw [show (within log s).machine.timers.get l = .refused from refused] at hidle
      cases hidle
    · exact (h l).schedule_other hl
  | @leave t kind ready mute waits =>
    have hready : (within log s).machine.phase = .ready := ready
    by_cases hl : l = kind
    · subst hl
      obtain ⟨hidle, hnone⟩ := (h l).early (by
        rcases waits with ⟨rfl, -⟩ | ⟨rfl, -⟩ <;> exact .inr ready)
      refine booked_schedule ?_ ((taken_of_mute mute log l).trans hnone) ?_
      · rw [mute.timers, show s.machine.timers.get l = .idle from hidle]
        simp
      · rcases waits with ⟨rfl, hphase⟩ | ⟨rfl, hphase⟩ <;> simp [TimeoutKind.Early, hphase]
    · refine Booked.schedule_other ?_ hl
      refine (h l).aside (by simp [within, mute.timers]) (taken_of_mute mute log l) ?_ ?_
      · rcases waits with ⟨rfl, hphase⟩ | ⟨rfl, hphase⟩ <;>
          cases l <;> simp [TimeoutKind.Early, within, hphase]
      · rcases waits with ⟨rfl, hphase⟩ | ⟨rfl, hphase⟩ <;>
          cases l <;> simp [Host.Needs, within, hphase] at hl ⊢

theorem booked_of_bookings (bookings : p.Bookings s s') (h : ∀ l, Booked p (within log s) l) :
    ∀ l, Booked p (within log s') l := by
  induction bookings with
  | refl => exact h
  | tail _ booking ih => exact booked_of_booking booking ih

/-! ### Calls -/

/-- Another call is no request. -/
theorem Booked.called (h : Booked p c kind) (call : Call) :
    Booked p ⟨c.machine, c.log ++ [.called call c.machine]⟩ kind :=
  h.aside rfl (by simp [taken_append, Entry.takesOn]) id id

/-- Once it has begun, an epoch has asked for what it needs. -/
theorem booked_of_begin {m : Machine} {w : σ} (inactive : m.phase = .inactive)
    (h : ∀ l, Booked p ⟨m, log⟩ l) {valid locked : Option Certificate}
    (begun : p.begin ⟨.start w, m.opened valid locked⟩ = .ok s) (l : TimeoutKind) :
    Booked p (within log s) l := by
  have hearly : ∀ k : TimeoutKind, k.Early m.phase := by
    intro k
    cases k <;> simp [TimeoutKind.Early, inactive]
  -- opening the epoch books nothing that it does not need
  have hopened : ∀ k, (k = .propose → p.proposer m.epoch = .ok p.id) →
      Booked p (within log ⟨.start w, m.opened valid locked⟩) k := by
    intro k hturn
    rw [within_start]
    refine (h k).aside rfl rfl (fun _ => hearly k) ?_
    cases k with
    | propose => exact fun needed => absurd (hturn rfl) needed.2
    | equivocation | quitEpoch | epochChange => simp [Host.Needs, Machine.opened]
  rcases Host.begin_cases begun with ⟨mute, hphase, turn⟩ | ⟨kind, rfl, hkind⟩
  · exact booked_of_booking (.still mute hphase) (fun k => hopened k fun _ => turn) l
  · by_cases hl : l = kind
    · subst hl
      obtain ⟨hidle, hnone⟩ := (h l).early (hearly l)
      refine booked_schedule ?_ ?_ ?_
      · show m.timers.get l ≠ .accepted
        rw [show m.timers.get l = .idle from hidle]
        decide
      · rwa [within_start]
      · rcases hkind with rfl | ⟨rfl, -⟩ <;> simp [TimeoutKind.Early, Machine.opened]
    · refine (hopened l fun hpropose => ?_).schedule_other hl
      rcases hkind with rfl | ⟨-, turn⟩
      · exact absurd hpropose hl
      · exact turn

/-- A timeout that is delivered leaves what was refused, and what was never asked. -/
theorem Booked.expired (h : Booked p ⟨s.machine, log⟩ l) (kind : TimeoutKind) :
    Booked p ⟨{ s.machine with timers := s.machine.timers.expire kind }, log⟩ l := by
  obtain ⟨hidle, hrefused⟩ := s.machine.timers.get_expire kind l
  refine ⟨h.once, fun refused => h.refused (hrefused.mp refused), fun early => ?_, fun needed => ?_⟩
  · exact (h.early early).imp_left hidle
  · exact (h.needed needed).imp_right hrefused.mpr

theorem booked_of_start {m : Machine} {w : σ} (loud : m.policy.isSilent = false)
    (h : ∀ l, Booked p ⟨m, log⟩ l) {valid locked : Option Certificate}
    (done : p.start valid locked ⟨.start w, m⟩ = .ok s) (l : TimeoutKind) :
    Booked p (within log s) l := by
  by_cases hphase : m.phase = .inactive
  · rcases Host.start_cases (s := ⟨.start w, m⟩) hphase done with ⟨silent, -⟩ | ⟨b, begun, hrest⟩
    · have hsilent : m.policy.isSilent = true := silent
      rw [loud] at hsilent
      cases hsilent
    · have hbegun : p.Booking b { b with machine.pending := [] } := .still (.of_timers rfl rfl) rfl
      have hreceived : p.Bookings { b with machine.pending := [] } s :=
        foldlM_keeps (fun t m t' _ ht hround => ht.trans (Host.receive_bookings hround)) hrest .refl
      exact booked_of_bookings (.head hbegun hreceived) (booked_of_begin hphase h begun) l
  · unfold Host.start at done
    rw [if_pos (by simp [Machine.started, hphase])] at done
    cases done
    rw [within_start]
    exact h l

theorem booked_of_expire {m : Machine} {w : σ} (h : ∀ l, Booked p ⟨m, log⟩ l) {t : Timeout}
    (done : p.expire t ⟨.start w, m⟩ = .ok s) (l : TimeoutKind) : Booked p (within log s) l := by
  rcases Host.expire_cases done with rfl | ⟨-, -, done⟩
  · rw [within_start]
    exact h l
  refine booked_of_bookings (Host.onTimeout_bookings done) (fun k => ?_) l
  rw [within_start]
  exact (h k).expired (s := ⟨.start w, m⟩) t.kind

/-- **No call loses or doubles a request.** -/
theorem take_booked (loud : c.machine.policy.isSilent = false) (h : ∀ l, Booked p c l)
    {call : Call} {w : σ} (taken : c.take p call w = .ok c') (l : TimeoutKind) :
    Booked p c' l := by
  obtain ⟨s, hs, rfl⟩ := take_eq_ok.mp taken
  have hcalled := fun k => (h k).called call
  cases call with
  | start valid locked => exact booked_of_start loud hcalled hs l
  | receive m =>
    refine booked_of_bookings (Host.receive_bookings hs) (fun k => ?_) l
    rw [within_start]
    exact hcalled k
  | expire t => exact booked_of_expire hcalled hs l
  | stop =>
    cases hs
    have hstop : p.Booking ⟨.start w, c.machine⟩ ⟨.start w, c.machine.stop⟩ :=
      .mute (.of_timers rfl rfl) (.inr (.inr rfl))
    refine booked_of_booking hstop (fun k => ?_) l
    rw [within_start]
    exact hcalled k

theorem booked_create (e : Epoch) (policy : Policy) (pendingLimit : Nat) (l : TimeoutKind) :
    Booked p (create (σ := σ) e policy pendingLimit) l where
  once := Nat.zero_le 1
  refused _ := rfl
  early _ := ⟨by cases l <;> rfl, rfl⟩
  needed := by cases l <;> simp [Host.Needs, create, Machine.create]

/-- The request for a kind of timeout that was refused is made once more before the message is
looked at, and stays on the record of the call. -/
def Renews (p : Host σ) (m : Machine) (kind : TimeoutKind) : Prop :=
  ∀ message w, p.receive message ⟨.start w, m⟩ =
      p.onMessage message (p.retryRefused ⟨.start w, m⟩) ∧
    ∃ accepted, Effect.request ⟨m.epoch, kind, p.patience kind⟩ accepted ∈
        (p.retryRefused ⟨.start w, m⟩).effects ∧
      ∀ s, p.receive message ⟨.start w, m⟩ = .ok s →
        Effect.request ⟨m.epoch, kind, p.patience kind⟩ accepted ∈ s.effects

theorem Booked.renews (h : Booked p c kind) (loud : c.machine.policy.isSilent = false)
    (active : c.machine.phase ≠ .finished) (refused : c.machine.timers.get kind = .refused) :
    Renews p c.machine kind := by
  intro message w
  have hstarted : c.machine.phase ≠ .inactive := by
    intro inactive
    have hearly : kind.Early c.machine.phase := by cases kind <;> simp [TimeoutKind.Early, inactive]
    have hidle := (h.early hearly).1
    rw [refused] at hidle
    cases hidle
  have hreceive : p.receive message ⟨.start w, c.machine⟩ =
      p.onMessage message (p.retryRefused ⟨.start w, c.machine⟩) :=
    Host.receive_of_active hstarted active loud message
  obtain ⟨accepted, hmem⟩ :=
    Host.request_mem_retryRefused (p := p) (s := ⟨.start w, c.machine⟩) refused
  refine ⟨hreceive, accepted, hmem, fun s done => ?_⟩
  rw [hreceive] at done
  exact (Host.onMessage_bookings done).effects hmem

/-- **No timeout request is lost or doubled.**  Whatever is called on an epoch that is not silent,
and whichever requests the host takes on, of each kind of timeout it takes at most one on.  Between
two calls the request for every timeout that the epoch waits for was taken on or is marked as
refused, and while the epoch has not ended every message that it receives renews what is marked. -/
theorem run_requests {e : Epoch} {policy : Policy} {pendingLimit : Nat} {calls : List (Call × σ)}
    (loud : policy.isSilent = false)
    (ran : (create e policy pendingLimit).run p calls = .ok c) :
    (∀ kind, c.taken kind ≤ 1) ∧
      (c.machine.phase = .ready → p.proposer e ≠ .ok p.id → c.Asked .propose) ∧
      (c.machine.phase = .locked → c.Asked .equivocation) ∧
      (c.machine.phase = .epochChange → c.Asked .quitEpoch) ∧
      ∀ kind, c.machine.timers.get kind = .refused → c.machine.phase ≠ .finished →
        Renews p c.machine kind := by
  obtain ⟨⟨hepoch, hpolicy, hbooked⟩, -⟩ := run_keeps
    (motive := fun d => d.machine.epoch = e ∧ d.machine.policy = policy ∧ ∀ l, Booked p d l)
    (fun d x d' _ hsound ⟨hepoch, hpolicy, hbooked⟩ taken => by
      have hchanges := (take_changes hsound taken).1
      exact ⟨hchanges.epoch.trans hepoch, hchanges.policy.trans hpolicy,
        take_booked (hpolicy ▸ loud) hbooked taken⟩)
    (sound_create e policy pendingLimit) ran ⟨rfl, rfl, booked_create e policy pendingLimit⟩
  refine ⟨fun kind => (hbooked kind).once, ?_, (hbooked .equivocation).needed,
    (hbooked .quitEpoch).needed, ?_⟩
  · intro hready hother
    exact (hbooked .propose).needed ⟨hready, hepoch ▸ hother⟩
  · intro kind refused active
    exact (hbooked kind).renews (hpolicy ▸ loud) active refused

/-- A process waits for a proposal of another one and locks; its host refuses the first request of
either kind. -/
def refusedCalls : List (Call × Script) :=
  let block : BlockId := ⟨.fill 32 7⟩
  let host (accepts : Bool) : Script := ⟨[], none, true, true, accepts⟩
  [(.start none none, host false),
    (.receive (.vote ⟨0, 0, block, 0, ⟨.fill 64 1⟩, 0, none⟩), host true),
    (.receive (.vote ⟨0, 0, block, 2, ⟨.fill 64 1⟩, 0, none⟩), host false)]

/-- The host has taken the first request on in the end, and the next message renews the other. -/
theorem run_requests_refused :
    let p := Script.host 1 3 none fun _ => 0
    ∃ c, (create 0 ⟨.honest, false⟩ 1).run p refusedCalls = .ok c ∧ c.taken .propose = 1 ∧
      c.machine.phase = .locked ∧ c.taken .equivocation = 0 ∧ c.Asked .equivocation ∧
      Renews p c.machine .equivocation := by
  intro p
  obtain ⟨c, ran, heq⟩ : ∃ c, (create 0 ⟨.honest, false⟩ 1).run p refusedCalls = .ok c ∧
      (c.taken .propose, c.machine.phase, c.taken .equivocation,
        c.machine.timers.get .equivocation) = (1, .locked, 0, .refused) :=
    exists_of_toOption (by decide +kernel)
  simp only [Prod.mk.injEq] at heq
  obtain ⟨htaken, hphase, hnone, hrefused⟩ := heq
  obtain ⟨-, -, hlocked, -, hrenews⟩ := run_requests rfl ran
  exact ⟨c, ran, htaken, hphase, hnone, hlocked hphase,
    hrenews .equivocation hrefused (by simp [hphase])⟩

end Course

end EpochConsensus
