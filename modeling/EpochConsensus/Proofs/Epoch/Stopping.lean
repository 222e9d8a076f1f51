import EpochConsensus.Epoch.Script
import EpochConsensus.Proofs.Epoch.Course

/-! # After a stop

A stopped instance is finished, and stays so whatever is called on it.  A consensus epoch does
nothing any more then, under every policy and with whatever it holds.  A latency probe keeps the
stop in mind but does not look at it: it goes on to send requests and to answer them
(`Instance.isRousedBy`).  So a stopped instance is silent exactly as long as nothing rouses it
(`Instance.run_stopped`).
-/
namespace EpochConsensus.Instance

variable {σ : Type} (p : Host σ)

/-! ### Calls on an instance -/

/-- What one call on an instance comes to. -/
def call : Call → Instance → Context σ → Except Fault (Instance × Context σ)
  | .start valid locked, inst, c => inst.start p valid locked c
  | .receive m, inst, c => inst.receive p m c
  | .expire t, inst, c => inst.expire p t c
  | .stop, inst, c => .ok (inst.stop, c)

/-- One call after the other, each with the host in a state of its own, and all that was done. -/
def run : Instance → List (Call × σ) → Except Fault (Instance × List (Moment σ))
  | inst, [] => .ok (inst, [])
  | inst, x :: calls => do
    let (inst, c) ← inst.call p x.1 (.start x.2)
    let (inst, did) ← run inst calls
    return (inst, c.moments.toList ++ did)

/-- Whether a call makes an instance act even when it is finished.  A probe sends a request at its
start and after every answer, and answers every request. -/
def isRousedBy : Instance → Call → Bool
  | .probe _, .start _ _ => true
  | .probe _, .receive (.probe _) => true
  | .probe _, .receive (.answer _) => true
  | _, _ => false

variable {p} {inst inst' : Instance} {c c' : Context σ} {x : Call}

/-! ### One call -/

/-- Nothing else reaches a finished instance. -/
theorem call_quiet (finished : inst.finished = true) (quiet : inst.isRousedBy x = false) :
    inst.call p x c = .ok (inst, c) := by
  cases inst with
  | consensus m =>
    have hphase : m.phase = .finished := of_decide_eq_true finished
    cases x with
    | start valid locked =>
      have hstarted : m.started = true := by simp [Machine.started, hphase]
      simp [call, start, ofStep, Host.start, hstarted, bind, Except.bind, pure, Except.pure]
    | receive m' =>
      simp [call, receive, ofStep, Host.receive_of_finished (s := ⟨c, m⟩) hphase, bind,
        Except.bind, pure, Except.pure]
    | expire t =>
      simp [call, expire, ofStep, Host.expire_of_idle (s := ⟨c, m⟩) (.inr hphase), bind,
        Except.bind, pure, Except.pure]
    | stop =>
      have hstop : m.stop = m := by rw [Machine.stop, ← hphase]
      rw [call, stop, hstop]
  | probe b =>
    cases x with
    | start valid locked => cases quiet
    | receive m =>
      cases m with
      | probe e => cases quiet
      | answer e => cases quiet
      | propose _ | silence _ | vote _ | quitEpoch _ | certificate _ _ => rfl
    | expire t => rfl
    | stop =>
      have hstop : b.stop = b := by rw [Probe.stop, ← show b.stopped = true from finished]
      rw [call, stop, hstop]

/-- What rouses a finished instance leaves it finished, and makes it do something. -/
theorem call_roused (finished : inst.finished = true) (roused : inst.isRousedBy x = true)
    (h : inst.call p x c = .ok (inst', c')) :
    inst'.finished = true ∧ c.moments.size < c'.moments.size := by
  have hrequest : ∀ q, c.moments.size < (Probe.request p q c).moments.size := by
    intro q
    have hsize : (Probe.request p q c).moments.size = c.moments.size + 2 := by
      simp [Probe.request, Host.takeValue, Context.emit, Context.record]
    exact hsize ▸ Nat.lt_add_of_pos_right Nat.two_pos
  cases inst with
  | consensus m => cases roused
  | probe b =>
    cases x with
    | start valid locked =>
      cases h
      exact ⟨finished, hrequest p.id⟩
    | receive m =>
      simp only [call, receive, pure, Except.pure] at h
      obtain ⟨d, hd, h⟩ := bind_eq_ok.mp h
      cases h
      refine ⟨finished, ?_⟩
      cases m with
      | probe e =>
        cases hd
        simp [Context.emit, Context.record]
      | answer e =>
        obtain ⟨next, -, hd⟩ := bind_eq_ok.mp hd
        cases hd
        exact hrequest _
      | propose _ | silence _ | vote _ | quitEpoch _ | certificate _ _ => cases roused
    | expire t => cases roused
    | stop => cases roused

/-! ### Many calls -/

theorem run_quiet (finished : inst.finished = true) {calls : List (Call × σ)}
    (quiet : ∀ x ∈ calls, inst.isRousedBy x.1 = false) : inst.run p calls = .ok (inst, []) := by
  induction calls with
  | nil => rfl
  | cons x calls ih =>
    obtain ⟨hx, hcalls⟩ := List.forall_mem_cons.mp quiet
    simp [run, call_quiet finished hx, ih hcalls, Context.start, bind, Except.bind, pure,
      Except.pure]

/-- A finished instance stays finished, and does something at the calls that rouse it alone. -/
theorem run_finished (finished : inst.finished = true) {calls : List (Call × σ)}
    {did : List (Moment σ)} (h : inst.run p calls = .ok (inst', did)) :
    inst'.finished = true ∧ (did = [] ↔ ∀ x ∈ calls, inst.isRousedBy x.1 = false) := by
  induction calls generalizing inst did with
  | nil =>
    cases h
    exact ⟨finished, by simp⟩
  | cons x calls ih =>
    obtain ⟨⟨inst₁, c₁⟩, hcall, h⟩ := bind_eq_ok.mp h
    obtain ⟨⟨inst₂, did₂⟩, hrest, h⟩ := bind_eq_ok.mp h
    cases h
    rw [List.forall_mem_cons]
    cases hroused : inst.isRousedBy x.1 with
    | false =>
      rw [call_quiet finished hroused] at hcall
      cases hcall
      simpa [Context.start] using ih finished hrest
    | true =>
      obtain ⟨hfinished, hacted⟩ := call_roused finished hroused hcall
      refine ⟨(ih hfinished hrest).1, ?_⟩
      have hne : c₁.moments ≠ #[] := by
        rintro heq
        simp [heq, Context.start] at hacted
      simp [hne]

/-- **A stopped instance stays finished, and is silent unless it is a probe that is roused.**  All
calls on a stopped consensus epoch succeed, do nothing and leave it as it is.  Any stopped instance
is finished whatever was called on it; without a call that rouses it nothing happens either, and
otherwise something was done. -/
theorem run_stopped (p : Host σ) (calls : List (Call × σ)) :
    (∀ m : Machine, (consensus m).stop.run p calls = .ok ((consensus m).stop, [])) ∧
    ∀ inst : Instance,
      ((∀ x ∈ calls, inst.stop.isRousedBy x.1 = false) →
        inst.stop.run p calls = .ok (inst.stop, [])) ∧
      ∀ inst' did, inst.stop.run p calls = .ok (inst', did) → inst'.finished = true ∧
        (did = [] ↔ ∀ x ∈ calls, inst.stop.isRousedBy x.1 = false) := by
  have hfinished : ∀ inst : Instance, inst.stop.finished = true := by
    intro inst
    cases inst <;> rfl
  exact ⟨fun m => run_quiet (hfinished _) fun _ _ => rfl, fun inst =>
    ⟨run_quiet (hfinished inst), fun inst' did => run_finished (hfinished inst)⟩⟩

/-! ### A probe that was stopped -/

/-- Process 1 of three, which has nothing to propose. -/
def idleHost : Host Script := Script.host 1 3 none fun _ => 0

def idleScript : Script := ⟨[], none, true, true, true⟩

/-- A latency probe that was started and then stopped. -/
def stoppedProbe : Instance := .probe ⟨0, true, true⟩

def wakeless : List (Call × Script) :=
  [(.receive (.silence ⟨0, 0, .empty⟩), idleScript), (.expire ⟨0, .propose, 0⟩, idleScript),
    (.stop, idleScript)]

theorem run_stopped_probe : (∀ x ∈ wakeless, stoppedProbe.stop.isRousedBy x.1 = false) ∧
    stoppedProbe.stop.run idleHost wakeless = .ok (stoppedProbe, []) := by
  have quiet : ∀ x ∈ wakeless, stoppedProbe.stop.isRousedBy x.1 = false := by
    simp [wakeless, stoppedProbe, Instance.stop, isRousedBy]
  exact ⟨quiet, ((run_stopped idleHost wakeless).2 stoppedProbe).1 quiet⟩

/-- A probe is started and stopped; a request that comes later is answered all the same. -/
theorem answers_stopped : ∃ did, (Instance.probe (.create 0)).run idleHost
      [(.start none none, idleScript), (.stop, idleScript)] = .ok (stoppedProbe, did) ∧
    stoppedProbe.finished = true ∧
    stoppedProbe.run idleHost [(.receive (.probe ⟨[7], 2⟩), idleScript)] =
      .ok (stoppedProbe, [⟨.send (.answer ⟨[7], 1⟩) [2], idleScript, none⟩]) :=
  ⟨_, rfl, rfl, rfl⟩

end EpochConsensus.Instance
