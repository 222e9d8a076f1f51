import EpochConsensus.Proofs.Window.Eviction
import Mathlib.Data.Finset.Card
import Mathlib.Data.Finset.Image
import Mathlib.Order.Interval.Finset.Nat

/-! # Whose turn it is

Instances come into the window at two places: where an epoch starts, and where a message for an
epoch arrives; epochs share slots.  To say that an epoch keeps the instance that it was started
with, the instances are numbered in the order in which they are made (`Numbered`), and every start
is put on record with the number of its instance.

`Numbered.Valid` holds of every window: epochs have their turns one after the other, at most as
many as there are slots are undecided, and each of these has the instance on record in its slot.
Every use keeps it (`Use.valid`), and `Numbered.uses_take_turns` is read off it.
-/
namespace EpochConsensus

namespace Instance

variable {σ : Type} {p : Host σ} {inst inst' : Instance} {world : σ} {c : Context σ}

/-- A start leaves an instance started. -/
theorem started_start (hs : inst.Sound p fun _ => True) {valid locked : Option Certificate}
    (h : inst.start p valid locked (.start world) = .ok (inst', c)) : inst'.started = true := by
  cases inst with
  | probe b =>
    cases h
    rfl
  | consensus m =>
    obtain ⟨s', hs', rfl, -⟩ := ofStep_eq_ok h
    by_cases hphase : m.phase = .inactive
    · rcases Host.start_cases (s := ⟨.start world, m⟩) hphase hs' with
        ⟨-, rfl⟩ | ⟨b, hb, hrest⟩
      · simp [started, Machine.started, Machine.opened]
      · have hrunning := Host.Sound.begun hs (fun _ _ _ _ => trivial) (fun _ _ _ _ => trivial) hb
        have hmoves := Host.start_moves hrunning hs.pending hrest
        exact decide_eq_true (Host.Moves.running hmoves hrunning).started
    · unfold Host.start at hs'
      rw [if_pos (by simp [Machine.started, hphase])] at hs'
      cases hs'
      simp [started, Machine.started, hphase]

/-- Neither a message takes a start back, -/
theorem started_receive (hs : inst.Sound p fun _ => True) (started : inst.started = true)
    {m : Message} (h : inst.receive p m (.start world) = .ok (inst', c)) :
    inst'.started = true := by
  cases inst with
  | probe b =>
    simp only [receive, pure, Except.pure] at h
    obtain ⟨d, -, h⟩ := bind_eq_ok.mp h
    cases h
    exact started
  | consensus machine =>
    obtain ⟨s', hs', rfl, -⟩ := ofStep_eq_ok h
    have hrunning : p.Running (fun _ => True) ⟨.start world, machine⟩ :=
      ⟨of_decide_eq_true started, hs⟩
    have hmoves := Host.receive_moves hrunning (fun _ _ => trivial) hs'
    exact decide_eq_true (Host.Moves.running hmoves hrunning).started

/-- nor does a timeout, -/
theorem started_expire (hs : inst.Sound p fun _ => True) (started : inst.started = true)
    {t : Timeout} (h : inst.expire p t (.start world) = .ok (inst', c)) :
    inst'.started = true := by
  cases inst with
  | probe b =>
    cases h
    exact started
  | consensus machine =>
    obtain ⟨s', hs', rfl, -⟩ := ofStep_eq_ok h
    have hrunning : p.Running (fun _ => True) ⟨.start world, machine⟩ :=
      ⟨of_decide_eq_true started, hs⟩
    exact decide_eq_true (Host.Moves.running (Host.expire_moves hs') hrunning).started

/-- nor a stop. -/
theorem started_stop (started : inst.started = true) : inst.stop.started = true := by
  by_contra hstopped
  rw [started_of_stop (Bool.eq_false_iff.mpr hstopped)] at started
  cases started

@[simp] theorem finished_stop (inst : Instance) : inst.stop.finished = true := by
  cases inst with
  | consensus m => rfl
  | probe b => rfl

end Instance

namespace Window

/-- A window whose instances are numbered in the order in which they are made. -/
structure Numbered where
  window : Window
  /-- The number of the instance in each slot. -/
  number : Nat → Nat
  made : Nat
  /-- The epochs that were started, in order, each with the number of its instance. -/
  started : List (Epoch × Nat)

namespace Numbered

/-- A window before any epoch. -/
def first (w : Window) : Numbered := ⟨w, fun _ => 0, 0, []⟩

/-- The instance of an epoch was put into the window `w'`; it is a new one unless the epoch had
one. -/
def seated (n : Numbered) (e : Epoch) (w' : Window) : Numbered :=
  if (n.window.instance? e).toOption.join.isSome then { n with window := w' }
  else { n with
    window := w'
    number := Function.update n.number (e.toNat % n.window.capacity) n.made
    made := n.made + 1 }

/-- An epoch was started, and is put on record with its instance. -/
def record (n : Numbered) (e : Epoch) : Numbered :=
  { n with started := n.started ++ [(e, n.number (e.toNat % n.window.capacity))] }

/-- One use of a window, with the host in any state.  The instance of an epoch may be used in any
way but be started. -/
inductive Use {σ : Type} (p : Host σ) : Numbered → Numbered → Prop
  | start {n : Numbered} {e : Epoch} {w' : Window} {valid locked : Option Certificate} {world : σ}
      {c : Context σ} (next : n.window.nextEpoch = .ok e)
      (done : n.window.startNext p valid locked (.start world) = .ok (w', c, true)) :
      Use p n ((n.seated e w').record e)
  /-- The window is full, or the limit is reached. -/
  | refuse {n : Numbered} {w' : Window} {valid locked : Option Certificate} {world : σ}
      {c : Context σ}
      (done : n.window.startNext p valid locked (.start world) = .ok (w', c, false)) :
      Use p n { n with window := w' }
  | finish {n : Numbered} {e : Epoch} {w' : Window} {isNew : Bool}
      (turn : e.toNat < upTo n.window.lastEpoch)
      (done : n.window.finishEpoch e = .ok (w', isNew)) : Use p n { n with window := w' }
  | seat {n : Numbered} {e : Epoch} {w' : Window} {inst : Instance}
      (done : n.window.seat e = .ok (w', some inst)) : Use p n (n.seated e w')
  | drop {n : Numbered} {e : Epoch} {w' : Window} (done : n.window.seat e = .ok (w', none)) :
      Use p n { n with window := w' }
  | receive {n : Numbered} {e : Epoch} {w' : Window} {inst inst' : Instance} {m : Message}
      {world : σ} {c : Context σ} (found : n.window.instance? e = .ok (some inst))
      (done : inst.receive p m (.start world) = .ok (inst', c))
      (kept : n.window.put inst' = .ok w') : Use p n { n with window := w' }
  | expire {n : Numbered} {e : Epoch} {w' : Window} {inst inst' : Instance} {t : Timeout}
      {world : σ} {c : Context σ} (found : n.window.instance? e = .ok (some inst))
      (done : inst.expire p t (.start world) = .ok (inst', c))
      (kept : n.window.put inst' = .ok w') : Use p n { n with window := w' }
  | stop {n : Numbered} {e : Epoch} {w' : Window} {inst : Instance}
      (found : n.window.instance? e = .ok (some inst))
      (kept : n.window.put inst.stop = .ok w') : Use p n { n with window := w' }

/-- Any number of uses. -/
abbrev Uses {σ : Type} (p : Host σ) : Numbered → Numbered → Prop := Relation.ReflTransGen (Use p)

/-- How many epochs have begun: those that had their turn and were not kept back by the limit. -/
def begun (w : Window) : Nat :=
  if 0 < w.maxEpochToStart then min (upTo w.lastEpoch) w.maxEpochToStart else upTo w.lastEpoch

theorem lt_begun_iff {w : Window} {e : Epoch} : e.toNat < begun w ↔ w.Begun e := by
  unfold begun Begun CutsOff
  split <;> omega

/-- The next epoch begins, -/
theorem begun_next {w : Window} {e : Epoch} (next : w.nextEpoch = .ok e)
    (within : ¬ w.CutsOff e) :
    begun w = e.toNat ∧ begun { w with lastEpoch := some e } = e.toNat + 1 := by
  have hnext := toNat_nextEpoch next
  have hlast : upTo (some e) = e.toNat + 1 := rfl
  unfold CutsOff at within
  unfold begun
  simp only [hlast]
  split <;> omega

/-- unless the limit keeps it back. -/
theorem begun_limit {w : Window} {e : Epoch} (next : w.nextEpoch = .ok e) (limit : w.CutsOff e) :
    begun { w with lastEpoch := some e } = begun w := by
  have hnext := toNat_nextEpoch next
  have hlast : upTo (some e) = e.toNat + 1 := rfl
  unfold CutsOff at limit
  unfold begun
  simp only [hlast]
  split <;> omega

/-- What every use keeps. -/
structure Valid {σ : Type} (p : Host σ) (config : Config) (n : Numbered) : Prop where
  capacity : n.window.capacity = config.maxActiveEpochs
  limit : n.window.maxEpochToStart = config.maxEpochToStart
  placed : n.window.Placed
  sound : ∀ x, n.window.Holds x → x.Sound p fun _ => True
  /-- No epoch is decided before its turn, -/
  decided : upTo n.window.lastDecided ≤ upTo n.window.lastEpoch
  /-- and none has its turn before there is a slot for it. -/
  room : upTo n.window.lastEpoch ≤ upTo n.window.lastDecided + n.window.capacity
  /-- The epochs on record are those that have begun, in order. -/
  order : n.started.map (·.1.toNat) = List.range (begun n.window)
  /-- A live epoch has the instance on record. -/
  held : ∀ s ∈ n.started, n.window.isLive s.1 = true → ∃ x, n.window.Holds x ∧
    x.epoch = s.1 ∧ x.started = true ∧ n.number (s.1.toNat % n.window.capacity) = s.2

variable {σ : Type} {p : Host σ} {n n' : Numbered} {w w' : Window} {e : Epoch}
  {config : Config} {inst inst' : Instance}

@[simp] theorem window_seated : (n.seated e w').window = w' := by
  unfold seated
  split <;> rfl

@[simp] theorem started_seated : (n.seated e w').started = n.started := by
  unfold seated
  split <;> rfl

/-- An instance that comes into one slot leaves the numbers of the others. -/
theorem number_seated {k : Nat} (other : k ≠ e.toNat % n.window.capacity) :
    (n.seated e w').number k = n.number k := by
  unfold seated
  split
  · rfl
  · exact Function.update_of_ne other _ _

/-! ### Before the first use -/

theorem valid_first {process : ProcessId} (created : create config process = .ok w) :
    (first w).Valid p config := by
  have hqueued : w.Queued p := queued_create created
  unfold create at created
  simp only [pure, Except.pure] at created
  obtain ⟨_, -, created⟩ := bind_eq_ok.mp created
  cases created
  refine ⟨rfl, rfl, hqueued.placed, hqueued.sound, Nat.le_refl _, Nat.zero_le _, ?_, nofun⟩
  show [] = List.range (begun (ofConfig config process))
  have hnone : begun (ofConfig config process) = 0 := by
    unfold begun
    split
    · exact Nat.zero_min _
    · rfl
  rw [hnone, List.range_zero]

namespace Valid

/-- The epochs on record are those that have begun. -/
theorem started_iff (h : n.Valid p config) (e : Epoch) :
    (∃ k, (e, k) ∈ n.started) ↔ n.window.Begun e := by
  rw [← lt_begun_iff, ← List.mem_range, ← h.order, List.mem_map]
  constructor
  · rintro ⟨k, hk⟩
    exact ⟨(e, k), hk, rfl⟩
  · rintro ⟨⟨d, k⟩, hd, hsame⟩
    obtain rfl : d = e := UInt64.toNat_inj.mp hsame
    exact ⟨k, hd⟩

/-! ### Using an instance -/

/-- A used instance goes back into its slot. -/
theorem put (h : n.Valid p config) (found : n.window.instance? e = .ok (some inst))
    (epoch : inst'.epoch = inst.epoch) (sound : inst'.Sound p fun _ => True)
    (started : inst.started = true → inst'.started = true)
    (kept : n.window.put inst' = .ok w') : Valid p config { n with window := w' } := by
  have hserves := serves_of_instance h.placed found
  have hepoch : inst'.epoch = e := epoch.trans hserves.epoch
  have hsound : ∀ x, w'.Holds x → x.Sound p fun _ => True := by
    intro x hx
    rcases holds_put h.placed kept hx with rfl | ⟨hold, -⟩
    · exact sound
    · exact h.sound x hold
  have hkeeps := fun x hx live other => hserves.keeps (x := x) hx live other kept hepoch
  have hself := holds_put_self kept
  have hplaced := h.placed.put kept
  obtain ⟨i, -, rfl⟩ := put_eq kept
  refine ⟨h.capacity, h.limit, hplaced, hsound, h.decided, h.room, h.order, ?_⟩
  intro s hs live
  obtain ⟨x, hx, hxe, hstarted, hnumber⟩ := h.held s hs live
  by_cases hsame : x.epoch = e
  · -- the instance on record is the one that was used
    obtain rfl : inst = x := hserves.own x hx hsame
    exact ⟨inst', hself, epoch.trans hxe, started hstarted, hnumber⟩
  · exact ⟨x, hkeeps x hx (hxe ▸ live) hsame, hxe, hstarted, hnumber⟩

/-! ### Making instances -/

/-- A message makes an instance only in a slot that no live epoch is in. -/
theorem seat (h : n.Valid p config) (done : n.window.seat e = .ok (w', some inst)) :
    (n.seated e w').Valid p config := by
  obtain ⟨i, hi, ⟨hnone, -⟩ | ⟨x, hx, kept, hsource⟩⟩ := seat_cases done
  · cases hnone
  obtain rfl : inst = x := Option.some.inj hx
  rcases hsource with ⟨hslot, hepoch⟩ | ⟨rfl, hfree⟩
  · -- the epoch has its instance already, and nothing changes
    have hheld : n.window.Holds inst := ⟨i, hslot⟩
    rw [put_of_holds h.placed hheld] at kept
    cases kept
    have hfound := instance_of_holds h.placed hheld
    rw [hepoch] at hfound
    have hsame : n.seated e n.window = n := by
      unfold seated
      rw [hfound]
      rfl
    rwa [hsame]
  · have hplaced := h.placed.put kept
    have hput := fun x => holds_put (x := x) h.placed kept
    have hkeeps := fun x hx => Holds.put (x := x) hx kept
    obtain ⟨j, -, rfl⟩ := put_eq kept
    refine ⟨by simpa using h.capacity, by simpa using h.limit, by simpa using hplaced, ?_,
      by simpa using h.decided, by simpa using h.room, ?_, ?_⟩
    · intro x hx
      rw [window_seated] at hx
      rcases hput x hx with rfl | ⟨hold, -⟩
      · exact Instance.sound_create _ _
      · exact h.sound x hold
    · rw [started_seated, window_seated]
      exact h.order
    · intro s hs live
      rw [started_seated] at hs
      rw [window_seated] at live ⊢
      obtain ⟨x, hx, hxe, hstarted, hnumber⟩ := h.held s hs live
      -- its instance would be in the way
      have hother : n.window.slots.get i ≠ some x := by
        intro hslot
        have hidle := (hfree x hslot).2
        rw [hxe] at hidle
        exact absurd live (Bool.eq_false_iff.mp hidle)
      refine ⟨x, hkeeps x hx ?_, hxe, hstarted, (number_seated ?_).trans hnumber⟩
      · intro k hk
        rw [Factory.epoch_create] at hk
        obtain rfl : i = k := Except.ok.inj (hi.symm.trans hk)
        exact hother
      · intro hsame
        obtain ⟨k, hk⟩ := hx
        refine hother ?_
        obtain rfl : k = i := Fin.ext ((h.placed k x hk).trans
          ((congrArg (·.toNat % n.window.capacity) hxe).trans (hsame.trans (index_eq hi).symm)))
        exact hk

/-- What is on record has begun, so that it is live after the next turn only if it was before. -/
theorem live_of_advance (h : n.Valid p config) {s : Epoch × Nat} (hs : s ∈ n.started)
    (live : { n.window with lastEpoch := some e }.isLive s.1 = true) :
    n.window.isLive s.1 = true := by
  obtain ⟨hundecided, -⟩ := Bool.and_eq_true_iff.mp live
  obtain ⟨hturn, -⟩ := (h.started_iff s.1).mp ⟨s.2, hs⟩
  exact Bool.and_eq_true_iff.mpr ⟨hundecided, decide_eq_true hturn⟩

/-- Where there is room, the next epoch starts, and no live one gives way to it. -/
theorem start (h : n.Valid p config) {valid locked : Option Certificate} {world : σ} {c : Context σ}
    (next : n.window.nextEpoch = .ok e)
    (done : n.window.startNext p valid locked (.start world) = .ok (w', c, true)) :
    ((n.seated e w').record e).Valid p config := by
  rcases startNext_cases done with ⟨-, -, -, hfalse⟩ | ⟨room, d, hd, ⟨-, -, -, hfalse⟩ |
    ⟨hlimit, -, inst, inst', hsource, hstart, kept⟩⟩
  · cases hfalse
  · cases hfalse
  obtain rfl : e = d := Except.ok.inj (next.symm.trans hd)
  have hnext := toNat_nextEpoch next
  obtain ⟨hsound, hepoch⟩ : (inst.Sound p fun _ => True) ∧ inst.epoch = e := by
    rcases hsource with hfound | rfl
    · obtain ⟨hheld, hepoch⟩ := instance_cases hfound
      exact ⟨h.sound inst hheld, hepoch⟩
    · exact ⟨Instance.sound_create _ _, Factory.epoch_create _ _⟩
  have hsane := Instance.start_sane hsound (fun _ _ _ _ => trivial) (fun _ _ _ _ => trivial) hstart
  have hstarted := Instance.started_start hsound hstart
  have hplaced : { n.window with lastEpoch := some e }.Placed := h.placed
  have hput := fun x => holds_put (x := x) hplaced kept
  have hself := holds_put_self kept
  have hkeeps := fun x hx live =>
    Holds.start (x := x) hx h.placed live room next kept (hsane.epoch.trans hepoch)
  have hplaced' := hplaced.put kept
  obtain ⟨i, -, rfl⟩ := put_eq kept
  have hactive : ¬ n.window.capacity ≤ upTo n.window.lastEpoch - upTo n.window.lastDecided :=
    of_decide_eq_false room
  have hdecided := h.decided
  refine ⟨by simpa [record] using h.capacity, by simpa [record] using h.limit,
    by simpa [record] using hplaced', ?_, ?_, ?_, ?_, ?_⟩
  · intro x hx
    simp only [record, window_seated] at hx
    rcases hput x hx with rfl | ⟨hold, -⟩
    · exact hsane.sound
    · exact h.sound x hold
  · simp only [record, window_seated]
    show upTo n.window.lastDecided ≤ e.toNat + 1
    omega
  · simp only [record, window_seated]
    show e.toNat + 1 ≤ upTo n.window.lastDecided + n.window.capacity
    omega
  · simp only [record, window_seated, started_seated, List.map_append, h.order, List.map_cons,
      List.map_nil]
    obtain ⟨hbefore, hafter⟩ := begun_next next hlimit
    rw [hbefore, ← List.range_succ]
    exact congrArg List.range hafter.symm
  · intro s hs live
    simp only [record, window_seated, started_seated] at hs live ⊢
    rcases List.mem_append.mp hs with hold | hnew
    · have live : n.window.isLive s.1 = true := h.live_of_advance hold live
      obtain ⟨x, hx, hxe, hrunning, hnumber⟩ := h.held s hold live
      exact ⟨x, hkeeps x hx (hxe ▸ live), hxe, hrunning,
        (number_seated (slot_ne_of_live room next live)).trans hnumber⟩
    · obtain rfl := List.mem_singleton.mp hnew
      exact ⟨inst', hself, hsane.epoch.trans hepoch, hstarted, rfl⟩

/-- At the limit the next epoch has its turn, and nothing else happens. -/
theorem refuse (h : n.Valid p config) {valid locked : Option Certificate} {c c' : Context σ}
    (done : n.window.startNext p valid locked c = .ok (w', c', false)) :
    Valid p config { n with window := w' } := by
  rcases startNext_cases done with ⟨-, rfl, -⟩ | ⟨room, e, next, ⟨hlimit, rfl, -⟩ |
    ⟨-, htrue, -⟩⟩
  · exact h
  · have hnext := toNat_nextEpoch next
    have hactive : ¬ n.window.capacity ≤ upTo n.window.lastEpoch - upTo n.window.lastDecided :=
      of_decide_eq_false room
    have hdecided := h.decided
    refine ⟨h.capacity, h.limit, h.placed, h.sound, ?_, ?_, ?_, ?_⟩
    · show upTo n.window.lastDecided ≤ e.toNat + 1
      omega
    · show e.toNat + 1 ≤ upTo n.window.lastDecided + n.window.capacity
      omega
    · exact h.order.trans (congrArg List.range (begun_limit next hlimit).symm)
    · intro s hs live
      exact h.held s hs (h.live_of_advance hs live)
  · cases htrue

/-! ### Deciding -/

/-- A decision leaves the later epochs, and none of the others is live any more. -/
theorem finish (h : n.Valid p config) {isNew : Bool} (turn : e.toNat < upTo n.window.lastEpoch)
    (done : n.window.finishEpoch e = .ok (w', isNew)) : Valid p config { n with window := w' } := by
  cases isNew with
  | false =>
    obtain ⟨-, rfl⟩ := finishEpoch_covered done
    exact h
  | true =>
    have hplaced := h.placed.finishEpoch done
    have hheld := fun x => holds_finishEpoch (x := x) done
    have hkeeps := fun x hx => Holds.finishEpoch (x := x) hx done
    have hlater := fun d => later_of_finishEpoch (d := d) done
    obtain ⟨hundecided, rfl⟩ := finishEpoch_eq done
    have hundecided : upTo n.window.lastDecided ≤ e.toNat := of_decide_eq_true hundecided
    have hroom := h.room
    refine ⟨h.capacity, h.limit, hplaced, ?_, turn, ?_, h.order, ?_⟩
    · intro x hx
      obtain ⟨y, hy, rfl⟩ := hheld x hx
      unfold close
      split
      · exact Instance.sound_stop (h.sound y hy)
      · exact h.sound y hy
    · show upTo n.window.lastEpoch ≤ e.toNat + 1 + n.window.capacity
      omega
    · intro s hs live
      obtain ⟨hundecided', hturn⟩ := Bool.and_eq_true_iff.mp live
      obtain ⟨hlt, hbefore⟩ := hlater s.1 hundecided'
      obtain ⟨x, hx, hxe, hstarted, hnumber⟩ :=
        h.held s hs (Bool.and_eq_true_iff.mpr ⟨hbefore, hturn⟩)
      have hstays := hkeeps x hx
      rw [close_of_lt (hxe ▸ hlt)] at hstays
      exact ⟨x, hstays, hxe, hstarted, hnumber⟩

end Valid

/-! ### Any uses -/

/-- **Every use keeps a numbered window valid.** -/
theorem Use.valid (use : Use p n n') (h : n.Valid p config) : n'.Valid p config := by
  cases use with
  | start next done => exact h.start next done
  | refuse done => exact h.refuse done
  | finish turn done => exact h.finish turn done
  | seat done => exact h.seat done
  | drop done =>
    rw [(holds_seat done).1 rfl]
    exact h
  | receive found done kept =>
    obtain ⟨hheld, -⟩ := instance_cases found
    have hsane := Instance.receive_sane (h.sound _ hheld) (fun _ _ => trivial) done
    exact h.put found hsane.epoch hsane.sound
      (fun started => Instance.started_receive (h.sound _ hheld) started done) kept
  | expire found done kept =>
    obtain ⟨hheld, -⟩ := instance_cases found
    have hsane := Instance.expire_sane (h.sound _ hheld) done
    exact h.put found hsane.epoch hsane.sound
      (fun started => Instance.started_expire (h.sound _ hheld) started done) kept
  | stop found kept =>
    obtain ⟨hheld, -⟩ := instance_cases found
    exact h.put found (Instance.epoch_stop _) (Instance.sound_stop (h.sound _ hheld))
      Instance.started_stop kept

theorem Uses.valid (uses : Uses p n n') (h : n.Valid p config) : n'.Valid p config := by
  induction uses with
  | refl => exact h
  | tail _ use ih => exact use.valid ih

/-- Every live epoch has its own slot. -/
theorem Valid.card_le (h : n.Valid p config) {S : Finset Epoch}
    (live : ∀ e ∈ S, n.window.isLive e = true) : S.card ≤ config.maxActiveEpochs := by
  have hinj : Set.InjOn UInt64.toNat S := fun d _ e _ heq => UInt64.toNat_inj.mp heq
  have hsub : S.image UInt64.toNat ⊆
      Finset.Ico (upTo n.window.lastDecided) (upTo n.window.lastEpoch) := by
    intro k hk
    obtain ⟨e, he, rfl⟩ := Finset.mem_image.mp hk
    obtain ⟨hundecided, hturn⟩ := Bool.and_eq_true_iff.mp (live e he)
    exact Finset.mem_Ico.mpr ⟨of_decide_eq_true hundecided, of_decide_eq_true hturn⟩
  have hcard := Finset.card_le_card hsub
  rw [Finset.card_image_of_injOn hinj, Nat.card_Ico] at hcard
  have hroom := h.room
  rw [h.capacity] at hroom
  omega

/-- A decision stops what is live up to it. -/
theorem close_of_live {w : Window} {e : Epoch} {x : Instance} {d : Epoch}
    (live : w.isLive d = true) (le : d ≤ e) (hx : x.epoch = d) : w.close e x = x.stop := by
  obtain ⟨hundecided, -⟩ := Bool.and_eq_true_iff.mp live
  unfold close
  rw [if_pos (by simp [hx, hundecided, le])]

/-- A live epoch below the limit is in its slot, with the instance that it was started with. -/
theorem Valid.held_of_live (h : n.Valid p config) {e : Epoch} (live : n.window.isLive e = true)
    (within : 0 < config.maxEpochToStart → e.toNat < config.maxEpochToStart) :
    ∃ x, n.window.Holds x ∧ x.epoch = e ∧ x.started = true ∧
      (e, n.number (e.toNat % config.maxActiveEpochs)) ∈ n.started := by
  have hturn : e.toNat < upTo n.window.lastEpoch :=
    of_decide_eq_true (Bool.and_eq_true_iff.mp live).2
  have hlimit : ¬ n.window.CutsOff e := by
    rintro ⟨hpos, hcut⟩
    rw [h.limit] at hpos hcut
    exact Nat.not_le.mpr (within hpos) hcut
  obtain ⟨k, hk⟩ := (h.started_iff e).mpr ⟨hturn, hlimit⟩
  obtain ⟨x, hx, hxe, hstarted, hnumber⟩ := h.held (e, k) hk live
  rw [h.capacity] at hnumber
  exact ⟨x, hx, hxe, hstarted, hnumber ▸ hk⟩

/-- **A live epoch keeps its instance.**  After any uses of a new window every instance is in the
slot of its epoch, and no more epochs are live than there are slots.  The epochs that were started
are the first ones in order, each of them once, and below the limit if there is one.  A live epoch
below the limit is started, and the instance in its slot is the one that it was started with.  A new
decision stops every live epoch up to the decided one. -/
theorem uses_take_turns {process : ProcessId} (created : create config process = .ok w)
    (uses : Uses p (first w) n) :
    (∀ i x, n.window.slots.get i = some x → i.val = x.epoch.toNat % config.maxActiveEpochs) ∧
    (∀ S : Finset Epoch, (∀ e ∈ S, n.window.isLive e = true) →
      S.card ≤ config.maxActiveEpochs) ∧
    (n.started.map (·.1.toNat) = List.range n.started.length ∧
      ∀ s ∈ n.started, 0 < config.maxEpochToStart → s.1.toNat < config.maxEpochToStart) ∧
    (∀ e, n.window.isLive e = true →
      (0 < config.maxEpochToStart → e.toNat < config.maxEpochToStart) →
      ∃ x, n.window.Holds x ∧ x.epoch = e ∧ x.started = true ∧
        (e, n.number (e.toNat % config.maxActiveEpochs)) ∈ n.started) ∧
    ∀ e w', e.toNat < upTo n.window.lastEpoch → n.window.finishEpoch e = .ok (w', true) →
      ∀ d, n.window.isLive d = true → d ≤ e →
        w'.isLive d = false ∧ (∀ x, w'.Holds x → x.epoch = d → x.finished = true) ∧
        ((0 < config.maxEpochToStart → d.toNat < config.maxEpochToStart) →
          ∃ x, n.window.Holds x ∧ x.epoch = d ∧ w'.Holds x.stop) := by
  have h : n.Valid p config := Uses.valid uses (valid_first created)
  refine ⟨?_, fun S live => h.card_le live, ⟨?_, ?_⟩, fun e => h.held_of_live, ?_⟩
  · intro i x hx
    rw [h.placed i x hx, h.capacity]
  · have hlength := congrArg List.length h.order
    rw [List.length_map, List.length_range] at hlength
    rw [hlength, h.order]
  · intro s hs hpos
    have hlimit := ((h.started_iff s.1).mp ⟨s.2, hs⟩).2
    rw [CutsOff, h.limit] at hlimit
    exact Nat.not_le.mp fun hcut => hlimit ⟨hpos, hcut⟩
  · intro e w' turn done d live hle
    have hclose : ∀ x : Instance, x.epoch = d → n.window.close e x = x.stop :=
      fun x hx => close_of_live live hle hx
    refine ⟨?_, ?_, ?_⟩
    · by_contra hstays
      have hlive : w'.isLive d = true := by simpa using hstays
      have hlater := (later_of_finishEpoch done (Bool.and_eq_true_iff.mp hlive).1).1
      exact UInt64.not_lt.mpr hle hlater
    · intro x hx hxe
      obtain ⟨y, hy, rfl⟩ := holds_finishEpoch done hx
      rw [epoch_close] at hxe
      rw [hclose y hxe]
      exact Instance.finished_stop y
    · intro within
      obtain ⟨x, hx, hxe, -⟩ := h.held_of_live live within
      have hstays := hx.finishEpoch done
      rw [hclose x hxe] at hstays
      exact ⟨x, hx, hxe, hstays⟩

/-- A window before and after the start of its first epoch. -/
def pairTurn : Except Fault (Window × Window × Bool) := do
  let w ← create pairConfig 1
  let (w', _, started) ← w.startNext pairHost none none (.start pairScript)
  return (w, w', started)

/-- The first epoch is live, and has the first instance. -/
theorem uses_take_turns_pair : ∃ w n, create pairConfig 1 = .ok w ∧ Uses pairHost (first w) n ∧
    n.window.isLive 0 = true ∧ n.number 0 = 0 ∧
    ∃ x, n.window.Holds x ∧ x.epoch = 0 ∧ x.started = true ∧ (0, 0) ∈ n.started := by
  obtain ⟨r, hrun, hfacts⟩ : ∃ r, pairTurn = .ok r ∧
      (r.1.nextEpoch.toOption, r.2.1.isLive 0, r.2.2) = (some 0, true, true) :=
    exists_of_toOption (by decide +kernel)
  unfold pairTurn at hrun
  simp only [pure, Except.pure] at hrun
  obtain ⟨w, created, hrun⟩ := bind_eq_ok.mp hrun
  obtain ⟨⟨w', c, isStarted⟩, done, hrun⟩ := bind_eq_ok.mp hrun
  cases hrun
  simp only [Prod.mk.injEq] at hfacts
  obtain ⟨hnext, live, rfl⟩ := hfacts
  obtain ⟨e, next, rfl⟩ : ∃ e, w.nextEpoch = .ok e ∧ e = 0 :=
    exists_of_toOption (f := id) (by simpa using hnext)
  have uses : Uses pairHost (first w) (((first w).seated 0 w').record 0) :=
    .single (.start next done)
  have hnumber : (((first w).seated 0 w').record 0).number 0 = 0 := by
    show ((first w).seated 0 w').number 0 = 0
    unfold seated
    split
    · rfl
    · simp [first]
  have hlive : (((first w).seated 0 w').record 0).window.isLive 0 = true := by
    simpa [record] using live
  obtain ⟨x, hx, hxe, hstarted, hrecorded⟩ :=
    (uses_take_turns created uses).2.2.2.1 0 hlive (fun hpos => absurd hpos (Nat.lt_irrefl 0))
  refine ⟨w, _, created, uses, hlive, hnumber, x, hx, hxe, hstarted, ?_⟩
  rwa [show (0 : Epoch).toNat % pairConfig.maxActiveEpochs = 0 from rfl, hnumber] at hrecorded

end Numbered

end Window

end EpochConsensus
