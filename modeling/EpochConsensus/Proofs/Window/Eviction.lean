import EpochConsensus.Epoch.Script
import EpochConsensus.Proofs.Epoch.Calls
import EpochConsensus.Proofs.Window

/-! # Who gives way in the window

Epochs that differ by a multiple of the capacity share a slot, and a message may name any epoch.  An
epoch that asks for its slot gets it from an earlier one that is decided or has not had its turn,
and from no other (`Window.seat_replaces`): an epoch that has started and is undecided is never
discarded.  One that only keeps early messages is, by a message for a later epoch
(`Window.seat_evicts_waiting`).
-/
namespace EpochConsensus

namespace Instance

variable {σ : Type} {p : Host σ} {inst inst' : Instance} {c c' : Context σ}

/-- A message starts nothing. -/
theorem receive_unstarted (idle : inst.started = false) {m : Message}
    (h : inst.receive p m c = .ok (inst', c')) : inst'.started = false := by
  cases inst with
  | consensus machine =>
    obtain ⟨s', hs', rfl, -⟩ := ofStep_eq_ok h
    have hphase : machine.phase = .inactive := by simpa [started, Machine.started] using idle
    obtain rfl := Host.receive_inactive (s := ⟨c, machine⟩) hphase hs'
    obtain ⟨pending, heq, -⟩ := Host.keep_eq m ⟨c, machine⟩
    rw [heq]
    exact idle
  | probe b =>
    simp only [receive, pure, Except.pure] at h
    obtain ⟨d, -, h⟩ := bind_eq_ok.mp h
    cases h
    exact idle

/-- Neither does a timeout. -/
theorem expire_unstarted (idle : inst.started = false) {t : Timeout}
    (h : inst.expire p t c = .ok (inst', c')) : inst'.started = false := by
  cases inst with
  | consensus machine =>
    obtain ⟨s', hs', rfl, -⟩ := ofStep_eq_ok h
    have hphase : machine.phase = .inactive := by simpa [started, Machine.started] using idle
    obtain rfl := Host.expire_idle (s := ⟨c, machine⟩) (.inl hphase) hs'
    exact idle
  | probe b =>
    cases h
    exact idle

end Instance

namespace Window

/-- Looks for the instance that messages of an epoch go to, and makes it where there is room. -/
def seat (w : Window) (e : Epoch) : Except Fault (Window × Option Instance) := do
  match ← w.claim? e with
  | none => return (w, none)
  | some inst => return (← w.put inst, some inst)

/-- One use of a window, with the host in any state. -/
inductive Use {σ : Type} (p : Host σ) : Window → Window → Prop
  | start {w w' : Window} {valid locked : Option Certificate} {world : σ} {c : Context σ}
      {started : Bool} (done : w.startNext p valid locked (.start world) = .ok (w', c, started)) :
      Use p w w'
  /-- No epoch is decided before its turn. -/
  | finish {w w' : Window} {e : Epoch} {isNew : Bool} (turn : e.toNat < upTo w.lastEpoch)
      (done : w.finishEpoch e = .ok (w', isNew)) : Use p w w'
  | seat {w w' : Window} {e : Epoch} {found : Option Instance}
      (done : w.seat e = .ok (w', found)) : Use p w w'
  | receive {w w' : Window} {e : Epoch} {inst inst' : Instance} {m : Message} {world : σ}
      {c : Context σ} (found : w.instance? e = .ok (some inst))
      (done : inst.receive p m (.start world) = .ok (inst', c)) (kept : w.put inst' = .ok w') :
      Use p w w'
  | expire {w w' : Window} {e : Epoch} {inst inst' : Instance} {t : Timeout} {world : σ}
      {c : Context σ} (found : w.instance? e = .ok (some inst))
      (done : inst.expire p t (.start world) = .ok (inst', c)) (kept : w.put inst' = .ok w') :
      Use p w w'

/-- Any number of uses. -/
abbrev Uses {σ : Type} (p : Host σ) : Window → Window → Prop := Relation.ReflTransGen (Use p)

/-- What every use keeps: no epoch starts before its turn. -/
structure Queued {σ : Type} (p : Host σ) (w : Window) : Prop where
  placed : w.Placed
  sound : ∀ x, w.Holds x → x.Sound p fun _ => True
  waits : ∀ x, w.Holds x → upTo w.lastEpoch ≤ x.epoch.toNat → x.started = false

variable {σ : Type} {p : Host σ} {w w' w₀ : Window} {inst inst' x : Instance} {e : Epoch}
  {found : Option Instance} {c : Context σ} {world : σ}

/-! ### Making room -/

/-- A slot that is asked for stays with its occupant, or goes to a new instance of the epoch. -/
theorem seat_cases (h : w.seat e = .ok (w', found)) :
    ∃ i, w.index e = .ok i ∧
      ((found = none ∧ w' = w ∧ ∃ x, w.slots.get i = some x ∧ x.epoch ≠ e ∧
          (e < x.epoch ∨ w.isLive x.epoch = true)) ∨
        ∃ inst, found = some inst ∧ w.put inst = .ok w' ∧ (w.slots.get i = some inst ∧
            inst.epoch = e ∨
          inst = w.factory.create e ∧ ∀ x, w.slots.get i = some x →
            x.epoch < e ∧ w.isLive x.epoch = false)) := by
  unfold seat at h
  simp only [pure, Except.pure] at h
  obtain ⟨claimed, hclaim, h⟩ := bind_eq_ok.mp h
  obtain ⟨i, hi, hcases⟩ := claim_cases hclaim
  refine ⟨i, hi, ?_⟩
  rcases hcases with ⟨rfl, htaken⟩ | ⟨x, rfl, hslot, hepoch⟩ | ⟨rfl, hfree⟩
  · cases h
    exact .inl ⟨rfl, rfl, htaken⟩
  · obtain ⟨u, kept, h⟩ := bind_eq_ok.mp h
    cases h
    exact .inr ⟨x, rfl, kept, .inl ⟨hslot, hepoch⟩⟩
  · obtain ⟨u, kept, h⟩ := bind_eq_ok.mp h
    cases h
    exact .inr ⟨_, rfl, kept, .inr ⟨rfl, hfree⟩⟩

/-- An epoch is refused and nothing changes, or its instance is in the window then. -/
theorem holds_seat (h : w.seat e = .ok (w', found)) :
    (found = none → w' = w) ∧ ∀ inst ∈ found, inst.epoch = e ∧ w'.Holds inst := by
  obtain ⟨i, -, ⟨rfl, rfl, -⟩ | ⟨inst, rfl, kept, hsource⟩⟩ := seat_cases h
  · exact ⟨fun _ => rfl, fun _ hnone => nomatch hnone⟩
  · refine ⟨nofun, ?_⟩
    rintro _ ⟨⟩
    refine ⟨?_, holds_put_self kept⟩
    rcases hsource with ⟨-, hepoch⟩ | ⟨rfl, -⟩
    · exact hepoch
    · exact Factory.epoch_create _ _

/-- In a window with slots an epoch may always ask for its own. -/
theorem seat_succeeds (slots : 0 < w.capacity) (e : Epoch) : ∃ r, w.seat e = .ok r := by
  have hput : ∀ y : Instance, ∃ u, w.put y = .ok u := fun y => by
    unfold Window.put index
    rw [dif_pos slots]
    exact ⟨_, rfl⟩
  obtain ⟨claimed, hclaim⟩ : ∃ claimed, w.claim? e = .ok claimed := by
    unfold claim? index
    rw [dif_pos slots]
    simp only [pure, Except.pure, bind, Except.bind]
    split
    · exact ⟨_, rfl⟩
    · split
      · exact ⟨_, rfl⟩
      · split <;> exact ⟨_, rfl⟩
  unfold seat
  rw [hclaim]
  cases claimed with
  | none => exact ⟨_, rfl⟩
  | some y =>
    obtain ⟨u, hu⟩ := hput y
    exact ⟨(u, some y), by simp [bind, Except.bind, pure, Except.pure, hu]⟩

/-! ### What every use keeps -/

theorem queued_create {config : Config} {process : ProcessId}
    (created : create config process = .ok w) : w.Queued p := by
  unfold create at created
  simp only [pure, Except.pure] at created
  obtain ⟨_, -, created⟩ := bind_eq_ok.mp created
  cases created
  exact ⟨placed_ofConfig config process, fun x hx => absurd hx (not_holds_ofConfig config process),
    fun x hx => absurd hx (not_holds_ofConfig config process)⟩

/-- Putting an instance that is sound, and not started unless it has had its turn. -/
theorem Queued.put (h : w.Queued p) (sound : inst.Sound p fun _ => True)
    (waits : upTo w.lastEpoch ≤ inst.epoch.toNat → inst.started = false)
    (kept : w.put inst = .ok w') : w'.Queued p := by
  refine ⟨h.placed.put kept, ?_, ?_⟩
  · intro x hx
    rcases holds_put h.placed kept hx with rfl | ⟨hold, -⟩
    · exact sound
    · exact h.sound x hold
  · intro x hx
    rw [lastEpoch_put kept]
    rcases holds_put h.placed kept hx with rfl | ⟨hold, -⟩
    · exact waits
    · exact h.waits x hold

/-- The next epoch gets its turn. -/
theorem Queued.advance (h : w.Queued p) (next : w.nextEpoch = .ok e) :
    { w with lastEpoch := some e }.Queued p where
  placed := h.placed
  sound := h.sound
  waits x hx hturn := by
    refine h.waits x hx ?_
    rw [← toNat_nextEpoch next]
    exact Nat.le_of_succ_le hturn

/-- An instance that may answer for an epoch is sound, and has not started before its turn. -/
theorem Queued.source (h : w.Queued p)
    (source : w.instance? e = .ok (some inst) ∨ inst = w.factory.create e) :
    (inst.Sound p fun _ => True) ∧ inst.epoch = e ∧
      (upTo w.lastEpoch ≤ inst.epoch.toNat → inst.started = false) := by
  rcases source with hfound | rfl
  · obtain ⟨hheld, hepoch⟩ := instance_cases hfound
    exact ⟨h.sound inst hheld, hepoch, h.waits inst hheld⟩
  · exact ⟨Instance.sound_create _ _, Factory.epoch_create _ _, fun _ =>
      Instance.started_create _ _⟩

theorem Queued.seat (h : w.Queued p) (done : w.seat e = .ok (w', found)) : w'.Queued p := by
  obtain ⟨i, -, ⟨-, rfl, -⟩ | ⟨inst, -, kept, ⟨hslot, -⟩ | ⟨rfl, -⟩⟩⟩ := seat_cases done
  · exact h
  · exact h.put (h.sound inst ⟨i, hslot⟩) (h.waits inst ⟨i, hslot⟩) kept
  · exact h.put (Instance.sound_create _ _) (fun _ => Instance.started_create _ _) kept

theorem Use.queued (use : Use p w w') (h : w.Queued p) : w'.Queued p := by
  cases use with
  | start done =>
    rcases startNext_cases done with ⟨-, rfl, -⟩ | ⟨-, e, next, ⟨-, rfl, -⟩ |
      ⟨-, -, inst, inst', found, hstart, kept⟩⟩
    · exact h
    · exact h.advance next
    · obtain ⟨hsound, hepoch, -⟩ := h.source found
      have hsane := Instance.start_sane hsound (fun _ _ _ _ => trivial) (fun _ _ _ _ => trivial)
        hstart
      refine (h.advance next).put hsane.sound (fun hturn => ?_) kept
      rw [hsane.epoch, hepoch] at hturn
      exact absurd hturn (Nat.not_succ_le_self _)
  | @finish e isNew turn done =>
    cases isNew with
    | false =>
      obtain ⟨-, rfl⟩ := finishEpoch_covered done
      exact h
    | true =>
      refine ⟨h.placed.finishEpoch done, ?_, ?_⟩
      · intro x hx
        obtain ⟨y, hy, rfl⟩ := holds_finishEpoch done hx
        unfold close
        split
        · exact Instance.sound_stop (h.sound y hy)
        · exact h.sound y hy
      · intro x hx hturn
        obtain ⟨y, hy, rfl⟩ := holds_finishEpoch done hx
        -- what waits is above every decided epoch, so the decision leaves it alone
        obtain ⟨-, rfl⟩ := finishEpoch_eq done
        rw [epoch_close] at hturn
        have hturn : upTo w.lastEpoch ≤ y.epoch.toNat := hturn
        rw [close_of_lt (UInt64.lt_iff_toNat_lt.mpr (Nat.lt_of_lt_of_le turn hturn))]
        exact h.waits y hy hturn
  | seat done => exact h.seat done
  | receive found done kept =>
    obtain ⟨hsound, -, hwaits⟩ := h.source (.inl found)
    have hsane := Instance.receive_sane hsound (fun _ _ => trivial) done
    refine h.put hsane.sound (fun hturn => ?_) kept
    exact Instance.receive_unstarted (hwaits (hsane.epoch ▸ hturn)) done
  | expire found done kept =>
    obtain ⟨hsound, -, hwaits⟩ := h.source (.inl found)
    have hsane := Instance.expire_sane hsound done
    refine h.put hsane.sound (fun hturn => ?_) kept
    exact Instance.expire_unstarted (hwaits (hsane.epoch ▸ hturn)) done

theorem Uses.queued (uses : Uses p w w') (h : w.Queued p) : w'.Queued p := by
  induction uses with
  | refl => exact h
  | tail _ use ih => exact use.queued ih

/-! ### Who gives way -/

/-- An occupant gives way to a later epoch, if it is not live. -/
theorem Queued.not_holds_seat_iff (h : w.Queued p) (done : w.seat e = .ok (w', found))
    (hx : w.Holds x) :
    ¬ w'.Holds x ↔ x.epoch.toNat % w.capacity = e.toNat % w.capacity ∧ x.epoch < e ∧
      w.isLive x.epoch = false := by
  obtain ⟨j, hj⟩ := hx
  obtain ⟨i, hi, hcases⟩ := seat_cases done
  have hslot : j = i ↔ x.epoch.toNat % w.capacity = e.toNat % w.capacity := by
    rw [← h.placed j x hj, ← index_eq hi]
    exact Fin.ext_iff
  rcases hcases with ⟨-, rfl, y, hy, hother, htaken⟩ | ⟨inst, rfl, kept, hsource⟩
  · -- the occupant is later or live, and stays
    refine iff_of_false (not_not_intro ⟨j, hj⟩) ?_
    rintro ⟨hsame, hlt, hidle⟩
    obtain rfl := hslot.mpr hsame
    obtain rfl : x = y := Option.some.inj (hj.symm.trans hy)
    rcases htaken with hgt | hlive
    · exact UInt64.lt_asymm hlt hgt
    · rw [hlive] at hidle
      cases hidle
  · have hepoch : inst.epoch = e := ((holds_seat done).2 inst rfl).1
    rw [← hslot]
    constructor
    · intro hgone
      obtain rfl : j = i := Decidable.byContradiction fun hne =>
        hgone (Holds.put ⟨j, hj⟩ kept fun k hk hslotk => hne (by
          obtain rfl : i = k := Except.ok.inj (hi.symm.trans (hepoch ▸ hk))
          exact Fin.ext ((h.placed j x hj).trans (h.placed i x hslotk).symm)))
      rcases hsource with ⟨hslotj, -⟩ | ⟨-, hfree⟩
      · obtain rfl : x = inst := Option.some.inj (hj.symm.trans hslotj)
        exact absurd (holds_put_self kept) hgone
      · exact ⟨rfl, hfree x hj⟩
    · rintro ⟨hsame, hlt, -⟩ hheld
      have hslots : x.epoch.toNat % w'.capacity = inst.epoch.toNat % w'.capacity := by
        rw [capacity_put kept, hepoch]
        exact hslot.mp hsame
      obtain rfl := (h.placed.put kept).eq_of_slot hheld (holds_put_self kept) hslots
      exact UInt64.ne_of_lt hlt hepoch

/-- **Who gives way.**  An epoch may always ask for its slot: it is refused and nothing changes, or
its instance is in the slot then.  What is discarded is an occupant of the same slot and of an
earlier epoch, which a decision covers or which has not had its turn and has not started; every
other instance stays. -/
theorem seat_replaces {config : Config} {process : ProcessId}
    (created : create config process = .ok w₀) (uses : Uses p w₀ w) (e : Epoch) :
    (0 < w.capacity → ∃ r, w.seat e = .ok r) ∧ ∀ w' found, w.seat e = .ok (w', found) →
      (found = none → w' = w) ∧ (∀ inst ∈ found, inst.epoch = e ∧ w'.Holds inst) ∧
      ∀ x, w.Holds x → (¬ w'.Holds x ↔
        x.epoch.toNat % w.capacity = e.toNat % w.capacity ∧ x.epoch < e ∧
          (w.isUndecided x.epoch = false ∨
            upTo w.lastEpoch ≤ x.epoch.toNat ∧ x.started = false)) := by
  refine ⟨fun slots => seat_succeeds slots e, fun w' found done => ?_⟩
  have h : w.Queued p := uses.queued (queued_create created)
  obtain ⟨hrefused, hheld⟩ := holds_seat done
  refine ⟨hrefused, hheld, fun x hx => ?_⟩
  have hlive : w.isLive x.epoch = false ↔ w.isUndecided x.epoch = false ∨
      upTo w.lastEpoch ≤ x.epoch.toNat ∧ x.started = false := by
    rw [isLive, Bool.and_eq_false_iff, decide_eq_false_iff_not, Nat.not_lt]
    exact or_congr_right ⟨fun hturn => ⟨hturn, h.waits x hx hturn⟩, And.left⟩
  rw [h.not_holds_seat_iff done hx, hlive]

/-! ### A window of two slots -/

def pairConfig : Config := { Config.default with maxActiveEpochs := 2 }

/-- Process 1 of three, which has nothing to propose. -/
def pairHost : Host Script := Script.host 1 3 none fun _ => 0

def pairScript : Script := ⟨[], none, true, true, true⟩

def earlyBlame : Message := .silence ⟨3, 0, ⟨.fill 64 7⟩⟩

/-- The first epoch starts, and then blame on the proposer of epoch 3 comes early. -/
def pairWindow : Except Fault Window := do
  let w ← create pairConfig 1
  let (w, _, _) ← w.startNext pairHost none none (.start pairScript)
  let (w, _) ← w.seat 3
  match ← w.instance? 3 with
  | none => return w
  | some inst => do
    let (inst, _) ← inst.receive pairHost earlyBlame (.start pairScript)
    w.put inst

theorem uses_pairWindow (h : pairWindow = .ok w) :
    ∃ w₀, create pairConfig 1 = .ok w₀ ∧ Uses pairHost w₀ w := by
  unfold pairWindow at h
  simp only [pure, Except.pure] at h
  obtain ⟨w₀, created, h⟩ := bind_eq_ok.mp h
  obtain ⟨⟨w₁, c, started⟩, hstart, h⟩ := bind_eq_ok.mp h
  obtain ⟨⟨w₂, found⟩, hseat, h⟩ := bind_eq_ok.mp h
  obtain ⟨inst, hinst, h⟩ := bind_eq_ok.mp h
  have hseated : Uses pairHost w₀ w₂ := .tail (.single (.start hstart)) (.seat hseat)
  refine ⟨w₀, created, ?_⟩
  cases inst with
  | none =>
    cases h
    exact hseated
  | some inst =>
    obtain ⟨⟨inst', d⟩, hreceive, h⟩ := bind_eq_ok.mp h
    exact hseated.tail (.receive hinst hreceive h)

/-- Epoch 0, which runs, keeps its slot when epoch 2 asks for it. -/
theorem seat_replaces_pair : ∃ w₀ w x w' found, create pairConfig 1 = .ok w₀ ∧
    Uses pairHost w₀ w ∧ w.Holds x ∧ x.epoch = 0 ∧ x.started = true ∧
    w.seat 2 = .ok (w', found) ∧ w'.Holds x := by
  obtain ⟨w, hw, hfacts⟩ : ∃ w, pairWindow = .ok w ∧ (w.capacity, w.isUndecided 0,
      (w.instance? 0).toOption.join.map Instance.started) = (2, true, some true) :=
    exists_of_toOption (by decide +kernel)
  simp only [Prod.mk.injEq] at hfacts
  obtain ⟨hcapacity, hundecided, hfound⟩ := hfacts
  obtain ⟨x, hheld, hepoch, hstarted⟩ := exists_of_instance hfound
  obtain ⟨w₀, created, uses⟩ := uses_pairWindow hw
  obtain ⟨hsucceeds, hreplaces⟩ := seat_replaces created uses 2
  obtain ⟨⟨w', found⟩, hseat⟩ := hsucceeds (hcapacity ▸ Nat.two_pos)
  refine ⟨w₀, w, x, w', found, created, uses, hheld, hepoch, hstarted, hseat, ?_⟩
  have hgone := (hreplaces w' found hseat).2.2 x hheld
  rw [hepoch, hundecided, hstarted] at hgone
  exact Classical.not_not.mp fun hlost => by simpa using (hgone.mp hlost).2.2

/-- A message for epoch 5 discards epoch 3, which is undecided and keeps a message. -/
theorem seat_evicts_waiting : ∃ w₀ w m w' found, create pairConfig 1 = .ok w₀ ∧
    Uses pairHost w₀ w ∧ w.Holds (.consensus m) ∧ m.epoch = 3 ∧ w.isUndecided 3 = true ∧
    m.pending = [earlyBlame] ∧ w.seat 5 = .ok (w', found) ∧ ¬ w'.Holds (.consensus m) := by
  obtain ⟨w, hw, hfacts⟩ : ∃ w, pairWindow = .ok w ∧ (w.isUndecided 3,
      (w.instance? 3).toOption.join.map fun x => x.machine?.map Machine.pending,
      (w.seat 5).toOption.map fun r => (r.1.instance? 3).toOption.join.isSome) =
        (true, some (some [earlyBlame]), some false) := exists_of_toOption (by decide +kernel)
  simp only [Prod.mk.injEq] at hfacts
  obtain ⟨hundecided, hfound, hseat⟩ := hfacts
  obtain ⟨x, hheld, hepoch, hkept⟩ := exists_of_instance hfound
  obtain ⟨⟨w', found⟩, hdone, hgone⟩ := exists_of_toOption hseat
  obtain ⟨w₀, created, uses⟩ := uses_pairWindow hw
  cases x with
  | probe => cases hkept
  | consensus m =>
    refine ⟨w₀, w, m, w', found, created, uses, hheld, hepoch, hundecided, Option.some.inj hkept,
      hdone, fun hstays => ?_⟩
    -- an instance that were still held would be found
    have hplaced := ((uses.queued (queued_create created)).seat hdone).placed
    have hfound := instance_of_holds hplaced hstays
    rw [hepoch] at hfound
    simp [hfound, Except.toOption] at hgone

end Window

end EpochConsensus
