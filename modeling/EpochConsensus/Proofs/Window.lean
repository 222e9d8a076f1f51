import EpochConsensus.Proofs.Basic
import EpochConsensus.Window

/-! # Slots of the window

In a `Placed` window every instance is in the slot of its epoch, so no two instances are of one
epoch, and what one operation does to one epoch it does to no other: `holds_put`, `claim_cases`,
`holds_finishEpoch`.
-/
namespace EpochConsensus

/-- The epoch of consensus that an instance is, if it is one. -/
def Instance.machine? : Instance → Option Machine
  | consensus m => some m
  | probe _ => none

/-- A stop leaves an instance to its epoch. -/
@[simp] theorem Instance.epoch_stop (inst : Instance) : inst.stop.epoch = inst.epoch := by
  cases inst <;> rfl

/-- A stop does not take a start back. -/
theorem Instance.started_of_stop {inst : Instance} (h : inst.stop.started = false) :
    inst.started = false := by
  cases inst with
  | consensus m => simp [stop, started, Machine.stop, Machine.started] at h
  | probe b => exact h

theorem Instance.started_create (f : Factory) (e : Epoch) : (f.create e).started = false := by
  unfold Factory.create
  split <;> rfl

namespace Window

variable {w w' : Window} {inst x : Instance} {e : Epoch}

/-- An instance is in one of the slots. -/
def Holds (w : Window) (inst : Instance) : Prop := ∃ i, w.slots.get i = some inst

/-- Every instance is in the slot of its epoch. -/
def Placed (w : Window) : Prop :=
  ∀ i inst, w.slots.get i = some inst → i.val = inst.epoch.toNat % w.capacity

/-- No two instances share a slot. -/
theorem Placed.eq_of_slot {y : Instance} (hw : w.Placed) (hx : w.Holds x) (hy : w.Holds y)
    (same : x.epoch.toNat % w.capacity = y.epoch.toNat % w.capacity) : x = y := by
  obtain ⟨i, hi⟩ := hx
  obtain ⟨j, hj⟩ := hy
  obtain rfl : i = j := Fin.ext ((hw i x hi).trans (same.trans (hw j y hj).symm))
  exact Option.some.inj (hi.symm.trans hj)

/-- No two instances are of one epoch. -/
theorem Placed.eq_of_epoch {y : Instance} (hw : w.Placed) (hx : w.Holds x) (hy : w.Holds y)
    (same : x.epoch = y.epoch) : x = y := hw.eq_of_slot hx hy (by rw [same])

theorem index_eq {i : Fin w.capacity} (h : w.index e = .ok i) : i.val = e.toNat % w.capacity := by
  unfold index at h
  split at h
  · cases h
    rfl
  · cases h

theorem index_of_holds (hw : w.Placed) {i : Fin w.capacity} (h : w.slots.get i = some x) :
    w.index x.epoch = .ok i := by
  unfold index
  rw [dif_pos (Nat.zero_lt_of_lt i.isLt)]
  exact congrArg Except.ok (Fin.ext (hw i x h).symm)

/-- No slot is taken before any epoch. -/
theorem not_holds_ofConfig (c : Config) (process : ProcessId) :
    ¬ (ofConfig c process).Holds inst := by
  rintro ⟨i, hi⟩
  have hnone : (ofConfig c process).slots.get i = none := Vector.getElem_replicate _
  rw [hnone] at hi
  cases hi

theorem placed_ofConfig (c : Config) (process : ProcessId) : (ofConfig c process).Placed :=
  fun i _ hi => absurd ⟨i, hi⟩ (not_holds_ofConfig c process)

/-! ### Putting -/

/-- Putting an instance changes nothing but a slot. -/
theorem put_eq (h : w.put inst = .ok w') :
    ∃ i : Fin w.capacity, i.val = inst.epoch.toNat % w.capacity ∧
      w' = { w with slots := w.slots.set i.val (some inst) i.isLt } := by
  unfold put at h
  simp only [pure, Except.pure] at h
  obtain ⟨i, hi, h⟩ := bind_eq_ok.mp h
  exact ⟨i, index_eq hi, (Except.ok.inj h).symm⟩

/-- What is in a slot makes no difference to what is decided, or to whose turn it is. -/
theorem isUndecided_put (h : w.put inst = .ok w') : w'.isUndecided e = w.isUndecided e := by
  obtain ⟨i, -, rfl⟩ := put_eq h
  rfl

theorem lastEpoch_put (h : w.put inst = .ok w') : w'.lastEpoch = w.lastEpoch := by
  obtain ⟨i, -, rfl⟩ := put_eq h
  rfl

theorem capacity_put (h : w.put inst = .ok w') : w'.capacity = w.capacity := by
  obtain ⟨i, -, rfl⟩ := put_eq h
  rfl

theorem Placed.put (hw : w.Placed) (h : w.put inst = .ok w') : w'.Placed := by
  obtain ⟨i, hi, rfl⟩ := put_eq h
  intro j y hj
  rw [get_set] at hj
  split at hj
  · rename_i heq
    cases hj
    rw [heq]
    exact hi
  · exact hw j y hj

/-- Putting an instance leaves those of other epochs, and of its own epoch none but itself. -/
theorem holds_put (hw : w.Placed) (h : w.put inst = .ok w') (hx : w'.Holds x) :
    x = inst ∨ (w.Holds x ∧ x.epoch ≠ inst.epoch) := by
  obtain ⟨i, hi, rfl⟩ := put_eq h
  obtain ⟨j, hj⟩ := hx
  rw [get_set] at hj
  by_cases heq : j = i
  · rw [if_pos heq] at hj
    exact .inl (Option.some.inj hj).symm
  · rw [if_neg heq] at hj
    refine .inr ⟨⟨j, hj⟩, ?_⟩
    intro hepoch
    refine heq (Fin.ext ?_)
    rw [hw j x hj, hepoch, hi]

theorem holds_put_self (h : w.put inst = .ok w') : w'.Holds inst := by
  obtain ⟨i, -, rfl⟩ := put_eq h
  exact ⟨i, by rw [get_set, if_pos rfl]⟩

/-- What is in another slot stays there. -/
theorem Holds.put (hx : w.Holds x) (h : w.put inst = .ok w')
    (other : ∀ i, w.index inst.epoch = .ok i → w.slots.get i ≠ some x) : w'.Holds x := by
  unfold Window.put at h
  simp only [pure, Except.pure] at h
  obtain ⟨i, hi, h⟩ := bind_eq_ok.mp h
  cases h
  obtain ⟨j, hj⟩ := hx
  refine ⟨j, ?_⟩
  rw [get_set, if_neg]
  · exact hj
  · rintro rfl
    exact other j hi hj

/-- Putting an instance where it is changes nothing. -/
theorem put_of_holds (hw : w.Placed) (hx : w.Holds x) : w.put x = .ok w := by
  obtain ⟨i, hi⟩ := hx
  unfold Window.put
  rw [index_of_holds hw hi]
  have hsame : w.slots.set i.val (some x) i.isLt = w.slots := by
    refine Vector.ext fun j hj => ?_
    rw [Vector.getElem_set]
    split
    · rename_i heq
      subst heq
      exact hi.symm
    · rfl
  simp only [bind, Except.bind, pure, Except.pure, hsame]

/-- What is held can be replaced by another instance of its epoch. -/
theorem exists_put (hw : w.Placed) (hx : w.Holds x) (epoch : inst.epoch = x.epoch) :
    ∃ w', w.put inst = .ok w' := by
  obtain ⟨i, hi⟩ := hx
  unfold Window.put
  rw [epoch, index_of_holds hw hi]
  exact ⟨_, rfl⟩

/-! ### Looking up -/

/-- An instance that is held is found. -/
theorem instance_of_holds (hw : w.Placed) (hx : w.Holds x) :
    w.instance? x.epoch = .ok (some x) := by
  obtain ⟨i, hi⟩ := hx
  unfold instance?
  rw [index_of_holds hw hi]
  show Except.ok ((w.slots.get i).filter _) = _
  rw [hi]
  simp [Option.filter]

/-- The instance of an epoch is held and is of the epoch. -/
theorem instance_cases (h : w.instance? e = .ok (some inst)) : w.Holds inst ∧ inst.epoch = e := by
  unfold instance? at h
  simp only [pure, Except.pure] at h
  obtain ⟨i, -, h⟩ := bind_eq_ok.mp h
  obtain ⟨hi, hepoch⟩ := Option.filter_eq_some_iff.mp (Except.ok.inj h)
  exact ⟨⟨i, hi⟩, by simpa using hepoch⟩

/-- What is known of the instance of an epoch is known of one that is held. -/
theorem exists_of_instance {β : Type} {f : Instance → β} {b : β}
    (h : (w.instance? e).toOption.join.map f = some b) :
    ∃ x, w.Holds x ∧ x.epoch = e ∧ f x = b := by
  obtain ⟨x, hx, hb⟩ := Option.map_eq_some_iff.mp h
  cases hfound : w.instance? e with
  | error fault => simp [hfound, Except.toOption] at hx
  | ok found =>
    obtain rfl : found = some x := by simpa [hfound, Except.toOption] using hx
    obtain ⟨hheld, hepoch⟩ := instance_cases hfound
    exact ⟨x, hheld, hepoch, hb⟩

/-- A later or a live occupant keeps its slot from an epoch.  Otherwise the occupant answers for
the epoch if it is of the epoch, and a new instance does if it is not. -/
theorem claim_cases {claimed : Option Instance} (h : w.claim? e = .ok claimed) :
    ∃ i, w.index e = .ok i ∧
      ((claimed = none ∧ ∃ x, w.slots.get i = some x ∧ x.epoch ≠ e ∧
          (e < x.epoch ∨ w.isLive x.epoch = true)) ∨
        (∃ x, claimed = some x ∧ w.slots.get i = some x ∧ x.epoch = e) ∨
        claimed = some (w.factory.create e) ∧ ∀ x, w.slots.get i = some x →
          x.epoch < e ∧ w.isLive x.epoch = false) := by
  unfold claim? at h
  simp only [pure, Except.pure] at h
  obtain ⟨i, hi, h⟩ := bind_eq_ok.mp h
  refine ⟨i, hi, ?_⟩
  cases hslot : w.slots.get i with
  | none =>
    simp only [hslot] at h
    cases h
    refine .inr (.inr ⟨rfl, fun x hx => ?_⟩)
    cases hx
  | some occupant =>
    simp only [hslot] at h
    by_cases hown : occupant.epoch = e
    · rw [if_pos hown] at h
      cases h
      exact .inr (.inl ⟨occupant, rfl, rfl, hown⟩)
    · rw [if_neg hown] at h
      split at h
      · rename_i htaken
        cases h
        exact .inl ⟨rfl, occupant, rfl, hown, by simpa using htaken⟩
      · rename_i hfree
        cases h
        rw [Bool.or_eq_true, decide_eq_true_eq, not_or, UInt64.not_lt] at hfree
        refine .inr (.inr ⟨rfl, fun x hx => ?_⟩)
        obtain rfl := Option.some.inj hx
        exact ⟨UInt64.lt_of_le_of_ne hfree.1 hown, Bool.eq_false_iff.mpr hfree.2⟩

/-- Messages of an epoch go to its instance, or to a new one. -/
theorem source_of_claim (h : w.claim? e = .ok (some inst)) :
    inst.epoch = e ∧ (w.Holds inst ∨ inst = w.factory.create e) := by
  obtain ⟨i, -, ⟨hnone, -⟩ | ⟨x, hx, hslot, hepoch⟩ | ⟨hcreated, -⟩⟩ := claim_cases h
  · cases hnone
  · cases hx
    exact ⟨hepoch, .inl ⟨i, hslot⟩⟩
  · cases hcreated
    exact ⟨w.factory.epoch_create e, .inr rfl⟩

/-- Messages of an epoch go to its instance where there is one. -/
theorem claim_of_holds (hw : w.Placed) (hx : w.Holds x) : w.claim? x.epoch = .ok (some x) := by
  obtain ⟨i, hi⟩ := hx
  unfold claim?
  simp [index_of_holds hw hi, hi, bind, Except.bind, pure, Except.pure]

/-- Messages of an epoch that has lost its slot to a later one are dropped. -/
theorem claim_of_later (hw : w.Placed) (hx : w.Holds x) (later : e < x.epoch)
    (slot : x.epoch.toNat % w.capacity = e.toNat % w.capacity) : w.claim? e = .ok none := by
  obtain ⟨i, hi⟩ := hx
  have hindex : w.index e = .ok i := by
    have hown := index_of_holds hw hi
    unfold index at hown ⊢
    simpa only [slot] using hown
  have hother : x.epoch ≠ e := fun heq => UInt64.lt_irrefl _ (heq ▸ later)
  unfold claim?
  simp [hindex, hi, hother, later, bind, Except.bind, pure, Except.pure]

/-- What `inst` has to be, to answer for an epoch: it is the instance of the epoch if there is one,
and to put it in its slot takes that from no live instance of another epoch. -/
structure Serves (w : Window) (e : Epoch) (inst : Instance) : Prop where
  epoch : inst.epoch = e
  source : w.Holds inst ∨ inst = w.factory.create e
  own : ∀ x, w.Holds x → x.epoch = e → inst = x
  slot : ∀ x, w.isLive x.epoch = true → x.epoch ≠ e → ∀ i, w.index e = .ok i →
    w.slots.get i ≠ some x

theorem serves_of_instance (hw : w.Placed) (h : w.instance? e = .ok (some inst)) :
    w.Serves e inst := by
  obtain ⟨hheld, hepoch⟩ := instance_cases h
  refine ⟨hepoch, .inl hheld, fun x hx hxe => hw.eq_of_epoch hheld hx (hepoch.trans hxe.symm), ?_⟩
  intro x _ hne i hi hslot
  unfold instance? at h
  rw [hi] at h
  obtain ⟨hinst, -⟩ := Option.filter_eq_some_iff.mp (Except.ok.inj h)
  obtain rfl : inst = x := Option.some.inj (hinst.symm.trans hslot)
  exact hne hepoch

theorem serves_of_claim (hw : w.Placed) (h : w.claim? e = .ok (some inst)) :
    w.Serves e inst := by
  obtain ⟨hepoch, hsource⟩ := source_of_claim h
  obtain ⟨i, hi, hcases⟩ := claim_cases h
  -- what is in the slot of the epoch answers for it, or gives way to it
  have hslot : ∀ x, w.slots.get i = some x → inst = x ∨ x.epoch < e ∧ w.isLive x.epoch = false := by
    intro x hx
    rcases hcases with ⟨hnone, -⟩ | ⟨y, hy, hslot, -⟩ | ⟨-, hfree⟩
    · cases hnone
    · exact .inl (Option.some.inj (hy.trans (hslot.symm.trans hx)))
    · exact .inr (hfree x hx)
  refine ⟨hepoch, hsource, ?_, ?_⟩
  · rintro x ⟨j, hj⟩ hxe
    have hindex : w.index e = .ok j := hxe ▸ index_of_holds hw hj
    obtain rfl : i = j := Except.ok.inj (hi.symm.trans hindex)
    exact (hslot x hj).resolve_right fun hfree => UInt64.ne_of_lt hfree.1 hxe
  · intro x live hne j hj hx
    obtain rfl : i = j := Except.ok.inj (hi.symm.trans hj)
    rcases hslot x hx with rfl | ⟨-, hidle⟩
    · exact hne hepoch
    · rw [live] at hidle
      cases hidle

/-- A live instance of another epoch stays in the window. -/
theorem Serves.keeps {inst' : Instance} (h : w.Serves e inst) (hx : w.Holds x)
    (live : w.isLive x.epoch = true) (other : x.epoch ≠ e) (kept : w.put inst' = .ok w')
    (epoch : inst'.epoch = e) : w'.Holds x :=
  hx.put kept fun i hi => h.slot x live other i (epoch ▸ hi)

/-! ### Starting and finishing -/

/-- The limit keeps an epoch from being started. -/
def CutsOff (w : Window) (e : Epoch) : Prop :=
  0 < w.maxEpochToStart ∧ w.maxEpochToStart ≤ e.toNat

/-- An epoch has had its turn, and the limit did not keep it from being started. -/
def Begun (w : Window) (e : Epoch) : Prop := e.toNat < upTo w.lastEpoch ∧ ¬ w.CutsOff e

theorem begun_put (h : w.put inst = .ok w') : w'.Begun e ↔ w.Begun e := by
  obtain ⟨i, -, rfl⟩ := put_eq h
  exact Iff.rfl

/-- The epochs before a begun one have begun. -/
theorem Begun.of_le {d : Epoch} (h : w.Begun e) (hle : d ≤ e) : w.Begun d := by
  rw [UInt64.le_iff_toNat_le] at hle
  obtain ⟨hturn, hlimit⟩ := h
  exact ⟨by omega, fun ⟨hpos, hcut⟩ => hlimit ⟨hpos, by omega⟩⟩

/-- The next epoch is the first one that was not started. -/
theorem toNat_nextEpoch (h : w.nextEpoch = .ok e) : e.toNat = upTo w.lastEpoch := by
  unfold nextEpoch at h
  cases hlast : w.lastEpoch with
  | none =>
    rw [hlast] at h
    cases h
    rfl
  | some last =>
    rw [hlast] at h
    exact toNat_of_successor h

theorem not_begun_next (next : w.nextEpoch = .ok e) : ¬ w.Begun e := by
  rintro ⟨hturn, -⟩
  rw [toNat_nextEpoch next] at hturn
  exact Nat.lt_irrefl _ hturn

/-- What has begun has begun when the next epoch is the last one, too. -/
theorem Begun.advance {d : Epoch} (h : w.Begun d) (next : w.nextEpoch = .ok e) :
    { w with lastEpoch := some e }.Begun d := by
  refine ⟨?_, h.2⟩
  show d.toNat < e.toNat + 1
  rw [toNat_nextEpoch next]
  exact Nat.lt_succ_of_lt h.1

/-- While there is room, the slot of the next epoch belongs to no live one. -/
theorem slot_ne_of_live {d : Epoch} (room : w.isFull = false) (next : w.nextEpoch = .ok e)
    (live : w.isLive d = true) : d.toNat % w.capacity ≠ e.toNat % w.capacity := by
  intro hsame
  obtain ⟨hundecided, hturn⟩ := Bool.and_eq_true_iff.mp live
  have hundecided : upTo w.lastDecided ≤ d.toNat := of_decide_eq_true hundecided
  have hturn : d.toNat < upTo w.lastEpoch := of_decide_eq_true hturn
  have hroom : ¬ w.capacity ≤ upTo w.lastEpoch - upTo w.lastDecided := of_decide_eq_false room
  rw [← toNat_nextEpoch next] at hturn hroom
  have hfar := Nat.sub_mod_eq_zero_of_mod_eq hsame.symm
  rw [Nat.mod_eq_of_lt (by omega)] at hfar
  omega

/-- While there is room, the start of the next epoch takes no live one out of the window. -/
theorem Holds.start (hx : w.Holds x) (hw : w.Placed) (live : w.isLive x.epoch = true)
    (room : w.isFull = false) (next : w.nextEpoch = .ok e)
    (kept : { w with lastEpoch := some e }.put inst = .ok w') (epoch : inst.epoch = e) :
    w'.Holds x := by
  have hslot := slot_ne_of_live room next live
  refine Holds.put (w := { w with lastEpoch := some e }) hx kept fun j hj hget => hslot ?_
  rw [← epoch]
  exact (hw j _ hget).symm.trans (index_eq hj)

/-- A full window has a live epoch for every slot. -/
theorem exists_live_of_full (full : w.isFull = true) (i : Fin w.capacity) :
    ∃ e, w.isLive e = true ∧ e.toNat % w.capacity = i.val := by
  have hfull : w.capacity ≤ upTo w.lastEpoch - upTo w.lastDecided := of_decide_eq_true full
  have hpos : 0 < w.capacity := Nat.zero_lt_of_lt i.isLt
  -- the first number from the first undecided epoch on that has the remainder
  obtain ⟨n, hle, hlt, hmod⟩ : ∃ n, upTo w.lastDecided ≤ n ∧
      n < upTo w.lastDecided + w.capacity ∧ n % w.capacity = i.val := by
    have hdiv := Nat.div_add_mod (upTo w.lastDecided) w.capacity
    have hrem := Nat.mod_lt (upTo w.lastDecided) hpos
    have hi := i.isLt
    by_cases hbelow : upTo w.lastDecided % w.capacity ≤ i.val
    · refine ⟨w.capacity * (upTo w.lastDecided / w.capacity) + i.val, by omega, by omega, ?_⟩
      rw [Nat.mul_add_mod, Nat.mod_eq_of_lt hi]
    · refine ⟨w.capacity * (upTo w.lastDecided / w.capacity + 1) + i.val, ?_, ?_, ?_⟩
      · rw [Nat.mul_succ]
        omega
      · rw [Nat.mul_succ]
        omega
      · rw [Nat.mul_add_mod, Nat.mod_eq_of_lt hi]
  have hsize : upTo w.lastEpoch ≤ UInt64.size := by
    cases w.lastEpoch with
    | none => exact Nat.zero_le _
    | some e => exact e.toNat_lt
  have hepoch : (UInt64.ofNat n).toNat = n := UInt64.toNat_ofNat_of_lt' (by omega)
  refine ⟨UInt64.ofNat n, Bool.and_eq_true_iff.mpr ⟨?_, ?_⟩, by rw [hepoch, hmod]⟩
  · exact decide_eq_true (by rw [hepoch]; exact hle)
  · exact decide_eq_true (by rw [hepoch]; omega)

/-- What starting the next epoch comes to: nothing in a full window, nothing but its turn at the
limit, and otherwise the start of its instance. -/
theorem startNext_cases {σ : Type} {p : Host σ} {valid locked : Option Certificate}
    {c c' : Context σ} {started : Bool}
    (h : w.startNext p valid locked c = .ok (w', c', started)) :
    (w.isFull = true ∧ w' = w ∧ c' = c ∧ started = false) ∨
      w.isFull = false ∧ ∃ e, w.nextEpoch = .ok e ∧
        ((w.CutsOff e ∧ w' = { w with lastEpoch := some e } ∧ c' = c ∧ started = false) ∨
          ¬ w.CutsOff e ∧ started = true ∧ ∃ inst inst',
            (w.instance? e = .ok (some inst) ∨ inst = w.factory.create e) ∧
            inst.start p valid locked c = .ok (inst', c') ∧
            { w with lastEpoch := some e }.put inst' = .ok w') := by
  unfold startNext at h
  simp only [pure, Except.pure] at h
  split at h
  · rename_i full
    cases h
    exact .inl ⟨full, rfl, rfl, rfl⟩
  rename_i room
  obtain ⟨e, next, h⟩ := bind_eq_ok.mp h
  refine .inr ⟨Bool.eq_false_iff.mpr room, e, next, ?_⟩
  split at h
  · rename_i hlimit
    cases h
    exact .inl ⟨by simpa [CutsOff] using hlimit, rfl, rfl, rfl⟩
  · rename_i hlimit
    obtain ⟨found, hfound, h⟩ := bind_eq_ok.mp h
    obtain ⟨⟨inst', d⟩, done, h⟩ := bind_eq_ok.mp h
    obtain ⟨u, kept, h⟩ := bind_eq_ok.mp h
    cases h
    refine .inr ⟨by simpa [CutsOff] using hlimit, rfl, found.getD (w.factory.create e), inst', ?_,
      done, kept⟩
    -- the epoch may have kept messages before its start, and is new otherwise
    cases found with
    | none => exact .inr rfl
    | some inst => exact .inl hfound

/-- What has begun once the next epoch is the last one: what had before, and the next one unless the
limit keeps it from being started. -/
theorem begun_advance_iff {d : Epoch} (next : w.nextEpoch = .ok e) :
    { w with lastEpoch := some e }.Begun d ↔ w.Begun d ∨ d = e ∧ ¬ w.CutsOff e := by
  constructor
  · rintro ⟨hturn, hlimit⟩
    have hturn : d.toNat < e.toNat + 1 := hturn
    by_cases hsame : d = e
    · exact .inr ⟨hsame, hsame ▸ hlimit⟩
    · refine .inl ⟨?_, hlimit⟩
      rw [← toNat_nextEpoch next]
      exact Nat.lt_of_le_of_ne (Nat.le_of_lt_succ hturn) fun heq => hsame (UInt64.toNat_inj.mp heq)
  · rintro (hbegun | ⟨rfl, hlimit⟩)
    · exact hbegun.advance next
    · exact ⟨Nat.lt_succ_self _, hlimit⟩

/-- What becomes of an instance when an epoch is decided. -/
def close (w : Window) (e : Epoch) (inst : Instance) : Instance :=
  if w.isUndecided inst.epoch && inst.epoch ≤ e then inst.stop else inst

@[simp] theorem epoch_close : (w.close e inst).epoch = inst.epoch := by
  unfold close
  split <;> simp

/-- A decision leaves later epochs as they are. -/
theorem close_of_lt (h : e < inst.epoch) : w.close e inst = inst := by
  have hnot : ¬ inst.epoch ≤ e := UInt64.not_le.mpr h
  unfold close
  rw [if_neg (by simp [hnot])]

/-- A new decision is on an undecided epoch, and closes the instances up to it. -/
theorem finishEpoch_eq (h : w.finishEpoch e = .ok (w', true)) :
    w.isUndecided e = true ∧
      w' = { w with slots := w.slots.map (Option.map (w.close e)), lastDecided := some e } := by
  unfold finishEpoch at h
  simp only [pure, Except.pure] at h
  split at h
  · cases h
  · rename_i hnew
    obtain ⟨i, -, h⟩ := bind_eq_ok.mp h
    cases h
    exact ⟨by simpa using hnew, rfl⟩

/-- A decision that is not new is covered by an earlier one, and changes nothing. -/
theorem finishEpoch_covered (h : w.finishEpoch e = .ok (w', false)) :
    w.isUndecided e = false ∧ w' = w := by
  unfold finishEpoch at h
  simp only [pure, Except.pure] at h
  split at h
  · rename_i hcovered
    cases h
    exact ⟨by simpa using hcovered, rfl⟩
  · obtain ⟨i, -, h⟩ := bind_eq_ok.mp h
    cases h

theorem get_map_close (w : Window) (e : Epoch) (i : Fin w.capacity) :
    (w.slots.map (Option.map (w.close e))).get i = (w.slots.get i).map (w.close e) :=
  Vector.getElem_map ..

theorem holds_finishEpoch (h : w.finishEpoch e = .ok (w', true)) (hx : w'.Holds x) :
    ∃ y, w.Holds y ∧ x = w.close e y := by
  obtain ⟨-, rfl⟩ := finishEpoch_eq h
  obtain ⟨i, hi⟩ := hx
  have hget := w.get_map_close e i
  obtain ⟨y, hy, rfl⟩ := Option.map_eq_some_iff.mp (hget.symm.trans hi)
  exact ⟨y, ⟨i, hy⟩, rfl⟩

theorem Placed.finishEpoch (hw : w.Placed) (h : w.finishEpoch e = .ok (w', true)) : w'.Placed := by
  obtain ⟨-, rfl⟩ := finishEpoch_eq h
  intro i x hi
  have hget := w.get_map_close e i
  obtain ⟨y, hy, rfl⟩ := Option.map_eq_some_iff.mp (hget.symm.trans hi)
  rw [epoch_close]
  exact hw i y hy

theorem Holds.finishEpoch (hx : w.Holds x) (h : w.finishEpoch e = .ok (w', true)) :
    w'.Holds (w.close e x) := by
  obtain ⟨-, rfl⟩ := finishEpoch_eq h
  obtain ⟨i, hi⟩ := hx
  exact ⟨i, (w.get_map_close e i).trans (by rw [hi]; rfl)⟩

/-- What is undecided after a decision is later, and was undecided before. -/
theorem later_of_finishEpoch (h : w.finishEpoch e = .ok (w', true)) {d : Epoch}
    (undecided : w'.isUndecided d = true) : e < d ∧ w.isUndecided d = true := by
  obtain ⟨hundecided, rfl⟩ := finishEpoch_eq h
  have hlt : e.toNat < d.toNat := of_decide_eq_true undecided
  have hle : upTo w.lastDecided ≤ e.toNat := of_decide_eq_true hundecided
  exact ⟨UInt64.lt_iff_toNat_lt.mpr hlt, decide_eq_true (by omega)⟩

/-- A decision leaves later instances where they are. -/
theorem holds_later (h : w.finishEpoch e = .ok (w', true)) (hlt : e < x.epoch) :
    w'.Holds x ↔ w.Holds x := by
  constructor
  · intro hx
    obtain ⟨y, hy, rfl⟩ := holds_finishEpoch h hx
    rw [epoch_close] at hlt
    rwa [close_of_lt hlt]
  · intro hx
    have hstays := hx.finishEpoch h
    rwa [close_of_lt hlt] at hstays

/-! ### What becomes of one epoch -/

/-- An epoch that has begun is in its slot as `m`, or closed since, or has lost the slot to a later
one. -/
structure Recalls (w : Window) (m : Machine) : Prop where
  placed : w.Placed
  begun : w.Begun m.epoch
  seat : ∃ x, w.Holds x ∧ (x = .consensus m ∨ x = .consensus m.stop ∨
    m.epoch < x.epoch ∧ x.epoch.toNat % w.capacity = m.epoch.toNat % w.capacity)

namespace Recalls

variable {m : Machine}

/-- It is where it has just been put. -/
theorem of_put (hw : w.Placed) (begun : w.Begun m.epoch) (kept : w.put (.consensus m) = .ok w') :
    w'.Recalls m :=
  ⟨hw.put kept, (begun_put kept).mpr begun, .consensus m, holds_put_self kept, .inl rfl⟩

/-- A message of the epoch goes to it or nowhere. -/
theorem claim (h : w.Recalls m) : w.claim? m.epoch = .ok none ∨
    ∃ m', w.claim? m.epoch = .ok (some (.consensus m')) ∧ w.Holds (.consensus m') ∧
      (m' = m ∨ m' = m.stop) := by
  obtain ⟨x, hx, rfl | rfl | ⟨later, slot⟩⟩ := h.seat
  · exact .inr ⟨m, claim_of_holds h.placed hx, hx, .inl rfl⟩
  · exact .inr ⟨m.stop, claim_of_holds h.placed hx, hx, .inr rfl⟩
  · exact .inl (claim_of_later h.placed hx later slot)

theorem advance (h : w.Recalls m) (next : w.nextEpoch = .ok e) :
    { w with lastEpoch := some e }.Recalls m := ⟨h.placed, h.begun.advance next, h.seat⟩

/-- A later epoch takes its slot or another one. -/
theorem put (h : w.Recalls m) (kept : w.put inst = .ok w') (later : m.epoch < inst.epoch) :
    w'.Recalls m := by
  have hcapacity := capacity_put kept
  refine ⟨h.placed.put kept, (begun_put kept).mpr h.begun, ?_⟩
  obtain ⟨x, hx, hstands⟩ := h.seat
  have hslot : x.epoch.toNat % w.capacity = m.epoch.toNat % w.capacity := by
    rcases hstands with rfl | rfl | ⟨-, slot⟩
    · rfl
    · rfl
    · exact slot
  by_cases hsame : inst.epoch.toNat % w.capacity = m.epoch.toNat % w.capacity
  · exact ⟨inst, holds_put_self kept, .inr (.inr ⟨later, hcapacity ▸ hsame⟩)⟩
  · refine ⟨x, hx.put kept fun i hi hget => hsame ?_, hcapacity ▸ hstands⟩
    rw [← index_eq hi, h.placed i x hget, hslot]

theorem finishEpoch (h : w.Recalls m) (new : w.finishEpoch e = .ok (w', true)) : w'.Recalls m := by
  have hw := (finishEpoch_eq new).2
  obtain ⟨x, hx, hstands⟩ := h.seat
  refine ⟨h.placed.finishEpoch new, hw ▸ h.begun, w.close e x, hx.finishEpoch new, ?_⟩
  rcases hstands with rfl | rfl | ⟨later, slot⟩
  · unfold close
    split
    · exact .inr (.inl rfl)
    · exact .inl rfl
  · unfold close
    split <;> exact .inr (.inl rfl)
  · refine .inr (.inr ?_)
    rw [epoch_close, hw]
    exact ⟨later, slot⟩

end Recalls

/-! ### Instances that wait -/

/-- How many instances there are of some kind. -/
def count (w : Window) (q : Instance → Bool) : Nat := w.slots.countP fun s => s.any q

/-- An instance of another kind never leaves more of them, and fewer if the slot held one. -/
theorem count_put {q : Instance → Bool} (h : w.put inst = .ok w') (other : q inst = false) :
    w'.count q ≤ w.count q ∧
      (w.Placed → w.Holds x → x.epoch = inst.epoch → q x = true → w'.count q < w.count q) := by
  obtain ⟨i, hi, rfl⟩ := put_eq h
  have hcount : (w.slots.set i.val (some inst) i.isLt).countP (fun s => s.any q) =
      w.count q - (if (w.slots.get i).any q then 1 else 0) := by
    have hnew : (some inst).any q = false := other
    rw [Vector.countP_set, hnew]
    rfl
  constructor
  · show Vector.countP _ _ ≤ _
    rw [hcount]
    exact Nat.sub_le _ _
  · intro hw hx hepoch hq
    show Vector.countP _ _ < _
    obtain ⟨j, hj⟩ := hx
    obtain rfl : j = i := Fin.ext ((hw j x hj).trans (hepoch ▸ hi.symm))
    have hpos : 0 < w.count q := Vector.countP_pos_iff.mpr ⟨_, Vector.getElem_mem j.isLt, by
      show (w.slots.get j).any _ = true
      simp [hj, hq]⟩
    rw [hcount, hj, if_pos (by simp [hq])]
    exact Nat.sub_lt hpos Nat.one_pos

/-- A decision leaves no more of a kind that no instance joins by being stopped. -/
theorem count_finishEpoch {q : Instance → Bool} (h : w.finishEpoch e = .ok (w', true))
    (stop : ∀ x, q x.stop = true → q x = true) : w'.count q ≤ w.count q := by
  obtain ⟨-, rfl⟩ := finishEpoch_eq h
  show Vector.countP _ _ ≤ _
  rw [Vector.countP_map]
  refine Vector.countP_mono_left fun s _ hs => ?_
  cases s with
  | none => exact hs
  | some inst =>
    simp only [Function.comp, Option.map_some, Option.any_some] at hs ⊢
    unfold close at hs
    split at hs
    · exact stop inst hs
    · exact hs

/-- How many instances have not started. -/
def idle (w : Window) : Nat := w.slots.countP fun s => s.any fun i => !i.started

theorem idle_le (w : Window) : w.idle ≤ w.capacity := Vector.countP_le_size

/-- Putting a started instance never leaves more that have not started, and fewer if the slot held
one of them. -/
theorem idle_put (h : w.put inst = .ok w') (started : inst.started = true) :
    w'.idle ≤ w.idle ∧
      (w.Placed → w.Holds x → x.epoch = inst.epoch → x.started = false → w'.idle < w.idle) := by
  obtain ⟨hle, hlt⟩ := count_put (x := x) (q := fun i => !i.started) h (by simp [started])
  exact ⟨hle, fun hw hx hepoch hidle => hlt hw hx hepoch (by simp [hidle])⟩

/-- A decision starts nothing, but stops some that have not started. -/
theorem idle_finishEpoch (h : w.finishEpoch e = .ok (w', true)) : w'.idle ≤ w.idle := by
  refine count_finishEpoch h fun x hx => ?_
  simp only [Bool.not_eq_true'] at hx ⊢
  exact Instance.started_of_stop hx

end Window

end EpochConsensus
