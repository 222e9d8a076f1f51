import EpochConsensus.Proofs.Chain
import Mathlib.Data.List.Nodup

/-! # What a store holds

Slots are reused modulo `size` and links are set in two places, so what the store answers is clear
only from an invariant over every order of arrival.  A store is `Neat` when each slot holds the
candidates of one height of the window, without repetition, and `Joined` when a candidate is linked
as soon as its predecessor is held.  Every use keeps both (`Use.tidy`).

In such a store a height has at most one slot, so that the store is the set of its blocks: adding
puts in one block (`stores_add`) and a commit drops what is not above it (`candidates_commit`).  A
walk goes down exactly where the named predecessors are stored (`descend_eq_iff`).  `uses_refines`
puts this together.
-/
namespace EpochConsensus

namespace Chain

/-! ### The invariant -/

/-- What a slot of the store may hold. -/
structure Fits (c : Chain) (i : Fin c.size) (s : Slot) : Prop where
  placed : c.index s.height = i
  window : c.inWindow s.height = true
  level : ∀ e ∈ s.candidates, e.block.height = s.height
  distinct : (s.candidates.map (·.block.id)).Nodup

/-- Every slot holds candidates of one height of the window, which belongs into this slot. -/
def Neat (c : Chain) : Prop := ∀ i s, c.slots.get i = some s → c.Fits i s

/-- A candidate is linked if its predecessor is held. -/
def Joined (c : Chain) : Prop :=
  ∀ height, ∀ e ∈ c.candidates height, ∀ key, e.block.parentKey = some key →
    c.holds key = true → e.linked = true

/-- A block may be added: it is new, in the window, and does not contradict the anchor. -/
structure Admits (c : Chain) (b : Block) : Prop where
  fresh : c.anchorKey ≠ some b.key ∧ ∀ x, c.Stores x → x.key ≠ b.key
  window : c.inWindow b.height = true
  follows : ∀ a, c.anchor = some a → b.height.toNat = a.height.toNat + 1 → b.parent = some a.id

section Window

variable {c : Chain} {height k : Height}

/-- Heights of the window are as far apart as there are slots, at most. -/
theorem inWindow_iff : c.inWindow height = true ↔
    match c.anchor with
    | some a => a.height.toNat < height.toNat ∧ height.toNat < a.height.toNat + c.size
    | none => height.toNat < c.size := by
  unfold inWindow
  cases c.anchor with
  | none => simp
  | some a =>
    simp only [Bool.and_eq_true, decide_eq_true_eq, UInt64.lt_iff_toNat_lt]
    omega

/-- No two heights of the window share a slot. -/
theorem eq_of_index_eq (hheight : c.inWindow height = true) (hk : c.inWindow k = true)
    (h : c.index k = c.index height) : k = height := by
  rw [inWindow_iff] at hheight hk
  have hmod : k.toNat % c.size = height.toNat % c.size := Fin.mk.inj h
  have hnear : k.toNat < height.toNat + c.size ∧ height.toNat < k.toNat + c.size := by
    cases hanchor : c.anchor with
    | none =>
      simp only [hanchor] at hheight hk
      omega
    | some a =>
      simp only [hanchor] at hheight hk
      omega
  refine UInt64.toNat_inj.mp ?_
  rcases Nat.le_total k.toNat height.toNat with hle | hle
  · have hzero := Nat.sub_mod_eq_zero_of_mod_eq hmod.symm
    rw [Nat.mod_eq_of_lt (by omega)] at hzero
    omega
  · have hzero := Nat.sub_mod_eq_zero_of_mod_eq hmod
    rw [Nat.mod_eq_of_lt (by omega)] at hzero
    omega

end Window

namespace Neat

variable {c : Chain}

/-- What is stored at a height is what its slot holds. -/
theorem slot_of_mem (height : Height) {e : Candidate} (he : e ∈ c.candidates height) :
    ∃ s, c.slots.get (c.index height) = some s ∧ s.height = height ∧
      c.candidates height = s.candidates := by
  rw [candidates_of_slot rfl] at he ⊢
  cases hs : c.slots.get (c.index height) with
  | none => simp [hs] at he
  | some s =>
    by_cases heq : s.height = height
    · exact ⟨s, rfl, heq, by simp [heq]⟩
    · simp [hs, heq] at he

theorem window_of_mem (hc : c.Neat) {height : Height} {e : Candidate}
    (he : e ∈ c.candidates height) : c.inWindow height = true := by
  obtain ⟨s, hs, rfl, -⟩ := slot_of_mem height he
  exact (hc _ s hs).window

theorem levelled (hc : c.Neat) : c.Levelled := by
  intro height e he
  obtain ⟨s, hs, rfl, hcandidates⟩ := slot_of_mem height he
  exact (hc _ s hs).level e (hcandidates ▸ he)

theorem distinct (hc : c.Neat) (height : Height) :
    ((c.candidates height).map (·.block.id)).Nodup := by
  cases hlist : c.candidates height with
  | nil => exact List.nodup_nil
  | cons e es =>
    obtain ⟨s, hs, -, hcandidates⟩ := slot_of_mem (c := c) height (e := e) (by simp [hlist])
    rw [← hlist, hcandidates]
    exact (hc _ s hs).distinct

/-- A block that is stored is found by its key, and nothing else is. -/
theorem find?_eq_some_iff (hc : c.Neat) {height : Height} {id : BlockId} {e : Candidate} :
    c.find? (height, id) = some e ↔ e ∈ c.candidates height ∧ e.block.id = id := by
  constructor
  · intro h
    exact ⟨List.mem_of_find?_eq_some h, (hc.levelled.find? h).2.2⟩
  · rintro ⟨he, rfl⟩
    cases hfind : c.find? (height, e.block.id) with
    | none =>
      have hnone := List.find?_eq_none.mp hfind e he
      simp at hnone
    | some d =>
      have hd : d ∈ c.candidates height := List.mem_of_find?_eq_some hfind
      have hid : d.block.id = e.block.id := (hc.levelled.find? hfind).2.2
      rw [List.inj_on_of_nodup_map (hc.distinct height) hd he hid]

theorem stores_iff (hc : c.Neat) {b : Block} :
    c.Stores b ↔ ∃ e, c.find? b.key = some e ∧ e.block = b := by
  constructor
  · rintro ⟨e, he, rfl⟩
    exact ⟨e, hc.find?_eq_some_iff.mpr ⟨he, rfl⟩, rfl⟩
  · rintro ⟨e, he, rfl⟩
    exact ⟨e, (hc.find?_eq_some_iff.mp he).1, rfl⟩

/-- The store holds the keys of its blocks, and the anchor's. -/
theorem holds_iff (hc : c.Neat) {key : BlockKey} :
    c.holds key = true ↔ c.anchorKey = some key ∨ ∃ x, c.Stores x ∧ x.key = key := by
  simp only [holds, Bool.or_eq_true, beq_iff_eq, Option.isSome_iff_exists]
  refine or_congr_right ⟨?_, ?_⟩
  · rintro ⟨e, he⟩
    obtain ⟨hstored, hheight, hid⟩ := hc.levelled.find? he
    exact ⟨e.block, hstored, Prod.ext hheight hid⟩
  · rintro ⟨x, hx, rfl⟩
    obtain ⟨e, he, -⟩ := hc.stores_iff.mp hx
    exact ⟨e, he⟩

/-! ### Writing slots -/

theorem setCandidates (hc : c.Neat) {height : Height} {es : List Candidate}
    (window : c.inWindow height = true) (level : ∀ e ∈ es, e.block.height = height)
    (distinct : (es.map (·.block.id)).Nodup) : (c.setCandidates height es).Neat := by
  intro (i : Fin c.size) s hs
  have hget : ∀ i : Fin c.size, (c.setCandidates height es).slots.get i =
      if i = c.index height then some ⟨height, es⟩ else c.slots.get i := fun i => get_set ..
  replace hs := (hget i).symm.trans hs
  by_cases h : i = c.index height
  · rw [if_pos h] at hs
    obtain rfl := Option.some.inj hs
    exact ⟨h.symm, window, level, distinct⟩
  · rw [if_neg h] at hs
    obtain ⟨hplaced, hwindow, hlevel, hdistinct⟩ := hc i s hs
    exact ⟨hplaced, hwindow, hlevel, hdistinct⟩

/-- In a neat store a height of the window has its slot to itself. -/
theorem candidates_setCandidates (hc : c.Neat) {height : Height} (es : List Candidate)
    (window : c.inWindow height = true) (k : Height) :
    (c.setCandidates height es).candidates k = if k = height then es else c.candidates k := by
  rw [Chain.candidates_setCandidates]
  by_cases hk : k = height
  · rw [if_pos hk, if_pos (by rw [hk]), if_pos hk.symm]
  rw [if_neg hk, if_neg (Ne.symm hk)]
  by_cases hindex : c.index k = c.index height
  · rw [if_pos hindex]
    symm
    refine List.eq_nil_iff_forall_not_mem.mpr ?_
    intro e he
    exact hk (eq_of_index_eq window (hc.window_of_mem he) hindex)
  · rw [if_neg hindex]

end Neat

/-! ### Adding -/

/-- Above the anchor a block conflicts if it names another predecessor. -/
theorem conflicts_eq {c : Chain} {b : Block} (window : c.inWindow b.height = true)
    (fresh : c.anchorKey ≠ some b.key) : ∃ conflict, c.conflicts b = .ok conflict ∧
      (conflict = false ↔
        ∀ a, c.anchor = some a → b.height.toNat = a.height.toNat + 1 → b.parent = some a.id) := by
  rw [inWindow_iff] at window
  cases hanchor : c.anchor with
  | none => exact ⟨false, by simp [conflicts, hanchor], by simp⟩
  | some a =>
    simp only [hanchor] at window
    -- the window lies above the anchor, which therefore has a next height
    have hlow : b.height.toNat < UInt64.size := b.height.toNat_lt
    obtain ⟨next, hsucc, hnext⟩ := exists_successor (n := a.height) (by omega)
    by_cases heq : b.height = next
    · refine ⟨!(b.parent == some a.id), ?_, ?_⟩
      · have hkey : b.key ≠ a.key := fun h => fresh (by rw [anchorKey, hanchor, h]; rfl)
        simp [conflicts, hanchor, hsucc, heq, Block.follows, bind, Except.bind, pure,
          Except.pure, hkey]
      · have htoNat : b.height.toNat = a.height.toNat + 1 := by rw [heq, hnext]
        simp [htoNat]
    · refine ⟨false, ?_, ?_⟩
      · simp [conflicts, hanchor, hsucc, heq, bind, Except.bind, pure, Except.pure]
      · have htoNat : b.height.toNat ≠ a.height.toNat + 1 := by
          intro h
          exact heq (UInt64.toNat_inj.mp (h.trans hnext.symm))
        simp [htoNat]

/-- What the arrival of `b` makes of a candidate at height `k`: it is linked if it names `b`. -/
def linkTo (b : Block) (k : Height) (e : Candidate) : Candidate :=
  if k.toNat = b.height.toNat + 1 ∧ e.block.parent = some b.id then { e with linked := true } else e

@[simp] theorem linkTo_block (b : Block) (k : Height) (e : Candidate) :
    (linkTo b k e).block = e.block := by
  unfold linkTo
  split <;> rfl

theorem map_linkTo (b : Block) {k : Height} (h : k.toNat ≠ b.height.toNat + 1)
    (es : List Candidate) : es.map (linkTo b k) = es := by
  have hid : linkTo b k = id := by
    funext e
    simp [linkTo, h]
  rw [hid, List.map_id]

/-- Whether a key is held depends on the anchor and on the candidates. -/
theorem holds_congr {c d : Chain} (anchor : d.anchor = c.anchor)
    (same : ∀ k, d.candidates k = c.candidates k) : d.holds = c.holds := by
  funext key
  simp [holds, anchorKey, find?, anchor, same]

namespace Neat

variable {c : Chain}

/-- Linking leaves the store neat and the blocks where they are. -/
theorem linkSuccessors (hc : c.Neat) {b : Block} (low : b.height.toNat + 1 < UInt64.size) :
    ∃ c', c.linkSuccessors b = .ok c' ∧ c'.Neat ∧ c'.size = c.size ∧ c'.anchor = c.anchor ∧
      ∀ k, c'.candidates k = (c.candidates k).map (linkTo b k) := by
  obtain ⟨next, hsucc, hnext⟩ := exists_successor low
  have hother : ∀ k, k ≠ next → k.toNat ≠ b.height.toNat + 1 := by
    intro k hk h
    exact hk (UInt64.toNat_inj.mp (h.trans hnext.symm))
  cases habove : c.candidates next with
  | nil =>
    refine ⟨c, by simp [Chain.linkSuccessors, hsucc, habove, bind, Except.bind, pure, Except.pure],
      hc, rfl, rfl, ?_⟩
    intro k
    by_cases hk : k = next
    · rw [hk, habove, List.map_nil]
    · rw [map_linkTo b (hother k hk)]
  | cons e es =>
    have hwindow : c.inWindow next = true := hc.window_of_mem (e := e) (by simp [habove])
    have hlink : (fun e : Candidate => if e.block.parent = some b.id then { e with linked := true }
        else e) = linkTo b next := by
      funext e
      simp [linkTo, hnext]
    refine ⟨c.setCandidates next ((c.candidates next).map (linkTo b next)), ?_, ?_, rfl, rfl, ?_⟩
    · simp [Chain.linkSuccessors, hsucc, habove, ← hlink, bind, Except.bind, pure, Except.pure]
    · refine hc.setCandidates hwindow ?_ ?_
      · intro d hd
        obtain ⟨d, hmem, rfl⟩ := List.mem_map.mp hd
        rw [linkTo_block]
        exact hc.levelled next d hmem
      · have hids : (Candidate.block · |>.id) ∘ linkTo b next = fun d => d.block.id := by
          funext d
          simp
        rw [List.map_map, hids]
        exact hc.distinct next
    · intro k
      rw [hc.candidates_setCandidates _ hwindow]
      by_cases hk : k = next
      · rw [if_pos hk, hk]
      · rw [if_neg hk, map_linkTo b (hother k hk)]

theorem not_holds (hc : c.Neat) {b : Block} (hb : c.Admits b) : c.holds b.key = false := by
  rw [Bool.eq_false_iff, Ne, hc.holds_iff]
  rintro (hanchor | ⟨x, hx, hkey⟩)
  · exact hb.fresh.1 hanchor
  · exact hb.fresh.2 x hx hkey

/-- An admitted block comes last at its height, linked if its predecessor is held, and links the
blocks above that name it. -/
theorem add_admitted (hc : c.Neat) {b : Block} (hb : c.Admits b)
    (low : b.height.toNat + 1 < UInt64.size) :
    ∃ c', c.add b = .ok (c', true) ∧ c'.Neat ∧ c'.size = c.size ∧ c'.anchor = c.anchor ∧
      ∀ k, c'.candidates k =
        (if k = b.height then c.candidates k ++ [⟨b, b.parentKey.any c.holds⟩]
          else c.candidates k).map (linkTo b k) := by
  have hfresh := hc.not_holds hb
  obtain ⟨conflict, hconflict, hfollows⟩ := conflicts_eq hb.window hb.fresh.1
  obtain rfl : conflict = false := hfollows.mpr hb.follows
  -- claiming the slot writes back what is there
  have hclaimed := hc.setCandidates hb.window (hc.levelled b.height) (hc.distinct b.height)
  have hsame : ∀ k, (c.setCandidates b.height (c.candidates b.height)).candidates k =
      c.candidates k := by
    intro k
    rw [hc.candidates_setCandidates _ hb.window]
    by_cases hk : k = b.height
    · rw [if_pos hk, hk]
    · rw [if_neg hk]
  have hholds : (c.setCandidates b.height (c.candidates b.height)).holds = c.holds :=
    holds_congr rfl hsame
  have hlevel : ∀ e ∈ c.candidates b.height ++ [⟨b, b.parentKey.any c.holds⟩],
      e.block.height = b.height := by
    intro e he
    rcases List.mem_append.mp he with hold | hnew
    · exact hc.levelled b.height e hold
    · obtain rfl : e = _ := List.mem_singleton.mp hnew
      rfl
  have hdistinct : ((c.candidates b.height ++ [(⟨b, b.parentKey.any c.holds⟩ : Candidate)]).map
      fun e => e.block.id).Nodup := by
    rw [List.map_append, List.nodup_append]
    refine ⟨hc.distinct b.height, List.nodup_singleton _, ?_⟩
    intro id hid id' hid' heq
    obtain ⟨e, he, rfl⟩ := List.mem_map.mp hid
    obtain rfl : id' = b.id := List.mem_singleton.mp hid'
    have hheight := hc.levelled b.height e he
    exact hb.fresh.2 e.block ⟨e, hheight ▸ he, rfl⟩ (Prod.ext hheight heq)
  have hadded := hclaimed.setCandidates hb.window hlevel hdistinct
  obtain ⟨c', hlink, hneat, hsize, hanchor, hcandidates⟩ := hadded.linkSuccessors low
  refine ⟨c', ?_, hneat, hsize, hanchor, ?_⟩
  · simp only [Chain.add, hfresh, hb.window, hconflict, hholds, hsame, bind, Except.bind,
      pure, Except.pure]
    simp [hlink]
  · intro k
    rw [hcandidates, hclaimed.candidates_setCandidates _ hb.window, hsame]
    by_cases hk : k = b.height
    · rw [if_pos hk, if_pos hk, hk]
    · rw [if_neg hk, if_neg hk]

/-- An admitted block is added only if there is a height above it. -/
theorem low_of_add (hc : c.Neat) {b : Block} (hb : c.Admits b) {c' : Chain} {added : Bool}
    (h : c.add b = .ok (c', added)) : b.height.toNat + 1 < UInt64.size := by
  obtain ⟨conflict, hconflict, hfollows⟩ := conflicts_eq hb.window hb.fresh.1
  obtain rfl : conflict = false := hfollows.mpr hb.follows
  unfold Chain.add at h
  simp only [hc.not_holds hb, hb.window, hconflict, Bool.not_true, Bool.or_false,
    Bool.false_eq_true, if_false, pure, Except.pure] at h
  obtain ⟨_, hfalse, h⟩ := bind_eq_ok.mp h
  cases hfalse
  obtain ⟨d, hlink, -⟩ := bind_eq_ok.mp h
  unfold Chain.linkSuccessors at hlink
  obtain ⟨next, hnext, -⟩ := bind_eq_ok.mp hlink
  rw [← toNat_of_successor hnext]
  exact next.toNat_lt

/-- A block that is not admitted leaves the store as it is. -/
theorem add_refused (hc : c.Neat) {b : Block} (hb : ¬ c.Admits b) :
    c.add b = .ok (c, false) := by
  by_cases hheld : c.holds b.key = true
  · simp [Chain.add, hheld, pure, Except.pure]
  by_cases hwindow : c.inWindow b.height = true
  · have hfresh : c.anchorKey ≠ some b.key ∧ ∀ x, c.Stores x → x.key ≠ b.key := by
      rw [hc.holds_iff, not_or] at hheld
      exact ⟨hheld.1, fun x hx hkey => hheld.2 ⟨x, hx, hkey⟩⟩
    obtain ⟨conflict, hconflict, hfollows⟩ := conflicts_eq hwindow hfresh.1
    have htrue : conflict = true := by
      rw [← Bool.not_eq_false]
      intro hfalse
      exact hb ⟨hfresh, hwindow, hfollows.mp hfalse⟩
    simp [Chain.add, hheld, hwindow, hconflict, htrue, bind, Except.bind, pure, Except.pure]
  · simp [Chain.add, hwindow, pure, Except.pure]

end Neat

/-- A neat store whose candidates are linked where they can be. -/
structure Tidy (c : Chain) : Prop where
  neat : c.Neat
  joined : c.Joined

/-- The predecessor's key, where a candidate names one, is one height below it. -/
theorem toNat_of_parentKey {b : Block} {key : BlockKey} (h : b.parentKey = some key) :
    b.height.toNat = key.1.toNat + 1 ∧ b.parent = some key.2 := by
  obtain ⟨p, hp, rfl⟩ := Option.map_eq_some_iff.mp h
  have hne : b.height ≠ 0 := by
    intro hzero
    rw [b.rooted.mpr hzero] at hp
    cases hp
  obtain ⟨k, hk⟩ : ∃ k, b.height.toNat = k + 1 :=
    Nat.exists_eq_succ_of_ne_zero fun hzero => hne (UInt64.toNat_inj.mp hzero)
  refine ⟨?_, hp⟩
  show b.height.toNat = (b.height - 1).toNat + 1
  rw [toNat_sub_one hk, hk]

namespace Tidy

variable {c c' : Chain} {b : Block}

/-- What adding does: an admitted block comes in beside the blocks that are there; of another one
there is no trace. -/
theorem add_cases (hc : c.Tidy) {added : Bool} (h : c.add b = .ok (c', added)) :
    (added = false ∧ ¬ c.Admits b ∧ c' = c) ∨
      (added = true ∧ c.Admits b ∧ c'.Neat ∧ c'.size = c.size ∧ c'.anchor = c.anchor ∧
        ∀ k, c'.candidates k =
          (if k = b.height then c.candidates k ++ [⟨b, b.parentKey.any c.holds⟩]
            else c.candidates k).map (linkTo b k)) := by
  by_cases hb : c.Admits b
  · obtain ⟨d, hadd, hspec⟩ := hc.neat.add_admitted hb (hc.neat.low_of_add hb h)
    rw [hadd] at h
    cases h
    exact .inr ⟨rfl, hb, hspec⟩
  · rw [hc.neat.add_refused hb] at h
    cases h
    exact .inl ⟨rfl, hb, rfl⟩

/-- A true add puts in exactly `b`. -/
theorem stores_add (hc : c.Tidy) (h : c.add b = .ok (c', true)) {x : Block} :
    c'.Stores x ↔ x = b ∨ c.Stores x := by
  rcases hc.add_cases h with ⟨hfalse, -⟩ | ⟨-, -, -, -, -, hcandidates⟩
  · cases hfalse
  have hmem : ∀ d : Chain, d.Stores x ↔ x ∈ (d.candidates x.height).map (·.block) := by
    intro d
    rw [List.mem_map]
    rfl
  have hblock : ((·.block) : Candidate → Block) ∘ linkTo b x.height = (·.block) := by
    funext e
    exact linkTo_block b x.height e
  rw [hmem, hmem, hcandidates, List.map_map, hblock]
  by_cases hheight : x.height = b.height
  · rw [if_pos hheight, List.map_append, List.mem_append, or_comm]
    simp
  · rw [if_neg hheight]
    have hne : x ≠ b := fun h => hheight (by rw [h])
    simp [hne]

/-- After a true add, `b` is held beside what was held before. -/
theorem holds_add (hc : c.Tidy) (h : c.add b = .ok (c', true)) {key : BlockKey}
    (held : c'.holds key = true) : key = b.key ∨ c.holds key = true := by
  have hstores := @hc.stores_add _ _ _ h
  rcases hc.add_cases h with ⟨hfalse, -⟩ | ⟨-, -, hneat, -, hanchor, -⟩
  · cases hfalse
  rw [hneat.holds_iff, anchorKey, hanchor] at held
  rw [hc.neat.holds_iff]
  rcases held with hkey | ⟨x, hx, rfl⟩
  · exact .inr (.inl hkey)
  · rcases hstores.mp hx with rfl | hx
    · exact .inl rfl
    · exact .inr (.inr ⟨x, hx, rfl⟩)

/-- Adding keeps the store tidy: a block is linked when it comes after its predecessor, and when
its predecessor comes after it. -/
theorem add (hc : c.Tidy) {added : Bool} (h : c.add b = .ok (c', added)) : c'.Tidy := by
  rcases hc.add_cases h with ⟨-, -, rfl⟩ | ⟨rfl, -, hneat, -, -, hcandidates⟩
  · exact hc
  refine ⟨hneat, ?_⟩
  intro height e he key hkey hheld
  obtain ⟨hup, hnames⟩ := toNat_of_parentKey hkey
  rw [hneat.levelled height e he] at hup
  rw [hcandidates] at he
  obtain ⟨d, hd, rfl⟩ := List.mem_map.mp he
  rw [linkTo_block] at hkey hnames
  by_cases hnew : height.toNat = b.height.toNat + 1 ∧ d.block.parent = some b.id
  · simp [linkTo, hnew]
  rw [linkTo, if_neg hnew]
  -- the predecessor is not the new block, so it was held before
  have hheld : c.holds key = true := by
    rcases hc.holds_add h hheld with rfl | hheld
    · exact absurd ⟨hup, hnames⟩ hnew
    · exact hheld
  by_cases hheight : height = b.height
  · rw [if_pos hheight] at hd
    rcases List.mem_append.mp hd with hold | hlast
    · exact hc.joined height d hold key hkey hheld
    · obtain rfl := List.mem_singleton.mp hlast
      simp [show b.parentKey = some key from hkey, hheld]
  · rw [if_neg hheight] at hd
    exact hc.joined height d hd key hkey hheld

end Tidy

/-! ### Walking down -/

/-- Where a walk may start, a block is held. -/
theorem Descends.holds {c : Chain} (hc : c.Neat) {n : Nat} {id : BlockId} {bs : List Block}
    (h : c.Descends n id bs) : c.holds (UInt64.ofNat n, id) = true := by
  rw [hc.holds_iff]
  cases h with
  | @anchor a ha =>
    refine .inl ?_
    rw [anchorKey, ha, UInt64.ofNat_toNat]
    rfl
  | @root b first stored height => exact .inr ⟨b, stored, by rw [Block.key, height]; rfl⟩
  | @step b n parent bs stored height names below =>
    refine .inr ⟨b, stored, ?_⟩
    rw [← height, UInt64.ofNat_toNat]
    rfl

/-- The anchor is not stored, nor is anything below it. -/
theorem Neat.anchorKey_ne {c : Chain} (hc : c.Neat) {b : Block} (stored : c.Stores b) :
    c.anchorKey ≠ some b.key := by
  intro hkey
  obtain ⟨e, he, -⟩ := stored
  have hwindow := inWindow_iff.mp (hc.window_of_mem he)
  obtain ⟨a, ha, hab⟩ := Option.map_eq_some_iff.mp hkey
  have hheight : a.height = b.height := (Prod.mk.inj hab).1
  simp only [ha, hheight] at hwindow
  omega

/-- **A walk goes down to the ground exactly where the predecessors are stored**, and passes
them. -/
theorem Tidy.descend_eq_iff {c : Chain} (hc : c.Tidy) {n : Nat} (bound : n < UInt64.size)
    {id : BlockId} {bs : List Block} :
    c.descend n id = ⟨bs, .grounded⟩ ↔ c.Descends n id bs := by
  constructor
  · intro h
    have hgrounded : (c.descend n id).footing = .grounded := by rw [h]
    have hwalk := descends_of_grounded hc.neat.levelled bound hgrounded
    rwa [h] at hwalk
  intro h
  induction h with
  | @anchor a ha =>
    have hkey : c.anchorKey = some (a.height, a.id) := by
      rw [anchorKey, ha]
      rfl
    exact descend_of_anchorKey (by rwa [UInt64.ofNat_toNat])
  | @root b first stored height =>
    obtain ⟨e, he, rfl⟩ := hc.neat.stores_iff.mp stored
    rw [Block.key, height] at he
    have hanchor : c.anchorKey = none := by rw [anchorKey, first]; rfl
    simp [descend, hanchor, he, first]
  | @step b n parent bs stored height names below ih =>
    obtain ⟨e, he, rfl⟩ := hc.neat.stores_iff.mp stored
    have hanchor := hc.neat.anchorKey_ne stored
    have hheight : UInt64.ofNat (n + 1) = e.block.height := by
      rw [← height, UInt64.ofNat_toNat]
    -- the predecessor is held, so the candidate is linked to it
    have hlinked : e.linked = true := by
      have hmem := (hc.neat.find?_eq_some_iff.mp he).1
      refine hc.joined e.block.height e hmem (e.block.height - 1, parent) ?_ ?_
      · rw [Block.parentKey, names]
        rfl
      · have hbelow : e.block.height - 1 = UInt64.ofNat n := by
          refine UInt64.toNat_inj.mp ?_
          rw [toNat_sub_one height, UInt64.toNat_ofNat_of_lt' (by omega)]
        rw [hbelow]
        exact below.holds hc.neat
    rw [Block.key] at hanchor he
    simp [descend, hheight, hanchor, he, hlinked, names, ih (by omega)]

/-- A block extends the committed chain exactly where it is the anchor or the named predecessors
are stored down to the ground. -/
theorem Tidy.extendsChain_iff {c : Chain} (hc : c.Tidy) {b : Block} :
    c.extendsChain b = true ↔ ∃ bs, c.Descends b.height.toNat b.id bs := by
  constructor
  · exact descends_of_extendsChain hc.neat.levelled
  · rintro ⟨bs, h⟩
    simp [extendsChain, (hc.descend_eq_iff b.height.toNat_lt).mpr h]

/-- A walk stays possible while no block is dropped and the anchor stays. -/
theorem Descends.mono {c c' : Chain} {n : Nat} {id : BlockId} {bs : List Block}
    (h : c.Descends n id bs) (anchor : c'.anchor = c.anchor)
    (stored : ∀ x, c.Stores x → c'.Stores x) : c'.Descends n id bs := by
  induction h with
  | anchor ha => exact .anchor (anchor.trans ha)
  | root first hb height => exact .root (anchor.trans first) (stored _ hb) height
  | step hb height names below ih => exact .step (stored _ hb) height names ih

/-- **Adding a block cuts no other one off.** -/
theorem Tidy.extendsChain_add {c c' : Chain} (hc : c.Tidy) {b x : Block} {added : Bool}
    (h : c.add b = .ok (c', added)) (linked : c.extendsChain x = true) :
    c'.extendsChain x = true := by
  have htidy := hc.add h
  cases added with
  | false =>
    rcases hc.add_cases h with ⟨-, -, rfl⟩ | ⟨htrue, -⟩
    · exact linked
    · cases htrue
  | true =>
    obtain ⟨bs, hwalk⟩ := hc.extendsChain_iff.mp linked
    have hanchor := (hc.neat.levelled.add h).2
    exact htidy.extendsChain_iff.mpr
      ⟨bs, hwalk.mono hanchor fun y hy => (hc.stores_add h).mpr (.inr hy)⟩

/-! ### Committing -/

/-- A block that extends the committed chain can be committed. -/
theorem commit_of_extendsChain {c : Chain} {b : Block} (h : c.extendsChain b = true) :
    ∃ c' bs, c.commit b = .ok (c', bs) := by
  have hgrounded : (c.descend b.height.toNat b.id).footing = .grounded := of_decide_eq_true h
  unfold commit
  by_cases hanchor : c.anchorKey = some b.key
  · exact ⟨c, [], if_pos hanchor⟩
  · rw [if_neg hanchor, path_eq b (by rwa [UInt64.ofNat_toNat]),
      Descent.delivery_eq_ok_iff.mpr ⟨hgrounded, rfl⟩]
    exact ⟨_, _, rfl⟩

/-- A walk passes a stored block of every height between the ground and its start. -/
theorem Descends.covers {c : Chain} {n : Nat} {id : BlockId} {bs : List Block}
    (h : c.Descends n id bs) {k : Height} (le : k.toNat ≤ n)
    (above : ∀ a, c.anchor = some a → a.height.toNat < k.toNat) :
    ∃ b ∈ bs, b.height = k := by
  induction h with
  | @anchor a ha => exact absurd (above a ha) (Nat.not_lt.mpr le)
  | @root b first stored height =>
    refine ⟨b, List.mem_singleton_self b, ?_⟩
    rw [height]
    exact UInt64.toNat_inj.mp (Nat.le_zero.mp le).symm
  | @step b n parent bs stored height names below ih =>
    by_cases hk : k.toNat = n + 1
    · exact ⟨b, List.mem_cons_self, UInt64.toNat_inj.mp (height.trans hk.symm)⟩
    · obtain ⟨d, hd, hheight⟩ := ih (by omega)
      exact ⟨d, List.mem_cons_of_mem b hd, hheight⟩

/-- The blocks of a walk are stored, and lie no higher than its start. -/
theorem Descends.stored {c : Chain} {n : Nat} {id : BlockId} {bs : List Block}
    (h : c.Descends n id bs) {b : Block} (hb : b ∈ bs) : c.Stores b ∧ b.height.toNat ≤ n := by
  induction h with
  | anchor => cases hb
  | @root d first stored height =>
    obtain rfl := List.mem_singleton.mp hb
    exact ⟨stored, Nat.le_of_eq (by rw [height]; rfl)⟩
  | @step d n parent bs stored height names below ih =>
    rcases List.mem_cons.mp hb with rfl | hb
    · exact ⟨stored, Nat.le_of_eq height⟩
    · obtain ⟨hstored, hle⟩ := ih hb
      exact ⟨hstored, Nat.le_succ_of_le hle⟩

/-- Clearing the heights of some blocks empties the slots of these heights, and no others. -/
theorem slots_foldl_clear (c : Chain) (bs : List Block) :
    ∃ slots, bs.foldl (fun c b => c.clear b.height) c = { c with slots := slots } ∧
      ∀ i s, slots.get i = some s ↔
        c.slots.get i = some s ∧ ∀ b ∈ bs, c.index b.height ≠ i := by
  induction bs generalizing c with
  | nil => exact ⟨c.slots, rfl, by simp⟩
  | cons b bs ih =>
    obtain ⟨slots, hfold, hslots⟩ := ih (c.clear b.height)
    refine ⟨slots, hfold, ?_⟩
    intro (i : Fin c.size) s
    have hget : (c.clear b.height).slots.get i =
        if i = c.index b.height then none else c.slots.get i := get_set ..
    refine (hslots i s).trans ?_
    rw [List.forall_mem_cons, ← and_assoc]
    refine and_congr_left fun _ => ?_
    show (c.clear b.height).slots.get i = some s ↔ _
    rw [hget]
    by_cases hnow : i = c.index b.height
    · simp [hnow]
    · simp [hnow, Ne.symm hnow]

namespace Tidy

variable {c c' : Chain} {b : Block} {bs : List Block}

/-- A commit of the anchor does nothing; another one goes down a walk, makes its highest block the
anchor, and keeps exactly the slots of greater heights. -/
theorem commit_slots (hc : c.Tidy) (h : c.commit b = .ok (c', bs)) :
    (c' = c ∧ bs = [] ∧ c.anchorKey = some b.key) ∨
      ∃ slots a, c' = { c with slots := slots, anchor := some a } ∧ c.Stores a ∧ a.key = b.key ∧
        c.Descends b.height.toNat b.id bs ∧
        ∀ i s, slots.get i = some s ↔
          c.slots.get i = some s ∧ b.height.toNat < s.height.toNat := by
  rcases commit_eq h with hsame | ⟨hanchor, hfooting, hbs, rfl⟩
  · exact .inl hsame
  have hwalk : c.Descends b.height.toNat b.id bs :=
    hbs ▸ descends_of_grounded hc.neat.levelled b.height.toNat_lt hfooting
  obtain ⟨slots, hfold, hslots⟩ := slots_foldl_clear c bs
  cases bs with
  | nil => exact absurd hwalk.anchorKey_of_nil hanchor
  | cons a rest =>
    obtain ⟨hheight, hid⟩ := hwalk.head (b := a) rfl
    refine .inr ⟨slots, a, by rw [hfold]; rfl, (hwalk.stored List.mem_cons_self).1,
      Prod.ext (UInt64.toNat_inj.mp hheight) hid, hwalk, ?_⟩
    intro i s
    refine (hslots i s).trans (and_congr_right fun hs => ?_)
    have hfits := hc.neat i s hs
    constructor
    · -- the walk passes every height of the window up to the committed one
      intro hkept
      by_contra hle
      obtain ⟨d, hd, hdheight⟩ := hwalk.covers (Nat.not_lt.mp hle) (by
        intro a ha
        have hwindow := inWindow_iff.mp hfits.window
        simp only [ha] at hwindow
        exact hwindow.1)
      exact hkept d hd (by rw [hdheight, hfits.placed])
    · intro hlt d hd hindex
      obtain ⟨⟨e, he, -⟩, hle⟩ := hwalk.stored hd
      have heq : d.height = s.height :=
        eq_of_index_eq hfits.window (hc.neat.window_of_mem he) (hindex.trans hfits.placed.symm)
      rw [heq] at hle
      omega

/-- The committed block is the anchor after a commit. -/
theorem anchorKey_commit (hc : c.Tidy) (h : c.commit b = .ok (c', bs)) :
    c'.anchorKey = some b.key := by
  rcases hc.commit_slots h with ⟨rfl, -, hanchor⟩ | ⟨slots, a, rfl, -, hkey, -⟩
  · exact hanchor
  · exact congrArg some hkey

theorem neat_commit (hc : c.Tidy) (h : c.commit b = .ok (c', bs)) : c'.Neat := by
  rcases hc.commit_slots h with ⟨rfl, -⟩ | ⟨slots, a, rfl, ⟨d, hd, -⟩, hkey, -, hslots⟩
  · exact hc.neat
  intro i s hs
  obtain ⟨hold, hlt⟩ := (hslots i s).mp hs
  obtain ⟨hplaced, hwindow, hlevel, hdistinct⟩ := hc.neat i s hold
  refine ⟨hplaced, ?_, hlevel, hdistinct⟩
  -- the window only moved up
  have hbefore := inWindow_iff.mp (hc.neat.window_of_mem hd)
  have hheight : a.height = b.height := (Prod.mk.inj hkey).1
  rw [inWindow_iff] at hwindow ⊢
  cases hanchor : c.anchor with
  | none =>
    simp only [hanchor, hheight] at hwindow hbefore ⊢
    omega
  | some old =>
    simp only [hanchor, hheight] at hwindow hbefore ⊢
    omega

/-- A commit drops what is not above the committed block, and nothing else. -/
theorem candidates_commit (hc : c.Tidy) (h : c.commit b = .ok (c', bs)) (k : Height) :
    c'.candidates k = if k.toNat ≤ b.height.toNat then [] else c.candidates k := by
  by_cases hk : k.toNat ≤ b.height.toNat
  · rw [if_pos hk]
    refine List.eq_nil_iff_forall_not_mem.mpr ?_
    intro e he
    obtain ⟨a, ha, hkey⟩ := Option.map_eq_some_iff.mp (hc.anchorKey_commit h)
    have hwindow := inWindow_iff.mp ((hc.neat_commit h).window_of_mem he)
    have hheight : a.height = b.height := (Prod.mk.inj hkey).1
    simp only [ha, hheight] at hwindow
    omega
  rw [if_neg hk]
  rcases hc.commit_slots h with ⟨rfl, -⟩ | ⟨slots, a, rfl, -, -, -, hslots⟩
  · rfl
  have hslot : slots.get (c.index k) = (c.slots.get (c.index k)).filter
      fun s => b.height.toNat < s.height.toNat := by
    ext s
    simp [hslots, Option.filter_eq_some_iff]
  refine (candidates_of_slot hslot).trans (Eq.trans ?_ (candidates_of_slot rfl).symm)
  cases hs : c.slots.get (c.index k) with
  | none => rfl
  | some s =>
    by_cases hheight : s.height = k
    · subst hheight
      simp [Option.filter, Nat.not_le.mp hk]
    · simp only [Option.filter]
      split <;> simp [hheight]

/-- What is stored after a commit lies above the committed block, and was stored before. -/
theorem stores_commit (hc : c.Tidy) (h : c.commit b = .ok (c', bs)) {x : Block} :
    c'.Stores x ↔ c.Stores x ∧ b.height.toNat < x.height.toNat := by
  unfold Stores
  rw [hc.candidates_commit h]
  by_cases hx : x.height.toNat ≤ b.height.toNat
  · rw [if_pos hx]
    simp [hx]
  · rw [if_neg hx]
    simp [Nat.not_le.mp hx]

/-- A commit keeps the store tidy. -/
theorem commit (hc : c.Tidy) (h : c.commit b = .ok (c', bs)) : c'.Tidy := by
  refine ⟨hc.neat_commit h, ?_⟩
  intro height e he key hkey hheld
  rw [hc.candidates_commit h] at he
  have hmem : e ∈ c.candidates height := by
    by_cases hheight : height.toNat ≤ b.height.toNat
    · rw [if_pos hheight] at he
      cases he
    · rwa [if_neg hheight] at he
  refine hc.joined height e hmem key hkey ?_
  rw [(hc.neat_commit h).holds_iff, hc.anchorKey_commit h] at hheld
  rcases hheld with hanchor | ⟨x, hx, rfl⟩
  · -- the new anchor was stored, or is the old one
    obtain rfl := Option.some.inj hanchor
    rcases hc.commit_slots h with ⟨-, -, hanchor⟩ | ⟨-, a, -, hstored, hkey, -⟩
    · exact hc.neat.holds_iff.mpr (.inl hanchor)
    · exact hc.neat.holds_iff.mpr (.inr ⟨a, hstored, hkey⟩)
  · exact hc.neat.holds_iff.mpr (.inr ⟨x, ((hc.stores_commit h).mp hx).1, rfl⟩)

end Tidy

/-! ### Uses of a store -/

/-- A use of a store that succeeds. -/
inductive Use : Chain → Chain → Prop
  | add {c c' : Chain} {b : Block} {added : Bool} (done : c.add b = .ok (c', added)) : Use c c'
  | commit {c c' : Chain} {b : Block} {bs : List Block} (done : c.commit b = .ok (c', bs)) :
      Use c c'

/-- Uses of a store, one after the other. -/
abbrev Uses : Chain → Chain → Prop := Relation.ReflTransGen Use

theorem tidy_empty (size : Nat) (size_pos : 0 < size) : (empty size size_pos).Tidy := by
  have hnone : ∀ i : Fin size, (empty size size_pos).slots.get i = none := by
    intro i
    exact Vector.getElem_replicate _
  refine ⟨?_, ?_⟩
  · intro i s hs
    cases (hnone i).symm.trans hs
  · intro height e he
    rw [candidates_of_slot (hnone _)] at he
    cases he

theorem tidy_create {size : Nat} {c : Chain} (h : create size = .ok c) : c.Tidy := by
  unfold create at h
  simp only [pure, Except.pure] at h
  split at h
  · obtain ⟨_, -, h⟩ := bind_eq_ok.mp h
    cases h
    exact tidy_empty _ _
  · cases h

/-- Every use keeps the store tidy, and as large as it is. -/
theorem Use.tidy {c c' : Chain} (h : Use c c') (hc : c.Tidy) : c'.Tidy ∧ c'.size = c.size := by
  cases h with
  | add done =>
    refine ⟨hc.add done, ?_⟩
    rcases hc.add_cases done with ⟨-, -, rfl⟩ | ⟨-, -, -, hsize, -⟩
    · rfl
    · exact hsize
  | commit done =>
    refine ⟨hc.commit done, ?_⟩
    rcases hc.commit_slots done with ⟨rfl, -⟩ | ⟨slots, a, rfl, -⟩ <;> rfl

theorem Uses.tidy {c c' : Chain} (h : Uses c c') (hc : c.Tidy) :
    c'.Tidy ∧ c'.size = c.size := by
  induction h with
  | refl => exact ⟨hc, rfl⟩
  | tail _ last ih =>
    obtain ⟨htidy, hsize⟩ := last.tidy ih.1
    exact ⟨htidy, hsize.trans ih.2⟩

/-- **A store is the set of its blocks.**  After any uses, every slot belongs to one height of the
window and lists each block of that height once.  A block below the last height of all is added
exactly when it is new, in the window, and not in contradiction to the anchor; then it comes in
beside all the others, and else nothing changes.  A block extends the committed chain exactly when
it is the anchor, or is stored and the named predecessors are stored down to the anchor, or before
the first commit to height zero. -/
theorem uses_refines {size : Nat} (size_pos : 0 < size) {c : Chain}
    (uses : Uses (empty size size_pos) c) :
    (∀ i s, c.slots.get i = some s → i.val = s.height.toNat % size ∧
      c.inWindow s.height = true ∧ (∀ e ∈ s.candidates, e.block.height = s.height) ∧
      (s.candidates.map (·.block.id)).Nodup) ∧
    (∀ b, b.height.toNat + 1 < UInt64.size → ∃ c' added, c.add b = .ok (c', added) ∧
      (added = true ↔ c.Admits b) ∧
      (added = true → c'.anchor = c.anchor ∧ ∀ x, c'.Stores x ↔ x = b ∨ c.Stores x) ∧
      (added = false → c' = c)) ∧
    ∀ b, c.extendsChain b = true ↔ ∃ bs, c.Descends b.height.toNat b.id bs := by
  obtain ⟨hc, hsize⟩ := Uses.tidy uses (tidy_empty size size_pos)
  refine ⟨?_, ?_, fun b => hc.extendsChain_iff⟩
  · intro i s hs
    obtain ⟨hplaced, hwindow, hlevel, hdistinct⟩ := hc.neat i s hs
    refine ⟨?_, hwindow, hlevel, hdistinct⟩
    rw [← hplaced, ← show c.size = size from hsize]
    rfl
  · intro b low
    by_cases hb : c.Admits b
    · obtain ⟨c', hadd, -, -, hanchor, -⟩ := hc.neat.add_admitted hb low
      exact ⟨c', true, hadd, by simp [hb], fun _ => ⟨hanchor, fun x => hc.stores_add hadd⟩,
        by simp⟩
    · exact ⟨c, false, hc.neat.add_refused hb, by simp [hb], by simp, fun _ => rfl⟩

/-! ### A block before its predecessor -/

def rootBlock : Block := .genesis [1]

def leafBlock : Block := .ofFields 1 (some rootBlock.id) [2] (by simp)

/-- A block, its predecessor after it, and a commit of the predecessor. -/
def lateChain : Except Fault Chain := do
  let (c, _) ← (empty 2 Nat.two_pos).add leafBlock
  let (c, _) ← c.add rootBlock
  let (c, _) ← c.commit rootBlock
  return c

theorem uses_lateChain {c : Chain} (h : lateChain = .ok c) : Uses (empty 2 Nat.two_pos) c := by
  unfold lateChain at h
  simp only [pure, Except.pure] at h
  obtain ⟨⟨c₁, added⟩, hleaf, h⟩ := bind_eq_ok.mp h
  obtain ⟨⟨c₂, added⟩, hroot, h⟩ := bind_eq_ok.mp h
  obtain ⟨⟨c₃, bs⟩, hcommit, h⟩ := bind_eq_ok.mp h
  cases h
  exact .tail (.tail (.single (.add hleaf)) (.add hroot)) (.commit hcommit)

/-- The block that came first is linked to the anchor in the end. -/
theorem uses_refines_late : ∃ c, Uses (empty 2 Nat.two_pos) c ∧ c.anchor = some rootBlock ∧
    c.extendsChain leafBlock = true ∧ ∃ bs, c.Descends 1 leafBlock.id bs := by
  obtain ⟨c, hc, hfacts⟩ : ∃ c, lateChain = .ok c ∧
      (c.anchor, c.extendsChain leafBlock) = (some rootBlock, true) :=
    exists_of_toOption (by decide +kernel)
  obtain ⟨hanchor, hlinked⟩ := Prod.mk.inj hfacts
  have uses := uses_lateChain hc
  exact ⟨c, uses, hanchor, hlinked, ((uses_refines Nat.two_pos uses).2.2 leafBlock).mp hlinked⟩

end Chain

end EpochConsensus
