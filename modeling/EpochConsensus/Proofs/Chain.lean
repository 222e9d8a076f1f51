import EpochConsensus.Chain
import EpochConsensus.Proofs.Basic
import Mathlib.Data.List.Chain

/-! # Walks down the store

A store is `Levelled` when every candidate is kept under its own height; adding and committing keep
it so.  In a levelled store a walk that ends at the anchor is a `Descends`: its blocks are stored,
each names the next one, and the last one names the anchor.  A commit goes down in a loop that asks
for the anchor at another place, and delivers just what such a walk passes (`path_eq`).  So it
continues the chain that was committed before: `commit_chained`.
-/
namespace EpochConsensus

namespace Block

/-- `b` is the next block after `a`. -/
structure Follows (a b : Block) : Prop where
  height : b.height.toNat = a.height.toNat + 1
  parent : b.parent = some a.id

/-- A chain from height zero, without a gap. -/
structure Chained (bs : List Block) : Prop where
  first : ∀ b ∈ bs.head?, b.height = 0
  links : bs.IsChain Follows

theorem Chained.nil : Chained [] := ⟨by simp, .nil⟩

/-- A chain grows by a first block, or by a block on top of the last one. -/
theorem Chained.concat {bs : List Block} (h : Chained bs) {b : Block}
    (first : bs = [] → b.height = 0) (follows : ∀ a ∈ bs.getLast?, a.Follows b) :
    Chained (bs ++ [b]) := by
  refine ⟨?_, List.isChain_append.mpr ⟨h.links, .singleton b, ?_⟩⟩
  · cases bs with
    | nil => simpa using first rfl
    | cons a as => simpa using h.first
  · intro a ha c hc
    obtain rfl : b = c := by simpa using hc
    exact follows a ha

/-- Heights grow along a chain, so no block is in it twice. -/
theorem Chained.nodup {bs : List Block} (h : Chained bs) : bs.Nodup := by
  have hlt : bs.IsChain fun a b => a.height < b.height := by
    apply h.links.imp
    intro a b hab
    rw [UInt64.lt_iff_toNat_lt]
    have hheight := hab.height
    omega
  have : Trans (fun a b : Block => a.height < b.height) (fun a b : Block => a.height < b.height)
      (fun a b : Block => a.height < b.height) := ⟨fun hab hbc => UInt64.lt_trans hab hbc⟩
  apply (List.isChain_iff_pairwise.mp hlt).imp
  rintro a _ hab rfl
  exact UInt64.lt_irrefl _ hab

end Block

namespace Descent

/-- What the commit of `b` delivers after this walk, or the fault that it ends with. -/
def delivery (d : Descent) (b : Block) : Except Fault (List Block) :=
  match d.footing with
  | .grounded => .ok d.blocks
  | .missing reached => .error (.missing b.height b.id reached)
  | .unlinked reached => .error (.unlinked b.height b.id reached)

theorem delivery_eq_ok_iff {d : Descent} {b : Block} {bs : List Block} :
    d.delivery b = .ok bs ↔ d.footing = .grounded ∧ d.blocks = bs := by
  unfold delivery
  cases d.footing <;> simp

theorem delivery_cons (d : Descent) (b x : Block) :
    (⟨x :: d.blocks, d.footing⟩ : Descent).delivery b = (d.delivery b).map (x :: ·) := by
  unfold delivery
  cases d.footing <;> rfl

end Descent

namespace Chain

/-- A block is among the candidates of its height. -/
def Stores (c : Chain) (b : Block) : Prop := ∃ e ∈ c.candidates b.height, e.block = b

/-- Every candidate is kept under its own height. -/
def Levelled (c : Chain) : Prop := ∀ height, ∀ e ∈ c.candidates height, e.block.height = height

/-! ### Slots -/

/-- The candidates at a height are those of its slot, if that is taken for the height. -/
theorem candidates_of_slot {c : Chain} {k : Height} {slot : Option Slot}
    (h : c.slots.get (c.index k) = slot) :
    c.candidates k = slot.elim [] fun s => if s.height = k then s.candidates else [] := by
  unfold candidates
  rw [h]
  cases slot <;> rfl

theorem candidates_setCandidates (c : Chain) (height : Height) (es : List Candidate) (k : Height) :
    (c.setCandidates height es).candidates k =
      if c.index k = c.index height then if height = k then es else [] else c.candidates k := by
  have hslot : (c.setCandidates height es).slots.get (c.index k) =
      if c.index k = c.index height then some ⟨height, es⟩ else c.slots.get (c.index k) :=
    get_set ..
  by_cases h : c.index k = c.index height
  · rw [if_pos h] at hslot ⊢
    exact candidates_of_slot hslot
  · rw [if_neg h] at hslot ⊢
    exact (candidates_of_slot hslot).trans (candidates_of_slot rfl).symm

theorem candidates_clear (c : Chain) (height k : Height) :
    (c.clear height).candidates k = if c.index k = c.index height then [] else c.candidates k := by
  have hslot : (c.clear height).slots.get (c.index k) =
      if c.index k = c.index height then none else c.slots.get (c.index k) := get_set ..
  by_cases h : c.index k = c.index height
  · rw [if_pos h] at hslot ⊢
    exact candidates_of_slot hslot
  · rw [if_neg h] at hslot ⊢
    exact (candidates_of_slot hslot).trans (candidates_of_slot rfl).symm

theorem levelled_empty (size : Nat) (size_pos : 0 < size) : (empty size size_pos).Levelled := by
  intro height e he
  have hnone : (empty size size_pos).slots.get ((empty size size_pos).index height) = none :=
    Vector.getElem_replicate _
  simp [candidates, hnone] at he

theorem levelled_create {size : Nat} {c : Chain} (h : create size = .ok c) :
    c.Levelled ∧ c.anchor = none := by
  unfold create at h
  simp only [pure, Except.pure] at h
  split at h
  · obtain ⟨_, -, h⟩ := bind_eq_ok.mp h
    cases h
    exact ⟨levelled_empty _ _, rfl⟩
  · cases h

namespace Levelled

variable {c : Chain}

theorem setCandidates (hc : c.Levelled) {height : Height} {es : List Candidate}
    (hes : ∀ e ∈ es, e.block.height = height) : (c.setCandidates height es).Levelled := by
  intro k e he
  rw [candidates_setCandidates] at he
  split at he
  · split at he
    · rename_i heq
      exact heq ▸ hes e he
    · cases he
  · exact hc k e he

theorem linkSuccessors (hc : c.Levelled) {b : Block} {c' : Chain}
    (h : c.linkSuccessors b = .ok c') : c'.Levelled := by
  unfold Chain.linkSuccessors at h
  simp only [pure, Except.pure] at h
  obtain ⟨next, -, h⟩ := bind_eq_ok.mp h
  split at h
  · cases h
    exact hc
  · cases h
    apply hc.setCandidates
    intro e he
    obtain ⟨d, hd, rfl⟩ := List.mem_map.mp he
    have hheight := hc next d hd
    split <;> exact hheight

/-- Adding a block leaves the store levelled, and the anchor where it is. -/
theorem add (hc : c.Levelled) {b : Block} {c' : Chain} {added : Bool}
    (h : c.add b = .ok (c', added)) : c'.Levelled ∧ c'.anchor = c.anchor := by
  unfold Chain.add at h
  simp only [pure, Except.pure] at h
  split at h
  · cases h
    exact ⟨hc, rfl⟩
  obtain ⟨conflict, -, h⟩ := bind_eq_ok.mp h
  split at h
  · cases h
    exact ⟨hc, rfl⟩
  obtain ⟨d, hlink, h⟩ := bind_eq_ok.mp h
  cases h
  have hclaimed := hc.setCandidates (hc b.height)
  refine ⟨Levelled.linkSuccessors (hclaimed.setCandidates ?_) hlink, ?_⟩
  · intro e he
    rcases List.mem_append.mp he with hold | hnew
    · exact hclaimed _ e hold
    · obtain rfl : e = _ := by simpa using hnew
      rfl
  · -- linking rewrites one slot and nothing else
    unfold Chain.linkSuccessors at hlink
    simp only [pure, Except.pure] at hlink
    obtain ⟨next, -, hlink⟩ := bind_eq_ok.mp hlink
    split at hlink <;> cases hlink <;> rfl

theorem clear (hc : c.Levelled) (height : Height) : (c.clear height).Levelled := by
  intro k e he
  rw [candidates_clear] at he
  split at he
  · cases he
  · exact hc k e he

theorem find? (hc : c.Levelled) {height : Height} {id : BlockId} {e : Candidate}
    (h : c.find? (height, id) = some e) :
    c.Stores e.block ∧ e.block.height = height ∧ e.block.id = id := by
  have hmem : e ∈ c.candidates height := List.mem_of_find?_eq_some h
  have hheight := hc height e hmem
  refine ⟨⟨e, ?_, rfl⟩, hheight, ?_⟩
  · rw [hheight]
    exact hmem
  · simpa using List.find?_some h

end Levelled

/-- A refused block leaves no trace. -/
theorem add_refused {c c' : Chain} {b : Block} (h : c.add b = .ok (c', false)) : c' = c := by
  unfold add at h
  simp only [pure, Except.pure] at h
  split at h
  · exact (Prod.mk.inj (Except.ok.inj h)).1.symm
  obtain ⟨conflict, -, h⟩ := bind_eq_ok.mp h
  split at h
  · exact (Prod.mk.inj (Except.ok.inj h)).1.symm
  · obtain ⟨d, -, h⟩ := bind_eq_ok.mp h
    cases h

/-! ### Walking down -/

/-- A walk from the block named `id` at a height down to the anchor, or before the first commit to
height zero, with the stored blocks that it passes, highest first. -/
inductive Descends (c : Chain) : (height : Nat) → (id : BlockId) → List Block → Prop
  | anchor {a : Block} (h : c.anchor = some a) : Descends c a.height.toNat a.id []
  | root {b : Block} (first : c.anchor = none) (stored : c.Stores b) (height : b.height = 0) :
      Descends c 0 b.id [b]
  | step {b : Block} {n : Nat} {parent : BlockId} {bs : List Block} (stored : c.Stores b)
      (height : b.height.toNat = n + 1) (names : b.parent = some parent)
      (below : Descends c n parent bs) : Descends c (n + 1) b.id (b :: bs)

theorem descends_anchor {c : Chain} {height : Height} {id : BlockId}
    (h : c.anchorKey = some (height, id)) : c.Descends height.toNat id [] := by
  obtain ⟨a, ha, hkey⟩ := Option.map_eq_some_iff.mp h
  obtain ⟨rfl, rfl⟩ := Prod.mk.inj hkey
  exact .anchor ha

/-- At the anchor a walk ends before it has begun. -/
theorem descend_of_anchorKey {c : Chain} {n : Nat} {id : BlockId}
    (h : c.anchorKey = some (UInt64.ofNat n, id)) : c.descend n id = ⟨[], .grounded⟩ := by
  cases n with
  | zero => exact if_pos h
  | succ n => exact if_pos h

/-- A walk that ends at the ground descends. -/
theorem descends_of_grounded {c : Chain} (hc : c.Levelled) {n : Nat} (bound : n < UInt64.size)
    {id : BlockId} (h : (c.descend n id).footing = .grounded) :
    c.Descends n id (c.descend n id).blocks := by
  induction n generalizing id with
  | zero =>
    unfold descend at h ⊢
    by_cases hanchor : c.anchorKey = some (0, id)
    · rw [if_pos hanchor]
      exact descends_anchor hanchor
    rw [if_neg hanchor] at h ⊢
    cases hfind : c.find? (0, id) with
    | none => simp [hfind] at h
    | some e =>
      obtain ⟨hstored, hheight, rfl⟩ := hc.find? hfind
      simp only [hfind] at h ⊢
      -- at height zero a walk ends well only before the first commit
      have hfirst : c.anchor = none := by
        cases hc : c.anchor with
        | none => rfl
        | some a => simp [hc] at h
      exact .root hfirst hstored hheight
  | succ n ih =>
    unfold descend at h ⊢
    have hnat : (UInt64.ofNat (n + 1)).toNat = n + 1 := UInt64.toNat_ofNat_of_lt' bound
    generalize UInt64.ofNat (n + 1) = height at h hnat ⊢
    by_cases hanchor : c.anchorKey = some (height, id)
    · rw [if_pos hanchor]
      exact hnat ▸ descends_anchor hanchor
    rw [if_neg hanchor] at h ⊢
    cases hfind : c.find? (height, id) with
    | none => simp [hfind] at h
    | some e =>
      obtain ⟨hstored, hheight, rfl⟩ := hc.find? hfind
      simp only [hfind] at h ⊢
      cases hlinked : e.linked with
      | false => simp [hlinked] at h
      | true =>
        cases hparent : e.block.parent with
        | none => simp [hlinked, hparent] at h
        | some parent =>
          simp only [hlinked, hparent] at h ⊢
          exact .step hstored (by rw [hheight, hnat]) hparent (ih (by omega) h)

/-- A block that extends the committed chain is the anchor or descends to it through stored
blocks. -/
theorem descends_of_extendsChain {c : Chain} (hc : c.Levelled) {b : Block}
    (h : c.extendsChain b = true) : ∃ bs, c.Descends b.height.toNat b.id bs :=
  ⟨_, descends_of_grounded hc b.height.toNat_lt (by simpa [extendsChain] using h)⟩

/-- **A walk continues the chain that ends at the anchor.** -/
theorem Descends.chained {c : Chain} {n : Nat} {id : BlockId} {bs : List Block}
    (h : c.Descends n id bs) {ds : List Block} (hds : Block.Chained ds)
    (last : ds.getLast? = c.anchor) :
    Block.Chained (ds ++ bs.reverse) ∧
      ∃ b, (ds ++ bs.reverse).getLast? = some b ∧ b.id = id ∧ b.height.toNat = n := by
  induction h with
  | @anchor a h =>
    rw [List.reverse_nil, List.append_nil]
    exact ⟨hds, a, last.trans h, rfl, rfl⟩
  | @root b first stored height =>
    obtain rfl : ds = [] := List.getLast?_eq_none_iff.mp (last.trans first)
    refine ⟨Block.Chained.concat .nil (fun _ => height) (by simp), b, by simp, rfl, ?_⟩
    simp [height]
  | @step b n parent bs stored height names below ih =>
    obtain ⟨hchain, l, hlast, hid, hn⟩ := ih
    rw [List.reverse_cons, ← List.append_assoc]
    refine ⟨hchain.concat ?_ ?_, b, by simp, rfl, height⟩
    · intro hnil
      simp [hnil] at hlast
    · intro a ha
      obtain rfl : l = a := Option.some.inj (hlast.symm.trans ha)
      exact ⟨by rw [height, hn], by rw [names, hid]⟩

/-- A walk down to the anchor is empty or begins with the block that is asked for. -/
theorem Descends.head {c : Chain} {n : Nat} {id : BlockId} {bs : List Block}
    (h : c.Descends n id bs) {b : Block} (hb : b ∈ bs.head?) : b.height.toNat = n ∧ b.id = id := by
  cases h with
  | anchor => cases hb
  | root first stored height =>
    obtain rfl := Option.some.inj hb
    exact ⟨by rw [height]; rfl, rfl⟩
  | step stored height names below =>
    obtain rfl := Option.some.inj hb
    exact ⟨height, rfl⟩

/-- An empty walk starts at the anchor. -/
theorem Descends.anchorKey_of_nil {c : Chain} {b : Block}
    (h : c.Descends b.height.toNat b.id []) : c.anchorKey = some b.key := by
  generalize hn : b.height.toNat = n at h
  generalize hid : b.id = id at h
  cases h with
  | @anchor a ha =>
    rw [anchorKey, ha, Block.key, hid, UInt64.toNat_inj.mp hn]
    rfl

/-! ### Committing -/

/-- Clearing leaves the candidates of a height, or takes all of them. -/
theorem candidates_foldl_clear (c : Chain) (bs : List Block) (k : Height) :
    (bs.foldl (fun c b => c.clear b.height) c).candidates k = [] ∨
      (bs.foldl (fun c b => c.clear b.height) c).candidates k = c.candidates k := by
  induction bs generalizing c with
  | nil => exact .inr rfl
  | cons b bs ih =>
    rcases ih (c.clear b.height) with hnone | hsame
    · exact .inl hnone
    · rw [List.foldl_cons, hsame, candidates_clear]
      split
      · exact .inl rfl
      · exact .inr rfl

theorem levelled_foldl_clear {c : Chain} (hc : c.Levelled) (bs : List Block) :
    (bs.foldl (fun c b => c.clear b.height) c).Levelled := by
  induction bs generalizing c with
  | nil => exact hc
  | cons b bs ih => exact ih (hc.clear b.height)

/-- **The two loops agree.**  Below a block that is not the anchor the loop of a commit passes the
blocks of the walk and ends where that does, although it stops at the predecessor of the last block
and not at the anchor itself. -/
theorem path_eq {c : Chain} (b : Block) {n : Nat} {id : BlockId}
    (new : c.anchorKey ≠ some (UInt64.ofNat n, id)) :
    c.path b n id = (c.descend n id).delivery b := by
  induction n generalizing id with
  | zero =>
    rw [path, descend, if_neg (show c.anchorKey ≠ some (0, id) from new)]
    cases c.find? (0, id) with
    | none => rfl
    | some e => cases c.anchor.isNone <;> simp [Descent.delivery]
  | succ n ih =>
    rw [path, descend]
    simp only [if_neg new]
    cases c.find? (UInt64.ofNat (n + 1), id) with
    | none => rfl
    | some e =>
      cases hlinked : e.linked with
      | false => simp [Descent.delivery, hlinked]
      | true =>
        cases hparent : e.block.parent with
        | none => simp [Descent.delivery, hlinked, hparent]
        | some parent =>
          simp only [hlinked, hparent]
          rw [Descent.delivery_cons]
          by_cases hanchor : c.anchorKey = some (UInt64.ofNat n, parent)
          · -- the walk goes on to the anchor, and passes nothing there
            rw [if_pos hanchor, descend_of_anchorKey hanchor]
            rfl
          · rw [if_neg hanchor, ih hanchor]

/-- A commit of the anchor changes nothing; any other one walks down from the block, drops what is
at the heights that it passes, and makes its highest block the next anchor. -/
theorem commit_eq {c c' : Chain} {b : Block} {bs : List Block} (h : c.commit b = .ok (c', bs)) :
    (c' = c ∧ bs = [] ∧ c.anchorKey = some b.key) ∨
      c.anchorKey ≠ some b.key ∧ (c.descend b.height.toNat b.id).footing = .grounded ∧
        bs = (c.descend b.height.toNat b.id).blocks ∧
        c' = { bs.foldl (fun c b => c.clear b.height) c with anchor := bs.head? } := by
  unfold commit at h
  by_cases hanchor : c.anchorKey = some b.key
  · rw [if_pos hanchor] at h
    cases h
    exact .inl ⟨rfl, rfl, hanchor⟩
  rw [if_neg hanchor] at h
  obtain ⟨path, hpath, h⟩ := bind_eq_ok.mp h
  cases h
  rw [path_eq b (by rwa [UInt64.ofNat_toNat])] at hpath
  obtain ⟨hfooting, hblocks⟩ := Descent.delivery_eq_ok_iff.mp hpath
  exact .inr ⟨hanchor, hfooting, hblocks.symm, rfl⟩

/-- A commit of the anchor changes nothing; any other one walks down to the anchor and makes its
highest block the next one. -/
theorem commit_cases {c c' : Chain} (hc : c.Levelled) {b : Block} {bs : List Block}
    (h : c.commit b = .ok (c', bs)) :
    (c' = c ∧ bs = [] ∧ c.anchorKey = some b.key) ∨
      (c.Descends b.height.toNat b.id bs ∧ bs ≠ [] ∧ c'.anchor = bs.head? ∧ c'.Levelled) := by
  rcases commit_eq h with hsame | ⟨hanchor, hfooting, hbs, rfl⟩
  · exact .inl hsame
  have hwalk : c.Descends b.height.toNat b.id bs :=
    hbs ▸ descends_of_grounded hc b.height.toNat_lt hfooting
  refine .inr ⟨hwalk, ?_, rfl, levelled_foldl_clear hc _⟩
  -- an empty walk starts at the anchor, which was the first case
  intro hnil
  rw [hnil] at hwalk
  exact hanchor hwalk.anchorKey_of_nil

/-- **A commit continues the committed chain, and its last block becomes the anchor.** -/
theorem commit_chained {c c' : Chain} (hc : c.Levelled) {b : Block} {bs ds : List Block}
    (h : c.commit b = .ok (c', bs)) (hds : Block.Chained ds) (last : ds.getLast? = c.anchor) :
    c'.Levelled ∧ Block.Chained (ds ++ bs.reverse) ∧ (ds ++ bs.reverse).getLast? = c'.anchor := by
  rcases commit_cases hc h with ⟨rfl, rfl, -⟩ | ⟨hwalk, hne, hanchor, hlevelled⟩
  · rw [List.reverse_nil, List.append_nil]
    exact ⟨hc, hds, last⟩
  · refine ⟨hlevelled, (hwalk.chained hds last).1, ?_⟩
    rw [hanchor, List.getLast?_append_of_ne_nil _ (by simpa using hne), List.getLast?_reverse]

/-- What is found after a commit was found before. -/
theorem find_of_commit {c c' : Chain} {b : Block} {bs : List Block}
    (h : c.commit b = .ok (c', bs)) {key : BlockKey} {e : Candidate}
    (found : c'.find? key = some e) : c.find? key = some e := by
  rcases commit_eq h with ⟨rfl, -⟩ | ⟨-, -, -, rfl⟩
  · exact found
  · replace found : (bs.foldl (fun c b => c.clear b.height) c).find? key = some e := found
    unfold find? at found ⊢
    rcases candidates_foldl_clear c bs key.1 with hnone | hsame
    · rw [hnone] at found
      cases found
    · rwa [← hsame]

/-- A walk that ends at a new anchor ended at the old one before, if the walk from the new anchor
did. -/
theorem grounded_of_commit {c c' : Chain} {b : Block} {bs : List Block}
    (h : c.commit b = .ok (c', bs)) (anchored : c'.anchor.isSome = true)
    (through : ∀ height id, c'.anchorKey = some (height, id) →
      (c.descend height.toNat id).footing = .grounded)
    {n : Nat} (bound : n < UInt64.size) {id : BlockId}
    (walk : (c'.descend n id).footing = .grounded) : (c.descend n id).footing = .grounded := by
  induction n generalizing id with
  | zero =>
    by_cases hnew : c'.anchorKey = some (0, id)
    · exact through 0 id hnew
    unfold descend at walk
    rw [if_neg hnew] at walk
    cases hfind : c'.find? (0, id) with
    | none => simp [hfind] at walk
    | some e =>
      have hsome : c'.anchor.isNone = false := by simpa using anchored
      simp [hfind, hsome] at walk
  | succ n ih =>
    have hnat : (UInt64.ofNat (n + 1)).toNat = n + 1 := UInt64.toNat_ofNat_of_lt' bound
    by_cases hnew : c'.anchorKey = some (UInt64.ofNat (n + 1), id)
    · exact hnat ▸ through _ id hnew
    unfold descend at walk ⊢
    generalize UInt64.ofNat (n + 1) = height at hnew walk ⊢
    rw [if_neg hnew] at walk
    by_cases hold : c.anchorKey = some (height, id)
    · rw [if_pos hold]
    rw [if_neg hold]
    cases hfind : c'.find? (height, id) with
    | none => simp [hfind] at walk
    | some e =>
      simp only [hfind] at walk
      simp only [find_of_commit h hfind]
      cases hlinked : e.linked with
      | false => simp [hlinked] at walk
      | true =>
        cases hparent : e.block.parent with
        | none => simp [hlinked, hparent] at walk
        | some parent =>
          simp only [hlinked, hparent] at walk ⊢
          exact ih (by omega) walk

/-- **A commit links nothing** that was not linked before. -/
theorem extendsChain_of_commit {c c' : Chain} (hc : c.Levelled) {b : Block} {bs : List Block}
    (h : c.commit b = .ok (c', bs)) {x : Block} (linked : c'.extendsChain x = true) :
    c.extendsChain x = true := by
  rcases commit_eq h with ⟨rfl, -⟩ | ⟨-, hgrounded, -⟩
  · exact linked
  rcases commit_cases hc h with ⟨rfl, -⟩ | ⟨hwalk, hne, hanchor, -⟩
  · exact linked
  obtain ⟨a, ha⟩ := Option.isSome_iff_exists.mp (List.isSome_head?.mpr hne)
  obtain ⟨hheight, hid⟩ := hwalk.head ha
  have hkey : c'.anchorKey = some a.key := by
    rw [anchorKey, hanchor, ha]
    rfl
  unfold extendsChain at linked ⊢
  simp only [decide_eq_true_eq] at linked ⊢
  refine grounded_of_commit h (by rw [hanchor, ha]; rfl) ?_ x.height.toNat_lt linked
  -- the new anchor is the committed block
  intro height id hnew
  obtain ⟨rfl, rfl⟩ := Prod.mk.inj (Option.some.inj (hkey.symm.trans hnew))
  rwa [hheight, hid]

end Chain

end EpochConsensus
