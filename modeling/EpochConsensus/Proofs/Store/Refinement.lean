import EpochConsensus.Proofs.Store

/-! # Arena and slots refine the chain

Every operation on the two parts of a store is the operation of its chain, with the same answers and
the same faults (`Coherent.add`, `extendsChain_chain`, `Coherent.commit`).  So the stores that can
be reached are read as exactly the chains that can be reached (`uses_refine_chain`, `exists_uses`),
and whatever holds of those chains holds of the stores.

Following the keys of the arena, a look down and a commit ask for the anchor at different points.
Both loops end at the same places, so that a commit fails exactly where the links lead nowhere
(`commit_error_iff`).
-/
namespace EpochConsensus

namespace Store

variable {s s' : Store} {b : Block} {key : BlockKey}

/-- A call of the store that answers as the chain does, and leaves the two parts together. -/
structure Refines {α : Type} (r : Except Fault (Store × α)) (d : Except Fault (Chain × α)) :
    Prop where
  same : r.map (Prod.map chain id) = d
  coherent : ∀ s a, r = .ok (s, a) → s.Coherent

theorem refines_error {α : Type} (fault : Fault) :
    Refines (.error fault : Except Fault (Store × α)) (.error fault) :=
  ⟨rfl, fun _ _ h => by cases h⟩

theorem Coherent.refines_ok {α : Type} (hs : s.Coherent) (a : α) :
    Refines (.ok (s, a)) (.ok (s.chain, a)) := by
  refine ⟨rfl, ?_⟩
  rintro s' a' ⟨⟩
  exact hs

theorem refines_bind {α : Type} {r : Except Fault Store}
    (coherent : ∀ s, r = .ok s → s.Coherent) (a : α) :
    Refines (r >>= fun s => .ok (s, a)) (r.map chain >>= fun c => .ok (c, a)) := by
  cases r with
  | error fault => exact refines_error fault
  | ok s => exact (coherent s rfl).refines_ok a

/-! ### Adding -/

namespace Coherent

/-- Claiming a slot for a new block and listing the block there is the same in the chain. -/
theorem insert_claimSlot (hs : s.Coherent) (new : s.arena.get? b.key = none) {claimed : Chain}
    (claim : claimed = s.chain.setCandidates b.height (s.chain.candidates b.height))
    {e : StoredBlock}
    (he : e = ⟨b, (s.claimSlot b.height).heldParent b, fun _ => parentKey_of_heldParent⟩) :
    ((s.claimSlot b.height).insert e).Coherent ∧
      ((s.claimSlot b.height).insert e).chain = claimed.setCandidates b.height
        (claimed.candidates b.height ++ [⟨b, b.parentKey.any claimed.holds⟩]) := by
  subst he
  obtain ⟨hclaim, hchain⟩ := hs.claimSlot b.height
  rw [claim, ← hchain, funext hclaim.holds_chain]
  have hlinked : ((s.claimSlot b.height).heldParent b).isSome =
      b.parentKey.any (s.claimSlot b.height).holds := Option.isSome_filter ..
  rw [← hlinked]
  exact hclaim.insert (takes_claimSlot s b.height) (hs.get?_claimSlot b.height new)

/-- **Adding to the two parts is adding to the chain.** -/
theorem add (hs : s.Coherent) (b : Block) : Refines (s.add b) (s.chain.add b) := by
  unfold Store.add Chain.add
  rw [hs.holds_chain, inWindow_chain]
  by_cases hrefused : (s.holds b.key || !s.inWindow b.height) = true
  · rw [if_pos hrefused, if_pos hrefused]
    exact hs.refines_ok false
  rw [if_neg hrefused, if_neg hrefused]
  have hnew : s.arena.get? b.key = none := by
    rw [← Option.not_isSome_iff_eq_none]
    exact fun hheld => hrefused (by simp [Store.holds, Arena.contains, hheld])
  obtain ⟨hadded, hchain⟩ := hs.insert_claimSlot hnew rfl rfl
  obtain ⟨hlink, hcoherent⟩ := hadded.linkSuccessors b
  show Refines _ (s.conflicts b >>= _)
  cases s.conflicts b with
  | error fault => exact refines_error fault
  | ok conflict =>
    cases conflict with
    | true => exact hs.refines_ok false
    | false =>
      rw [hchain] at hlink
      have hdone := refines_bind hcoherent true
      rw [hlink] at hdone
      exact hdone

end Coherent

/-! ### Walking down -/

theorem leadsDown_eq (s : Store) (key : BlockKey) : s.leadsDown key =
    (decide (s.anchorKey = some key) || (s.arena.get? key).any fun e =>
      e.parent.elim (s.anchor.isNone && decide (key.1 = 0)) s.leadsDown) := by
  rw [leadsDown]
  by_cases hanchor : s.anchorKey = some key
  · simp [hanchor]
  · rw [if_neg hanchor]
    split
    · rename_i he
      simp [hanchor, he]
    · rename_i e he
      split
      · rename_i parent hp
        simp [hanchor, he, hp]
      · rename_i hp
        simp [hanchor, he, hp]

theorem path_eq (s : Store) (b : Block) (key : BlockKey) : s.path b key =
    (s.arena.get? key).elim (.error (.missing b.height b.id key.1)) fun e =>
      e.parent.elim
        (if s.anchor.isNone && key.1 = 0 then .ok [e.block]
          else .error (.unlinked b.height b.id key.1))
        fun parent =>
          if s.anchorKey = some parent then .ok [e.block]
          else (s.path b parent).map (e.block :: ·) := by
  rw [path]
  split
  · rename_i he
    simp [he]
  · rename_i e he
    split
    · rename_i parent hp
      simp [he, hp]
    · rename_i hp
      simp [he, hp]

/-- **The two loops agree.**  The look down meets the anchor itself, the commit stops one block
above it, and both fail at the same blocks. -/
theorem exists_path_iff (s : Store) (b : Block) (above : s.anchorKey ≠ some key) :
    (∃ bs, s.path b key = .ok bs) ↔ s.leadsDown key = true := by
  induction hn : key.1.toNat using Nat.strong_induction_on generalizing key with
  | _ n ih =>
    rw [path_eq, leadsDown_eq]
    cases he : s.arena.get? key with
    | none => simp [above]
    | some e =>
      cases hparent : e.parent with
      | none => by_cases hfirst : s.anchor = none ∧ key.1 = 0 <;> simp [above, hparent, hfirst]
      | some parent =>
        have hlt : parent.1.toNat < key.1.toNat :=
          Arena.key_of_get? he ▸ StoredBlock.lt_of_parent hparent
        by_cases hground : s.anchorKey = some parent
        · simp [hparent, hground, leadsDown_eq s parent]
        · have hbelow := ih parent.1.toNat (hn ▸ hlt) hground rfl
          simp [above, hparent, hground, ← hbelow, map_eq_ok]

/-- A commit fails exactly where the links do not lead down. -/
theorem commit_error_iff (s : Store) (b : Block) :
    (∃ fault, s.commit b = .error fault) ↔ s.extendsChain b = false := by
  unfold commit extendsChain
  by_cases hanchor : s.anchorKey = some b.key
  · simp [hanchor, leadsDown_eq, pure, Except.pure]
  · rw [if_neg hanchor, ← Bool.not_eq_true, ← exists_path_iff s b hanchor]
    cases s.path b b.key <;> simp [bind, Except.bind, pure, Except.pure]

namespace Coherent

/-- At height zero nothing is linked. -/
theorem parent_of_zero {e : StoredBlock} {id : BlockId} (h : s.arena.get? (0, id) = some e) :
    e.parent = none := by
  rcases e.parent_cases with ⟨hnone, -⟩ | ⟨parent, -, -, -, hup⟩
  · exact hnone
  · rw [Arena.key_of_get? h] at hup
    cases hup

/-- **Going down the links is going down the chain.** -/
theorem leadsDown_chain (hs : s.Coherent) (key : BlockKey) : s.leadsDown key =
    decide ((s.chain.descend key.1.toNat key.2).footing = .grounded) := by
  induction hn : key.1.toNat generalizing key with
  | zero =>
    obtain ⟨height, id⟩ := key
    obtain rfl : height = 0 := UInt64.toNat_inj.mp hn
    rw [leadsDown_eq, Chain.descend, hs.find?_chain, anchorKey_chain]
    by_cases hanchor : s.anchorKey = some (0, id)
    · simp [hanchor]
    cases he : s.arena.get? (0, id) with
    | none => simp [hanchor]
    | some e => cases hfirst : s.anchor <;> simp [hanchor, parent_of_zero he, chain, hfirst]
  | succ n ih =>
    obtain ⟨height, id⟩ := key
    have hheight : UInt64.ofNat (n + 1) = height := by rw [← hn, UInt64.ofNat_toNat]
    have hne : height ≠ 0 := by
      rintro rfl
      cases hn
    rw [leadsDown_eq, Chain.descend]
    simp only [hheight, hs.find?_chain, anchorKey_chain]
    by_cases hanchor : s.anchorKey = some (height, id)
    · simp [hanchor]
    cases he : s.arena.get? (height, id) with
    | none => simp [hanchor]
    | some e =>
      rcases e.parent_cases with ⟨hnone, hlinked⟩ | ⟨parent, hparent, hlinked, hnames, hup⟩
      · simp [hanchor, hnone, hlinked, hne]
      · have hbelow : parent.1.toNat = n := by
          rw [Arena.key_of_get? he, hn] at hup
          exact (Nat.succ.inj hup).symm
        have hblock : e.candidate.block.parent = some parent.2 := hnames
        simp [hanchor, hparent, hlinked, hblock, ih parent hbelow]

theorem extendsChain_chain (hs : s.Coherent) (b : Block) :
    s.extendsChain b = s.chain.extendsChain b := hs.leadsDown_chain b.key

/-- The loop of a commit delivers the same along the links. -/
theorem path_chain (hs : s.Coherent) (b : Block) (key : BlockKey) :
    s.path b key = s.chain.path b key.1.toNat key.2 := by
  induction hn : key.1.toNat generalizing key with
  | zero =>
    obtain ⟨height, id⟩ := key
    obtain rfl : height = 0 := UInt64.toNat_inj.mp hn
    rw [path_eq, Chain.path, hs.find?_chain]
    cases he : s.arena.get? (0, id) with
    | none => rfl
    | some e =>
      cases hfirst : s.anchor <;> simp [parent_of_zero he, chain, hfirst, StoredBlock.candidate]
  | succ n ih =>
    obtain ⟨height, id⟩ := key
    have hheight : UInt64.ofNat (n + 1) = height := by rw [← hn, UInt64.ofNat_toNat]
    have hne : height ≠ 0 := by
      rintro rfl
      cases hn
    rw [path_eq, Chain.path]
    simp only [hheight, hs.find?_chain, anchorKey_chain]
    cases he : s.arena.get? (height, id) with
    | none => rfl
    | some e =>
      rcases e.parent_cases with ⟨hnone, hlinked⟩ | ⟨parent, hparent, hlinked, hnames, hup⟩
      · simp [hnone, hlinked, hne]
      · have hbelow : parent.1.toNat = n := by
          rw [Arena.key_of_get? he, hn] at hup
          exact (Nat.succ.inj hup).symm
        have hblock : e.candidate.block.parent = some parent.2 := hnames
        have hkey : (UInt64.ofNat n, parent.2) = parent :=
          Prod.ext (by rw [← hbelow, UInt64.ofNat_toNat]) rfl
        simp only [hparent, Option.elim_some, Option.map_some, hlinked, hblock, hkey,
          ih parent hbelow]
        rfl

/-! ### Committing -/

/-- Freeing the slots of some heights, one after the other, frees them in the chain. -/
theorem foldl_clearSlot (hs : s.Coherent) (bs : List Block) :
    (bs.foldl (fun s b => s.clearSlot (s.index b.height)) s).Coherent ∧
      (bs.foldl (fun s b => s.clearSlot (s.index b.height)) s).chain =
        bs.foldl (fun c b => c.clear b.height) s.chain := by
  induction bs generalizing s with
  | nil => exact ⟨hs, rfl⟩
  | cons b bs ih =>
    obtain ⟨hcleared, hchain⟩ := hs.clearSlot b.height
    obtain ⟨hrest, hfold⟩ := ih hcleared
    exact ⟨hrest, hfold.trans (by rw [hchain]; rfl)⟩

/-- **A commit of the two parts is a commit of the chain.** -/
theorem commit (hs : s.Coherent) (b : Block) : Refines (s.commit b) (s.chain.commit b) := by
  unfold Store.commit Chain.commit
  rw [anchorKey_chain]
  by_cases hanchor : s.anchorKey = some b.key
  · rw [if_pos hanchor, if_pos hanchor]
    exact hs.refines_ok []
  rw [if_neg hanchor, if_neg hanchor,
    ← show s.path b b.key = s.chain.path b b.height.toNat b.id from hs.path_chain b b.key]
  cases s.path b b.key with
  | error fault => exact refines_error fault
  | ok path =>
    obtain ⟨hcleared, hchain⟩ := hs.foldl_clearSlot path
    -- the invariant does not speak of the anchor
    have hmoved : ({ path.foldl (fun s b => s.clearSlot (s.index b.height)) s with
        anchor := path.head? } : Store).Coherent := { hcleared with }
    show Refines _ (.ok ({ path.foldl (fun c b => c.clear b.height) s.chain with
      anchor := path.head? }, path))
    rw [← hchain]
    exact hmoved.refines_ok path

end Coherent

/-! ### Counting -/

/-- The keys that a slot lists. -/
def listedKeys (slot : Option Listing) : List BlockKey :=
  slot.elim [] fun l => l.ids.map fun id => (l.height, id)

namespace Coherent

/-- The slots list just the keys of the arena, -/
theorem mem_listedKeys (hs : s.Coherent) :
    key ∈ s.slots.toList.flatMap listedKeys ↔ s.arena.contains key = true := by
  rw [List.mem_flatMap]
  constructor
  · rintro ⟨slot, hslot, hkey⟩
    obtain ⟨i, hi, rfl⟩ := Vector.mem_iff_getElem.mp (Vector.mem_toList_iff.mp hslot)
    cases hl : s.slots[i] with
    | none =>
      rw [hl] at hkey
      cases hkey
    | some l =>
      rw [hl] at hkey
      obtain ⟨id, hid, rfl⟩ := List.mem_map.mp hkey
      exact (hs.contains_iff (i := ⟨i, hi⟩) hl (hs.placed ⟨i, hi⟩ l hl)).mpr ⟨rfl, hid⟩
  · intro hcontains
    have hid := (hs.listed key.1 key.2).mp hcontains
    rw [ids_of_slot rfl] at hid
    cases hl : s.slots.get (s.index key.1) with
    | none => simp [hl] at hid
    | some l =>
      have hkey := (hs.contains_iff hl rfl).mp hcontains
      refine ⟨some l, Vector.mem_toList_iff.mpr (hl ▸ Vector.getElem_mem _), ?_⟩
      exact List.mem_map.mpr ⟨key.2, hkey.2, Prod.ext hkey.1 rfl⟩

/-- and none of them twice. -/
theorem nodup_listedKeys (hs : s.Coherent) : (s.slots.toList.flatMap listedKeys).Nodup := by
  refine List.nodup_flatMap.mpr ⟨fun slot hslot => ?_, List.pairwise_iff_getElem.mpr ?_⟩
  · obtain ⟨i, hi, rfl⟩ := Vector.mem_iff_getElem.mp (Vector.mem_toList_iff.mp hslot)
    cases hl : s.slots[i] with
    | none => exact .nil
    | some l => exact (hs.distinct ⟨i, hi⟩ l hl).map fun _ _ h => congrArg Prod.snd h
  · intro i j hi hj hlt key hkey hkey'
    simp only [Vector.getElem_toList, Vector.length_toList] at hi hj hkey hkey'
    cases hl : s.slots[i] with
    | none =>
      rw [hl] at hkey
      cases hkey
    | some l =>
      cases hm : s.slots[j] with
      | none =>
        rw [hm] at hkey'
        cases hkey'
      | some m =>
        rw [hl] at hkey
        rw [hm] at hkey'
        obtain ⟨id, -, rfl⟩ := List.mem_map.mp hkey
        obtain ⟨id', -, heq⟩ := List.mem_map.mp hkey'
        refine hs.height_ne (i := ⟨i, hi⟩) (j := ⟨j, hj⟩) hl hm ?_ (congrArg Prod.fst heq).symm
        exact fun h => Nat.ne_of_lt hlt (congrArg Fin.val h)

theorem length_slot (hs : s.Coherent) {i : Fin s.size} {l : Listing}
    (h : s.slots.get i = some l) : (s.arena.slot l).candidates.length = l.ids.length := by
  have hids := hs.map_id_candidates l.height
  rw [candidates_of_listing (hs.placed i l h ▸ h), hs.ids_eq h] at hids
  rw [← hids, List.length_map]

/-- The arena has as many entries as the chain has candidates. -/
theorem count_chain (hs : s.Coherent) : s.count = s.chain.count := by
  have hkeys : (s.arena.entries.map StoredBlock.key).Nodup := List.pairwise_map.mpr s.arena.distinct
  have hperm : (s.slots.toList.flatMap listedKeys).Perm (s.arena.entries.map StoredBlock.key) := by
    refine (List.perm_ext_iff_of_nodup hs.nodup_listedKeys hkeys).mpr fun key => ?_
    rw [hs.mem_listedKeys, s.arena.contains_iff_mem]
  have hlisted : ∀ slot ∈ s.slots.toList, ((slot.map s.arena.slot).elim [] (·.candidates)).length =
      (listedKeys slot).length := by
    intro slot hslot
    obtain ⟨i, hi, rfl⟩ := Vector.mem_iff_getElem.mp (Vector.mem_toList_iff.mp hslot)
    cases hl : s.slots[i] with
    | none => rfl
    | some l => exact (hs.length_slot (i := ⟨i, hi⟩) hl).trans (List.length_map ..).symm
  calc s.count
      = (s.arena.entries.map StoredBlock.key).length := (List.length_map ..).symm
    _ = (s.slots.toList.flatMap listedKeys).length := hperm.length_eq.symm
    _ = s.chain.count := by
      rw [Chain.count, chain, Vector.toList_map, List.flatMap_map, List.length_flatMap,
        List.length_flatMap, List.map_congr_left hlisted]

end Coherent

/-! ### Uses -/

/-- A use of a store that succeeds. -/
inductive Use : Store → Store → Prop
  | add {s s' : Store} {b : Block} {added : Bool} (done : s.add b = .ok (s', added)) : Use s s'
  | commit {s s' : Store} {b : Block} {bs : List Block} (done : s.commit b = .ok (s', bs)) :
      Use s s'

/-- Uses of a store, one after the other. -/
abbrev Uses : Store → Store → Prop := Relation.ReflTransGen Use

theorem coherent_empty (size : Nat) (size_pos : 0 < size) : (empty size size_pos).Coherent := by
  have hnone : ∀ i : Fin size, (empty size size_pos).slots.get i = none := by
    intro i
    exact Vector.getElem_replicate _
  refine ⟨?_, ?_, fun height id => ?_⟩
  · intro i l hl
    cases (hnone i).symm.trans hl
  · intro i l hl
    cases (hnone i).symm.trans hl
  · rw [ids_of_slot (hnone _)]
    simp [empty, Arena.empty, Arena.contains, Arena.get?]

theorem chain_empty (size : Nat) (size_pos : 0 < size) :
    (empty size size_pos).chain = .empty size size_pos := by
  simp [empty, chain, Chain.empty]

/-- Every use of a coherent store is one of its chain, and keeps it coherent. -/
theorem Use.chain (use : Use s s') (hs : s.Coherent) :
    s'.Coherent ∧ Chain.Use s.chain s'.chain := by
  cases use with
  | @add b added done =>
    have h := hs.add b
    rw [done] at h
    exact ⟨h.coherent _ _ rfl, .add h.same.symm⟩
  | @commit b bs done =>
    have h := hs.commit b
    rw [done] at h
    exact ⟨h.coherent _ _ rfl, .commit h.same.symm⟩

/-- Every use of its chain is one of a coherent store. -/
theorem Coherent.exists_use (hs : s.Coherent) {c : Chain} (use : Chain.Use s.chain c) :
    ∃ s', Use s s' ∧ s'.Coherent ∧ s'.chain = c := by
  cases use with
  | @add b added done =>
    have h := hs.add b
    rw [done] at h
    obtain ⟨⟨s', added'⟩, hdone, heq⟩ := map_eq_ok.mp h.same
    exact ⟨s', .add hdone, h.coherent _ _ hdone, congrArg Prod.fst heq⟩
  | @commit b bs done =>
    have h := hs.commit b
    rw [done] at h
    obtain ⟨⟨s', bs'⟩, hdone, heq⟩ := map_eq_ok.mp h.same
    exact ⟨s', .commit hdone, h.coherent _ _ hdone, congrArg Prod.fst heq⟩

theorem Uses.chain (uses : Uses s s') (hs : s.Coherent) :
    s'.Coherent ∧ Chain.Uses s.chain s'.chain := by
  induction uses with
  | refl => exact ⟨hs, .refl⟩
  | tail _ last ih =>
    obtain ⟨hcoherent, huse⟩ := last.chain ih.1
    exact ⟨hcoherent, ih.2.tail huse⟩

/-- **Arena and slots refine the chain.**  After any uses of a store, its two parts tell the same
story, and read as one they are a chain that the same uses lead to.  From there on, every call of
the store has the answer or the fault that the chain gives, and leaves what the chain leaves. -/
theorem uses_refine_chain {size : Nat} (size_pos : 0 < size) (uses : Uses (empty size size_pos) s) :
    s.Coherent ∧ Chain.Uses (.empty size size_pos) s.chain ∧
    (∀ b, (s.add b).map (Prod.map chain id) = s.chain.add b) ∧
    (∀ b, s.extendsChain b = s.chain.extendsChain b) ∧
    (∀ b, (s.commit b).map (Prod.map chain id) = s.chain.commit b) ∧
    (∀ height id, s.get? height id = (s.chain.find? (height, id)).map (·.block)) ∧
    (∀ height, s.candidates height = (s.chain.candidates height).map (·.block)) ∧
    (∀ height, s.inWindow height = s.chain.inWindow height) ∧
    s.count = s.chain.count := by
  obtain ⟨hs, huses⟩ := Uses.chain uses (coherent_empty size size_pos)
  rw [chain_empty] at huses
  refine ⟨hs, huses, fun b => (hs.add b).same, hs.extendsChain_chain,
    fun b => (hs.commit b).same, ?_, ?_, fun height => (inWindow_chain s height).symm,
    hs.count_chain⟩
  · intro height id
    rw [hs.find?_chain, Option.map_map]
    rfl
  · intro height
    rw [candidates_chain, List.map_filterMap]
    exact List.filterMap_congr fun id _ => by rw [Option.map_map]; rfl

/-- Every chain that uses lead to is a store with its two parts read as one. -/
theorem exists_uses {size : Nat} (size_pos : 0 < size) {c : Chain}
    (uses : Chain.Uses (.empty size size_pos) c) :
    ∃ s, Uses (empty size size_pos) s ∧ s.chain = c := by
  suffices h : ∃ s, Uses (empty size size_pos) s ∧ s.Coherent ∧ s.chain = c by
    obtain ⟨s, huses, -, hchain⟩ := h
    exact ⟨s, huses, hchain⟩
  induction uses with
  | refl => exact ⟨_, .refl, coherent_empty size size_pos, chain_empty size size_pos⟩
  | tail _ last ih =>
    obtain ⟨s, huses, hs, rfl⟩ := ih
    obtain ⟨s', huse, hs', rfl⟩ := hs.exists_use last
    exact ⟨s', huses.tail huse, hs', rfl⟩

end Store

end EpochConsensus
