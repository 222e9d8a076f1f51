import EpochConsensus.Proofs.Chain.Contents
import EpochConsensus.Store

/-! # Two parts that tell one story

A store is `Coherent` when its arena and its slots tell the same story: each slot lists one height
that belongs into it, no name twice, and the arena holds exactly what is listed.  Such a store is
read as a `Chain` (`Store.chain`) in which an entry with a predecessor is a linked candidate.

A step of the store rewrites one slot and what belongs into it in the arena, and leaves the rest
alone.  `Coherent.write` says once that this keeps the two parts together, and rewrites the same
slot of the chain; freeing a slot, claiming it, listing a new entry and linking are cases of it.
-/
namespace EpochConsensus

/-! ### The arena -/

namespace StoredBlock

/-- The entry as a candidate of the chain. -/
def candidate (e : StoredBlock) : Candidate := ⟨e.block, e.parent.isSome⟩

theorem link_link (parent : BlockKey) (e : StoredBlock) :
    (e.link parent).link parent = e.link parent := by
  by_cases h : e.parent = none ∧ e.block.parentKey = some parent
  · simp [link, h]
  · simp [link, h]

/-- A candidate is linked if its entry has a predecessor, which is the one that the block names. -/
theorem parent_cases (e : StoredBlock) : (e.parent = none ∧ e.candidate.linked = false) ∨
    ∃ parent, e.parent = some parent ∧ e.candidate.linked = true ∧
      e.block.parent = some parent.2 ∧ e.key.1.toNat = parent.1.toNat + 1 := by
  cases hparent : e.parent with
  | none => exact .inl ⟨rfl, by simp [candidate, hparent]⟩
  | some parent =>
    obtain ⟨hup, hnames⟩ := Chain.toNat_of_parentKey (e.names parent hparent)
    exact .inr ⟨parent, rfl, by simp [candidate, hparent], hnames, hup⟩

/-- An entry can be told from its candidate. -/
theorem candidate_injective {d e : StoredBlock} (h : d.candidate = e.candidate) : d = e := by
  obtain ⟨hblock, hlinked⟩ := Candidate.mk.inj h
  obtain ⟨block, parent, names⟩ := d
  obtain ⟨block', parent', names'⟩ := e
  obtain rfl : block = block' := hblock
  cases parent with
  | none =>
    cases parent' with
    | none => rfl
    | some key => cases hlinked
  | some key =>
    cases parent' with
    | none => cases hlinked
    | some key' =>
      obtain rfl : key = key' := Option.some.inj ((names key rfl).symm.trans (names' key' rfl))
      rfl

/-- One height above `b` a candidate is linked to `b` if it names it. -/
theorem candidate_link {e : StoredBlock} {b : Block}
    (above : e.block.height.toNat = b.height.toNat + 1) :
    (e.link b.key).candidate =
      if e.block.parent = some b.id then { e.candidate with linked := true } else e.candidate := by
  have hnames : e.block.parentKey = some b.key ↔ e.block.parent = some b.id := by
    have hbelow : e.block.height - 1 = b.height := UInt64.toNat_inj.mp (toNat_sub_one above)
    simp [Block.parentKey, Block.key, hbelow]
  by_cases h : e.block.parent = some b.id
  · rw [if_pos h]
    cases hparent : e.parent <;> simp [link, candidate, hparent, hnames.mpr h]
  · rw [if_neg h]
    simp [link, hnames, h]

end StoredBlock

namespace Arena

variable (a : Arena) (key k : BlockKey)

theorem get?_erase : (a.erase key).get? k = if k = key then none else a.get? k := by
  unfold erase get?
  rw [List.find?_filter]
  by_cases h : k = key
  · rw [if_pos h, h]
    simp
  · rw [if_neg h]
    congr 1
    funext e
    by_cases he : e.key = k <;> simp [he, h]

theorem get?_insert (e : StoredBlock) :
    (a.insert e).get? k = if k = e.key then some e else a.get? k := by
  unfold insert get?
  by_cases h : k = e.key
  · simp [h]
  · rw [if_neg h, List.find?_cons_of_neg (by simpa using Ne.symm h)]
    exact (a.get?_erase e.key k).trans (if_neg h)

theorem contains_insert (e : StoredBlock) :
    (a.insert e).contains k = true ↔ k = e.key ∨ a.contains k = true := by
  rw [contains, get?_insert]
  by_cases h : k = e.key
  · simp [h]
  · simp [h, contains]

theorem contains_iff_mem : a.contains k = true ↔ k ∈ a.entries.map StoredBlock.key := by
  simp [contains, get?, List.find?_isSome, List.mem_map]

theorem get?_link (parent : BlockKey) : (a.link key parent).get? k =
    (a.get? k).map fun e => if k = key then e.link parent else e := by
  unfold link get?
  have hkeys : ((fun e : StoredBlock => e.key == k) ∘
      fun e => if e.key = key then e.link parent else e) = fun e => e.key == k := by
    funext e
    by_cases he : e.key = key <;> simp [he]
  rw [List.find?_map, hkeys]
  cases hfind : a.entries.find? fun e => e.key == k with
  | none => rfl
  | some e => simp [key_of_get? hfind]

variable (height : Height) (ids : List BlockId)

theorem get?_foldl_erase : (ids.foldl (fun a id => a.erase (height, id)) a).get? k =
    if k.1 = height ∧ k.2 ∈ ids then none else a.get? k := by
  induction ids generalizing a with
  | nil => simp
  | cons id ids ih =>
    rw [List.foldl_cons, ih, get?_erase]
    by_cases hid : k = (height, id)
    · simp [hid]
    · have hne : ¬ (k.1 = height ∧ k.2 = id) := fun h => hid (Prod.ext h.1 h.2)
      grind

theorem get?_foldl_link (parent : BlockKey) :
    (ids.foldl (fun a id => a.link (height, id) parent) a).get? k =
      (a.get? k).map fun e => if k.1 = height ∧ k.2 ∈ ids then e.link parent else e := by
  induction ids generalizing a with
  | nil => simp
  | cons id ids ih =>
    rw [List.foldl_cons, ih, get?_link, Option.map_map]
    congr 1
    funext e
    by_cases hid : k = (height, id)
    · simp [hid, StoredBlock.link_link]
    · have hne : ¬ (k.1 = height ∧ k.2 = id) := fun h => hid (Prod.ext h.1 h.2)
      grind

/-- The candidates of a listing. -/
def slot (l : Listing) : Slot :=
  ⟨l.height, l.ids.filterMap fun id => (a.get? (l.height, id)).map StoredBlock.candidate⟩

/-- A new entry is the last candidate of its listing. -/
theorem slot_insert {e : StoredBlock} {ids : List BlockId} (fresh : e.block.id ∉ ids) :
    (a.insert e).slot ⟨e.block.height, ids ++ [e.block.id]⟩ =
      ⟨e.block.height, (a.slot ⟨e.block.height, ids⟩).candidates ++ [e.candidate]⟩ := by
  have hold : ∀ id ∈ ids, ((a.insert e).get? (e.block.height, id)).map StoredBlock.candidate =
      (a.get? (e.block.height, id)).map StoredBlock.candidate := by
    intro id hid
    rw [get?_insert, if_neg]
    intro hkey
    have hname : id = e.block.id := congrArg Prod.snd hkey
    exact fresh (hname ▸ hid)
  have hnew : (a.insert e).get? (e.block.height, e.block.id) = some e := by
    rw [get?_insert]
    exact if_pos rfl
  unfold slot
  rw [List.filterMap_append, List.filterMap_congr hold]
  simp [hnew]

/-- Linking goes through a listing candidate by candidate. -/
theorem slot_foldl_link {b : Block} {height : Height} (ids : List BlockId)
    (above : height.toNat = b.height.toNat + 1) :
    (ids.foldl (fun a id => a.link (height, id) b.key) a).slot ⟨height, ids⟩ =
      ⟨height, (a.slot ⟨height, ids⟩).candidates.map fun e =>
        if e.block.parent = some b.id then { e with linked := true } else e⟩ := by
  have hlink : ∀ id ∈ ids,
      ((ids.foldl (fun a id => a.link (height, id) b.key) a).get? (height, id)).map
        StoredBlock.candidate = ((a.get? (height, id)).map StoredBlock.candidate).map fun e =>
          if e.block.parent = some b.id then { e with linked := true } else e := by
    intro id hid
    rw [get?_foldl_link]
    cases he : a.get? (height, id) with
    | none => rfl
    | some e =>
      have hheight : e.block.height = height := congrArg Prod.fst (key_of_get? he)
      simp [hid, StoredBlock.candidate_link (hheight ▸ above)]
      rfl
  unfold slot
  rw [List.filterMap_congr hlink, List.map_filterMap]

/-- A slot is the same wherever its candidates are. -/
theorem slot_congr {a a' : Arena} {l : Listing}
    (same : ∀ id ∈ l.ids, a'.get? (l.height, id) = a.get? (l.height, id)) :
    a'.slot l = a.slot l := by
  unfold slot
  rw [List.filterMap_congr fun id hid => by rw [same id hid]]

end Arena

namespace Store

/-- The store with its two parts read as one. -/
def chain (s : Store) : Chain :=
  ⟨s.size, s.size_pos, s.slots.map (Option.map s.arena.slot), s.anchor⟩

/-- Arena and slots tell the same story. -/
structure Coherent (s : Store) : Prop where
  placed : ∀ i l, s.slots.get i = some l → s.index l.height = i
  distinct : ∀ i l, s.slots.get i = some l → l.ids.Nodup
  listed : ∀ height id, s.arena.contains (height, id) = true ↔ id ∈ s.ids height

variable {s s' : Store} {b : Block} {height k : Height} {key : BlockKey}

/-! ### What is held -/

/-- The names listed for a height are those of its slot, if that is taken for the height. -/
theorem ids_of_slot {slot : Option Listing} (h : s.slots.get (s.index k) = slot) :
    s.ids k = slot.elim [] fun l => if l.height = k then l.ids else [] := by
  unfold ids
  rw [h]
  cases slot <;> rfl

theorem get_chain_slots (s : Store) (i : Fin s.size) :
    s.chain.slots.get i = (s.slots.get i).map s.arena.slot :=
  Vector.getElem_map ..

theorem candidates_of_listing {l : Listing} (h : s.slots.get (s.index l.height) = some l) :
    s.chain.candidates l.height = (s.arena.slot l).candidates := by
  rw [Chain.candidates_of_slot (s.get_chain_slots (s.index l.height)), h]
  exact if_pos rfl

theorem candidates_chain (s : Store) (k : Height) : s.chain.candidates k =
    (s.ids k).filterMap fun id => (s.arena.get? (k, id)).map StoredBlock.candidate := by
  rw [Chain.candidates_of_slot (s.get_chain_slots (s.index k)), ids_of_slot rfl]
  cases s.slots.get (s.index k) with
  | none => rfl
  | some l =>
    by_cases h : l.height = k
    · subst h
      simp [Arena.slot]
    · simp [Arena.slot, h]

namespace Coherent

theorem ids_eq (hs : s.Coherent) {i : Fin s.size} {l : Listing} (h : s.slots.get i = some l) :
    s.ids l.height = l.ids := by
  rw [ids_of_slot (hs.placed i l h ▸ h)]
  simp

/-- What belongs into a slot is stored if the slot lists it. -/
theorem contains_iff (hs : s.Coherent) {i : Fin s.size} {l : Listing}
    (h : s.slots.get i = some l) (hi : s.index key.1 = i) :
    s.arena.contains key = true ↔ l.height = key.1 ∧ key.2 ∈ l.ids := by
  rw [hs.listed key.1 key.2, ids_of_slot (hi ▸ h)]
  by_cases hheight : l.height = key.1 <;> simp [hheight]

theorem exists_entry (hs : s.Coherent) {id : BlockId} (h : id ∈ s.ids k) :
    ∃ e, s.arena.get? (k, id) = some e :=
  Option.isSome_iff_exists.mp ((hs.listed k id).mpr h)

theorem get?_eq_none (hs : s.Coherent) (h : key.2 ∉ s.ids key.1) : s.arena.get? key = none := by
  rw [← Option.not_isSome_iff_eq_none]
  exact fun hsome => h ((hs.listed key.1 key.2).mp hsome)

/-- The chain has the names in the order in which they are listed. -/
theorem map_id_candidates (hs : s.Coherent) (k : Height) :
    (s.chain.candidates k).map (·.block.id) = s.ids k := by
  have hfound : ∀ id ∈ s.ids k,
      ((s.arena.get? (k, id)).map StoredBlock.candidate).map (·.block.id) = some id := by
    intro id hid
    obtain ⟨e, he⟩ := hs.exists_entry hid
    rw [he]
    exact congrArg some (congrArg Prod.snd (Arena.key_of_get? he))
  rw [candidates_chain, List.map_filterMap, List.filterMap_congr hfound, List.filterMap_some]

/-- A candidate is found in the chain where the arena holds it. -/
theorem find?_chain (hs : s.Coherent) (key : BlockKey) :
    s.chain.find? key = (s.arena.get? key).map StoredBlock.candidate := by
  have hmem : ∀ d, d ∈ s.chain.candidates key.1 ∧ d.block.id = key.2 ↔
      ∃ e, s.arena.get? key = some e ∧ e.candidate = d := by
    intro d
    rw [candidates_chain, List.mem_filterMap]
    constructor
    · rintro ⟨⟨id, -, hd⟩, hid⟩
      obtain ⟨e, he, rfl⟩ := Option.map_eq_some_iff.mp hd
      have hkey : e.key = (key.1, id) := Arena.key_of_get? he
      obtain rfl : id = key.2 := (congrArg Prod.snd hkey).symm.trans hid
      exact ⟨e, he, rfl⟩
    · rintro ⟨e, he, rfl⟩
      have hkey : e.key = key := Arena.key_of_get? he
      refine ⟨⟨key.2, (hs.listed key.1 key.2).mp ?_, by rw [he]; rfl⟩, congrArg Prod.snd hkey⟩
      rw [Arena.contains, he]
      rfl
  cases hfind : s.chain.find? key with
  | none =>
    cases he : s.arena.get? key with
    | none => rfl
    | some e =>
      obtain ⟨hd, hid⟩ := (hmem e.candidate).mpr ⟨e, he, rfl⟩
      have hnone := List.find?_eq_none.mp hfind _ hd
      simp [hid] at hnone
  | some d =>
    have hid : d.block.id = key.2 := by simpa using List.find?_some hfind
    obtain ⟨e, he, rfl⟩ := (hmem d).mp ⟨List.mem_of_find?_eq_some hfind, hid⟩
    rw [he]
    rfl

theorem holds_chain (hs : s.Coherent) (key : BlockKey) : s.chain.holds key = s.holds key := by
  rw [Chain.holds, hs.find?_chain, Option.isSome_map]
  rfl

end Coherent

theorem anchorKey_chain (s : Store) : s.chain.anchorKey = s.anchorKey := rfl

theorem inWindow_chain (s : Store) (height : Height) :
    s.chain.inWindow height = s.inWindow height := by
  unfold Chain.inWindow inWindow
  cases hanchor : s.anchor with
  | none => simp [chain, hanchor]
  | some a =>
    simp only [chain, hanchor]
    by_cases h : a.height < height
    · rw [UInt64.toNat_sub_of_le _ _ (UInt64.le_of_lt h)]
    · simp [h]

/-! ### Slots -/

namespace Coherent

/-- Different slots list different heights. -/
theorem height_ne (hs : s.Coherent) {i j : Fin s.size} {l m : Listing}
    (hl : s.slots.get i = some l) (hm : s.slots.get j = some m) (h : i ≠ j) :
    l.height ≠ m.height := by
  intro heq
  exact h ((hs.placed i l hl).symm.trans (heq ▸ hs.placed j m hm))

/-- What a slot lists is all that belongs into it. -/
theorem get?_drop (hs : s.Coherent) (i : Fin s.size) (key : BlockKey) :
    (s.arena.drop (s.slots.get i)).get? key =
      if s.index key.1 = i then none else s.arena.get? key := by
  unfold Arena.drop
  cases hslot : s.slots.get i with
  | none =>
    by_cases hi : s.index key.1 = i
    · rw [if_pos hi]
      exact hs.get?_eq_none (by simp [ids_of_slot (hi ▸ hslot)])
    · rw [if_neg hi]
  | some l =>
    simp only [Arena.get?_foldl_erase]
    by_cases hi : s.index key.1 = i
    · rw [if_pos hi]
      by_cases herased : key.1 = l.height ∧ key.2 ∈ l.ids
      · rw [if_pos herased]
      · rw [if_neg herased]
        refine hs.get?_eq_none fun hlisted => ?_
        rw [ids_of_slot (hi ▸ hslot)] at hlisted
        by_cases hheight : l.height = key.1
        · exact herased ⟨hheight.symm, by simpa [hheight] using hlisted⟩
        · simp [hheight] at hlisted
    · have hheight : key.1 ≠ l.height := fun h => hi (h ▸ hs.placed i l hslot)
      rw [if_neg hi, if_neg fun h => hheight h.1]

end Coherent

theorem get_write (s : Store) (i : Fin s.size) (slot : Option Listing) (a : Arena)
    (j : Fin s.size) : (s.write i slot a).slots.get j = if j = i then slot else s.slots.get j :=
  get_set ..

theorem ids_write (s : Store) (i : Fin s.size) (slot : Option Listing) (a : Arena) (k : Height) :
    (s.write i slot a).ids k =
      if s.index k = i then slot.elim [] fun l => if l.height = k then l.ids else []
      else s.ids k := by
  have hslot := s.get_write i slot a (s.index k)
  by_cases h : s.index k = i
  · rw [if_pos h] at hslot ⊢
    exact ids_of_slot hslot
  · rw [if_neg h] at hslot ⊢
    exact (ids_of_slot hslot).trans (ids_of_slot rfl).symm

/-- Where an arena differs from that of the store at the keys of one slot only, the other slots read
as before. -/
theorem Coherent.map_slot_set (hs : s.Coherent) {i : Fin s.size} (slot : Option Listing) {a : Arena}
    (elsewhere : ∀ key, s.index key.1 ≠ i → a.get? key = s.arena.get? key) :
    (s.slots.set i.val slot i.isLt).map (Option.map a.slot) =
      (s.slots.map (Option.map s.arena.slot)).set i.val (slot.map a.slot) i.isLt := by
  refine Vector.ext fun j hj => ?_
  rw [Vector.map_set, Vector.getElem_set, Vector.getElem_set]
  split
  · rfl
  · rename_i hne
    rw [Vector.getElem_map, Vector.getElem_map]
    cases hl : s.slots[j] with
    | none => rfl
    | some l =>
      have hplaced := hs.placed ⟨j, hj⟩ l hl
      refine congrArg some (Arena.slot_congr fun id _ => elsewhere (l.height, id) ?_)
      rw [hplaced]
      exact fun h => hne (congrArg Fin.val h).symm

/-- A slot and what belongs into it may be written together. -/
theorem Coherent.write (hs : s.Coherent) (i : Fin s.size) (slot : Option Listing) (a : Arena)
    (placed : ∀ l ∈ slot, s.index l.height = i ∧ l.ids.Nodup)
    (here : ∀ key, s.index key.1 = i →
      (a.contains key = true ↔ ∃ l ∈ slot, l.height = key.1 ∧ key.2 ∈ l.ids))
    (elsewhere : ∀ key, s.index key.1 ≠ i → a.get? key = s.arena.get? key) :
    (s.write i slot a).Coherent ∧ (s.write i slot a).chain =
      { s.chain with slots := s.chain.slots.set i.val (slot.map a.slot) i.isLt } := by
  have hslot : ∀ (j : Fin s.size) l, (s.write i slot a).slots.get j = some l →
      (j = i ∧ l ∈ slot) ∨ (j ≠ i ∧ s.slots.get j = some l) := by
    intro j l hl
    rw [get_write] at hl
    by_cases hj : j = i
    · exact .inl ⟨hj, by rwa [if_pos hj] at hl⟩
    · exact .inr ⟨hj, by rwa [if_neg hj] at hl⟩
  refine ⟨⟨fun j l hl => ?_, fun j l hl => ?_, fun height id => ?_⟩, ?_⟩
  · rcases hslot j l hl with ⟨hj, hnew⟩ | ⟨-, hold⟩
    · exact (placed l hnew).1.trans hj.symm
    · exact hs.placed j l hold
  · rcases hslot j l hl with ⟨-, hnew⟩ | ⟨-, hold⟩
    · exact (placed l hnew).2
    · exact hs.distinct j l hold
  · show a.contains (height, id) = true ↔ _
    rw [ids_write]
    by_cases hi : s.index height = i
    · rw [if_pos hi, here (height, id) hi]
      cases slot with
      | none => simp
      | some l => by_cases hheight : l.height = height <;> simp [hheight]
    · rw [if_neg hi, Arena.contains, elsewhere (height, id) hi]
      exact hs.listed height id
  · exact congrArg (fun slots => ({ s.chain with slots := slots } : Chain))
      (hs.map_slot_set slot elsewhere)

/-- Freeing a slot of the store frees it in the chain. -/
theorem Coherent.clearSlot (hs : s.Coherent) (height : Height) :
    (s.clearSlot (s.index height)).Coherent ∧
      (s.clearSlot (s.index height)).chain = s.chain.clear height := by
  have hget := hs.get?_drop (s.index height)
  refine hs.write _ none _ (by simp) (fun key hi => ?_) fun key hi => ?_
  · rw [Arena.contains, hget key, if_pos hi]
    simp
  · rw [hget key, if_neg hi]

/-- The slot of a height is taken for that height. -/
def Takes (s : Store) (height : Height) : Prop :=
  ∃ l, s.slots.get (s.index height) = some l ∧ l.height = height

theorem ids_of_not_takes (h : ¬ s.Takes height) : s.ids height = [] := by
  rw [ids_of_slot rfl]
  cases hl : s.slots.get (s.index height) with
  | none => rfl
  | some l => exact if_neg fun hheight => h ⟨l, hl, hheight⟩

theorem claimSlot_of_takes (h : s.Takes height) : s.claimSlot height = s := by
  obtain ⟨l, hl, hheight⟩ := h
  simp [claimSlot, hl, hheight]

theorem claimSlot_of_not_takes (h : ¬ s.Takes height) : s.claimSlot height =
    s.write (s.index height) (some ⟨height, []⟩) (s.arena.drop (s.slots.get (s.index height))) := by
  have hany : (s.slots.get (s.index height)).any (·.height = height) = false := by
    rw [Bool.eq_false_iff]
    intro hany
    obtain ⟨l, hl, hheight⟩ := (Option.any_eq_true _ _).mp hany
    exact h ⟨l, hl, of_decide_eq_true hheight⟩
  rw [claimSlot, hany]
  rfl

theorem takes_claimSlot (s : Store) (height : Height) : (s.claimSlot height).Takes height := by
  by_cases h : s.Takes height
  · rwa [claimSlot_of_takes h]
  · rw [claimSlot_of_not_takes h]
    exact ⟨_, (get_write ..).trans (if_pos rfl), rfl⟩

/-- In a slot that is taken for its height stands what the store has there. -/
theorem get_chain_slots_of_takes (h : s.Takes height) :
    s.chain.slots.get (s.index height) = some ⟨height, s.chain.candidates height⟩ := by
  obtain ⟨l, hl, rfl⟩ := h
  rw [get_chain_slots, hl, candidates_chain, ids_of_slot hl]
  simp [Arena.slot]

theorem setCandidates_of_takes (h : s.Takes height) :
    s.chain.setCandidates height (s.chain.candidates height) = s.chain := by
  have hslots : s.chain.slots.set (s.index height).val
      (some ⟨height, s.chain.candidates height⟩) (s.index height).isLt = s.chain.slots := by
    rw [← get_chain_slots_of_takes h]
    exact Vector.set_getElem_self _
  exact congrArg (fun slots => ({ s.chain with slots := slots } : Chain)) hslots

namespace Coherent

/-- A slot is taken over by a height of which nothing is stored in it. -/
theorem claimSlot (hs : s.Coherent) (height : Height) :
    (s.claimSlot height).Coherent ∧ (s.claimSlot height).chain =
      s.chain.setCandidates height (s.chain.candidates height) := by
  by_cases h : s.Takes height
  · rw [claimSlot_of_takes h]
    exact ⟨hs, (setCandidates_of_takes h).symm⟩
  · have hget := hs.get?_drop (s.index height)
    rw [claimSlot_of_not_takes h, candidates_chain, ids_of_not_takes h]
    refine hs.write _ (some ⟨height, []⟩) _ ?_ (fun key hi => ?_) fun key hi => ?_
    · rintro l ⟨⟩
      exact ⟨rfl, .nil⟩
    · rw [Arena.contains, hget key, if_pos hi]
      simp
    · rw [hget key, if_neg hi]

/-- Taking a slot over adds no candidate. -/
theorem get?_claimSlot (hs : s.Coherent) (height : Height) (h : s.arena.get? key = none) :
    (s.claimSlot height).arena.get? key = none := by
  by_cases htakes : s.Takes height
  · rwa [claimSlot_of_takes htakes]
  · rw [claimSlot_of_not_takes htakes]
    refine (hs.get?_drop (s.index height) key).trans ?_
    rw [h, ite_self]

/-- A new entry is the last candidate of its height. -/
theorem insert (hs : s.Coherent) {e : StoredBlock} (takes : s.Takes e.block.height)
    (new : s.arena.get? e.key = none) :
    (s.insert e).Coherent ∧ (s.insert e).chain = s.chain.setCandidates e.block.height
      (s.chain.candidates e.block.height ++ [e.candidate]) := by
  obtain ⟨⟨height, ids⟩, hl, hheight⟩ := takes
  obtain rfl : height = e.block.height := hheight
  have hids : s.ids e.block.height = ids := hs.ids_eq hl
  have hfresh : e.block.id ∉ ids := by
    intro hid
    obtain ⟨d, hd⟩ := hs.exists_entry (hids.symm ▸ hid)
    exact absurd (hd.symm.trans new) (by simp)
  have hinsert : s.insert e = s.write (s.index e.block.height)
      (some ⟨e.block.height, ids ++ [e.block.id]⟩) (s.arena.insert e) := by
    simp only [Store.insert, hl]
    rfl
  have hcandidates := candidates_of_listing (s := s) (l := ⟨e.block.height, ids⟩) hl
  rw [hinsert, show s.chain.candidates e.block.height = _ from hcandidates]
  have hwrite := hs.write (s.index e.block.height) (some ⟨e.block.height, ids ++ [e.block.id]⟩)
    (s.arena.insert e) ?_ (fun key hi => ?_) fun key hi => ?_
  · rwa [Option.map_some, Arena.slot_insert _ hfresh] at hwrite
  · rintro m ⟨⟩
    refine ⟨rfl, List.nodup_append.mpr ⟨hs.distinct _ _ hl, by simp, ?_⟩⟩
    rintro id hid _ hlast rfl
    exact hfresh (List.mem_singleton.mp hlast ▸ hid)
  · have hold := hs.contains_iff hl hi
    have hkey : key = e.key ↔ e.block.height = key.1 ∧ key.2 = e.block.id :=
      Prod.ext_iff.trans (and_congr_left' eq_comm)
    simp [Arena.contains_insert, hold, hkey, ← and_or_left, or_comm]
  · rw [Arena.get?_insert, if_neg]
    rintro rfl
    exact hi rfl

/-- Linking what is listed one height above `b` links it in the chain. -/
theorem linkListed (hs : s.Coherent) (above : height.toNat = b.height.toNat + 1)
    (takes : s.Takes height) : (s.linkListed height b.key).Coherent ∧
      (s.linkListed height b.key).chain = s.chain.setCandidates height
        ((s.chain.candidates height).map fun e =>
          if e.block.parent = some b.id then { e with linked := true } else e) := by
  obtain ⟨⟨height, ids⟩, hl, rfl⟩ := takes
  have hset : s.slots.set (s.index height).val (some ⟨height, ids⟩) (s.index height).isLt =
      s.slots := by
    rw [← show s.slots.get (s.index height) = some ⟨height, ids⟩ from hl]
    exact Vector.set_getElem_self _
  have hlink : s.linkListed height b.key = s.write (s.index height) (some ⟨height, ids⟩)
      (ids.foldl (fun a id => a.link (height, id) b.key) s.arena) := by
    rw [Store.linkListed, Store.write, hset, show s.ids height = ids from hs.ids_eq hl]
  have hcandidates := candidates_of_listing (s := s) (l := ⟨height, ids⟩) hl
  rw [hlink, show s.chain.candidates height = _ from hcandidates]
  have hwrite := hs.write (s.index height) (some ⟨height, ids⟩)
    (ids.foldl (fun a id => a.link (height, id) b.key) s.arena) ?_ (fun key hi => ?_)
    fun key hi => ?_
  · rwa [Option.map_some, Arena.slot_foldl_link _ _ above] at hwrite
  · rintro m ⟨⟩
    exact ⟨rfl, hs.distinct _ _ hl⟩
  · rw [Arena.contains, Arena.get?_foldl_link, Option.isSome_map]
    simpa [Arena.contains] using hs.contains_iff hl hi
  · have hne : key.1 ≠ height := fun h => hi (congrArg s.index h)
    simp [Arena.get?_foldl_link, hne]

/-- Linking goes through the listing of one height and reaches just the candidates there. -/
theorem linkSuccessors (hs : s.Coherent) (b : Block) :
    (s.linkSuccessors b.key).map chain = s.chain.linkSuccessors b ∧
      ∀ s', s.linkSuccessors b.key = .ok s' → s'.Coherent := by
  unfold Store.linkSuccessors Chain.linkSuccessors
  cases hnext : successor b.height with
  | error fault => simp [Block.key, hnext, bind, Except.bind, Except.map]
  | ok next =>
    simp only [show b.key.1 = b.height from rfl, hnext, bind, Except.bind, pure, Except.pure,
      Except.map]
    by_cases htakes : s.Takes next
    · obtain ⟨hcoherent, hchain⟩ := hs.linkListed (toNat_of_successor hnext) htakes
      refine ⟨?_, by rintro _ ⟨⟩; exact hcoherent⟩
      rw [hchain]
      cases hcandidates : s.chain.candidates next with
      | nil =>
        have hsame := setCandidates_of_takes htakes
        rw [hcandidates] at hsame
        exact congrArg Except.ok hsame
      | cons e es => rfl
    · have hnone : s.linkListed next b.key = s := by
        rw [Store.linkListed, ids_of_not_takes htakes]
        rfl
      rw [hnone, candidates_chain, ids_of_not_takes htakes]
      exact ⟨rfl, by rintro _ ⟨⟩; exact hs⟩

end Coherent

end Store

end EpochConsensus
