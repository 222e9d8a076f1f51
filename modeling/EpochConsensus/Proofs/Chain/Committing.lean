import EpochConsensus.Proofs.Chain.Contents

/-! # What a commit delivers and what it leaves

A commit walks down from the block to the ground, delivers the blocks it passes, drops the
candidates at their heights and moves the anchor up.  The candidates that stay may have been linked
through a block that is gone.  `Leads` names the path that counts then: a block extends the chain
after the commit exactly when its stored predecessors led through the committed block before it
(`Tidy.extendsChain_commit`).  Everything that a commit does to a store is `Commits`
(`Tidy.commits`).
-/
namespace EpochConsensus

/-! ### Paths and the ground -/

/-- There is a way from a key down to `low`, from each stored block to the predecessor it names. -/
inductive Leads (stores : Block → Prop) (low : BlockKey) : BlockKey → Prop
  | here : Leads stores low low
  | step {x : Block} {key : BlockKey} (stored : stores x) (names : x.parentKey = some key)
      (below : Leads stores low key) : Leads stores low x.key

/-- A block lies on the ground: directly on the anchor, or before the first commit at height
zero. -/
def Grounds (anchor : Option Block) (b : Block) : Prop :=
  match anchor with
  | some a => a.Follows b
  | none => b.height = 0

namespace Leads

variable {stores stores' : Block → Prop} {low key : BlockKey}

/-- A path goes down. -/
theorem le (h : Leads stores low key) : low.1.toNat ≤ key.1.toNat := by
  induction h with
  | here => exact Nat.le_refl _
  | @step x key stored names below ih =>
    have hup := (Chain.toNat_of_parentKey names).1
    show low.1.toNat ≤ x.height.toNat
    omega

/-- Only blocks above the lower end are needed on the way. -/
theorem mono (h : Leads stores low key)
    (stored : ∀ x, stores x → low.1.toNat < x.height.toNat → stores' x) :
    Leads stores' low key := by
  induction h with
  | here => exact .here
  | @step x key hx names below ih =>
    have hle := below.le
    have hup := (Chain.toNat_of_parentKey names).1
    exact .step (stored x hx (by omega)) names ih

end Leads

namespace Chain

variable {c c' : Chain} {low key : BlockKey} {n : Nat} {id : BlockId} {b x : Block}
  {bs : List Block}

/-! ### Paths through a block -/

/-- A walk down to the anchor leads there. -/
theorem Descends.leads (h : c.Descends n id bs) (anchor : c.anchorKey = some low)
    (height : key.1.toNat = n) (name : key.2 = id) : Leads c.Stores low key := by
  induction h generalizing key with
  | @anchor a ha =>
    rw [anchorKey, ha] at anchor
    obtain rfl : a.key = low := Option.some.inj anchor
    obtain rfl : key = a.key := Prod.ext (UInt64.toNat_inj.mp height) name
    exact .here
  | root first stored hzero =>
    rw [anchorKey, first] at anchor
    cases anchor
  | @step x n parent bs stored hup names below ih =>
    obtain rfl : key = x.key := Prod.ext (UInt64.toNat_inj.mp (height.trans hup.symm)) name
    have hparent : x.parentKey = some (x.height - 1, parent) := by
      rw [Block.parentKey, names]
      rfl
    exact .step stored hparent (ih (toNat_sub_one hup) rfl)

/-- Where the anchor is led to, a walk goes down to it. -/
theorem descends_of_leads (h : Leads c.Stores low key) (anchor : c.anchorKey = some low) :
    ∃ bs, c.Descends key.1.toNat key.2 bs := by
  induction h with
  | here => exact ⟨[], descends_anchor anchor⟩
  | @step x key stored names below ih =>
    obtain ⟨bs, hbelow⟩ := ih
    obtain ⟨hup, hparent⟩ := toNat_of_parentKey names
    exact ⟨x :: bs, show c.Descends x.height.toNat x.id (x :: bs) from
      hup ▸ .step stored hup hparent hbelow⟩

/-- Above an anchor a block extends the committed chain exactly when the store leads from it to the
anchor. -/
theorem Tidy.extendsChain_iff_leads (hc : c.Tidy) (anchor : c.anchorKey = some low) :
    c.extendsChain x = true ↔ Leads c.Stores low x.key := by
  rw [hc.extendsChain_iff]
  constructor
  · rintro ⟨bs, hwalk⟩
    exact hwalk.leads anchor rfl rfl
  · intro h
    exact descends_of_leads h anchor

/-- After a commit exactly those blocks extend the chain whose stored predecessors led through the
committed block. -/
theorem Tidy.extendsChain_commit (hc : c.Tidy) (h : c.commit b = .ok (c', bs)) :
    c'.extendsChain x = true ↔ Leads c.Stores b.key x.key := by
  rw [(hc.commit h).extendsChain_iff_leads (hc.anchorKey_commit h)]
  constructor
  · intro hleads
    exact hleads.mono fun y hy _ => ((hc.stores_commit h).mp hy).1
  · intro hleads
    exact hleads.mono fun y hy hlow => (hc.stores_commit h).mpr ⟨hy, hlow⟩

/-! ### The blocks of a walk -/

/-- Every block that a walk passes follows the next one. -/
theorem Descends.isChain (h : c.Descends n id bs) :
    bs.IsChain fun upper lower => lower.Follows upper := by
  induction h with
  | anchor => exact .nil
  | root => exact .singleton _
  | @step x n parent bs stored height names below ih =>
    refine List.isChain_cons.mpr ⟨?_, ih⟩
    intro lower hlower
    obtain ⟨hheight, hid⟩ := below.head hlower
    exact ⟨by rw [height, hheight], by rw [names, hid]⟩

/-- The lowest block that a walk passes lies on the ground. -/
theorem Descends.lowest (h : c.Descends n id bs) (hx : x ∈ bs.getLast?) : Grounds c.anchor x := by
  induction h with
  | anchor => cases hx
  | @root y first stored height =>
    obtain rfl : y = x := by simpa using hx
    rw [first]
    exact height
  | @step y n parent bs stored height names below ih =>
    cases bs with
    | cons z zs =>
      rw [List.getLast?_cons_cons] at hx
      exact ih hx
    | nil =>
      obtain rfl : y = x := by simpa using hx
      -- nothing is passed below, so the walk is at the anchor
      cases below with
      | @anchor a ha =>
        rw [ha]
        exact ⟨height, names⟩

/-! ### Commits -/

/-- What a commit of `b` delivers (`bs`, highest first) and what it makes of the store. -/
structure Commits (c : Chain) (b : Block) (c' : Chain) (bs : List Block) : Prop where
  /-- The highest block delivered is the one that is named like `b`, and is the anchor now. -/
  newest : ∃ a, bs.head? = some a ∧ a.key = b.key ∧ c'.anchor = some a
  stored : ∀ x ∈ bs, c.Stores x
  descending : bs.IsChain fun upper lower => lower.Follows upper
  lowest : ∀ x ∈ bs.getLast?, Grounds c.anchor x
  /-- What is not above the committed block is dropped, and nothing else. -/
  candidates : ∀ k, c'.candidates k = if k.toNat ≤ b.height.toNat then [] else c.candidates k
  /-- A block extends the chain now if its stored predecessors led through `b`. -/
  links : ∀ x, c'.extendsChain x = true ↔ Leads c.Stores b.key x.key
  size : c'.size = c.size

/-- **A commit does what it should**, and nothing else. -/
theorem Tidy.commits (hc : c.Tidy) (new : c.anchorKey ≠ some b.key)
    (h : c.commit b = .ok (c', bs)) : c.Commits b c' bs := by
  rcases commit_cases hc.neat.levelled h with ⟨-, -, hanchor⟩ | ⟨hwalk, hne, hanchor, -⟩
  · exact absurd hanchor new
  obtain ⟨a, ha⟩ := Option.isSome_iff_exists.mp (List.isSome_head?.mpr hne)
  obtain ⟨hheight, hid⟩ := hwalk.head ha
  have hkey : a.key = b.key := Prod.ext (UInt64.toNat_inj.mp hheight) hid
  exact {
    newest := ⟨a, ha, hkey, hanchor.trans ha⟩
    stored := fun x hx => (hwalk.stored hx).1
    descending := hwalk.isChain
    lowest := fun x hx => hwalk.lowest hx
    candidates := hc.candidates_commit h
    links := fun x => hc.extendsChain_commit h
    size := ((Use.commit h).tidy hc).2 }

/-! ### A fork -/

/-- The store with these blocks added, one after the other. -/
def addAll (c : Chain) : List Block → Except Fault Chain
  | [] => .ok c
  | b :: bs => do
    let (c, _) ← c.add b
    addAll c bs

theorem uses_addAll (h : c.addAll bs = .ok c') : Uses c c' := by
  induction bs generalizing c with
  | nil =>
    cases h
    exact .refl
  | cons b bs ih =>
    obtain ⟨⟨d, added⟩, hadd, hrest⟩ := bind_eq_ok.mp h
    exact .head (.add hadd) (ih hrest)

/-- Another block in the place of `b`. -/
def besides (b : Block) (value : Bytes) : Block := .ofFields b.height b.parent value b.rooted

def sideBlock : Block := besides leafBlock [3]

def tipBlock : Block := .ofFields 2 (some leafBlock.id) [4] (by simp)

def sideTipBlock : Block := .ofFields 2 (some sideBlock.id) [5] (by simp)

end Chain

end EpochConsensus
