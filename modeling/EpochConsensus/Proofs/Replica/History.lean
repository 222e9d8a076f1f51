import EpochConsensus.Proofs.Replica.Deliveries

/-! # What is on record of a replica

The record of a replica says which epochs were started, with what, and what was done; the block
statements that the replica has signed can be read off it.  A moment is `Accounted` for when it is a
question to the host or the act of an honest epoch that was started and not decided; whatever was
signed on a block was signed so (`Accounted.signs`).
-/
namespace EpochConsensus

/-- The block statement that a process signs with what is on record. -/
def Record.blockSigned? {τ : Type} (process : ProcessId) : Record τ → Option Statement
  | started _ _ => none
  | acted _ x => x.effect.blockSigned? process

/-! ### What is on record -/

/-- Everything on record of a replica, oldest first. -/
abbrev History (τ : Type) := List (Record τ)

namespace History

variable {τ : Type}

/-- The block statements that a process has signed. -/
def blockStatements (process : ProcessId) (h : History τ) : List Statement :=
  h.filterMap (·.blockSigned? process)

/-- How many of them are of one epoch. -/
def signedIn (process : ProcessId) (h : History τ) (e : Epoch) : Nat :=
  (blockStatements process h).countP fun s => s.epoch = e

/-- The epoch was started with these certificates. -/
def Started (h : History τ) (e : Epoch) (c : Carried) : Prop := Record.started e c ∈ h

variable (p : Host (Chain × τ)) (heard : Endorsement → Prop)

/-- What is on record of a moment in which `decided` was the last decided epoch: a question to the
host, or an act of an honest epoch that was started and not decided. -/
structure Accounted (h : History τ) (decided : Option Epoch) (x : Moment (Chain × τ)) : Prop where
  levelled : x.world.1.Levelled
  question : x.machine = none → x.effect.IsQuestion
  act : ∀ m, x.machine = some m → p.Act m x.world x.effect ∧
    Window.upTo decided ≤ m.epoch.toNat ∧
      ∃ start, Started h m.epoch start ∧ p.Faithful heard start m

/-- The started epoch `e` hands over these certificates. -/
def HandsOver (h : History τ) (e : Epoch) (c : Carried) : Prop :=
  ∃ start, Started h e start ∧ p.Handover heard start e c

variable {p heard} {h h' : History τ}

theorem Accounted.mono {decided : Option Epoch} {x : Moment (Chain × τ)}
    (hx : Accounted p heard h decided x) (knows : ∀ e c, Started h e c → Started h' e c) :
    Accounted p heard h' decided x := by
  refine ⟨hx.levelled, hx.question, ?_⟩
  intro m hm
  obtain ⟨hact, hlater, start, started, hfaithful⟩ := hx.act m hm
  exact ⟨hact, hlater, start, knows _ _ started, hfaithful⟩

theorem HandsOver.mono {e : Epoch} {c : Carried} (hc : HandsOver p heard h e c)
    (knows : ∀ e c, Started h e c → Started h' e c) : HandsOver p heard h' e c := by
  obtain ⟨start, started, hhandover⟩ := hc
  exact ⟨start, knows _ _ started, hhandover⟩

/-- Whatever was signed on a block was signed by an honest epoch that was started. -/
theorem Accounted.signs {decided : Option Epoch} {x : Moment (Chain × τ)}
    (hx : Accounted p heard h decided x) {s : Statement}
    (hs : x.effect.blockSigned? p.id = some s) :
    ∃ m start, Started h m.epoch start ∧ p.Faithful heard start m ∧
      Window.upTo decided ≤ m.epoch.toNat ∧ p.Signs m x.world s := by
  cases hm : x.machine with
  | none =>
    have hquestion := hx.question hm
    obtain ⟨hsigned, -⟩ := Option.filter_eq_some_iff.mp hs
    cases heffect : x.effect <;>
      simp [heffect, Effect.IsQuestion, Effect.signed?] at hquestion hsigned
  | some m =>
    obtain ⟨hact, hlater, start, started, hfaithful⟩ := hx.act m hm
    exact ⟨m, start, started, hfaithful, hlater, hact.signs hfaithful.honest hs⟩

theorem Accounted.started_of_signed {decided : Option Epoch} {x : Moment (Chain × τ)}
    (hx : Accounted p heard h decided x) {s : Statement}
    (hs : x.effect.blockSigned? p.id = some s) :
    Window.upTo decided ≤ s.epoch.toNat ∧ ∃ start, Started h s.epoch start := by
  obtain ⟨m, start, started, -, hlater, hsigns⟩ := hx.signs hs
  rw [hsigns.epoch]
  exact ⟨hlater, start, started⟩

theorem signedIn_append (process : ProcessId) (h h' : History τ) (e : Epoch) :
    signedIn process (h ++ h') e = signedIn process h e + signedIn process h' e := by
  simp [signedIn, blockStatements]

/-- A start signs nothing. -/
@[simp] theorem signedIn_started (process : ProcessId) (d e : Epoch) (c : Carried) :
    signedIn (τ := τ) process [.started d c] e = 0 := rfl

/-- What an epoch did, put on record while `decided` is the last decided epoch. -/
def ofContext (decided : Option Epoch) (c : Context (Chain × τ)) : History τ :=
  c.moments.toList.map (.acted decided)

/-- Acts are no starts. -/
theorem started_append {decided : Option Epoch} {c : Context (Chain × τ)} {e : Epoch}
    {start : Carried} :
    Started (h ++ ofContext decided c) e start ↔ Started h e start := by
  simp [Started, ofContext]

/-- A call signs no more for one epoch than it signs. -/
theorem signedIn_ofContext_le (process : ProcessId) (decided : Option Epoch)
    (c : Context (Chain × τ)) (e : Epoch) :
    signedIn process (ofContext decided c) e ≤ c.blocksSigned process := by
  have hcount : (blockStatements process (ofContext decided c)).length =
      c.blocksSigned process := by
    unfold blockStatements ofContext Context.blocksSigned
    rw [List.filterMap_map, List.length_filterMap_eq_countP, ← Array.countP_toList]
    rfl
  rw [← hcount]
  exact List.countP_le_length

/-- A call on an epoch signs nothing for another one. -/
theorem signedIn_ofContext_of_ne {w : Chain × τ} {start : Carried} {m : Machine} {k : Nat}
    {s' : Step (Chain × τ)} (served : p.Served heard w start m k s') (decided : Option Epoch)
    {e : Epoch} (hne : e ≠ m.epoch) : signedIn p.id (ofContext decided s'.toContext) e = 0 := by
  unfold signedIn
  rw [List.countP_eq_zero]
  intro s hs hepoch
  obtain ⟨record, hrecord, hsigned⟩ := List.mem_filterMap.mp hs
  obtain ⟨x, hx, rfl⟩ := List.mem_map.mp hrecord
  have hsigned : x.effect.blockSigned? p.id = some s := hsigned
  apply hne
  rw [← of_decide_eq_true hepoch]
  cases served.logged.moments x (by simpa using hx) with
  | @question effect world evolved hq =>
    cases effect <;> first | exact hq.elim | cases hsigned
  | act evolved hm hact =>
    rw [(hact.signs hm.1.honest hsigned).epoch]
    exact hm.2

/-- What an epoch has signed with a call and may still sign was allowed before. -/
theorem signedIn_ofContext_add_le {w : Chain × τ} {start : Carried} {m : Machine} {k n : Nat}
    {s' : Step (Chain × τ)} (served : p.Served heard w start m k s') (decided : Option Epoch)
    (allowed : signedIn p.id h m.epoch + k ≤ n) :
    signedIn p.id (h ++ ofContext decided s'.toContext) m.epoch + p.signaturesLeft s'.machine ≤
      n := by
  have hcount := signedIn_ofContext_le p.id decided s'.toContext m.epoch
  have hallowed := served.signing
  rw [signedIn_append]
  omega

/-- All that a call on a started and undecided epoch puts on record is accounted for. -/
theorem accounted_ofContext {w : Chain × τ} {start : Carried} {m : Machine} {k : Nat}
    {s' : Step (Chain × τ)} (served : p.Served heard w start m k s')
    (levelled : ∀ world, p.Evolves w world → world.1.Levelled)
    (started : Started h m.epoch start) {decided : Option Epoch}
    (undecided : Window.upTo decided ≤ m.epoch.toNat) {x : Moment (Chain × τ)}
    (hx : x ∈ s'.moments) : Accounted p heard h decided x := by
  -- a call puts on record questions to the host and acts of the epoch that is served
  cases served.logged.moments x hx with
  | question evolved hq =>
    exact ⟨levelled _ evolved, fun _ => hq, fun _ hm => by cases hm⟩
  | @act e world m' evolved hm hact =>
    obtain ⟨hfaithful, hepoch⟩ := hm
    rw [← hepoch] at started undecided
    refine ⟨levelled _ evolved, (by intro hnone; cases hnone), ?_⟩
    rintro _ ⟨⟩
    exact ⟨hact, undecided, start, started, hfaithful⟩

/-! ### Starts -/

/-- The epochs below `next` that were started were started one after the other. -/
structure Consecutive (p : Host (Chain × τ)) (heard : Endorsement → Prop) (next : Nat)
    (h : History τ) : Prop where
  /-- Every start is with what the epoch may be started with. -/
  starts : ∀ e c, Started h e c → e.toNat < next ∧ p.Inherits heard e c
  once : ∀ e c c', Started h e c → Started h e c' → c = c'
  /-- Every epoch before a started one was started, with certificates that rank no higher. -/
  earlier : ∀ e c, Started h e c → ∀ d ≤ e, ∃ c', Started h d c' ∧ c.RanksAtLeast c'

namespace Consecutive

variable {next : Nat}

theorem nil : Consecutive p heard next [] where
  starts _ _ hs := absurd hs List.not_mem_nil
  once _ _ _ hs := absurd hs List.not_mem_nil
  earlier _ _ hs := absurd hs List.not_mem_nil

theorem mono (hc : Consecutive p heard next h) {next' : Nat} (hle : next ≤ next') :
    Consecutive p heard next' h := by
  refine { hc with starts := ?_ }
  intro e c hstarted
  obtain ⟨hlt, hinherits⟩ := hc.starts e c hstarted
  exact ⟨Nat.lt_of_lt_of_le hlt hle, hinherits⟩

/-- What an epoch does changes nothing about the starts. -/
theorem append (hc : Consecutive p heard next h) (decided : Option Epoch)
    (x : Context (Chain × τ)) : Consecutive p heard next (h ++ ofContext decided x) where
  starts e c hs := hc.starts e c (started_append.mp hs)
  once e c c' hs hs' := hc.once e c c' (started_append.mp hs) (started_append.mp hs')
  earlier e c hs d hd := by
    obtain ⟨c', hs', hranks⟩ := hc.earlier e c (started_append.mp hs) d hd
    exact ⟨c', started_append.mpr hs', hranks⟩

/-- The next epoch may start, if all before it were started with certificates that rank no
higher. -/
theorem start {e : Epoch} {c : Carried} (hc : Consecutive p heard e.toNat h)
    (inherits : p.Inherits heard e c)
    (before : ∀ d < e, ∃ c', Started h d c' ∧ c.RanksAtLeast c') :
    Consecutive p heard (e.toNat + 1) (h ++ [.started e c]) := by
  have hcases : ∀ d c', Started (h ++ [.started e c]) d c' ↔ Started h d c' ∨ d = e ∧ c' = c := by
    intro d c'
    simp [Started]
  -- the number of the epoch is above all that were started
  have hnew : ∀ c', ¬ Started h e c' := by
    intro c' hs
    exact Nat.lt_irrefl _ (hc.starts e c' hs).1
  constructor
  · intro d c' hs
    rcases (hcases d c').mp hs with hold | ⟨rfl, rfl⟩
    · obtain ⟨hlt, hinherits⟩ := hc.starts d c' hold
      exact ⟨Nat.lt_succ_of_lt hlt, hinherits⟩
    · exact ⟨Nat.lt_succ_self _, inherits⟩
  · intro d c₁ c₂ h₁ h₂
    rcases (hcases d c₁).mp h₁ with hold | ⟨rfl, rfl⟩
    · rcases (hcases d c₂).mp h₂ with hold' | ⟨rfl, -⟩
      · exact hc.once d c₁ c₂ hold hold'
      · exact absurd hold (hnew c₁)
    · rcases (hcases d c₂).mp h₂ with hold' | ⟨-, rfl⟩
      · exact absurd hold' (hnew c₂)
      · rfl
  · intro d c' hs d' hd
    rcases (hcases d c').mp hs with hold | ⟨rfl, rfl⟩
    · obtain ⟨c'', hs'', hranks⟩ := hc.earlier d c' hold d' hd
      exact ⟨c'', (hcases d' c'').mpr (.inl hs''), hranks⟩
    · by_cases heq : d' = d
      · subst heq
        exact ⟨c', hs, .refl _⟩
      · obtain ⟨c'', hs'', hranks⟩ := before d' (UInt64.lt_of_le_of_ne hd heq)
        exact ⟨c'', (hcases d' c'').mpr (.inl hs''), hranks⟩

end Consecutive

end History

end EpochConsensus
