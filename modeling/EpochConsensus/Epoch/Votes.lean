import EpochConsensus.Message

/-! # Votes of one epoch

The votes received in an epoch, collected in one certificate for each block that has any.  The
certificates are kept in the order of height and name, so that evidence read off them
(`signedBy`) comes in that order.
-/
namespace EpochConsensus

namespace Subject

/-- The order of certified blocks: by height, then by name. -/
def before : Subject → Subject → Bool
  | silence, silence => false
  | silence, block _ _ => true
  | block _ _, silence => false
  | block h i, block k j => h < k || (h == k && decide (i.bytes.toList < j.bytes.toList))

end Subject

/-- The certificate with the second signature that a vote carries, if that is the proposer's. -/
def Certificate.addCarried (c : Certificate) (proposer : ProcessId) (v : Vote) : Certificate :=
  match v.cosignature with
  | some signature => if v.cosigner = proposer then c.add proposer signature else c
  | none => c

@[simp] theorem Certificate.statement_addCarried (c : Certificate) (proposer : ProcessId)
    (v : Vote) : (c.addCarried proposer v).statement = c.statement := by
  unfold addCarried
  split
  · split <;> rfl
  · rfl

/-- Whoever has signed stays among the signers. -/
theorem Certificate.signedBy_addCarried {c : Certificate} {process : ProcessId}
    (h : c.signedBy process = true) (proposer : ProcessId) (v : Vote) :
    (c.addCarried proposer v).signedBy process = true := by
  unfold addCarried
  split
  · split
    · rw [signedBy_add, h, Bool.or_true]
    · exact h
  · exact h

/-- A signature on the larger certificate is the second one of the vote or was there. -/
theorem Certificate.mem_endorsements_addCarried {c : Certificate} {proposer : ProcessId}
    {v : Vote} {e : Endorsement} (h : e ∈ (c.addCarried proposer v).endorsements) :
    (∃ signature ∈ v.cosignature, e = ⟨v.cosigner, c.statement, signature⟩) ∨
      e ∈ c.endorsements := by
  unfold addCarried at h
  split at h
  · rename_i signature hs
    split at h
    · rename_i hp
      rcases mem_endorsements_add h with he | hold
      · exact .inl ⟨signature, hs, hp ▸ he⟩
      · exact .inr hold
    · exact .inr h
  · exact .inr h

/-- Certificates on distinct subjects. -/
structure Votes where
  toList : List Certificate
deriving DecidableEq

namespace Votes

def empty : Votes := ⟨[]⟩

variable (s : Votes)

/-- The certificate of votes for a block. -/
def find? (height : Height) (id : BlockId) : Option Certificate :=
  s.toList.find? fun c => c.statement.subject == .block height id

/-- The certificate of votes for a block, without votes where there is none. -/
def get (epoch : Epoch) (height : Height) (id : BlockId) : Certificate :=
  (s.find? height id).getD (.block epoch height id)

/-- The certificates with `c` in its place, instead of another on the same subject. -/
def place (c : Certificate) : List Certificate → List Certificate
  | [] => [c]
  | d :: ds =>
    if d.statement.subject = c.statement.subject then c :: ds
    else if c.statement.subject.before d.statement.subject then c :: d :: ds
    else d :: place c ds

def put (c : Certificate) : Votes := ⟨place c s.toList⟩

theorem mem_find? {height : Height} {id : BlockId} {c : Certificate}
    (h : s.find? height id = some c) :
    c ∈ s.toList ∧ c.statement.subject = .block height id :=
  ⟨List.mem_of_find?_eq_some h, by simpa using List.find?_some h⟩

theorem mem_place_self (c : Certificate) (ds : List Certificate) : c ∈ place c ds := by
  induction ds with
  | nil => simp [place]
  | cons d ds ih =>
    unfold place
    split
    · exact List.mem_cons_self
    · split
      · exact List.mem_cons_self
      · exact List.mem_cons_of_mem _ ih

theorem mem_of_mem_place {c d : Certificate} {ds : List Certificate} (h : d ∈ place c ds) :
    d = c ∨ d ∈ ds := by
  induction ds with
  | nil => simpa [place] using h
  | cons a ds ih =>
    unfold place at h
    split at h
    · exact (List.mem_cons.mp h).imp id (List.mem_cons_of_mem _)
    · split at h
      · exact List.mem_cons.mp h
      · rcases List.mem_cons.mp h with rfl | h
        · exact .inr List.mem_cons_self
        · exact (ih h).imp id (List.mem_cons_of_mem _)

theorem mem_put_self (c : Certificate) : c ∈ (s.put c).toList := mem_place_self c _

theorem mem_of_mem_put {c d : Certificate} (h : d ∈ (s.put c).toList) : d = c ∨ d ∈ s.toList :=
  mem_of_mem_place h

/-- The certificates that a process has signed. -/
def signedBy (process : ProcessId) : List Certificate := s.toList.filter (·.signedBy process)

end Votes

end EpochConsensus
