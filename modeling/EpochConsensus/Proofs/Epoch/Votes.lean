import EpochConsensus.Epoch.Votes

/-! # Votes on distinct blocks

The certificates of an epoch's votes are in a strict order (`Votes.Sorted`), so no two of them are
on one subject, and putting a certificate in its place leaves those on other subjects as they are
(`mem_put_iff`).  A process that has signed on two subjects is the sign of an equivocation
(`Votes.SignedTwice`); it stays one as signatures come in (`SignedTwice.put`), and it becomes one
only by a new signature of its own (`signedTwice_put_iff`).
-/
namespace EpochConsensus

/-! ### The order of subjects -/

namespace Subject

variable {r s t : Subject}

theorem before_block {h k : Height} {i j : BlockId} :
    (block h i).before (block k j) = true ↔
      h < k ∨ h = k ∧ i.bytes.toList < j.bytes.toList := by
  simp [before]

theorem before_irrefl (s : Subject) : s.before s = false := by
  cases s with
  | silence => rfl
  | block h i =>
    rw [Bool.eq_false_iff]
    intro hlt
    rcases before_block.mp hlt with hlt | ⟨-, hlt⟩
    · exact UInt64.lt_irrefl h hlt
    · exact List.lt_irrefl _ hlt

theorem before_trans (hrs : r.before s = true) (hst : s.before t = true) :
    r.before t = true := by
  cases r with
  | silence =>
    cases s with
    | silence => cases hrs
    | block => cases t <;> first | rfl | cases hst
  | block h i =>
    cases s with
    | silence => cases hrs
    | block k j =>
      cases t with
      | silence => cases hst
      | block l m =>
        rw [before_block] at hrs hst ⊢
        rcases hrs with hrs | ⟨rfl, hrs⟩ <;> rcases hst with hst | ⟨rfl, hst⟩
        · exact .inl (UInt64.lt_trans hrs hst)
        · exact .inl hrs
        · exact .inl hst
        · exact .inr ⟨rfl, List.lt_trans hrs hst⟩

theorem before_of_ne (hne : s ≠ t) (h : s.before t = false) : t.before s = true := by
  cases s with
  | silence =>
    cases t with
    | silence => exact absurd rfl hne
    | block => cases h
  | block h i =>
    cases t with
    | silence => rfl
    | block k j =>
      rw [Bool.eq_false_iff, Ne, before_block, not_or, not_and] at h
      rw [before_block]
      obtain ⟨hle, hids⟩ := h
      by_cases heq : h = k
      · subst heq
        refine .inr ⟨rfl, Std.lt_of_le_of_ne (List.not_lt.mp (hids rfl)) ?_⟩
        intro hij
        refine hne (congrArg (block h) ?_)
        exact congrArg BlockId.mk (Octets.ext hij).symm
      · exact .inl (UInt64.lt_of_le_of_ne (UInt64.not_lt.mp hle) (Ne.symm heq))

end Subject

namespace Votes

/-- The certificates are in the strict order of their subjects. -/
def Sorted (s : Votes) : Prop :=
  s.toList.Pairwise fun c d => c.statement.subject.before d.statement.subject = true

/-- A process has signed on two subjects. -/
def SignedTwice (s : Votes) (process : ProcessId) : Prop :=
  ∃ c ∈ s.toList, ∃ d ∈ s.toList, c.statement.subject ≠ d.statement.subject ∧
    c.signedBy process = true ∧ d.signedBy process = true

variable {s : Votes} {c d : Certificate} {process : ProcessId}

theorem sorted_empty : Votes.empty.Sorted := List.Pairwise.nil

/-! ### Putting a certificate in its place -/

theorem sorted_place {ds : List Certificate}
    (h : ds.Pairwise fun c d => c.statement.subject.before d.statement.subject = true) :
    (place c ds).Pairwise fun c d => c.statement.subject.before d.statement.subject = true := by
  induction ds with
  | nil => exact List.pairwise_singleton _ _
  | cons d ds ih =>
    obtain ⟨hd, hds⟩ := List.pairwise_cons.mp h
    unfold place
    split
    · rename_i hsame
      exact List.pairwise_cons.mpr ⟨fun a ha => hsame ▸ hd a ha, hds⟩
    · rename_i hne
      split
      · rename_i hbefore
        refine List.pairwise_cons.mpr ⟨fun a ha => ?_, h⟩
        rcases List.mem_cons.mp ha with rfl | ha
        · exact hbefore
        · exact Subject.before_trans hbefore (hd a ha)
      · rename_i hafter
        refine List.pairwise_cons.mpr ⟨fun a ha => ?_, ih hds⟩
        rcases mem_of_mem_place ha with rfl | ha
        · exact Subject.before_of_ne (Ne.symm hne) (Bool.eq_false_iff.mpr hafter)
        · exact hd a ha

theorem Sorted.put (h : s.Sorted) (c : Certificate) : (s.put c).Sorted := sorted_place h

/-- No two certificates are on one subject. -/
theorem Sorted.eq_of_subject (h : s.Sorted) (hc : c ∈ s.toList) (hd : d ∈ s.toList)
    (same : c.statement.subject = d.statement.subject) : c = d := by
  have hbefore := List.pairwise_iff_getElem.mp h
  obtain ⟨i, hi, rfl⟩ := List.getElem_of_mem hc
  obtain ⟨j, hj, rfl⟩ := List.getElem_of_mem hd
  rcases Nat.lt_trichotomy i j with hlt | rfl | hlt
  · have hij := hbefore i j hi hj hlt
    rw [same, Subject.before_irrefl] at hij
    cases hij
  · rfl
  · have hji := hbefore j i hj hi hlt
    rw [same, Subject.before_irrefl] at hji
    cases hji

theorem mem_place_of_ne {ds : List Certificate} (hd : d ∈ ds)
    (hne : d.statement.subject ≠ c.statement.subject) : d ∈ place c ds := by
  induction ds with
  | nil => cases hd
  | cons a ds ih =>
    unfold place
    split
    · rename_i hsame
      rcases List.mem_cons.mp hd with rfl | hd
      · exact absurd hsame hne
      · exact List.mem_cons_of_mem _ hd
    · split
      · exact List.mem_cons_of_mem _ hd
      · rcases List.mem_cons.mp hd with rfl | hd
        · exact List.mem_cons_self
        · exact List.mem_cons_of_mem _ (ih hd)

/-- A certificate in its place replaces the one on the same subject, and no other. -/
theorem mem_put_iff (h : s.Sorted) :
    d ∈ (s.put c).toList ↔ d = c ∨ d ∈ s.toList ∧ d.statement.subject ≠ c.statement.subject := by
  constructor
  · intro hd
    by_cases hsame : d.statement.subject = c.statement.subject
    · exact .inl ((h.put c).eq_of_subject hd (mem_put_self s c) hsame)
    · exact (mem_of_mem_put s hd).imp id fun hold => ⟨hold, hsame⟩
  · rintro (rfl | ⟨hold, hne⟩)
    · exact mem_put_self s d
    · exact mem_place_of_ne hold hne

/-! ### Signing twice -/

/-- Two certificates that one process has signed are an equivocation of it. -/
theorem signedTwice_iff (h : s.Sorted) :
    s.SignedTwice process ↔ 2 ≤ (s.signedBy process).length := by
  have hmem : ∀ c, c ∈ s.signedBy process ↔ c ∈ s.toList ∧ c.signedBy process = true :=
    fun c => List.mem_filter
  constructor
  · rintro ⟨c, hc, d, hd, hne, hsc, hsd⟩
    have hcs := (hmem c).mpr ⟨hc, hsc⟩
    have hds := (hmem d).mpr ⟨hd, hsd⟩
    match hsigned : s.signedBy process with
    | [] => simp [hsigned] at hcs
    | [a] =>
      rw [hsigned, List.mem_singleton] at hcs hds
      exact absurd (by rw [hcs, hds]) hne
    | _ :: _ :: _ => simp
  · intro htwo
    match hsigned : s.signedBy process with
    | [] | [_] => simp [hsigned] at htwo
    | c :: d :: _ =>
      obtain ⟨hc, hsc⟩ := (hmem c).mp (by simp [hsigned])
      obtain ⟨hd, hsd⟩ := (hmem d).mp (by simp [hsigned])
      have hsorted : (s.signedBy process).Pairwise fun c d =>
          c.statement.subject.before d.statement.subject = true := List.Pairwise.filter _ h
      rw [hsigned] at hsorted
      have hbefore := (List.pairwise_cons.mp hsorted).1 d List.mem_cons_self
      refine ⟨c, hc, d, hd, ?_, hsc, hsd⟩
      intro hsame
      rw [hsame, Subject.before_irrefl] at hbefore
      cases hbefore

variable {epoch : Epoch} {height : Height} {id : BlockId}

/-- The votes for a block that a process has signed are among the certificates. -/
theorem mem_of_signedBy_get (h : (s.get epoch height id).signedBy process = true) :
    s.get epoch height id ∈ s.toList ∧
      (s.get epoch height id).statement.subject = .block height id := by
  unfold get at h ⊢
  cases hfind : s.find? height id with
  | none =>
    rw [hfind] at h
    cases h
  | some c => exact s.mem_find? hfind

/-- The certificate on a block is the one that votes for it are counted in. -/
theorem get_eq_of_mem (h : s.Sorted) (hc : c ∈ s.toList)
    (subject : c.statement.subject = .block height id) : s.get epoch height id = c := by
  unfold get
  cases hfind : s.find? height id with
  | none =>
    have hnone := List.find?_eq_none.mp hfind c hc
    simp [subject] at hnone
  | some d =>
    obtain ⟨hd, hsubject⟩ := s.mem_find? hfind
    exact h.eq_of_subject hd hc (hsubject.trans subject.symm)

/-- A certificate in its place is the one that votes for its block are counted in. -/
theorem get_put (subject : c.statement.subject = .block height id) :
    (s.put c).get epoch height id = c := by
  have hfound : ∀ ds, (place c ds).find? (·.statement.subject == .block height id) = some c := by
    intro ds
    induction ds with
    | nil => simp [place, subject]
    | cons d ds ih =>
      unfold place
      split
      · simp [subject]
      · rename_i hother
        rw [subject] at hother
        split
        · simp [subject]
        · simp [hother, ih]
  unfold get find? put
  rw [hfound]
  rfl

/-- When more have signed for a block, whoever had signed for any has done so still. -/
theorem signedBy_get_put (sorted : s.Sorted) (subject : c.statement.subject = .block height id)
    (more : (s.get epoch height id).signedBy process = true → c.signedBy process = true)
    {height' : Height} {id' : BlockId} (h : (s.get epoch height' id').signedBy process = true) :
    ((s.put c).get epoch height' id').signedBy process = true := by
  obtain ⟨hmem, hsubject⟩ := mem_of_signedBy_get h
  by_cases hsame : Subject.block height' id' = .block height id
  · obtain ⟨rfl, rfl⟩ := Subject.block.inj hsame
    rw [get_put subject]
    exact more h
  · have hstays : s.get epoch height' id' ∈ (s.put c).toList := by
      refine (mem_put_iff sorted).mpr (.inr ⟨hmem, ?_⟩)
      rw [hsubject, subject]
      exact hsame
    rwa [get_eq_of_mem (sorted.put c) hstays hsubject]

/-- Who has signed twice has done so still when more have signed for a block. -/
theorem SignedTwice.put (h : s.SignedTwice process) (sorted : s.Sorted)
    (subject : c.statement.subject = .block height id)
    (more : (s.get epoch height id).signedBy process = true → c.signedBy process = true) :
    (s.put c).SignedTwice process := by
  obtain ⟨a, ha, b, hb, hne, hsa, hsb⟩ := h
  -- the certificate takes the place of the one on its subject
  have hplace : ∀ d ∈ s.toList, d.signedBy process = true → ∃ d' ∈ (s.put c).toList,
      d'.statement.subject = d.statement.subject ∧ d'.signedBy process = true := by
    intro d hd hsd
    by_cases hsame : d.statement.subject = c.statement.subject
    · refine ⟨c, mem_put_self s c, hsame.symm, more ?_⟩
      rw [get_eq_of_mem sorted hd (hsame.trans subject)]
      exact hsd
    · exact ⟨d, (mem_put_iff sorted).mpr (.inr ⟨hd, hsame⟩), rfl, hsd⟩
  obtain ⟨a', ha', hsubjectA, hsa'⟩ := hplace a ha hsa
  obtain ⟨b', hb', hsubjectB, hsb'⟩ := hplace b hb hsb
  exact ⟨a', ha', b', hb', by rwa [hsubjectA, hsubjectB], hsa', hsb'⟩

/-- Without a new signature of the process nothing changes. -/
theorem signedTwice_put_iff (sorted : s.Sorted) (subject : c.statement.subject = .block height id)
    (same : c.signedBy process = (s.get epoch height id).signedBy process) :
    (s.put c).SignedTwice process ↔ s.SignedTwice process := by
  constructor
  · rintro ⟨a, ha, b, hb, hne, hsa, hsb⟩
    have hplace : ∀ d ∈ (s.put c).toList, d.signedBy process = true → ∃ d' ∈ s.toList,
        d'.statement.subject = d.statement.subject ∧ d'.signedBy process = true := by
      intro d hd hsd
      rcases (mem_put_iff sorted).mp hd with rfl | ⟨hold, -⟩
      · rw [same] at hsd
        obtain ⟨hget, hsubject⟩ := mem_of_signedBy_get hsd
        exact ⟨_, hget, hsubject.trans subject.symm, hsd⟩
      · exact ⟨d, hold, rfl, hsd⟩
    obtain ⟨a', ha', hsubjectA, hsa'⟩ := hplace a ha hsa
    obtain ⟨b', hb', hsubjectB, hsb'⟩ := hplace b hb hsb
    exact ⟨a', ha', b', hb', by rwa [hsubjectA, hsubjectB], hsa', hsb'⟩
  · intro h
    exact h.put sorted subject fun hget => same.trans hget

end Votes

end EpochConsensus
