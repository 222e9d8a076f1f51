import EpochConsensus.Roster
import Mathlib.Data.List.Nodup
import Mathlib.Data.List.Perm.Subperm

/-! # What a roster is made of

A roster is determined by the values of its processes (`ext_get?`).  Entries may be put into it one
after the other in any order, and with processes that come again: the first value of each process
counts (`ofEntries_eq_iff`), so that entries in increasing order are the roster's own
(`entries_ofEntries`).
-/
namespace EpochConsensus.Roster

variable {α : Type}

theorem eq_of_entries {r s : Roster α} (h : r.entries = s.entries) : r = s := by
  cases r; cases s; cases h; rfl

/-! ### Values -/

/-- The value of a process is the one that is looked up in the entries. -/
theorem lookup_entries (r : Roster α) (process : ProcessId) :
    r.entries.lookup process = r.get? process := by
  unfold get?
  induction r.entries with
  | nil => rfl
  | cons e es ih =>
    rw [List.lookup_cons]
    by_cases h : e.1 = process
    · simp [h]
    · have hne : (process == e.1) = false := by simpa using Ne.symm h
      simp [h, hne, ih]

theorem mem_entries_iff {r : Roster α} {process : ProcessId} {value : α} :
    (process, value) ∈ r.entries ↔ r.get? process = some value := by
  constructor
  · intro h
    obtain ⟨e, he⟩ : ∃ e, r.entries.find? (fun e => e.1 == process) = some e :=
      Option.isSome_iff_exists.mp (List.find?_isSome.mpr ⟨_, h, beq_self_eq_true process⟩)
    have hprocess : e.1 = process := by simpa using List.find?_some he
    -- the process has one entry only
    obtain rfl : e = (process, value) :=
      List.inj_on_of_nodup_map r.nodup_processes (List.mem_of_find?_eq_some he) h hprocess
    simp [get?, he]
  · intro h
    obtain ⟨e, he, rfl⟩ := Option.map_eq_some_iff.mp h
    obtain rfl : e.1 = process := by simpa using List.find?_some he
    exact List.mem_of_find?_eq_some he

/-- A roster of more processes is at least as large. -/
theorem count_le {β : Type} {r : Roster α} {s : Roster β}
    (h : ∀ process, r.contains process = true → s.contains process = true) :
    r.count ≤ s.count := by
  rw [← length_processes, ← length_processes]
  refine (List.subperm_of_subset r.nodup_processes fun process hr => ?_).length_le
  exact s.mem_processes.mpr (h process (r.mem_processes.mp hr))

/-- Rosters with the same values are equal. -/
theorem ext_get? {r s : Roster α} (h : ∀ process, r.get? process = s.get? process) : r = s := by
  have hmem : ∀ e, e ∈ r.entries ↔ e ∈ s.entries := by
    rintro ⟨process, value⟩
    rw [mem_entries_iff, mem_entries_iff, h]
  have hperm : r.entries.Perm s.entries :=
    (List.perm_ext_iff_of_nodup (.of_map _ r.nodup_processes) (.of_map _ s.nodup_processes)).mpr
      hmem
  refine eq_of_entries (hperm.eq_of_pairwise ?_ r.sorted s.sorted)
  intro a b _ _ hab hba
  exact absurd hba (UInt16.lt_asymm hab)

/-! ### Entries in any order -/

/-- The roster with some entries put in one after the other. -/
def insertAll (r : Roster α) (es : List (ProcessId × α)) : Roster α :=
  es.foldl (fun r e => r.insert e.1 e.2) r

/-- The roster of some entries. -/
def ofEntries (es : List (ProcessId × α)) : Roster α := empty.insertAll es

theorem get?_insertAll (r : Roster α) (es : List (ProcessId × α)) (process : ProcessId) :
    (r.insertAll es).get? process = (r.get? process).or (es.lookup process) := by
  induction es generalizing r with
  | nil => simp [insertAll]
  | cons e es ih =>
    rw [show r.insertAll (e :: es) = (r.insert e.1 e.2).insertAll es from rfl, ih, List.lookup_cons]
    by_cases h : process = e.1
    · subst h
      rw [get?_insert_self]
      cases r.get? e.1 <;> simp
    · have hne : (process == e.1) = false := by simpa using h
      rw [get?_insert_of_ne _ h, hne]

/-- **The first value of each process makes the roster.** -/
theorem ofEntries_eq_iff {r : Roster α} {es : List (ProcessId × α)} :
    ofEntries es = r ↔ ∀ process, es.lookup process = r.get? process := by
  have hget : ∀ process, (ofEntries es).get? process = es.lookup process := by
    intro process
    simp [ofEntries, get?_insertAll]
  constructor
  · rintro rfl process
    exact (hget process).symm
  · intro h
    exact ext_get? fun process => (hget process).trans (h process)

/-- Entries in increasing order stay as they are. -/
theorem entries_ofEntries {es : List (ProcessId × α)}
    (sorted : es.Pairwise fun a b => a.1 < b.1) : (ofEntries es).entries = es := by
  rw [ofEntries_eq_iff.mpr (lookup_entries ⟨es, sorted⟩)]

theorem count_insert_le (r : Roster α) (process : ProcessId) (value : α) :
    (r.insert process value).count ≤ r.count + 1 := by
  show (place process value r.entries).length ≤ r.entries.length + 1
  induction r.entries with
  | nil => simp [place]
  | cons d ds ih =>
    simp only [place]
    split
    · simp
    · split
      · simp
      · simpa using ih

theorem count_insertAll_le (r : Roster α) (es : List (ProcessId × α)) :
    (r.insertAll es).count ≤ r.count + es.length := by
  induction es generalizing r with
  | nil => exact Nat.le_refl _
  | cons e es ih =>
    have hlater := ih (r.insert e.1 e.2)
    have hfirst := r.count_insert_le e.1 e.2
    rw [List.length_cons]
    exact Nat.le_trans hlater (by omega)

/-- A process that comes again does not count. -/
theorem count_ofEntries_le (es : List (ProcessId × α)) : (ofEntries es).count ≤ es.length := by
  have h := (empty : Roster α).count_insertAll_le es
  rwa [show (empty : Roster α).count = 0 from rfl, Nat.zero_add] at h

end EpochConsensus.Roster

namespace EpochConsensus.ProcessSet

theorem lookup_listed (ps : List ProcessId) (process : ProcessId) :
    (ps.map fun p => (p, ())).lookup process = if process ∈ ps then some () else none := by
  induction ps with
  | nil => rfl
  | cons p ps ih =>
    rw [List.map_cons, List.lookup_cons, ih]
    by_cases h : process = p
    · simp [h]
    · have hne : (process == p) = false := by simpa using h
      simp [h, hne]

/-- **Its members make a set**, in any order and however often they come. -/
theorem ofList_eq_iff {s : ProcessSet} {ps : List ProcessId} :
    ofList ps = s ↔ ∀ process, process ∈ ps ↔ s.contains process = true := by
  have hlist : ofList ps =
      Roster.ofEntries ((ps.mergeSort fun p q => q ≤ p).map fun p => (p, ())) := by
    rw [Roster.ofEntries, Roster.insertAll, List.foldl_map]
    rfl
  rw [hlist, Roster.ofEntries_eq_iff]
  refine forall_congr' fun process => ?_
  rw [lookup_listed]
  simp only [List.mem_mergeSort, Roster.contains]
  cases s.get? process with
  | none => simp
  | some u => simp

end EpochConsensus.ProcessSet
