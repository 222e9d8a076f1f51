import EpochConsensus.Fault

/-! # Rosters

Values of distinct processes, in increasing order of process: the signatures in a certificate, or
with no value beside the process a set of processes.  The first value of a process stays
(`get?_insert_self`), and an insertion changes nothing else (`get?_insert_of_ne`).
-/
namespace EpochConsensus

/-- At most one value for each process, in the order of the processes. -/
structure Roster (α : Type) where
  entries : List (ProcessId × α)
  sorted : entries.Pairwise fun a b => a.1 < b.1
deriving DecidableEq

namespace Roster

variable {α : Type}

def empty : Roster α := ⟨[], .nil⟩

/-- The entries with one more in its place; an entry of the same process stays. -/
def place (process : ProcessId) (value : α) : List (ProcessId × α) → List (ProcessId × α)
  | [] => [(process, value)]
  | e :: es =>
    if process < e.1 then (process, value) :: e :: es
    else if process = e.1 then e :: es
    else e :: place process value es

theorem mem_of_mem_place {process : ProcessId} {value : α} {e : ProcessId × α}
    {es : List (ProcessId × α)} (h : e ∈ place process value es) :
    e = (process, value) ∨ e ∈ es := by
  induction es with
  | nil => simpa [place] using h
  | cons d ds ih =>
    simp only [place] at h
    split at h
    · simpa using h
    · split at h
      · exact .inr h
      · rcases List.mem_cons.mp h with h | h
        · exact .inr (h ▸ List.mem_cons_self)
        · exact (ih h).imp id (List.mem_cons_of_mem _)

theorem sorted_place {process : ProcessId} {value : α} {es : List (ProcessId × α)}
    (h : es.Pairwise fun a b => a.1 < b.1) :
    (place process value es).Pairwise fun a b => a.1 < b.1 := by
  induction es with
  | nil => simp [place]
  | cons d ds ih =>
    have ⟨hd, hds⟩ := List.pairwise_cons.mp h
    simp only [place]
    split
    · rename_i hlt
      refine List.pairwise_cons.mpr ⟨fun a ha => ?_, h⟩
      rcases List.mem_cons.mp ha with rfl | ha
      · exact hlt
      · exact UInt16.lt_trans hlt (hd a ha)
    · split
      · exact h
      · rename_i hnlt hne
        refine List.pairwise_cons.mpr ⟨fun a ha => ?_, ih hds⟩
        rcases mem_of_mem_place ha with rfl | ha
        · exact UInt16.lt_of_le_of_ne (UInt16.not_lt.mp hnlt) (Ne.symm hne)
        · exact hd a ha

variable (r : Roster α)

/-- The value of a process. -/
def get? (process : ProcessId) : Option α := (r.entries.find? fun e => e.1 == process).map (·.2)

def contains (process : ProcessId) : Bool := (r.get? process).isSome

/-- The roster with one more process; a process that is in it keeps its value. -/
def insert (process : ProcessId) (value : α) : Roster α :=
  ⟨place process value r.entries, sorted_place r.sorted⟩

def count : Nat := r.entries.length

/-- The processes, in increasing order. -/
def processes : List ProcessId := r.entries.map (·.1)

@[simp] theorem get?_empty (process : ProcessId) : (empty : Roster α).get? process = none := rfl

theorem find?_eq_none_of_lt {process : ProcessId} {es : List (ProcessId × α)}
    (h : ∀ e ∈ es, process < e.1) : (es.find? fun e => e.1 == process) = none := by
  rw [List.find?_eq_none]
  intro e he heq
  exact UInt16.lt_irrefl _ (beq_iff_eq.mp heq ▸ h e he)

theorem get?_insert_self (process : ProcessId) (value : α) :
    (r.insert process value).get? process = some ((r.get? process).getD value) := by
  obtain ⟨es, sorted⟩ := r
  simp only [get?, insert]
  induction es with
  | nil => simp [place]
  | cons d ds ih =>
    have ⟨hd, hds⟩ := List.pairwise_cons.mp sorted
    simp only [place]
    split
    · rename_i hlt
      have hlate : ∀ e ∈ d :: ds, process < e.1 := fun e he =>
        (List.mem_cons.mp he).elim (· ▸ hlt) fun he => UInt16.lt_trans hlt (hd e he)
      simp [find?_eq_none_of_lt hlate]
    · split
      · rename_i heq; simp [heq]
      · rename_i hne
        have hd : (d.1 == process) = false := by simpa using fun h => hne h.symm
        simpa [List.find?_cons, hd] using ih hds

theorem get?_insert_of_ne {process other : ProcessId} (h : other ≠ process) (value : α) :
    (r.insert process value).get? other = r.get? other := by
  have hne : (process == other) = false := by simpa using fun e => h e.symm
  simp only [get?, insert]
  congr 1
  induction r.entries with
  | nil => simp [place, hne]
  | cons d ds ih =>
    simp only [place]
    split
    · simp [List.find?_cons, hne]
    · split
      · rfl
      · simp [List.find?_cons, ih]

@[simp] theorem length_processes : r.processes.length = r.count := by simp [processes, count]

/-- Nobody is in it twice. -/
theorem nodup_processes : r.processes.Nodup := by
  unfold processes
  rw [List.nodup_iff_pairwise_ne, List.pairwise_map]
  exact r.sorted.imp fun h => UInt16.ne_of_lt h

theorem mem_processes {process : ProcessId} :
    process ∈ r.processes ↔ r.contains process = true := by
  simp [processes, contains, get?]

end Roster

/-- A set of processes. -/
abbrev ProcessSet := Roster Unit

/-- The set of the listed processes.  The last one is inserted first, so that every other comes in
front. -/
def ProcessSet.ofList (processes : List ProcessId) : ProcessSet :=
  (processes.mergeSort fun p q => q ≤ p).foldl (fun s p => s.insert p ()) .empty

end EpochConsensus
