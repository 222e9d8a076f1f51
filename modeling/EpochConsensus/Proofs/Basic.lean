import EpochConsensus.Fault

/-! # Computations that may fail, and slots

How a computation that succeeded is taken apart: a sequence succeeds when both of its parts do, and
what each round of a loop keeps, the loop keeps.  Windows and stores keep their contents in slots;
writing one slot leaves the others as they are.
-/
namespace EpochConsensus

variable {ε α β : Type}

/-- A sequence that succeeds has a first part that does. -/
theorem bind_eq_ok {x : Except ε α} {f : α → Except ε β} {b : β} :
    (x >>= f) = .ok b ↔ ∃ a, x = .ok a ∧ f a = .ok b := by
  cases x <;> simp [bind, Except.bind]

/-- A sequence that fails does so in its first part or in its second one. -/
theorem bind_eq_error {x : Except ε α} {f : α → Except ε β} {e : ε} :
    (x >>= f) = .error e ↔ x = .error e ∨ ∃ a, x = .ok a ∧ f a = .error e := by
  cases x <;> simp [bind, Except.bind]

theorem map_eq_ok {x : Except ε α} {f : α → β} {b : β} :
    x.map f = .ok b ↔ ∃ a, x = .ok a ∧ f a = b := by
  cases x <;> simp [Except.map]

theorem map_eq_error {x : Except ε α} {f : α → β} {e : ε} :
    x.map f = .error e ↔ x = .error e := by
  cases x <;> simp [Except.map]

/-- What every round of a successful loop keeps holds after the loop. -/
theorem foldlM_keeps {f : β → α → Except ε β} {motive : β → Prop} {xs : List α}
    (round : ∀ b x b', x ∈ xs → motive b → f b x = .ok b' → motive b') {b b' : β}
    (h : xs.foldlM f b = .ok b') (start : motive b) : motive b' := by
  induction xs generalizing b with
  | nil =>
    obtain rfl : b = b' := by simpa [pure, Except.pure] using h
    exact start
  | cons x xs ih =>
    rw [List.foldlM_cons, bind_eq_ok] at h
    obtain ⟨c, hc, h⟩ := h
    exact ih (fun b y b' hy => round b y b' (List.mem_cons_of_mem _ hy)) h
      (round b x c List.mem_cons_self start hc)

/-- A loop of which every round succeeds does so itself; what holds of the elements that are done
holds of all in the end. -/
theorem foldlM_reaches {f : β → α → Except ε β} {motive : List α → β → Prop} {xs : List α}
    (round : ∀ done x b, x ∈ xs → motive done b → ∃ b', f b x = .ok b' ∧ motive (done ++ [x]) b')
    {b : β} (start : motive [] b) : ∃ b', xs.foldlM f b = .ok b' ∧ motive xs b' := by
  suffices h : ∀ done b, motive done b → ∃ b', xs.foldlM f b = .ok b' ∧ motive (done ++ xs) b' from
    h [] b start
  induction xs with
  | nil => exact fun done b h => ⟨b, rfl, by simpa using h⟩
  | cons x xs ih =>
    intro done b h
    obtain ⟨c, hc, hround⟩ := round done x b List.mem_cons_self h
    obtain ⟨b', hb', hrest⟩ :=
      ih (fun done y b hy => round done y b (List.mem_cons_of_mem _ hy)) (done ++ [x]) c hround
    refine ⟨b', ?_, by simpa using hrest⟩
    rw [List.foldlM_cons, hc]
    exact hb'

/-- A loop of which no round changes anything changes nothing. -/
theorem foldlM_idle {f : β → α → Except ε β} {b : β} {xs : List α}
    (round : ∀ x ∈ xs, f b x = .ok b) : xs.foldlM f b = .ok b := by
  induction xs with
  | nil => rfl
  | cons x xs ih =>
    rw [List.foldlM_cons, round x List.mem_cons_self]
    exact ih fun y hy => round y (List.mem_cons_of_mem x hy)

/-- An element of a list in two parts is in the first one or in the second one. -/
theorem append_eq_append_cons {xs ys pre post : List α} {a : α}
    (h : xs ++ ys = pre ++ a :: post) :
    (∃ post', xs = pre ++ a :: post') ∨ ∃ zs, pre = xs ++ zs ∧ ys = zs ++ a :: post := by
  rcases List.append_eq_append_iff.mp h with ⟨zs, hpre, hys⟩ | ⟨zs, hxs, hpost⟩
  · exact .inr ⟨zs, hpre, hys⟩
  · cases zs with
    | nil => exact .inr ⟨[], by simpa using hxs.symm, hpost.symm⟩
    | cons z zs =>
      obtain ⟨rfl, -⟩ := List.cons.inj hpost
      exact .inl ⟨zs, hxs⟩

/-- A computation whose outcome is known succeeds with it. -/
theorem exists_of_toOption {x : Except ε α} {f : α → β} {b : β}
    (h : x.toOption.map f = some b) : ∃ a, x = .ok a ∧ f a = b := by
  cases x with
  | error e => cases h
  | ok a => exact ⟨a, rfl, Option.some.inj h⟩

/-- The next value of a counter is one more. -/
theorem toNat_of_successor {n k : UInt64} (h : successor n = .ok k) : k.toNat = n.toNat + 1 := by
  unfold successor at h
  split at h
  · cases h
  · rename_i hlast
    cases h
    have hne : n.toNat ≠ UInt64.size - 1 := by
      intro heq
      refine hlast (UInt64.toNat_inj.mp ?_)
      rw [heq, UInt64.toNat_ofNat_of_lt' (by decide)]
    have hlt : n.toNat < UInt64.size := n.toNat_lt
    have hnext : n.toNat + 1 < UInt64.size :=
      Nat.lt_of_le_of_ne hlt fun heq => hne (Nat.eq_sub_of_add_eq heq)
    rw [UInt64.toNat_add]
    exact Nat.mod_eq_of_lt hnext

/-- A counter that may go on does so. -/
theorem successor_of_toNat {n k : UInt64} (h : k.toNat = n.toNat + 1) : successor n = .ok k := by
  have hk : k.toNat < UInt64.size := k.toNat_lt
  unfold successor
  rw [if_neg]
  · refine congrArg Except.ok (UInt64.toNat_inj.mp ?_)
    rw [h] at hk ⊢
    rw [UInt64.toNat_add]
    exact Nat.mod_eq_of_lt hk
  · intro hlast
    rw [hlast, UInt64.toNat_ofNat_of_lt' (by decide)] at h
    omega

/-- A counter goes on below its last value. -/
theorem exists_successor {n : UInt64} (h : n.toNat + 1 < UInt64.size) :
    ∃ k, successor n = .ok k ∧ k.toNat = n.toNat + 1 := by
  have hk : (UInt64.ofNat (n.toNat + 1)).toNat = n.toNat + 1 := UInt64.toNat_ofNat_of_lt' h
  exact ⟨_, successor_of_toNat hk, hk⟩

/-- One below a counter that is not zero. -/
theorem toNat_sub_one {n : UInt64} {k : Nat} (h : n.toNat = k + 1) : (n - 1).toNat = k := by
  have hone : (1 : UInt64) ≤ n := by
    rw [UInt64.le_iff_toNat_le, h]
    exact Nat.le_add_left 1 k
  rw [UInt64.toNat_sub_of_le _ _ hone, h]
  rfl

theorem get_set {n : Nat} (slots : Vector α n) (i j : Fin n) (a : α) :
    (slots.set i.val a i.isLt).get j = if j = i then a else slots.get j := by
  show (slots.set i.val a i.isLt)[j.val] = if j = i then a else slots[j.val]
  rw [Vector.getElem_set]
  by_cases h : j = i
  · rw [if_pos h, if_pos (congrArg Fin.val h.symm)]
  · rw [if_neg h, if_neg fun hij => h (Fin.ext hij.symm)]

end EpochConsensus
