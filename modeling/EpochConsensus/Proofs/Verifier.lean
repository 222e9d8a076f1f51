import EpochConsensus.Proofs.Epoch.Moves
import EpochConsensus.Proofs.Message.RoundTrip
import EpochConsensus.Verifier

/-! # What a verifier accepts

Statements that differ are signed as different bytes (`Statement.payload_injective`).  A verifier
that has only remembered genuine signatures accepts a message only if all signatures in it are
genuine, and remembers only genuine ones, whatever genuine means: `Verifier.verify_keeps`.  The
other way round, it accepts the bytes of every message whose signatures its keys confirm
(`Verifier.verify_encode`).
-/
namespace EpochConsensus

/-- A counter can be read back from its eight bytes. -/
theorem littleEndian_injective {m n : UInt64}
    (h : littleEndian 8 m.toNat = littleEndian 8 n.toNat) : m = n :=
  UInt64.toNat_inj.mp (@eq_of_littleEndian_eq 8 _ _ m.toNat_lt n.toNat_lt h)

namespace Statement

theorem length_payload_silence (e : Epoch) : (payload ⟨e, .silence⟩).length = 8 :=
  length_littleEndian 8 e.toNat

theorem length_payload_block (e : Epoch) (height : Height) (id : BlockId) :
    (payload ⟨e, .block height id⟩).length = 48 := by
  simp [payload, id.bytes.length_toList]

/-- **The signed bytes determine the statement.** -/
theorem payload_injective {s t : Statement} (h : s.payload = t.payload) : s = t := by
  obtain ⟨d, subject⟩ := s
  obtain ⟨e, subject'⟩ := t
  have hlength := congrArg List.length h
  cases subject with
  | silence =>
    cases subject' with
    | silence => rw [littleEndian_injective h]
    | block height id =>
      rw [length_payload_silence, length_payload_block] at hlength
      omega
  | block height id =>
    cases subject' with
    | silence =>
      rw [length_payload_silence, length_payload_block] at hlength
      omega
    | block height' id' =>
      obtain ⟨hepoch, hrest⟩ := List.append_inj h (by simp)
      obtain ⟨hheight, hid⟩ := List.append_inj hrest (by simp)
      have hid : id = id' := congrArg BlockId.mk (Octets.ext hid)
      rw [littleEndian_injective hepoch, littleEndian_injective hheight, hid]

end Statement

namespace Verifier

variable {κ : Type} {check : κ → Bytes → Signature → Bool} {genuine : Endorsement → Prop}
  {v v' : Verifier κ}

/-- A signature that the verifier's keys confirm. -/
def Confirms (check : κ → Bytes → Signature → Bool) (keys : List κ) (e : Endorsement) : Prop :=
  ∃ key, keys[e.signer.toNat]? = some key ∧ check key e.statement.payload e.signature = true

/-- A verifier for these keys that remembers only genuine signatures. -/
structure Remembers (keys : List κ) (genuine : Endorsement → Prop) (v : Verifier κ) : Prop where
  keys : v.keys = keys
  cache : ∀ e ∈ v.cache, genuine e

theorem remembers_empty (keys : List κ) (capacity : Nat) :
    (empty keys capacity).Remembers keys genuine :=
  ⟨rfl, fun _ he => by cases he⟩

theorem Remembers.remember {keys : List κ} (hv : v.Remembers keys genuine) {e : Endorsement}
    (he : genuine e) : (v.remember e).Remembers keys genuine := by
  refine ⟨hv.keys, ?_⟩
  intro x hx
  rcases List.mem_cons.mp (List.mem_of_mem_take hx) with rfl | hold
  · exact he
  · exact hv.cache x (List.mem_of_mem_erase hold)

/-- A checked signature is genuine, if those that the keys confirm are. -/
theorem checkOne_keeps {keys : List κ} (hv : v.Remembers keys genuine) {e : Endorsement}
    (confirmed : Confirms check keys e → genuine e) (h : v.checkOne check e = .ok v') :
    genuine e ∧ v'.Remembers keys genuine := by
  unfold checkOne at h
  split at h
  · rename_i hmem
    cases h
    exact ⟨hv.cache e hmem, hv.remember (hv.cache e hmem)⟩
  · split at h
    · cases h
    · rename_i key hkey
      split at h
      · rename_i hcheck
        cases h
        rw [hv.keys] at hkey
        have he := confirmed ⟨key, hkey, hcheck⟩
        exact ⟨he, hv.remember he⟩
      · cases h

/-- Checked signatures are genuine up to the first that fails. -/
theorem checkAll_keeps {keys : List κ} {es : List Endorsement} (hv : v.Remembers keys genuine)
    (confirmed : ∀ e ∈ es, Confirms check keys e → genuine e) {r : Except Rejection Unit}
    (h : v.checkAll check es = (r, v')) :
    v'.Remembers keys genuine ∧ (r = .ok () → ∀ e ∈ es, genuine e) := by
  induction es generalizing v with
  | nil =>
    cases h
    exact ⟨hv, by simp⟩
  | cons e es ih =>
    unfold checkAll at h
    split at h
    · rename_i u hu
      -- each signature is checked by the verifier that the ones before it have left
      obtain ⟨he, hkeep⟩ := checkOne_keeps hv (confirmed e List.mem_cons_self) hu
      obtain ⟨hv', hes⟩ := ih hkeep (fun x hx => confirmed x (List.mem_cons_of_mem _ hx)) h
      refine ⟨hv', fun hr x hx => ?_⟩
      rcases List.mem_cons.mp hx with rfl | hx
      · exact he
      · exact hes hr x hx
    · cases h
      exact ⟨hv, fun hr => by cases hr⟩

/-- **A message that is accepted carries only genuine signatures**, if all that the keys confirm in
these bytes are genuine. -/
theorem verify_keeps {keys : List κ} {bytes : Bytes} (hv : v.Remembers keys genuine)
    (confirmed : ∀ m, Message.decode bytes = .ok m →
      ∀ e ∈ m.endorsements, Confirms check keys e → genuine e)
    {r : Except Rejection Message} (h : v.verify check bytes = (r, v')) :
    v'.Remembers keys genuine ∧ ∀ m, r = .ok m → m.CarriesOnly genuine := by
  unfold verify at h
  split at h
  · cases h
    exact ⟨hv, fun m hm => by cases hm⟩
  · rename_i m hdecode
    split at h
    · rename_i u hcheck
      cases h
      obtain ⟨hv', hes⟩ := checkAll_keeps hv (confirmed m hdecode) hcheck
      refine ⟨hv', ?_⟩
      rintro _ ⟨⟩
      exact hes rfl
    · rename_i reason u hcheck
      cases h
      exact ⟨(checkAll_keeps hv (confirmed m hdecode) hcheck).1, fun m hm => by cases hm⟩

/-! ### What the keys confirm -/

variable (check) in
/-- Some verifier with these keys has passed the message on. -/
def Passes (keys : List κ) (m : Message) : Prop :=
  ∃ capacity stream, m ∈ ((empty keys capacity).verifyStream check stream).1

/-- What a verifier passes on carries only signatures that it could have confirmed itself. -/
theorem verifyStream_confirmed {keys : List κ} {stream : List Bytes} {m : Message}
    (hv : v.Remembers keys (Confirms check keys)) (hm : m ∈ (v.verifyStream check stream).1) :
    m.CarriesOnly (Confirms check keys) := by
  induction stream generalizing v with
  | nil => cases hm
  | cons bytes rest ih =>
    unfold verifyStream at hm
    split at hm
    · rename_i x u hx
      obtain ⟨hu, hcarries⟩ := verify_keeps hv (fun _ _ _ _ he => he) hx
      rcases List.mem_cons.mp hm with rfl | hlater
      · exact hcarries m rfl
      · exact ih hu hlater
    · rename_i reason u hx
      exact ih (verify_keeps hv (fun _ _ _ _ he => he) hx).1 hm

theorem Passes.confirmed {keys : List κ} {m : Message} (h : Passes check keys m) :
    m.CarriesOnly (Confirms check keys) := by
  obtain ⟨capacity, stream, hm⟩ := h
  exact verifyStream_confirmed (remembers_empty keys capacity) hm

/-- If no key confirms the signature that stands for none, the bytes can hold every message with
confirmed signatures whose block is not too long. -/
theorem writable_of_confirmed {keys : List κ} {m : Message}
    (unsigned : ∀ key ∈ keys, ∀ bytes, check key bytes .empty = false)
    (confirmed : m.CarriesOnly (Confirms check keys))
    (short : ∀ proposal, m = .propose proposal → proposal.block.byteSize < 2 ^ 32) :
    m.Writable := by
  cases m with
  | propose proposal => exact short proposal rfl
  | vote vote =>
    intro hempty
    obtain ⟨key, hkey, hcheck⟩ := confirmed ⟨vote.cosigner, vote.statement, .empty⟩
      (by simp [Message.endorsements, hempty])
    rw [unsigned key (List.mem_of_getElem? hkey)] at hcheck
    cases hcheck
  | silence | quitEpoch | certificate | probe | answer => trivial

/-- A signature that the keys confirm is found valid, remembered or not. -/
theorem checkOne_confirmed {e : Endorsement} (he : Confirms check v.keys e) :
    v.checkOne check e = .ok (v.remember e) := by
  obtain ⟨key, hkey, hcheck⟩ := he
  unfold checkOne
  split
  · rfl
  · simp [hkey, hcheck]

theorem checkAll_confirmed {es : List Endorsement} (hes : ∀ e ∈ es, Confirms check v.keys e) :
    (v.checkAll check es).1 = .ok () := by
  induction es generalizing v with
  | nil => rfl
  | cons e es ih =>
    simp only [checkAll, checkOne_confirmed (hes e List.mem_cons_self)]
    exact ih fun x hx => hes x (List.mem_cons_of_mem _ hx)

/-- **A message is accepted** if its bytes can hold it and the keys confirm every signature in
it, whatever else the verifier has seen before. -/
theorem verify_encode {m : Message} (writable : m.Writable)
    (confirmed : m.CarriesOnly (Confirms check v.keys)) :
    (v.verify check m.encode).1 = .ok m := by
  obtain ⟨u, hcheck⟩ : ∃ u, v.checkAll check m.endorsements = (.ok (), u) :=
    ⟨_, Prod.ext (checkAll_confirmed confirmed) rfl⟩
  simp only [verify, Message.decode_encode writable, hcheck]

end Verifier

end EpochConsensus
