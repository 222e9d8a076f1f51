import EpochConsensus.Proofs.Verifier
import Mathlib.Logic.Relation

/-! # The memory of a verifier does not show

`review` decodes a message and asks the keys about every signature in it.  A verifier asks only
about those that it does not remember.  As long as it remembers nothing but what its keys confirm,
both give the same answer, down to the signature that is refused first, and a call leaves it so,
whatever the bytes are.

What a verifier forgets does not matter, so it is left open: in `Serves` it may lose any part of its
memory after each signature.  Dropping those used least recently, as `verify` does, is one way
(`serves_verify`).
-/
namespace EpochConsensus

namespace Verifier

variable {κ : Type}

/-! ### Without a memory -/

section Review

variable (check : κ → Bytes → Signature → Bool) (keys : List κ)

/-- What the keys say about one signature. -/
def judge (e : Endorsement) : Except Rejection Unit :=
  match keys[e.signer.toNat]? with
  | none => .error (.unknownSigner e.signer)
  | some key =>
    if check key e.statement.payload e.signature then .ok () else .error (.badSignature e.signer)

/-- The message in some bytes, if the keys confirm every signature in it. -/
def review (bytes : Bytes) : Except Rejection Message := do
  let m ← Message.decode bytes
  forM m.endorsements (judge check keys)
  return m

end Review

variable {check : κ → Bytes → Signature → Bool} {keys : List κ} {e : Endorsement}
  {es : List Endorsement} {bytes : Bytes} {reason : Rejection} {m : Message}
  {r : Except Rejection Unit} {answer : Except Rejection Message} {v u w : Verifier κ}

theorem judge_eq_ok_iff : judge check keys e = .ok () ↔ Confirms check keys e := by
  unfold judge Confirms
  cases hkey : keys[e.signer.toNat]? with
  | none => simp
  | some key => simp

theorem forM_judge_eq_ok_iff :
    forM es (judge check keys) = .ok () ↔ ∀ e ∈ es, Confirms check keys e := by
  induction es with
  | nil => simp [pure, Except.pure]
  | cons e es ih =>
    rw [List.forM_cons, bind_eq_ok, List.forall_mem_cons, ← ih, ← judge_eq_ok_iff]
    exact ⟨fun ⟨⟨⟩, he, hes⟩ => ⟨he, hes⟩, fun ⟨he, hes⟩ => ⟨(), he, hes⟩⟩

/-- The reason is the one of the first signature that the keys do not confirm. -/
theorem forM_judge_eq_error_iff : forM es (judge check keys) = .error reason ↔
    ∃ pre e post, es = pre ++ e :: post ∧ (∀ x ∈ pre, Confirms check keys x) ∧
      judge check keys e = .error reason := by
  induction es with
  | nil => simp [pure, Except.pure]
  | cons e es ih =>
    rw [List.forM_cons, bind_eq_error, ih]
    constructor
    · rintro (hfirst | ⟨⟨⟩, he, pre, x, post, rfl, hpre, hx⟩)
      · exact ⟨[], e, es, rfl, by simp, hfirst⟩
      · exact ⟨e :: pre, x, post, rfl,
          List.forall_mem_cons.mpr ⟨judge_eq_ok_iff.mp he, hpre⟩, hx⟩
    · rintro ⟨pre, x, post, hsplit, hpre, hx⟩
      cases pre with
      | nil =>
        obtain ⟨rfl, rfl⟩ := List.cons.inj hsplit
        exact .inl hx
      | cons y pre =>
        obtain ⟨rfl, rfl⟩ := List.cons.inj hsplit
        obtain ⟨hy, hpre⟩ := List.forall_mem_cons.mp hpre
        exact .inr ⟨(), judge_eq_ok_iff.mpr hy, pre, x, post, rfl, hpre, hx⟩

/-- A message passes the review if it decodes and the keys confirm every signature in it. -/
theorem review_eq_ok_iff : review check keys bytes = .ok m ↔
    Message.decode bytes = .ok m ∧ m.CarriesOnly (Confirms check keys) := by
  unfold review
  simp only [bind_eq_ok]
  constructor
  · rintro ⟨x, hdecode, ⟨⟩, hjudge, hx⟩
    obtain rfl : x = m := Except.ok.inj hx
    exact ⟨hdecode, forM_judge_eq_ok_iff.mp hjudge⟩
  · rintro ⟨hdecode, hm⟩
    exact ⟨m, hdecode, (), forM_judge_eq_ok_iff.mpr hm, rfl⟩

/-- A review fails at the bytes, or at the first signature that the keys do not confirm. -/
theorem review_eq_error_iff : review check keys bytes = .error reason ↔
    Message.decode bytes = .error reason ∨
      ∃ m pre e post, Message.decode bytes = .ok m ∧ m.endorsements = pre ++ e :: post ∧
        (∀ x ∈ pre, Confirms check keys x) ∧ judge check keys e = .error reason := by
  unfold review
  simp only [bind_eq_error, forM_judge_eq_error_iff]
  refine or_congr_right ⟨?_, ?_⟩
  · rintro ⟨m, hdecode, ⟨pre, e, post, hsplit, hpre, he⟩ | ⟨-, -, hreturn⟩⟩
    · exact ⟨m, pre, e, post, hdecode, hsplit, hpre, he⟩
    · cases hreturn
  · rintro ⟨m, pre, e, post, hdecode, hsplit, hpre, he⟩
    exact ⟨m, hdecode, .inl ⟨pre, e, post, hsplit, hpre, he⟩⟩

/-! ### With a memory -/

/-- The verifier `w` may be what `v` has become after finding `es` valid: the keys are the same, and
it remembers no other signatures than `v` did and these. -/
structure Retains (v : Verifier κ) (es : List Endorsement) (w : Verifier κ) : Prop where
  keys : w.keys = v.keys
  cache : ∀ e ∈ w.cache, e ∈ v.cache ∨ e ∈ es

/-- A check of signatures up to the first that fails, in which the verifier may forget anything
after each of them. -/
inductive Checks (check : κ → Bytes → Signature → Bool) :
    Verifier κ → List Endorsement → Except Rejection Unit → Verifier κ → Prop
  | done {v w : Verifier κ} (retains : v.Retains [] w) : Checks check v [] (.ok ()) w
  | pass {v u w z : Verifier κ} {e : Endorsement} {es : List Endorsement}
      {r : Except Rejection Unit} (passes : v.checkOne check e = .ok u)
      (retains : v.Retains [e] w) (rest : Checks check w es r z) : Checks check v (e :: es) r z
  | fail {v w : Verifier κ} {e : Endorsement} {es : List Endorsement} {reason : Rejection}
      (fails : v.checkOne check e = .error reason) (retains : v.Retains [] w) :
      Checks check v (e :: es) (.error reason) w

/-- A call of a verifier that may forget anything on the way. -/
inductive Serves (check : κ → Bytes → Signature → Bool) (v : Verifier κ) (bytes : Bytes) :
    Except Rejection Message → Verifier κ → Prop
  | undecoded {reason : Rejection} {w : Verifier κ} (h : Message.decode bytes = .error reason)
      (retains : v.Retains [] w) : Serves check v bytes (.error reason) w
  | accepted {m : Message} {w : Verifier κ} (h : Message.decode bytes = .ok m)
      (checks : v.Checks check m.endorsements (.ok ()) w) : Serves check v bytes (.ok m) w
  | refused {m : Message} {reason : Rejection} {w : Verifier κ}
      (h : Message.decode bytes = .ok m)
      (checks : v.Checks check m.endorsements (.error reason) w) :
      Serves check v bytes (.error reason) w

/-- Calls one after the other, on any bytes. -/
abbrev Calls (check : κ → Bytes → Signature → Bool) : Verifier κ → Verifier κ → Prop :=
  Relation.ReflTransGen fun v w => ∃ bytes answer, v.Serves check bytes answer w

theorem Retains.refl (v : Verifier κ) : v.Retains [] v := ⟨rfl, fun _ he => .inl he⟩

theorem retains_remember (v : Verifier κ) (e : Endorsement) : v.Retains [e] (v.remember e) := by
  refine ⟨rfl, ?_⟩
  intro x hx
  rcases List.mem_cons.mp (List.mem_of_mem_take hx) with rfl | hold
  · exact .inr (List.mem_singleton_self x)
  · exact .inl (List.mem_of_mem_erase hold)

/-- The keys are asked about a signature that is not remembered. -/
theorem checkOne_eq (v : Verifier κ) (e : Endorsement) : v.checkOne check e =
    if e ∈ v.cache then .ok (v.remember e)
    else (judge check v.keys e).map fun _ => v.remember e := by
  unfold checkOne judge
  split
  · rfl
  · cases hkey : v.keys[e.signer.toNat]? with
    | none => rfl
    | some key =>
      dsimp only
      split <;> rfl

theorem eq_remember_of_checkOne (h : v.checkOne check e = .ok u) : u = v.remember e := by
  rw [checkOne_eq] at h
  split at h
  · exact (Except.ok.inj h).symm
  · obtain ⟨-, -, hu⟩ := map_eq_ok.mp h
    exact hu.symm

/-- Dropping what was used least recently is a way to forget. -/
theorem checks_of_checkAll (h : v.checkAll check es = (r, w)) : v.Checks check es r w := by
  induction es generalizing v with
  | nil =>
    cases h
    exact .done (.refl _)
  | cons e es ih =>
    unfold checkAll at h
    cases hone : v.checkOne check e with
    | error reason =>
      simp only [hone] at h
      cases h
      exact .fail hone (.refl _)
    | ok u =>
      simp only [hone] at h
      obtain rfl := eq_remember_of_checkOne hone
      exact .pass hone (retains_remember _ e) (ih h)

theorem serves_of_verify (h : v.verify check bytes = (answer, w)) :
    v.Serves check bytes answer w := by
  unfold verify at h
  cases hdecode : Message.decode bytes with
  | error reason =>
    simp only [hdecode] at h
    cases h
    exact .undecoded hdecode (.refl v)
  | ok m =>
    simp only [hdecode] at h
    cases hall : v.checkAll check m.endorsements with
    | mk r u =>
      cases r with
      | error reason =>
        simp only [hall] at h
        cases h
        exact .refused hdecode (checks_of_checkAll hall)
      | ok =>
        simp only [hall] at h
        cases h
        exact .accepted hdecode (checks_of_checkAll hall)

/-! ### The memory does not show -/

theorem Retains.remembers (h : v.Retains es w) (hv : v.Remembers keys (Confirms check keys))
    (hes : ∀ e ∈ es, Confirms check keys e) : w.Remembers keys (Confirms check keys) := by
  refine ⟨h.keys.trans hv.keys, ?_⟩
  intro e he
  rcases h.cache e he with hold | hnew
  · exact hv.cache e hold
  · exact hes e hnew

/-- What is remembered is what the keys would say. -/
theorem Remembers.checkOne_eq (hv : v.Remembers keys (Confirms check keys)) :
    v.checkOne check e = (judge check keys e).map fun _ => v.remember e := by
  rw [Verifier.checkOne_eq, hv.keys]
  split
  · rename_i hmem
    rw [judge_eq_ok_iff.mpr (hv.cache e hmem)]
    rfl
  · rfl

/-- A check with a sound memory says what the keys say, and leaves the memory sound. -/
theorem Checks.eq_forM (h : v.Checks check es r w) (hv : v.Remembers keys (Confirms check keys)) :
    r = forM es (judge check keys) ∧ w.Remembers keys (Confirms check keys) := by
  induction h with
  | done retains => exact ⟨rfl, retains.remembers hv (by simp)⟩
  | @pass v u w z e es r passes retains rest ih =>
    rw [hv.checkOne_eq] at passes
    obtain ⟨⟨⟩, hjudge, -⟩ := map_eq_ok.mp passes
    have he : Confirms check keys e := judge_eq_ok_iff.mp hjudge
    obtain ⟨hr, hz⟩ := ih (retains.remembers hv (by simpa using he))
    refine ⟨?_, hz⟩
    rw [List.forM_cons, hjudge, hr]
    rfl
  | @fail v w e es reason fails retains =>
    rw [hv.checkOne_eq] at fails
    refine ⟨?_, retains.remembers hv (by simp)⟩
    rw [List.forM_cons, map_eq_error.mp fails]
    rfl

/-- A call with a sound memory answers as the review does, and leaves the memory sound. -/
theorem Serves.eq_review (h : v.Serves check bytes answer w)
    (hv : v.Remembers keys (Confirms check keys)) :
    answer = review check keys bytes ∧ w.Remembers keys (Confirms check keys) := by
  unfold review
  cases h with
  | undecoded hdecode retains =>
    rw [hdecode]
    exact ⟨rfl, retains.remembers hv (by simp)⟩
  | accepted hdecode checks =>
    obtain ⟨hchecks, hw⟩ := checks.eq_forM hv
    rw [hdecode]
    exact ⟨by simp [bind, Except.bind, ← hchecks, pure, Except.pure], hw⟩
  | refused hdecode checks =>
    obtain ⟨hchecks, hw⟩ := checks.eq_forM hv
    rw [hdecode]
    exact ⟨by simp [bind, Except.bind, ← hchecks], hw⟩

theorem Calls.remembers (h : Calls check v w) (hv : v.Remembers keys (Confirms check keys)) :
    w.Remembers keys (Confirms check keys) := by
  induction h with
  | refl => exact hv
  | tail _ last ih =>
    obtain ⟨bytes, answer, hserves⟩ := last
    exact (hserves.eq_review ih).2

theorem Remembers.verify_eq_review (hv : v.Remembers keys (Confirms check keys)) (bytes : Bytes) :
    (v.verify check bytes).1 = review check keys bytes :=
  ((serves_of_verify rfl).eq_review hv).1

/-- **The memory of a verifier does not show.**  After any calls, whatever was forgotten on the way,
a verifier remembers only signatures that its keys confirm.  It answers any bytes as one that has
seen nothing, however much that one may remember, and would do so if it forgot something during this
call.  It gives a message exactly when the bytes decode to it and the keys confirm every signature
in it.  Otherwise it refuses the bytes for the reason that they do not decode, or for the first
signature that the keys do not confirm. -/
theorem verify_transparent {capacity : Nat} (history : Calls check (empty keys capacity) v)
    (bytes : Bytes) :
    (∀ e ∈ v.cache, Confirms check keys e) ∧
    (∀ room, (v.verify check bytes).1 = ((empty keys room).verify check bytes).1) ∧
    (∀ answer w, v.Serves check bytes answer w → answer = (v.verify check bytes).1) ∧
    (∀ m, (v.verify check bytes).1 = .ok m ↔
      Message.decode bytes = .ok m ∧ ∀ e ∈ m.endorsements, Confirms check keys e) ∧
    ∀ reason, (v.verify check bytes).1 = .error reason ↔
      Message.decode bytes = .error reason ∨
        ∃ m pre e post, Message.decode bytes = .ok m ∧ m.endorsements = pre ++ e :: post ∧
          (∀ x ∈ pre, Confirms check keys x) ∧ judge check keys e = .error reason := by
  have hv := history.remembers (remembers_empty keys capacity)
  rw [hv.verify_eq_review]
  refine ⟨hv.cache, ?_, ?_, fun m => review_eq_ok_iff, fun reason => review_eq_error_iff⟩
  · intro room
    exact ((remembers_empty keys room).verify_eq_review bytes).symm
  · intro answer w hserves
    exact (hserves.eq_review hv).1

/-! ### A forged copy -/

/-- A check that takes the first signed byte, moved by the key, for the signature. -/
def shiftCheck (key : UInt8) (bytes : Bytes) (signature : Signature) : Bool :=
  signature = ⟨.fill 64 (key + bytes.headD 0)⟩

/-- A vote in epoch one of process 1, which relays the signature of process 0. -/
def relayedVote (signature : Signature) : Vote :=
  ⟨1, 0, ⟨.fill 32 7⟩, 1, signature, 0, some ⟨.fill 64 4⟩⟩

def validVote : Message := .vote (relayedVote ⟨.fill 64 6⟩)

def forgedVote : Message := .vote (relayedVote ⟨.fill 64 9⟩)

/-- The verifier for two keys with room for one signature, after a valid vote. -/
def usedVerifier : Verifier UInt8 := ((empty [3, 5] 1).verify shiftCheck validVote.encode).2

/-- A verifier that remembers one of two signatures refuses the copy in which that one is
exchanged. -/
theorem verify_transparent_forged : Calls shiftCheck (empty [3, 5] 1) usedVerifier ∧
    usedVerifier.cache = [⟨1, (relayedVote ⟨.fill 64 6⟩).statement, ⟨.fill 64 6⟩⟩] ∧
    (usedVerifier.verify shiftCheck forgedVote.encode).1 = .error (.badSignature 1) := by
  have history : Calls shiftCheck (empty [3, 5] 1) usedVerifier :=
    .single ⟨validVote.encode, _, serves_of_verify rfl⟩
  refine ⟨history, by decide +kernel, ?_⟩
  obtain ⟨-, -, -, -, refused⟩ := verify_transparent history forgedVote.encode
  refine (refused _).mpr (.inr ⟨forgedVote, [_], _, [], ?_, rfl, ?_, by decide +kernel⟩)
  · exact Message.decode_encode (show some _ ≠ some _ by decide +kernel)
  · intro x hx
    obtain rfl := List.mem_singleton.mp hx
    exact judge_eq_ok_iff.mp (by decide +kernel)

end Verifier

end EpochConsensus
