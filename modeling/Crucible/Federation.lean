import Crucible.SipHash
import Crucible.Types

/-! # Federation admission

A peer of another organization sends a handshake, tagged with the SipHash-2-4 tag of its
fields under a shared key.  The admission checks the public fields and the replay window
first, then the tag, and records the nonce of a handshake that passes.  The nonces that were
ever admitted are an unbounded set, and `Remembers` says what the two words of the window tell
of it.
-/
namespace Crucible
open BitVec

namespace Federation
open SipHash

structure FederationHandshake where
  orgId : BitVec 64 := 0
  peerKeyFingerprint : BitVec 64 := 0
  nonce : BitVec 64 := 0
  mac : BitVec 64 := 0
deriving DecidableEq

inductive AdmittanceError where
  | orgMismatch | missingPeerKey | missingNonce | replayed | nonceTooOld | badMac
deriving DecidableEq

/-- `handshake_message`, after the domain word `crnfedv1`. -/
def handshakeMessage (orgId peerKeyFingerprint nonce : BitVec 64) : Bytes :=
  storeLe64 0x31766465666e7263#64 ++ storeLe64 orgId ++ storeLe64 peerKeyFingerprint ++
    storeLe64 nonce

inductive NonceVerdict where
  | fresh | missing | replayed | tooOld
deriving DecidableEq

structure ReplayWindow where
  highest : BitVec 64 := 0
  seen : BitVec 64 := 0

def ReplayWindow.verdict (w : ReplayWindow) (nonce : BitVec 64) : NonceVerdict :=
  if nonce = 0 then .missing
  else if nonce > w.highest then .fresh
  else
    let offset := w.highest - nonce
    if offset ≥ 64 then .tooOld
    else if (w.seen >>> offset) &&& 1#64 ≠ 0 then .replayed
    else .fresh

def ReplayWindow.record (w : ReplayWindow) (nonce : BitVec 64) : Except Fault ReplayWindow :=
  if w.verdict nonce ≠ .fresh then .error .contract
  else if nonce > w.highest then
    let shift := nonce - w.highest
    .ok { highest := nonce, seen := if shift ≥ 64 then 1#64 else (w.seen <<< shift) ||| 1#64 }
  else .ok { w with seen := w.seen ||| 1#64 <<< (w.highest - nonce) }

/-- `FederationAdmission`.  The id of the organization is a constant of its class. -/
structure FederationAdmission where
  orgId : BitVec 64
  key : Key
  window : ReplayWindow := {}

/-- `verify_federation_handshake_`, whose answer `mint_federation_admittance` gives. -/
def FederationAdmission.verify (a : FederationAdmission) (h : FederationHandshake) :
    Except Fault (FederationAdmission × Except AdmittanceError Unit) :=
  if h.orgId ≠ a.orgId then .ok (a, .error .orgMismatch)
  else if h.peerKeyFingerprint = 0 then .ok (a, .error .missingPeerKey)
  else
    match a.window.verdict h.nonce with
    | .missing => .ok (a, .error .missingNonce)
    | .replayed => .ok (a, .error .replayed)
    | .tooOld => .ok (a, .error .nonceTooOld)
    | .fresh =>
      let message := handshakeMessage h.orgId h.peerKeyFingerprint h.nonce
      if compute a.key message ≠ storeLe64 h.mac then .ok (a, .error .badMac)
      else do
        let window ← a.window.record h.nonce
        .ok ({ a with window }, .ok ())

/-- A handshake after others: the admission, and the handshakes that it admitted. -/
def step (s : FederationAdmission × List FederationHandshake) (h : FederationHandshake) :
    Except Fault (FederationAdmission × List FederationHandshake) := do
  let (a, answer) ← s.1.verify h
  .ok (a, if answer = .ok () then s.2 ++ [h] else s.2)

/-! ### What the window remembers -/

/-- The window of the admitted nonces: the highest of them, and below it one bit for each. -/
structure Remembers (w : ReplayWindow) (nonces : List (BitVec 64)) : Prop where
  le_highest : ∀ n ∈ nonces, n.toNat ≤ w.highest.toNat
  highest_mem : w.highest = 0 ∨ w.highest ∈ nonces
  bit_iff : ∀ k < 64, w.seen.getLsbD k = true ↔ ∃ n ∈ nonces, n.toNat + k = w.highest.toNat

/-- A nonce that may be admitted after `nonces`: set, not among them, and above each of them
less 64. -/
def Fresh (nonces : List (BitVec 64)) (nonce : BitVec 64) : Prop :=
  nonce ≠ 0 ∧ nonce ∉ nonces ∧ ∀ n ∈ nonces, (n.toNat : Int) - 64 < nonce.toNat

variable {w : ReplayWindow} {nonces : List (BitVec 64)} {nonce : BitVec 64}

theorem bit_test (x offset : BitVec 64) :
    (x >>> offset) &&& 1#64 = 0 ↔ x.getLsbD offset.toNat = false := by
  rw [and_one_eq_setWidth_ofBool_getLsbD, ushiftRight_eq',
    getLsbD_ushiftRight]
  cases x.getLsbD offset.toNat <;> decide

theorem offset_toNat (hle : nonce.toNat ≤ w.highest.toNat) :
    (w.highest - nonce).toNat = w.highest.toNat - nonce.toNat :=
  toNat_sub_of_le hle

/-- **The verdict is exact.** -/
theorem Remembers.verdict_iff (h : Remembers w nonces) :
    w.verdict nonce = .fresh ↔ Fresh nonces nonce := by
  unfold ReplayWindow.verdict Fresh
  by_cases hzero : nonce = 0
  · simp [hzero]
  rw [if_neg hzero]
  by_cases hgt : nonce > w.highest
  · have hgt' : w.highest.toNat < nonce.toNat := hgt
    rw [if_pos hgt]
    refine iff_of_true rfl ⟨hzero, fun hmem => ?_, fun n hn => ?_⟩
    · exact absurd (h.le_highest nonce hmem) (by omega)
    · have := h.le_highest n hn
      omega
  have hle : nonce.toNat ≤ w.highest.toNat := Nat.le_of_not_lt hgt
  have hoff := offset_toNat hle
  rw [if_neg hgt]
  by_cases hold : w.highest - nonce ≥ 64
  · have hold' : 64 ≤ w.highest.toNat - nonce.toNat := hoff ▸ hold
    rw [if_pos hold]
    refine iff_of_false (by decide) fun ⟨_, _, hnear⟩ => ?_
    rcases h.highest_mem with hnone | hmem
    · rw [hnone] at hold'
      exact absurd hold' (by simp)
    · have := hnear _ hmem
      omega
  have hnear : (w.highest - nonce).toNat < 64 := Nat.lt_of_not_le hold
  have hsum : nonce.toNat + (w.highest - nonce).toNat = w.highest.toNat := by omega
  have hbit := h.bit_iff _ hnear
  rw [if_neg hold]
  cases hseen : w.seen.getLsbD (w.highest - nonce).toNat with
  | true =>
    obtain ⟨n, hn, heq⟩ := hbit.mp hseen
    obtain rfl : n = nonce := eq_of_toNat_eq (Nat.add_right_cancel (heq.trans hsum.symm))
    rw [if_pos (by rw [ne_eq, bit_test, hseen]; decide)]
    exact iff_of_false (by decide) fun hfresh => hfresh.2.1 hn
  | false =>
    rw [if_neg (not_not.mpr ((bit_test _ _).mpr hseen))]
    refine iff_of_true rfl ⟨hzero, fun hmem => ?_, fun n hn => ?_⟩
    · exact Bool.false_ne_true (hseen.symm.trans (hbit.mpr ⟨nonce, hmem, hsum⟩))
    · have := h.le_highest n hn
      omega

/-- A fresh nonce is recorded: above the highest the mask is shifted, and below it one bit
is set. -/
theorem Remembers.record (h : Remembers w nonces) (hfresh : w.verdict nonce = .fresh) :
    ∃ w', w.record nonce = .ok w' ∧ Remembers w' (nonces ++ [nonce]) := by
  have hmem : ∀ {P : BitVec 64 → Prop},
      (∃ n ∈ nonces ++ [nonce], P n) ↔ (∃ n ∈ nonces, P n) ∨ P nonce := by
    simp [or_and_right, exists_or]
  unfold ReplayWindow.record
  rw [if_neg (not_not.mpr hfresh)]
  by_cases hgt : nonce > w.highest
  · have hgt' : w.highest.toNat < nonce.toNat := hgt
    have hshift : (nonce - w.highest).toNat = nonce.toNat - w.highest.toNat :=
      toNat_sub_of_le hgt'.le
    rw [if_pos hgt]
    refine ⟨_, rfl, ?_, .inr (List.mem_append_right _ (List.mem_singleton.mpr rfl)), ?_⟩
    · intro n hn
      rcases List.mem_append.mp hn with hn | hn
      · exact le_trans (h.le_highest n hn) hgt'.le
      · rw [List.mem_singleton.mp hn]
    · intro k hk
      -- only the new nonce is close to itself, unless the old mask reaches up to it
      have hold : (∃ n ∈ nonces, n.toNat + k = nonce.toNat) ↔ (nonce - w.highest).toNat ≤ k ∧
            w.seen.getLsbD (k - (nonce - w.highest).toNat) = true := by
        constructor
        · rintro ⟨n, hn, heq⟩
          have := h.le_highest n hn
          exact ⟨by omega, (h.bit_iff _ (by omega)).mpr ⟨n, hn, by omega⟩⟩
        · rintro ⟨hle, hbit⟩
          obtain ⟨n, hn, heq⟩ := (h.bit_iff _ (by omega)).mp hbit
          exact ⟨n, hn, by omega⟩
      rw [hmem, hold]
      split
      · rename_i hfar
        have hfar : 64 ≤ (nonce - w.highest).toNat := hfar
        simp [getLsbD_one]
        omega
      · rw [getLsbD_or, getLsbD_shiftLeft']
        simp [hk]
  · have hle : nonce.toNat ≤ w.highest.toNat := Nat.le_of_not_lt hgt
    have hoff := offset_toNat hle
    rw [if_neg hgt]
    refine ⟨_, rfl, ?_, h.highest_mem.imp_right (List.mem_append_left _), ?_⟩
    · intro n hn
      rcases List.mem_append.mp hn with hn | hn
      · exact h.le_highest n hn
      · rwa [List.mem_singleton.mp hn]
    · intro k hk
      have hself : nonce.toNat + k = w.highest.toNat ↔ k = (w.highest - nonce).toNat := by omega
      rw [hmem, ← h.bit_iff k hk, hself]
      rw [getLsbD_or, getLsbD_shiftLeft']
      generalize (w.highest - nonce).toNat = shift
      have hbit : k = shift ↔ ¬ k < shift ∧ k - shift = 0 := by omega
      simp [hk, hbit]

/-! ### The admission -/

/-- What a handshake has to be after the handshakes `admitted`. -/
structure Admissible (orgId : BitVec 64) (key : Key) (admitted : List FederationHandshake)
    (h : FederationHandshake) : Prop where
  org : h.orgId = orgId
  peer : h.peerKeyFingerprint ≠ 0
  mac : h.mac = loadLe64 (compute key (handshakeMessage h.orgId h.peerKeyFingerprint h.nonce))
  fresh : Fresh (admitted.map FederationHandshake.nonce) h.nonce

theorem compute_eq_iff (key : Key) (message : Bytes) (mac : BitVec 64) :
    compute key message = storeLe64 mac ↔ mac = loadLe64 (compute key message) := by
  constructor
  · intro h
    rw [h, loadLe64_storeLe64]
  · intro h
    rw [h, compute, loadLe64_storeLe64]

variable {a : FederationAdmission} {admitted : List FederationHandshake}

/-- **The step lemma.**  An admissible handshake is admitted and its nonce recorded, and every
other one is refused and changes nothing. -/
theorem verify_spec (h : FederationHandshake)
    (hw : Remembers a.window (admitted.map FederationHandshake.nonce)) :
    (Admissible a.orgId a.key admitted h ∧ ∃ window, a.verify h = .ok ({ a with window }, .ok ()) ∧
      Remembers window ((admitted ++ [h]).map FederationHandshake.nonce)) ∨
    (¬ Admissible a.orgId a.key admitted h ∧ ∃ error, a.verify h = .ok (a, .error error)) := by
  unfold FederationAdmission.verify
  by_cases horg : h.orgId ≠ a.orgId
  · exact .inr ⟨fun hadm => horg hadm.org, _, if_pos horg⟩
  rw [if_neg horg]
  by_cases hpeer : h.peerKeyFingerprint = 0
  · exact .inr ⟨fun hadm => hadm.peer hpeer, _, if_pos hpeer⟩
  rw [if_neg hpeer]
  by_cases hfresh : a.window.verdict h.nonce = .fresh
  · rw [hfresh]
    by_cases hmac : compute a.key (handshakeMessage h.orgId h.peerKeyFingerprint h.nonce) ≠
        storeLe64 h.mac
    · exact .inr ⟨fun hadm => hmac ((compute_eq_iff _ _ _).mpr hadm.mac), _, if_pos hmac⟩
    · obtain ⟨window, hrec, hwin⟩ := hw.record hfresh
      rw [if_neg hmac, bind_of_ok hrec]
      refine .inl ⟨⟨not_not.mp horg, hpeer, ?_, hw.verdict_iff.mp hfresh⟩, window, rfl, ?_⟩
      · exact (compute_eq_iff _ _ _).mp (not_not.mp hmac)
      · rwa [List.map_append]
  · refine .inr ⟨fun hadm => hfresh (hw.verdict_iff.mpr hadm.fresh), ?_⟩
    cases hver : a.window.verdict h.nonce with
    | fresh => exact absurd hver hfresh
    | missing => exact ⟨_, rfl⟩
    | replayed => exact ⟨_, rfl⟩
    | tooOld => exact ⟨_, rfl⟩

/-- **Admission is exact.**  After every sequence of handshakes, forged ones among them, the
next one is admitted exactly when it is admissible after the handshakes that were admitted.
A refused one changes nothing, and no call of `record` violates its contract. -/
theorem admission_exact (orgId : BitVec 64) (key : Key) (hs : List FederationHandshake)
    (h : FederationHandshake) :
    ∃ a admitted, hs.foldlM step ({ orgId, key }, []) = .ok (a, admitted) ∧
      ∃ a' answer, a.verify h = .ok (a', answer) ∧
        (answer = .ok () ↔ Admissible orgId key admitted h) ∧ (answer ≠ .ok () → a' = a) := by
  have hloop := foldlM_ok (f := step) (s := ({ orgId, key }, [])) (fun s => s.1.orgId = orgId ∧
    s.1.key = key ∧ Remembers s.1.window (s.2.map FederationHandshake.nonce)) hs
    ⟨rfl, rfl, by simp, .inl rfl, by simp⟩ ?_
  · obtain ⟨⟨a, admitted⟩, hrun, rfl, rfl, hw⟩ := hloop
    refine ⟨a, admitted, hrun, ?_⟩
    rcases verify_spec h hw with ⟨hadm, window, hverify, -⟩ | ⟨hadm, error, hverify⟩
    · exact ⟨_, _, hverify, iff_of_true rfl hadm, fun hne => absurd rfl hne⟩
    · exact ⟨_, _, hverify, iff_of_false (by simp) hadm, fun _ => rfl⟩
  · rintro ⟨a, admitted⟩ h - ⟨rfl, rfl, hw⟩
    rcases verify_spec h hw with ⟨-, window, hverify, hwindow⟩ | ⟨-, error, hverify⟩
    · exact ⟨_, bind_of_ok hverify, rfl, rfl, by simpa using hwindow⟩
    · exact ⟨_, bind_of_ok hverify, rfl, rfl, by simpa using hw⟩

end Federation
end Crucible
