import CeremonyClient.Crypto.VerifiableEncryption
import CeremonyClient.Lib.OptionLoops
import CeremonyClient.Verenc.Verification

set_option autoImplicit false

namespace Ceremony

namespace Verenc

open GoSem OptionLoops

-- The record that crosses the language border; the Go side embeds it.
abbrev VerencProof := MPCitHVerEncProof

section Decoding

variable {F G : Type} (curve : Curve F G)

def pointFromBytes (bytes : Bytes) : Option G := if bytes.length ≠ 57 then none else curve.decompress bytes

def decodeCiphertext (c : VerencCiphertext) : Option (PKECipherText F G × Nat) := do
  let c1 ← pointFromBytes curve c.c1
  if c.c2.length ≠ 56 then none else some (⟨c1, curve.fromBytes c.c2⟩, c.i.toNat)

def decodeShare (s : VerencShare) : Option (F × F × Nat) :=
  if s.s1.length ≠ 56 then none else if s.s2.length ≠ 56 then none else some (curve.fromBytes s.s1, curve.fromBytes s.s2, s.i.toNat)

-- The blinding key, the statement and the encryption key as points, and the proof; none where verenc_verify returns false.
def decodeProof (proof : VerencProof) : Option (G × G × G × RDkgithProof F G) := do
  let blindingKey ← pointFromBytes curve proof.blindingPubkey
  let statement ← pointFromBytes curve proof.statement
  let encryptionKey ← pointFromBytes curve proof.encryptionKey
  let polycom ← proof.polycom.mapM (pointFromBytes curve)
  let ctexts ← proof.ctexts.mapM (decodeCiphertext curve)
  let shares ← proof.sharesRands.mapM (decodeShare curve)
  return (blindingKey, statement, encryptionKey, ⟨proof.challenge, polycom, ctexts, shares⟩)

end Decoding

section Total

variable {F G : Type} [Field F] [AddCommGroup G] [Module F G] [DecidableEq G] (curve : Curve F G)

def verencVerify (fuel : Nat) (proof : VerencProof) (draw : Nat → F) : Go Bool :=
  match decodeProof curve proof with
  | none => .ok false
  | some (blindingKey, statement, encryptionKey, pi) => verify curve ⟨blindingKey, rveParams, encryptionKey⟩ fuel statement pi draw

omit [Field F] [AddCommGroup G] [Module F G] [DecidableEq G] in
theorem decode_proof_polycom {proof : VerencProof} {blindingKey statement encryptionKey : G} {pi : RDkgithProof F G}
    (decoded : decodeProof curve proof = some (blindingKey, statement, encryptionKey, pi)) :
    pi.challenge = proof.challenge ∧ pi.polycom.length = proof.polycom.length := by
  rw [decodeProof] at decoded
  obtain ⟨_, -, decoded⟩ := Option.bind_eq_some_iff.mp decoded
  obtain ⟨_, -, decoded⟩ := Option.bind_eq_some_iff.mp decoded
  obtain ⟨_, -, decoded⟩ := Option.bind_eq_some_iff.mp decoded
  obtain ⟨polycom, isPolycom, decoded⟩ := Option.bind_eq_some_iff.mp decoded
  obtain ⟨_, -, decoded⟩ := Option.bind_eq_some_iff.mp decoded
  obtain ⟨_, -, decoded⟩ := Option.bind_eq_some_iff.mp decoded
  obtain ⟨-, decoded⟩ := Prod.mk.inj (Option.some.inj decoded)
  obtain ⟨-, decoded⟩ := Prod.mk.inj decoded
  obtain ⟨-, isPi⟩ := Prod.mk.inj decoded
  rw [← isPi]
  exact ⟨rfl, map_m_length isPolycom⟩

theorem check_shares_returns_iff {t : Nat} {pi : RDkgithProof F G} (draw : Nat → F)
    (small : ∀ entry ∈ pi.sharesRands, entry.2.2 + 1 < 2 ^ 32) :
    (∃ verdict, checkShares curve t pi draw = .ok verdict) ↔ pi.polycom.length ≤ t + 1 := by
  obtain ⟨⟨left, rights⟩, run, width, -⟩ := batch_scalars_ok (fun _ => 0) t pi.sharesRands small draw 0 (List.replicate (t + 1) 0) List.length_replicate
  constructor
  · rintro ⟨verdict, checked⟩
    by_contra many
    rw [checkShares, run, ok_bind] at checked
    obtain ⟨right, combined, -⟩ := (bind_ok_iff _ _ _).mp checked
    exact combine_panics (by rw [width]; omega) combined
  · intro enough
    rw [checkShares, run, ok_bind]
    dsimp only
    rw [combine_ok (by rw [width]; exact enough), ok_bind]
    exact ⟨_, rfl⟩

-- A proof whose entries and challenge do not fit together, so that it is rejected before the batch check.
def Unmatched (proof : VerencProof) (hideIndices : List Nat) : Prop :=
  ∀ blindingKey statement encryptionKey pi, decodeProof curve proof = some (blindingKey, statement, encryptionKey, pi) →
    ∀ ciphertext opened, ¬ Transcribed curve ⟨blindingKey, rveParams, encryptionKey⟩ statement pi hideIndices ciphertext opened

theorem verenc_verify_total_iff (fuel : Nat) (proof : VerencProof) (draw : Nat → F) (hideIndices : List Nat)
    (terminates : expandChallenge curve rveParams fuel proof.challenge = .ok hideIndices) :
    (∃ verdict, verencVerify curve fuel proof draw = .ok verdict) ↔
      decodeProof curve proof = none ∨ proof.polycom.length = 23 ∨ 23 < proof.polycom.length ∧ Unmatched curve proof hideIndices := by
  cases decoded : decodeProof curve proof with
  | none => simp [verencVerify, decoded]
  | some parts =>
      obtain ⟨blindingKey, statement, encryptionKey, pi⟩ := parts
      obtain ⟨challenge, commitments⟩ := decode_proof_polycom curve decoded
      have expanded : expandChallenge curve rveParams fuel pi.challenge = .ok hideIndices := challenge ▸ terminates
      have run : verencVerify curve fuel proof draw = verify curve ⟨blindingKey, rveParams, encryptionKey⟩ fuel statement pi draw := by
        rw [verencVerify, decoded]
      rw [run, ← commitments]
      by_cases few : pi.polycom.length < 23
      · refine ⟨fun returned => ?_, ?_⟩
        · obtain ⟨verdict, verified⟩ := returned
          exact absurd verified (verify_few_commitments curve few)
        · rintro (refused | equal | ⟨many, -⟩)
          · cases refused
          · omega
          · omega
      · have enough : rveParams.t + 1 ≤ pi.polycom.length := Nat.le_of_not_lt few
        by_cases matching : ∃ ciphertext opened, Transcribed curve ⟨blindingKey, rveParams, encryptionKey⟩ statement pi hideIndices ciphertext opened
        · obtain ⟨ciphertext, opened, transcribed⟩ := matching
          have small : ∀ entry ∈ pi.sharesRands, entry.2.2 + 1 < 2 ^ 32 := by
            rw [transcribed.shares, List.forall_mem_map]
            intro i member
            have inside : i < 64 := List.mem_range.mp (List.mem_of_mem_filter member)
            exact (Nat.succ_le_of_lt inside).trans_lt (by decide)
          rw [verify_transcribed curve draw expanded enough transcribed,
            check_shares_returns_iff curve draw small]
          refine ⟨fun atMost => Or.inr (Or.inl (Nat.le_antisymm atMost enough)), ?_⟩
          rintro (refused | equal | ⟨-, unmatched⟩)
          · cases refused
          · exact equal.le
          · exact absurd transcribed (unmatched _ _ _ pi decoded ciphertext opened)
        · have never : ∀ ciphertext opened, ¬ Transcribed curve ⟨blindingKey, rveParams, encryptionKey⟩ statement pi hideIndices ciphertext opened :=
            fun ciphertext opened transcribed => matching ⟨ciphertext, opened, transcribed⟩
          rw [verify_not_transcribed curve draw expanded enough never]
          refine ⟨fun _ => ?_, fun _ => ⟨false, rfl⟩⟩
          rcases Nat.eq_or_lt_of_le enough with equal | many
          · exact Or.inr (Or.inl equal.symm)
          · refine Or.inr (Or.inr ⟨many, fun blinding stated encryption other isOther => ?_⟩)
            cases Option.some.inj (decoded.symm.trans isOther)
            exact never

end Total

-- All points decode; the challenge names the parties 0 to 41, and there is no commitment at all.
def bareProof : VerencProof where
  blindingPubkey := List.replicate 57 1
  encryptionKey := List.replicate 57 1
  statement := List.replicate 57 1
  challenge := (List.range 42).flatMap leBytes
  polycom := []
  ctexts := []
  sharesRands := []

theorem bare_proof_expands : expandChallenge (plainCurve 3 counterHash) rveParams 1 bareProof.challenge = .ok (List.range 42) := by
  rfl

theorem verenc_verify_total_bare :
    (∃ verdict, verencVerify (plainCurve 3 counterHash) 1 bareProof (fun _ => 1) = .ok verdict) ↔
      decodeProof (plainCurve 3 counterHash) bareProof = none ∨ bareProof.polycom.length = 23 ∨
        23 < bareProof.polycom.length ∧ Unmatched (plainCurve 3 counterHash) bareProof (List.range 42) :=
  verenc_verify_total_iff (plainCurve 3 counterHash) 1 bareProof (fun _ => 1) (List.range 42) bare_proof_expands

theorem verenc_verify_panics_bare :
    expandChallenge (plainCurve 3 counterHash) rveParams 1 bareProof.challenge = .ok (List.range 42) ∧
      panics (verencVerify (plainCurve 3 counterHash) 1 bareProof fun _ => 1) = true :=
  ⟨bare_proof_expands, by decide +kernel⟩

end Verenc

end Ceremony
