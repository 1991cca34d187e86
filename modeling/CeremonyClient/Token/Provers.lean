import CeremonyClient.Lib.Locks
import CeremonyClient.Protobufs.Validation
import CeremonyClient.Token.Coins

set_option autoImplicit false

namespace Ceremony

open GoSem

variable {a : TokenApplication} {currentFrameNumber : UInt64} {t : AnnounceProverRequest} {text : String}
  {validate : Primitives → Option AnnounceProverChange → Go Unit} {output : AnnounceProverChange → TokenOutput} {held after : List Bytes}
  {outputs : List TokenOutput}

def getAddressFromSignature (prim : Primitives) (sig : Option Ed448Signature) : Go Bytes := do
  let s ← deref sig
  match s.publicKey with
  | none => raise (errorsNew "invalid data")
  | some publicKey =>
      if publicKey.keyValue = [] then raise (errorsNew "invalid data")
      else wrapErr "get address from signature" (peerAddress prim publicKey.keyValue)

def keyOf (p : Ed448Signature) : Go Bytes := do
  let publicKey ← deref p.publicKey
  return publicKey.keyValue

-- All keys must be untouched, and all but the first one are then locked.
def handleAnnounce (a : TokenApplication) (currentFrameNumber : UInt64) (t : AnnounceProverRequest) :
    LockM Bytes (List TokenOutput) := do
  let invalid := errInvalidStateTransition.wrap "handle announce"
  call (replaceErr invalid (AnnounceProverRequest.validate a.prim (some t)))
  t.publicKeySignaturesEd448.forM fun p => do
    let key ← call (keyOf p)
    requireFree invalid key
  let others ← call (sliceFrom t.publicKeySignaturesEd448 1)
  others.forM fun p => do
    let key ← call (keyOf p)
    acquire key
  return if currentFrameNumber ≥ PROOF_FRAME_CUTOFF then [.announce t] else []

def handleNestedAnnounce (a : TokenApplication) (currentFrameNumber : UInt64) (invalid : GoError) :
    Option AnnounceProverRequest → LockM Bytes (List TokenOutput)
  | none => pure []
  | some announce => replacing invalid (handleAnnounce a currentFrameNumber announce)

-- A nested announcement and the joining key stay locked even when the address turns out
-- to be in a prover trie already.
def handleDataAnnounceProverJoin (a : TokenApplication) (currentFrameNumber : UInt64) (t : AnnounceProverJoin) :
    LockM Bytes (List TokenOutput) := do
  let invalid := errInvalidStateTransition.wrap "handle join"
  call (failIf (currentFrameNumber < PROOF_FRAME_CUTOFF) invalid)
  call (replaceErr invalid (AnnounceProverJoin.validate a.prim (some t)))
  let key ← call (signerKey t.publicKeySignatureEd448)
  requireFree invalid key
  let address ← call (wrapErr "handle join" (getAddressFromSignature a.prim t.publicKeySignatureEd448))
  call (failIf (t.frameNumber > currentFrameNumber) invalid)
  let outputs ← handleNestedAnnounce a currentFrameNumber invalid t.announce
  acquire key
  call (failIf (a.tries.any (fun trie => trie.contains address) = true) ((errorsNew "in prover trie").wrap "handle join"))
  return outputs ++ [.join t]

-- Leave, pause and resume differ in their validation, error text and output.
def handleChange (a : TokenApplication) (currentFrameNumber : UInt64) (text : String)
    (validate : Primitives → Option AnnounceProverChange → Go Unit) (output : AnnounceProverChange → TokenOutput)
    (t : AnnounceProverChange) : LockM Bytes (List TokenOutput) := do
  let invalid := errInvalidStateTransition.wrap text
  call (failIf (currentFrameNumber < PROOF_FRAME_CUTOFF) invalid)
  call (replaceErr invalid (validate a.prim (some t)))
  call (failIf (t.frameNumber > currentFrameNumber) invalid)
  let key ← call (signerKey t.publicKeySignatureEd448)
  requireFree invalid key
  let address ← call (wrapErr text (getAddressFromSignature a.prim t.publicKeySignatureEd448))
  acquire key
  call (failIf (a.tries.any (fun trie => trie.contains address) = false) ((errorsNew "in prover trie").wrap text))
  return [output t]

def handleDataAnnounceProverLeave (a : TokenApplication) (currentFrameNumber : UInt64) (t : AnnounceProverChange) :
    LockM Bytes (List TokenOutput) :=
  handleChange a currentFrameNumber "handle leave" validateLeave TokenOutput.leave t

def handleDataAnnounceProverPause (a : TokenApplication) (currentFrameNumber : UInt64) (t : AnnounceProverChange) :
    LockM Bytes (List TokenOutput) :=
  handleChange a currentFrameNumber "handle pause" validatePause TokenOutput.pause t

def handleDataAnnounceProverResume (a : TokenApplication) (currentFrameNumber : UInt64) (t : AnnounceProverChange) :
    LockM Bytes (List TokenOutput) :=
  handleChange a currentFrameNumber "handle resume" validateResume TokenOutput.resume t

theorem handle_announce_tame : Tame (handleAnnounce a currentFrameNumber t) :=
  tame_bind tame_call fun _ =>
    tame_bind (tame_for_each fun _ => tame_bind tame_call fun _ => tame_require_free) fun _ =>
      tame_bind tame_call fun _ =>
        tame_bind (tame_for_each fun _ => tame_bind tame_call fun _ => tame_acquire _) fun _ =>
          tame_pure

theorem handle_nested_announce_tame {invalid : GoError} {announce : Option AnnounceProverRequest} :
    Tame (handleNestedAnnounce a currentFrameNumber invalid announce) := by
  cases announce with
  | none => exact tame_pure
  | some announce => exact tame_replacing handle_announce_tame

theorem handle_join_tame {t : AnnounceProverJoin} : Tame (handleDataAnnounceProverJoin a currentFrameNumber t) :=
  tame_bind tame_call fun _ => tame_bind tame_call fun _ =>
    tame_bind tame_call fun _ => tame_bind tame_require_free fun _ =>
      tame_bind tame_call fun _ => tame_bind tame_call fun _ =>
        tame_bind handle_nested_announce_tame fun _ => tame_bind (tame_acquire _) fun _ =>
          tame_bind tame_call fun _ => tame_pure

theorem handle_change_tame {t : AnnounceProverChange} : Tame (handleChange a currentFrameNumber text validate output t) :=
  tame_bind tame_call fun _ => tame_bind tame_call fun _ =>
    tame_bind tame_call fun _ => tame_bind tame_call fun _ =>
      tame_bind tame_require_free fun _ => tame_bind tame_call fun _ =>
        tame_bind (tame_acquire _) fun _ => tame_bind tame_call fun _ => tame_pure

theorem handle_announce_no_coins (done : (handleAnnounce a currentFrameNumber t).on held = (.ok outputs, after)) :
    deletedCoins outputs = [] ∧ createdCoins outputs = [] := by
  simp only [handleAnnounce, on_bind_ok, on_pure, Prod.mk.injEq] at done
  obtain ⟨_, _, -, _, _, -, _, _, -, _, _, -, result, -⟩ := done
  rw [← Except.ok.inj result]
  split <;> exact ⟨rfl, rfl⟩

theorem handle_join_no_coins {t : AnnounceProverJoin}
    (done : (handleDataAnnounceProverJoin a currentFrameNumber t).on held = (.ok outputs, after)) :
    deletedCoins outputs = [] ∧ createdCoins outputs = [] := by
  simp only [handleDataAnnounceProverJoin, on_bind_ok, on_pure, Prod.mk.injEq] at done
  obtain ⟨_, _, -, _, _, -, _, _, -, _, _, -, _, _, -, _, _, -, nested, _, announced, _, _, -, _, _, -, result, -⟩ := done
  have inner : deletedCoins nested = [] ∧ createdCoins nested = [] := by
    cases request : t.announce with
    | none =>
        rw [request, handleNestedAnnounce, on_pure, Prod.mk.injEq] at announced
        rw [← Except.ok.inj announced.1]
        exact ⟨rfl, rfl⟩
    | some announce =>
        rw [request, handleNestedAnnounce, on_replacing, Prod.mk.injEq, replace_err_ok_iff] at announced
        exact handle_announce_no_coins (Prod.ext announced.1 rfl)
  rw [← Except.ok.inj result, deleted_coins_append, created_coins_append, inner.1, inner.2]
  exact ⟨rfl, rfl⟩

theorem handle_change_output {t : AnnounceProverChange}
    (done : (handleChange a currentFrameNumber text validate output t).on held = (.ok outputs, after)) : outputs = [output t] := by
  simp only [handleChange, on_bind_ok, on_pure, Prod.mk.injEq] at done
  obtain ⟨_, _, -, _, _, -, _, _, -, _, _, -, _, _, -, _, _, -, _, _, -, _, _, -, result, -⟩ := done
  exact (Except.ok.inj result).symm

end Ceremony
