import CeremonyClient.Lib.Table
import CeremonyClient.Token.Application

set_option autoImplicit false

namespace Ceremony

open GoSem

variable {address : Bytes} {coin : Coin} {frameNumber : UInt64}

-- A value is a big endian frame number followed by the message, and a by-owner key is the owner's address followed by
-- the item's.
structure PebbleCoinStore where
  coins : Table Bytes (UInt64 × Coin)
  coinsByOwner : Table Bytes (UInt64 × Coin)
  proofs : Table Bytes (UInt64 × PreCoinProof)
  proofsByOwner : Table Bytes (UInt64 × PreCoinProof)
  latestExecution : Option UInt64

variable {p next : PebbleCoinStore}

namespace PebbleCoinStore

def empty : PebbleCoinStore := ⟨∅, ∅, ∅, ∅, none⟩

def byOwnerKey (owner address : Bytes) : Bytes := owner ++ address

-- owner.GetImplicitAccount().GetAddress(), which reads nil through nil.
def ownerAddress (owner : Option AccountRef) : Bytes :=
  match getImplicitAccount owner with
  | some account => account.address
  | none => []

def getCoinByAddress (p : PebbleCoinStore) (address : Bytes) : Except GoError Coin :=
  match p.coins.lookup address with
  | some (_, coin) => .ok coin
  | none => .error errNotFound

def getPreCoinProofsForOwner (p : PebbleCoinStore) (owner : Bytes) : Except GoError (List PreCoinProof) :=
  let iter := p.proofsByOwner.range (byOwnerKey owner (List.replicate 32 0x00)) (byOwnerKey owner (List.replicate 32 0xff))
  .ok (iter.map fun entry => entry.2.2)

-- The key space leaves out the two leading bytes: iter.Key()[34:] is the key from its 32nd byte on, copied into 32
-- bytes.
def getCoinsForOwner (p : PebbleCoinStore) (owner : Bytes) : Go (List UInt64 × List Bytes × List Coin) := do
  let iter := p.coinsByOwner.range (byOwnerKey owner (List.replicate 32 0x00)) (byOwnerKey owner (List.replicate 32 0xff))
  let addresses ← iter.mapM fun entry => do
    let rest ← sliceFrom entry.1 32
    return (rest ++ List.replicate 32 0).take 32
  return (iter.map fun entry => entry.2.1, addresses, iter.map fun entry => entry.2.2)

def getLatestFrameProcessed (p : PebbleCoinStore) : UInt64 := p.latestExecution.getD 0

def putCoin (p : PebbleCoinStore) (frameNumber : UInt64) (address : Bytes) (coin : Coin) : Go PebbleCoinStore := do
  let owner ← implicitAddress coin.owner
  return { p with
    coinsByOwner := p.coinsByOwner.insert (byOwnerKey owner address) (frameNumber, coin)
    coins := p.coins.insert address (frameNumber, coin) }

def deleteCoin (p : PebbleCoinStore) (address : Bytes) (coin : Coin) : PebbleCoinStore :=
  { p with
    coins := p.coins.erase address
    coinsByOwner := p.coinsByOwner.erase (byOwnerKey (ownerAddress coin.owner) address) }

def putPreCoinProof (p : PebbleCoinStore) (frameNumber : UInt64) (address : Bytes) (proof : PreCoinProof) : Go PebbleCoinStore := do
  let owner ← implicitAddress proof.owner
  return { p with
    proofsByOwner := p.proofsByOwner.insert (byOwnerKey owner address) (frameNumber, proof)
    proofs := p.proofs.insert address (frameNumber, proof) }

def deletePreCoinProof (p : PebbleCoinStore) (address : Bytes) (proof : PreCoinProof) : PebbleCoinStore :=
  { p with
    proofs := p.proofs.erase address
    proofsByOwner := p.proofsByOwner.erase (byOwnerKey (ownerAddress proof.owner) address) }

def setLatestFrameProcessed (p : PebbleCoinStore) (frameNumber : UInt64) : PebbleCoinStore :=
  { p with latestExecution := some frameNumber }

def view (p : PebbleCoinStore) : CoinStore := ⟨p.getCoinByAddress, p.getPreCoinProofsForOwner⟩

def total (p : PebbleCoinStore) : Nat := p.coins.weigh fun stored => setBytes stored.2.amount

theorem get_coin_ok_iff : p.getCoinByAddress address = .ok coin ↔ ∃ frameNumber, p.coins.lookup address = some (frameNumber, coin) := by
  rw [getCoinByAddress]
  rcases p.coins.lookup address with _ | ⟨frameNumber, stored⟩
  · simp
  · simp

theorem put_coin_coins (done : p.putCoin frameNumber address coin = .ok next) :
    next.coins = p.coins.insert address (frameNumber, coin) := by
  obtain ⟨owner, -, result⟩ := (bind_ok_iff _ _ _).mp done
  rw [← Except.ok.inj result]

theorem put_proof_coins {proof : PreCoinProof} (done : p.putPreCoinProof frameNumber address proof = .ok next) : next.coins = p.coins := by
  obtain ⟨owner, -, result⟩ := (bind_ok_iff _ _ _).mp done
  rw [← Except.ok.inj result]

end PebbleCoinStore

end Ceremony
