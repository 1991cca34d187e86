import CeremonyClient.Protobufs.Messages
import CeremonyClient.Protobufs.Primitives
import CeremonyClient.Tries.RollingFrecency

set_option autoImplicit false

namespace Ceremony

open GoSem

variable {prim : Primitives} {k : Nat} {addresses : Bytes × Bytes}

def errInvalidStateTransition : GoError := errorsNew "invalid state transition"

def errNotFound : GoError := errorsNew "item not found"

def TOKEN_ADDRESS : Bytes :=
  [0x11, 0x55, 0x85, 0x84, 0xaf, 0x70, 0x17, 0xa9, 0xbf, 0xd1, 0xff, 0x18, 0x64, 0x30, 0x2d, 0x64,
   0x3f, 0xbe, 0x58, 0xc6, 0x2d, 0xcf, 0x90, 0xcb, 0xcd, 0x8f, 0xde, 0x74, 0xa2, 0x67, 0x94, 0xd9]

-- Package variables of the token application; only tests assign to them.
def PROOF_FRAME_CUTOFF : UInt64 := 0

def PROOF_FRAME_RING_RESET : UInt64 := 0

def PROOF_FRAME_RING_RESET_2 : UInt64 := 0

def PROOF_FRAME_COMBINE_CUTOFF : UInt64 := 0

def PROOF_FRAME_SENIORITY_REPAIR : UInt64 := 0

structure CoinStore where
  getCoinByAddress : Bytes → Except GoError Coin
  getPreCoinProofsForOwner : Bytes → Except GoError (List PreCoinProof)

structure ClockStore where
  getDataClockFrame : (filter : Bytes) → (frameNumber : UInt64) → (truncate : Bool) → Except GoError ClockFrame

structure TokenApplication where
  prim : Primitives
  beacon : Bytes
  tries : List RollingFrecencyCritbitTrie
  coinStore : CoinStore
  clockStore : ClockStore
  difficulty : UInt32

-- The bits of one position, most significant first, read upwards from bit `start`.
def bloomPosition (digest : Nat) (size start : Nat) : Nat :=
  (List.range size).foldl (fun position j => position <<< 1 ||| (digest.testBit (start + j)).toNat) 0

-- A collision adds a round while there are fewer rounds than bits per position, so max k size rounds suffice.
def bloomRounds (digest : Nat) (size : Nat) : Nat → (i k output : Nat) → Nat
  | 0, _, _, output => output
  | fuel + 1, i, k, output =>
      if i < k then
        let position := bloomPosition digest size (size * i)
        if output.testBit position then bloomRounds digest size fuel (i + 1) (if k < size then k + 1 else k) output
        else bloomRounds digest size fuel (i + 1) k (output ||| 1 <<< position)
      else output

def getBloomFilter (prim : Primitives) (data : Bytes) (bitLength k : Nat) : Go Bytes :=
  let size := Nat.log2 bitLength
  let digest := setBytes (prim.sha3Sum256 data).bytes
  fillBytes (bitLength / 8) (bloomRounds digest size (max k size) 0 k 0 : Nat)

theorem bloom_bits_lt (digest start : Nat) (bits : List Nat) (position width : Nat) (small : position < 2 ^ width) :
    bits.foldl (fun position j => position <<< 1 ||| (digest.testBit (start + j)).toNat) position < 2 ^ (width + bits.length) := by
  induction bits generalizing position width with
  | nil => simpa using small
  | cons bit tail ih =>
      have doubled : position <<< 1 < 2 ^ (width + 1) := by
        rw [Nat.shiftLeft_eq, Nat.pow_succ 2 width]
        omega
      have low : (digest.testBit (start + bit)).toNat < 2 ^ (width + 1) :=
        (Bool.toNat_lt _).trans_le (Nat.pow_le_pow_right Nat.two_pos (Nat.le_add_left 1 width))
      have next := ih _ (width + 1) (Nat.or_lt_two_pow doubled low)
      rw [List.length_cons, show width + (tail.length + 1) = width + 1 + tail.length by omega]
      exact next

theorem bloom_rounds_lt {digest size fuel i output : Nat} (small : output < 2 ^ 2 ^ size) :
    bloomRounds digest size fuel i k output < 2 ^ 2 ^ size := by
  induction fuel generalizing i k output with
  | zero => exact small
  | succ fuel ih =>
      rw [bloomRounds]
      by_cases more : i < k
      · rw [if_pos more]
        by_cases taken : output.testBit (bloomPosition digest size (size * i)) = true
        · simp only [taken, if_true]
          exact ih small
        · simp only [taken]
          apply ih
          apply Nat.or_lt_two_pow small
          have position : bloomPosition digest size (size * i) < 2 ^ size := by
            simpa [bloomPosition] using bloom_bits_lt digest (size * i) (List.range size) 0 0 (by decide)
          rw [Nat.one_shiftLeft]
          exact Nat.pow_lt_pow_right (by decide) position
      · rw [if_neg more]
        exact small

theorem bloom_filter_total (prim : Primitives) (data : Bytes) (size k : Nat) (whole : 3 ≤ size) :
    ∃ filter, getBloomFilter prim data (2 ^ size) k = .ok filter := by
  have bytes : (256 : Nat) ^ (2 ^ size / 8) = 2 ^ 2 ^ size := by
    obtain ⟨rest, isSize⟩ := Nat.exists_eq_add_of_le whole
    rw [isSize, Nat.pow_add, show 2 ^ 3 = 8 by decide, Nat.mul_div_cancel_left _ (by decide), show (256 : Nat) = 2 ^ 8 by decide, ← pow_mul]
  have fits : (bloomRounds (setBytes (prim.sha3Sum256 data).bytes) size (max k size) 0 k 0 : Int).natAbs < 256 ^ (2 ^ size / 8) := by
    rw [bytes, Int.natAbs_natCast]
    exact bloom_rounds_lt (Nat.pow_pos (by decide))
  simp only [getBloomFilter, Nat.log2_two_pow, fillBytes, if_pos fits]
  exact ⟨_, rfl⟩

-- dst[i] |= b for every byte of src: writing past the end of dst panics.
def orInto (dst src : Bytes) : Go Bytes :=
  if src.length ≤ dst.length then
    .ok (List.zipWith (fun d s => d ||| s) (dst.take src.length) src ++ dst.drop src.length)
  else crash

-- The two addresses a signer may own coins under: the hash of the key itself and the
-- hash of the peer ID of the key.
def signerAddresses (prim : Primitives) (signature : Option Ed448Signature) : Go (Bytes × Bytes) := do
  let s ← deref signature
  let publicKey ← deref s.publicKey
  let addr ← hashAddress prim publicKey.keyValue
  let altAddr ← peerAddress prim publicKey.keyValue
  return (addr, altAddr)

def signerKey (signature : Option Ed448Signature) : Go Bytes := do
  let s ← deref signature
  let publicKey ← deref s.publicKey
  return publicKey.keyValue

def ownedBy (coin : Coin) (addresses : Bytes × Bytes) : Go Bool := do
  let owner ← implicitAddress coin.owner
  return owner == addresses.1 || owner == addresses.2

theorem signer_addresses_ok {signature : Option Ed448Signature} (found : signerAddresses prim signature = .ok addresses) :
    ∃ key, signerKey signature = .ok key ∧ hashAddress prim key = .ok addresses.1 ∧
      peerAddress prim key = .ok addresses.2 := by
  simp only [signerAddresses, bind_ok_iff, deref_ok_iff] at found
  obtain ⟨s, isSignature, publicKey, isKey, addr, hashed, altAddr, peerHashed, same⟩ := found
  cases same
  exact ⟨publicKey.keyValue, by simp [signerKey, isSignature, isKey, pure, Except.pure], hashed, peerHashed⟩

theorem owned_by_ok_iff {coin : Coin} :
    ownedBy coin addresses = .ok true ↔
      ∃ owner, implicitAddress coin.owner = .ok owner ∧ (owner = addresses.1 ∨ owner = addresses.2) := by
  simp only [ownedBy, bind_ok_iff, pure, Except.pure, Except.ok.injEq, Bool.or_eq_true, beq_iff_eq]

end Ceremony
