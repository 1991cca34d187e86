import CeremonyClient.Lib.Go
import CeremonyClient.Lib.Passes
import Mathlib.Algebra.Field.ZMod
import Mathlib.Algebra.Module.Defs

set_option autoImplicit false

namespace Ceremony

namespace Verenc

open GoSem

-- A Rust function here either returns, panics, or runs out of the fuel of its while loop.
structure Curve (F G : Type) where
  generator : G
  compress : G → Bytes
  decompress : Bytes → Option G
  toBytes : F → Bytes
  fromBytes : Bytes → F
  sha512 : Bytes → { digest : Bytes // digest.length = 64 }

structure PKECipherText (F G : Type) where
  c1 : G
  c2 : F

structure RDkgithParams where
  N : Nat
  t : Nat
  n : Nat

def rveParams : RDkgithParams := ⟨64, 22, 3⟩

structure RDkgithProof (F G : Type) where
  challenge : Bytes
  polycom : List G
  ctexts : List (PKECipherText F G × Nat)
  sharesRands : List (F × F × Nat)

structure RDkgithCipherText (F G : Type) where
  ctexts : List (PKECipherText F G)
  aux : List F

-- The multiples of the generator that prove and verify take do not depend on the base point.
structure RDkgith (G : Type) where
  base : G
  vparams : RDkgithParams
  ek : G

def bytesToU32 : Bytes → List Nat
  | a :: b :: c :: d :: rest => (a.toNat + 256 * b.toNat + 65536 * c.toNat + 16777216 * d.toNat) :: bytesToU32 rest
  | _ => []

def pushIndices (N lengthRequired : Nat) : List Nat → List Nat → List Nat
  | [], output => output
  | next :: rest, output =>
      let pushed := if output.contains (next % N) then output else output ++ [next % N]
      if pushed.length = lengthRequired then pushed else pushIndices N lengthRequired rest pushed

section Scheme

variable {F G : Type} [Field F] [AddCommGroup G] [Module F G] [DecidableEq G] (curve : Curve F G)

def expandLoop (N lengthRequired : Nat) : Nat → Bytes → List Nat → Go (List Nat)
  | fuel, c, output =>
      if output.length < lengthRequired then
        match fuel with
        | 0 => .error .outOfFuel
        | fuel + 1 =>
            let pushed := pushIndices N lengthRequired (bytesToU32 c) output
            expandLoop N lengthRequired fuel (if pushed.length ≠ lengthRequired then (curve.sha512 c).val else c) pushed
      else .ok output

def expandChallenge (vparams : RDkgithParams) (fuel : Nat) (challenge : Bytes) : Go (List Nat) := do
  if vparams.N < vparams.t then crash
  let output ← expandLoop curve vparams.N (vparams.N - vparams.t) fuel challenge []
  return output.insertionSort (· ≤ ·)

def hashToFF (point : G) : F := curve.fromBytes ((curve.sha512 (curve.compress point)).val.take 56)

def PKECipherText.toBytes (ct : PKECipherText F G) : Bytes := curve.compress ct.c1 ++ curve.toBytes ct.c2

def encryptGivenR (ek : G) (msg r : F) : PKECipherText F G := ⟨r • curve.generator, hashToFF curve (r • ek) + msg⟩

def pkeKgen (x : F) : G × F := (x • curve.generator, x)

-- FF::from((i+1) as u32)
def shareX (i : Nat) : F := ((i + 1) % 2 ^ 32 : Nat)

-- FF::from(*i as u32 + 1), where the sum may overflow
def partyX (i : Nat) : Go F := if i % 2 ^ 32 + 1 < 2 ^ 32 then .ok ((i % 2 ^ 32 + 1 : Nat) : F) else crash

-- The polynomial's value by increasing powers.
def shareValue (first : F) (others : List F) (x : F) : F :=
  (others.foldl (fun (acc : F × F) coeff => (acc.1 + coeff * acc.2, acc.2 * x)) (first, x)).1

def transcript (ek stm : G) (polycom : List G) (ctexts : Bytes) : Bytes :=
  polycom.flatMap curve.compress ++ ctexts ++ curve.compress stm ++ curve.compress ek

-- The random coefficients and encryption randomness in the order of their draws.
structure ProverDraws (F : Type) where
  coeff : Nat → F
  rand : Nat → F

def proverShare (t : Nat) (draws : ProverDraws F) (wit : F) (i : Nat) : F :=
  shareValue wit ((List.range t).map draws.coeff) (shareX i)

def proverCiphertext (ve : RDkgith G) (draws : ProverDraws F) (wit : F) (i : Nat) : PKECipherText F G :=
  encryptGivenR curve ve.ek (proverShare ve.vparams.t draws wit i) (draws.rand i)

def proverPolycom (ve : RDkgith G) (draws : ProverDraws F) (wit : F) : List G :=
  (wit :: (List.range ve.vparams.t).map draws.coeff).map fun aj => aj • curve.generator

def proverChallenge (ve : RDkgith G) (stm : G) (wit : F) (draws : ProverDraws F) : Bytes :=
  (curve.sha512 (transcript curve ve.ek stm (proverPolycom curve ve draws wit)
    ((List.range ve.vparams.N).flatMap fun i => (proverCiphertext curve ve draws wit i).toBytes curve))).val

def prove (ve : RDkgith G) (fuel : Nat) (stm : G) (wit : F) (draws : ProverDraws F) : Go (RDkgithProof F G) := do
  let chal := proverChallenge curve ve stm wit draws
  let pIndices ← expandChallenge curve ve.vparams fuel chal
  return {
    challenge := chal
    polycom := proverPolycom curve ve draws wit
    ctexts := ((List.range ve.vparams.N).filter fun i => pIndices.contains i).map fun i => (proverCiphertext curve ve draws wit i, i)
    sharesRands := ((List.range ve.vparams.N).filter fun i => !pIndices.contains i).map fun i =>
      (proverShare ve.vparams.t draws wit i, draws.rand i, i) }

-- The loop over the parties; none is the early return of false.
def reconstruct (ve : RDkgith G) (pIndices : List Nat) (pi : RDkgithProof F G) : List Nat → Nat → Nat → Go (Option Bytes)
  | [], _, _ => .ok (some [])
  | i :: rest, ctrHide, ctrOpen =>
      if pIndices.contains i then do
        let (ct, idx) ← index pi.ctexts ctrHide
        if i ≠ idx then return none
        else return (← reconstruct ve pIndices pi rest (ctrHide + 1) ctrOpen).map (ct.toBytes curve ++ ·)
      else do
        let (s, r, idx) ← index pi.sharesRands ctrOpen
        if i ≠ idx then return none
        else return (← reconstruct ve pIndices pi rest ctrHide (ctrOpen + 1)).map ((encryptGivenR curve ve.ek s r).toBytes curve ++ ·)

def addPowers (x d : F) : F → List F → List F
  | _, [] => []
  | pow, scalar :: rest => (scalar + pow * d) :: addPowers x d (pow * x) rest

-- The random linear combination of the opened shares: the left scalar and the right ones.
def batchScalars : List (F × F × Nat) → (Nat → F) → F × List F → Go (F × List F)
  | [], _, scalars => .ok scalars
  | (s, _, i) :: rest, draw, (left, rights) => do
      let x ← partyX i
      batchScalars rest (fun k => draw (k + 1)) (left + s * draw 0, addPowers x (draw 0) 1 rights)

def combine (polycom : List G) (rights : List F) : Go G :=
  (List.range polycom.length).foldlM (fun right i => do
    let com ← index polycom i
    let scalar ← index rights i
    return right + scalar • com) 0

def checkShares (t : Nat) (pi : RDkgithProof F G) (draw : Nat → F) : Go Bool := do
  let (left, rights) ← batchScalars pi.sharesRands draw (0, List.replicate (t + 1) 0)
  let right ← combine pi.polycom rights
  return decide (left • curve.generator = right)

def checkTranscript (ve : RDkgith G) (stm : G) (pi : RDkgithProof F G) (commitments : List G) (pIndices : List Nat) (draw : Nat → F) : Go Bool := do
  let some hashed ← reconstruct curve ve pIndices pi (List.range ve.vparams.N) 0 0 | return false
  if (curve.sha512 (transcript curve ve.ek stm commitments hashed)).val ≠ pi.challenge then return false
  else checkShares curve ve.vparams.t pi draw

def verify (ve : RDkgith G) (fuel : Nat) (stm : G) (pi : RDkgithProof F G) (draw : Nat → F) : Go Bool := do
  let pIndices ← expandChallenge curve ve.vparams fuel pi.challenge
  let commitments ← (List.range (ve.vparams.t + 1)).mapM (index pi.polycom)
  if pi.ctexts.length ≠ ve.vparams.N - ve.vparams.t ∨ pi.sharesRands.length ≠ ve.vparams.t ∨
      pIndices.length ≠ ve.vparams.N - ve.vparams.t then return false
  else checkTranscript curve ve stm pi commitments pIndices draw

-- The product of j/(j-i) over the other open parties, multiplied up separately.
def openFactors (i : Nat) (iFF : F) : List Nat → F × F → Go (F × F)
  | [], factors => .ok factors
  | j :: rest, (prod, denom) =>
      if j ≠ i then do
        let jFF ← partyX j
        openFactors i iFF rest (prod * jFF, denom * (jFF - iFF))
      else openFactors i iFF rest (prod, denom)

def openLagrange (openIndices : List Nat) (i : Nat) : Go F := do
  let iFF ← partyX i
  let (prod, denom) ← openFactors i iFF openIndices (1, 1)
  return prod * denom⁻¹

def hiddenFactor (iHide : Nat) (iHideFF : F) : List Nat → F → Go F
  | [], prod => .ok prod
  | j :: rest, prod =>
      if j ≠ iHide then do
        let jFF ← partyX j
        hiddenFactor iHide iHideFF rest (prod * jFF * (jFF - iHideFF)⁻¹)
      else hiddenFactor iHide iHideFF rest prod

def addOpened (lagrange : List F) (sharesRands : List (F × F × Nat)) (iHideFF : F) : List Nat → Nat → F → Go F
  | [], _, c2 => .ok c2
  | i :: rest, ctrOpen, c2 => do
      let iFF ← partyX i
      let deltaI ← index lagrange i
      let (s, _, _) ← index sharesRands ctrOpen
      addOpened lagrange sharesRands iHideFF rest (ctrOpen + 1) (c2 + deltaI * iHideFF * (iHideFF - iFF)⁻¹ * s)

def compressHidden (pi : RDkgithProof F G) (openIndices : List Nat) (lagrange : List F) (subset : List Nat) :
    List Nat → Nat → Go (List (PKECipherText F G × F))
  | [], _ => .ok []
  | iHide :: rest, ctrHide =>
      if !subset.contains iHide then compressHidden pi openIndices lagrange subset rest (ctrHide + 1)
      else do
        let (ct, _) ← index pi.ctexts ctrHide
        let iHideFF ← partyX iHide
        let prod ← hiddenFactor iHide iHideFF openIndices 1
        let c2 ← addOpened lagrange pi.sharesRands iHideFF openIndices 0 (ct.c2 * prod)
        return (⟨ct.c1, c2⟩, prod) :: (← compressHidden pi openIndices lagrange subset rest (ctrHide + 1))

-- subset is what choose_multiple draws from the hidden indices.
def compress (ve : RDkgith G) (fuel : Nat) (pi : RDkgithProof F G) (subset : List Nat) : Go (RDkgithCipherText F G) := do
  let hideIndices ← expandChallenge curve ve.vparams fuel pi.challenge
  let openIndices := (List.range ve.vparams.N).filter fun i => !hideIndices.contains i
  if openIndices.length ≠ ve.vparams.t then crash
  let lagrange ← openIndices.foldlM (fun lagrange i => return lagrange.set i (← openLagrange openIndices i)) (List.replicate ve.vparams.N (0 : F))
  let parts ← compressHidden pi openIndices lagrange subset hideIndices 0
  return ⟨parts.map Prod.fst, parts.map Prod.snd⟩

def checkInstance (ve : RDkgith G) (stm : G) (wit : F) : Bool := decide (wit • ve.base = stm)

def recoverLoop (ve : RDkgith G) (stm : G) (dk : F) (veCt : RDkgithCipherText F G) : List Nat → Go F
  | [] => .ok 0
  | i :: rest => do
      let ct ← index veCt.ctexts i
      let delta ← index veCt.aux i
      let ptext := ct.c2 - hashToFF curve (dk • ct.c1) * delta
      if checkInstance ve stm ptext then return ptext else recoverLoop ve stm dk veCt rest

def recover (ve : RDkgith G) (stm : G) (dk : F) (veCt : RDkgithCipherText F G) : Go F :=
  recoverLoop curve ve stm dk veCt (List.range ve.vparams.n)

end Scheme

end Verenc

end Ceremony
