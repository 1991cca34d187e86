import CeremonyClient.Token.Transitions

set_option autoImplicit false

namespace Ceremony

open GoSem

variable {start prior : PriorMint} {p : PreCoinProof}

def mintRoot (t : MintCoinRequest) : Bytes := t.proofs.headD []

def mintModulo (t : MintCoinRequest) : UInt32 := UInt32.ofNat (setBytes ((t.proofs.getD 1 []).take 4))

def mintFrameNumber (t : MintCoinRequest) : UInt64 := UInt64.ofNat (setBytes ((t.proofs.getD 2 []).take 8))

theorem unpack_mint {prim : Primitives} {previousRoot : Bytes} {t : MintCoinRequest} {unpacked : Unpacked}
    (done : unpackAndVerifyMultiOutput prim previousRoot t.proofs = .ok unpacked) :
    unpacked.treeRoot = mintRoot t ∧ unpacked.modulo = mintModulo t ∧ unpacked.frameNumber = mintFrameNumber t ∧
      ∃ modulo rest, t.proofs = mintRoot t :: modulo :: rest ∧ 4 ≤ modulo.length := by
  obtain ⟨many, root, modulo, number⟩ := unpack_and_verify_ok done
  rw [mintRoot, mintModulo, mintFrameNumber]
  rcases shape : t.proofs with _ | ⟨first, _ | ⟨second, _ | ⟨third, rest⟩⟩⟩
  · simp [shape] at many
  · simp [shape] at many
  · simp [shape] at many
  · simp only [shape, index, List.getElem?_cons_zero, List.getElem?_cons_succ, deref, ok_bind, beUint32, beUint64, Except.ok.injEq] at root modulo number
    by_cases short : second.length < 4
    · rw [if_pos short] at modulo
      cases modulo
    · by_cases shortNumber : third.length < 8
      · rw [if_pos shortNumber] at number
        cases number
      · rw [if_neg short] at modulo
        rw [if_neg shortNumber] at number
        exact ⟨root.symm, (Except.ok.inj modulo).symm, (Except.ok.inj number).symm, second, third :: rest, rfl, not_lt.mp short⟩

section Reading

variable (a : TokenApplication) (filter : Bytes)

theorem read_prior_mint_cases {prfs : List PreCoinProof} (done : readPriorMint a filter prfs start = .ok (some prior)) :
    (prior = start ∧ ∀ p ∈ prfs, ¬ isChainProof p) ∨
      ∃ p ∈ prfs, isChainProof p ∧ prior.delete = some p ∧ prior.commitment.length = 32 := by
  induction prfs generalizing start with
  | nil => exact .inl ⟨(Option.some.inj (Except.ok.inj done)).symm, by simp⟩
  | cons p tail ih =>
      rw [readPriorMint] at done
      by_cases chain : isChainProof p
      · rw [if_pos chain] at done
        simp only [bind_ok_iff] at done
        obtain ⟨commitment, front, _, -, _, -, third, -, done⟩ := done
        cases known : a.clockStore.getDataClockFrame filter _ true with
        | error cause =>
            rw [known] at done
            cases done
        | ok previousFrame =>
            rw [known] at done
            rcases ih done with ⟨same, -⟩ | ⟨other, member, isChain, deleted, size⟩
            · subst same
              refine .inr ⟨p, List.mem_cons_self, chain, rfl, ?_⟩
              rw [slice] at front
              by_cases fits : 0 ≤ 32 ∧ 32 ≤ p.commitment.length
              · rw [if_pos fits] at front
                rw [← Except.ok.inj front]
                simp [fits.2]
              · rw [if_neg fits] at front
                cases front
            · exact .inr ⟨other, List.mem_cons_of_mem _ member, isChain, deleted, size⟩
      · rw [if_neg chain] at done
        rcases ih done with ⟨same, none⟩ | ⟨other, member, rest⟩
        · exact .inl ⟨same, List.forall_mem_cons.mpr ⟨chain, none⟩⟩
        · exact .inr ⟨other, List.mem_cons_of_mem _ member, rest⟩

theorem read_prior_mint_cons {tail : List PreCoinProof} :
    readPriorMint a filter (p :: tail) start = readPriorMint a filter [p] start >>= fun read =>
      match read with
      | none => .ok none
      | some prior => readPriorMint a filter tail prior := by
  by_cases chain : isChainProof p
  · simp only [readPriorMint, if_pos chain, bind_assoc]
    refine bind_congr fun commitment => bind_congr fun _ => bind_congr fun previousFrameNumber => bind_congr fun _ =>
      bind_congr fun previousParallelism => bind_congr fun priorCommitment => ?_
    cases a.clockStore.getDataClockFrame filter previousFrameNumber true <;> rfl
  · simp only [readPriorMint, if_neg chain, ok_bind]

theorem read_prior_mint_only {prfs : List PreCoinProof} (reads : readPriorMint a filter [p] noPriorMint = .ok (some prior))
    (again : readPriorMint a filter [p] prior = .ok (some prior)) (chain : isChainProof p)
    (only : ∀ other ∈ prfs, isChainProof other → other = p) (member : p ∈ prfs) :
    readPriorMint a filter prfs noPriorMint = .ok (some prior) := by
  have both : ∀ start, start = noPriorMint ∨ start = prior →
      readPriorMint a filter prfs start = .ok (some (if p ∈ prfs then prior else start)) := by
    clear member
    induction prfs with
    | nil => simp [readPriorMint]
    | cons other tail ih =>
        obtain ⟨onlyHead, onlyTail⟩ := List.forall_mem_cons.mp only
        intro start isStart
        by_cases counts : isChainProof other
        · have same := onlyHead counts
          subst same
          have read : readPriorMint a filter [other] start = .ok (some prior) := by
            rcases isStart with isStart | isStart
            · rw [isStart, reads]
            · rw [isStart, again]
          rw [read_prior_mint_cons, read, ok_bind, if_pos List.mem_cons_self]
          exact (ih onlyTail prior (.inr rfl)).trans (by rw [ite_self])
        · have different : p ≠ other := fun same => counts (same ▸ chain)
          rw [readPriorMint, if_neg counts, ih onlyTail start isStart]
          simp only [List.mem_cons, different, false_or]
  rw [both _ (.inl rfl), if_pos member]

end Reading

structure StoredMint where
  application : TokenApplication
  fuel : Nat
  currentFrameNumber : UInt64
  request : MintCoinRequest
  frame : ClockFrame
  processed : ProcessedMint
  parallelismMap : Int → UInt64
  outputs : List TokenOutput
  proof : PreCoinProof
  many : 3 ≤ request.proofs.length
  preProcessed : preProcessMint application fuel currentFrameNumber request frame = .ok processed
  handled : handleMint application currentFrameNumber request processed parallelismMap = .ok outputs
  stored : TokenOutput.proof proof ∈ outputs

namespace StoredMint

def owner (m : StoredMint) : Bytes := PebbleCoinStore.ownerAddress m.proof.owner

def preceding (m : StoredMint) : Bytes :=
  match m.application.coinStore.getPreCoinProofsForOwner m.owner with
  | .error _ => []
  | .ok prfs =>
      match readPriorMint m.application m.frame.filter prfs noPriorMint with
      | .ok (some prior) => prior.commitment
      | _ => []

theorem anatomy (m : StoredMint) : ∃ prfs prior, m.application.coinStore.getPreCoinProofsForOwner m.owner = .ok prfs ∧
    readPriorMint m.application m.frame.filter prfs noPriorMint = .ok (some prior) ∧ m.preceding = prior.commitment ∧
      (∃ modulo rest, m.request.proofs = mintRoot m.request :: modulo :: rest ∧ 4 ≤ modulo.length) ∧
      m.proof.commitment = mintRoot m.request ++ beBytes 8 (mintFrameNumber m.request).toNat ++ m.preceding ∧
      m.proof.proof = m.request.signatureMessage ∧ (∀ p, TokenOutput.proof p ∈ m.outputs → p = m.proof) ∧
      ∀ p, prior.delete = some p → TokenOutput.deletedProof p ∈ m.outputs := by
  obtain ⟨key, peerId, addr, isKey, isPeer, hashed, single | early | late⟩ := pre_process_mint_cases m.preProcessed
  · have many := m.many
    omega
  · exact absurd early.1 (UInt64.not_lt.mpr UInt64.zero_le)
  · obtain ⟨otherKey, otherAddr, isOther, peered, ends⟩ := handle_mint_cases _ _ _ _ _ _ m.handled
    have sameAddr : otherAddr = addr := by
      rw [isKey, Except.ok.injEq] at isOther
      rw [← isOther, peerAddress, isPeer, ok_bind, hashed] at peered
      exact (Except.ok.inj peered).symm
    subst sameAddr
    have stored := m.stored
    rcases pre_process_chain_cases late.2 with penalized | ⟨prfs, prior, unpacked, wesoVerified, listed, read, unpack, -, -, isProcessed⟩
    · rw [penalized] at ends
      rcases ends with ⟨pre2, -⟩ | ⟨-, -, -, _, -, ⟨-, outputs⟩ | ⟨none, -⟩ | ⟨none, -⟩⟩
      · cases pre2
      · simp [outputs] at stored
      · cases none
      · cases none
    · obtain ⟨root, modulo, number, shape⟩ := unpack_mint unpack
      have left : ∃ amount, m.proof = mintProof m.application m.request m.processed otherAddr amount ∧
          (∀ p, TokenOutput.proof p ∈ m.outputs → p = m.proof) ∧
          ∀ p, m.processed.deletedProof = some p → TokenOutput.deletedProof p ∈ m.outputs := by
        rcases ends with ⟨pre2, -⟩ | ⟨-, -, -, _, -, ⟨penalty, -⟩ | ⟨-, -, amount, -, outputs⟩ | ⟨-, -, punishment, isPunishment, outputs⟩⟩
        · rw [isProcessed] at pre2
          cases pre2
        · rw [isProcessed] at penalty
          cases penalty
        · have only : ∀ p, TokenOutput.proof p ∈ m.outputs → p = mintProof m.application m.request m.processed otherAddr amount := by
            intro p member
            simpa [outputs] using member
          exact ⟨amount, only _ stored, fun p member => (only p member).trans (only _ stored).symm, fun p deleted => by simp [outputs, deleted]⟩
        · have only : ∀ p, TokenOutput.proof p ∈ m.outputs → p = mintProof m.application m.request m.processed otherAddr [] := by
            intro p member
            rcases isPunishment with none | one
            · simpa [outputs, none] using member
            · simpa [outputs, one] using member
          exact ⟨[], only _ stored, fun p member => (only p member).trans (only _ stored).symm, fun p deleted => by simp [outputs, deleted]⟩
      obtain ⟨amount, isProof, only, deletes⟩ := left
      have isOwner : m.owner = otherAddr := by
        rw [owner, isProof]
        rfl
      have isPreceding : m.preceding = prior.commitment := by
        rw [preceding, isOwner, listed]
        simp only [read]
      refine ⟨prfs, prior, by rw [isOwner, listed], read, isPreceding, shape, ?_, by rw [isProof]; rfl, only, ?_⟩
      · rw [isProof, isPreceding, mintProof, mintCommitment, isProcessed, root, number]
        rfl
      · intro p deleted
        exact deletes p (by rw [isProcessed, deleted])

theorem preceding_sized (m : StoredMint) : m.preceding.length = 0 ∨ m.preceding.length = 32 := by
  obtain ⟨prfs, prior, -, read, isPreceding, -⟩ := m.anatomy
  rw [isPreceding]
  rcases read_prior_mint_cases _ _ read with ⟨same, -⟩ | ⟨_, -, -, -, size⟩
  · rw [same]
    exact .inl rfl
  · exact .inr size

theorem proof_shape (m : StoredMint) (sized : (mintRoot m.request).length = 32) :
    isChainProof m.proof ∧ slice m.proof.commitment 0 32 = .ok (mintRoot m.request) ∧
      (slice m.proof.commitment 32 40 >>= beUint64) = .ok (mintFrameNumber m.request) ∧
      (slice m.proof.proof 36 40 >>= beUint32) = .ok (mintModulo m.request) ∧
      ∀ kept, kept = [] ∨ kept = m.preceding → thirdPart m.proof.commitment kept = .ok m.preceding := by
  obtain ⟨prfs, prior, -, -, -, ⟨modulo, rest, shape, wide⟩, commitment, proof, -, -⟩ := m.anatomy
  have width : (beBytes 8 (mintFrameNumber m.request).toNat).length = 8 := be_bytes_length _ _
  have size : m.proof.commitment.length = 40 + m.preceding.length := by
    rw [commitment, List.length_append, List.length_append, sized, width]
  have payload : m.proof.proof = (ascii ['m', 'i', 'n', 't'] ++ mintRoot m.request) ++ (modulo ++ rest.flatten) := by
    rw [proof, MintCoinRequest.signatureMessage, shape, List.flatten_cons, List.flatten_cons, List.append_assoc]
  have front : (ascii ['m', 'i', 'n', 't'] ++ mintRoot m.request).length = 36 := by
    rw [List.length_append, sized]
    rfl
  refine ⟨⟨?_, ?_⟩, ?_, ?_, ?_, ?_⟩
  · rw [payload, List.length_append, front]
    omega
  · rw [size]
    rcases m.preceding_sized with none | full
    · omega
    · omega
  · rw [slice, if_pos ⟨by omega, by omega⟩, commitment, List.drop_zero, List.append_assoc, List.take_left' sized]
  · rw [slice, if_pos ⟨by omega, by omega⟩, ok_bind, commitment, List.append_assoc, List.drop_left' sized, List.take_left' width]
    have read := be_uint64_append (mintFrameNumber m.request) []
    rwa [List.append_nil] at read
  · have long : 40 ≤ m.proof.proof.length := by
      rw [payload, List.length_append, front, List.length_append]
      omega
    have isModulo : mintModulo m.request = UInt32.ofNat (setBytes (modulo.take 4)) := by
      rw [mintModulo, shape]
      rfl
    rw [slice, if_pos ⟨by omega, long⟩, ok_bind, payload, List.drop_left' front, List.take_append_of_le_length wide, beUint32,
      if_neg (by rw [List.length_take]; omega), List.take_take, isModulo]
    rfl
  · intro kept isKept
    rw [thirdPart, size]
    by_cases more : 40 + m.preceding.length > 40
    · rw [if_pos more, sliceFrom, if_pos (by omega), commitment, List.drop_left' (by rw [List.length_append, sized, width])]
    · have empty : m.preceding = [] := List.length_eq_zero_iff.mp (by omega)
      rw [if_neg more, empty]
      rcases isKept with isKept | isKept
      · rw [isKept]
      · rw [isKept, empty]

end StoredMint

-- Between two mints of a prover only entries that do not count come and go.
inductive ProofHistory (owner : Bytes) : List PreCoinProof → Option StoredMint → Prop
  | start (prfs : List PreCoinProof) (plain : ∀ p ∈ prfs, ¬ isChainProof p) : ProofHistory owner prfs none
  | other (prfs next : List PreCoinProof) (last : Option StoredMint) (before : ProofHistory owner prfs last)
      (same : ∀ p, isChainProof p → (p ∈ next ↔ p ∈ prfs)) (kept : ∀ m, last = some m → m.proof ∈ next) :
      ProofHistory owner next last
  | mint (prfs next : List PreCoinProof) (last : Option StoredMint) (before : ProofHistory owner prfs last) (m : StoredMint)
      (own : m.owner = owner) (listed : m.application.coinStore.getPreCoinProofsForOwner owner = .ok prfs)
      (applied : ∀ p, p ∈ next ↔ p ∈ prfs ∧ TokenOutput.deletedProof p ∉ m.outputs ∨ TokenOutput.proof p ∈ m.outputs) :
      ProofHistory owner next (some m)

-- A mint deletes the entry it was checked against, so only the last mint's entry counts.
theorem history_last {owner : Bytes} {prfs : List PreCoinProof} {last : Option StoredMint} (history : ProofHistory owner prfs last) :
    (∀ p ∈ prfs, isChainProof p → ∃ m, last = some m ∧ p = m.proof) ∧ ∀ m, last = some m → m.proof ∈ prfs := by
  induction history with
  | start prfs plain =>
      refine ⟨fun p member chain => absurd chain (plain p member), ?_⟩
      intro m impossible
      cases impossible
  | other prfs next last before same kept ih =>
      exact ⟨fun p member chain => ih.1 p ((same p chain).mp member) chain, kept⟩
  | mint prfs next last before m own listed applied ih =>
      obtain ⟨others, prior, isListed, read, -, -, -, -, only, deletes⟩ := m.anatomy
      rw [own, listed, Except.ok.injEq] at isListed
      subst isListed
      constructor
      · intro p member chain
        rcases (applied p).mp member with ⟨old, remains⟩ | new
        · exfalso
          obtain ⟨lastMint, isLast, isProof⟩ := ih.1 p old chain
          rcases read_prior_mint_cases _ _ read with ⟨-, none⟩ | ⟨q, inside, counts, deleted, -⟩
          · exact none p old chain
          · obtain ⟨sameMint, isSame, isOther⟩ := ih.1 q inside counts
            rw [isLast, Option.some.injEq] at isSame
            rw [isProof, isSame, ← isOther] at remains
            exact remains (deletes q deleted)
        · exact ⟨m, rfl, only p new⟩
      · intro other isOther
        rw [← Option.some.inj isOther]
        exact (applied _).mpr (.inr m.stored)

def checkedAgainst (a : TokenApplication) (fuel : Nat) (currentFrameNumber : UInt64) (t : MintCoinRequest) (frame : ClockFrame)
    (peerId altAddrBytes : Bytes) (prior : PriorMint) : Go ProcessedMint := do
  match ← attempt (unpackAndVerifyMultiOutput a.prim prior.commitment t.proofs) with
  | .error _ => return penalizedMint
  | .ok unpacked =>
      failIf (notAfterPrevious prior unpacked = true ∨ unpacked.frameNumber < currentFrameNumber - 1)
        (errInvalidStateTransition.wrap "handle mint")
      match ← checkChallenge a t frame prior unpacked (checkMultiChallenge a fuel peerId t frame) with
      | none => return penalizedMint
      | some wesoVerified =>
          return ⟨false, false, prior.delete, unpacked.modulo, prior.commitment, unpacked.treeRoot, unpacked.frameNumber,
            altAddrBytes, isChallenged t prior unpacked && wesoVerified, chainVerified prior unpacked, wesoVerified⟩

-- The prover's next mint, at a node that has these proofs and the frame of the last mint.
structure NextMint (owner : Bytes) (prfs : List PreCoinProof) (m : StoredMint) where
  application : TokenApplication
  fuel : Nat
  currentFrameNumber : UInt64
  request : MintCoinRequest
  frame : ClockFrame
  previousFrame : ClockFrame
  key : Bytes
  peerId : Bytes
  addr : Bytes
  valid : MintCoinRequest.validate application.prim (some request) = .ok ()
  many : 1 < request.proofs.length
  isKey : signerKey request.signature = .ok key
  isPeer : peerIDOfKey application.prim key = .ok peerId
  hashed : hashAddress application.prim key = .ok addr
  own : hashAddress application.prim peerId = .ok owner
  listed : application.coinStore.getPreCoinProofsForOwner owner = .ok prfs
  known : application.clockStore.getDataClockFrame frame.filter (mintFrameNumber m.request) true = .ok previousFrame

namespace NextMint

variable {owner : Bytes} {prfs : List PreCoinProof} {m : StoredMint} (next : NextMint owner prfs m)

theorem checked (read : readPriorMint next.application next.frame.filter prfs noPriorMint = .ok (some prior)) :
    preProcessMint next.application next.fuel next.currentFrameNumber next.request next.frame =
      checkedAgainst next.application next.fuel next.currentFrameNumber next.request next.frame next.peerId owner prior := by
  rw [pre_process_mint_chain next.application next.fuel next.currentFrameNumber next.request next.frame next.key next.valid next.isKey next.isPeer next.hashed next.own next.many UInt64.zero_le]
  simp only [preProcessChain, next.listed, returned, replaceErr, mapErr, ok_bind, read]
  rfl

def Recovers : Prop :=
  ∃ prior, readPriorMint next.application next.frame.filter prfs noPriorMint = .ok (some prior) ∧
    prior = ⟨some m.proof, mintRoot m.request, some next.previousFrame, mintModulo m.request, m.preceding⟩ ∧
    preProcessMint next.application next.fuel next.currentFrameNumber next.request next.frame =
      checkedAgainst next.application next.fuel next.currentFrameNumber next.request next.frame next.peerId owner prior

theorem recovers_sized (recovers : next.Recovers) : (mintRoot m.request).length = 32 := by
  obtain ⟨prior, read, same, -⟩ := recovers
  rcases read_prior_mint_cases _ _ read with ⟨none, -⟩ | ⟨_, -, -, -, size⟩
  · rw [none] at same
    cases same
  · rw [same] at size
    exact size

end NextMint

theorem mint_chain_round_trip_iff (owner : Bytes) (prfs : List PreCoinProof) (m : StoredMint)
    (history : ProofHistory owner prfs (some m)) (next : NextMint owner prfs m) :
    next.Recovers ↔ (mintRoot m.request).length = 32 := by
  obtain ⟨only, member⟩ := history_last history
  constructor
  · exact next.recovers_sized
  · intro sized
    obtain ⟨chain, root, number, modulo, third⟩ := m.proof_shape sized
    have reads : ∀ start, start.priorCommitment = [] ∨ start.priorCommitment = m.preceding →
        readPriorMint next.application next.frame.filter [m.proof] start =
          .ok (some ⟨some m.proof, mintRoot m.request, some next.previousFrame, mintModulo m.request, m.preceding⟩) := by
      intro start kept
      rw [readPriorMint, if_pos chain, root, ok_bind, number, ok_bind, modulo, ok_bind, third _ kept, ok_bind, next.known]
      rfl
    have read := read_prior_mint_only next.application next.frame.filter (reads _ (.inl rfl)) (reads _ (.inr rfl)) chain
      (fun other inside counts => by
        obtain ⟨same, isSame, isProof⟩ := only other inside counts
        rw [isProof, Option.some.inj isSame])
      (member m rfl)
    exact ⟨_, read, rfl, next.checked read⟩

def sampleChainMint (root : Bytes) (frameNumber : Nat) : MintCoinRequest :=
  ⟨[root, beBytes 4 2, beBytes 8 frameNumber], none,
    sampleSignature (ascii ['m', 'i', 'n', 't'] ++ [root, beBytes 4 2, beBytes 8 frameNumber].flatten)⟩

def samplePeerId : Bytes := 0x12 :: 0x20 :: (sampleDigest sampleKey).bytes

def sampleProver : Bytes := beBytes 32 (setBytes samplePeerId % poseidonOrder)

def sampleChainProcessed (root : Bytes) : ProcessedMint := ⟨false, false, none, 2, [], root, 4, sampleProver, false, true, true⟩

def sampleChainProof (root : Bytes) : PreCoinProof :=
  mintProof sampleApplication (sampleChainMint root 4) (sampleChainProcessed root) sampleProver []

def sampleFirstMint (root : Bytes)
    (preProcessed : preProcessMint sampleApplication 0 5 (sampleChainMint root 4) (sampleFrame 4) = .ok (sampleChainProcessed root))
    (handled : handleMint sampleApplication 5 (sampleChainMint root 4) (sampleChainProcessed root) (fun _ => 0) =
      .ok [.proof (sampleChainProof root)]) : StoredMint :=
  ⟨sampleApplication, 0, 5, sampleChainMint root 4, sampleFrame 4, sampleChainProcessed root, fun _ => 0,
    [.proof (sampleChainProof root)], sampleChainProof root, le_refl _, preProcessed, handled, List.mem_cons_self⟩

def sampleMintedApplication (root : Bytes) : TokenApplication :=
  { sampleApplication with coinStore := ⟨sampleApplication.coinStore.getCoinByAddress, fun _ => .ok [sampleChainProof root]⟩ }

theorem sample_history (m : StoredMint) (first : m.application.coinStore.getPreCoinProofsForOwner sampleProver = .ok [])
    (own : m.owner = sampleProver) (outputs : m.outputs = [.proof m.proof]) : ProofHistory sampleProver [m.proof] (some m) := by
  apply ProofHistory.mint [] [m.proof] none (.start [] (by simp)) m own first
  intro p
  simp [outputs]

def sampleNextMint (root : Bytes) (m : StoredMint) (request : m.request = sampleChainMint root 4)
    (number : mintFrameNumber (sampleChainMint root 4) = 4) : NextMint sampleProver [sampleChainProof root] m where
  application := sampleMintedApplication root
  fuel := 0
  currentFrameNumber := 6
  request := sampleChainMint (List.replicate 32 8) 5
  frame := sampleFrame 5
  previousFrame := sampleFrame 4
  key := sampleKey
  peerId := samplePeerId
  addr := sampleAddress
  valid := show MintCoinRequest.validate samplePrimitives (some (sampleChainMint (List.replicate 32 8) 5)) = .ok () by decide +kernel
  many := by decide
  isKey := rfl
  isPeer := show peerIDOfKey samplePrimitives sampleKey = .ok samplePeerId by decide +kernel
  hashed := show hashAddress samplePrimitives sampleKey = .ok sampleAddress by decide +kernel
  own := show hashAddress samplePrimitives samplePeerId = .ok sampleProver by decide +kernel
  listed := rfl
  known := by
    rw [request, number]
    rfl

theorem read_commitment (result : Go (Option PriorMint)) (commitment : Bytes)
    (read : result.map (Option.map PriorMint.commitment) = .ok (some commitment)) :
    ∃ prior, result = .ok (some prior) ∧ prior.commitment = commitment := by
  rcases result with fault | _ | prior
  · cases read
  · cases read
  · exact ⟨prior, rfl, Option.some.inj (Except.ok.inj read)⟩

theorem mint_chain_round_trip_sample : ∃ (m : StoredMint) (prfs : List PreCoinProof) (next : NextMint sampleProver prfs m),
    ProofHistory sampleProver prfs (some m) ∧ next.Recovers := by
  have preProcessed : preProcessMint sampleApplication 0 5 (sampleChainMint (List.replicate 32 3) 4) (sampleFrame 4) =
      .ok (sampleChainProcessed (List.replicate 32 3)) := by decide +kernel
  have handled : handleMint sampleApplication 5 (sampleChainMint (List.replicate 32 3) 4) (sampleChainProcessed (List.replicate 32 3))
      (fun _ => 0) = .ok [.proof (sampleChainProof (List.replicate 32 3))] := by decide +kernel
  have first : sampleApplication.coinStore.getPreCoinProofsForOwner sampleProver = .ok [] := by decide +kernel
  have history := sample_history (sampleFirstMint _ preProcessed handled) first rfl rfl
  refine ⟨sampleFirstMint _ preProcessed handled, _, sampleNextMint _ _ rfl (by decide +kernel), history, ?_⟩
  exact (mint_chain_round_trip_iff _ _ _ history _).mpr (List.length_replicate (n := 32))

theorem long_root_misread : ∃ (m : StoredMint) (prfs : List PreCoinProof) (next : NextMint sampleProver prfs m),
    ProofHistory sampleProver prfs (some m) ∧ ¬ next.Recovers ∧
      ∃ prior, readPriorMint next.application next.frame.filter prfs noPriorMint = .ok (some prior) ∧
        mintRoot m.request = List.replicate 64 3 ∧ prior.commitment = List.replicate 32 3 := by
  have preProcessed : preProcessMint sampleApplication 0 5 (sampleChainMint (List.replicate 64 3) 4) (sampleFrame 4) =
      .ok (sampleChainProcessed (List.replicate 64 3)) := by decide +kernel
  have handled : handleMint sampleApplication 5 (sampleChainMint (List.replicate 64 3) 4) (sampleChainProcessed (List.replicate 64 3))
      (fun _ => 0) = .ok [.proof (sampleChainProof (List.replicate 64 3))] := by decide +kernel
  have first : sampleApplication.coinStore.getPreCoinProofsForOwner sampleProver = .ok [] := by decide +kernel
  have history := sample_history (sampleFirstMint _ preProcessed handled) first rfl rfl
  refine ⟨sampleFirstMint _ preProcessed handled, _, sampleNextMint _ _ rfl (by decide +kernel), history, ?_, ?_⟩
  · intro recovers
    have sized : (List.replicate 64 (3 : UInt8)).length = 32 := NextMint.recovers_sized _ recovers
    exact absurd sized (by decide)
  · have read : (readPriorMint (sampleMintedApplication (List.replicate 64 3)) (sampleFrame 5).filter
        [sampleChainProof (List.replicate 64 3)] noPriorMint).map (Option.map PriorMint.commitment) = .ok (some (List.replicate 32 3)) := by
      decide +kernel
    obtain ⟨prior, found, commitment⟩ := read_commitment _ _ read
    exact ⟨prior, found, rfl, commitment⟩

end Ceremony
