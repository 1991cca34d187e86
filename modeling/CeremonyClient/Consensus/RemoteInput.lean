import CeremonyClient.Consensus.Gossip
import CeremonyClient.Protobufs.ValidationSafety

set_option autoImplicit false

namespace Ceremony

open GoSem

variable {signature : Option Ed448Signature} {prim : Primitives} {sender : Bytes} {mint : MintCoinRequest} {now : Int} {tx : TokenRequest}

def HasKey (signature : Option Ed448Signature) : Prop := ∃ s key, signature = some s ∧ s.publicKey = some key

theorem signer_key_calm_iff : Calm (signerKey signature) ↔ HasKey signature := by
  rcases signature with _ | ⟨bytes, _ | key⟩ <;> simp [signerKey, HasKey]

theorem hash_address_calm {message : Bytes} : Calm (hashAddress prim message) := by
  simp [hashAddress, returned_calm]

theorem verify_frame_calm (prim : Primitives) (frame : ClockFrame) (hasKey : HasKey frame.publicKeySignatureEd448) :
    Calm (verifyDataClockFrame prim frame) := by
  obtain ⟨signature, key, isSigned, isKey⟩ := hasKey
  simp [verifyDataClockFrame, isSigned, isKey, calm_bind_iff, returned_calm]

section Handlers

variable {β : Type} (e : DataClockConsensusEngine β) (state : DataState β)

theorem handle_clock_frame_calm_iff (frame : ClockFrame) :
    CalmOn (e.handleClockFrame (some frame)) state ↔ HasKey frame.publicKeySignatureEd448 := by
  rw [DataClockConsensusEngine.handleClockFrame, calm_on_bind_iff, calm_on_call_iff, signer_key_calm_iff]
  apply and_iff_left_of_imp
  intro hasKey key after _
  have verified := (calm_wrap_err_iff "handle clock frame data" _).mpr (verify_frame_calm e.prim frame hasKey)
  simp only [calm_on_bind_iff, calm_on_call_iff, calm_wrap_err_iff, hash_address_calm, true_and, calm_on_read]
  intro address _ _ read _ _
  split
  · exact calm_on_pure _ _
  · split
    · exact calm_on_pure _ _
    · simp only [calm_on_bind_iff, calm_on_modify, calm_on_call_iff, verified, true_and]
      intros
      split <;> simp

theorem sized_has_key (sized : Ed448Signature.validate signature = .ok ()) : HasKey signature := by
  obtain ⟨bytes, key, shape, -, -⟩ := ed448_signature_validate_ok_iff.mp sized
  exact ⟨_, _, shape, rfl⟩

theorem change_validate_has_key (nilText : String) {message : AnnounceProverChange → Bytes} {t : AnnounceProverChange}
    (valid : validateChange prim nilText message (some t) = .ok ()) : HasKey t.publicKeySignatureEd448 := by
  simp only [validateChange, bind_ok_iff, wrap_err_ok_iff] at valid
  obtain ⟨_, -, _, sized, -⟩ := valid
  exact sized_has_key sized

theorem join_validate_has_key {t : AnnounceProverJoin} (valid : AnnounceProverJoin.validate prim (some t) = .ok ()) :
    HasKey t.publicKeySignatureEd448 := by
  rw [AnnounceProverJoin.validate, bind_ok_iff] at valid
  obtain ⟨_, -, valid⟩ := valid
  have signed : Ed448Signature.validate t.publicKeySignatureEd448 = .ok () := by
    cases announced : t.announce with
    | none =>
        simp only [announced, ok_bind, bind_ok_iff, wrap_err_ok_iff] at valid
        obtain ⟨_, sized, -⟩ := valid
        exact sized
    | some announce =>
        simp only [announced, bind_ok_iff, wrap_err_ok_iff] at valid
        obtain ⟨_, -, _, sized, -⟩ := valid
        exact sized
  exact sized_has_key signed

def MintShape (mint : MintCoinRequest) : Prop := 3 ≤ mint.proofs.length ∧ ∀ number, mint.proofs[2]? = some number → number.length = 8

theorem token_request_identifiers_calm_iff (prim : Primitives) (sha3Sum512 : Bytes → Bytes) (tx : TokenRequest)
    (valid : TokenRequest.validate prim (some tx) = .ok ()) (mints : ∀ mint, tx.request = some (.mint mint) → MintShape mint) :
    Calm (tokenRequestIdentifiers sha3Sum512 tx) ↔ tx.request ≠ none := by
  obtain ⟨request, timestamp⟩ := tx
  cases request with
  | none => simp [tokenRequestIdentifiers]
  | some request =>
      apply iff_of_true _ (Option.some_ne_none _)
      cases request with
      | transfer t =>
          obtain ⟨address, _, _, isCoin, -⟩ := transfer_validate_ok valid
          simp [tokenRequestIdentifiers, isCoin]
      | split t =>
          obtain ⟨address, _, _, isCoin, -⟩ := split_validate_ok valid
          simp [tokenRequestIdentifiers, isCoin]
      | merge t => exact calm_ok
      | mint t =>
          obtain ⟨long, number⟩ := mints t rfl
          obtain ⟨-, key, bytes, shape, -⟩ := mint_validate_ok_iff.mp valid
          have read := number _ (List.getElem?_eq_getElem (by omega))
          simp only [tokenRequestIdentifiers, if_neg (show ¬ t.proofs.length = 1 by omega), if_pos long, calm_bind_iff,
            calm_index_iff, index_ok_iff, calm_be_uint64_iff, signer_key_calm_iff, calm_pure, implies_true, and_true]
          exact ⟨by omega, fun proof isProof => ⟨(number proof isProof).ge, fun _ _ => ⟨_, _, shape, rfl⟩⟩⟩
      | announce t =>
          simp only [TokenRequest.validate, AnnounceProverRequest.validate, bind_ok_iff, for_each_ok_iff, wrap_err_ok_iff] at valid
          obtain ⟨_, -, _, sized, -⟩ := valid
          apply calm_map_m
          intro sig member
          obtain ⟨_, key, isSignature, isKey⟩ := sized_has_key (sized sig member)
          cases isSignature
          simp [isKey]
      | join t => simpa [tokenRequestIdentifiers, signer_key_calm_iff] using join_validate_has_key valid
      | leave t =>
          have hasKey := change_validate_has_key "nil announce prover leave" valid
          simpa [tokenRequestIdentifiers, signer_key_calm_iff] using hasKey
      | pause t =>
          have hasKey := change_validate_has_key "nil announce prover pause" valid
          simpa [tokenRequestIdentifiers, signer_key_calm_iff] using hasKey
      | resume t =>
          have hasKey := change_validate_has_key "nil announce prover resume" valid
          simpa [tokenRequestIdentifiers, signer_key_calm_iff] using hasKey

theorem handle_token_request_calm_iff (tx : TokenRequest) (valid : TokenRequest.validate e.prim (some tx) = .ok ())
    (mints : ∀ mint, tx.request = some (.mint mint) → MintShape mint) :
    CalmOn (e.handleTokenRequest tx) state ↔ (tx.request = none → state.frameProverTrieContains 0 e.provingKeyAddress = false) := by
  have identifiers := token_request_identifiers_calm_iff e.prim e.sha3Sum512 tx valid mints
  simp only [DataClockConsensusEngine.handleTokenRequest, calm_on_bind_iff, calm_on_read, true_and, on_read_state_ok]
  cases proving : state.frameProverTrieContains 0 e.provingKeyAddress with
  | false => simp [proving]
  | true =>
      simp only [Bool.true_eq_false, imp_false, ← identifiers]
      constructor
      · intro calm
        have first := calm state state ⟨rfl, rfl⟩
        rw [if_pos proving, calm_on_bind_iff] at first
        exact first.1
      · rintro calm _ _ ⟨rfl, rfl⟩
        rw [if_pos proving, calm_on_bind_iff]
        refine ⟨calm, fun _ _ _ => ?_⟩
        split <;> simp

theorem handle_fragment_calm_iff {fragment : ClockFrameFragment} (signed : HasKey fragment.publicKeySignatureEd448) :
    CalmOn (e.handleClockFrameFragment (some fragment)) state ↔
      ∀ key address, signerKey fragment.publicKeySignatureEd448 = .ok key → hashAddress e.prim key = .ok address →
        state.frameProverTrieContains 0 address = true →
        ∀ frame, (e.accumulateClockFrameFragment state.fragmentBuffer fragment).1 = .ok (some frame) →
          HasKey frame.publicKeySignatureEd448 := by
  simp only [DataClockConsensusEngine.handleClockFrameFragment, calm_on_bind_iff, calm_on_call_iff, on_call_ok, calm_wrap_err_iff,
    wrap_err_ok_iff, signer_key_calm_iff, signed, hash_address_calm, true_and, calm_on_read, on_read_state_ok]
  constructor
  · intro calm key address isKey hashed proving frame assembled
    have rest := calm key state ⟨isKey, rfl⟩ address state ⟨hashed, rfl⟩ state state ⟨rfl, rfl⟩
    rw [if_neg (by simp [proving]), calm_on_bind_iff] at rest
    have done : (e.accumulate fragment).on state =
        (.ok (some frame), { state with fragmentBuffer := (e.accumulateClockFrameFragment state.fragmentBuffer fragment).2 }) := by
      simp [DataClockConsensusEngine.accumulate, on_bind, assembled, returned, wrapErr, mapErr]
    exact (handle_clock_frame_calm_iff e _ frame).mp (rest.2 _ _ done)
  · rintro keyed key first ⟨isKey, isFirst⟩ address second ⟨hashed, isSecond⟩ current third ⟨isCurrent, isThird⟩
    subst first second current third
    by_cases proving : state.frameProverTrieContains 0 address = false
    · rw [if_pos proving]
      exact calm_on_pure _ _
    · rw [if_neg proving, calm_on_bind_iff]
      have calm : CalmOn (e.accumulate fragment) state := by
        simp [DataClockConsensusEngine.accumulate, calm_on_bind_iff, returned_calm]
      refine ⟨calm, fun assembled after done => ?_⟩
      cases assembled with
      | none => exact calm_on_pure _ _
      | some frame =>
          apply (handle_clock_frame_calm_iff e after frame).mpr
          apply keyed key address isKey hashed (by simpa using proving)
          simp only [DataClockConsensusEngine.accumulate, on_bind_ok, on_read_state_ok, on_modify_state_ok, on_call_ok,
            wrap_err_ok_iff, returned_ok_iff] at done
          obtain ⟨_, _, ⟨rfl, rfl⟩, _, _, _, found, -⟩ := done
          exact found

end Handlers

section Validators

variable {β : Type} (e : DataClockConsensusEngine β) (state : DataState β)

theorem validate_mint_calm (signed : HasKey mint.signature) : CalmOn (DataClockConsensusEngine.validateMint sender mint) state := by
  rw [DataClockConsensusEngine.validateMint]
  split
  · exact calm_on_pure _ _
  · rename_i long
    simp only [calm_on_bind_iff, calm_on_call_iff, calm_index_iff, on_call_ok, index_ok_iff]
    refine ⟨by omega, fun parallelism _ _ => ?_⟩
    split
    · exact calm_on_pure _ _
    · simp only [calm_on_bind_iff, calm_on_call_iff, calm_index_iff, on_call_ok, index_ok_iff]
      refine ⟨by omega, fun number _ _ => ?_⟩
      split
      · exact calm_on_pure _ _
      · rename_i width
        simp only [calm_on_bind_iff, calm_on_call_iff, calm_be_uint64_iff, signer_key_calm_iff, signed, calm_on_read, calm_on_modify,
          true_and]
        refine ⟨by omega, fun _ _ _ _ _ _ _ _ _ _ _ _ => ?_⟩
        split
        · exact calm_on_bind_iff.mpr ⟨calm_on_modify, fun _ _ _ => calm_on_pure _ _⟩
        · split <;> exact calm_on_pure _ _

theorem validate_mint_keeps_tries :
    Keeps DataState.frameProverTries (DataClockConsensusEngine.validateMint sender mint : StateGo (DataState β) _) := by
  rw [DataClockConsensusEngine.validateMint]
  split
  · exact keeps_pure
  · apply keeps_bind _ _ _ keeps_call
    intro parallelism
    split
    · exact keeps_pure
    · apply keeps_bind _ _ _ keeps_call
      intro number
      split
      · exact keeps_pure
      · apply keeps_bind _ _ _ keeps_call
        intro frameNumber
        apply keeps_bind _ _ _ keeps_call
        intro key
        apply keeps_bind _ _ _ keeps_read
        intro current
        apply keeps_bind
        · exact keeps_modify fun _ => rfl
        · intro _
          split
          · apply keeps_bind
            · exact keeps_modify fun _ => rfl
            · exact fun _ => keeps_pure
          · split <;> exact keeps_pure

theorem validate_mint_passed {verdict : Option ValidationResult} {after : DataState β}
    (passed : (DataClockConsensusEngine.validateMint sender mint).on state = (.ok verdict, after)) (kept : verdict ≠ some .reject) :
    MintShape mint := by
  have refused : ∀ before : DataState β, (pure (some .reject) : StateGo (DataState β) _).on before ≠ (.ok verdict, after) := by
    intro before same
    exact kept (Except.ok.inj (Prod.mk.inj same).1).symm
  rw [DataClockConsensusEngine.validateMint] at passed
  split at passed
  · exact absurd passed (refused _)
  · rename_i long
    obtain ⟨parallelism, _, -, passed⟩ := on_bind_ok.mp passed
    split at passed
    · exact absurd passed (refused _)
    · obtain ⟨number, _, read, passed⟩ := on_bind_ok.mp passed
      split at passed
      · exact absurd passed (refused _)
      · rename_i width
        have isNumber := index_ok_iff.mp (on_call_ok.mp read).1
        refine ⟨by omega, fun other isOther => ?_⟩
        rw [isNumber] at isOther
        cases isOther
        exact not_not.mp width

theorem validate_tx_calm_iff : CalmOn (e.validateTx now sender tx) state ↔ Calm (TokenRequest.validate e.prim (some tx)) := by
  rw [DataClockConsensusEngine.validateTx, calm_on_bind_iff, calm_on_call_iff, calm_attempt_iff]
  apply and_iff_left_of_imp
  intro _ result after ran
  rw [on_call_ok, attempt_ok_iff] at ran
  cases result with
  | error cause => exact calm_on_pure _ _
  | ok value =>
      cases request : tx.request with
      | none => exact calm_on_pure _ _
      | some arm =>
          cases arm
          case mint mint =>
            rcases ran.1 with ⟨_, valid, -⟩ | ⟨_, -, impossible⟩
            · have signed : MintCoinRequest.validate e.prim (some mint) = .ok () := by
                simpa [TokenRequest.validate, request] using valid
              obtain ⟨-, key, bytes, shape, -⟩ := mint_validate_ok_iff.mp signed
              refine calm_on_bind_iff.mpr ⟨validate_mint_calm after ⟨_, _, shape, rfl⟩, ?_⟩
              exact fun _ _ _ => calm_on_pure _ _
            · cases impossible
          all_goals exact calm_on_pure _ _

theorem validate_tx_accepted {after : DataState β} (accepted : (e.validateTx now sender tx).on state = (.ok .accept, after)) :
    TokenRequest.validate e.prim (some tx) = .ok () ∧ (∀ mint, tx.request = some (.mint mint) → MintShape mint) ∧
      after.frameProverTries = state.frameProverTries := by
  obtain ⟨result, between, ran, rest⟩ := on_bind_ok.mp accepted
  obtain ⟨attempted, same⟩ := on_call_ok.mp ran
  subst between
  cases result with
  | error cause => simp at rest
  | ok value =>
      have valid : TokenRequest.validate e.prim (some tx) = .ok () := by
        rcases (attempt_ok_iff _ _).mp attempted with ⟨_, valid, -⟩ | ⟨_, -, impossible⟩
        · exact valid
        · cases impossible
      refine ⟨valid, ?_⟩
      cases request : tx.request with
      | none =>
          rw [request] at rest
          have same : state = after := (Prod.mk.inj rest).2
          exact ⟨(fun _ impossible => by cases impossible), by rw [same]⟩
      | some arm =>
          rw [request] at rest
          cases arm
          case mint mint =>
            obtain ⟨verdict, checked, mintRan, rest⟩ := on_bind_ok.mp rest
            obtain ⟨isAccept, same⟩ := Prod.mk.inj rest
            have tries := validate_mint_keeps_tries.done mintRan
            refine ⟨fun other isMint => ?_, by rw [← same]; exact tries⟩
            cases isMint
            apply validate_mint_passed state mintRan
            intro refused
            rw [refused] at isAccept
            cases isAccept
          all_goals
            have same : state = after := (Prod.mk.inj rest).2
            exact ⟨(fun _ impossible => by cases impossible), by rw [same]⟩

theorem validate_tx_unset (now : Int) (sender : Bytes) (unset : tx.request = none) :
    (e.validateTx now sender tx).on state = (.ok (freshness now tx.timestamp 10), state) := by
  simp [DataClockConsensusEngine.validateTx, on_bind, TokenRequest.validate, unset, attempt]

end Validators

section Receive

variable {β : Type} (e : DataClockConsensusEngine β) (now : Int) (sender data : Bytes) (state : DataState β)

def Decodes {α : Type} (typeUrl : String) (unmarshal : Bytes → Except GoError α) (value : α) : Prop :=
  ∃ a, e.openMessage data = .ok a ∧ a.typeUrl = typeUrl ∧ unmarshal a.value = .ok value

theorem received_calm_iff {typeUrl : String} {validateValue : Bytes → StateGo (DataState β) ValidationResult}
    {handleValue : Bytes → StateGo (DataState β) Unit} :
    CalmOn (do
      let verdict ← e.validateMessage typeUrl validateValue data
      if verdict = .accept then e.handleMessage typeUrl handleValue data else pure ()) state ↔
      ∀ a, e.openMessage data = .ok a → a.typeUrl = typeUrl → CalmOn (validateValue a.value) state ∧
        ∀ after, (validateValue a.value).on state = (.ok .accept, after) → CalmOn (handleValue a.value) after := by
  rw [calm_on_bind_iff]
  cases opened : e.openMessage data with
  | error cause => simp [DataClockConsensusEngine.validateMessage, opened]
  | ok a =>
      by_cases typed : a.typeUrl = typeUrl
      · simp only [DataClockConsensusEngine.validateMessage, DataClockConsensusEngine.handleMessage, opened, if_pos typed]
        constructor
        · rintro ⟨valid, handled⟩ _ isMessage _
          cases isMessage
          exact ⟨valid, fun after accepted => calm_on_logged_iff.mp (handled .accept after accepted)⟩
        · intro calm
          obtain ⟨valid, handled⟩ := calm a rfl typed
          refine ⟨valid, fun verdict after ran => ?_⟩
          by_cases accepted : verdict = .accept
          · rw [if_pos accepted]
            exact calm_on_logged_iff.mpr (handled after (accepted ▸ ran))
          · rw [if_neg accepted]
            exact calm_on_pure _ _
      · simp [DataClockConsensusEngine.validateMessage, opened, typed]

-- No nil signer in a frame, in a fragment that passes its checks or in the frame it completes, no transfer to an
-- originated account, and no request without a kind for a beacon prover.
def Harmless : Topic → Prop
  | .frame => ∀ frame, Decodes e data clockFrameType e.codec.unmarshalClockFrame frame →
      stale now frame.timestamp 2 = false → sender ≠ e.peerID → HasKey frame.publicKeySignatureEd448
  | .frameFragment => ∀ fragment, Decodes e data clockFrameFragmentType e.codec.unmarshalClockFrameFragment fragment →
      (CheckedFragment fragment → ∀ signature, fragment.publicKeySignatureEd448 = some signature → signature.publicKey.isSome) ∧
      (ClockFrameFragment.validate e.prim (some fragment) = .ok () → stale now fragment.timestamp 2 = false → sender ≠ e.peerID →
        ∀ key address, signerKey fragment.publicKeySignatureEd448 = .ok key → hashAddress e.prim key = .ok address →
        state.frameProverTrieContains 0 address = true →
        ∀ frame, (e.accumulateClockFrameFragment state.fragmentBuffer fragment).1 = .ok (some frame) →
          HasKey frame.publicKeySignatureEd448)
  | .tx => ∀ tx, Decodes e data tokenRequestType e.codec.unmarshalTokenRequest tx →
      (∀ transfer, tx.request = some (.transfer transfer) → ¬ OriginatedTransfer transfer) ∧
      (tx.request = none → stale now tx.timestamp 10 = false → state.frameProverTrieContains 0 e.provingKeyAddress = false)

theorem freshness_accept_iff {timestamp : Int64} {minutes : Int} :
    freshness now timestamp minutes = .accept ↔ stale now timestamp minutes = false := by
  cases old : stale now timestamp minutes <;> simp [freshness, old]

theorem receive_frame_calm_iff :
    CalmOn (receiveMessage e .frame now sender data) state ↔ Harmless e now sender data state .frame := by
  simp only [receiveMessage, validateOn, handleOn, DataClockConsensusEngine.validateFrameMessage,
    DataClockConsensusEngine.handleFrameMessage, received_calm_iff]
  constructor
  · rintro calm frame ⟨a, opened, typed, decoded⟩ young other
    obtain ⟨-, handled⟩ := calm a opened typed
    simp only [decoded, on_pure, (freshness_accept_iff now).mpr young] at handled
    have handled := handled state rfl
    rw [if_neg other, calm_on_bind_iff] at handled
    exact (handle_clock_frame_calm_iff e state frame).mp (handled.2 frame state rfl)
  · intro keyed a opened typed
    cases decoded : e.codec.unmarshalClockFrame a.value with
    | error cause => simp
    | ok frame =>
        simp only [on_pure, calm_on_pure, true_and]
        rintro after accepted
        obtain ⟨verdict, same⟩ := Prod.mk.inj accepted
        have young := (freshness_accept_iff now).mp (Except.ok.inj verdict)
        by_cases own : sender = e.peerID
        · rw [if_pos own]
          exact calm_on_pure _ _
        · rw [if_neg own, calm_on_bind_iff]
          refine ⟨by simp [returned_calm], fun _ between ran => ?_⟩
          cases (on_call_ok.mp ran).1
          exact (handle_clock_frame_calm_iff e _ frame).mpr (keyed frame ⟨a, opened, typed, decoded⟩ young own)

theorem receive_fragment_calm_iff :
    CalmOn (receiveMessage e .frameFragment now sender data) state ↔ Harmless e now sender data state .frameFragment := by
  simp only [receiveMessage, validateOn, handleOn, DataClockConsensusEngine.validateFrameFragmentMessage,
    DataClockConsensusEngine.handleFrameFragmentMessage, received_calm_iff]
  constructor
  · rintro calm fragment ⟨a, opened, typed, decoded⟩
    obtain ⟨checked, handled⟩ := calm a opened typed
    simp only [decoded, calm_on_bind_iff, calm_on_call_iff, calm_attempt_iff] at checked handled
    refine ⟨(fragment_validate_calm_iff e.prim).mp checked.1, fun valid young other => ?_⟩
    obtain ⟨bytes, key, shape⟩ := fragment_validate_signed e.prim valid
    have handled := handled state (by simp [on_bind, valid, attempt, (freshness_accept_iff now).mpr young])
    rw [if_neg other, calm_on_bind_iff] at handled
    exact (handle_fragment_calm_iff e state ⟨_, _, shape, rfl⟩).mp (handled.2 fragment state rfl)
  · intro keyed a opened typed
    cases decoded : e.codec.unmarshalClockFrameFragment a.value with
    | error cause => simp
    | ok fragment =>
        obtain ⟨checked, assembled⟩ := keyed fragment ⟨a, opened, typed, decoded⟩
        have checked := (fragment_validate_calm_iff e.prim).mpr checked
        simp only [calm_on_bind_iff, calm_on_call_iff, calm_attempt_iff, checked, true_and, on_call_ok]
        refine ⟨fun result after ran => by cases result <;> exact calm_on_pure _ _, fun after accepted => ?_⟩
        obtain ⟨result, between, ran, verdict⟩ := on_bind_ok.mp accepted
        obtain ⟨attempted, same⟩ := on_call_ok.mp ran
        subst between
        cases result with
        | error cause => simp at verdict
        | ok value =>
            obtain ⟨verdict, same⟩ := Prod.mk.inj verdict
            have young := (freshness_accept_iff now).mp (Except.ok.inj verdict)
            have valid : ClockFrameFragment.validate e.prim (some fragment) = .ok () := by
              rcases (attempt_ok_iff _ _).mp attempted with ⟨_, valid, -⟩ | ⟨_, -, impossible⟩
              · exact valid
              · cases impossible
            obtain ⟨bytes, key, shape⟩ := fragment_validate_signed e.prim valid
            by_cases own : sender = e.peerID
            · rw [if_pos own]
              exact calm_on_pure _ _
            · rw [if_neg own, calm_on_bind_iff]
              refine ⟨by simp [returned_calm], fun _ _ ran => ?_⟩
              obtain ⟨isFragment, later⟩ := on_call_ok.mp ran
              cases isFragment
              rw [later, ← same]
              exact (handle_fragment_calm_iff e state ⟨_, _, shape, rfl⟩).mpr (assembled valid young own)

theorem receive_tx_calm_iff :
    CalmOn (receiveMessage e .tx now sender data) state ↔ Harmless e now sender data state .tx := by
  simp only [receiveMessage, validateOn, handleOn, DataClockConsensusEngine.validateTxMessage,
    DataClockConsensusEngine.handleTxMessage, received_calm_iff]
  constructor
  · rintro calm tx ⟨a, opened, typed, decoded⟩
    obtain ⟨checked, handled⟩ := calm a opened typed
    simp only [decoded, validate_tx_calm_iff] at checked handled
    refine ⟨(token_request_validate_calm_iff e.prim tx).mp checked, fun unset young => ?_⟩
    have valid : TokenRequest.validate e.prim (some tx) = .ok () := by simp [TokenRequest.validate, unset]
    have handled := handled state (by rw [validate_tx_unset e state now sender unset, (freshness_accept_iff now).mpr young])
    have handled := (calm_on_bind_iff.mp handled).2 state state rfl
    by_contra proving
    rw [if_pos (by simpa using proving), calm_on_bind_iff] at handled
    have mints : ∀ mint, tx.request = some (.mint mint) → MintShape mint := by simp [unset]
    exact proving ((handle_token_request_calm_iff e state tx valid mints).mp (handled.2 tx state rfl) unset)
  · intro keyed a opened typed
    cases decoded : e.codec.unmarshalTokenRequest a.value with
    | error cause => simp
    | ok tx =>
        obtain ⟨transfers, kinds⟩ := keyed tx ⟨a, opened, typed, decoded⟩
        refine ⟨(validate_tx_calm_iff e state).mpr ((token_request_validate_calm_iff e.prim tx).mpr transfers), ?_⟩
        intro after accepted
        obtain ⟨valid, mints, tries⟩ := validate_tx_accepted e state accepted
        have sameTrie : after.frameProverTrieContains 0 e.provingKeyAddress = state.frameProverTrieContains 0 e.provingKeyAddress := by
          rw [DataState.frameProverTrieContains, DataState.frameProverTrieContains, tries]
        have calm : CalmOn (e.handleTokenRequest tx) after := by
          apply (handle_token_request_calm_iff e after tx valid mints).mpr
          intro unset
          rw [validate_tx_unset e state now sender unset] at accepted
          have young := (freshness_accept_iff now).mp (Except.ok.inj (Prod.mk.inj accepted).1)
          rw [sameTrie, kinds unset young]
        refine calm_on_bind_iff.mpr ⟨calm_on_read, fun current between isCurrent => ?_⟩
        obtain ⟨isCurrent, isBetween⟩ := on_read_state_ok.mp isCurrent
        subst current between
        split
        · refine calm_on_bind_iff.mpr ⟨by simp [returned_calm], fun _ _ ran => ?_⟩
          obtain ⟨isTx, later⟩ := on_call_ok.mp ran
          cases isTx
          rw [later]
          exact calm
        · exact calm_on_pure _ _

theorem remote_input_safe_iff (topic : Topic) :
    CalmOn (receiveMessage e topic now sender data) state ↔ Harmless e now sender data state topic := by
  cases topic with
  | frame => exact receive_frame_calm_iff e now sender data state
  | frameFragment => exact receive_fragment_calm_iff e now sender data state
  | tx => exact receive_tx_calm_iff e now sender data state

end Receive

def unsignedFrame : ClockFrame := ⟨List.replicate 32 9, 8, 0, 10000, [], [], [], [], none, []⟩

def keylessFragment : ClockFrameFragment := ⟨List.replicate 32 9, 8, 1, List.replicate 32 1, some ⟨1, 0, 1, 1, [1]⟩, some ⟨[], none⟩⟩

def originatedTransfer : TransferCoinRequest :=
  ⟨some ⟨some (.originatedAccount ⟨List.replicate 32 3⟩)⟩, none, some ⟨List.replicate 32 1⟩, 0, none, none,
    some ⟨List.replicate 114 0, some ⟨List.replicate 57 7⟩⟩⟩

def remoteCodec : GossipCodec where
  unmarshalMessage data := .ok ⟨[], [], data⟩
  unmarshalAny payload :=
    .ok ⟨if payload = [0] then clockFrameType else if payload = [1] then clockFrameFragmentType else tokenRequestType, payload⟩
  unmarshalClockFrame _ := .ok unsignedFrame
  unmarshalClockFrameFragment _ := .ok keylessFragment
  unmarshalTokenRequest value := .ok (if value = [2] then ⟨none, 0⟩ else ⟨some (.transfer originatedTransfer), 0⟩)

def remoteNode : DataClockConsensusEngine Unit where
  prim := samplePrimitives
  codec := remoteCodec
  sha3Sum512 := id
  accumulateClockFrameFragment _ _ := (.ok none, ())
  peerID := [1]
  provingKeyAddress := List.replicate 32 4

def remoteState : DataState Unit :=
  ⟨[RollingFrecencyCritbitTrie.zero.add (List.replicate 32 4) 0], unsignedFrame, [], (), [], [], [], [], []⟩

theorem malformed_messages_panic :
    ¬ CalmOn (receiveMessage remoteNode .frame 0 [2] [0]) remoteState ∧
    ¬ CalmOn (receiveMessage remoteNode .frameFragment 0 [2] [1]) remoteState ∧
    ¬ CalmOn (receiveMessage remoteNode .tx 0 [2] [2]) remoteState ∧
    ¬ CalmOn (receiveMessage remoteNode .tx 0 [2] [3]) remoteState := by
  decide +kernel

end Ceremony
