import CeremonyClient.Consensus.Sync

set_option autoImplicit false

namespace Ceremony

open GoSem

variable {frame : ClockFrame} {fragment : ClockFrameFragment} {response : Except GoError (Option (Option ClockFrame))}
  {session : SyncSession}

def ProverSigned (prim : Primitives) (i : Insertion) : Prop :=
  verifyDataClockFrame prim i.frame = .ok () ∧ ∃ key h, signerKey i.frame.publicKeySignatureEd448 = .ok key ∧
    prim.poseidonHashBytes key = .ok h ∧ ∃ trie ∈ i.tries, trie.contains (beBytes 32 h.val) = true

def Grows (prim : Primitives) (before after : List Insertion) : Prop :=
  after = before ∨ ∃ i, ProverSigned prim i ∧ after = before ++ [i]

section Gossip

variable {β : Type} (e : DataClockConsensusEngine β)

theorem prover_trie_contains {s : DataState β} {i : Nat} {address : Bytes} (contains : s.frameProverTrieContains i address = true) :
    ∃ trie ∈ s.frameProverTries, trie.contains address = true := by
  rw [DataState.frameProverTrieContains] at contains
  split at contains
  · rename_i trie found
    exact ⟨trie, List.mem_of_getElem? found, contains⟩
  · cases contains

variable {state : DataState β}

theorem handle_clock_frame_grows :
    Grows e.prim state.inserted ((e.handleClockFrame (some frame)).on state).2.inserted := by
  rw [DataClockConsensusEngine.handleClockFrame]
  cases isKey : signerKey frame.publicKeySignatureEd448 with
  | error fault => exact .inl (by simp [on_bind])
  | ok key =>
      cases hashed : wrapErr "handle clock frame data" (hashAddress e.prim key) with
      | error fault => exact .inl (by simp [on_bind, hashed])
      | ok address =>
          simp only [on_bind, on_call, hashed, on_read_state]
          by_cases proving : state.frameProverTrieContains 0 address = false
          · rw [if_pos proving]
            exact .inl rfl
          · rw [if_neg proving]
            by_cases recent : frame.output ∈ state.recentlyProcessedFrames
            · rw [if_pos recent]
              exact .inl rfl
            · rw [if_neg recent]
              cases verified : verifyDataClockFrame e.prim frame with
              | error fault => cases fault <;> exact .inl (by simp [on_bind, wrapErr, mapErr, raise, DataState.remember])
              | ok value =>
                  by_cases ahead : state.head.frameNumber < frame.frameNumber
                  · refine .inr ⟨⟨frame, state.frameProverTries⟩, ⟨verified, ?_⟩, ?_⟩
                    · obtain ⟨h, isHash, isAddress⟩ := (bind_ok_iff _ _ _).mp ((wrap_err_ok_iff _ _ _).mp hashed)
                      cases isAddress
                      exact ⟨key, h, isKey, returned_ok_iff.mp isHash,
                        prover_trie_contains (by simpa using proving)⟩
                    · simp [on_bind, wrapErr, mapErr, ahead, DataState.insert, DataState.remember]
                  · exact .inl (by simp [on_bind, wrapErr, mapErr, ahead, DataState.remember])

theorem bind_grows {α γ : Type} {first : StateGo (DataState β) α} {next : α → StateGo (DataState β) γ}
    (kept : Keeps DataState.inserted first) (grows : ∀ value after, Grows e.prim after.inserted ((next value).on after).2.inserted) :
    Grows e.prim state.inserted ((first >>= next).on state).2.inserted := by
  have same := kept state
  rw [on_bind]
  rcases ran : first.on state with ⟨fault | value, after⟩
  · rw [ran] at same
    exact .inl same
  · rw [ran] at same
    rw [← same]
    exact grows value after

theorem accumulate_keeps : Keeps DataState.inserted (e.accumulate fragment) := by
  apply keeps_bind _ _ _ keeps_read
  intro state
  apply keeps_bind
  · exact keeps_modify fun _ => rfl
  · exact fun _ => keeps_call

theorem handle_fragment_grows :
    Grows e.prim state.inserted ((e.handleClockFrameFragment (some fragment)).on state).2.inserted := by
  apply bind_grows e keeps_call
  intro key after
  apply bind_grows e keeps_call
  intro address after
  apply bind_grows e keeps_read
  intro current after
  split
  · exact .inl rfl
  · apply bind_grows e (accumulate_keeps e)
    intro assembled after
    cases assembled with
    | none => exact .inl rfl
    | some frame => exact handle_clock_frame_grows e

theorem handle_token_request_keeps {tx : TokenRequest} : Keeps DataState.inserted (e.handleTokenRequest tx) := by
  apply keeps_bind _ _ _ keeps_read
  intro current
  split
  · apply keeps_bind _ _ _ keeps_call
    intro identifiers
    split
    · exact keeps_pure
    · exact keeps_modify fun _ => rfl
  · exact keeps_pure

theorem handle_message_grows (typeUrl : String) (handleValue : Bytes → StateGo (DataState β) Unit) (data : Bytes) (state : DataState β)
    (grows : ∀ value, Grows e.prim state.inserted ((handleValue value).on state).2.inserted) :
    Grows e.prim state.inserted ((e.handleMessage typeUrl handleValue data).on state).2.inserted := by
  rw [DataClockConsensusEngine.handleMessage]
  split
  · exact .inl rfl
  · split
    · rw [on_logged_state]
      exact grows _
    · exact .inl rfl

theorem handle_grows (topic : Topic) (sender data : Bytes) (state : DataState β) :
    Grows e.prim state.inserted ((handleOn e sender data topic).on state).2.inserted := by
  cases topic with
  | frame =>
      apply handle_message_grows
      intro value
      split
      · exact .inl rfl
      · apply bind_grows e keeps_call
        exact fun frame after => handle_clock_frame_grows e
  | frameFragment =>
      apply handle_message_grows
      intro value
      split
      · exact .inl rfl
      · apply bind_grows e keeps_call
        exact fun fragment after => handle_fragment_grows e
  | tx =>
      apply handle_message_grows
      intro value
      apply bind_grows e keeps_read
      intro current after
      split
      · apply bind_grows e keeps_call
        exact fun tx later => .inl (handle_token_request_keeps e later)
      · exact .inl rfl

end Gossip

section Sync

variable {β : Type} (e : DataClockConsensusEngine β) (genesis : Option ClockFrame)

def Admitted (s : SyncSession) (response : Except GoError (Option (Option ClockFrame))) (frame : ClockFrame) : Prop :=
  response = .ok (some (some frame)) ∧ frame.frameNumber = s.latest.frameNumber + 1 ∧ ¬ frame.timestamp < s.latest.timestamp ∧
    verifyDataClockFrame e.prim frame = .ok () ∧ followsGenesis e.prim genesis frame = .ok true

theorem verified_key {prim : Primitives} (verified : verifyDataClockFrame prim frame = .ok ()) :
    ∃ key h, signerKey frame.publicKeySignatureEd448 = .ok key ∧ prim.poseidonHashBytes key = .ok h := by
  obtain ⟨key, signature, h, accepted⟩ := verify_data_clock_frame_ok_iff.mp verified
  exact ⟨key, h, by simp [signerKey, accepted.isSigned, pure, Except.pure], accepted.hashed⟩

variable {s : Syncing β}

theorem marked_data {known : Bool} : (if known = true then s else s.uncooperative).data = s.data := by
  cases known <;> rfl

theorem sync_frame_inserts {insertion : Except GoError Nat} (verified : verifyDataClockFrame e.prim frame = .ok ())
    (follows : followsGenesis e.prim genesis frame = .ok true) :
    ((syncFrame e genesis frame insertion).on s).2.data.inserted = s.data.inserted ++ [⟨frame, s.data.frameProverTries⟩] := by
  obtain ⟨key, h, isKey, hashed⟩ := verified_key verified
  cases insertion <;>
    simp only [syncFrame, on_bind, on_call, on_modify_state, isKey, verified, follows, wrapErr, mapErr, returned, raise,
      Bool.true_eq_false, if_false, DataState.insert, marked_data, on_read_state, on_pure]

theorem sync_frame_keeps (frame : ClockFrame) (insertion : Except GoError Nat) (s : Syncing β)
    (refused : ¬ (verifyDataClockFrame e.prim frame = .ok () ∧ followsGenesis e.prim genesis frame = .ok true)) :
    ((syncFrame e genesis frame insertion).on s).2.data.inserted = s.data.inserted := by
  rw [syncFrame]
  cases isKey : signerKey frame.publicKeySignatureEd448 with
  | error fault => simp [on_bind]
  | ok key =>
      cases verified : verifyDataClockFrame e.prim frame with
      | error fault => cases fault <;> simp [on_bind, wrapErr, mapErr, raise, marked_data]
      | ok value =>
          cases follows : followsGenesis e.prim genesis frame with
          | error fault => simp [on_bind, wrapErr, mapErr, marked_data]
          | ok passes =>
              cases passes with
              | true => exact absurd ⟨verified, follows⟩ refused
              | false => simp [on_bind, wrapErr, mapErr, raise, marked_data]

theorem sync_response_inserts (insertion : Except GoError Nat) (admitted : Admitted e genesis s.session response frame) :
    ((syncResponse e genesis response insertion).on s).2.data.inserted = s.data.inserted ++ [⟨frame, s.data.frameProverTries⟩] := by
  obtain ⟨isResponse, number, timestamp, verified, follows⟩ := admitted
  rw [isResponse]
  simp only [syncResponse, on_bind, on_read_state]
  rw [if_neg (by simp [number, timestamp])]
  exact sync_frame_inserts e genesis verified follows

theorem sync_response_keeps (insertion : Except GoError Nat)
    (refused : ∀ frame, ¬ Admitted e genesis s.session response frame) :
    ((syncResponse e genesis response insertion).on s).2.data.inserted = s.data.inserted := by
  rcases response with cause | _ | _ | frame
  · simp [syncResponse, on_bind]
  · rfl
  · rfl
  · simp only [syncResponse, on_bind, on_read_state]
    split
    · rfl
    · rename_i next
      simp only [not_or, not_not] at next
      apply sync_frame_keeps
      rintro ⟨verified, follows⟩
      exact refused frame ⟨rfl, next.1, next.2, verified, follows⟩

-- An admitted frame of the sync peer is signed by a key in the tries the node has then.
def Vouched (event : NodeEvent) (n : DataNode β) : Prop :=
  match event with
  | .response response _ _ =>
      n.crashed = false → ∀ session frame, n.session = some session → Admitted e genesis session response frame →
        ∀ key, signerKey frame.publicKeySignatureEd448 = .ok key → n.data.isInProverTrie e.prim key = true
  | _ => True

theorem is_in_prover_trie_iff {s : DataState β} {key : Bytes} {h : Fin poseidonOrder} (hashed : e.prim.poseidonHashBytes key = .ok h) :
    s.isInProverTrie e.prim key = true ↔ ∃ trie ∈ s.frameProverTries, trie.contains (beBytes 32 h.val) = true := by
  simp [DataState.isInProverTrie, hashed, DataState.frameProverTriesContains]

theorem finish_data {n : DataNode β} {now : Int64} : (n.finish session now).data = n.data := by
  rw [DataNode.finish]
  split
  · rfl
  · split <;> rfl

def AllProverSigned (n : DataNode β) : Prop := ∀ i ∈ n.data.inserted, ProverSigned e.prim i

theorem grows_all (before after : List Insertion) (grows : Grows e.prim before after) (all : ∀ i ∈ before, ProverSigned e.prim i) :
    ∀ i ∈ after, ProverSigned e.prim i := by
  rcases grows with same | ⟨added, signed, same⟩
  · rw [same]
    exact all
  · rw [same]
    intro i member
    rcases List.mem_append.mp member with old | new
    · exact all i old
    · rw [List.mem_singleton.mp new]
      exact signed

theorem response_step_inserted (n : DataNode β) (session : SyncSession) (response : Except GoError (Option (Option ClockFrame)))
    (insertion : Except GoError Nat) (now : Int64) (running : n.crashed = false) (isSession : n.session = some session) :
    (n.step e genesis (.response response insertion now)).data.inserted =
      ((syncResponse e genesis response insertion).on ⟨n.data, session⟩).2.data.inserted := by
  simp only [DataNode.step, running, isSession, Bool.false_eq_true, if_false]
  rcases (syncResponse e genesis response insertion).on ⟨n.data, session⟩ with ⟨(_ | _ | _) | (_ | _), after⟩ <;>
    simp [finish_data]

theorem response_step_signed_iff (n : DataNode β) (response : Except GoError (Option (Option ClockFrame)))
    (insertion : Except GoError Nat) (now : Int64) (signed : AllProverSigned e n) :
    AllProverSigned e (n.step e genesis (.response response insertion now)) ↔ Vouched e genesis (.response response insertion now) n := by
  by_cases running : n.crashed = false
  · cases isSession : n.session with
    | none =>
        have same : n.step e genesis (.response response insertion now) = n := by
          simp [DataNode.step, running, isSession]
        rw [same]
        exact iff_of_true signed (by simp [Vouched, isSession])
    | some session =>
        rw [AllProverSigned, response_step_inserted e genesis n session response insertion now running isSession]
        by_cases admits : ∃ frame, Admitted e genesis session response frame
        · obtain ⟨frame, admitted⟩ := admits
          obtain ⟨key, h, isKey, hashed⟩ := verified_key admitted.2.2.2.1
          rw [sync_response_inserts e genesis insertion admitted]
          constructor
          · intro all _ other otherFrame isOther otherAdmitted otherKey isOtherKey
            rw [isSession] at isOther
            cases isOther
            cases admitted.1.symm.trans otherAdmitted.1
            obtain ⟨_, _, _, isKey', hashed', known⟩ := all ⟨frame, n.data.frameProverTries⟩ (by simp)
            rw [isOtherKey] at isKey'
            cases isKey'
            exact (is_in_prover_trie_iff e hashed').mpr known
          · intro vouched
            apply grows_all e n.data.inserted _ _ signed
            have known := vouched running session frame isSession admitted key isKey
            exact .inr ⟨_, ⟨admitted.2.2.2.1, key, h, isKey, hashed, (is_in_prover_trie_iff e hashed).mp known⟩, rfl⟩
        · rw [sync_response_keeps e genesis insertion (not_exists.mp admits)]
          apply iff_of_true signed
          intro _ other frame isOther admitted
          rw [isSession] at isOther
          cases isOther
          exact absurd ⟨frame, admitted⟩ admits
  · have same : n.step e genesis (.response response insertion now) = n := by simp [DataNode.step, running]
    rw [same]
    exact iff_of_true signed fun impossible => absurd impossible running

theorem step_signed_iff (event : NodeEvent) (n : DataNode β) (signed : AllProverSigned e n) :
    AllProverSigned e (n.step e genesis event) ↔ Vouched e genesis event n := by
  cases event with
  | gossip topic sender data =>
      apply iff_of_true _ trivial
      have grows := grows_all e _ _ (handle_grows e topic sender data n.data) signed
      rw [AllProverSigned, DataNode.step]
      split
      · exact signed
      · rcases ran : (handleOn e sender data topic).on n.data with ⟨(_ | _ | _) | _, after⟩ <;> rw [ran] at grows <;> exact grows
  | reel head tries =>
      apply iff_of_true _ trivial
      rw [AllProverSigned, DataNode.step]
      split <;> exact signed
  | dial latest doneChs maxFrame peerId channel now =>
      apply iff_of_true _ trivial
      have same : (n.step e genesis (.dial latest doneChs maxFrame peerId channel now)).data = n.data := by
        cases running : n.crashed <;> cases isSession : n.session <;> cases channel <;>
          simp [DataNode.step, running, isSession, finish_data]
      rw [AllProverSigned, same]
      exact signed
  | response response insertion now => exact response_step_signed_iff e genesis n response insertion now signed

theorem prover_signed_iff (n : DataNode β) (start : AllProverSigned e n) (events : List NodeEvent) :
    (∀ front rest, events = front ++ rest → AllProverSigned e (runActions (DataNode.step e genesis) front n)) ↔
      ∀ front event rest, events = front ++ event :: rest → Vouched e genesis event (runActions (DataNode.step e genesis) front n) :=
  run_holds_iff (DataNode.step e genesis) (fun _ => True) (AllProverSigned e) (Vouched e genesis) (fun _ _ _ => trivial)
    (fun event state _ signed => step_signed_iff e genesis event state signed) events n trivial start

end Sync

def syncEngine : DataClockConsensusEngine Unit where
  prim := sealerPrimitives
  codec := ⟨fun _ => .error errNotFound, fun _ => .error errNotFound, fun _ => .error errNotFound, fun _ => .error errNotFound,
    fun _ => .error errNotFound⟩
  sha3Sum512 := id
  accumulateClockFrameFragment _ _ := (.ok none, ())
  peerID := [1]
  provingKeyAddress := []

def syncLatest : ClockFrame := ⟨List.replicate 32 9, 7, 0, 10000, [], [], List.replicate 516 5, [], none, []⟩

def syncNode (tries : List RollingFrecencyCritbitTrie) : DataNode Unit :=
  ⟨⟨tries, syncLatest, [], (), [], [], [], [], []⟩, none, AList.singleton [2] 0, ∅, false⟩

def syncEvents : List NodeEvent :=
  [.dial syncLatest [] 9 [2] (.ok ()) 1, .response (.ok (some (some (sealedFrame [])))) (.ok 0) 2]

def sealerTries : List RollingFrecencyCritbitTrie :=
  [RollingFrecencyCritbitTrie.zero.add (beBytes 32 (setBytes sealerKey % poseidonOrder)) 0]

theorem synced_frame_admitted (isLatest : session.latest = syncLatest) :
    Admitted syncEngine none session (.ok (some (some (sealedFrame [])))) (sealedFrame []) := by
  refine ⟨rfl, by rw [isLatest]; rfl, by rw [isLatest]; decide +kernel, sealed_frame_accepted [], by decide +kernel⟩

theorem prover_signed_sealer :
    AllProverSigned syncEngine (syncNode sealerTries) ∧
      ∀ front rest, syncEvents = front ++ rest →
        AllProverSigned syncEngine (runActions (DataNode.step syncEngine none) front (syncNode sealerTries)) := by
  have start : AllProverSigned syncEngine (syncNode sealerTries) := by simp [AllProverSigned, syncNode]
  refine ⟨start, (prover_signed_iff syncEngine none (syncNode sealerTries) start syncEvents).mpr ?_⟩
  intro front event rest isSplit
  rcases front with _ | ⟨first, _ | ⟨second, front⟩⟩
  · cases isSplit
    trivial
  · cases isSplit
    intro _ session frame _ admitted key isKey
    cases admitted.1
    have sealer : signerKey (sealedFrame []).publicKeySignatureEd448 = .ok sealerKey := rfl
    rw [sealer] at isKey
    cases isKey
    have known : (syncNode sealerTries).data.isInProverTrie sealerPrimitives sealerKey = true := by decide +kernel
    exact known
  · simp [syncEvents] at isSplit

theorem stranger_frame_inserted :
    AllProverSigned syncEngine (syncNode []) ∧
      ¬ AllProverSigned syncEngine (runActions (DataNode.step syncEngine none) syncEvents (syncNode [])) := by
  refine ⟨by simp [AllProverSigned, syncNode], fun all => ?_⟩
  have inserted := response_step_inserted syncEngine none ((syncNode []).step syncEngine none
    (.dial syncLatest [] 9 [2] (.ok ()) 1)) ⟨[2], syncLatest, [], 9, true⟩ (.ok (some (some (sealedFrame [])))) (.ok 0) 2 rfl rfl
  rw [sync_response_inserts syncEngine none _ (synced_frame_admitted rfl)] at inserted
  obtain ⟨-, key, h, -, -, trie, known, -⟩ := all ⟨sealedFrame [], []⟩ (by
    simp only [syncEvents, run_cons, run_nil, inserted]
    simp [DataNode.step, syncNode])
  cases known

end Ceremony
