import CeremonyClient.Token.Slots

set_option autoImplicit false

namespace Ceremony

open GoSem

variable {a : TokenApplication} {seen after : List Bytes} {addr : Bytes} {fewer : List Bytes} {t : MintCoinRequest} {chosen : Bool}
  {currentFrameNumber : UInt64}

theorem unseen_ring_cases {ring : Int} (done : unseenRing a seen addr = .ok (ring, after)) :
    (ring = -1 ∧ after = seen) ∨
      (addr ∉ seen ∧ ring ≠ -1 ∧ after = addr :: seen ∧ ∃ rings, sliceFrom a.tries 1 = .ok rings ∧ ring = lastRing rings addr) := by
  rw [unseenRing] at done
  split at done
  · cases done
    exact Or.inl ⟨rfl, rfl⟩
  · rename_i unseen
    obtain ⟨rings, read, result⟩ := (bind_ok_iff _ _ _).mp done
    cases result
    by_cases noRing : lastRing rings addr = -1
    · exact Or.inl ⟨noRing, if_pos noRing⟩
    · exact Or.inr ⟨unseen, noRing, if_neg noRing, rings, read, rfl⟩

theorem unseen_ring_fewer {rings : List RollingFrecencyCritbitTrie} (read : sliceFrom a.tries 1 = .ok rings) (unseen : addr ∉ fewer)
    (found : lastRing rings addr ≠ -1) : unseenRing a fewer addr = .ok (lastRing rings addr, addr :: fewer) := by
  simp [unseenRing, unseen, read, found, pure, Except.pure]

theorem select_pre2_cases (done : selectPre2 a seen t = .ok (chosen, after)) :
    (chosen = false ∧ after = seen) ∨
      (chosen = true ∧ ∃ owner, owner ∉ seen ∧ after = owner :: seen ∧
        ∀ fewer, owner ∉ fewer → selectPre2 a fewer t = .ok (true, owner :: fewer)) := by
  simp only [selectPre2] at done ⊢
  obtain ⟨key, isKey, done⟩ := (bind_ok_iff _ _ _).mp done
  obtain ⟨result, tried, done⟩ := (bind_ok_iff _ _ _).mp done
  simp only [isKey, tried, ok_bind]
  cases result with
  | error cause =>
      cases done
      exact Or.inl ⟨rfl, rfl⟩
  | ok addr =>
      obtain ⟨beacons, read, done⟩ := (bind_ok_iff _ _ _).mp done
      simp only [read, ok_bind]
      cases beacon : (beacons.contains addr && key == a.beacon) with
      | false =>
          simp only [beacon, Bool.false_eq_true, if_false] at done
          cases done
          exact Or.inl ⟨rfl, rfl⟩
      | true =>
          simp only [beacon, if_true] at done ⊢
          obtain ⟨owner, isOwner, done⟩ := (bind_ok_iff _ _ _).mp done
          simp only [isOwner, ok_bind]
          by_cases repeated : owner ∈ seen
          · simp only [if_pos repeated] at done
            cases done
            exact Or.inl ⟨rfl, rfl⟩
          · simp only [if_neg repeated] at done
            cases done
            exact Or.inr ⟨rfl, owner, repeated, rfl, fun fewer unseen => by rw [if_neg unseen]; rfl⟩

theorem select_chain_cases (done : selectChain a currentFrameNumber seen t = .ok (chosen, after)) :
    (chosen = false ∧ seen ⊆ after) ∨
      (chosen = true ∧ ∃ addr, (signerKey t.signature >>= peerAddress a.prim) = .ok addr ∧ addr ∉ seen ∧ after = addr :: seen ∧
        ∀ fewer, addr ∉ fewer → selectChain a currentFrameNumber fewer t = .ok (true, addr :: fewer)) := by
  simp only [selectChain] at done ⊢
  obtain ⟨frameNumber, isFrame, done⟩ := (bind_ok_iff _ _ _).mp done
  simp only [isFrame, ok_bind]
  split at done
  · cases done
    exact Or.inl ⟨rfl, List.Subset.refl _⟩
  · rename_i onTime
    obtain ⟨⟨found, next⟩, ran, result⟩ := (bind_ok_iff _ _ _).mp done
    cases result
    obtain ⟨key, isKey, ⟨-, none, same⟩ | ⟨addr, ring, hashed, looked, isFound⟩⟩ := (ring_and_parallelism_ok_iff _ _ _ _ _).mp ran
    · rw [none, same]
      exact Or.inl ⟨rfl, List.Subset.refl _⟩
    · rcases unseen_ring_cases looked with ⟨noRing, same⟩ | ⟨unseen, isRing, same, rings, read, last⟩
      · rw [same, isFound, if_pos noRing]
        exact Or.inl ⟨rfl, List.Subset.refl _⟩
      · rw [isFound, if_neg isRing]
        cases stated : mintParallelism t with
        | none =>
            rw [same]
            exact Or.inl ⟨rfl, List.subset_cons_self _ _⟩
        | some parallelism =>
            refine Or.inr ⟨rfl, addr, (bind_ok_iff _ _ _).mpr ⟨key, isKey, hashed⟩, unseen, same, fun fewer absent => ?_⟩
            have again := (ring_and_parallelism_ok_iff a.prim t (unseenRing a) fewer (addr :: fewer)).mpr
              ⟨key, isKey, Or.inr ⟨addr, _, hashed, unseen_ring_fewer read absent (last ▸ isRing), rfl⟩⟩
            rw [if_neg onTime, again, ← last, if_neg isRing, stated]
            rfl

theorem select_slot_grows (a : TokenApplication) (currentFrameNumber : UInt64) (seen after : List Bytes) (slot out : Slot)
    (done : selectSlot a currentFrameNumber seen slot = .ok (out, after)) : seen ⊆ after := by
  rcases select_slot_cases done with
    ⟨-, same, -⟩ | ⟨-, -, -, same⟩ | ⟨t, chosen, -, -, -, ⟨-, ran⟩ | ⟨-, -, ran⟩⟩
  · rw [same]; exact List.Subset.refl _
  · rw [same]; exact List.Subset.refl _
  · rcases select_pre2_cases ran with ⟨-, same⟩ | ⟨-, owner, -, same, -⟩
    · rw [same]; exact List.Subset.refl _
    · rw [same]; exact List.subset_cons_self _ _
  · rcases select_chain_cases ran with ⟨-, subset⟩ | ⟨-, addr, -, -, same, -⟩
    · exact subset
    · rw [same]; exact List.subset_cons_self _ _

theorem select_slot_shrinks {slot out : Slot} (subset : fewer ⊆ seen) (chosen : out.set = true ∧ out.fails = false)
    (done : selectSlot a currentFrameNumber seen slot = .ok (out, after)) :
    ∃ less, selectSlot a currentFrameNumber fewer slot = .ok (out, less) ∧ less ⊆ after := by
  rcases select_slot_cases done with
    ⟨same, rfl, kind⟩ | ⟨notFailed, isMint, same, rfl⟩ | ⟨t, picked, notFailed, isMint, same, kind⟩
  · refine ⟨fewer, ?_, subset⟩
    rcases kind with failed | ⟨t, isMint, notSingle, notChain⟩
    · rw [same, failed] at chosen
      cases chosen.2
    · have notFailed : slot.fails = false := same ▸ chosen.2
      simp [selectSlot, notFailed, isMint, notSingle, notChain, same]
  · exact ⟨fewer, by simp [selectSlot, notFailed, isMint, same], subset⟩
  · have isPicked : picked = true := by rw [same] at chosen; exact chosen.1
    rcases kind with ⟨single, ran⟩ | ⟨many, late, ran⟩
    · rcases select_pre2_cases ran with ⟨refused, -⟩ | ⟨-, owner, unseen, rfl, again⟩
      · rw [isPicked] at refused; cases refused
      · refine ⟨owner :: fewer, ?_, List.cons_subset_cons _ subset⟩
        have replayed := again fewer fun present => unseen (subset present)
        simp [selectSlot, notFailed, isMint, single, replayed, same, isPicked, pure, Except.pure]
    · rcases select_chain_cases ran with ⟨refused, -⟩ | ⟨-, addr, -, unseen, rfl, again⟩
      · rw [isPicked] at refused; cases refused
      · refine ⟨addr :: fewer, ?_, List.cons_subset_cons _ subset⟩
        have replayed := again fewer fun present => unseen (subset present)
        have notSingle : t.proofs.length ≠ 1 := by omega
        simp [selectSlot, notFailed, isMint, notSingle, many, late, replayed, same, isPicked, pure, Except.pure]

end Ceremony
