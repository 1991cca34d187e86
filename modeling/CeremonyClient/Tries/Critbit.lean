import CeremonyClient.Lib.CritBit
import CeremonyClient.Lib.Bytes

set_option autoImplicit false

namespace Ceremony

open GoSem

variable {k : Bytes} {width : Nat}

structure Value where
  key : Bytes
  earliestFrame : UInt64
  latestFrame : UInt64
  count : UInt64
deriving DecidableEq

-- INode.Pos and INode.Other: a byte position and the complement of the critical bit.
structure CritPos where
  pos : Nat
  other : UInt8
deriving DecidableEq

abbrev TrieNode := CritBit.Node Bytes Value CritPos

structure Tree where
  root : Option TrieNode
  size : Int
deriving DecidableEq

def newTree : Tree := ⟨none, 0⟩

def direction (k : Bytes) (pos : Nat) (other : UInt8) : Nat :=
  match k[pos]? with
  | some c => (1 + (other ||| c).toNat) >>> 8
  | none => if other = 0xff then 0 else (1 + (other ||| 0).toNat) >>> 8

def goesRight (k : Bytes) (here : CritPos) : Bool := direction k here.pos here.other == 1

def Tree.get (t : Tree) (k : Bytes) : Option Value :=
  match t.root with
  | none => none
  | some root =>
      let n := CritBit.lookup goesRight k root
      if k = n.1 then some n.2 else none

def byteAt (bytes : Bytes) (pos : Nat) : UInt8 := bytes[pos]?.getD 0

-- Missing bytes of the stored key read as zero, so a pure length difference reports an xor of zero.
def findFirstDiffByte (k stored : Bytes) : Nat × UInt8 × Bool :=
  match (List.range k.length).find? fun pos => byteAt stored pos != byteAt k pos with
  | some pos => (pos, byteAt stored pos ^^^ byteAt k pos, false)
  | none =>
      if k.length < stored.length then (k.length, byteAt stored k.length, false)
      else if k.length = stored.length then (0, 0, true)
      else (k.length - 1, 0, false)

-- Keep the highest set bit and complement it.
def critMask (other : UInt8) : UInt8 :=
  let other := other ||| (other >>> 1)
  let other := other ||| (other >>> 2)
  let other := other ||| (other >>> 4)
  ~~~(other &&& ~~~(other >>> 1))

def stopsAt (fresh here : CritPos) : Bool :=
  here.pos > fresh.pos || (here.pos == fresh.pos && here.other > fresh.other)

def Tree.insert (t : Tree) (k : Bytes) (v : Value) : Tree :=
  match t.root with
  | none => ⟨some (.external k v), t.size + 1⟩
  | some root =>
      let n := CritBit.lookup goesRight k root
      let diff := findFirstDiffByte k n.1
      if diff.2.2 then ⟨some (CritBit.setValue goesRight k v root), t.size⟩
      else
        let fresh : CritPos := ⟨diff.1, critMask diff.2.1⟩
        let di := goesRight n.1 fresh
        ⟨some (CritBit.place goesRight (stopsAt fresh) k (CritBit.fork fresh di (.external k v)) root), t.size + 1⟩

-- findDeletePos descends exactly as lookup does; a different key there means nothing to delete.
def Tree.delete (t : Tree) (k : Bytes) : Tree :=
  match t.root with
  | none => t
  | some root =>
      if k = (CritBit.lookup goesRight k root).1 then ⟨CritBit.delete goesRight k root, t.size - 1⟩ else t

def Tree.walk (t : Tree) : List Value := (CritBit.optionalEntries t.root).map Prod.snd

def masks : List UInt8 := [0x7f, 0xbf, 0xdf, 0xef, 0xf7, 0xfb, 0xfd, 0xfe]

def ValidPos (here : CritPos) : Prop := here.other ∈ masks

def posRank (here : CritPos) : Nat := here.pos * 256 + here.other.toNat

theorem crit_mask_bits (x : UInt8) : x ≠ 0 → critMask x ∈ masks ∧ x &&& ~~~critMask x = ~~~critMask x ∧
    ∀ mask ∈ masks, mask < critMask x → x &&& ~~~mask = 0 := by
  have checked := byte_forall (fun x => decide (x ≠ 0 → critMask x ∈ masks ∧ x &&& ~~~critMask x = ~~~critMask x ∧
    masks.all (fun mask => mask < critMask x → x &&& ~~~mask = 0) = true)) (by decide +kernel) x
  simpa only [List.all_eq_true, decide_eq_true_eq] using checked

theorem mask_bit (byte : UInt8) : ∀ mask ∈ masks,
    ((1 + (mask ||| byte).toNat) >>> 8 == 1) = decide (byte &&& ~~~mask = ~~~mask) ∧
      (byte &&& ~~~mask = 0 ∨ byte &&& ~~~mask = ~~~mask) ∧ ~~~mask ≠ 0 := by
  have checked := byte_forall (fun byte => masks.all (fun mask =>
    ((1 + (mask ||| byte).toNat) >>> 8 == 1) = decide (byte &&& ~~~mask = ~~~mask) ∧
      (byte &&& ~~~mask = 0 ∨ byte &&& ~~~mask = ~~~mask) ∧ ~~~mask ≠ 0)) (by decide +kernel) byte
  simpa only [List.all_eq_true, decide_eq_true_eq] using checked

theorem xor_and {a x mask : UInt8} : (a ^^^ x) &&& mask = (a &&& mask) ^^^ (x &&& mask) := by
  apply UInt8.toBitVec_inj.mp
  apply BitVec.eq_of_getLsbD_eq
  intro i bound
  simp [Bool.and_xor_distrib_right]

theorem goes_right_bit (k : Bytes) (here : CritPos) (valid : ValidPos here) :
    goesRight k here = decide (byteAt k here.pos &&& ~~~here.other = ~~~here.other) := by
  have bit := fun byte => (mask_bit byte here.other valid).1
  have notFull : here.other ≠ 0xff := by
    intro full
    have impossible : (0xff : UInt8) ∈ masks := full ▸ valid
    exact absurd impossible (by decide)
  cases read : k[here.pos]? with
  | none => simp only [goesRight, direction, byteAt, read, if_neg notFull, Option.getD_none, bit]
  | some byte => simp only [goesRight, direction, byteAt, read, Option.getD_some, bit]

theorem find_first_diff_same : findFirstDiffByte k k = (0, 0, true) := by
  have search : (List.range k.length).find? (fun pos => byteAt k pos != byteAt k pos) = none := by simp
  rw [findFirstDiffByte, search]
  simp

theorem find_first_diff (k stored : Bytes) (width : k.length = stored.length) (different : k ≠ stored) :
    ∃ pos, findFirstDiffByte k stored = (pos, byteAt stored pos ^^^ byteAt k pos, false) ∧
      byteAt stored pos ≠ byteAt k pos ∧ ∀ earlier < pos, byteAt stored earlier = byteAt k earlier := by
  cases search : (List.range k.length).find? fun pos => byteAt stored pos != byteAt k pos with
  | none =>
      refine absurd (List.ext_getElem? fun pos => ?_) different
      by_cases bound : pos < k.length
      · have same := List.find?_eq_none.mp search pos (List.mem_range.mpr bound)
        have boundStored : pos < stored.length := width ▸ bound
        simp only [byteAt, List.getElem?_eq_getElem bound, List.getElem?_eq_getElem boundStored,
          Option.getD_some, bne_iff_ne, ne_eq, not_not] at same
        rw [List.getElem?_eq_getElem bound, List.getElem?_eq_getElem boundStored, same]
      · rw [List.getElem?_eq_none (Nat.le_of_not_gt bound), List.getElem?_eq_none (width ▸ Nat.le_of_not_gt bound)]
  | some pos =>
      obtain ⟨found, -, before⟩ := List.find?_range_eq_some.mp search
      refine ⟨pos, by rw [findFirstDiffByte, search], by simpa using found, ?_⟩
      intro earlier less
      simpa using before earlier less

theorem find_first_diff_position (k stored : Bytes) (width : k.length = stored.length) (different : k ≠ stored) :
    ∃ pos other, findFirstDiffByte k stored = (pos, other, false) ∧ ValidPos ⟨pos, critMask other⟩ ∧
      goesRight k ⟨pos, critMask other⟩ ≠ goesRight stored ⟨pos, critMask other⟩ ∧
      CritBit.AgreeBefore goesRight posRank ValidPos ⟨pos, critMask other⟩ k stored := by
  obtain ⟨pos, found, differ, before⟩ := find_first_diff k stored width different
  have nonzero : byteAt stored pos ^^^ byteAt k pos ≠ 0 := fun zero => differ (UInt8.xor_eq_zero_iff.mp zero)
  obtain ⟨validMask, topBit, higher⟩ := crit_mask_bits _ nonzero
  have swap : byteAt k pos = byteAt stored pos ^^^ (byteAt stored pos ^^^ byteAt k pos) := by
    rw [← UInt8.xor_assoc, UInt8.xor_self, UInt8.zero_xor]
  refine ⟨pos, _, found, validMask, ?_, ?_⟩
  · -- The xor of the two bytes has the critical bit, so exactly one of them has it.
    have validHere : ValidPos ⟨pos, critMask (byteAt stored pos ^^^ byteAt k pos)⟩ := validMask
    rw [goes_right_bit k _ validHere, goes_right_bit stored _ validHere]
    obtain ⟨-, bit, bitNonzero⟩ := mask_bit (byteAt stored pos) _ validMask
    have toggled : byteAt k pos &&& ~~~critMask (byteAt stored pos ^^^ byteAt k pos) =
        (byteAt stored pos &&& ~~~critMask (byteAt stored pos ^^^ byteAt k pos)) ^^^
          ~~~critMask (byteAt stored pos ^^^ byteAt k pos) := by
      nth_rewrite 1 [swap]
      rw [xor_and, topBit]
    simp only [toggled, ne_eq, decide_eq_decide]
    rcases bit with clear | set
    · simp only [clear, UInt8.zero_xor, true_iff]
      exact Ne.symm bitNonzero
    · simp only [set, UInt8.xor_self, iff_true]
      exact Ne.symm bitNonzero
  · intro earlier validEarlier less
    rw [goes_right_bit k _ validEarlier, goes_right_bit stored _ validEarlier]
    rcases Nat.lt_trichotomy earlier.pos pos with lower | same | higherPos
    · rw [before earlier.pos lower]
    · have smaller : earlier.other < critMask (byteAt stored pos ^^^ byteAt k pos) := by
        simp only [posRank, same] at less
        exact UInt8.lt_iff_toNat_lt.mpr (by omega)
      have clear := higher earlier.other validEarlier smaller
      have unchanged : byteAt k pos &&& ~~~earlier.other = byteAt stored pos &&& ~~~earlier.other := by
        nth_rewrite 1 [swap]
        rw [xor_and, clear, UInt8.xor_zero]
      rw [same, unchanged]
    · have boundOther := earlier.other.toNat_lt
      have boundMask := (critMask (byteAt stored pos ^^^ byteAt k pos)).toNat_lt
      simp only [posRank] at less
      omega

theorem stops_at_iff {fresh : CritPos} (here : CritPos) : stopsAt fresh here = true ↔ posRank fresh < posRank here := by
  have boundFresh := fresh.other.toNat_lt
  have boundHere := here.other.toNat_lt
  simp only [stopsAt, posRank, Bool.or_eq_true, Bool.and_eq_true, decide_eq_true_eq, beq_iff_eq, gt_iff_lt,
    UInt8.lt_iff_toNat_lt]
  omega

theorem pos_rank_injective {a b : CritPos} (same : posRank a = posRank b) : a = b := by
  have boundA := a.other.toNat_lt
  have boundB := b.other.toNat_lt
  simp only [posRank] at same
  have samePos : a.pos = b.pos := by omega
  have sameOther : a.other = b.other := UInt8.toNat_inj.mp (by omega)
  cases a
  cases b
  simp_all

-- All keys of one width: what the callers keep, since they only store hashed addresses.
def WidthKeys (width : Nat) (keys : List Bytes) : Prop := ∀ key ∈ keys, key.length = width

def TrieFormed (width : Nat) (t : Tree) : Prop :=
  ∀ root, t.root = some root → CritBit.WellFormed goesRight posRank ValidPos root ∧ WidthKeys width (CritBit.keys root)

def Tree.entries (t : Tree) : List (Bytes × Value) := CritBit.optionalEntries t.root

theorem new_tree_formed : TrieFormed width newTree := by
  intro root stored
  cases stored

variable {t : Tree}

theorem tree_keys_nodup (formed : TrieFormed width t) : (t.entries.map Prod.fst).Nodup := by
  cases stored : t.root with
  | none => simp [Tree.entries, stored, CritBit.optionalEntries]
  | some root =>
      rw [Tree.entries, stored]
      exact CritBit.keys_nodup goesRight posRank ValidPos (formed root stored).1

variable {v : Value}

theorem tree_get_iff (formed : TrieFormed width t) : t.get k = some v ↔ (k, v) ∈ t.entries := by
  cases stored : t.root with
  | none => simp [Tree.get, Tree.entries, stored, CritBit.optionalEntries]
  | some root =>
      simp only [Tree.get, Tree.entries, stored, CritBit.optionalEntries]
      constructor
      · intro found
        split at found
        · rename_i same
          have pair : (k, v) = CritBit.lookup goesRight k root := Prod.ext same (Option.some.inj found).symm
          rw [pair]
          exact CritBit.lookup_stored
        · cases found
      · intro member
        rw [CritBit.lookup_present goesRight posRank ValidPos (formed root stored).1 member]
        simp

theorem insert_absent_entries (width : Nat) (t : Tree) (formed : TrieFormed width t) (k : Bytes) (v : Value)
    (wide : k.length = width) (absent : k ∉ t.entries.map Prod.fst) :
    (t.insert k v).entries.Perm ((k, v) :: t.entries) ∧ TrieFormed width (t.insert k v) := by
  cases stored : t.root with
  | none =>
      simp only [Tree.insert, stored, Tree.entries, CritBit.optionalEntries, CritBit.entries, List.Perm.refl, true_and]
      intro root isRoot
      cases isRoot
      exact ⟨trivial, by simpa [WidthKeys] using wide⟩
  | some root =>
      obtain ⟨wellFormed, widths⟩ := formed root stored
      have nearest := CritBit.lookup_key_mem goesRight k root
      simp only [Tree.entries, stored, CritBit.optionalEntries] at absent ⊢
      have different : k ≠ (CritBit.lookup goesRight k root).1 := by
        intro same
        rw [← same] at nearest
        exact absent nearest
      obtain ⟨pos, other, found, valid, differ, agree⟩ :=
        find_first_diff_position k _ (wide.trans (widths _ nearest).symm) different
      simp only [Tree.insert, stored, found, Bool.false_eq_true, if_false]
      refine ⟨CritBit.place_entries goesRight _ _ _ k v root, ?_⟩
      intro next isRoot
      rw [← Option.some.inj isRoot]
      refine ⟨?_, ?_⟩
      · exact CritBit.place_formed goesRight posRank ValidPos _ _ k v valid stops_at_iff
          (fun position _ same => pos_rank_injective same) root wellFormed differ agree
      · intro key member
        rcases List.mem_cons.mp ((CritBit.place_keys goesRight _ _ _ k v root).mem_iff.mp member) with same | old
        · rw [same, wide]
        · exact widths key old

theorem insert_present_entries (formed : TrieFormed width t) (v : Value) (present : k ∈ t.entries.map Prod.fst) :
    (t.insert k v).entries = (t.entries.map fun e => if e.1 = k then (e.1, v) else e) ∧ TrieFormed width (t.insert k v) := by
  cases stored : t.root with
  | none => simp [Tree.entries, stored, CritBit.optionalEntries] at present
  | some root =>
      obtain ⟨wellFormed, widths⟩ := formed root stored
      simp only [Tree.entries, stored, CritBit.optionalEntries] at present ⊢
      obtain ⟨⟨key, old⟩, member, same⟩ := List.mem_map.mp present
      cases same
      have nearest := CritBit.lookup_present goesRight posRank ValidPos wellFormed member
      simp only [Tree.insert, stored, nearest, find_first_diff_same, if_true]
      refine ⟨CritBit.set_value_entries goesRight posRank ValidPos wellFormed present, ?_⟩
      intro next isRoot
      rw [← Option.some.inj isRoot, WidthKeys, CritBit.set_value_keys]
      exact ⟨CritBit.set_value_formed goesRight posRank ValidPos wellFormed, widths⟩

theorem find_first_diff_match (k stored : Bytes) (matched : (findFirstDiffByte k stored).2.2 = true) : k = stored := by
  by_contra different
  by_cases width : k.length = stored.length
  · obtain ⟨pos, found, -⟩ := find_first_diff k stored width different
    rw [found] at matched
    cases matched
  · rw [findFirstDiffByte] at matched
    split at matched
    · cases matched
    · split at matched
      · cases matched
      · simp at matched

theorem insert_keys {key : Bytes} : key ∈ (t.insert k v).entries.map Prod.fst ↔ key = k ∨ key ∈ t.entries.map Prod.fst := by
  cases stored : t.root with
  | none => simp [Tree.insert, stored, Tree.entries, CritBit.optionalEntries, CritBit.entries]
  | some root =>
      by_cases matched : (findFirstDiffByte k (CritBit.lookup goesRight k root).1).2.2 = true
      · have kept := CritBit.set_value_keys goesRight root k v
        have present := CritBit.lookup_key_mem goesRight k root
        rw [← find_first_diff_match k _ matched] at present
        simp only [CritBit.keys] at kept present
        simp only [Tree.insert, stored, matched, if_true, Tree.entries, CritBit.optionalEntries, kept]
        exact ⟨Or.inr, fun either => either.elim (fun same => same ▸ present) id⟩
      · simp only [Tree.insert, stored, matched, Tree.entries, CritBit.optionalEntries]
        exact ((CritBit.place_entries goesRight _ _ _ k v root).map Prod.fst).mem_iff.trans List.mem_cons

theorem insert_size (t : Tree) (k : Bytes) (v : Value) : (t.insert k v).entries.length ≤ t.entries.length + 1 := by
  cases stored : t.root with
  | none => simp [Tree.insert, stored, Tree.entries, CritBit.optionalEntries, CritBit.entries]
  | some root =>
      by_cases matched : (findFirstDiffByte k (CritBit.lookup goesRight k root).1).2.2 = true
      · have kept := congrArg List.length (CritBit.set_value_keys goesRight root k v)
        simp only [CritBit.keys, List.length_map] at kept
        simp only [Tree.insert, stored, matched, if_true, Tree.entries, CritBit.optionalEntries, kept]
        exact Nat.le_succ _
      · simp only [Tree.insert, stored, matched, Tree.entries, CritBit.optionalEntries]
        exact (CritBit.place_entries goesRight _ _ _ k v root).length_eq.le

theorem delete_size : (t.delete k).entries.length ≤ t.entries.length := by
  cases stored : t.root with
  | none => simp [Tree.delete, stored]
  | some root =>
      by_cases same : k = (CritBit.lookup goesRight k root).1
      · simp only [Tree.delete, stored, if_pos same, Tree.entries]
        exact (CritBit.delete_sublist goesRight).length_le
      · simp only [Tree.delete, stored, if_neg same, le_refl]

theorem delete_tree_entries (width : Nat) (t : Tree) (formed : TrieFormed width t) (k : Bytes) :
    (t.delete k).entries = (t.entries.filter fun e => e.1 ≠ k) ∧ TrieFormed width (t.delete k) := by
  cases stored : t.root with
  | none => simpa [Tree.delete, stored, Tree.entries, CritBit.optionalEntries] using formed
  | some root =>
      obtain ⟨wellFormed, widths⟩ := formed root stored
      have removed := CritBit.delete_entries goesRight posRank ValidPos k root wellFormed
      by_cases same : k = (CritBit.lookup goesRight k root).1
      · simp only [Tree.delete, stored, if_pos same, Tree.entries, CritBit.optionalEntries]
        refine ⟨removed, ?_⟩
        intro next isRoot
        exact ⟨CritBit.delete_formed goesRight posRank ValidPos k root next wellFormed isRoot, fun key member =>
          widths key (CritBit.delete_keys_subset goesRight posRank ValidPos k root next wellFormed isRoot member)⟩
      · have kept : ((CritBit.entries root).filter fun e => e.1 ≠ k) = CritBit.entries root := by
          apply List.filter_eq_self.mpr
          rintro ⟨key, old⟩ member
          rw [decide_eq_true_eq]
          rintro rfl
          exact same (by rw [CritBit.lookup_present goesRight posRank ValidPos wellFormed member])
        simp only [Tree.delete, stored, if_neg same, Tree.entries, CritBit.optionalEntries]
        exact ⟨kept.symm, formed⟩

end Ceremony
