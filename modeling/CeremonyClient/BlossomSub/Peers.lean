import CeremonyClient.Lib.Bytes
import Mathlib.Data.Finset.Filter
import Mathlib.Data.Finset.Dedup

set_option autoImplicit false

namespace Ceremony.BlossomSub

open GoSem

def singleBit (length i : Nat) (b : UInt8) : Bytes := (List.replicate length 0).set i b

def sliceByte (length i : Nat) (b : UInt8) : List Bytes :=
  if b = 0 then []
  else if b &&& (b - 1) = 0 then [singleBit length i b]
  else (([7, 6, 5, 4, 3, 2, 1, 0] : List UInt8).filter fun j => (b >>> j) &&& 1 = 1).map fun j => singleBit length i ((1 : UInt8) <<< j)

def sliceBitmask (bitmask : Bytes) : List Bytes :=
  if bitmask = List.replicate bitmask.length 0 then [bitmask]
  else bitmask.zipIdx.flatMap fun entry => sliceByte bitmask.length entry.2 entry.1

variable {P : Type} [DecidableEq P]

-- The order in which the k-th iteration of a call runs through a map, and the shuffle.
structure Orders (P : Type) [DecidableEq P] where
  order : Nat → Finset P → List P
  nodup : ∀ k s, (order k s).Nodup
  same : ∀ k s, (order k s).toFinset = s
  shufflePeers : List P → List P
  perm : ∀ peers, (shufflePeers peers).Perm peers

-- The loop of both functions: no peers so far are taken for the start of the loop.
def narrow (meet : List P → List P → List P) (listed : Nat → Bytes → Option (List P)) : Nat → List Bytes → List P → List P
  | _, [], peers => peers
  | k, slice :: rest, peers =>
      match listed k slice with
      | none => []
      | some peerset =>
          if peers.length = 0 then narrow meet listed (k + 1) rest peerset
          else if (meet peers peerset).length = 0 then []
          else narrow meet listed (k + 1) rest (meet peers peerset)

def getPeersInBitmask (o : Orders P) (bitmasks : Bytes → Option (Finset P)) (peers : Finset P) (bitmask : Bytes) : List P :=
  narrow (fun peers peerset => peers.filter (· ∈ peerset))
    (fun k slice => (bitmasks slice).map fun tmap => (o.order k peers).filter (· ∈ tmap)) 0 (sliceBitmask bitmask) []

-- The early returns of nil are not shuffled, which makes no difference to them.
def getPeers (o : Orders P) (bitmasks : Bytes → Option (Finset P)) (mesh : P → Bool) (peerFilter : P → Bytes → Bool)
    (bitmask : Bytes) (count : Int) (filter : P → Bool) : List P :=
  let set := o.shufflePeers (narrow (fun set peers => peers.filter (· ∈ set))
    (fun k slice => (bitmasks slice).map fun tmap => (o.order k tmap).filter fun p => mesh p && filter p && peerFilter p slice)
    0 (sliceBitmask bitmask) [])
  if count > 0 ∧ set.length > count then set.take count.toNat else set

def InAll (chosen : Bytes → Option (Finset P)) (slices : List Bytes) (p : P) : Prop :=
  ∀ slice ∈ slices, ∃ s, chosen slice = some s ∧ p ∈ s

def fromFirstPeer (chosen : Bytes → Option (Finset P)) (slices : List Bytes) : List Bytes :=
  slices.dropWhile fun slice => chosen slice = some ∅

-- The first slice has a peer, or no slice has one, or no peer is in all slices from the first one with a peer on.
def FirstCounts (chosen : Bytes → Option (Finset P)) (slices : List Bytes) : Prop :=
  fromFirstPeer chosen slices = slices ∨ fromFirstPeer chosen slices = [] ∨ ∀ p, ¬ InAll chosen (fromFirstPeer chosen slices) p

structure Meets (meet : List P → List P → List P) : Prop where
  mem_iff : ∀ a b p, p ∈ meet a b ↔ p ∈ a ∧ p ∈ b
  nodup : ∀ a b, a.Nodup → b.Nodup → (meet a b).Nodup

structure Lists (listed : Nat → Bytes → Option (List P)) (chosen : Bytes → Option (Finset P)) : Prop where
  same : ∀ k slice, (listed k slice).map List.toFinset = chosen slice
  nodup : ∀ k slice peers, listed k slice = some peers → peers.Nodup

variable {meet : List P → List P → List P} {listed : Nat → Bytes → Option (List P)} {chosen : Bytes → Option (Finset P)}
  {k : Nat} {slices : List Bytes} {peers : List P} {p : P}

omit [DecidableEq P] in
theorem in_all_cons {slice : Bytes} {rest : List Bytes} :
    InAll chosen (slice :: rest) p ↔ (∃ s, chosen slice = some s ∧ p ∈ s) ∧ InAll chosen rest p := List.forall_mem_cons

theorem narrow_nodup (meets : Meets meet) (lists : Lists listed chosen) (distinct : peers.Nodup) :
    (narrow meet listed k slices peers).Nodup := by
  induction slices generalizing k peers with
  | nil => exact distinct
  | cons slice rest ih =>
      rw [narrow]
      split
      · exact List.nodup_nil
      · rename_i peerset isListed
        have listedOnce := lists.nodup k slice peerset isListed
        split
        · exact ih listedOnce
        · split
          · exact List.nodup_nil
          · exact ih (meets.nodup _ _ distinct listedOnce)

theorem narrow_started (meets : Meets meet) (lists : Lists listed chosen) (started : peers.length ≠ 0) :
    p ∈ narrow meet listed k slices peers ↔ p ∈ peers ∧ InAll chosen slices p := by
  induction slices generalizing k peers with
  | nil => simp [narrow, InAll]
  | cons slice rest ih =>
      have isChosen := lists.same k slice
      rw [narrow, in_all_cons, ← isChosen]
      cases listed k slice with
      | none => simp
      | some peerset =>
          have met := meets.mem_iff peers peerset p
          simp only [if_neg started, Option.map_some, Option.some.injEq, exists_eq_left', List.mem_toFinset]
          rw [← and_assoc, ← met]
          split
          · rename_i none
            rw [List.length_eq_zero_iff.mp none]
            simp
          · rename_i some
            exact ih some

theorem narrow_mem (meets : Meets meet) (lists : Lists listed chosen) :
    p ∈ narrow meet listed k slices [] ↔ fromFirstPeer chosen slices ≠ [] ∧ InAll chosen (fromFirstPeer chosen slices) p := by
  induction slices generalizing k with
  | nil => simp [narrow, fromFirstPeer]
  | cons slice rest ih =>
      have isChosen := lists.same k slice
      rw [narrow, fromFirstPeer, List.dropWhile_cons]
      cases isListed : listed k slice with
      | none =>
          rw [isListed] at isChosen
          have kept : chosen slice ≠ some ∅ := by simp [← isChosen]
          rw [if_neg (by simpa using kept), in_all_cons, ← isChosen]
          simp
      | some peerset =>
          rw [isListed] at isChosen
          by_cases empty : peerset = []
          · have passed : chosen slice = some ∅ := by rw [← isChosen, empty]; rfl
            rw [empty, if_pos (by simpa using passed)]
            exact ih
          · have kept : chosen slice ≠ some ∅ := by simp [← isChosen, empty]
            have started : peerset.length ≠ 0 := fun none => empty (List.length_eq_zero_iff.mp none)
            rw [if_neg (by simpa using kept), in_all_cons, ← isChosen]
            simp [narrow_started meets lists started]

-- With the first slice left out by the loop no peer is in all slices.
theorem narrow_exact_iff (meets : Meets meet) (lists : Lists listed chosen) (someSlice : slices ≠ []) :
    (∀ p, p ∈ narrow meet listed k slices [] ↔ InAll chosen slices p) ↔ FirstCounts chosen slices := by
  simp only [narrow_mem meets lists]
  cases slices with
  | nil => exact absurd rfl someSlice
  | cons slice rest =>
      by_cases passed : chosen slice = some ∅
      · have nobody : ∀ p, ¬ InAll chosen (slice :: rest) p := by
          intro p all
          obtain ⟨s, isSet, member⟩ := (in_all_cons.mp all).1
          rw [passed, Option.some.injEq] at isSet
          rw [← isSet] at member
          exact Finset.notMem_empty p member
        have shorter : fromFirstPeer chosen (slice :: rest) ≠ slice :: rest := by
          rw [fromFirstPeer, List.dropWhile_cons_of_pos (by simpa using passed)]
          intro same
          have lengths := congrArg List.length same
          have bound := (List.dropWhile_sublist (fun slice => decide (chosen slice = some ∅)) (l := rest)).length_le
          rw [List.length_cons] at lengths
          omega
        simp only [nobody, iff_false, not_and, FirstCounts, shorter, false_or]
        constructor
        · intro none
          by_cases all : fromFirstPeer chosen (slice :: rest) = []
          · exact Or.inl all
          · exact Or.inr fun p => none p all
        · rintro (none | none) p
          · exact fun some => absurd none some
          · exact fun _ => none p
      · have whole : fromFirstPeer chosen (slice :: rest) = slice :: rest := List.dropWhile_cons_of_neg (by simpa using passed)
        simp [FirstCounts, whole]

theorem slice_byte_some (length i : Nat) (b : UInt8) (nonzero : b ≠ 0) : sliceByte length i b ≠ [] := by
  have someBit := byte_forall (fun b => b == 0 || ([7, 6, 5, 4, 3, 2, 1, 0] : List UInt8).any fun j => (b >>> j) &&& 1 = 1) (by decide +kernel) b
  simp only [Bool.or_eq_true, beq_iff_eq, nonzero, false_or, List.any_eq_true] at someBit
  obtain ⟨j, isBit, isSet⟩ := someBit
  rw [sliceByte, if_neg nonzero]
  split
  · exact List.cons_ne_nil _ _
  · exact List.ne_nil_of_mem (List.mem_map_of_mem (List.mem_filter.mpr ⟨isBit, isSet⟩))

theorem slice_bitmask_some (bitmask : Bytes) : sliceBitmask bitmask ≠ [] := by
  rw [sliceBitmask]
  split
  · exact List.cons_ne_nil _ _
  · rename_i notZero
    intro none
    refine notZero (List.eq_replicate_iff.mpr ⟨rfl, fun b member => ?_⟩)
    by_contra nonzero
    obtain ⟨i, inside, isByte⟩ := List.getElem_of_mem member
    have entry : (b, i) ∈ bitmask.zipIdx := List.mem_zipIdx_iff_getElem?.mpr (by rw [List.getElem?_eq_getElem inside, isByte])
    exact slice_byte_some _ _ b nonzero (List.flatMap_eq_nil_iff.mp none _ entry)

theorem filter_meets : Meets fun a b : List P => a.filter (· ∈ b) where
  mem_iff a b p := by simp
  nodup _ _ distinct _ := distinct.filter _

theorem filter_meets_flipped : Meets fun a b : List P => b.filter (· ∈ a) where
  mem_iff a b p := by simp [and_comm]
  nodup _ _ _ distinct := distinct.filter _

def chosenFrom (bitmasks : Bytes → Option (Finset P)) (source : Finset P → Finset P) (test : Bytes → Finset P → P → Bool)
    (slice : Bytes) : Option (Finset P) := (bitmasks slice).map fun tmap => (source tmap).filter fun p => test slice tmap p = true

def connectedIn (bitmasks : Bytes → Option (Finset P)) (peers : Finset P) : Bytes → Option (Finset P) :=
  chosenFrom bitmasks (fun _ => peers) fun _ tmap p => decide (p ∈ tmap)

def passingIn (bitmasks : Bytes → Option (Finset P)) (test : P → Bytes → Bool) : Bytes → Option (Finset P) :=
  chosenFrom bitmasks id fun slice _ p => test p slice

variable {bitmasks : Bytes → Option (Finset P)} {source : Finset P → Finset P} {test : Bytes → Finset P → P → Bool}

theorem lists_chosen (o : Orders P) :
    Lists (fun k slice => (bitmasks slice).map fun tmap => (o.order k (source tmap)).filter (test slice tmap))
      (chosenFrom bitmasks source test) where
  same k slice := by
    rw [chosenFrom]
    cases bitmasks slice with
    | none => rfl
    | some tmap => simp [List.toFinset_filter, o.same]
  nodup k slice peers isListed := by
    obtain ⟨tmap, -, isFiltered⟩ := Option.map_eq_some_iff.mp isListed
    rw [← isFiltered]
    exact (o.nodup k _).filter _

omit [DecidableEq P] in
theorem in_all_chosen : InAll (chosenFrom bitmasks source test) slices p ↔
    ∀ slice ∈ slices, ∃ tmap, bitmasks slice = some tmap ∧ p ∈ source tmap ∧ test slice tmap p = true := by
  simp [InAll, chosenFrom]

theorem in_all_connected {peers : Finset P} (someSlice : slices ≠ []) : InAll (connectedIn bitmasks peers) slices p ↔
    p ∈ peers ∧ ∀ slice ∈ slices, ∃ tmap, bitmasks slice = some tmap ∧ p ∈ tmap := by
  rw [connectedIn, in_all_chosen]
  constructor
  · intro all
    refine ⟨?_, fun slice isSlice => ?_⟩
    · obtain ⟨slice, isSlice⟩ := List.exists_mem_of_ne_nil _ someSlice
      obtain ⟨tmap, -, isPeer, -⟩ := all slice isSlice
      exact isPeer
    · obtain ⟨tmap, isTable, -, member⟩ := all slice isSlice
      exact ⟨tmap, isTable, of_decide_eq_true member⟩
  · rintro ⟨isPeer, subscribed⟩ slice isSlice
    obtain ⟨tmap, isTable, member⟩ := subscribed slice isSlice
    exact ⟨tmap, isTable, isPeer, decide_eq_true member⟩

theorem peer_selection_iff (P : Type) [DecidableEq P] (o : Orders P) (bitmasks : Bytes → Option (Finset P)) (peers : Finset P)
    (mesh filter : P → Bool) (peerFilter : P → Bytes → Bool) (bitmask : Bytes) :
    ((getPeersInBitmask o bitmasks peers bitmask).Nodup ∧
        (∀ p, p ∈ getPeersInBitmask o bitmasks peers bitmask ↔
          p ∈ peers ∧ ∀ slice ∈ sliceBitmask bitmask, ∃ tmap, bitmasks slice = some tmap ∧ p ∈ tmap) ∧
        ∀ p, p ∈ getPeers o bitmasks mesh peerFilter bitmask 0 filter ↔ ∀ slice ∈ sliceBitmask bitmask, ∃ tmap,
          bitmasks slice = some tmap ∧ p ∈ tmap ∧ mesh p = true ∧ filter p = true ∧ peerFilter p slice = true) ↔
      FirstCounts (connectedIn bitmasks peers) (sliceBitmask bitmask) ∧
        FirstCounts (passingIn bitmasks fun p slice => mesh p && filter p && peerFilter p slice) (sliceBitmask bitmask) := by
  have someSlice := slice_bitmask_some bitmask
  have connected : Lists _ (connectedIn bitmasks peers) := lists_chosen o
  have passing : Lists _ (passingIn bitmasks fun p slice => mesh p && filter p && peerFilter p slice) := lists_chosen o
  have distinct : (getPeersInBitmask o bitmasks peers bitmask).Nodup := narrow_nodup filter_meets connected List.nodup_nil
  have found := narrow_exact_iff (k := 0) filter_meets connected someSlice
  have passed := narrow_exact_iff (k := 0) filter_meets_flipped passing someSlice
  simp only [in_all_connected someSlice] at found
  simp only [passingIn, in_all_chosen, id, Bool.and_eq_true, and_assoc] at passed
  rw [and_iff_right distinct, ← found, passingIn, ← passed]
  -- A count of zero leaves all peers in, and the shuffle keeps them.
  exact and_congr Iff.rfl (forall_congr' fun p => iff_congr (o.perm _).mem_iff Iff.rfl)

-- Two bits, of which only the lower one has a connected peer, and that one uses the mesh.
def pairOrders : Orders Bool where
  order _ s := [false, true].filter (· ∈ s)
  nodup _ s := List.Nodup.filter _ (by decide)
  same _ s := by ext p; cases p <;> simp
  shufflePeers := id
  perm := List.Perm.refl

def pairBitmasks (slice : Bytes) : Option (Finset Bool) :=
  if slice = [2] then some {false} else if slice = [1] then some {true} else none

theorem peers_of_one_bit_selected :
    sliceBitmask [3] = [[2], [1]] ∧ getPeersInBitmask pairOrders pairBitmasks {true} [3] = [true] ∧
      getPeers pairOrders pairBitmasks id (fun _ _ => true) [3] 0 (fun _ => true) = [true] ∧
      ∀ tmap, pairBitmasks [2] = some tmap → true ∉ tmap := by
  refine ⟨by decide, by decide, by decide, ?_⟩
  intro tmap isTable
  cases isTable
  decide

end Ceremony.BlossomSub
