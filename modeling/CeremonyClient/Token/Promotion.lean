import CeremonyClient.Token.Eviction
import CeremonyClient.Token.RingCapacity

set_option autoImplicit false

namespace Ceremony

open GoSem RollingFrecencyCritbitTrie

variable {seniority : PeerSeniority} {lower : RollingFrecencyCritbitTrie} {frameNumber : UInt64} {lowers : List RollingFrecencyCritbitTrie}
  {room size : Nat} {addresses : List Bytes}

def seniorityOf (seniority : PeerSeniority) (address : Bytes) : UInt64 := (seniority.item address).seniority

def FollowsSeniority (seniority : PeerSeniority) (rings after : List RollingFrecencyCritbitTrie) : Prop :=
  ∀ i lower upperAfter lowerAfter, rings[i + 1]? = some lower → after[i]? = some upperAfter → after[i + 1]? = some lowerAfter →
    ∀ moved ∈ lower.members, moved ∈ upperAfter.members → ∀ left ∈ lower.members, left ∈ lowerAfter.members →
      seniorityOf seniority left ≤ seniorityOf seniority moved

def Ranked (seniority : PeerSeniority) (rings : List RollingFrecencyCritbitTrie) : Prop :=
  ∀ address ∈ ringUnion rings, seniority.lookup address ≠ none

-- Pushing the seniorities of a ring into a heap in the order in which the ring lists them leaves the largest ones at the end.
def HeapSplits (seniority : PeerSeniority) (lower : RollingFrecencyCritbitTrie) (room : Nat) : Prop :=
  ∀ heap, pushAll PeerSeniorityItem.priority ((ringMembers lower).map fun n => seniority.item n.key) = .ok heap →
    ∀ left ∈ heap.all.take (lower.members.length - room), ∀ moved ∈ heap.all.drop (lower.members.length - room),
      left.seniority ≤ moved.seniority

-- The size is that of the ring above, after it has given members to the ring above itself.
def HeapsSplit (seniority : PeerSeniority) : Nat → List RollingFrecencyCritbitTrie → Prop
  | _, [] => True
  | size, lower :: rest => HeapSplits seniority lower (2048 - size) ∧ HeapsSplit seniority (lower.members.length - (2048 - size)) rest

-- There is no room at all, or at most one member of the next ring is left behind.
def SizesFit : Nat → List Nat → Prop
  | _, [] => True
  | size, lower :: rest => (2048 ≤ size ∨ lower ≤ 2048 - size + 1) ∧ SizesFit (lower - (2048 - size)) rest

def sizesAfter : Nat → List Nat → List Nat
  | size, [] => [size]
  | size, lower :: rest => (size + min (2048 - size) lower) :: sizesAfter (lower - (2048 - size)) rest

def ringSize (ring : RollingFrecencyCritbitTrie) : Nat := ring.members.length

theorem ranked_item {address : Bytes} (ranked : seniority.lookup address ≠ none) : (seniority.item address).addr = address := by
  rw [PeerSeniority.item]
  cases found : seniority.lookup address with
  | none => exact absurd found ranked
  | some value => rfl

theorem heap_addresses (formed : Formed lower) (ranked : ∀ address ∈ lower.members, seniority.lookup address ≠ none)
    {heap : MinHeap PeerSeniorityItem}
    (pushed : pushAll PeerSeniorityItem.priority ((ringMembers lower).map fun n => seniority.item n.key) = .ok heap) :
    (heap.all.map PeerSeniorityItem.addr).Perm lower.members ∧ ∀ item ∈ heap.all, item.seniority = seniorityOf seniority item.addr := by
  have keys := neighbor_keys lower formed (List.replicate 32 0)
  have order := all_perm pushed
  have named (n : Value) (visited : n ∈ ringMembers lower) : (seniority.item n.key).addr = n.key :=
    ranked_item (ranked n.key (keys.mem_iff.mp (List.mem_map.mpr ⟨n, visited, rfl⟩)))
  constructor
  · refine (order.map _).trans ?_
    have same : (ringMembers lower).map (PeerSeniorityItem.addr ∘ fun n => seniority.item n.key) = (ringMembers lower).map Value.key :=
      List.map_congr_left named
    rw [List.map_map, same]
    exact keys
  · intro item member
    obtain ⟨n, visited, same⟩ := List.mem_map.mp (order.mem_iff.mp member)
    rw [← same, named n visited]
    rfl

theorem follows_cons (seniority : PeerSeniority) {upperAfter lowerAfter : RollingFrecencyCritbitTrie}
    (upper lower other : RollingFrecencyCritbitTrie) {rest tail : List RollingFrecencyCritbitTrie} :
    FollowsSeniority seniority (upper :: lower :: rest) (upperAfter :: lowerAfter :: tail) ↔
      (∀ moved ∈ lower.members, moved ∈ upperAfter.members → ∀ left ∈ lower.members, left ∈ lowerAfter.members →
        seniorityOf seniority left ≤ seniorityOf seniority moved) ∧
      FollowsSeniority seniority (other :: rest) (lowerAfter :: tail) := by
  constructor
  · intro follows
    refine ⟨follows 0 lower upperAfter lowerAfter rfl rfl rfl, ?_⟩
    intro i below first second isBelow isFirst isSecond
    exact follows (i + 1) below first second isBelow isFirst isSecond
  · intro both i below first second isBelow isFirst isSecond
    cases i with
    | zero =>
        cases isBelow
        cases isFirst
        cases isSecond
        exact both.1
    | succ i => exact both.2 i below first second isBelow isFirst isSecond

structure PassDone (seniority : PeerSeniority) (frameNumber : UInt64) (upper lower : RollingFrecencyCritbitTrie)
    (moved : List PeerSeniorityItem) : Prop where
  ran : promoted seniority upper lower = .ok moved
  count : moved.length = min (2048 - upper.members.length) lower.members.length
  stored : ∀ item ∈ moved, item.addr ∈ lower.members
  distinct : (moved.map PeerSeniorityItem.addr).Nodup
  splits : (∀ high ∈ moved.map PeerSeniorityItem.addr, ∀ low ∈ lower.members, low ∉ moved.map PeerSeniorityItem.addr →
      seniorityOf seniority low ≤ seniorityOf seniority high) ↔ HeapSplits seniority lower (2048 - upper.members.length)

theorem pass_done (seniority : PeerSeniority) (frameNumber : UInt64) (upper lower : RollingFrecencyCritbitTrie) (formed : Formed lower)
    (ranked : ∀ address ∈ lower.members, seniority.lookup address ≠ none) :
    ∃ moved, PassDone seniority frameNumber upper lower moved := by
  obtain ⟨heap, pushed⟩ := push_all_total PeerSeniorityItem.priority (fun item => ⟨item.seniority, rfl⟩)
    ((ringMembers lower).map fun n => seniority.item n.key)
  obtain ⟨addresses, seniorities⟩ := heap_addresses formed ranked pushed
  have size : heap.all.length = lower.members.length := by
    rw [← addresses.length_eq, List.length_map]
  have whole := addresses.nodup_iff.mpr (members_nodup lower formed)
  generalize isKept : lower.members.length - (2048 - upper.members.length) = kept
  have isMoved : heap.all.reverse.take (2048 - upper.members.length) = (heap.all.drop kept).reverse := by
    rw [List.take_reverse, size, isKept]
  rw [← List.take_append_drop kept heap.all, List.map_append, List.nodup_append] at whole
  have inMoved (address : Bytes) : address ∈ (heap.all.drop kept).reverse.map PeerSeniorityItem.addr ↔
      address ∈ (heap.all.drop kept).map PeerSeniorityItem.addr := by
    rw [List.map_reverse, List.mem_reverse]
  refine ⟨(heap.all.drop kept).reverse, ?_, ?_, ?_, ?_, ?_⟩
  · rw [promoted, pushed, ok_bind, ring_members_length, ← isMoved]
    rfl
  · rw [List.length_reverse, List.length_drop]
    omega
  · intro item member
    exact addresses.mem_iff.mp (List.mem_map_of_mem (List.mem_of_mem_drop (List.mem_reverse.mp member)))
  · rw [List.map_reverse, List.nodup_reverse]
    exact whole.2.1
  · simp only [inMoved]
    constructor
    · intro follows heap' pushed' left isLeft moved isMoved'
      cases pushed.symm.trans pushed'
      rw [isKept] at isLeft isMoved'
      rw [seniorities left (List.mem_of_mem_take isLeft), seniorities moved (List.mem_of_mem_drop isMoved')]
      refine follows moved.addr (List.mem_map_of_mem isMoved') left.addr ?_ ?_
      · exact addresses.mem_iff.mp (List.mem_map_of_mem (List.mem_of_mem_take isLeft))
      · intro also
        exact whole.2.2 left.addr (List.mem_map_of_mem isLeft) left.addr also rfl
    · intro splits high isHigh low isLow notMoved
      obtain ⟨moved, member, sameHigh⟩ := List.mem_map.mp isHigh
      obtain ⟨left, inHeap, sameLow⟩ := List.mem_map.mp (addresses.mem_iff.mpr isLow)
      rw [← List.take_append_drop kept heap.all, List.mem_append] at inHeap
      have isLeft := inHeap.resolve_right fun also => notMoved (List.mem_map.mpr ⟨left, also, sameLow⟩)
      rw [← sameHigh, ← sameLow, ← seniorities left (List.mem_of_mem_take isLeft), ← seniorities moved (List.mem_of_mem_drop member)]
      apply splits heap pushed left _ moved _
      · rw [isKept]
        exact isLeft
      · rw [isKept]
        exact member

theorem pass_sizes (frameNumber : UInt64) (upper lower : RollingFrecencyCritbitTrie) (moved : List PeerSeniorityItem)
    (upperFormed : Formed upper) (lowerFormed : Formed lower) (apart : ∀ address ∈ upper.members, address ∉ lower.members)
    (stored : ∀ item ∈ moved, item.addr ∈ lower.members) (distinct : (moved.map PeerSeniorityItem.addr).Nodup) :
    ringSize (moved.foldl (moveUp frameNumber) (upper, lower)).1 = ringSize upper + moved.length ∧
      ringSize (moved.foldl (moveUp frameNumber) (upper, lower)).2 = ringSize lower - moved.length := by
  have whole : (upper.members ++ lower.members).Nodup := List.nodup_append.mpr
    ⟨members_nodup upper upperFormed, members_nodup lower lowerFormed, fun first isFirst second isSecond same =>
      apart first isFirst (same ▸ isSecond)⟩
  obtain ⟨-, -, together⟩ := move_up_members frameNumber moved upper lower upperFormed lowerFormed whole distinct stored
  obtain ⟨afterFormed, left⟩ := move_up_lower frameNumber moved upper lower lowerFormed
  have split : (moved.map PeerSeniorityItem.addr ++ (moved.foldl (moveUp frameNumber) (upper, lower)).2.members).Perm lower.members := by
    refine (List.perm_ext_iff_of_nodup ?_ (members_nodup lower lowerFormed)).mpr fun address => ?_
    · refine List.nodup_append.mpr ⟨distinct, members_nodup _ afterFormed, fun first isFirst second isSecond same => ?_⟩
      exact ((left second).mp isSecond).2 (same ▸ isFirst)
    · rw [List.mem_append, left]
      by_cases isMoved : address ∈ moved.map PeerSeniorityItem.addr
      · obtain ⟨item, member, same⟩ := List.mem_map.mp isMoved
        exact iff_of_true (.inl isMoved) (same ▸ stored item member)
      · simp [isMoved]
  have total := together.length_eq
  have parts := split.length_eq
  rw [List.length_append, List.length_append] at total
  rw [List.length_append, List.length_map] at parts
  rw [ringSize, ringSize, ringSize, ringSize]
  omega

theorem promote_into_first {upper : RollingFrecencyCritbitTrie} {after : List RollingFrecencyCritbitTrie}
    (formed : ∀ ring ∈ lowers, Formed ring) (done : promoteInto seniority frameNumber upper lowers = .ok after) :
    ∃ first tail, after = first :: tail ∧ ∀ address, address ≠ [] → address ∉ ringUnion lowers →
      (address ∈ first.members ↔ address ∈ upper.members) := by
  cases lowers with
  | nil =>
      cases done
      exact ⟨upper, [], rfl, fun _ _ _ => Iff.rfl⟩
  | cons lower rest =>
      obtain ⟨moved, order, ran, -, -⟩ := promoted_total seniority upper lower
      obtain ⟨rings, finished⟩ := promote_into_total seniority frameNumber (moved.foldl (moveUp frameNumber) (upper, lower)).2 rest
      cases (promote_into_step seniority frameNumber upper lower rest rings moved ran finished).symm.trans done
      refine ⟨_, rings, rfl, fun address wide outside => ?_⟩
      rw [mem_ring_union_cons, not_or] at outside
      rw [move_up_upper]
      refine or_iff_left fun isMoved => ?_
      obtain ⟨item, member, same⟩ := List.mem_map.mp isMoved
      rw [← same] at wide outside
      exact outside.1 ((promoted_origin (formed lower List.mem_cons_self) ran member).resolve_left wide)

theorem promote_into_follows (seniority : PeerSeniority) (frameNumber : UInt64) (upper : RollingFrecencyCritbitTrie)
    (lowers : List RollingFrecencyCritbitTrie) (formed : RingsFormed (upper :: lowers)) (ranked : Ranked seniority lowers) :
    ∃ after, promoteInto seniority frameNumber upper lowers = .ok after ∧
      after.map ringSize = sizesAfter (ringSize upper) (lowers.map ringSize) ∧
      (FollowsSeniority seniority (upper :: lowers) after ↔ HeapsSplit seniority (ringSize upper) lowers) := by
  induction lowers generalizing upper with
  | nil =>
      refine ⟨[upper], rfl, rfl, iff_of_true ?_ trivial⟩
      intro i lower first second isLower
      cases isLower
  | cons lower rest ih =>
      obtain ⟨upperFormed, lowersFormed, upperApart⟩ := (rings_formed_cons _ _).mp formed
      obtain ⟨lowerFormed, restFormed, lowerApart⟩ := (rings_formed_cons _ _).mp lowersFormed
      have apart (address : Bytes) (here : address ∈ upper.members) : address ∉ lower.members := fun there =>
        upperApart address here ((mem_ring_union_cons _ _ _).mpr (.inl there))
      have lowerRanked (address : Bytes) (member : address ∈ lower.members) : seniority.lookup address ≠ none :=
        ranked address ((mem_ring_union_cons _ _ _).mpr (.inl member))
      obtain ⟨moved, pass⟩ := pass_done seniority frameNumber upper lower lowerFormed lowerRanked
      obtain ⟨nextFormed, nextMembers⟩ := move_up_lower frameNumber moved upper lower lowerFormed
      obtain ⟨upperSize, lowerSize⟩ := pass_sizes frameNumber upper lower moved upperFormed lowerFormed apart pass.stored pass.distinct
      have count : moved.length = min (2048 - ringSize upper) (ringSize lower) := pass.count
      have rings : RingsFormed ((moved.foldl (moveUp frameNumber) (upper, lower)).2 :: rest) :=
        (rings_formed_cons _ _).mpr ⟨nextFormed, restFormed, fun address here => lowerApart address ((nextMembers address).mp here).1⟩
      obtain ⟨after, finished, sizes, follows⟩ := ih _ rings fun address member =>
        ranked address ((mem_ring_union_cons _ _ _).mpr (.inr member))
      have left : ringSize (moved.foldl (moveUp frameNumber) (upper, lower)).2 = ringSize lower - (2048 - ringSize upper) := by omega
      rw [left] at sizes follows
      refine ⟨_, promote_into_step seniority frameNumber upper lower rest after moved pass.ran finished, ?_, ?_⟩
      · rw [List.map_cons, List.map_cons, sizesAfter, sizes, upperSize, count]
      · obtain ⟨first, tail, shape, kept⟩ := promote_into_first restFormed.formed finished
        rw [shape] at follows ⊢
        rw [follows_cons seniority upper lower (moved.foldl (moveUp frameNumber) (upper, lower)).2, follows, HeapsSplit]
        refine and_congr_left fun _ => Iff.trans ?_ pass.splits
        have isMoved (address : Bytes) (member : address ∈ lower.members) :
            address ∈ (moved.foldl (moveUp frameNumber) (upper, lower)).1.members ↔ address ∈ moved.map PeerSeniorityItem.addr := by
          rw [move_up_upper]
          exact or_iff_right fun here => apart address here member
        have isLeft (address : Bytes) (member : address ∈ lower.members) :
            address ∈ first.members ↔ address ∉ moved.map PeerSeniorityItem.addr := by
          have wide : address ≠ [] := by
            intro empty
            have length := member_length lowerFormed member
            rw [empty] at length
            cases length
          rw [kept address wide (lowerApart address member), nextMembers]
          exact and_iff_right member
        constructor
        · intro sorted high isHigh low isLow notMoved
          obtain ⟨item, member, same⟩ := List.mem_map.mp isHigh
          have stored : high ∈ lower.members := same ▸ pass.stored item member
          exact sorted high stored ((isMoved high stored).mpr isHigh) low isLow ((isLeft low isLow).mpr notMoved)
        · intro sorted high stored isHigh low isLow stays
          exact sorted high ((isMoved high stored).mp isHigh) low isLow ((isLeft low isLow).mp stays)

theorem heap_splits_fit (fits : room = 0 ∨ lower.members.length ≤ room + 1) : HeapSplits seniority lower room := by
  intro heap pushed left isLeft moved isMoved
  have size : heap.all.length = lower.members.length := by
    rw [(all_perm pushed).length_eq, List.length_map, ring_members_length]
  rcases fits with none | few
  · rw [none, Nat.sub_zero, ← size, List.drop_length] at isMoved
    cases isMoved
  · obtain ⟨i, bound, isItem⟩ := List.mem_iff_getElem.mp isLeft
    have top : i = 0 := by
      rw [List.length_take] at bound
      omega
    rw [List.getElem_take] at isItem
    obtain ⟨j, isOther⟩ := List.mem_iff_getElem?.mp (List.mem_of_mem_drop isMoved)
    refine push_all_root pushed isOther ?_
    rw [← isItem, ← top]
    exact List.getElem?_eq_getElem _

theorem sizes_fit_split (fits : SizesFit size (lowers.map ringSize)) : HeapsSplit seniority size lowers := by
  induction lowers generalizing size with
  | nil => exact trivial
  | cons lower rest ih =>
      obtain ⟨here, later⟩ := fits
      refine ⟨heap_splits_fit ?_, ih later⟩
      rcases here with full | few
      · exact .inl (Nat.sub_eq_zero_of_le full)
      · exact .inr few

def branch (i : Nat) : Nat := if i ≤ 2 then i else branch ((i - 1) / 2)
termination_by i
decreasing_by omega

theorem branch_small (i : Nat) (small : i ≤ 2) : branch i = i := by
  rw [branch, if_pos small]

theorem branch_above {i : Nat} (deep : 2 < i) : branch i = branch ((i - 1) / 2) := by
  rw [branch, if_neg (by omega)]

theorem branch_range (i : Nat) (positive : 0 < i) : branch i = 1 ∨ branch i = 2 := by
  induction i using Nat.strongRecOn with
  | ind i ih =>
      by_cases small : i ≤ 2
      · rw [branch_small i small]
        omega
      · rw [branch_above (by omega)]
        exact ih _ (by omega) (by omega)

-- A heap with small items on one side of the root and large ones on the other.
def lopsided (target i : Nat) : UInt64 := if i = 0 then 0 else if branch i = branch target then 1 else 2

theorem lopsided_ordered (target : Nat) (items : List PeerSeniorityItem)
    (values : ∀ i item, items[i]? = some item → item.seniority = lopsided target i) : HeapOrdered PeerSeniorityItem.seniority items := by
  intro i item above positive here up
  rw [values i item here, values _ above up]
  by_cases top : (i - 1) / 2 = 0
  · rw [top, show lopsided target 0 = 0 from rfl]
    exact UInt64.zero_le
  · have same : lopsided target i = lopsided target ((i - 1) / 2) := by
      rw [lopsided, lopsided, if_neg (show i ≠ 0 by omega), if_neg top, branch_above (by omega)]
    rw [same]
    exact UInt64.le_refl _

theorem lopsided_fails (some : 0 < room) (many : room + 1 < lower.members.length)
    (values : ∀ (i : Nat) (n : Value), (ringMembers lower)[i]? = .some n →
      (seniority.item n.key).seniority = lopsided (lower.members.length - room) i) : ¬ HeapSplits seniority lower room := by
  intro splits
  generalize isItems : ((ringMembers lower).map fun n => seniority.item n.key) = items at splits
  have size : items.length = lower.members.length := by
    rw [← isItems, List.length_map, ring_members_length]
  have itemValues (i : Nat) (item : PeerSeniorityItem) (here : items[i]? = .some item) :
      item.seniority = lopsided (lower.members.length - room) i := by
    rw [← isItems, List.getElem?_map, Option.map_eq_some_iff] at here
    obtain ⟨n, isNode, same⟩ := here
    rw [← same]
    exact values i n isNode
  have pushed := push_all_ordered PeerSeniorityItem.seniority items (lopsided_ordered _ items itemValues)
  generalize isCount : lower.members.length - room = count at splits itemValues
  have range := branch_range count (by omega)
  have low : 3 - branch count < count := by
    by_cases two : count = 2
    · rw [two, branch_small 2 (by omega)]
      omega
    · omega
  have left : items[3 - branch count]? = .some items[3 - branch count] := List.getElem?_eq_getElem _
  have moved : items[count]? = .some items[count] := List.getElem?_eq_getElem _
  have wrong := splits ⟨items⟩ (by rw [isItems]; exact pushed) items[3 - branch count] ?_ items[count] ?_
  · have high : lopsided count (3 - branch count) = 2 := by
      rw [lopsided, if_neg (by omega), branch_small (3 - branch count) (by omega), if_neg (by omega)]
    have small : lopsided count count = 1 := by
      rw [lopsided, if_neg (by omega), if_pos rfl]
    rw [itemValues _ _ left, itemValues _ _ moved, high, small] at wrong
    revert wrong
    decide
  · rw [isCount]
    exact List.mem_iff_getElem?.mpr ⟨3 - branch count, by rw [MinHeap.all, List.getElem?_take_of_lt low, left]⟩
  · rw [isCount]
    exact List.mem_iff_getElem?.mpr ⟨0, by rw [MinHeap.all, List.getElem?_drop, Nat.add_zero, moved]⟩

def rank (value : Bytes → UInt64) (addresses : List Bytes) : PeerSeniority :=
  (addresses.map fun address => (⟨address, value address⟩ : Sigma fun _ : Bytes => UInt64)).toAList

theorem rank_lookup (value : Bytes → UInt64) (addresses : List Bytes) (address : Bytes) (member : address ∈ addresses) :
    (rank value addresses).lookup address = some (value address) := by
  rw [rank, AList.lookup_to_alist]
  induction addresses with
  | nil => cases member
  | cons first rest ih =>
      rw [List.map_cons]
      by_cases same : first = address
      · rw [same, List.dlookup_cons_eq]
      · rw [List.dlookup_cons_ne _ _ (Ne.symm same)]
        exact ih ((List.mem_cons.mp member).resolve_left (Ne.symm same))

theorem sizes_unfit_fail (formed : ∀ ring ∈ lowers, Formed ring) (unfit : ¬ SizesFit size (lowers.map ringSize)) :
    ∃ value : Bytes → UInt64, ∀ seniority : PeerSeniority,
      (∀ address ∈ ringUnion lowers, seniority.lookup address = some (value address)) → ¬ HeapsSplit seniority size lowers := by
  induction lowers generalizing size with
  | nil => exact absurd trivial unfit
  | cons lower rest ih =>
      obtain ⟨lowerFormed, restFormed⟩ := List.forall_mem_cons.mp formed
      by_cases here : 2048 ≤ size ∨ ringSize lower ≤ 2048 - size + 1
      · obtain ⟨value, fails⟩ := ih restFormed fun later => unfit ⟨here, later⟩
        refine ⟨value, fun seniority ranked split => ?_⟩
        exact fails seniority (fun address member => ranked address ((mem_ring_union_cons _ _ _).mpr (.inr member))) split.2
      · obtain ⟨notFull, many⟩ := not_or.mp here
        have keys := neighbor_keys lower lowerFormed (List.replicate 32 0)
        have distinct : ((ringMembers lower).map Value.key).Nodup := keys.nodup_iff.mpr (members_nodup lower lowerFormed)
        refine ⟨fun address => lopsided (lower.members.length - (2048 - size)) (((ringMembers lower).map Value.key).idxOf address),
          fun seniority ranked split => ?_⟩
        refine lopsided_fails (by omega) (by rw [ringSize] at many; omega) ?_ split.1
        intro i n isNode
        obtain ⟨inside, isItem⟩ := List.getElem?_eq_some_iff.mp isNode
        have stored : n.key ∈ lower.members := keys.mem_iff.mp (List.mem_map_of_mem (List.mem_of_getElem? isNode))
        have position : ((ringMembers lower).map Value.key).idxOf n.key = i := by
          rw [← isItem, ← List.getElem_map Value.key (h := by rw [List.length_map]; exact inside)]
          exact distinct.idxOf_getElem i _
        rw [PeerSeniority.item, ranked n.key ((mem_ring_union_cons _ _ _).mpr (.inl stored))]
        simp only [position]

theorem evict_none {rings : List RollingFrecencyCritbitTrie} (formed : ∀ ring ∈ rings, Formed ring)
    (active : frameNumber > PROOF_FRAME_RING_RESET → ∀ entry ∈ ringEntries rings, inactive frameNumber entry.2 = false)
    {beacons : RollingFrecencyCritbitTrie} : evictRings frameNumber (beacons :: rings) = beacons :: rings := by
  by_cases late : frameNumber > PROOF_FRAME_RING_RESET
  · rw [evictRings, if_pos late]
    refine congrArg (beacons :: ·) ?_
    refine (List.map_congr_left fun ring member => ?_).trans (List.map_id _)
    have idle (n : Value) (visited : n ∈ ringMembers ring) : inactive frameNumber n = false := by
      refine active late (n.key, n) (List.mem_flatMap.mpr ⟨ring, member, ?_⟩)
      exact (mem_neighbors (formed ring member)).mp visited
    rw [evictInactive]
    generalize ringMembers ring = nodes at idle
    induction nodes with
    | nil => rfl
    | cons n tail ih =>
        rw [List.foldl_cons, idle n List.mem_cons_self]
        exact ih fun other inTail => idle other (List.mem_cons_of_mem _ inTail)
  · rw [evictRings, if_neg late]

theorem promotion_run (beacons upper : RollingFrecencyCritbitTrie) (lowers after : List RollingFrecencyCritbitTrie) (frameNumber : UInt64)
    (formed : ∀ ring ∈ upper :: lowers, Formed ring)
    (active : frameNumber > PROOF_FRAME_RING_RESET → ∀ entry ∈ ringEntries (upper :: lowers), inactive frameNumber entry.2 = false)
    (seniority : PeerSeniority) (done : promoteInto seniority frameNumber upper lowers = .ok after) :
    processJoinsAndLeaves [] [] (beacons :: upper :: lowers) seniority frameNumber = .ok (beacons :: after) := by
  have staged : joinsLeavesAndEvictions [] [] (beacons :: upper :: lowers) frameNumber =
      .ok (evictRings frameNumber (beacons :: upper :: lowers)) := rfl
  rw [evict_none formed active] at staged
  rw [processJoinsAndLeaves, staged, ok_bind]
  simp only [done, ok_bind]
  rfl

theorem promotion_by_seniority_iff (beacons upper : RollingFrecencyCritbitTrie) (lowers : List RollingFrecencyCritbitTrie)
    (frameNumber : UInt64) (formed : ∀ ring ∈ upper :: lowers, Formed ring) (disjoint : PairwiseDisjoint (upper :: lowers))
    (active : frameNumber > PROOF_FRAME_RING_RESET → ∀ entry ∈ ringEntries (upper :: lowers), inactive frameNumber entry.2 = false) :
    (∀ seniority, Ranked seniority lowers →
      ∃ after, processJoinsAndLeaves [] [] (beacons :: upper :: lowers) seniority frameNumber = .ok (beacons :: after) ∧
        after.map ringSize = sizesAfter (ringSize upper) (lowers.map ringSize) ∧
        (FollowsSeniority seniority (upper :: lowers) after ↔ HeapsSplit seniority (ringSize upper) lowers)) ∧
    ((∀ seniority after, Ranked seniority lowers →
        processJoinsAndLeaves [] [] (beacons :: upper :: lowers) seniority frameNumber = .ok (beacons :: after) →
        FollowsSeniority seniority (upper :: lowers) after) ↔
      SizesFit (ringSize upper) (lowers.map ringSize)) := by
  have rings : RingsFormed (upper :: lowers) := ⟨formed, (distinct_iff_disjoint formed).mpr disjoint⟩
  have run (seniority : PeerSeniority) (ranked : Ranked seniority lowers) :
      ∃ after, processJoinsAndLeaves [] [] (beacons :: upper :: lowers) seniority frameNumber = .ok (beacons :: after) ∧
        after.map ringSize = sizesAfter (ringSize upper) (lowers.map ringSize) ∧
        (FollowsSeniority seniority (upper :: lowers) after ↔ HeapsSplit seniority (ringSize upper) lowers) := by
    obtain ⟨after, done, sizes, follows⟩ := promote_into_follows seniority frameNumber upper lowers rings ranked
    exact ⟨after, promotion_run beacons upper lowers after frameNumber formed active seniority done, sizes, follows⟩
  refine ⟨run, ?_, ?_⟩
  · intro always
    by_contra unfit
    obtain ⟨value, fails⟩ := sizes_unfit_fail (fun ring member => formed ring (List.mem_cons_of_mem _ member)) unfit
    have values (address : Bytes) (member : address ∈ ringUnion lowers) := rank_lookup value (ringUnion lowers) address member
    have ranked : Ranked (rank value (ringUnion lowers)) lowers := by
      intro address member
      rw [values address member]
      exact Option.some_ne_none _
    obtain ⟨after, done, -, follows⟩ := run _ ranked
    exact fails _ values (follows.mp (always _ after ranked done))
  · intro fits seniority after ranked done
    obtain ⟨other, ran, -, follows⟩ := run seniority ranked
    cases ran.symm.trans done
    exact follows.mpr (sizes_fit_split fits)

theorem promotion_by_seniority_sample :
    (∀ seniority, Ranked seniority [zero] →
      ∃ after, processJoinsAndLeaves [] [] (zero :: sampleRings) seniority 200 = .ok (zero :: after) ∧
        after.map ringSize = sizesAfter 1 [0] ∧ (FollowsSeniority seniority sampleRings after ↔ HeapsSplit seniority 1 [zero])) ∧
    ((∀ seniority after, Ranked seniority [zero] → processJoinsAndLeaves [] [] (zero :: sampleRings) seniority 200 = .ok (zero :: after) →
        FollowsSeniority seniority sampleRings after) ↔ SizesFit 1 [0]) :=
  promotion_by_seniority_iff zero (zero.add sampleMember 200) [zero] 200 sample_rings_formed sample_rings_disjoint (fun _ => by decide)

def joinedRing (addresses : List Bytes) : RollingFrecencyCritbitTrie := addresses.foldl (fun t address => t.add address 200) zero

theorem joined_ring_entries (wide : ∀ address ∈ addresses, address.length = 32) (distinct : addresses.Nodup) :
    Formed (joinedRing addresses) ∧ (joinedRing addresses).trie.entries.Perm (addresses.map (joinedEntry 200)) := by
  induction addresses using List.reverseRecOn with
  | nil => exact ⟨zero_formed, List.Perm.refl _⟩
  | append_singleton front address ih =>
      rw [List.nodup_append] at distinct
      obtain ⟨formed, entries⟩ := ih (fun other member => wide other (List.mem_append_left _ member)) distinct.1
      have members : (joinedRing front).members.Perm front := by
        have keys := entries.map Prod.fst
        rw [List.map_map, show Prod.fst ∘ joinedEntry 200 = id from rfl, List.map_id] at keys
        exact keys
      have absent : address ∉ (joinedRing front).members := fun member =>
        distinct.2.2 address (members.mem_iff.mp member) address (List.mem_singleton_self _) rfl
      obtain ⟨added, addedFormed⟩ := add_absent (joinedRing front) formed address 200 (wide address (by simp)) absent
      have grown : joinedRing (front ++ [address]) = (joinedRing front).add address 200 := by
        rw [joinedRing, List.foldl_append]
        rfl
      rw [grown]
      refine ⟨addedFormed, added.trans ?_⟩
      rw [List.map_append, List.map_singleton]
      exact (List.Perm.cons _ entries).trans (List.perm_append_singleton _ _).symm

theorem joined_ring_members (wide : ∀ address ∈ addresses, address.length = 32) (distinct : addresses.Nodup) :
    (joinedRing addresses).members.Perm addresses := by
  have keys := (joined_ring_entries wide distinct).2.map Prod.fst
  rw [List.map_map, show Prod.fst ∘ joinedEntry 200 = id from rfl, List.map_id] at keys
  exact keys

def numbered (i : Nat) : Bytes := List.replicate 30 0 ++ [UInt8.ofNat (i / 256), UInt8.ofNat (i % 256)]

theorem numbered_injective (i j : Nat) (left : i < 65536) (right : j < 65536) (same : numbered i = numbered j) : i = j := by
  have bytes := List.append_cancel_left same
  have high : UInt8.ofNat (i / 256) = UInt8.ofNat (j / 256) := (List.cons.inj bytes).1
  have low : UInt8.ofNat (i % 256) = UInt8.ofNat (j % 256) := (List.cons.inj (List.cons.inj bytes).2).1
  have highNat := congrArg UInt8.toNat high
  have lowNat := congrArg UInt8.toNat low
  simp only [UInt8.toNat_ofNat'] at highNat lowNat
  omega

theorem numbered_ring (numbers : List Nat) (small : ∀ i ∈ numbers, i < 65536) (distinct : numbers.Nodup) :
    Formed (joinedRing (numbers.map numbered)) ∧ (joinedRing (numbers.map numbered)).members.Perm (numbers.map numbered) ∧
      ∀ entry ∈ (joinedRing (numbers.map numbered)).trie.entries, entry.2.latestFrame = 200 := by
  have wide : ∀ address ∈ numbers.map numbered, address.length = 32 := by
    intro address member
    obtain ⟨i, -, same⟩ := List.mem_map.mp member
    rw [← same]
    rfl
  have apart : (numbers.map numbered).Nodup := distinct.map_on fun i isFirst j isSecond same =>
    numbered_injective i j (small i isFirst) (small j isSecond) same
  obtain ⟨formed, entries⟩ := joined_ring_entries wide apart
  refine ⟨formed, joined_ring_members wide apart, fun entry member => ?_⟩
  obtain ⟨address, -, same⟩ := List.mem_map.mp (entries.mem_iff.mp member)
  rw [← same]
  rfl

-- A ring with one free place, three members below it, and their seniorities in the order in which the ring lists them.
def crowdedRing : RollingFrecencyCritbitTrie := joinedRing ((List.range 2047).map numbered)

def threeRing : RollingFrecencyCritbitTrie := joinedRing ([3001, 3002, 3003].map numbered)

def threeSeniorities : PeerSeniority :=
  ((AList.singleton (numbered 3001) 1).insert (numbered 3002) 3).insert (numbered 3003) 2

theorem promotion_skips_most_senior :
    ringSize crowdedRing = 2047 ∧ ringSize threeRing = 3 ∧ Ranked threeSeniorities [threeRing] ∧
      ∃ after, processJoinsAndLeaves [] [] [zero, crowdedRing, threeRing] threeSeniorities 200 = .ok (zero :: after) ∧
        ¬ FollowsSeniority threeSeniorities [crowdedRing, threeRing] after := by
  obtain ⟨crowdedFormed, crowdedMembers, crowdedFrames⟩ := numbered_ring (List.range 2047)
    (fun i member => by have := List.mem_range.mp member; omega) List.nodup_range
  obtain ⟨threeFormed, threeMembers, threeFrames⟩ := numbered_ring [3001, 3002, 3003] (by decide) (by decide)
  have size : ringSize crowdedRing = 2047 := by
    rw [ringSize, crowdedRing, crowdedMembers.length_eq, List.length_map, List.length_range]
  have ranked : Ranked threeSeniorities [threeRing] := by
    intro address member
    rw [mem_ring_union_cons, threeRing, threeMembers.mem_iff] at member
    rcases member with here | none
    · fin_cases here <;> decide
    · cases none
  have rings : RingsFormed [crowdedRing, threeRing] := by
    refine (rings_formed_cons _ _).mpr ⟨crowdedFormed, (rings_formed_cons _ _).mpr ⟨threeFormed, ⟨by simp, List.nodup_nil⟩, ?_⟩, ?_⟩
    · intro address _ none
      cases none
    · intro address here there
      rw [mem_ring_union_cons, threeRing, threeMembers.mem_iff] at there
      obtain ⟨i, isCrowded, same⟩ := List.mem_map.mp (crowdedMembers.mem_iff.mp here)
      rcases there with there | none
      · obtain ⟨j, isThree, sameToo⟩ := List.mem_map.mp there
        have bound := List.mem_range.mp isCrowded
        have large : 3000 < j ∧ j < 3004 := by
          fin_cases isThree <;> decide
        have equal := numbered_injective i j (by omega) (by omega) (same.trans sameToo.symm)
        omega
      · cases none
  have active : ∀ entry ∈ ringEntries [crowdedRing, threeRing], inactive 200 entry.2 = false := by
    intro entry member
    have frame : entry.2.latestFrame = 200 := by
      obtain ⟨ring, inside, stored⟩ := List.mem_flatMap.mp member
      rcases List.mem_cons.mp inside with first | second
      · rw [first] at stored
        exact crowdedFrames entry stored
      · rw [List.mem_singleton.mp second] at stored
        exact threeFrames entry stored
    rw [inactive, frame]
    decide
  obtain ⟨after, done, -, follows⟩ := promote_into_follows threeSeniorities 200 crowdedRing [threeRing] rings ranked
  refine ⟨size, by decide +kernel, ranked, after, promotion_run zero crowdedRing [threeRing] after 200 rings.formed (fun _ => active) threeSeniorities done,
    fun right => ?_⟩
  have splits := (follows.mp right).1
  rw [size] at splits
  have listed : ((ringMembers threeRing).map fun n => threeSeniorities.item n.key) =
      [⟨1, numbered 3001⟩, ⟨3, numbered 3002⟩, ⟨2, numbered 3003⟩] := by
    decide +kernel
  have pushed : pushAll PeerSeniorityItem.priority ((ringMembers threeRing).map fun n => threeSeniorities.item n.key) =
      .ok ⟨[⟨1, numbered 3001⟩, ⟨3, numbered 3002⟩, ⟨2, numbered 3003⟩]⟩ := by
    rw [listed]
    rfl
  have wrong := splits _ pushed ⟨3, numbered 3002⟩ (by decide +kernel) ⟨2, numbered 3003⟩ (by decide +kernel)
  revert wrong
  decide

end Ceremony
