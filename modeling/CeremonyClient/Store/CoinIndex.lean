import CeremonyClient.Lib.KeyOrder
import CeremonyClient.Lib.Passes
import CeremonyClient.Store.Coin

set_option autoImplicit false

namespace Ceremony

open GoSem

variable {address : Bytes} {denotes : Bytes → Coin} {p : PebbleCoinStore} {coin : Coin}

inductive CoinCall where
  | put (frameNumber : UInt64) (address : Bytes) (coin : Coin)
  | delete (address : Bytes) (coin : Coin)

namespace PebbleCoinStore

def coinCall (p : PebbleCoinStore) : CoinCall → Go PebbleCoinStore
  | .put frameNumber address coin => p.putCoin frameNumber address coin
  | .delete address coin => .ok (p.deleteCoin address coin)

-- The coin that an address denotes has an implicit owner; no coin has the last of all addresses.
structure Denotes (address : Bytes) (coin : Coin) : Prop where
  wide : address.length = 32
  notLast : address ≠ List.replicate 32 0xff
  owned : ∃ owner, implicitAddress coin.owner = .ok owner ∧ owner.length = 32

-- Every address always denotes the same coin, and a coin is deleted as it is stored.
def Fits (denotes : Bytes → Coin) (p : PebbleCoinStore) : CoinCall → Prop
  | .put _ address coin => Denotes address coin ∧ denotes address = coin
  | .delete address coin => p.getCoinByAddress address = .ok coin

def Fitting (denotes : Bytes → Coin) : List CoinCall → PebbleCoinStore → Prop
  | [], _ => True
  | call :: rest, p => Fits denotes p call ∧ ∀ next, p.coinCall call = .ok next → Fitting denotes rest next

def SameCoins (p : PebbleCoinStore) : Prop :=
  ∀ key stored, p.coinsByOwner.lookup key = some stored ↔
    ∃ owner address, key = byOwnerKey owner address ∧ implicitAddress stored.2.owner = .ok owner ∧ p.coins.lookup address = some stored

structure Coherent (denotes : Bytes → Coin) (p : PebbleCoinStore) : Prop where
  denoted : ∀ address stored, p.coins.lookup address = some stored → Denotes address stored.2 ∧ denotes address = stored.2
  same : SameCoins p

theorem owner_address_eq {owner : Option AccountRef} (found : implicitAddress owner = .ok address) : ownerAddress owner = address := by
  rw [implicitAddress, bind_ok_iff] at found
  obtain ⟨account, isAccount, isAddress⟩ := found
  rw [ownerAddress, deref_ok_iff.mp isAccount]
  exact Except.ok.inj isAddress

theorem by_owner_key_inj {owner other address' : Bytes} (wide : owner.length = other.length)
    (same : byOwnerKey owner address = byOwnerKey other address') : owner = other ∧ address = address' :=
  List.append_inj same wide

theorem coherent_empty (denotes : Bytes → Coin) : Coherent denotes empty := by
  refine ⟨fun address stored found => ?_, fun key stored => ⟨fun found => ?_, fun found => ?_⟩⟩
  · cases found
  · cases found
  · obtain ⟨owner, address, -, -, stored⟩ := found
    cases stored

theorem Coherent.key_address {denotes : Bytes → Coin} {p : PebbleCoinStore} (coherent : Coherent denotes p) {address : Bytes}
    {stored : UInt64 × Coin} {owner other : Bytes} {address' : Bytes} (found : p.coins.lookup address = some stored)
    (isOwner : implicitAddress stored.2.owner = .ok owner) (wide : other.length = 32)
    (same : byOwnerKey owner address = byOwnerKey other address') : owner = other ∧ address = address' := by
  obtain ⟨owner', isOwner', wide'⟩ := (coherent.denoted address stored found).1.owned
  cases isOwner.symm.trans isOwner'
  exact by_owner_key_inj (wide'.trans wide.symm) same

theorem coherent_put {frameNumber : UInt64} (coherent : Coherent denotes p) (denoted : Denotes address coin) (same : denotes address = coin) :
    ∃ next, p.putCoin frameNumber address coin = .ok next ∧ Coherent denotes next := by
  obtain ⟨owner, isOwner, wide⟩ := denoted.owned
  refine ⟨_, by rw [putCoin, isOwner, ok_bind]; rfl, ?_, ?_⟩
  · intro other stored found
    by_cases here : other = address
    · rw [here] at found ⊢
      rw [AList.lookup_insert] at found
      rw [← Option.some.inj found]
      exact ⟨denoted, same⟩
    · rw [AList.lookup_insert_ne here] at found
      exact coherent.denoted other stored found
  · intro key stored
    by_cases here : key = byOwnerKey owner address
    · rw [here]
      constructor
      · intro found
        rw [AList.lookup_insert] at found
        rw [← Option.some.inj found]
        exact ⟨owner, address, rfl, isOwner, AList.lookup_insert _⟩
      · intro found
        obtain ⟨other, address', isKey, isOther, isStored⟩ := found
        rw [AList.lookup_insert]
        by_cases sameAddress : address' = address
        · rw [sameAddress, AList.lookup_insert] at isStored
          exact isStored
        · rw [AList.lookup_insert_ne sameAddress] at isStored
          exact absurd (coherent.key_address isStored isOther wide isKey.symm).2 sameAddress
    · rw [AList.lookup_insert_ne here, coherent.same key stored]
      constructor
      · intro found
        obtain ⟨other, address', isKey, isOther, isStored⟩ := found
        refine ⟨other, address', isKey, isOther, ?_⟩
        rw [AList.lookup_insert_ne, isStored]
        intro sameAddress
        have sameCoin := (coherent.denoted address' stored isStored).2
        rw [sameAddress, same] at sameCoin
        rw [← sameCoin, isOwner] at isOther
        rw [isKey, sameAddress, Except.ok.inj isOther] at here
        exact here rfl
      · intro found
        obtain ⟨other, address', isKey, isOther, isStored⟩ := found
        refine ⟨other, address', isKey, isOther, ?_⟩
        by_cases sameAddress : address' = address
        · rw [sameAddress, AList.lookup_insert] at isStored
          rw [← Option.some.inj isStored, isOwner] at isOther
          rw [isKey, sameAddress, Except.ok.inj isOther] at here
          exact absurd rfl here
        · rw [AList.lookup_insert_ne sameAddress] at isStored
          exact isStored

theorem coherent_delete (coherent : Coherent denotes p) (found : p.getCoinByAddress address = .ok coin) :
    Coherent denotes (p.deleteCoin address coin) := by
  obtain ⟨frameNumber, isStored⟩ := get_coin_ok_iff.mp found
  obtain ⟨owner, isOwner, wide⟩ := (coherent.denoted address _ isStored).1.owned
  have isKey : ownerAddress coin.owner = owner := owner_address_eq isOwner
  constructor
  · intro other stored here
    by_cases same : other = address
    · rw [same, deleteCoin, AList.lookup_erase] at here
      cases here
    · rw [deleteCoin, AList.lookup_erase_ne same] at here
      exact coherent.denoted other stored here
  · intro key stored
    simp only [deleteCoin, isKey]
    by_cases here : key = byOwnerKey owner address
    · rw [here, AList.lookup_erase]
      constructor
      · intro absent
        cases absent
      · intro there
        obtain ⟨other, address', isKey', isOther, isStored'⟩ := there
        by_cases same : address' = address
        · rw [same, AList.lookup_erase] at isStored'
          cases isStored'
        · rw [AList.lookup_erase_ne same] at isStored'
          exact absurd (coherent.key_address isStored' isOther wide isKey'.symm).2 same
    · rw [AList.lookup_erase_ne here, coherent.same key stored]
      refine exists_congr fun other => exists_congr fun address' => and_congr_right fun isKey' => and_congr_right fun isOther => ?_
      by_cases same : address' = address
      · rw [same, AList.lookup_erase]
        refine iff_of_false (fun there => ?_) (fun absent => by cases absent)
        rw [isStored] at there
        rw [← Option.some.inj there, isOwner] at isOther
        rw [isKey', same, Except.ok.inj isOther] at here
        exact here rfl
      · rw [AList.lookup_erase_ne same]

theorem coherent_run (denotes : Bytes → Coin) (calls : List CoinCall) (p : PebbleCoinStore) (coherent : Coherent denotes p)
    (fitting : Fitting denotes calls p) : ∃ after, calls.foldlM coinCall p = .ok after ∧ Coherent denotes after := by
  induction calls generalizing p with
  | nil => exact ⟨p, rfl, coherent⟩
  | cons call rest ih =>
      obtain ⟨fits, later⟩ := fitting
      have step : ∃ next, p.coinCall call = .ok next ∧ Coherent denotes next := by
        cases call with
        | put frameNumber address coin => exact coherent_put coherent fits.1 fits.2
        | delete address coin => exact ⟨_, rfl, coherent_delete coherent fits⟩
      obtain ⟨next, ran, nextCoherent⟩ := step
      obtain ⟨after, finished, afterCoherent⟩ := ih next nextCoherent (later next ran)
      exact ⟨after, by rw [List.foldlM_cons, ran, ok_bind, finished], afterCoherent⟩

theorem owner_keys (denotes : Bytes → Coin) (p : PebbleCoinStore) (coherent : Coherent denotes p) (owner key : Bytes)
    (stored : UInt64 × Coin) (wide : owner.length = 32) :
    (key, stored) ∈ p.coinsByOwner.range (byOwnerKey owner (List.replicate 32 0x00)) (byOwnerKey owner (List.replicate 32 0xff)) ↔
      ∃ address, key = owner ++ address ∧ address.length = 32 ∧ p.coins.lookup address = some stored ∧
        implicitAddress stored.2.owner = .ok owner := by
  rw [Table.mem_range, coherent.same]
  constructor
  · intro visited
    obtain ⟨⟨other, address, isKey, isOther, isStored⟩, above, below⟩ := visited
    obtain ⟨rest, isRest, -, -⟩ := (between_append_iff owner _ _ key).mp ⟨above, below⟩
    obtain ⟨sameOwner, -⟩ := coherent.key_address isStored isOther wide (isKey.symm.trans isRest)
    rw [sameOwner] at isKey isOther
    exact ⟨address, isKey, (coherent.denoted address stored isStored).1.wide, isStored, isOther⟩
  · intro owned
    obtain ⟨address, isKey, addressWide, isStored, isOwner⟩ := owned
    have between := (between_zeros_ones_iff owner address).mpr (by
      rw [addressWide]
      exact (coherent.denoted address stored isStored).1.notLast)
    rw [addressWide] at between
    rw [isKey]
    exact ⟨⟨owner, address, rfl, isOwner, isStored⟩, between⟩

theorem coin_index_coherence (denotes : Bytes → Coin) (calls : List CoinCall) (fitting : Fitting denotes calls empty) :
    ∃ p, calls.foldlM coinCall empty = .ok p ∧ SameCoins p ∧
      ∀ owner : Bytes, owner.length = 32 → ∃ rows : List (UInt64 × Bytes × Coin),
        p.getCoinsForOwner owner =
          .ok (rows.map fun row => row.1, rows.map fun row => row.2.1, rows.map fun row => row.2.2) ∧
        (rows.map fun row => row.2.1).Nodup ∧
        ∀ frameNumber address coin, (frameNumber, address, coin) ∈ rows ↔
          p.coins.lookup address = some (frameNumber, coin) ∧ implicitAddress coin.owner = .ok owner := by
  obtain ⟨p, ran, coherent⟩ := coherent_run denotes calls empty (coherent_empty denotes) fitting
  refine ⟨p, ran, coherent.same, fun owner wide => ?_⟩
  have keys (key : Bytes) (stored : UInt64 × Coin) := owner_keys denotes p coherent owner key stored wide
  have distinct := Table.range_nodup p.coinsByOwner (byOwnerKey owner (List.replicate 32 0x00)) (byOwnerKey owner (List.replicate 32 0xff))
  have listed : p.getCoinsForOwner owner = do
      let iter := p.coinsByOwner.range (byOwnerKey owner (List.replicate 32 0x00)) (byOwnerKey owner (List.replicate 32 0xff))
      let addresses ← iter.mapM fun entry => do
        let rest ← sliceFrom entry.1 32
        return (rest ++ List.replicate 32 0).take 32
      return (iter.map fun entry => entry.2.1, addresses, iter.map fun entry => entry.2.2) := rfl
  generalize p.coinsByOwner.range (byOwnerKey owner (List.replicate 32 0x00)) (byOwnerKey owner (List.replicate 32 0xff)) = iter
    at keys distinct listed
  have addresses : (iter.mapM fun entry => do
      let rest ← sliceFrom entry.1 32
      return (rest ++ List.replicate 32 0).take 32) = .ok (iter.map fun entry => entry.1.drop 32) := by
    rw [map_m_iff, List.forall₂_map_right_iff, List.forall₂_same]
    intro entry visited
    obtain ⟨address, isKey, addressWide, -, -⟩ := (keys entry.1 entry.2).mp visited
    have long : 32 ≤ entry.1.length := by
      rw [isKey, List.length_append]
      omega
    rw [sliceFrom, if_pos long, ok_bind, isKey, ← wide, List.drop_left, wide, ← addressWide, List.take_left]
    rfl
  refine ⟨iter.map fun entry => (entry.2.1, entry.1.drop 32, entry.2.2), ?_, ?_, ?_⟩
  · rw [listed]
    simp only [addresses, ok_bind, List.map_map, Function.comp_def]
    rfl
  · rw [List.map_map]
    refine distinct.map_on fun first isFirst second isSecond same => ?_
    obtain ⟨address, isKey, -, isStored, -⟩ := (keys first.1 first.2).mp isFirst
    obtain ⟨address', isKey', -, isStored', -⟩ := (keys second.1 second.2).mp isSecond
    rw [Function.comp_apply, Function.comp_apply, isKey, isKey', ← wide, List.drop_left, List.drop_left] at same
    have sameAddress : address = address' := same
    rw [sameAddress, isStored'] at isStored
    exact Prod.ext (by rw [isKey, isKey', sameAddress]) (Option.some.inj isStored).symm
  · intro frameNumber address coin
    rw [List.mem_map]
    constructor
    · intro visited
      obtain ⟨entry, isEntry, isRow⟩ := visited
      obtain ⟨address', isKey, -, isStored, isOwner⟩ := (keys entry.1 entry.2).mp isEntry
      rw [isKey, ← wide, List.drop_left] at isRow
      cases isRow
      exact ⟨isStored, isOwner⟩
    · intro stored
      have wideAddress := (coherent.denoted address _ stored.1).1.wide
      refine ⟨(owner ++ address, frameNumber, coin), (keys _ _).mpr ⟨address, rfl, wideAddress, stored.1, stored.2⟩, ?_⟩
      rw [← wide, List.drop_left]

def indexedCoin : Coin := ⟨[1], [], implicitOwner (List.replicate 32 1)⟩

theorem coin_index_one_coin :
    ∃ p, [CoinCall.put 5 (List.replicate 32 2) indexedCoin].foldlM coinCall empty = .ok p ∧ SameCoins p ∧
      ∀ owner : Bytes, owner.length = 32 → ∃ rows : List (UInt64 × Bytes × Coin),
        p.getCoinsForOwner owner =
          .ok (rows.map fun row => row.1, rows.map fun row => row.2.1, rows.map fun row => row.2.2) ∧
        (rows.map fun row => row.2.1).Nodup ∧
        ∀ frameNumber address coin, (frameNumber, address, coin) ∈ rows ↔
          p.coins.lookup address = some (frameNumber, coin) ∧ implicitAddress coin.owner = .ok owner :=
  coin_index_coherence (fun _ => indexedCoin) [.put 5 (List.replicate 32 2) indexedCoin]
    ⟨⟨⟨rfl, by decide, List.replicate 32 1, rfl, rfl⟩, rfl⟩, fun _ _ => trivial⟩

theorem coin_listing_other_lengths :
    (∃ p, [CoinCall.put 5 (List.replicate 32 2) indexedCoin].foldlM coinCall empty = .ok p ∧
      implicitAddress indexedCoin.owner = .ok (List.replicate 32 1) ∧
      p.getCoinsForOwner [] = .ok ([5], [List.replicate 32 2], [indexedCoin])) ∧
    ∃ p, [CoinCall.put 5 (List.replicate 31 2) indexedCoin].foldlM coinCall empty = .ok p ∧
      p.coins.lookup (List.replicate 31 2) = some (5, indexedCoin) ∧
      p.getCoinsForOwner (List.replicate 32 1) = .ok ([5], [List.replicate 31 2 ++ [0]], [indexedCoin]) := by
  refine ⟨⟨_, rfl, rfl, ?_⟩, ⟨_, rfl, ?_, ?_⟩⟩
  · rfl
  · rfl
  · rfl

end PebbleCoinStore

end Ceremony
