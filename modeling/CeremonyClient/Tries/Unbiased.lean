import CeremonyClient.Lib.Runs
import CeremonyClient.Tries.ProofLeaf

set_option autoImplicit false

namespace Ceremony

open GoSem

variable {input : Digest} {modulus word : UInt64}

def maxValidWord (modulus : UInt64) : UInt64 := maxUint64 - maxUint64 % modulus

def mixRound (input : Digest) (maxValid result : UInt64) : UInt64 :=
  let mixed := mixWords input maxValid result
  if mixed > maxValid then (mixed * (31 : UInt64)) ^^^ (mixed >>> (32 : UInt64)) else mixed

theorem max_valid_nat (modulus : UInt64) :
    (maxValidWord modulus).toNat + (2 ^ 64 - 1) % modulus.toNat = 2 ^ 64 - 1 := by
  have whole : maxUint64.toNat = 2 ^ 64 - 1 := rfl
  have small : maxUint64 % modulus ≤ maxUint64 := by
    rw [UInt64.le_iff_toNat_le, UInt64.toNat_mod]
    exact Nat.mod_le _ _
  rw [maxValidWord, UInt64.toNat_sub_of_le _ _ small, UInt64.toNat_mod, whole]
  have := Nat.mod_le (2 ^ 64 - 1) modulus.toNat
  omega

theorem unbiased_loop_iff {maxValid result : UInt64} {fuel : Nat} : unbiasedLoop input maxValid fuel word = .ok result ↔
    ∃ n ≤ fuel, result = (mixRound input maxValid)^[n] word ∧ result ≤ maxValid ∧ ∀ k < n, (mixRound input maxValid)^[k] word > maxValid := by
  induction fuel generalizing word with
  | zero =>
      rw [unbiasedLoop]
      by_cases refused : word > maxValid
      · simp only [if_pos refused, reduceCtorEq, false_iff]
        rintro ⟨n, isZero, same, accepted, -⟩
        rw [Nat.le_zero.mp isZero, Function.iterate_zero, id] at same
        rw [same] at accepted
        exact UInt64.not_le.mpr refused accepted
      · simp only [if_neg refused, Except.ok.injEq]
        constructor
        · intro same
          exact ⟨0, Nat.le_refl _, same.symm, same ▸ UInt64.not_lt.mp refused, fun k none => absurd none (Nat.not_lt_zero k)⟩
        · rintro ⟨n, isZero, same, -⟩
          rw [Nat.le_zero.mp isZero] at same
          exact same.symm
  | succ fuel ih =>
      rw [unbiasedLoop]
      by_cases refused : word > maxValid
      · simp only [if_pos refused]
        change unbiasedLoop input maxValid fuel (mixRound input maxValid word) = .ok result ↔ _
        rw [ih]
        constructor
        · rintro ⟨n, enough, same, accepted, before⟩
          refine ⟨n + 1, by omega, same, accepted, fun k early => ?_⟩
          cases k with
          | zero => exact refused
          | succ k => exact before k (by omega)
        · rintro ⟨n, enough, same, accepted, before⟩
          cases n with
          | zero =>
              rw [Function.iterate_zero, id] at same
              exact absurd (same ▸ accepted) (UInt64.not_le.mpr refused)
          | succ n => exact ⟨n, by omega, same, accepted, fun k early => before (k + 1) (by omega)⟩
      · simp only [if_neg refused, Except.ok.injEq]
        constructor
        · intro same
          exact ⟨0, by omega, same.symm, same ▸ UInt64.not_lt.mp refused, fun k none => absurd none (Nat.not_lt_zero k)⟩
        · rintro ⟨n, -, same, -, before⟩
          cases n with
          | zero => exact same.symm
          | succ n => exact absurd (before 0 (by omega)) refused

def refusedWords (maxValid : UInt64) : Finset UInt64 := (Finset.Ioc maxValid.toNat (2 ^ 64 - 1)).image UInt64.ofNat

theorem mem_refused_words {maxValid : UInt64} : word ∈ refusedWords maxValid ↔ word > maxValid := by
  rw [refusedWords, Finset.mem_image]
  constructor
  · rintro ⟨value, inside, isWord⟩
    obtain ⟨above, fits⟩ := Finset.mem_Ioc.mp inside
    rw [← isWord, gt_iff_lt, UInt64.lt_iff_toNat_lt, UInt64.toNat_ofNat_of_lt' (show value < 2 ^ 64 by omega)]
    exact above
  · intro above
    have bound := word.toNat_lt
    exact ⟨word.toNat, Finset.mem_Ioc.mpr ⟨UInt64.lt_iff_toNat_lt.mp above, by omega⟩, UInt64.ofNat_toNat⟩

theorem refused_words_few (positive : 0 < modulus.toNat) : (refusedWords (maxValidWord modulus)).card < modulus.toNat := by
  have atMost : (refusedWords (maxValidWord modulus)).card ≤ 2 ^ 64 - 1 - (maxValidWord modulus).toNat := by
    rw [← Nat.card_Ioc]
    exact Finset.card_image_le
  have whole := max_valid_nat modulus
  have small := Nat.mod_lt (2 ^ 64 - 1) positive
  omega

-- One of the first rounds, fewer than the modulus, meets a word that the loop accepts.
def Escapes (input : Digest) (modulus : UInt64) : Prop :=
  modulus ≤ 1 ∨ ∃ n < modulus.toNat, (mixRound input (maxValidWord modulus))^[n] (digestWord input 0) ≤ maxValidWord modulus

theorem reduction_large {fuel : Nat} {pick : UInt64} (large : ¬ modulus ≤ 1) : bytesToUnbiasedMod fuel input modulus = .ok pick ↔
    ∃ result, unbiasedLoop input (maxValidWord modulus) fuel (digestWord input 0) = .ok result ∧ pick = result % modulus := by
  rw [bytesToUnbiasedMod, if_neg large, bind_ok_iff]
  refine exists_congr fun result => and_congr_right fun _ => ?_
  exact ⟨fun same => (Except.ok.inj same).symm, fun same => congrArg Except.ok same.symm⟩

theorem positive_of_large (large : ¬ modulus ≤ 1) : 1 < modulus.toNat := UInt64.lt_iff_toNat_lt.mp (UInt64.not_le.mp large)

-- The refused words are fewer than the modulus, so the loop leaves within that many rounds or never.
theorem reduction_ends_iff (input : Digest) (modulus : UInt64) :
    (∃ fuel pick, bytesToUnbiasedMod fuel input modulus = .ok pick ∧ pick.toNat < max modulus.toNat 1) ↔ Escapes input modulus := by
  by_cases large : modulus ≤ 1
  · refine iff_of_true ⟨0, 0, by rw [bytesToUnbiasedMod, if_pos large], ?_⟩ (Or.inl large)
    exact Nat.lt_of_lt_of_le Nat.zero_lt_one (Nat.le_max_right _ _)
  · have positive := positive_of_large large
    rw [Escapes, or_iff_right large]
    constructor
    · rintro ⟨fuel, pick, drawn, -⟩
      obtain ⟨result, looped, -⟩ := (reduction_large large).mp drawn
      obtain ⟨n, -, same, accepted, -⟩ := unbiased_loop_iff.mp looped
      by_contra trapped
      have held : ∀ k ≤ (refusedWords (maxValidWord modulus)).card,
          (mixRound input (maxValidWord modulus))^[k] (digestWord input 0) ∈ refusedWords (maxValidWord modulus) := by
        intro k early
        have few := refused_words_few (Nat.zero_lt_of_lt positive)
        exact mem_refused_words.mpr (UInt64.not_le.mp fun escaped => trapped ⟨k, by omega, escaped⟩)
      have refused := mem_refused_words.mp (orbit_trapped _ _ _ held n)
      exact UInt64.not_le.mpr refused (same ▸ accepted)
    · intro escapes
      classical
      obtain ⟨-, accepted⟩ := Nat.find_spec escapes
      have earlier := fun k (before : k < Nat.find escapes) => Nat.find_min escapes before
      have bound := (Nat.find_spec escapes).1
      refine ⟨Nat.find escapes, _, (reduction_large large).mpr ⟨_, unbiased_loop_iff.mpr ⟨_, Nat.le_refl _, rfl, accepted, ?_⟩, rfl⟩, ?_⟩
      · intro k before
        exact UInt64.not_le.mp fun escaped => earlier k before ⟨by omega, escaped⟩
      · rw [UInt64.toNat_mod]
        exact Nat.lt_of_lt_of_le (Nat.mod_lt _ (by omega)) (Nat.le_max_left _ _)

-- A first word and three further words between which the loop goes round.
def cyclingDigest : Digest :=
  ⟨beBytes 8 (2 ^ 64 - 2 ^ 27 - 1) ++ beBytes 8 0xffffffe1 ++ beBytes 8 0xf0000000 ++ beBytes 8 0xf0000000, by decide⟩

def cyclingModulus : UInt64 := 3221225472

theorem reduction_cycles : cyclingModulus.toNat < 2 ^ 32 ∧ ∀ fuel pick, bytesToUnbiasedMod fuel cyclingDigest cyclingModulus ≠ .ok pick := by
  refine ⟨by decide, fun fuel pick drawn => ?_⟩
  obtain ⟨result, looped, -⟩ := (reduction_large (by decide)).mp drawn
  obtain ⟨n, -, same, accepted, -⟩ := unbiased_loop_iff.mp looped
  have back : mixRound cyclingDigest (maxValidWord cyclingModulus) (digestWord cyclingDigest 0) = digestWord cyclingDigest 0 := by
    decide +kernel
  rw [Function.iterate_fixed back] at same
  rw [same] at accepted
  exact absurd accepted (by decide +kernel)

def directHits (modulus residue : UInt64) : Set UInt64 :=
  { word | ∃ input, digestWord input 0 = word ∧ bytesToUnbiasedMod 0 input modulus = .ok residue }

theorem word_first (word : UInt64) : ∃ input : Digest, digestWord input 0 = word := by
  refine ⟨⟨beBytes 8 word.toNat ++ List.replicate 24 0, by simp [be_bytes_length]⟩, ?_⟩
  rw [digestWord, List.drop_zero, List.take_left' (be_bytes_length _ _), set_bytes_be_bytes 8 _ (by have := word.toNat_lt; omega),
    UInt64.ofNat_toNat]

theorem mem_direct_hits {residue : UInt64} (large : ¬ modulus ≤ 1) :
    word ∈ directHits modulus residue ↔ word ≤ maxValidWord modulus ∧ word % modulus = residue := by
  have direct : ∀ input, bytesToUnbiasedMod 0 input modulus = .ok residue ↔
      digestWord input 0 ≤ maxValidWord modulus ∧ digestWord input 0 % modulus = residue := by
    intro input
    rw [reduction_large large]
    constructor
    · rintro ⟨result, looped, isResidue⟩
      obtain ⟨n, isZero, same, accepted, -⟩ := unbiased_loop_iff.mp looped
      rw [Nat.le_zero.mp isZero, Function.iterate_zero, id] at same
      rw [← same]
      exact ⟨accepted, isResidue.symm⟩
    · rintro ⟨accepted, isResidue⟩
      exact ⟨_, unbiased_loop_iff.mpr ⟨0, Nat.le_refl _, rfl, accepted, fun k none => absurd none (Nat.not_lt_zero k)⟩, isResidue.symm⟩
  constructor
  · rintro ⟨input, isWord, drawn⟩
    rw [← isWord]
    exact (direct input).mp drawn
  · intro accepted
    obtain ⟨input, isWord⟩ := word_first word
    exact ⟨input, isWord, (direct input).mpr (isWord ▸ accepted)⟩

theorem max_valid_divides (modulus : UInt64) : modulus.toNat ∣ (maxValidWord modulus).toNat := by
  have whole := max_valid_nat modulus
  have quotient := Nat.div_add_mod (2 ^ 64 - 1) modulus.toNat
  exact ⟨(2 ^ 64 - 1) / modulus.toNat, by omega⟩

theorem next_multiple {m value bound : Nat} (large : 1 < m) (divides : m ∣ bound) (residue : value % m = 1) (fits : value ≤ bound) :
    value + (m - 1) ≤ bound ∧ (value + (m - 1)) % m = 0 := by
  obtain ⟨count, isBound⟩ := divides
  have split := Nat.div_add_mod value m
  have isNext : value + (m - 1) = m * (value / m + 1) := by
    rw [Nat.mul_add, Nat.mul_one]
    omega
  have below : value / m < count := by
    apply Nat.lt_of_mul_lt_mul_left (a := m)
    omega
  rw [isNext, isBound]
  exact ⟨Nat.mul_le_mul_left m below, Nat.mul_mod_right m _⟩

theorem multiple_before {m value : Nat} (large : 1 < m) (positive : 0 < value) (residue : value % m = 0) :
    m ≤ value ∧ (value - (m - 1)) % m = 1 := by
  obtain ⟨count, isValue⟩ := Nat.dvd_of_mod_eq_zero residue
  cases count with
  | zero => omega
  | succ count =>
      rw [Nat.mul_add, Nat.mul_one] at isValue
      refine ⟨by omega, ?_⟩
      rw [show value - (m - 1) = 1 + m * count by omega, Nat.add_mul_mod_self_left, Nat.mod_eq_of_lt large]

theorem word_residue_iff {residue : UInt64} : word % modulus = residue ↔ word.toNat % modulus.toNat = residue.toNat := by
  rw [← UInt64.toNat_inj, UInt64.toNat_mod]

section

variable (large : ¬ modulus ≤ 1)

include large

theorem before_modulus : (modulus - 1).toNat = modulus.toNat - 1 :=
  UInt64.toNat_sub_of_le _ _ (UInt64.le_of_lt (UInt64.not_le.mp large))

theorem next_hit (hit : word ∈ directHits modulus 1) :
    (word + (modulus - 1)).toNat = word.toNat + (modulus.toNat - 1) ∧ word + (modulus - 1) ∈ directHits modulus 0 := by
  obtain ⟨fits, residue⟩ := (mem_direct_hits large).mp hit
  obtain ⟨within, isMultiple⟩ := next_multiple (positive_of_large large) (max_valid_divides modulus) (word_residue_iff.mp residue)
    (UInt64.le_iff_toNat_le.mp fits)
  have bound := (maxValidWord modulus).toNat_lt
  have same : (word + (modulus - 1)).toNat = word.toNat + (modulus.toNat - 1) := by
    rw [UInt64.toNat_add, before_modulus large, Nat.mod_eq_of_lt (by omega)]
  refine ⟨same, (mem_direct_hits large).mpr ⟨?_, ?_⟩⟩
  · rw [UInt64.le_iff_toNat_le, same]
    exact within
  · rw [word_residue_iff, same]
    exact isMultiple

theorem hit_before (hit : word ∈ directHits modulus 0) (nonzero : word ≠ 0) :
    word - (modulus - 1) ∈ directHits modulus 1 := by
  obtain ⟨fits, residue⟩ := (mem_direct_hits large).mp hit
  have positive : 0 < word.toNat := Nat.pos_of_ne_zero fun none => nonzero (UInt64.toNat_inj.mp none)
  obtain ⟨above, before⟩ := multiple_before (positive_of_large large) positive (word_residue_iff.mp residue)
  have less : modulus - 1 ≤ word := by
    rw [UInt64.le_iff_toNat_le, before_modulus large]
    omega
  have same := UInt64.toNat_sub_of_le _ _ less
  refine (mem_direct_hits large).mpr ⟨?_, ?_⟩
  · rw [UInt64.le_iff_toNat_le, same]
    exact Nat.le_trans (Nat.sub_le _ _) (UInt64.le_iff_toNat_le.mp fits)
  · rw [word_residue_iff, same, before_modulus large]
    exact before

theorem direct_hits_zero :
    directHits modulus 0 = insert 0 ((fun word => word + (modulus - 1)) '' directHits modulus 1) := by
  ext word
  rw [Set.mem_insert_iff, Set.mem_image]
  constructor
  · intro hit
    by_cases zero : word = 0
    · exact Or.inl zero
    · exact Or.inr ⟨word - (modulus - 1), hit_before large hit zero, UInt64.sub_add_cancel _ _⟩
  · rintro (zero | ⟨before, hit, isWord⟩)
    · rw [zero, mem_direct_hits large, word_residue_iff]
      exact ⟨UInt64.zero_le, Nat.zero_mod _⟩
    · rw [← isWord]
      exact (next_hit large hit).2

theorem direct_hits_biased : (directHits modulus 0).ncard = (directHits modulus 1).ncard + 1 := by
  have finite : (directHits modulus 1).Finite := Set.toFinite _
  have shifted : Function.Injective fun word : UInt64 => word + (modulus - 1) := by
    intro left right same
    simpa using same
  have fresh : 0 ∉ (fun word => word + (modulus - 1)) '' directHits modulus 1 := by
    rintro ⟨before, hit, isZero⟩
    have sum := (next_hit large hit).1
    have wide := positive_of_large large
    rw [show before + (modulus - 1) = 0 from isZero, UInt64.toNat_zero] at sum
    omega
  rw [direct_hits_zero large, Set.ncard_insert_of_notMem fresh (finite.image _), Set.ncard_image_of_injective _ shifted]

end

theorem unbiased_words_iff (modulus : UInt64) :
    (∀ left right, left < modulus → right < modulus → (directHits modulus left).ncard = (directHits modulus right).ncard) ↔ modulus ≤ 1 := by
  constructor
  · intro equal
    by_contra large
    have wide := UInt64.not_le.mp large
    have biased := direct_hits_biased large
    rw [equal 0 1 (UInt64.lt_trans (by decide) wide) wide] at biased
    omega
  · intro small left right leftBelow rightBelow
    have zero : ∀ residue, residue < modulus → residue = 0 := by
      intro residue below
      have less := UInt64.lt_iff_toNat_lt.mp (UInt64.lt_of_lt_of_le below small)
      exact UInt64.toNat_inj.mp (Nat.lt_one_iff.mp less)
    rw [zero left leftBelow, zero right rightBelow]

theorem even_words_hit_more : ¬ (directHits 2 0).ncard = (directHits 2 1).ncard := by
  have biased : (directHits 2 0).ncard = (directHits 2 1).ncard + 1 := direct_hits_biased (by decide)
  omega

end Ceremony
