import CeremonyClient.Lib.Go
import CeremonyClient.Lib.Passes
import CeremonyClient.Lib.Sharing

set_option autoImplicit false

namespace Ceremony.Feldman

open GoSem Polynomial Sharing

-- The encoding of scalars in the curve library.
structure ScalarCodec (F : Type) where
  width : Nat
  toBytes : F → Bytes
  fromBytes : Bytes → F
  sized : ∀ s, (toBytes s).length = width
  inverts : ∀ s, fromBytes (toBytes s) = s

variable {F : Type} [Field F] [DecidableEq F]

-- Scalar::from(value as u32)
def fromU32 (value : Nat) : F := ((value % 2 ^ 32 : Nat) : F)

-- An overflow of usize::pow panics in a build that checks for it, and wraps around in any other.
def usizePow (checks : Bool) (base exponent : Nat) : Go Nat :=
  if checks = true ∧ 2 ^ 64 ≤ base ^ exponent then crash else .ok (base ^ exponent % 2 ^ 64)

-- The secret is the first coefficient, and the draws are the ones after it.
def constructPolynomialSamples (checks : Bool) (draw : Nat → F) (secret : F) (threshold total : Nat) : Go (List F) :=
  (List.range total).mapM fun i => (List.range (threshold - 1)).foldlM (fun result j => do
    let power ← usizePow checks (i + 1) (j + 1)
    .ok (result + draw j * fromU32 power)) secret

def readPoints (codec : ScalarCodec F) : List (Bytes × Nat) → (Nat → Option F) → Go (Nat → Option F)
  | [], points => .ok points
  | (share, id) :: rest, points =>
      if share.length ≠ codec.width then crash
      else if codec.fromBytes share = 0 then raise (errorsNew ("Invalid data: invalid pubkey for " ++ toString id))
      else readPoints codec rest (Function.update points id (some (codec.fromBytes share)))

def zeroParts (ids : List Nat) (j : Nat) : F × F :=
  ids.foldl (fun parts k => if j ≠ k then (parts.1 * fromU32 k, parts.2 * (fromU32 k - fromU32 j)) else parts) (1, 1)

def reconstructedSum (points : Nat → Option F) (ids : List Nat) : Go F :=
  ids.foldlM (fun sum j => do
    let point ← deref (points j)
    .ok (sum + point * ((zeroParts ids j).1 * (zeroParts ids j).2⁻¹))) 0

def redistribute (codec : ScalarCodec F) (checks : Bool) (draw : Nat → F) (shares : List Bytes) (ids : List Nat)
    (threshold total : Nat) : Go (List Bytes) := do
  failIf (shares.length ≠ ids.length) (errorsNew "Invalid data: mismatch of shares and ids len")
  let points ← readPoints codec (shares.zip ids) fun _ => none
  let secret ← reconstructedSum points ids
  let samples ← constructPolynomialSamples checks draw secret threshold total
  .ok (samples.map codec.toBytes)

variable {codec : ScalarCodec F} {checks : Bool} {draw : Nat → F} {secret : F} {threshold total : Nat} {ids : List Nat} {value : Nat → F}

def PowFits (checks : Bool) (base exponent : Nat) : Prop := ¬ (checks = true ∧ 2 ^ 64 ≤ base ^ exponent)

def sampleAt (draw : Nat → F) (secret : F) (threshold i : Nat) : F :=
  secret + ∑ j ∈ Finset.range (threshold - 1), draw j * fromU32 ((i + 1) ^ (j + 1))

theorem usize_pow_ok_iff {base exponent power : Nat} :
    usizePow checks base exponent = .ok power ↔ PowFits checks base exponent ∧ power = base ^ exponent % 2 ^ 64 := by
  rw [usizePow, PowFits]
  split
  · rename_i overflows
    exact iff_of_false (fun impossible => by cases impossible) fun both => both.1 overflows
  · rename_i fits
    rw [and_iff_right fits, Except.ok.injEq, eq_comm]

omit [DecidableEq F] in
theorem from_u32_wrapped (value : Nat) : fromU32 (value % 2 ^ 64) = (fromU32 value : F) := by
  rw [fromU32, fromU32, Nat.mod_mod_of_dvd value (by norm_num)]

omit [DecidableEq F] in
theorem sample_ok_iff (i count : Nat) (result : F) :
    (List.range count).foldlM (fun result j => do
      let power ← usizePow checks (i + 1) (j + 1)
      .ok (result + draw j * fromU32 power)) secret = .ok result ↔
      (∀ j < count, PowFits checks (i + 1) (j + 1)) ∧ result = secret + ∑ j ∈ Finset.range count, draw j * fromU32 ((i + 1) ^ (j + 1)) := by
  induction count generalizing result with
  | zero => simp [pure, Except.pure, eq_comm]
  | succ count ih =>
      rw [List.range_succ, List.foldlM_append, bind_ok_iff, Finset.sum_range_succ]
      simp only [ih, List.foldlM_cons, List.foldlM_nil, bind_pure, bind_ok_iff, usize_pow_ok_iff, Except.ok.injEq, Nat.forall_lt_succ_right]
      constructor
      · rintro ⟨before, ⟨all, same⟩, power, ⟨fits, isPower⟩, isResult⟩
        exact ⟨⟨all, fits⟩, by rw [← isResult, same, isPower, from_u32_wrapped, add_assoc]⟩
      · rintro ⟨⟨all, fits⟩, same⟩
        exact ⟨_, ⟨all, rfl⟩, _, ⟨fits, rfl⟩, by rw [same, from_u32_wrapped, add_assoc]⟩

omit [DecidableEq F] in
theorem samples_ok_iff (samples : List F) : constructPolynomialSamples checks draw secret threshold total = .ok samples ↔
    (∀ i < total, ∀ j < threshold - 1, PowFits checks (i + 1) (j + 1)) ∧
      samples = (List.range total).map (sampleAt draw secret threshold) := by
  rw [constructPolynomialSamples, map_m_iff]
  simp only [sample_ok_iff]
  rw [List.forall₂_and_left, eq_comm, ← List.forall₂_eq_eq_eq, List.forall₂_map_left_iff]
  simp only [List.mem_range, sampleAt, eq_comm]

theorem read_points_ok_iff (start points : Nat → Option F) :
    readPoints codec (ids.map fun id => (codec.toBytes (value id), id)) start = .ok points ↔
      (∀ id ∈ ids, value id ≠ 0) ∧ points = fun id => if id ∈ ids then some (value id) else start id := by
  induction ids generalizing start with
  | nil => simp [readPoints, eq_comm]
  | cons id rest ih =>
      rw [List.map_cons, readPoints, if_neg (not_not.mpr (codec.sized _)), codec.inverts, List.forall_mem_cons]
      by_cases zero : value id = 0
      · rw [if_pos zero]
        simp [zero, raise]
      · rw [if_neg zero, ih, and_iff_right zero]
        refine and_congr Iff.rfl (Eq.congr_right (funext fun other => ?_))
        by_cases later : other ∈ rest
        · simp [later]
        · by_cases same : other = id
          · simp [same]
          · simp [later, same]

omit [DecidableEq F] in
theorem fold_sum_ok {body : F → Nat → Go F} {term : Nat → F} (start : F) (each : ∀ id ∈ ids, ∀ sum, body sum id = .ok (sum + term id)) :
    ids.foldlM body start = .ok (start + (ids.map term).sum) := by
  induction ids generalizing start with
  | nil => simp [pure, Except.pure]
  | cons id rest ih =>
      obtain ⟨first, later⟩ := List.forall_mem_cons.mp each
      rw [List.foldlM_cons, first, ok_bind, ih _ later, List.map_cons, List.sum_cons, add_assoc]

omit [DecidableEq F] in
theorem reconstructed_sum_ok {f : F[X]} {points : Nat → Option F} (distinct : ids.Nodup)
    (injective : Set.InjOn (fromU32 : Nat → F) ids.toFinset) (degree : f.degree < ids.length)
    (known : ∀ id ∈ ids, points id = some (f.eval (fromU32 id))) : reconstructedSum points ids = .ok (f.eval 0) := by
  have small : f.degree < ids.toFinset.card := by rwa [List.toFinset_card_of_nodup distinct]
  rw [reconstructedSum, fold_sum_ok 0 fun id isId sum => by rw [known id isId, deref_some, ok_bind], zero_add,
    ← List.sum_toFinset _ distinct, ← sum_basis_at_zero injective small]
  refine congrArg _ (Finset.sum_congr rfl fun id _ => ?_)
  rw [zeroParts, foldl_factors distinct, one_mul, one_mul, Finset.prod_mul_distrib, Finset.prod_inv_distrib, mul_comm]

-- So many of the ids 1..total, told apart as scalars, and what they interpolate at zero to.
structure Chosen (F : Type) [Field F] (threshold total : Nat) (chosen : Finset Nat) : Prop where
  ids : chosen ⊆ Finset.Icc 1 total
  card : chosen.card = threshold
  distinct : Set.InjOn (Nat.cast : Nat → F) chosen

def lagrange (chosen : Finset Nat) (i : Nat) : F := ∏ j ∈ chosen.erase i, (j : F) * ((j : F) - (i : F))⁻¹

def interpolated (chosen : Finset Nat) (shares : List F) : F := ∑ i ∈ chosen, lagrange chosen i * shares.getD (i - 1) 0

def Restores (codec : ScalarCodec F) (secret : F) (threshold total : Nat) (outcome : Go (List Bytes)) : Prop :=
  ∃ shares, outcome = .ok shares ∧ shares.length = total ∧
    ∀ chosen, Chosen F threshold total chosen → interpolated chosen (shares.map codec.fromBytes) = secret

-- What the conversion to 32 bits cuts off from the powers.
def cutPart (chosen : Finset Nat) (exponent : Nat) : F := ∑ i ∈ chosen, lagrange chosen i * ((i ^ exponent / 2 ^ 32 : Nat) : F)

variable {chosen : Finset Nat}

omit [DecidableEq F] in
theorem lagrange_power (isChosen : Chosen F threshold total chosen) (exponent : Nat) (small : exponent < threshold) :
    ∑ i ∈ chosen, lagrange chosen i * ((i ^ exponent : Nat) : F) = 0 ^ exponent := by
  have degree : (X ^ exponent : F[X]).degree < chosen.card := by
    rw [degree_X_pow, isChosen.card]
    exact_mod_cast small
  have interpolates := sum_basis_at_zero isChosen.distinct degree
  simpa [lagrange] using interpolates

omit [DecidableEq F] in
theorem lagrange_from_u32 (isChosen : Chosen F threshold total chosen) (exponent : Nat) (small : exponent + 1 < threshold) :
    ∑ i ∈ chosen, lagrange chosen i * (fromU32 (i ^ (exponent + 1)) : F) = -(2 ^ 32 * cutPart chosen (exponent + 1)) := by
  have whole := lagrange_power isChosen (exponent + 1) small
  rw [zero_pow (Nat.succ_ne_zero _)] at whole
  rw [eq_neg_iff_add_eq_zero, cutPart, Finset.mul_sum, ← Finset.sum_add_distrib, ← whole]
  refine Finset.sum_congr rfl fun i _ => ?_
  have split := congrArg (Nat.cast : Nat → F) (Nat.mod_add_div (i ^ (exponent + 1)) (2 ^ 32))
  rw [fromU32, ← split]
  push_cast
  ring

omit [DecidableEq F] in
theorem interpolated_samples (isChosen : Chosen F threshold total chosen) (positive : 0 < threshold) :
    interpolated chosen ((List.range total).map (sampleAt draw secret threshold)) =
      secret - 2 ^ 32 * ∑ j ∈ Finset.range (threshold - 1), draw j * cutPart chosen (j + 1) := by
  have ones := lagrange_power isChosen 0 positive
  simp only [pow_zero, Nat.cast_one, mul_one] at ones
  have each : ∀ i ∈ chosen, lagrange chosen i * ((List.range total).map (sampleAt draw secret threshold)).getD (i - 1) 0 =
      lagrange chosen i * secret + ∑ j ∈ Finset.range (threshold - 1), draw j * (lagrange chosen i * fromU32 (i ^ (j + 1))) := by
    intro i isId
    obtain ⟨low, high⟩ := Finset.mem_Icc.mp (isChosen.ids isId)
    have here : ((List.range total).map (sampleAt draw secret threshold))[i - 1]? = some (sampleAt draw secret threshold (i - 1)) := by
      rw [List.getElem?_map, List.getElem?_range (by omega)]
      rfl
    rw [List.getD_eq_getElem?_getD, here, Option.getD_some, sampleAt, Nat.sub_add_cancel low, mul_add, Finset.mul_sum]
    simp only [mul_left_comm]
  rw [interpolated, Finset.sum_congr rfl each, Finset.sum_add_distrib, ← Finset.sum_mul, ones, one_mul, Finset.sum_comm, sub_eq_add_neg,
    Finset.mul_sum, ← Finset.sum_neg_distrib]
  refine congrArg _ (Finset.sum_congr rfl fun j isIndex => ?_)
  have small := Finset.mem_range.mp isIndex
  rw [← Finset.mul_sum, lagrange_from_u32 isChosen j (by omega)]
  ring

def PowersFit (checks : Bool) (threshold total : Nat) : Prop := ∀ i < total, ∀ j < threshold - 1, PowFits checks (i + 1) (j + 1)

noncomputable def dealt (codec : ScalarCodec F) (f : F[X]) (ids : List Nat) : List Bytes := ids.map fun id : Nat => codec.toBytes (f.eval (id : F))

section PrimeField

variable {q : Nat} [Fact q.Prime] {codec : ScalarCodec (ZMod q)} {draw : Nat → ZMod q} {f : (ZMod q)[X]}

variable (large : 2 ^ 32 < q) (distinct : ids.Nodup) (inRange : ∀ id ∈ ids, id < 2 ^ 32) (degree : f.degree < ids.length)

include large distinct inRange degree

theorem redistribute_ok_iff {shares : List Bytes} :
    redistribute codec checks draw (dealt codec f ids) ids threshold total = .ok shares ↔
      (∀ id ∈ ids, f.eval (id : ZMod q) ≠ 0) ∧ PowersFit checks threshold total ∧
        shares = ((List.range total).map (sampleAt draw (f.eval 0) threshold)).map codec.toBytes := by
  have cast : ∀ id ∈ ids, (fromU32 id : ZMod q) = id := fun id isId => by rw [fromU32, Nat.mod_eq_of_lt (inRange id isId)]
  have injective : Set.InjOn (fromU32 : Nat → ZMod q) ids.toFinset := by
    intro i isId j isId' same
    have isId := List.mem_toFinset.mp isId
    have isId' := List.mem_toFinset.mp isId'
    rw [cast i isId, cast j isId'] at same
    exact CharP.natCast_injOn_Iio (ZMod q) q ((inRange i isId).trans large) ((inRange j isId').trans large) same
  have pairs : (dealt codec f ids).zip ids = ids.map fun id : Nat => (codec.toBytes (f.eval (id : ZMod q)), id) := by
    simpa [dealt] using List.zip_map' (f := fun id : Nat => codec.toBytes (f.eval (id : ZMod q))) (g := id) (l := ids)
  rw [redistribute, failIf, if_neg (by simp [dealt]), ok_bind, pairs, bind_ok_iff]
  simp only [read_points_ok_iff]
  have secret : ∀ points : Nat → Option (ZMod q), (points = fun id => if id ∈ ids then some (f.eval (id : ZMod q)) else none) →
      reconstructedSum points ids = .ok (f.eval 0) := by
    intro points isPoints
    refine reconstructed_sum_ok distinct injective degree fun id isId => ?_
    rw [isPoints, cast id isId]
    exact if_pos isId
  constructor
  · rintro ⟨points, ⟨nonzero, isPoints⟩, done⟩
    rw [secret points isPoints, ok_bind, bind_ok_iff] at done
    obtain ⟨samples, drawn, same⟩ := done
    obtain ⟨fit, isSamples⟩ := (samples_ok_iff samples).mp drawn
    exact ⟨nonzero, fit, by rw [← isSamples, ← Except.ok.inj same]⟩
  · rintro ⟨nonzero, fit, same⟩
    refine ⟨_, ⟨nonzero, rfl⟩, ?_⟩
    rw [secret _ rfl, ok_bind, (samples_ok_iff _).mpr ⟨fit, rfl⟩, ok_bind, same]

theorem restores_iff (positive : 0 < threshold) :
    Restores codec (f.eval 0) threshold total
        (redistribute codec checks draw (dealt codec f ids) ids threshold total) ↔
      (∀ id ∈ ids, f.eval (id : ZMod q) ≠ 0) ∧ PowersFit checks threshold total ∧ ∀ chosen, Chosen (ZMod q) threshold total chosen →
        ∑ j ∈ Finset.range (threshold - 1), draw j * cutPart chosen (j + 1) = 0 := by
  have scale : (2 ^ 32 : ZMod q) ≠ 0 := by
    intro zero
    have divides := (ZMod.natCast_eq_zero_iff (2 ^ 32) q).mp (by exact_mod_cast zero)
    exact absurd (Nat.le_of_dvd (by norm_num) divides) (by omega)
  have decoded : ∀ samples : List (ZMod q), (samples.map codec.toBytes).map codec.fromBytes = samples := by
    intro samples
    simp [Function.comp_def, codec.inverts]
  simp only [Restores, redistribute_ok_iff large distinct inRange degree]
  constructor
  · rintro ⟨shares, ⟨nonzero, fit, isShares⟩, -, interpolate⟩
    refine ⟨nonzero, fit, fun chosen isChosen => ?_⟩
    have value := interpolate chosen isChosen
    rw [isShares, decoded, interpolated_samples isChosen positive, sub_eq_self] at value
    exact (mul_eq_zero.mp value).resolve_left scale
  · rintro ⟨nonzero, fit, cancel⟩
    refine ⟨_, ⟨nonzero, fit, rfl⟩, by simp, fun chosen isChosen => ?_⟩
    rw [decoded, interpolated_samples isChosen positive, cancel chosen isChosen, mul_zero, sub_zero]

end PrimeField

-- Whatever is drawn: no share may be zero, and what the powers lose must not show in any interpolation.
theorem redistribution_iff (q : Nat) [Fact q.Prime] (large : 2 ^ 32 < q) (codec : ScalarCodec (ZMod q)) (checks : Bool) (f : (ZMod q)[X])
    (ids : List Nat) (distinct : ids.Nodup) (inRange : ∀ id ∈ ids, id < 2 ^ 32) (degree : f.degree < ids.length) (threshold total : Nat)
    (positive : 0 < threshold) :
    (∀ draw, Restores codec (f.eval 0) threshold total
        (redistribute codec checks draw (dealt codec f ids) ids threshold total)) ↔
      (∀ id ∈ ids, f.eval (id : ZMod q) ≠ 0) ∧ PowersFit checks threshold total ∧ ∀ chosen, Chosen (ZMod q) threshold total chosen →
        ∀ j < threshold - 1, (cutPart chosen (j + 1) : ZMod q) = 0 := by
  simp only [restores_iff large distinct inRange degree positive]
  constructor
  · intro all
    refine ⟨(all 0).1, (all 0).2.1, fun chosen isChosen j small => ?_⟩
    have one := (all (Pi.single j 1)).2.2 chosen isChosen
    rw [Finset.sum_eq_single j] at one
    · rwa [Pi.single_eq_same, one_mul] at one
    · intro other _ different
      rw [Pi.single_eq_of_ne different, zero_mul]
    · exact fun absent => absurd (Finset.mem_range.mpr small) absent
  · rintro ⟨nonzero, fit, cancel⟩ draw
    refine ⟨nonzero, fit, fun chosen isChosen => Finset.sum_eq_zero fun j isIndex => ?_⟩
    rw [cancel chosen isChosen j (Finset.mem_range.mp isIndex), mul_zero]

-- A scalar as that many ones.
def countCodec (q : Nat) [NeZero q] : ScalarCodec (ZMod q) where
  width := q
  toBytes s := List.replicate s.val 1 ++ List.replicate (q - s.val) 0
  fromBytes bytes := (bytes.count 1 : ZMod q)
  sized s := by
    have small := ZMod.val_lt s
    rw [List.length_append, List.length_replicate, List.length_replicate]
    omega
  inverts s := by
    rw [List.count_append, List.count_replicate_self, List.count_replicate, if_neg (by decide), Nat.add_zero, ZMod.natCast_zmod_val]

theorem redistribution_to_three : ∃ (q : Nat) (_ : Fact q.Prime), 2 ^ 32 < q ∧ ∀ draw,
    Restores (countCodec q) ((C 1 : (ZMod q)[X]).eval 0) 2 3
      (redistribute (countCodec q) true draw (dealt (countCodec q) (C 1) [1]) [1] 2 3) := by
  obtain ⟨q, large, isPrime⟩ := Nat.exists_infinite_primes (2 ^ 32 + 1)
  have prime : Fact q.Prime := ⟨isPrime⟩
  refine ⟨q, prime, large, (redistribution_iff q large (countCodec q) true (C 1) [1] (by decide) (by decide) ?_ 2 3 (by decide)).mpr ⟨?_, ?_, ?_⟩⟩
  · rw [degree_C one_ne_zero]
    exact Nat.cast_pos.mpr Nat.one_pos
  · simp
  · rintro i small j inRange ⟨-, large⟩
    have short : j = 0 := by omega
    rw [short, zero_add, pow_one] at large
    omega
  · intro chosen isChosen j inRange
    refine Finset.sum_eq_zero fun i isId => ?_
    have bound := (Finset.mem_Icc.mp (isChosen.ids isId)).2
    have short : j = 0 := by omega
    rw [short, zero_add, pow_one, Nat.div_eq_of_lt (by omega), Nat.cast_zero, mul_zero]

-- The square of 65536 is zero in 32 bits: the players 1, 2 and 65536 get another secret when its coefficient is not zero.
theorem redistribution_loses_secret : ∃ (q : Nat) (_ : Fact q.Prime), 2 ^ 32 < q ∧
    ¬ Restores (countCodec q) ((C 1 : (ZMod q)[X]).eval 0) 3 65536 (redistribute (countCodec q) true (Pi.single 1 1)
      (dealt (countCodec q) (C 1) [1]) [1] 3 65536) := by
  obtain ⟨q, large, isPrime⟩ := Nat.exists_infinite_primes (2 ^ 32 + 1)
  have prime : Fact q.Prime := ⟨isPrime⟩
  have apart : ∀ i j : Nat, i < 2 ^ 32 → j < 2 ^ 32 → (i : ZMod q) = j → i = j := fun i j small small' same =>
    CharP.natCast_injOn_Iio (ZMod q) q (small.trans large) (small'.trans large) same
  refine ⟨q, prime, large, fun restores => ?_⟩
  have degree : (C 1 : (ZMod q)[X]).degree < ([1] : List Nat).length := by
    rw [degree_C one_ne_zero]
    exact Nat.cast_pos.mpr Nat.one_pos
  have inside : ∀ i ∈ ({1, 2, 65536} : Finset Nat), i < 2 ^ 32 := by decide
  have isChosen : Chosen (ZMod q) 3 65536 {1, 2, 65536} :=
    ⟨by intro i isId; fin_cases isId <;> simp, rfl, fun i isId j isId' same => apart i j (inside i isId) (inside j isId') same⟩
  have cancel := ((restores_iff large (by decide) (by decide) degree (by decide)).mp restores).2.2 _ isChosen
  rw [show 3 - 1 = 2 from rfl, Finset.sum_range_succ, Finset.sum_range_one, Pi.single_eq_of_ne (by decide), zero_mul, zero_add, Pi.single_eq_same,
    one_mul, cutPart, Finset.sum_eq_single 65536] at cancel
  · have factors : ∀ j ∈ ({1, 2, 65536} : Finset Nat).erase 65536, (j : ZMod q) * ((j : ZMod q) - (65536 : Nat))⁻¹ ≠ 0 := by
      intro j isOther
      have small := inside j (Finset.mem_of_mem_erase isOther)
      refine mul_ne_zero (fun zero => ?_) (inv_ne_zero (sub_ne_zero.mpr fun same => ?_))
      · have none := apart j 0 small (by decide) (by simpa using zero)
        rw [none] at isOther
        exact absurd isOther (by decide)
      · exact Finset.ne_of_mem_erase isOther (apart j 65536 small (by decide) same)
    have weight := Finset.prod_ne_zero_iff.mpr factors
    exact weight (by simpa [lagrange] using cancel)
  · intro i isId other
    have short : i ^ (1 + 1) / 2 ^ 32 = 0 := by
      fin_cases isId
      · rfl
      · rfl
      · exact absurd rfl other
    rw [short, Nat.cast_zero, mul_zero]
  · exact fun absent => absurd (by decide) absent

end Ceremony.Feldman
