import Mathlib
import Chip8.Proofs.Runner.Binary64

/-!
# Rounding

What is left of an account of `Float` when a step is taken out of it. Counted in units of the last place of the step,
the account is a natural number, and so is the exact difference. The difference in `Float` is the exact one `rounded`
to 53 bits (`Measures.sub`). Rounding keeps the order (`rounded_mono`), leaves what fits in 53 bits as it is
(`rounded_mul`), and is off by half a unit of the last place at most (`rounded_bounds`).
-/

namespace Chip8.Binary64

open Float.Model Float.Model.UnpackedFloat
open Float.Model.Format (binary64)

/-! ## Bits rounded away -/

/-- A mantissa with its lowest `k` bits shifted out. The highest of them is kept, and of the rest, twice their number
is `low`, whether any was set. -/
def Shifted (q k : Nat) (em : ExtendedMantissa) : Prop :=
  ∃ low < 2 ^ k, 2 * q = (2 * em.mantissa + em.roundBit.toNat) * 2 ^ k + low ∧ (em.stickyBit = true ↔ low ≠ 0)

theorem Shifted.shiftRightOne {q k : Nat} {em : ExtendedMantissa} (h : Shifted q k em) :
    Shifted q (k + 1) em.shiftRightOne := by
  obtain ⟨m, bit, rest⟩ := em
  obtain ⟨low, hlow, hsum, hsticky⟩ := h
  simp only at hsum hsticky
  have hpow : 0 < 2 ^ k := Nat.two_pow_pos k
  have hm : 2 * (m / 2) + (m % 2 != 0).toNat = m := by
    rcases Nat.mod_two_eq_zero_or_one m with h | h <;> rw [h] <;> simp <;> omega
  refine ⟨bit.toNat * 2 ^ k + low, ?_, ?_, ?_⟩
  · rw [Nat.pow_succ]
    cases bit <;> simp <;> omega
  · show 2 * q = (2 * (m / 2) + (m % 2 != 0).toNat) * 2 ^ (k + 1) + (bit.toNat * 2 ^ k + low)
    rw [hm, hsum]
    ring
  · show (bit || rest) = true ↔ _
    cases bit <;> cases rest <;> simp at hsticky ⊢ <;> omega

theorem shifted (q k : Nat) : Shifted q k (ExtendedMantissa.ofMantissaAndAccuracy q .exact >>> k) := by
  induction k with
  | zero =>
    refine ⟨0, Nat.one_pos, ?_, ?_⟩
    · show 2 * q = (2 * q + 0) * 2 ^ 0 + 0
      omega
    · show false = true ↔ 0 ≠ 0
      simp
  | succ k ih => exact ih.shiftRightOne

/-- What is left of a mantissa when its `k` lowest bits are rounded away. -/
def nearest (q k : Nat) : Nat := (ExtendedMantissa.ofMantissaAndAccuracy q .exact >>> k).roundedMantissa

/-- Rounding is off by half a unit at most, and where it goes down by that much, to an even number. -/
theorem nearest_spec (q k : Nat) :
    2 * (nearest q k * 2 ^ k) ≤ 2 * q + 2 ^ k ∧ 2 * q ≤ 2 * (nearest q k * 2 ^ k) + 2 ^ k ∧
      (2 * q = 2 * (nearest q k * 2 ^ k) + 2 ^ k → nearest q k % 2 = 0) := by
  obtain ⟨low, hlow, hsum, hsticky⟩ := shifted q k
  rw [nearest]
  generalize ExtendedMantissa.ofMantissaAndAccuracy q .exact >>> k = em at hsum hsticky ⊢
  obtain ⟨m, bit, rest⟩ := em
  have hexpand : (2 * m + bit.toNat) * 2 ^ k = 2 * (m * 2 ^ k) + bit.toNat * 2 ^ k := by ring
  simp only [hexpand] at hsum
  simp only at hsticky
  cases bit with
  | false =>
    have hr : (ExtendedMantissa.mk m false rest).roundedMantissa = m := by cases rest <;> rfl
    rw [Bool.toNat_false, Nat.zero_mul, Nat.add_zero] at hsum
    rw [hr]
    omega
  | true =>
    rw [Bool.toNat_true, Nat.one_mul] at hsum
    cases rest with
    | false =>
      have hr : (ExtendedMantissa.mk m true false).roundedMantissa = m + m % 2 := rfl
      have hzero : low = 0 := by simpa using hsticky
      rw [hr]
      rcases Nat.mod_two_eq_zero_or_one m with h | h
      · rw [h, Nat.add_zero]
        omega
      · rw [h, Nat.add_one_mul m]
        omega
    | true =>
      have hr : (ExtendedMantissa.mk m true true).roundedMantissa = m + 1 := rfl
      have hpos : low ≠ 0 := by simpa using hsticky
      rw [hr, Nat.add_one_mul m]
      omega

/-- Multiples that are less than a unit apart the wrong way are in order. -/
theorem le_of_mul_lt {a b unit : Nat} (h : a * unit < b * unit + unit) : a ≤ b := by
  rw [← Nat.succ_mul] at h
  exact Nat.le_of_lt_succ (Nat.lt_of_mul_lt_mul_right h)

theorem nearest_mono {a b : Nat} (k : Nat) (h : a ≤ b) : nearest a k ≤ nearest b k := by
  rcases h.eq_or_lt with rfl | hlt
  · exact le_rfl
  obtain ⟨ha, -, -⟩ := nearest_spec a k
  obtain ⟨-, hb, -⟩ := nearest_spec b k
  -- both are off by half a unit at most
  exact le_of_mul_lt (show _ * 2 ^ k < _ * 2 ^ k + 2 ^ k by omega)

/-- Where the bits that are rounded away are zeros, rounding takes nothing else away. -/
theorem nearest_mul (m k : Nat) : nearest (m * 2 ^ k) k = m := by
  obtain ⟨hlo, hhi, -⟩ := nearest_spec (m * 2 ^ k) k
  have hpow : 0 < 2 ^ k := Nat.two_pow_pos k
  apply Nat.le_antisymm
  · exact le_of_mul_lt (show _ * 2 ^ k < _ * 2 ^ k + 2 ^ k by omega)
  · exact le_of_mul_lt (show _ * 2 ^ k < _ * 2 ^ k + 2 ^ k by omega)

/-! ## Rounding to 53 bits -/

/-- A number rounded to 53 bits. -/
def rounded (q : Nat) : Nat := nearest q (q.log2 - 52) * 2 ^ (q.log2 - 52)

/-- For numbers of at most `53 + j` bits, half a unit of the last place is half of `2 ^ j` at most. -/
theorem rounded_bounds {q j : Nat} (hq : q < 2 ^ (53 + j)) :
    2 * rounded q ≤ 2 * q + 2 ^ j ∧ 2 * q ≤ 2 * rounded q + 2 ^ j := by
  obtain ⟨hlo, hhi, -⟩ := nearest_spec q (q.log2 - 52)
  have hlog : q.log2 - 52 ≤ j := by
    rcases Nat.eq_zero_or_pos q with rfl | hpos
    · exact Nat.zero_le j
    · have := (Nat.log2_lt hpos.ne').2 hq
      omega
  have hpow : 2 ^ (q.log2 - 52) ≤ 2 ^ j := Nat.pow_le_pow_right Nat.two_pos hlog
  rw [rounded]
  omega

theorem rounded_of_lt {q : Nat} (hq : q < 2 ^ 53) : rounded q = q := by
  have := rounded_bounds (j := 0) hq
  omega

theorem log2_mul_two_pow {m : Nat} (hm : m ≠ 0) (j : Nat) : (m * 2 ^ j).log2 = m.log2 + j := by
  have hpow : 0 < 2 ^ j := Nat.two_pow_pos j
  rw [Nat.log2_eq_iff (Nat.mul_ne_zero hm hpow.ne'), Nat.add_right_comm, Nat.pow_add, Nat.pow_add]
  exact ⟨Nat.mul_le_mul_right _ (Nat.log2_self_le hm), Nat.mul_lt_mul_of_pos_right Nat.lt_log2_self hpow⟩

/-- What fits in 53 bits stays as it is. -/
theorem rounded_mul {m : Nat} (hm : m.log2 = 52) (j : Nat) : rounded (m * 2 ^ j) = m * 2 ^ j := by
  have hpos : m ≠ 0 := by
    rintro rfl
    cases hm
  have hlog : (m * 2 ^ j).log2 - 52 = j := by
    rw [log2_mul_two_pow hpos, hm, Nat.add_sub_cancel_left]
  rw [rounded, hlog, nearest_mul]

/-- Rounding makes 53 bits of a longer number, or the first number that has 54. -/
theorem nearest_range {q : Nat} (hq : 52 ≤ q.log2) :
    2 ^ 52 ≤ nearest q (q.log2 - 52) ∧ nearest q (q.log2 - 52) ≤ 2 ^ 53 := by
  have hpos : q ≠ 0 := by
    rintro rfl
    cases hq
  obtain ⟨k, hk⟩ := Nat.exists_eq_add_of_le hq
  rw [hk, Nat.add_sub_cancel_left]
  constructor
  · rw [← nearest_mul (2 ^ 52) k, ← Nat.pow_add, ← hk]
    exact nearest_mono k (Nat.log2_self_le hpos)
  · rw [← nearest_mul (2 ^ 53) k, ← Nat.pow_add, Nat.add_right_comm 52 1 k, ← hk]
    exact nearest_mono k Nat.lt_log2_self.le

theorem rounded_range {q : Nat} (hq : 52 ≤ q.log2) : 2 ^ q.log2 ≤ rounded q ∧ rounded q ≤ 2 ^ (q.log2 + 1) := by
  obtain ⟨hlo, hhi⟩ := nearest_range hq
  obtain ⟨k, hk⟩ := Nat.exists_eq_add_of_le hq
  rw [rounded]
  rw [hk, Nat.add_sub_cancel_left] at hlo hhi ⊢
  rw [Nat.add_right_comm 52 k 1, Nat.pow_add, Nat.pow_add]
  exact ⟨Nat.mul_le_mul_right _ hlo, Nat.mul_le_mul_right _ hhi⟩

theorem rounded_mono {a b : Nat} (h : a ≤ b) : rounded a ≤ rounded b := by
  rcases Nat.lt_or_ge b (2 ^ 53) with hb | hb
  · rw [rounded_of_lt hb, rounded_of_lt (h.trans_lt hb)]
    exact h
  have hblog : 53 ≤ b.log2 := (Nat.le_log2 (by omega)).2 hb
  have habove : 2 ^ b.log2 ≤ rounded b := (rounded_range (by omega)).1
  rcases Nat.lt_or_ge a (2 ^ 53) with ha | ha
  · rw [rounded_of_lt ha]
    exact ha.le.trans ((Nat.pow_le_pow_right Nat.two_pos hblog).trans habove)
  have halog : 53 ≤ a.log2 := (Nat.le_log2 (by omega)).2 ha
  have hlog : a.log2 ≤ b.log2 := (Nat.le_log2 (by omega)).2 ((Nat.log2_self_le (by omega)).trans h)
  rcases hlog.eq_or_lt with hlog | hlog
  · rw [rounded, rounded, hlog]
    exact Nat.mul_le_mul_right _ (nearest_mono _ h)
  · -- a power of two stands between numbers that differ in length
    calc rounded a ≤ 2 ^ (a.log2 + 1) := (rounded_range (by omega)).2
      _ ≤ 2 ^ b.log2 := Nat.pow_le_pow_right Nat.two_pos hlog
      _ ≤ rounded b := habove

/-- What is too small to take a number down to the one below it takes it nowhere. -/
theorem le_rounded_sub {n j : Nat} (hn : n ≤ 2 ^ j) : (2 ^ 53 + 4) * 2 ^ j ≤ rounded ((2 ^ 53 + 4) * 2 ^ j - n) := by
  have hpow : 0 < 2 ^ j := Nat.two_pow_pos j
  have hlog : ((2 ^ 53 + 4) * 2 ^ j - n).log2 - 52 = j + 1 := by
    have : ((2 ^ 53 + 4) * 2 ^ j - n).log2 = 53 + j := by
      rw [Nat.log2_eq_iff (by omega), Nat.add_right_comm, Nat.pow_add, Nat.pow_add]
      omega
    omega
  obtain ⟨-, hhi, htie⟩ := nearest_spec ((2 ^ 53 + 4) * 2 ^ j - n) (j + 1)
  rw [rounded, hlog]
  generalize nearest _ (j + 1) = r at hhi htie ⊢
  have hunit : 2 ^ (j + 1) = 2 ^ j * 2 := Nat.pow_succ 2 j
  rw [hunit] at hhi htie ⊢
  generalize 2 ^ j = unit at hn hpow hhi htie ⊢
  by_contra hlt
  have hr : r ≤ 2 ^ 52 + 1 := le_of_mul_lt (show r * (unit * 2) < _ * (unit * 2) + unit * 2 by omega)
  rcases hr.lt_or_eq with hlow | rfl
  · have hle : r * (unit * 2) ≤ 2 ^ 52 * (unit * 2) := Nat.mul_le_mul_right _ (Nat.le_of_lt_succ hlow)
    omega
  · -- half way down to this number, rounding goes up, since it is odd
    have hodd := htie (by omega)
    omega

/-! ## The difference -/

/-- The number that a `Float` stands for, or zero where it stands for none. -/
def magnitude : UnpackedFloat → ℚ
  | .finite s m e _ => (s.apply m : Int) * 2 ^ e
  | _ => 0

theorem magnitude_finite {m : Nat} {e : Int} (hm : 0 < m) : magnitude (.finite .positive m e hm) = m * 2 ^ e := rfl

/-- Rounding may add one bit, which is a zero that the second shift takes back. -/
theorem magnitude_shift {r : Nat} {e : Int} (hlo : 2 ^ 52 ≤ r) (hhi : r ≤ 2 ^ 53) (he : -1074 ≤ e) :
    ∃ em f, shiftToTargetExponent binary64 r e .exact = (em, f) ∧ em.mantissa ≠ 0 ∧
      (em.mantissa * 2 ^ f : ℚ) = r * 2 ^ e := by
  have hlog : 52 ≤ r.log2 := (Nat.le_log2 (by omega)).2 hlo
  have hmantissa : (ExtendedMantissa.ofMantissaAndAccuracy r .exact >>> (r.log2 - 52)).mantissa =
      r / 2 ^ (r.log2 - 52) := mantissa_shiftRight _ _
  refine ⟨_, _, shiftToTargetExponent_of_log2 .exact hlog he, ?_⟩
  rw [hmantissa]
  rcases hhi.lt_or_eq with hlt | rfl
  · have hfull : r.log2 = 52 := (Nat.log2_eq_iff (by omega)).2 ⟨hlo, hlt⟩
    rw [hfull, Nat.sub_self, Nat.pow_zero, Nat.div_one]
    exact ⟨by omega, by simp⟩
  · have hhalf : 2 ^ 53 / 2 ^ ((2 ^ 53).log2 - 52) = 2 ^ 52 := by
      rw [Nat.log2_two_pow]
      rfl
    have hexp : e + ((2 ^ 53).log2 : Nat) - 52 = e + 1 := by
      rw [Nat.log2_two_pow]
      omega
    rw [hhalf, hexp, zpow_add_one₀ two_ne_zero]
    refine ⟨by decide, ?_⟩
    push_cast
    ring

theorem magnitude_roundWithAccuracy {q : Nat} {e : Int} (hq : 52 ≤ q.log2) (he : -1074 ≤ e) :
    magnitude (roundWithAccuracy binary64 .positive q e .exact) = rounded q * 2 ^ e := by
  obtain ⟨hlo, hhi⟩ := nearest_range hq
  obtain ⟨em, f, hsecond, hpos, hvalue⟩ :=
    magnitude_shift hlo hhi (show -1074 ≤ e + q.log2 - 52 by omega)
  rw [nearest] at hsecond
  simp only [roundWithAccuracy, shiftToTargetExponent_of_log2 .exact hq he, hsecond, dif_neg hpos]
  rw [magnitude_finite, hvalue, rounded, Nat.cast_mul, mul_assoc, Nat.cast_pow, ← zpow_natCast, Nat.cast_ofNat,
    ← zpow_add₀ two_ne_zero]
  congr 2
  omega

/-- Bits to spare are filled with zeros, which rounding does not see. -/
theorem rounded_fill {q : Nat} (hq : q ≠ 0) : rounded (q * 2 ^ (52 - q.log2)) = rounded q * 2 ^ (52 - q.log2) := by
  rcases Nat.lt_or_ge q (2 ^ 53) with hlt | hge
  · have hshort : q.log2 < 53 := (Nat.log2_lt hq).2 hlt
    have hfits : q * 2 ^ (52 - q.log2) < 2 ^ 53 := by
      rw [← Nat.log2_lt (Nat.mul_ne_zero hq (Nat.two_pow_pos _).ne'), log2_mul_two_pow hq]
      omega
    rw [rounded_of_lt hlt, rounded_of_lt hfits]
  · have hlong : 53 ≤ q.log2 := (Nat.le_log2 hq).2 hge
    rw [Nat.sub_eq_zero_of_le (by omega), Nat.pow_zero, Nat.mul_one, Nat.mul_one]

/-- Whatever its length, a number is rounded to a full mantissa. -/
theorem full_round {q : Nat} {e : Int} (hq : q ≠ 0) (he : -1022 ≤ e) :
    ∃ hi, Full (-1074) hi (UnpackedFloat.round binary64 .positive q e) ∧
      magnitude (UnpackedFloat.round binary64 .positive q e) = rounded q * 2 ^ e := by
  have htarget : binary64.targetExponent (totalExponent q e) = e + q.log2 - 52 := by
    simp only [Format.targetExponent, totalExponent, Format.mantissaBits, Format.minExponent]
    omega
  have hshift : (e - (e + q.log2 - 52)).toNat = 52 - q.log2 := by omega
  have hround : UnpackedFloat.round binary64 .positive q e =
      roundWithAccuracy binary64 .positive (q * 2 ^ (52 - q.log2)) (e - (52 - q.log2 : Nat)) .exact := by
    simp only [UnpackedFloat.round, decreaseExponent, htarget, hshift, Nat.shiftLeft_eq]
  have hlog : (q * 2 ^ (52 - q.log2)).log2 = q.log2 + (52 - q.log2) := log2_mul_two_pow hq _
  have hexp : e = (52 - q.log2 : Nat) + (e - (52 - q.log2 : Nat)) := by omega
  rw [hround]
  refine ⟨_, (full_roundWithAccuracy .exact (by omega) (by omega)).mono (by omega) le_rfl, ?_⟩
  rw [magnitude_roundWithAccuracy (by omega) (by omega), rounded_fill hq, Nat.cast_mul, Nat.cast_pow, Nat.cast_ofNat,
    ← zpow_natCast, mul_assoc, ← zpow_add₀ two_ne_zero, ← hexp]

/-- A mantissa has 53 bits at most, and an exponent leaves its greatest value to infinity. -/
theorem bounds_of_unpack {x : Float.Model} {s : Sign} {m : Nat} {e : Int} {hm : 0 < m}
    (h : x.unpack = .finite s m e hm) : m < 2 ^ 53 ∧ e ≤ 971 := by
  have hmantissa := (@unpackMantissa binary64 x.toBits.toBitVec).isLt
  have hexponent := (@unpackExponent binary64 x.toBits.toBitVec).isLt
  change _ < 2 ^ 52 at hmantissa
  change _ < 2 ^ 11 at hexponent
  unfold Float.Model.unpack UnpackedFloat.unpack at h
  simp only at h
  split at h
  · split at h <;> cases h
  · rename_i hones
    -- exponent bits that are all ones are left to infinity
    have hfinite : (@unpackExponent binary64 x.toBits.toBitVec).toNat ≠ 2047 := by
      intro heq
      apply hones
      apply BitVec.eq_of_toNat_eq
      exact heq
    split at h
    · rename_i hzero
      split at h
      · cases h
      · obtain ⟨-, rfl, rfl⟩ := UnpackedFloat.finite.inj h
        rw [hzero]
        exact ⟨by omega, by decide⟩
    · obtain ⟨-, rfl, rfl⟩ := UnpackedFloat.finite.inj h
      refine ⟨?_, ?_⟩
      · rw [BitVec.toNat_append, ← Nat.shiftLeft_add_eq_or_of_lt hmantissa, Nat.shiftLeft_eq]
        show 1 * 2 ^ 52 + _ < 2 ^ 53
        omega
      · show ((@unpackExponent binary64 x.toBits.toBitVec).toNat : Int) - ((1023 : Nat) + (52 : Nat)) ≤ 971
        omega

/-- A mantissa of at most 53 bits makes up less than a full one with a greater exponent. -/
theorem mantissa_lt_full {m n : Nat} {e f : Int} (hm : m < 2 ^ 53) (hn : 2 ^ 52 ≤ n) (hef : e < f) :
    (m * 2 ^ e : ℚ) < n * 2 ^ f :=
  calc (m * 2 ^ e : ℚ) < 2 ^ 53 * 2 ^ e := mul_lt_mul_of_pos_right (by exact_mod_cast hm) (zpow_pos two_pos e)
    _ = 2 ^ 52 * 2 ^ (e + 1) := by
      rw [zpow_add_one₀ two_ne_zero]
      ring
    _ ≤ 2 ^ 52 * 2 ^ f := mul_le_mul_of_nonneg_left (zpow_le_zpow_right₀ one_le_two hef) (by positivity)
    _ ≤ n * 2 ^ f := mul_le_mul_of_nonneg_right (by exact_mod_cast hn) (by positivity)

/-- A full number that is no more than another one has no greater exponent. -/
theorem Full.le_exponent {u : UnpackedFloat} {lo hi e : Int} {m : Nat} (h : Full lo hi u) (hm : m < 2 ^ 53)
    (hle : magnitude u ≤ m * 2 ^ e) : Full lo e u := by
  obtain ⟨n, f, hn, rfl, hlog, hlo, -⟩ := h
  refine ⟨n, f, hn, rfl, hlog, hlo, ?_⟩
  by_contra hlt
  have hfull : 2 ^ 52 ≤ n := ((Nat.log2_eq_iff hn.ne').1 hlog).1
  exact absurd hle (not_le.2 (mantissa_lt_full hm hfull (not_le.1 hlt)))

theorem unpack_pack_infinity (s : Sign) : (Float.Model.pack (.infinity s)).unpack = .infinity s := by
  show UnpackedFloat.unpack binary64 (packComponents binary64 s (-1#11) 0#52) = _
  simp only [UnpackedFloat.unpack, unpackExponent_packComponents, unpackMantissa_packComponents,
    unpackSign_packComponents, Sign.ofBitVec_toBitVec]
  rfl

theorem unpack_pack_zero (s : Sign) : (Float.Model.pack (.zero s)).unpack = .zero s := by
  show UnpackedFloat.unpack binary64 (packComponents binary64 s 0#11 0#52) = _
  simp only [UnpackedFloat.unpack, unpackExponent_packComponents, unpackMantissa_packComponents,
    unpackSign_packComponents, Sign.ofBitVec_toBitVec]
  rfl

/-- Packing what has been rounded loses nothing, if its exponent fits. -/
theorem unpack_pack_normalize {q m : Nat} {e f : Int} (hf : -1022 ≤ f) (he : e ≤ 971) (hm : m < 2 ^ 53)
    (hle : (rounded q * 2 ^ f : ℚ) ≤ m * 2 ^ e) :
    (Float.Model.pack (UnpackedFloat.normalize binary64 q f .positive)).unpack.isFinite = true ∧
      magnitude (Float.Model.pack (UnpackedFloat.normalize binary64 q f .positive)).unpack = rounded q * 2 ^ f := by
  rcases Nat.eq_zero_or_pos q with rfl | hpos
  · have hzero : UnpackedFloat.normalize binary64 (0 : Nat) f .positive = .zero .positive := rfl
    rw [hzero, unpack_pack_zero, rounded_of_lt (by decide), Nat.cast_zero, zero_mul]
    exact ⟨rfl, rfl⟩
  · have hround : UnpackedFloat.normalize binary64 q f .positive = UnpackedFloat.round binary64 .positive q f := by
      rw [UnpackedFloat.normalize, compare_gt_iff_gt.2 (Int.natCast_pos.2 hpos), Int.toNat_natCast]
    obtain ⟨hi, hfull, hmagnitude⟩ := full_round hpos.ne' hf
    rw [← hmagnitude] at hle
    rw [hround, (hfull.le_exponent hm hle).unpack_pack le_rfl he]
    exact ⟨hfull.isFinite, hmagnitude⟩

/-! ## Accounts and steps -/

/-- The number that `x` is, or zero if it is none or infinite. -/
def value (x : Float) : ℚ := magnitude x.toModel.unpack

/-- `x` is no less than `q`, which infinity is for every `q`. -/
def AtLeast (x : Float) (q : ℚ) : Prop :=
  x.toModel.unpack = .infinity .positive ∨ x.toModel.unpack.isFinite = true ∧ q ≤ value x

/-- `x` is a number that is not negative, and `a` of the units `2 ^ f`. -/
structure Measures (f : Int) (x : Float) (a : Nat) : Prop where
  isFinite : x.toModel.unpack.isFinite = true
  value_eq : value x = a * 2 ^ f

/-- `x` is no less than `b` of the units `2 ^ f`. -/
def Covers (f : Int) (x : Float) (b : Nat) : Prop :=
  x.toModel.unpack = .infinity .positive ∨ ∃ a, Measures f x a ∧ b ≤ a

/-- `s` is `n` units of its last place, in the range of exponents in which mantissas are full. -/
structure Normal (s : Float) (n : Nat) (f : Int) : Prop where
  pos : 0 < n
  unpack : s.toModel.unpack = .finite .positive n f pos
  log2 : n.log2 = 52
  le : -1022 ≤ f

section Account

variable {x s : Float} {a n : Nat} {f : Int}

theorem two_zpow_add (f : Int) (j : Nat) : (2 ^ (f + j) : ℚ) = 2 ^ j * 2 ^ f := by
  rw [zpow_add₀ two_ne_zero, zpow_natCast, mul_comm]

/-- Only numbers above zero are more than zero. -/
theorem unpack_of_value_pos (h : 0 < value x) :
    ∃ m e hm, x.toModel.unpack = .finite .positive m e hm ∧ value x = m * 2 ^ e := by
  rw [value] at h ⊢
  cases hx : x.toModel.unpack with
  | notANumber | infinity t | zero t =>
    rw [hx] at h
    exact absurd h (lt_irrefl 0)
  | finite t m e hm =>
    cases t with
    | positive => exact ⟨m, e, hm, rfl, rfl⟩
    | negative =>
      rw [hx] at h
      have hneg : (0 : ℚ) < -(m * 2 ^ e) := by simpa [magnitude, Sign.apply] using h
      have hnonneg : (0 : ℚ) ≤ m * 2 ^ e := by positivity
      linarith

theorem measures_of_unpack {m j : Nat} {hm : 0 < m} (hx : x.toModel.unpack = .finite .positive m (f + j) hm) :
    Measures f x (m * 2 ^ j) := by
  refine ⟨by rw [hx]; rfl, ?_⟩
  rw [value, hx, magnitude_finite, two_zpow_add, ← mul_assoc, Nat.cast_mul, Nat.cast_pow, Nat.cast_ofNat]

theorem Measures.unique {b : Nat} (ha : Measures f x a) (hb : Measures f x b) : a = b := by
  have h := ha.value_eq.symm.trans hb.value_eq
  exact_mod_cast mul_right_cancel₀ (zpow_ne_zero f two_ne_zero) h

/-- What is worth a full number of units or more is a mantissa and a number of bits behind it. -/
theorem unpack_of_le_value {b : Nat} (hb : 2 ^ 52 ≤ b) (h : b * 2 ^ f ≤ value x) :
    ∃ (m j : Nat) (hm : 0 < m), x.toModel.unpack = .finite .positive m (f + j) hm := by
  have hunits : (0 : ℚ) < b * 2 ^ f := mul_pos (by exact_mod_cast (by omega : 0 < b)) (zpow_pos two_pos f)
  obtain ⟨m, e, hm, hx, hvalue⟩ := unpack_of_value_pos (hunits.trans_le h)
  have hfe : f ≤ e := by
    by_contra hlt
    rw [hvalue] at h
    exact absurd h (not_le.2 (mantissa_lt_full (bounds_of_unpack hx).1 hb (not_le.1 hlt)))
  obtain ⟨j, rfl⟩ : ∃ j : Nat, e = f + j := ⟨(e - f).toNat, by omega⟩
  exact ⟨m, j, hm, hx⟩

/-- In the range of full mantissas, this mantissa has all its bits. -/
theorem Measures.exists_full (h : Measures f x a) (hf : -1022 ≤ f) (ha : 2 ^ 52 ≤ a) :
    ∃ (m j : Nat) (hm : 0 < m), x.toModel.unpack = .finite .positive m (f + j) hm ∧ m.log2 = 52 ∧ a = m * 2 ^ j ∧
      f + j ≤ 971 := by
  obtain ⟨m, j, hm, hx⟩ := unpack_of_le_value ha h.value_eq.ge
  exact ⟨m, j, hm, hx, log2_of_unpack hx (by omega), h.unique (measures_of_unpack hx), (bounds_of_unpack hx).2⟩

theorem Normal.bounds (hs : Normal s n f) : 2 ^ 52 ≤ n ∧ n < 2 ^ 53 := (Nat.log2_eq_iff hs.pos.ne').1 hs.log2

/-- A number covers a step if it is infinite, or if it stands behind the step in the order of exponents and
mantissas. -/
theorem Normal.le_iff_unpack (hs : Normal s n f) :
    s ≤ x ↔ x.toModel.unpack = .infinity .positive ∨
      ∃ m e hm, x.toModel.unpack = .finite .positive m e hm ∧ (f < e ∨ f = e ∧ n ≤ m) := by
  rw [Binary64.le_iff]
  show s.toModel.unpack.isNaN = false ∧ x.toModel.unpack.isNaN = false ∧
    place s.toModel.unpack ≤ place x.toModel.unpack ↔ _
  rw [hs.unpack]
  cases x.toModel.unpack with
  | notANumber => simp [UnpackedFloat.isNaN]
  | infinity t => cases t <;> simp [UnpackedFloat.isNaN, place, Prod.Lex.toLex_le_toLex]
  | zero t => simp [place, Prod.Lex.toLex_le_toLex]
  | finite t m e hm => cases t <;> simp [UnpackedFloat.isNaN, place, Prod.Lex.toLex_le_toLex, hm]

/-- A number covers a step if it is no fewer units than the step is. -/
theorem Normal.le_iff (hs : Normal s n f) (hx : Measures f x a) : s ≤ x ↔ n ≤ a := by
  obtain ⟨hnlo, hnhi⟩ := hs.bounds
  rw [hs.le_iff_unpack]
  constructor
  · rintro (hinf | ⟨m, e, hm, hfinite, horder⟩)
    · have hfinite := hx.isFinite
      rw [hinf] at hfinite
      cases hfinite
    · obtain ⟨j, rfl⟩ : ∃ j : Nat, e = f + j := ⟨(e - f).toNat, by omega⟩
      have hlog : m.log2 = 52 := log2_of_unpack hfinite (by have := hs.le; omega)
      have hfull : 2 ^ 52 ≤ m := ((Nat.log2_eq_iff hm.ne').1 hlog).1
      obtain rfl := hx.unique (measures_of_unpack hfinite)
      rcases horder with hlt | ⟨heq, hle⟩
      · have htwo : 2 ^ 1 ≤ 2 ^ j := Nat.pow_le_pow_right Nat.two_pos (by omega)
        calc n ≤ 2 ^ 52 * 2 ^ 1 := hnhi.le
          _ ≤ m * 2 ^ j := Nat.mul_le_mul hfull htwo
      · exact hle.trans (Nat.le_mul_of_pos_right m (Nat.two_pow_pos j))
  · intro hle
    obtain ⟨m, j, hm, hfinite, -, rfl, -⟩ := hx.exists_full hs.le (hnlo.trans hle)
    refine .inr ⟨m, f + j, hm, hfinite, ?_⟩
    rcases Nat.eq_zero_or_pos j with rfl | hj
    · exact .inr ⟨by omega, by omega⟩
    · exact .inl (by omega)

/-- What covers a step is infinite, or so many units. -/
theorem Normal.cases_of_le (hs : Normal s n f) (h : s ≤ x) :
    x.toModel.unpack = .infinity .positive ∨ ∃ a, Measures f x a := by
  rcases hs.le_iff_unpack.1 h with hinf | ⟨m, e, hm, hfinite, horder⟩
  · exact .inl hinf
  · obtain ⟨j, rfl⟩ : ∃ j : Nat, e = f + j := ⟨(e - f).toNat, by omega⟩
    exact .inr ⟨_, measures_of_unpack hfinite⟩

/-- What is left when a step is taken out is the exact difference, rounded. -/
theorem Normal.sub (hs : Normal s n f) (hx : Measures f x a) (hle : n ≤ a) : Measures f (x - s) (rounded (a - n)) := by
  obtain ⟨m, j, hm, hfinite, hlog, rfl, hexp⟩ := hx.exists_full hs.le (hs.bounds.1.trans hle)
  have hexact : UnpackedFloat.sub binary64 x.toModel.unpack s.toModel.unpack =
      UnpackedFloat.normalize binary64 (m * 2 ^ j - n : Nat) f .positive := by
    rw [hfinite, hs.unpack, Int.ofNat_sub hle]
    simp [UnpackedFloat.sub, decreaseExponent, Nat.shiftLeft_eq, Sign.apply]
  -- the account is representable, so that rounding does not get past it
  have hless : rounded (m * 2 ^ j - n) ≤ m * 2 ^ j :=
    calc rounded (m * 2 ^ j - n) ≤ rounded (m * 2 ^ j) := rounded_mono (Nat.sub_le _ _)
      _ = m * 2 ^ j := rounded_mul hlog j
  have hvalue : (rounded (m * 2 ^ j - n) * 2 ^ f : ℚ) ≤ m * 2 ^ (f + j) := by
    rw [two_zpow_add, ← mul_assoc]
    apply mul_le_mul_of_nonneg_right _ (zpow_pos two_pos f).le
    exact_mod_cast hless
  have hbits : m < 2 ^ 53 := ((Nat.log2_eq_iff hm.ne').1 hlog).2
  have hpacked := unpack_pack_normalize hs.le hexp hbits hvalue
  rw [← hexact] at hpacked
  exact ⟨hpacked.1, hpacked.2⟩

/-- Infinity covers every step and is not used up. -/
theorem Normal.sub_infinity (hs : Normal s n f) (hx : x.toModel.unpack = .infinity .positive) :
    (x - s).toModel.unpack = .infinity .positive := by
  show (Float.Model.pack (UnpackedFloat.sub binary64 x.toModel.unpack s.toModel.unpack)).unpack = _
  rw [hx, hs.unpack]
  exact unpack_pack_infinity .positive

theorem Normal.value_eq (hs : Normal s n f) : value s = n * 2 ^ f := by rw [value, hs.unpack, magnitude_finite]

/-- A full mantissa lies between two powers of two. -/
theorem Normal.exists_power (hs : Normal s n f) :
    ∃ j : Nat, n ≤ 2 ^ j ∧ 2 ^ j < 2 * n ∧ value s ≤ 2 ^ (f + j) ∧ 2 ^ (f + j) < 2 * value s := by
  have hunit : (0 : ℚ) < 2 ^ f := zpow_pos two_pos f
  obtain ⟨j, hlo, hhi⟩ : ∃ j : Nat, n ≤ 2 ^ j ∧ 2 ^ j < 2 * n := by
    obtain ⟨hlo, hhi⟩ := hs.bounds
    rcases hlo.eq_or_lt with heq | hlt
    · exact ⟨52, by omega, by omega⟩
    · exact ⟨53, by omega, by omega⟩
  refine ⟨j, hlo, hhi, ?_, ?_⟩
  · rw [hs.value_eq, two_zpow_add]
    exact mul_le_mul_of_nonneg_right (by exact_mod_cast hlo) hunit.le
  · rw [hs.value_eq, two_zpow_add, ← mul_assoc]
    exact mul_lt_mul_of_pos_right (by exact_mod_cast hhi) hunit

theorem AtLeast.mono {p q : ℚ} (h : AtLeast x q) (hle : p ≤ q) : AtLeast x p := by
  rcases h with hinf | ⟨hfinite, hvalue⟩
  · exact .inl hinf
  · exact .inr ⟨hfinite, hle.trans hvalue⟩

theorem atLeast_iff_of_unpack {m : Nat} {e : Int} {hm : 0 < m} (hx : x.toModel.unpack = .finite .positive m e hm)
    (q : ℚ) : AtLeast x q ↔ q ≤ m * 2 ^ e := by
  rw [AtLeast, value, hx, magnitude_finite]
  simp [UnpackedFloat.isFinite]

theorem Covers.mono {b c : Nat} (h : Covers f x b) (hle : c ≤ b) : Covers f x c := by
  rcases h with hinf | ⟨a, ha, hba⟩
  · exact .inl hinf
  · exact .inr ⟨a, ha, hle.trans hba⟩

theorem Normal.le_of_covers (hs : Normal s n f) (h : Covers f x n) : s ≤ x := by
  rcases h with hinf | ⟨a, ha, hle⟩
  · exact hs.le_iff_unpack.2 (.inl hinf)
  · exact (hs.le_iff ha).2 hle

/-- Taking out a step leaves no less of more. -/
theorem Normal.covers_sub (hs : Normal s n f) {b : Nat} (h : Covers f x b) (hle : n ≤ b) :
    Covers f (x - s) (rounded (b - n)) := by
  rcases h with hinf | ⟨a, ha, hba⟩
  · exact .inl (hs.sub_infinity hinf)
  · exact .inr ⟨_, hs.sub ha (hle.trans hba), rounded_mono (Nat.sub_le_sub_right hba n)⟩

theorem covers_of_atLeast {b : Nat} (hb : 2 ^ 52 ≤ b) (h : AtLeast x (b * 2 ^ f)) : Covers f x b := by
  rcases h with hinf | ⟨-, hvalue⟩
  · exact .inl hinf
  obtain ⟨m, j, hm, hx⟩ := unpack_of_le_value hb hvalue
  have hmeasures := measures_of_unpack hx
  rw [hmeasures.value_eq] at hvalue
  exact .inr ⟨_, hmeasures, by exact_mod_cast le_of_mul_le_mul_right hvalue (zpow_pos two_pos f)⟩

theorem Measures.lt_of_not_atLeast (h : Measures f x a) {q : ℚ} (hx : ¬AtLeast x q) : a * 2 ^ f < q := by
  rw [← h.value_eq]
  by_contra hle
  exact hx (.inr ⟨h.isFinite, not_lt.1 hle⟩)

end Account

end Chip8.Binary64
