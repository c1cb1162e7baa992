import Mathlib

/-!
# Binary64 numbers

What the pace of a runner rests on in the arithmetic of `Float`. The numbers that are numbers stand in one line
(`rank`), and the comparisons of `Float` are those of their places in it (`lt_iff`, `le_iff`). A quotient of two
positive numbers whose mantissas have all their bits is again such a number, unless the exponents are far apart
(`full_div`), and packing it loses nothing (`Full.unpack_pack`).
-/

namespace Chip8.Binary64

open Float.Model Float.Model.UnpackedFloat
open Float.Model.Format (binary64)

/-! ## The order -/

theorem compare_neg (a b : Int) : compare (-a) (-b) = (compare a b).swap := by
  rcases lt_trichotomy a b with h | rfl | h
  · rw [compare_lt_iff_lt.2 h, compare_gt_iff_gt.2 (Int.neg_lt_neg h), Ordering.swap]
  · rw [compare_eq_iff_eq.2 rfl, compare_eq_iff_eq.2 rfl, Ordering.swap]
  · rw [compare_gt_iff_gt.2 h, compare_lt_iff_lt.2 (Int.neg_lt_neg h), Ordering.swap]

theorem compare_natCast (m n : Nat) : compare (m : Int) n = compare m n := by
  rcases lt_trichotomy m n with h | rfl | h
  · rw [compare_lt_iff_lt.2 h, compare_lt_iff_lt.2 (Int.ofNat_lt.2 h)]
  · rw [compare_eq_iff_eq.2 rfl, compare_eq_iff_eq.2 rfl]
  · rw [compare_gt_iff_gt.2 h, compare_gt_iff_gt.2 (Int.ofNat_lt.2 h)]

/-- The place of a number among the others: by sign and infinity first, then by exponent, then by mantissa.
What is no number has a place as well, which no comparison looks at. -/
def place : UnpackedFloat → Int ×ₗ Int ×ₗ Int
  | .infinity .negative => toLex (-2, toLex (0, 0))
  | .finite .negative m e _ => toLex (-1, toLex (-e, -m))
  | .zero _ => toLex (0, toLex (0, 0))
  | .finite .positive m e _ => toLex (1, toLex (e, m))
  | .infinity .positive => toLex (2, toLex (0, 0))
  | .notANumber => toLex (0, toLex (0, 0))

theorem compare_toLex (a a' b b' c c' : Int) :
    compare (toLex (a, toLex (b, c))) (toLex (a', toLex (b', c'))) =
      (compare a a').then ((compare b b').then (compare c c')) := rfl

theorem compare_eq_some {u v : UnpackedFloat} (hu : u.isNaN = false) (hv : v.isNaN = false) :
    u.compare v = some (compare (place u) (place v)) := by
  cases u with
  | notANumber => cases hu
  | infinity s =>
    cases v with
    | notANumber => cases hv
    | infinity t | zero t | finite t => cases s <;> cases t <;> rfl
  | zero s =>
    cases v with
    | notANumber => cases hv
    | infinity t | zero t | finite t => cases t <;> rfl
  | finite s m e =>
    cases v with
    | notANumber => cases hv
    | infinity t | zero t => cases s <;> cases t <;> rfl
    | finite t n f =>
      cases s <;> cases t
      case negative.positive | positive.negative => rfl
      case negative.negative =>
        simp only [UnpackedFloat.compare, place, compare_toLex, compare_neg, Ordering.swap_then, compare_natCast]
        rfl
      case positive.positive =>
        simp only [UnpackedFloat.compare, place, compare_toLex, compare_natCast]
        rfl

theorem compare_eq_none {u v : UnpackedFloat} (h : u.isNaN = true ∨ v.isNaN = true) : u.compare v = none := by
  rcases u with _ | _ | _ | _ <;> rcases v with _ | _ | _ | _ <;> first | rfl | simp [UnpackedFloat.isNaN] at h

section Order

variable {x y : Float}

def rank (x : Float) : Int ×ₗ Int ×ₗ Int := place x.toModel.unpack

theorem compare_eq_some_iff {o : Ordering} :
    x.toModel.unpack.compare y.toModel.unpack = some o ↔
      x.isNaN = false ∧ y.isNaN = false ∧ compare (rank x) (rank y) = o := by
  show _ ↔ x.toModel.unpack.isNaN = false ∧ y.toModel.unpack.isNaN = false ∧ _
  cases hx : x.toModel.unpack.isNaN with
  | true => simp [compare_eq_none (.inl hx)]
  | false =>
    cases hy : y.toModel.unpack.isNaN with
    | true => simp [compare_eq_none (.inr hy)]
    | false => simp [compare_eq_some hx hy, rank]

theorem lt_iff : x < y ↔ x.isNaN = false ∧ y.isNaN = false ∧ rank x < rank y := by
  have hlt : x < y ↔ x.toModel.unpack.compare y.toModel.unpack = some .lt := by
    show decide (UnpackedFloat.lt _ _ = true) = true ↔ _
    rw [decide_eq_true_iff, UnpackedFloat.lt, beq_iff_eq]
  rw [hlt, compare_eq_some_iff, compare_lt_iff_lt]

theorem le_iff : x ≤ y ↔ x.isNaN = false ∧ y.isNaN = false ∧ rank x ≤ rank y := by
  have hle : x ≤ y ↔ ∃ o, x.toModel.unpack.compare y.toModel.unpack = some o ∧ o.isLE := by
    show decide (UnpackedFloat.le _ _ = true) = true ↔ _
    rw [decide_eq_true_iff, UnpackedFloat.le, Option.any_eq_true]
  rw [hle]
  constructor
  · rintro ⟨o, ho, hisLE⟩
    obtain ⟨hx, hy, rfl⟩ := compare_eq_some_iff.1 ho
    exact ⟨hx, hy, compare_le_iff_le.1 (Ordering.ne_gt_iff_isLE.2 hisLE)⟩
  · rintro ⟨hx, hy, h⟩
    exact ⟨_, compare_eq_some_iff.2 ⟨hx, hy, rfl⟩, Ordering.ne_gt_iff_isLE.1 (compare_le_iff_le.2 h)⟩

end Order

/-! ## Full mantissas -/

/-- A positive number whose mantissa has all its 53 bits, with the bounds of its exponent. -/
def Full (lo hi : Int) (u : UnpackedFloat) : Prop :=
  ∃ (m : Nat) (e : Int) (hm : 0 < m), u = .finite .positive m e hm ∧ m.log2 = 52 ∧ lo ≤ e ∧ e ≤ hi

section Full

variable {lo hi : Int} {u : UnpackedFloat}

theorem Full.mono {lo' hi' : Int} (h : Full lo hi u) (hlo : lo' ≤ lo) (hhi : hi ≤ hi') : Full lo' hi' u := by
  obtain ⟨m, e, hm, hu, hlog, hle, hge⟩ := h
  exact ⟨m, e, hm, hu, hlog, hlo.trans hle, hge.trans hhi⟩

theorem Full.isNaN (h : Full lo hi u) : u.isNaN = false := by
  obtain ⟨m, e, hm, rfl, -⟩ := h
  rfl

theorem Full.isFinite (h : Full lo hi u) : u.isFinite = true := by
  obtain ⟨m, e, hm, rfl, -⟩ := h
  rfl

theorem Full.pos {x : Float} (h : Full lo hi x.toModel.unpack) : 0 < x := by
  refine lt_iff.2 ⟨rfl, h.isNaN, ?_⟩
  obtain ⟨m, e, hm, hu, -⟩ := h
  have hzero : rank 0 = toLex (0, toLex (0, 0)) := rfl
  rw [hzero, rank, hu, place, Prod.Lex.toLex_lt_toLex]
  exact .inl Int.zero_lt_one

end Full

/-- The implicit bit of a full mantissa is put back in front of the other bits. -/
theorem toNat_append_ofNat {m : Nat} (hm : m ≠ 0) (h : m.log2 = 52) : (1#1 ++ BitVec.ofNat 52 m).toNat = m := by
  obtain ⟨hlo, hhi⟩ := (Nat.log2_eq_iff hm).1 h
  rw [BitVec.toNat_append, ← Nat.shiftLeft_add_eq_or_of_lt (BitVec.isLt _), BitVec.toNat_ofNat, Nat.shiftLeft_eq]
  show 1 * 2 ^ 52 + m % 2 ^ 52 = m
  omega

/-- A mantissa is full unless the exponent is the least there is. -/
theorem log2_of_unpack {x : Float.Model} {s : Sign} {m : Nat} {e : Int} {hm : 0 < m}
    (h : x.unpack = .finite s m e hm) (he : -1074 < e) : m.log2 = 52 := by
  unfold Float.Model.unpack UnpackedFloat.unpack at h
  simp only at h
  split at h
  · split at h <;> cases h
  · split at h
    -- without exponent bits the number is zero, or has the least exponent
    · rename_i hzero
      split at h
      · cases h
      · obtain ⟨-, -, rfl⟩ := UnpackedFloat.finite.inj h
        rw [hzero] at he
        exact absurd he (by decide)
    -- with exponent bits the implicit bit is the 53rd
    · obtain ⟨-, rfl, -⟩ := UnpackedFloat.finite.inj h
      have hlt := (@unpackMantissa binary64 x.toBits.toBitVec).isLt
      rw [Nat.log2_eq_iff hm.ne', BitVec.toNat_append, ← Nat.shiftLeft_add_eq_or_of_lt hlt, Nat.shiftLeft_eq]
      show 2 ^ 52 ≤ 1 * 2 ^ 52 + _ ∧ 1 * 2 ^ 52 + _ < 2 ^ 53
      change _ < 2 ^ 52 at hlt
      omega

/-- What lies between two numbers with full mantissas has a full mantissa. -/
theorem full_of_le {x y z : Float} {a b c d : Int} (hx : Full a b x.toModel.unpack) (hz : Full c d z.toModel.unpack)
    (ha : -1074 < a) (hxy : x ≤ y) (hyz : y ≤ z) : Full a d y.toModel.unpack := by
  obtain ⟨-, hnan, hlo⟩ := le_iff.1 hxy
  obtain ⟨-, -, hhi⟩ := le_iff.1 hyz
  change y.toModel.unpack.isNaN = false at hnan
  obtain ⟨m, e, hm, hu, -, hae, -⟩ := hx
  obtain ⟨n, f, hn, hw, -, -, hfd⟩ := hz
  rw [rank, rank, hu] at hlo
  rw [rank, rank, hw] at hhi
  cases hy : y.toModel.unpack with
  | notANumber =>
    rw [hy] at hnan
    cases hnan
  | infinity s =>
    rw [hy] at hlo hhi
    cases s <;> simp [place, Prod.Lex.toLex_le_toLex] at hlo hhi
  | zero s =>
    rw [hy] at hlo
    simp [place, Prod.Lex.toLex_le_toLex] at hlo
  | finite s k g hk =>
    rw [hy] at hlo hhi
    cases s <;> simp [place, Prod.Lex.toLex_le_toLex] at hlo hhi
    exact ⟨k, g, hk, rfl, log2_of_unpack hy (by omega), by omega, by omega⟩

/-! ## The quotient -/

theorem mantissa_shiftRight (em : ExtendedMantissa) (k : Nat) : (em >>> k).mantissa = em.mantissa / 2 ^ k := by
  induction k with
  | zero => exact (Nat.div_one _).symm
  | succ k ih =>
    show (em >>> k).mantissa / 2 = _
    rw [ih, Nat.div_div_eq_div_mul, Nat.pow_succ]

/-- Rounding goes to one of the two neighbours. -/
theorem roundedMantissa_cases (em : ExtendedMantissa) :
    em.roundedMantissa = em.mantissa ∨ em.roundedMantissa = em.mantissa + 1 := by
  rcases em with ⟨m, r, s⟩
  cases r with
  | false => exact .inl (by cases s <;> rfl)
  | true =>
    cases s with
    | false =>
      show m + m % 2 = m ∨ m + m % 2 = m + 1
      omega
    | true => exact .inr rfl

/-- Rounding fills a full mantissa by one bit too many at most. -/
theorem log2_roundedMantissa {em : ExtendedMantissa} (h : em.mantissa.log2 = 52) :
    52 ≤ em.roundedMantissa.log2 ∧ em.roundedMantissa.log2 ≤ 53 := by
  have hpos : em.mantissa ≠ 0 := by
    intro h0
    rw [h0] at h
    cases h
  obtain ⟨hlo, hhi⟩ := (Nat.log2_eq_iff hpos).1 h
  rcases roundedMantissa_cases em with hr | hr
  · rw [hr, h]
    decide
  · have hr0 : em.roundedMantissa ≠ 0 := by omega
    exact ⟨(Nat.le_log2 hr0).2 (by omega), Nat.le_of_lt_succ ((Nat.log2_lt hr0).2 (by omega))⟩

/-- A mantissa with bits to spare is shifted until it is full. -/
theorem shiftToTargetExponent_of_log2 {q : Nat} {e : Int} (acc : Accuracy) (hq : 52 ≤ q.log2) (he : -1074 ≤ e) :
    shiftToTargetExponent binary64 q e acc =
      (ExtendedMantissa.ofMantissaAndAccuracy q acc >>> (q.log2 - 52), e + q.log2 - 52) := by
  have htarget : binary64.targetExponent (totalExponent q e) = e + q.log2 - 52 := by
    simp only [Format.targetExponent, totalExponent, Format.mantissaBits, Format.minExponent]
    omega
  have hshift : (e + q.log2 - 52 - e).toNat = q.log2 - 52 := by omega
  have hexp : e + (q.log2 - 52 : Nat) = e + q.log2 - 52 := by omega
  simp only [shiftToTargetExponent, shiftToExponent, htarget, hshift, hexp]

theorem shift_of_log2 {q : Nat} {e : Int} (acc : Accuracy) (hq : 52 ≤ q.log2) (he : -1074 ≤ e) :
    ∃ em, shiftToTargetExponent binary64 q e acc = (em, e + q.log2 - 52) ∧ em.mantissa.log2 = 52 := by
  have hmantissa : (ExtendedMantissa.ofMantissaAndAccuracy q acc).mantissa = q := by
    rcases acc with _ | _ | _ | _ <;> rfl
  refine ⟨_, shiftToTargetExponent_of_log2 acc hq he, ?_⟩
  rw [mantissa_shiftRight, hmantissa, Nat.log2_eq_log_two, Nat.log_div_base_pow, ← Nat.log2_eq_log_two]
  omega

/-- The second shift takes back the bit that rounding may have added. -/
theorem full_roundWithAccuracy {q : Nat} {e : Int} (acc : Accuracy) (hq : 52 ≤ q.log2) (he : -1074 ≤ e) :
    Full e (e + q.log2 - 51) (roundWithAccuracy binary64 .positive q e acc) := by
  obtain ⟨em, hfirst, hem⟩ := shift_of_log2 acc hq he
  obtain ⟨hlo, hhi⟩ := log2_roundedMantissa hem
  obtain ⟨em', hsecond, hem'⟩ := shift_of_log2 .exact hlo (show -1074 ≤ e + q.log2 - 52 by omega)
  have hpos : em'.mantissa ≠ 0 := by
    intro h
    rw [h] at hem'
    cases hem'
  simp only [roundWithAccuracy, hfirst, hsecond, dif_neg hpos]
  exact ⟨_, _, _, rfl, hem', by omega, by omega⟩

/-- The mantissas of a quotient differ by less than one bit, so that 53 more bits are enough to divide with. -/
theorem full_div {u v : UnpackedFloat} {a b c d : Int} (hu : Full a b u) (hv : Full c d v) (h : -1021 ≤ a - d) :
    Full (a - d - 53) (b - c - 51) (UnpackedFloat.div binary64 u v) := by
  obtain ⟨m, e, hm, rfl, hmlog, hae, heb⟩ := hu
  obtain ⟨n, f, hn, rfl, hnlog, hcf, hfd⟩ := hv
  obtain ⟨hmlo, hmhi⟩ := (Nat.log2_eq_iff hm.ne').1 hmlog
  obtain ⟨hnlo, hnhi⟩ := (Nat.log2_eq_iff hn.ne').1 hnlog
  have htarget : binary64.targetExponent (totalExponent m e - totalExponent n f) = e - f - 53 := by
    simp only [Format.targetExponent, totalExponent, Format.mantissaBits, Format.minExponent, hmlog, hnlog]
    omega
  have hcore : divCore binary64 m e n f =
      (m * 2 ^ 53 / n, e - f - 53, accuracyOfFraction (m * 2 ^ 53 % n) n) := by
    have hmin : min (e - f) (e - f - 53) = e - f - 53 := by omega
    have hshift : (e - f - (e - f - 53)).toNat = 53 := by omega
    simp only [divCore, htarget, hmin, hshift, Nat.shiftLeft_eq]
  -- both mantissas lie between 2 ^ 52 and 2 ^ 53
  have hq : 2 ^ 52 ≤ m * 2 ^ 53 / n ∧ m * 2 ^ 53 / n < 2 ^ 54 :=
    ⟨(Nat.le_div_iff_mul_le hn).2 (by omega), (Nat.div_lt_iff_lt_mul hn).2 (by omega)⟩
  have hq0 : m * 2 ^ 53 / n ≠ 0 := by omega
  have hqlo : 52 ≤ (m * 2 ^ 53 / n).log2 := (Nat.le_log2 hq0).2 hq.1
  have hqhi : (m * 2 ^ 53 / n).log2 < 54 := (Nat.log2_lt hq0).2 hq.2
  simp only [UnpackedFloat.div, hcore]
  exact (full_roundWithAccuracy _ hqlo (by omega)).mono (by omega) (by omega)

/-- A number with a full mantissa comes back from its bits, if its exponent fits in them. -/
theorem Full.unpack_pack {u : UnpackedFloat} {lo hi : Int} (h : Full lo hi u) (hlo : -1074 ≤ lo) (hhi : hi ≤ 971) :
    (Float.Model.pack u).unpack = u := by
  obtain ⟨m, e, hm, rfl, hlog, hle, hge⟩ := h
  -- the exponent as the bits hold it, neither all zeros nor all ones
  obtain ⟨b, hb⟩ : ∃ b : Nat, (b : Int) = e + 1075 := ⟨(e + 1075).toNat, by omega⟩
  have hbiased : (e + binary64.exponentBias + binary64.mantissaBitsWithoutImplicit).toNat = b := by
    show (e + (1023 : Nat) + (52 : Nat)).toNat = b
    omega
  have hbits : (BitVec.ofNat 11 b).toNat = b := Nat.mod_eq_of_lt (by omega)
  have hzero : BitVec.ofNat 11 b ≠ 0#11 := by
    intro h0
    rw [h0, BitVec.toNat_zero] at hbits
    omega
  have hones : BitVec.ofNat 11 b ≠ -1#11 := by
    intro h1
    rw [h1, BitVec.neg_one_eq_allOnes, BitVec.toNat_allOnes] at hbits
    omega
  have hpack : UnpackedFloat.pack binary64 (.finite .positive m e hm) =
      packComponents binary64 .positive (BitVec.ofNat _ b) (BitVec.ofNat _ m) := by
    simp only [UnpackedFloat.pack, hbiased]
    rw [if_neg (by omega), if_pos (by rw [hlog]; rfl)]
  have hexp : (b : Int) - (binary64.exponentBias + binary64.mantissaBitsWithoutImplicit) = e := by
    show (b : Int) - ((1023 : Nat) + (52 : Nat)) = e
    omega
  show UnpackedFloat.unpack binary64 (UnpackedFloat.pack binary64 (.finite .positive m e hm)) = _
  rw [hpack]
  simp only [UnpackedFloat.unpack, unpackExponent_packComponents, unpackMantissa_packComponents,
    unpackSign_packComponents, Sign.ofBitVec_toBitVec]
  simp only [if_neg hzero, if_neg hones, hbits, hexp, toNat_append_ofNat hm.ne' hlog]

theorem Full.div {x y : Float} {a b c d : Int} (hx : Full a b x.toModel.unpack) (hy : Full c d y.toModel.unpack)
    (hlo : -1021 ≤ a - d) (hhi : b - c ≤ 1022) : Full (a - d - 53) (b - c - 51) (x / y).toModel.unpack := by
  have hquotient := full_div hx hy hlo
  show Full _ _ (Float.Model.pack (UnpackedFloat.div binary64 x.toModel.unpack y.toModel.unpack)).unpack
  rw [hquotient.unpack_pack (by omega) (by omega)]
  exact hquotient

end Chip8.Binary64
