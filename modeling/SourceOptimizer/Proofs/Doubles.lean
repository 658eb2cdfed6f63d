import SourceOptimizer.Number.Shortest
import Mathlib

/-! Doubles by their bits. A double is a sign and a magnitude; the magnitude of a finite one is its unit and
its mantissa, and every ratio in the interval of numbers that round to it has these bits in the unit that the
ratio is scaled by. -/
namespace SourceOptimizer.Number

open Float.Model Float.Model.UnpackedFloat
open Format (binary64)

variable {n d m num den : Nat} {x y : Float} {q : ℚ} {k : ℕ} {e : Int}

/-! ## Bits -/

theorem exponent_toNat (b : BitVec 64) : (@unpackExponent binary64 b).toNat = b.toNat / 2 ^ 52 % 2 ^ 11 := by
  rw [unpackExponent_def, BitVec.extractLsb'_toNat, Nat.shiftRight_eq_div_pow]

theorem mantissa_toNat (b : BitVec 64) : (@unpackMantissa binary64 b).toNat = b.toNat % 2 ^ 52 := by
  rw [unpackMantissa_def, BitVec.extractLsb'_toNat, Nat.shiftRight_zero]

theorem sign_toNat (b : BitVec 64) : (@unpackSign binary64 b).toNat = b.toNat / 2 ^ 63 % 2 := by
  rw [unpackSign_def, BitVec.extractLsb'_toNat, Nat.shiftRight_eq_div_pow]
  rfl

theorem ofBitVec_of_ne (a b : BitVec 1) (hab : a.toNat ≠ b.toNat) : Sign.ofBitVec a = -Sign.ofBitVec b := by
  rcases BitVec.eq_zero_or_eq_one a with rfl | rfl <;> rcases BitVec.eq_zero_or_eq_one b with rfl | rfl
  · exact absurd rfl hab
  · rfl
  · rfl
  · exact absurd rfl hab
def magnitude (x : Float) : Nat := x.toBits.toNat % 2 ^ 63

theorem isNaNBits_iff (b : UInt64) :
    @isNaNBits binary64 b.toBitVec = true ↔ 2047 * 2 ^ 52 < b.toNat % 2 ^ 63 := by
  have he : @unpackExponent binary64 b.toBitVec = -1#11 ↔ b.toNat / 2 ^ 52 % 2 ^ 11 = 2047 := by
    rw [← BitVec.toNat_inj, exponent_toNat]
    rfl
  have hm : @unpackMantissa binary64 b.toBitVec = 0#52 ↔ b.toNat % 2 ^ 52 = 0 := by
    rw [← BitVec.toNat_inj, mantissa_toNat]
    rfl
  rw [isNaNBits, decide_eq_true_iff, Ne, he, hm]
  omega

theorem toBits_ofBits {b : UInt64} (h : b.toNat % 2 ^ 63 ≤ 2047 * 2 ^ 52) : (Float.ofBits b).toBits = b := by
  have hn : @isNaNBits binary64 b.toBitVec = false := by
    rw [Bool.eq_false_iff]
    intro hc
    have := (isNaNBits_iff b).mp hc
    omega
  apply UInt64.toBitVec_inj.mp
  show UnpackedFloat.pack binary64 (UnpackedFloat.unpack binary64 b.toBitVec) = _
  rw [pack_unpack _ (by decide), hn]
  rfl

theorem toBits_ofNat (hn : n < 2 ^ 64) (h : n % 2 ^ 63 ≤ 2047 * 2 ^ 52) :
    (Float.ofBits (UInt64.ofNat n)).toBits.toNat = n := by
  have hb : (UInt64.ofNat n).toNat = n := UInt64.toNat_ofNat_of_lt hn
  rw [toBits_ofBits (by rwa [hb]), hb]

theorem bits_lt (x : Float) : x.toBits.toNat < 2 ^ 64 := x.toBits.toNat_lt

theorem isNaN_iff (x : Float) : isNaN x = true ↔ 2047 * 2 ^ 52 < magnitude x := by
  simp [isNaN, magnitude]

theorem isInf_iff (x : Float) : isInf x = true ↔ magnitude x = 2047 * 2 ^ 52 := by
  simp [isInf, magnitude]

theorem isFinite_iff (x : Float) : isFinite x = true ↔ magnitude x < 2047 * 2 ^ 52 := by
  simp [isFinite, magnitude]

theorem isInf_of_isFinite (hf : isFinite x = true) : isInf x = false := by
  rw [isFinite_iff] at hf
  rw [Bool.eq_false_iff, Ne, isInf_iff]
  omega

theorem isZero_iff (x : Float) : isZero x = true ↔ magnitude x = 0 := by
  simp [isZero, magnitude]

theorem isNegative_iff (x : Float) : isNegative x = true ↔ 2 ^ 63 ≤ x.toBits.toNat := by
  simp [isNegative]

theorem ext_sign (hs : isNegative x = isNegative y) (hm : magnitude x = magnitude y) : x = y := by
  apply Float.toBits_inj.mp
  apply UInt64.toNat_inj.mp
  have hx := bits_lt x
  have hy := bits_lt y
  rw [Bool.eq_iff_iff, isNegative_iff, isNegative_iff] at hs
  unfold magnitude at hm
  omega

theorem ofBits_sign_magnitude (x : Float) :
    Float.ofBits (UInt64.ofNat ((if isNegative x then 2 ^ 63 else 0) + magnitude x)) = x := by
  have hb : (if isNegative x then 2 ^ 63 else 0) + magnitude x = x.toBits.toNat := by
    have hx := bits_lt x
    have hs := isNegative_iff x
    unfold magnitude
    split
    case isTrue h =>
      have := hs.mp h
      omega
    case isFalse h =>
      have : ¬ 2 ^ 63 ≤ x.toBits.toNat := fun h' => h (hs.mpr h')
      omega
  rw [hb, UInt64.ofNat_toNat, Float.ofBits_toBits]

theorem bits_absolute (h : isNaN x = false) : (absolute x).toBits.toNat = magnitude x := by
  have hm : ¬ 2047 * 2 ^ 52 < magnitude x := by simpa [h] using (isNaN_iff x)
  refine toBits_ofNat ?_ ?_ <;> simp only [Nat.pow_eq] <;> unfold magnitude at hm <;> omega

theorem bits_negate (h : isNaN x = false) :
    (negate x).toBits.toNat = (x.toBits.toNat + 2 ^ 63) % 2 ^ 64 := by
  have hm : ¬ 2047 * 2 ^ 52 < magnitude x := by simpa [h] using (isNaN_iff x)
  refine toBits_ofNat ?_ ?_ <;> simp only [Nat.pow_eq] <;> unfold magnitude at hm <;> omega

theorem isNaN_of_isFinite (h : isFinite x = true) : isNaN x = false := by
  rw [isFinite_iff] at h
  rw [Bool.eq_false_iff, Ne, isNaN_iff]
  omega

theorem magnitude_absolute (h : isNaN x = false) : magnitude (absolute x) = magnitude x := by
  rw [magnitude, bits_absolute h]
  unfold magnitude
  omega

theorem isNegative_absolute (h : isNaN x = false) : isNegative (absolute x) = false := by
  rw [Bool.eq_false_iff, Ne, isNegative_iff, bits_absolute h]
  unfold magnitude
  omega

theorem magnitude_negate (h : isNaN x = false) : magnitude (negate x) = magnitude x := by
  rw [magnitude, bits_negate h]
  unfold magnitude
  omega

theorem isNegative_negate (h : isNaN x = false) : isNegative (negate x) = !isNegative x := by
  have := bits_lt x
  rw [Bool.eq_iff_iff, isNegative_iff, bits_negate h]
  simp only [Bool.not_eq_true', Bool.eq_false_iff, Ne, isNegative_iff]
  omega

theorem absolute_of_nonnegative (h : isNaN x = false) (hs : isNegative x = false) : absolute x = x :=
  ext_sign (by rw [isNegative_absolute h, hs]) (magnitude_absolute h)

theorem isNaN_absolute (h : isNaN x = false) : isNaN (absolute x) = false := by
  rw [Bool.eq_false_iff, Ne, isNaN_iff, magnitude_absolute h, ← isNaN_iff, h]
  decide

theorem negate_absolute (h : isNaN x = false) (hs : isNegative x = true) : negate (absolute x) = x := by
  have ha := isNaN_absolute h
  refine ext_sign ?_ ?_
  · rw [isNegative_negate ha, isNegative_absolute h, hs]
    rfl
  · rw [magnitude_negate ha, magnitude_absolute h]

/-! ## Zeros of both signs -/

def unsigned (x : Float) : Float := if isZero x then 0.0 else x

def parts (x : Float) : UnpackedFloat := UnpackedFloat.unpack Format.binary64 x.toBits.toBitVec

theorem bits_valid (x : Float) : binary64.Valid x.toBits.toBitVec := x.toModel.valid

theorem ofModel_pack_parts (x : Float) : Float.ofModel (Float.Model.pack (parts x)) = x :=
  Float.ofBits_toBits x

theorem parts_inj (h : parts x = parts y) : x = y := by
  rw [← ofModel_pack_parts x, h, ofModel_pack_parts]

theorem isNaN_iff_parts (x : Float) : isNaN x = true ↔ parts x = .notANumber := by
  rw [parts, unpack_eq_notANumber_iff_of_valid (bits_valid x) (by decide), isNaN_iff, magnitude, ← isNaNBits_iff]
  constructor
  · intro h
    have hp := @pack_unpack binary64 x.toBits.toBitVec (by decide)
    rw [h, pack_unpack_of_valid (bits_valid x) (by decide)] at hp
    simpa using hp
  · intro h
    rw [h]
    exact isNaNBits_packedNaN

theorem parts_eq_zero_iff (x : Float) (s : Sign) :
    parts x = .zero s ↔ x.toBits.toNat = if s == .negative then 2 ^ 63 else 0 := by
  rw [parts, unpack_eq_zero_iff_of_valid (bits_valid x) (by decide), ← BitVec.toNat_inj]
  have hb : (packedZero binary64 s).toNat = if s == .negative then 2 ^ 63 else 0 := by
    cases s <;> decide
  rw [hb]
  rfl

theorem isZero_iff_parts (x : Float) : isZero x = true ↔ ∃ s, parts x = .zero s := by
  have hx := bits_lt x
  simp only [isZero_iff, magnitude, parts_eq_zero_iff]
  constructor
  · intro h
    rcases (by omega : x.toBits.toNat = 0 ∨ x.toBits.toNat = 2 ^ 63) with h0 | h0
    · exact ⟨.positive, h0⟩
    · exact ⟨.negative, h0⟩
  · rintro ⟨s, h⟩
    cases s with
    | positive | negative => simp [h]

theorem beq_iff (x y : Float) :
    (x == y) = true ↔ isNaN x = false ∧ isNaN y = false ∧ (x = y ∨ isZero x = true ∧ isZero y = true) := by
  have hd : (x == y) = (parts x).beq (parts y) := rfl
  rw [hd, beq_iff_ne_notANumber_and_eq, Bool.eq_false_iff, Bool.eq_false_iff, Ne, Ne, Ne, Ne, isNaN_iff_parts,
    isNaN_iff_parts, isZero_iff_parts, isZero_iff_parts]
  constructor
  · rintro ⟨hx, hy, h | ⟨h1, h2⟩ | ⟨h1, h2⟩⟩
    · exact ⟨hx, hy, .inl (parts_inj h)⟩
    · exact ⟨hx, hy, .inr ⟨⟨_, h1⟩, ⟨_, h2⟩⟩⟩
    · exact ⟨hx, hy, .inr ⟨⟨_, h1⟩, ⟨_, h2⟩⟩⟩
  · rintro ⟨hx, hy, rfl | ⟨⟨s, h1⟩, ⟨s', h2⟩⟩⟩
    · exact ⟨hx, hy, .inl rfl⟩
    · refine ⟨hx, hy, ?_⟩
      rw [h1, h2]
      cases s <;> cases s' <;> simp

theorem isNaN_unsigned (x : Float) : isNaN (unsigned x) = isNaN x := by
  unfold unsigned
  split
  case isTrue h =>
    have hf : isNaN x = false := by
      rw [isZero_iff] at h
      rw [Bool.eq_false_iff, Ne, isNaN_iff, h]
      decide
    rw [hf]
    rfl
  case isFalse => rfl

theorem isZero_unsigned (x : Float) : isZero (unsigned x) = isZero x := by
  unfold unsigned
  split
  case isTrue h => rw [h]; rfl
  case isFalse => rfl

theorem unsigned_of_isZero (h : isZero x = true) : unsigned x = 0.0 := if_pos h

theorem beq_unsigned (x y : Float) : (unsigned x == unsigned y) = (x == y) := by
  rw [Bool.eq_iff_iff, beq_iff, beq_iff, isNaN_unsigned, isNaN_unsigned, isZero_unsigned, isZero_unsigned]
  refine and_congr_right fun _ => and_congr_right fun _ => ?_
  by_cases hx : isZero x = true <;> by_cases hy : isZero y = true
  · simp [hx, hy]
  · have hne : unsigned x ≠ unsigned y := fun h => hy (by rw [← isZero_unsigned, ← h, isZero_unsigned, hx])
    have hne' : x ≠ y := fun h => hy (h ▸ hx)
    simp [hne, hne', hy]
  · have hne : unsigned x ≠ unsigned y := fun h => hx (by rw [← isZero_unsigned, h, isZero_unsigned, hy])
    have hne' : x ≠ y := fun h => hx (h ▸ hy)
    simp [hne, hne', hx]
  · simp [unsigned, hx, hy]

theorem beq_self (h : isNaN x = false) : (x == x) = true :=
  (beq_iff x x).mpr ⟨h, h, .inl rfl⟩

theorem unsigned_pack {f : UnpackedFloat → UnpackedFloat} (hzero : ∀ s, unsigned (Float.ofModel (Float.Model.pack (f (.zero s)))) = 0.0)
    (hinfinity : ∀ s, f (.infinity s) = .infinity s) (hnan : f .notANumber = .notANumber)
    (hfinite : ∀ s m e hm, f (.finite s m e hm) = .finite s m e hm) (x : Float) :
    unsigned (Float.ofModel (Float.Model.pack (f (parts x)))) = unsigned x := by
  cases hx : parts x with
  | zero s => rw [hzero, unsigned_of_isZero ((isZero_iff_parts x).mpr ⟨s, hx⟩)]
  | infinity s => rw [hinfinity, ← hx, ofModel_pack_parts]
  | notANumber => rw [hnan, ← hx, ofModel_pack_parts]
  | finite s m e hm => rw [hfinite, ← hx, ofModel_pack_parts]

theorem add_zero_unsigned (x : Float) : unsigned (x + 0.0) = unsigned x :=
  unsigned_pack (f := fun u => u.add binary64 (parts 0.0)) (fun s => by cases s <;> rfl) (fun _ => rfl) rfl (fun _ _ _ _ => rfl) x

theorem zero_add_unsigned (y : Float) : unsigned (0.0 + y) = unsigned y :=
  unsigned_pack (f := fun u => (parts 0.0).add binary64 u) (fun s => by cases s <;> rfl) (fun _ => rfl) rfl (fun _ _ _ _ => rfl) y

theorem unpack_neg {b c : BitVec 64} (h : c.toNat = (b.toNat + 2 ^ 63) % 2 ^ 64) :
    UnpackedFloat.unpack binary64 c = (UnpackedFloat.unpack binary64 b).neg := by
  have he : @unpackExponent binary64 c = @unpackExponent binary64 b := by
    rw [← BitVec.toNat_inj, exponent_toNat, exponent_toNat]
    omega
  have hm : @unpackMantissa binary64 c = @unpackMantissa binary64 b := by
    rw [← BitVec.toNat_inj, mantissa_toNat, mantissa_toNat]
    omega
  have hs : Sign.ofBitVec (@unpackSign binary64 c) = -Sign.ofBitVec (@unpackSign binary64 b) := by
    apply ofBitVec_of_ne
    rw [sign_toNat, sign_toNat]
    omega
  unfold UnpackedFloat.unpack
  simp only [he, hm, hs]
  split
  · split <;> rfl
  · split
    · split <;> rfl
    · rfl

theorem parts_negate (h : isNaN x = false) : parts (negate x) = (parts x).neg :=
  unpack_neg (bits_negate h)

theorem zero_sub_unsigned (h : isNaN y = false) : unsigned (0.0 - y) = unsigned (negate y) := by
  have hy : parts y = (parts (negate y)).neg := by
    rw [parts_negate h]
    cases parts y with
    | zero s | infinity s | finite s => cases s <;> rfl
    | notANumber => rfl
  have hd : 0.0 - y = Float.ofModel (Float.Model.pack (UnpackedFloat.sub binary64 (parts 0.0) (parts y))) := rfl
  rw [hd, hy]
  refine unsigned_pack (f := fun u => (parts 0.0).sub binary64 u.neg) ?_ ?_ rfl ?_ (negate y)
  all_goals
    intro s
    cases s
    all_goals intros; rfl

theorem sub_zero_unsigned (x : Float) : unsigned (x - 0.0) = unsigned x :=
  unsigned_pack (f := fun u => u.sub binary64 (parts 0.0)) (fun s => by cases s <;> rfl) (fun _ => rfl) rfl (fun _ _ _ _ => rfl) x

/-! ## The numbers that round to a double -/

theorem divideNearest_eq (hd : 0 < d) (low : 2 * m * d ≤ 2 * n + d) (high : 2 * n ≤ 2 * m * d + d)
    (tie : m % 2 = 0 ∨ 2 * m * d < 2 * n + d ∧ 2 * n < 2 * m * d + d) : divideNearest n d = m := by
  obtain ⟨q, r, hn, hr, hq, hm⟩ : ∃ q r, n = d * q + r ∧ r < d ∧ n / d = q ∧ n % d = r :=
    ⟨n / d, n % d, (Nat.div_add_mod n d).symm, Nat.mod_lt n hd, rfl, rfl⟩
  simp only [divideNearest, hq, hm]
  have h1 : m = q ∨ m = q + 1 := by
    rcases Nat.lt_trichotomy m q with h | h | h
    · exfalso
      nlinarith
    · exact .inl h
    · by_contra hc
      have : d * (q + 2) ≤ d * m := Nat.mul_le_mul_left d (by omega)
      nlinarith
  rcases h1 with rfl | rfl
  · have : 2 * r ≤ d := by nlinarith
    rcases Nat.lt_or_ge (2 * r) d with h | h
    · simp [h]
    · have ht : m % 2 = 0 := by
        rcases tie with h' | ⟨h', h''⟩
        · exact h'
        · nlinarith
      simp [show ¬ 2 * r < d by omega, show ¬ d < 2 * r by omega, ht]
  · have : d ≤ 2 * r := by nlinarith
    rcases Nat.lt_or_ge d (2 * r) with h | h
    · simp [h, show ¬ 2 * r < d by omega]
    · have ht : (q + 1) % 2 = 0 := by
        rcases tie with h' | ⟨h', h''⟩
        · exact h'
        · nlinarith
      simp [show ¬ 2 * r < d by omega, show ¬ d < 2 * r by omega, show ¬ q % 2 = 0 by omega]

theorem scaled_pos (h : 0 < den) (e : Int) : 0 < (scaled num den e).2 := by
  cases e with
  | ofNat k => exact Nat.mul_pos h (Nat.pow_pos (by decide))
  | negSucc k => exact h

theorem scaled_ratio (num den : Nat) (e : Int) :
    ((scaled num den e).1 : ℚ) / (scaled num den e).2 = num / den / 2 ^ e := by
  cases e with
  | ofNat k =>
    simp only [scaled, Nat.pow_eq, Int.ofNat_eq_natCast, zpow_natCast]
    push_cast
    rw [div_div]
  | negSucc k =>
    simp only [scaled, Nat.pow_eq, zpow_negSucc]
    push_cast
    rw [div_inv_eq_mul]
    ring

theorem log2_bounds (h : n ≠ 0) : (2 : ℚ) ^ (n.log2 : ℤ) ≤ n ∧ (n : ℚ) < 2 ^ ((n.log2 : ℤ) + 1) := by
  have h1 := Nat.log2_self_le h
  have h2 := Nat.lt_log2_self (n := n)
  constructor
  · rw [zpow_natCast]
    exact_mod_cast h1
  · rw [show ((n.log2 : ℤ) + 1) = ((n.log2 + 1 : ℕ) : ℤ) by push_cast; rfl, zpow_natCast]
    exact_mod_cast h2

theorem ratio_bounds (hn : num ≠ 0) (hd : 0 < den) :
    (2 : ℚ) ^ ((num.log2 : ℤ) - den.log2 - 1) < num / den ∧ (num / den : ℚ) < 2 ^ ((num.log2 : ℤ) - den.log2 + 1) := by
  obtain ⟨n1, n2⟩ := log2_bounds hn
  obtain ⟨d1, d2⟩ := log2_bounds (Nat.pos_iff_ne_zero.mp hd)
  have hd' : (0 : ℚ) < den := by exact_mod_cast hd
  constructor
  · rw [lt_div_iff₀ hd']
    calc (2 : ℚ) ^ ((num.log2 : ℤ) - den.log2 - 1) * den
        < 2 ^ ((num.log2 : ℤ) - den.log2 - 1) * 2 ^ ((den.log2 : ℤ) + 1) := by
          apply mul_lt_mul_of_pos_left d2; positivity
      _ = 2 ^ (num.log2 : ℤ) := by rw [← zpow_add₀ (by norm_num)]; congr 1; ring
      _ ≤ num := n1
  · rw [div_lt_iff₀ hd']
    calc (num : ℚ) < 2 ^ ((num.log2 : ℤ) + 1) := n2
      _ = 2 ^ ((num.log2 : ℤ) - den.log2 + 1) * 2 ^ (den.log2 : ℤ) := by
          rw [← zpow_add₀ (by norm_num)]; congr 1; ring
      _ ≤ 2 ^ ((num.log2 : ℤ) - den.log2 + 1) * den := by
          apply mul_le_mul_of_nonneg_left d1; positivity

/-- The exponent that `ofRatio?` scales by. -/
def unitOf (num den : Nat) : Int :=
  let guess : Int := (num.log2 : Int) - den.log2 - 52
  max (if (scaled num den guess).1 / (scaled num den guess).2 < Nat.pow 2 52 then guess - 1 else guess) (-1074)

theorem ofRatio?_eq_unitOf {negative : Bool} (h : num ≠ 0) :
    ofRatio? negative num den =
      let sign : Nat := if negative then Nat.pow 2 63 else 0
      let s := scaled num den (unitOf num den)
      let bits : Nat := (unitOf num den + 1074).toNat * Nat.pow 2 52 + divideNearest s.1 s.2
      if bits < 2047 * Nat.pow 2 52 then some (Float.ofBits (UInt64.ofNat (sign + bits))) else none := by
  rw [ofRatio?, if_neg h]
  rfl

theorem zpow_two_lt {a b : ℤ} : (2 : ℚ) ^ a < 2 ^ b ↔ a < b := zpow_lt_zpow_iff_right₀ (by norm_num)

theorem unitOf_spec (hn : num ≠ 0) (hd : 0 < den) :
    ∃ e : ℤ, (2 : ℚ) ^ (52 + e) ≤ num / den ∧ (num / den : ℚ) < 2 ^ (53 + e) ∧ unitOf num den = max e (-1074) := by
  obtain ⟨low, high⟩ := ratio_bounds hn hd
  set guess : ℤ := (num.log2 : ℤ) - den.log2 - 52 with hg
  have hdp : 0 < (scaled num den guess).2 := scaled_pos hd guess
  have hr := scaled_ratio num den guess
  have hp : (0 : ℚ) < 2 ^ guess := by positivity
  have hlt : (scaled num den guess).1 / (scaled num den guess).2 < Nat.pow 2 52 ↔ (num / den : ℚ) < 2 ^ (52 + guess) := by
    rw [Nat.div_lt_iff_lt_mul hdp, Nat.pow_eq, zpow_add₀ (by norm_num), ← div_lt_iff₀ hp, ← hr,
      div_lt_iff₀ (by exact_mod_cast hdp)]
    norm_cast
  refine ⟨if (scaled num den guess).1 / (scaled num den guess).2 < Nat.pow 2 52 then guess - 1 else guess, ?_, ?_, rfl⟩
  · split
    case isTrue h =>
      rw [show 52 + (guess - 1) = (num.log2 : ℤ) - den.log2 - 1 by omega]
      exact low.le
    case isFalse h => exact not_lt.mp (fun hc => h (hlt.mpr hc))
  · split
    case isTrue h =>
      rw [show 53 + (guess - 1) = 52 + guess by ring]
      exact hlt.mp h
    case isFalse h =>
      rw [show 53 + guess = (num.log2 : ℤ) - den.log2 + 1 by omega]
      exact high

structure Exact (x : Float) (m : Nat) (e : Int) : Prop where
  magnitude : magnitude x = (e + 1074).toNat * 2 ^ 52 + m
  least : -1074 ≤ e
  most : e ≤ 971
  short : m < 2 ^ 53
  normal : -1074 < e → 2 ^ 52 ≤ m

theorem exact_spec (h : isFinite x = true) : Exact x (exact x).mantissa (exact x).exponent := by
  rw [isFinite_iff, magnitude] at h
  simp only [exact, Nat.pow_eq]
  split
  all_goals
    constructor
    · unfold magnitude; dsimp only; omega
    all_goals dsimp only; omega

theorem roundingOf_negate (h : isNaN x = false) : roundingOf (negate x) = roundingOf x := by
  have hb := bits_negate h
  have he : ((x.toBits.toNat + 2 ^ 63) % 2 ^ 64) / 2 ^ 52 % 2048 = x.toBits.toNat / 2 ^ 52 % 2048 := by omega
  have hm : ((x.toBits.toNat + 2 ^ 63) % 2 ^ 64) % 2 ^ 52 = x.toBits.toNat % 2 ^ 52 := by omega
  simp only [roundingOf, exact, hb, Nat.pow_eq, he, hm]
  split <;> rfl

def Rounding.Contains (r : Rounding) (q : ℚ) : Prop :=
  if r.closed then r.low ≤ q * r.den ∧ q * r.den ≤ r.high else r.low < q * r.den ∧ q * r.den < r.high

/-- The numbers that round to a double, in its unit. -/
structure Nearest (m : Nat) (e : Int) (s : ℚ) : Prop where
  low : (m : ℚ) - 1 / 2 ≤ s
  high : s ≤ m + 1 / 2
  tie : m % 2 = 0 ∨ (m : ℚ) - 1 / 2 < s ∧ s < m + 1 / 2
  least : m = 2 ^ 52 → -1074 < e → (m : ℚ) - 1 / 4 ≤ s

theorem roundingOf_eq (x : Float) : ∃ u d : Nat, 0 < u ∧ 0 < d ∧ (u : ℚ) / d = 2 ^ ((exact x).exponent - 2) ∧
    roundingOf x =
      ⟨(if (exact x).mantissa = 2 ^ 52 ∧ (exact x).exponent > -1074 then 4 * (exact x).mantissa - 1
          else 4 * (exact x).mantissa - 2) * u,
        4 * (exact x).mantissa * u, (4 * (exact x).mantissa + 2) * u, d, (exact x).mantissa % 2 = 0⟩ := by
  simp only [roundingOf, Nat.pow_eq]
  cases (exact x).exponent - 2 with
  | ofNat k => exact ⟨2 ^ k, 1, by positivity, one_pos, by simp, by simp⟩
  | negSucc k => exact ⟨1, 2 ^ (k + 1), one_pos, by positivity, by simp [zpow_negSucc], by simp⟩

/-- Where the interval of a double begins, in its unit: nearer below a power of two. -/
def lower (m : Nat) (e : Int) : ℚ := if m = 2 ^ 52 ∧ e > -1074 then m - 1 / 4 else m - 1 / 2

theorem lower_bounds (m : Nat) (e : Int) : (m : ℚ) - 1 / 2 ≤ lower m e ∧ lower m e ≤ m - 1 / 4 := by
  unfold lower
  split <;> constructor <;> linarith

theorem contains_iff (hx : (exact x).mantissa = m) (he : (exact x).exponent = e) (hm : 0 < m) :
    (roundingOf x).Contains q ↔
      if m % 2 = 0 then lower m e ≤ q / 2 ^ e ∧ q / 2 ^ e ≤ m + 1 / 2 else lower m e < q / 2 ^ e ∧ q / 2 ^ e < m + 1 / 2 := by
  obtain ⟨u, d, hu, hd, hud, hr⟩ := roundingOf_eq x
  rw [he] at hud
  rw [hx, he] at hr
  have hu' : (0 : ℚ) < 4 * u := by exact_mod_cast Nat.mul_pos four_pos hu
  have hs : q * d = q / 2 ^ e * (4 * u) := by
    have he : (2 : ℚ) ^ e = 4 * (u / d) := by
      rw [hud, zpow_sub₀ (by norm_num)]
      ring
    rw [he]
    field_simp
  have hlow : (((if m = 2 ^ 52 ∧ e > -1074 then 4 * m - 1 else 4 * m - 2) * u : Nat) : ℚ) = lower m e * (4 * u) := by
    unfold lower
    split
    · push_cast [Nat.cast_sub (show 1 ≤ 4 * m by omega)]; ring
    · push_cast [Nat.cast_sub (show 2 ≤ 4 * m by omega)]; ring
  have hhigh : (((4 * m + 2) * u : Nat) : ℚ) = (m + 1 / 2) * (4 * u) := by push_cast; ring
  simp only [hr, Rounding.Contains, hlow, hhigh, hs, decide_eq_true_eq, mul_le_mul_iff_left₀ hu', mul_lt_mul_iff_left₀ hu']

theorem contains_roundingOf (hm : 0 < (exact x).mantissa) (h : (roundingOf x).Contains q) :
    Nearest (exact x).mantissa (exact x).exponent (q / 2 ^ (exact x).exponent) := by
  rw [contains_iff rfl rfl hm] at h
  obtain ⟨hlower, -⟩ := lower_bounds (exact x).mantissa (exact x).exponent
  have hleast (hm52 : (exact x).mantissa = 2 ^ 52) (he : -1074 < (exact x).exponent) :
      lower (exact x).mantissa (exact x).exponent = (exact x).mantissa - 1 / 4 := if_pos ⟨hm52, he⟩
  split at h
  case isTrue heven => exact ⟨hlower.trans h.1, h.2, .inl heven, fun hm52 he => hleast hm52 he ▸ h.1⟩
  case isFalse =>
    have hlow := hlower.trans_lt h.1
    exact ⟨hlow.le, h.2.le, .inr ⟨hlow, h.2⟩, fun hm52 he => hleast hm52 he ▸ h.1.le⟩

theorem divideNearest_of_nearest (hd : 0 < d) (low : (m : ℚ) - 1 / 2 ≤ n / d) (high : (n / d : ℚ) ≤ m + 1 / 2)
    (tie : m % 2 = 0 ∨ (m : ℚ) - 1 / 2 < n / d ∧ (n / d : ℚ) < m + 1 / 2) : divideNearest n d = m := by
  have hd' : (0 : ℚ) < d := by exact_mod_cast hd
  apply divideNearest_eq hd
  · rw [le_div_iff₀ hd'] at low
    have : (2 * m * d : ℚ) ≤ 2 * n + d := by linarith
    exact_mod_cast this
  · rw [div_le_iff₀ hd'] at high
    have : (2 * n : ℚ) ≤ 2 * m * d + d := by linarith
    exact_mod_cast this
  · rcases tie with h | ⟨h1, h2⟩
    · exact .inl h
    · rw [lt_div_iff₀ hd'] at h1
      rw [div_lt_iff₀ hd'] at h2
      have h1' : (2 * m * d : ℚ) < 2 * n + d := by linarith
      have h2' : (2 * n : ℚ) < 2 * m * d + d := by linarith
      exact .inr ⟨by exact_mod_cast h1', by exact_mod_cast h2'⟩

theorem lt_zpow_of_div {e : ℤ} (h : q / 2 ^ e < 2 ^ k) : q < 2 ^ ((k : ℤ) + e) := by
  rw [zpow_add₀ (by norm_num), zpow_natCast]
  exact (div_lt_iff₀ (by positivity)).mp h

theorem zpow_le_of_div {e : ℤ} (h : (2 : ℚ) ^ k ≤ q / 2 ^ e) : (2 : ℚ) ^ ((k : ℤ) + e) ≤ q := by
  rw [zpow_add₀ (by norm_num), zpow_natCast]
  exact (le_div_iff₀ (by positivity)).mp h

theorem unitOf_of_nearest (hn : num ≠ 0) (hd : 0 < den) (least : -1074 ≤ e)
    (short : m < 2 ^ 53) (normal : -1074 < e → 2 ^ 52 ≤ m) (h : Nearest m e (num / den / 2 ^ e)) :
    unitOf num den = e ∨
      unitOf num den = e - 1 ∧ m = 2 ^ 52 ∧ -1074 < e ∧ (num / den / 2 ^ e : ℚ) < 2 ^ 52 := by
  obtain ⟨e', low, high, hu⟩ := unitOf_spec hn hd
  have hlow := h.low
  have hhigh := h.high
  have hshort : (m : ℚ) + 1 ≤ 2 ^ 53 := by exact_mod_cast short
  have hle : e' ≤ e := by
    have h1 : (num / den : ℚ) < 2 ^ (((53 : ℕ) : ℤ) + e) := lt_zpow_of_div (by linarith)
    have := zpow_two_lt.mp (low.trans_lt h1)
    omega
  rcases Int.lt_or_eq_of_le least with hlt | heq
  · by_cases hb : (2 : ℚ) ^ 52 ≤ num / den / 2 ^ e
    · have := zpow_two_lt.mp ((zpow_le_of_div hb).trans_lt high)
      omega
    · have hb := not_le.mp hb
      have hm52 : m = 2 ^ 52 := by
        have h1 : (m : ℚ) < 2 ^ 52 + 1 := by linarith
        have h2 : m < 2 ^ 52 + 1 := by exact_mod_cast h1
        omega
      have hquarter := h.least hm52 hlt
      have h1 := zpow_two_lt.mp (low.trans_lt (lt_zpow_of_div hb))
      have h2 : (2 : ℚ) ^ 51 ≤ num / den / 2 ^ e := by
        rw [hm52] at hquarter
        push_cast at hquarter
        linarith
      have h3 := zpow_two_lt.mp ((zpow_le_of_div h2).trans_lt high)
      push_cast at h1 h3
      exact .inr ⟨by omega, hm52, hlt, hb⟩
  · omega

theorem bits_of_nearest (hd : 0 < den) (hm : 0 < m) (least : -1074 ≤ e)
    (short : m < 2 ^ 53) (normal : -1074 < e → 2 ^ 52 ≤ m) (h : Nearest m e (num / den / 2 ^ e)) :
    num ≠ 0 ∧ (unitOf num den + 1074).toNat * 2 ^ 52 +
      divideNearest (scaled num den (unitOf num den)).1 (scaled num den (unitOf num den)).2 =
      (e + 1074).toNat * 2 ^ 52 + m := by
  have hn : num ≠ 0 := by
    rintro rfl
    have h1 := h.low
    have h2 : (1 : ℚ) ≤ m := by exact_mod_cast hm
    simp at h1
    linarith
  refine ⟨hn, ?_⟩
  rcases unitOf_of_nearest hn hd least short normal h with hu | ⟨hu, hm52, hlt, hb⟩
  · rw [hu]
    congr 1
    apply divideNearest_of_nearest (scaled_pos hd e) <;> rw [scaled_ratio]
    · exact h.low
    · exact h.high
    · exact h.tie
  · have hquarter := h.least hm52 hlt
    rw [hm52] at hquarter
    have hr : ((scaled num den (e - 1)).1 : ℚ) / (scaled num den (e - 1)).2 = 2 * (num / den / 2 ^ e) := by
      rw [scaled_ratio, zpow_sub₀ (by norm_num), zpow_one]
      field_simp
    have hround : divideNearest (scaled num den (e - 1)).1 (scaled num den (e - 1)).2 = 2 ^ 53 := by
      apply divideNearest_of_nearest (scaled_pos hd _) <;> rw [hr] <;> push_cast
      · linarith
      · linarith
      · exact .inl (by norm_num)
    rw [hu, hround, hm52]
    omega

theorem mantissa_pos (hf : isFinite x = true) (hz : isZero x = false) : 0 < (exact x).mantissa := by
  have he := exact_spec hf
  by_contra hc
  have hm : (exact x).mantissa = 0 := by omega
  have h1 : ¬ -1074 < (exact x).exponent := fun h => by have := he.normal h; omega
  have h2 := he.magnitude
  have h3 := he.least
  rw [hm, show (exact x).exponent = -1074 by omega] at h2
  rw [Bool.eq_false_iff] at hz
  exact hz ((isZero_iff x).mpr h2)

theorem ofRatio?_of_contains (hf : isFinite x = true) (hz : isZero x = false)
    (hd : 0 < den) (h : (roundingOf x).Contains (num / den)) : ofRatio? (isNegative x) num den = some x := by
  have he := exact_spec hf
  have hm := mantissa_pos hf hz
  obtain ⟨hn, hbits⟩ := bits_of_nearest hd hm he.least he.short he.normal (contains_roundingOf hm h)
  rw [← he.magnitude] at hbits
  have hfin := (isFinite_iff x).mp hf
  rw [ofRatio?_eq_unitOf hn]
  simp only [Nat.pow_eq]
  rw [hbits, if_pos hfin]
  rw [ofBits_sign_magnitude]

end SourceOptimizer.Number
