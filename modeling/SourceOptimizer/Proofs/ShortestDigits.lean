import SourceOptimizer.Proofs.Doubles

/-! The shortest digits of a double lie in the interval of numbers that round to it, so every way to write
them reads back as the double. Eighteen digits are always enough. -/
namespace SourceOptimizer.Number

variable {num den k n m : Nat} {p point : Int} {x : Float} {q : ℚ} {r : Rounding}

/-! ## Places of the point -/

theorem atLeastTenPow_iff (hd : 0 < den) (p : Int) :
    atLeastTenPow num den p = true ↔ (10 : ℚ) ^ p ≤ num / den := by
  have hd' : (0 : ℚ) < den := by exact_mod_cast hd
  cases p with
  | ofNat k =>
    simp only [atLeastTenPow, Nat.pow_eq, decide_eq_true_eq, Int.ofNat_eq_natCast, zpow_natCast, le_div_iff₀ hd']
    rw [mul_comm]
    norm_cast
  | negSucc k =>
    have hk : (0 : ℚ) < 10 ^ (k + 1) := by positivity
    simp only [atLeastTenPow, Nat.pow_eq, decide_eq_true_eq, zpow_negSucc, le_div_iff₀ hd']
    rw [inv_mul_le_iff₀ hk, mul_comm]
    norm_cast

theorem raisePoint_spec (hd : 0 < den) (fuel : Nat) (h : (10 : ℚ) ^ (p - 1) ≤ num / den) :
    (10 : ℚ) ^ (raisePoint num den fuel p - 1) ≤ num / den := by
  induction fuel generalizing p with
  | zero => exact h
  | succ fuel ih =>
    rw [raisePoint]
    split
    case isTrue hp =>
      apply ih
      rw [add_sub_cancel_right]
      exact (atLeastTenPow_iff hd p).mp hp
    case isFalse => exact h

/-- `10 ^ p ≤ 2 ^ b`, with whole powers on both sides. -/
def tenPowLe (p b : Int) : Bool := 10 ^ p.toNat * 2 ^ (-b).toNat ≤ 2 ^ b.toNat * 10 ^ (-p).toNat

theorem zpow_toNat {a : ℚ} (ha : 0 < a) (e : Int) : a ^ e * a ^ (-e).toNat = a ^ e.toNat := by
  rw [← zpow_natCast, ← zpow_natCast, ← zpow_add₀ ha.ne']
  congr 1
  omega

theorem zpow_le_of_tenPowLe {b : Int} (h : tenPowLe p b = true) : (10 : ℚ) ^ p ≤ 2 ^ b := by
  have h' : (10 : ℚ) ^ p.toNat * 2 ^ (-b).toNat ≤ 2 ^ b.toNat * 10 ^ (-p).toNat := by
    rw [tenPowLe, decide_eq_true_eq] at h
    exact_mod_cast h
  rw [← zpow_toNat (by norm_num) p, ← zpow_toNat (by norm_num) b] at h'
  have hpos : (0 : ℚ) < 10 ^ (-p).toNat * 2 ^ (-b).toNat := by positivity
  refine le_of_mul_le_mul_right ?_ hpos
  calc (10 : ℚ) ^ p * (10 ^ (-p).toNat * 2 ^ (-b).toNat)
      = 10 ^ p * 10 ^ (-p).toNat * 2 ^ (-b).toNat := by ring
    _ ≤ 2 ^ b * 2 ^ (-b).toNat * 10 ^ (-p).toNat := h'
    _ = 2 ^ b * (10 ^ (-p).toNat * 2 ^ (-b).toNat) := by ring

theorem firstPoint_le {bits : Int} (low : -1100 ≤ bits) (high : bits < 1100) :
    (10 : ℚ) ^ (Int.fdiv (bits * 30103) 100000 - 2 - 1) ≤ 2 ^ (bits - 1) := by
  have table : (List.range 2200).all (fun k =>
      tenPowLe (Int.fdiv (((k : Int) - 1100) * 30103) 100000 - 3) ((k : Int) - 1101)) = true := by
    decide +kernel
  have hk := List.all_eq_true.mp table (bits + 1100).toNat (List.mem_range.mpr (by omega))
  rw [show (((bits + 1100).toNat : Int) - 1100) = bits by omega,
    show (((bits + 1100).toNat : Int) - 1101) = bits - 1 by omega] at hk
  rw [show Int.fdiv (bits * 30103) 100000 - 2 - 1 = Int.fdiv (bits * 30103) 100000 - 3 by omega]
  exact zpow_le_of_tenPowLe hk

/-! ## The interval of a double -/

theorem den_pos (x : Float) : 0 < (roundingOf x).den := by
  obtain ⟨u, d, hu, hd, -, hr⟩ := roundingOf_eq x
  rw [hr]
  exact hd

theorem value_div_den (x : Float) :
    ((roundingOf x).value : ℚ) / (roundingOf x).den = (exact x).mantissa * 2 ^ (exact x).exponent := by
  obtain ⟨u, d, hu, hd, hud, hr⟩ := roundingOf_eq x
  rw [hr]
  push_cast
  rw [mul_div_assoc, hud, zpow_sub₀ (by norm_num)]
  ring

theorem holds_iff (r : Rounding) (n : Nat) (e : Int) :
    r.holds n e = true ↔ r.Contains (n * 10 ^ e) := by
  obtain ⟨num, den, hden, hq, hr⟩ : ∃ num den : Nat, 0 < den ∧ (n * 10 ^ e : ℚ) = num / den ∧ r.holds n e =
      if r.closed then r.low * den ≤ num * r.den && num * r.den ≤ r.high * den
      else r.low * den < num * r.den && num * r.den < r.high * den := by
    cases e with
    | ofNat k => exact ⟨n * 10 ^ k, 1, one_pos, by simp, rfl⟩
    | negSucc k => exact ⟨n, 10 ^ (k + 1), by positivity, by simp [zpow_negSucc, div_eq_mul_inv], rfl⟩
  have hden' : (0 : ℚ) < den := by exact_mod_cast hden
  have hle (a : Nat) : ((a : ℚ) ≤ num / den * r.den ↔ a * den ≤ num * r.den) := by
    rw [div_mul_eq_mul_div, le_div_iff₀ hden']
    norm_cast
  have hge (a : Nat) : ((num / den * r.den : ℚ) ≤ a ↔ num * r.den ≤ a * den) := by
    rw [div_mul_eq_mul_div, div_le_iff₀ hden']
    norm_cast
  rw [hr, Rounding.Contains, hq]
  split
  · simp only [hle, hge, Bool.and_eq_true, decide_eq_true_eq]
  · simp only [← not_le, hle, hge, Bool.and_eq_true, decide_eq_true_eq]

theorem contains_of_near (hm : 0 < (exact x).mantissa)
    (low : ((exact x).mantissa : ℚ) * 2 ^ (exact x).exponent - 2 ^ (exact x).exponent / 4 < q)
    (high : q ≤ (exact x).mantissa * 2 ^ (exact x).exponent) : (roundingOf x).Contains q := by
  rw [contains_iff rfl rfl hm]
  have htwo : (0 : ℚ) < 2 ^ (exact x).exponent := by positivity
  have hlow : ((exact x).mantissa : ℚ) - 1 / 4 < q / 2 ^ (exact x).exponent := (lt_div_iff₀ htwo).mpr (by linarith)
  have hhigh : q / 2 ^ (exact x).exponent ≤ (exact x).mantissa := (div_le_iff₀ htwo).mpr high
  obtain ⟨-, hlower⟩ := lower_bounds (exact x).mantissa (exact x).exponent
  split <;> constructor <;> linarith

theorem inUnits_pos (num : Nat) (h : 0 < den) (e : Int) : 0 < (inUnits num den e).2 := by
  cases e with
  | ofNat k => exact Nat.mul_pos h (Nat.pow_pos (by decide))
  | negSucc k => exact h

theorem inUnits_ratio (num den : Nat) (e : Int) :
    ((inUnits num den e).1 : ℚ) / (inUnits num den e).2 = num / den / 10 ^ e := by
  cases e with
  | ofNat k =>
    simp only [inUnits, Nat.pow_eq, Int.ofNat_eq_natCast, zpow_natCast]
    push_cast
    rw [div_div]
  | negSucc k =>
    simp only [inUnits, Nat.pow_eq, zpow_negSucc]
    push_cast
    rw [div_inv_eq_mul]
    ring

theorem range_of_contains (hf : isFinite x = true) (hz : isZero x = false)
    (h : (roundingOf x).Contains q) : (2 : ℚ) ^ (-1075 : ℤ) ≤ q ∧ q < 2 ^ (1024 : ℤ) := by
  have he := exact_spec hf
  have hm : (1 : ℚ) ≤ (exact x).mantissa := by exact_mod_cast mantissa_pos hf hz
  have hn := contains_roundingOf (mantissa_pos hf hz) h
  have hlow := hn.low
  have hhigh := hn.high
  have hshort : ((exact x).mantissa : ℚ) + 1 ≤ 2 ^ 53 := by exact_mod_cast he.short
  have htwo : (0 : ℚ) < 2 ^ (exact x).exponent := by positivity
  constructor
  · have h1 : (1 / 2 : ℚ) * 2 ^ (exact x).exponent ≤ q := (le_div_iff₀ htwo).mp (by linarith)
    refine le_trans ?_ h1
    rw [show (1 / 2 : ℚ) = 2 ^ (-1 : ℤ) by norm_num, ← zpow_add₀ (by norm_num)]
    exact zpow_le_zpow_right₀ (by norm_num) (by have := he.least; omega)
  · have h1 := lt_zpow_of_div (show q / 2 ^ (exact x).exponent < 2 ^ 53 by linarith)
    refine lt_of_lt_of_le h1 ?_
    exact zpow_le_zpow_right₀ (by norm_num) (by have := he.most; push_cast; omega)

theorem pos_of_contains (hf : isFinite x = true) (hz : isZero x = false) (h : (roundingOf x).Contains q) : 0 < q :=
  lt_of_lt_of_le (by positivity) (range_of_contains hf hz h).1

/-! ## The search -/

theorem holds_of_withDigits (h : r.withDigits? point k = some n) :
    r.holds n (point - k) = true := by
  simp only [Rounding.withDigits?] at h
  split at h
  case h_1 h1 h2 =>
    cases h
    split
    · exact h1
    · split
      · exact h2
      · split
        · exact h1
        · exact h2
  case h_2 h1 _ => exact Option.some.inj h ▸ h1
  case h_3 _ h2 => exact Option.some.inj h ▸ h2
  case h_4 => cases h

theorem isSome_withDigits
    (h : r.holds ((inUnits r.value r.den (point - k)).1 / (inUnits r.value r.den (point - k)).2) (point - k) = true) :
    (r.withDigits? point k).isSome = true := by
  simp only [Rounding.withDigits?, h]
  split <;> simp_all

theorem holds_of_search (fuel k : Nat)
    (h : (r.withDigits? point (k + fuel)).isSome = true) :
    r.holds (r.search point fuel k).1 (point - (r.search point fuel k).2) = true := by
  induction fuel generalizing k with
  | zero =>
    obtain ⟨n, hn⟩ := Option.isSome_iff_exists.mp h
    rw [Nat.add_zero] at hn
    rw [Rounding.search, hn]
    exact holds_of_withDigits hn
  | succ fuel ih =>
    rw [Rounding.search]
    split
    case h_1 n hn => exact holds_of_withDigits hn
    case h_2 => exact ih (k + 1) (by rwa [Nat.add_right_comm])

theorem isSome_eighteen (hf : isFinite x = true) (hz : isZero x = false)
    (hp : (10 : ℚ) ^ (point - 1) ≤ (roundingOf x).value / (roundingOf x).den) :
    ((roundingOf x).withDigits? point 18).isSome = true := by
  have hm := mantissa_pos hf hz
  have he := exact_spec hf
  apply isSome_withDigits
  rw [holds_iff]
  rw [value_div_den] at hp
  set e : Int := point - (18 : Nat) with hed
  set V : ℚ := (exact x).mantissa * 2 ^ (exact x).exponent with hV
  have hten : (0 : ℚ) < 10 ^ e := by positivity
  have hunit : (10 : ℚ) ^ e < 2 ^ (exact x).exponent / 4 := by
    have h1 : (10 : ℚ) ^ e * 10 ^ 17 ≤ V := by
      calc (10 : ℚ) ^ e * 10 ^ 17 = 10 ^ (point - 1) := by
            rw [← zpow_natCast, ← zpow_add₀ (by norm_num)]
            congr 1
            omega
        _ ≤ V := hp
    have h2 : V ≤ 2 ^ 53 * 2 ^ (exact x).exponent := by
      have : ((exact x).mantissa : ℚ) ≤ 2 ^ 53 := by exact_mod_cast he.short.le
      rw [hV]
      gcongr
    linarith
  have hden := inUnits_pos (roundingOf x).value (den_pos x) e
  have hr := inUnits_ratio (roundingOf x).value (roundingOf x).den e
  rw [value_div_den, ← hV] at hr
  generalize (inUnits (roundingOf x).value (roundingOf x).den e).1 = a at *
  generalize (inUnits (roundingOf x).value (roundingOf x).den e).2 = b at *
  have hb : (0 : ℚ) < b := by exact_mod_cast hden
  have hfloor : ((a / b : Nat) : ℚ) * 10 ^ e ≤ V ∧ V < ((a / b : Nat) + 1 : ℚ) * 10 ^ e := by
    have h1 : ((a / b : Nat) : ℚ) ≤ a / b := Nat.cast_div_le
    have h2 : (a / b : ℚ) < (a / b : Nat) + 1 := by
      rw [div_lt_iff₀ hb]
      have := Nat.lt_div_mul_add hden (a := a)
      have h3 : (a : ℚ) < (a / b : Nat) * b + b := by exact_mod_cast this
      linarith
    rw [hr] at h1 h2
    exact ⟨(le_div_iff₀ hten).mp h1, (div_lt_iff₀ hten).mp h2⟩
  exact contains_of_near hm (by linarith [hfloor.2]) hfloor.1

theorem decimalPoint_spec (hf : isFinite x = true) (hz : isZero x = false) :
    (10 : ℚ) ^ (decimalPoint (roundingOf x).value (roundingOf x).den - 1) ≤
      (roundingOf x).value / (roundingOf x).den := by
  have he := exact_spec hf
  have hm : (1 : ℚ) ≤ (exact x).mantissa := by exact_mod_cast mantissa_pos hf hz
  have hshort : ((exact x).mantissa : ℚ) < 2 ^ (53 : ℤ) := by exact_mod_cast he.short
  have htwo : (0 : ℚ) < 2 ^ (exact x).exponent := by positivity
  have hv := value_div_den x
  have hn : (roundingOf x).value ≠ 0 := by
    intro h0
    rw [h0] at hv
    simp at hv
    rcases hv with h | h
    · have := mantissa_pos hf hz
      omega
    · exact absurd h.symm htwo.ne
  obtain ⟨low, high⟩ := ratio_bounds hn (den_pos x)
  set bits : ℤ := ((roundingOf x).value.log2 : ℤ) - (roundingOf x).den.log2 with hb
  have hhigh : bits - 1 < 53 + (exact x).exponent := by
    apply zpow_two_lt.mp
    rw [zpow_add₀ (by norm_num)]
    refine low.trans ?_
    rw [hv]
    gcongr
  have hlow : (exact x).exponent < bits + 1 := by
    apply zpow_two_lt.mp
    refine lt_of_le_of_lt ?_ high
    rw [hv]
    exact le_mul_of_one_le_left htwo.le hm
  have h1 := he.least
  have h2 := he.most
  apply raisePoint_spec (den_pos x)
  exact (firstPoint_le (by omega) (by omega)).trans low.le

/-! ## Digits -/

def Digits.chars (d : Digits) : List Char := d.digits.map Nat.digitChar

def Digits.value (d : Digits) : ℚ := Nat.ofDigitChars 10 d.chars 0 * 10 ^ (d.point - d.digits.length)

theorem digitChar_of_isDigit {c : Char} (h : c.isDigit = true) : Nat.digitChar (c.toNat - 48) = c := by
  simp only [Char.isDigit, Bool.and_eq_true, decide_eq_true_eq, UInt32.le_iff_toNat_le] at h
  simp at h
  apply Char.toNat_inj.mp
  rw [Nat.toNat_digitChar_of_lt_ten (by omega)]
  omega

theorem chars_decimalDigits (n : Nat) : (decimalDigits n).map Nat.digitChar = Nat.toDigits 10 n := by
  rw [decimalDigits, List.map_map]
  conv_rhs => rw [← List.map_id (Nat.toDigits 10 n)]
  apply List.map_congr_left
  intro c hc
  exact digitChar_of_isDigit (Nat.isDigit_of_mem_toDigits (by decide) (by decide) hc)

theorem decimalDigits_lt_ten {d : Nat} (h : d ∈ decimalDigits n) : d < 10 := by
  obtain ⟨c, hc, rfl⟩ := List.mem_map.mp h
  have hd := Nat.isDigit_of_mem_toDigits (by decide) (by decide) hc
  have hr := digitChar_of_isDigit hd
  by_contra hge
  have hx := @Nat.isDigit_digitChar (c.toNat - 48)
  rw [hr, hd] at hx
  simp at hx
  exact hge hx

theorem toDigits_head (h : 0 < n) : ∃ d cs, 0 < d ∧ d < 10 ∧ Nat.toDigits 10 n = Nat.digitChar d :: cs := by
  induction n using Nat.strong_induction_on with
  | _ n ih =>
    rcases Nat.lt_or_ge n 10 with hlt | hge
    · exact ⟨n, [], h, hlt, Nat.toDigits_of_lt_base hlt⟩
    · obtain ⟨d, cs, hd, hd', hcs⟩ := ih (n / 10) (by omega) (by omega)
      exact ⟨d, cs ++ [(n % 10).digitChar], hd, hd', by
        rw [Nat.toDigits_of_base_le (by decide) hge, hcs, List.cons_append]⟩

theorem dropTrailingZeros_append (ds : List Nat) :
    ∃ j, ds = dropTrailingZeros ds ++ List.replicate j 0 := by
  have h := List.takeWhile_append_dropWhile (p := fun d : Nat => d == 0) (l := ds.reverse)
  have hz : ds.reverse.takeWhile (fun d : Nat => d == 0) =
      List.replicate (ds.reverse.takeWhile (fun d : Nat => d == 0)).length 0 := by
    apply List.eq_replicate_of_mem
    intro d hd
    simpa using List.mem_takeWhile_imp hd
  refine ⟨(ds.reverse.takeWhile (fun d : Nat => d == 0)).length, ?_⟩
  have hr := congrArg List.reverse h
  rw [List.reverse_append, List.reverse_reverse, hz, List.reverse_replicate] at hr
  exact hr.symm

/-- What the shortest digits of a double are: a number that rounds to it, without a zero in front. -/
structure Digits.Spells (d : Digits) (x : Float) : Prop where
  contains : (roundingOf x).Contains d.value
  digit : ∀ n ∈ d.digits, n < 10
  head : ∃ a rest, d.digits = a :: rest ∧ a ≠ 0

theorem shortest_spells (hf : isFinite x = true) (hz : isZero x = false) : (shortest x).Spells x := by
  set point := decimalPoint (roundingOf x).value (roundingOf x).den with hp
  have hs := holds_of_search 17 1 (isSome_eighteen hf hz (decimalPoint_spec hf hz))
  rw [← hp, holds_iff] at hs
  obtain ⟨n, k, hnk⟩ : ∃ n k, (roundingOf x).search point 17 1 = (n, k) := ⟨_, _, rfl⟩
  have hd : shortest x = ⟨dropTrailingZeros (decimalDigits n), point + ((decimalDigits n).length - k)⟩ := by
    simp only [shortest, ← hp, hnk]
  rw [hnk] at hs
  have hpos : 0 < n := by
    rcases Nat.eq_zero_or_pos n with rfl | h
    · simpa using pos_of_contains hf hz hs
    · exact h
  obtain ⟨j, hj⟩ := dropTrailingZeros_append (decimalDigits n)
  obtain ⟨d, cs, hd0, hd10, hcs⟩ := toDigits_head hpos
  have hhead : ∃ rest, decimalDigits n = d :: rest := by
    rw [decimalDigits, hcs]
    exact ⟨_, by rw [List.map_cons, Nat.toNat_digitChar_sub_48_of_lt_ten hd10]⟩
  constructor
  · rw [hd]
    have hvalue : (n : ℚ) = Nat.ofDigitChars 10 ((dropTrailingZeros (decimalDigits n)).map Nat.digitChar) 0 * 10 ^ j := by
      have h1 : Nat.ofDigitChars 10 ((decimalDigits n).map Nat.digitChar) 0 = n := by
        rw [chars_decimalDigits, Nat.ofDigitChars_ten_toDigits]
      rw [hj, List.map_append, List.map_replicate, Nat.ofDigitChars_append,
        show Nat.digitChar 0 = '0' from rfl, Nat.ofDigitChars_replicate_zero] at h1
      rw [mul_comm]
      exact_mod_cast h1.symm
    have hlen : (decimalDigits n).length = (dropTrailingZeros (decimalDigits n)).length + j := by
      conv_lhs => rw [hj]
      simp
    have heq : Digits.value ⟨dropTrailingZeros (decimalDigits n), point + ((decimalDigits n).length - k)⟩ =
        n * 10 ^ (point - k) := by
      rw [hvalue, Digits.value, Digits.chars, mul_assoc, ← zpow_natCast, ← zpow_add₀ (by norm_num), hlen]
      congr 2
      push_cast
      ring
    rw [heq]
    exact hs
  · intro a ha
    rw [hd] at ha
    exact decimalDigits_lt_ten (by rw [hj]; exact List.mem_append_left _ ha)
  · rw [hd]
    obtain ⟨rest, hrest⟩ := hhead
    rw [hrest] at hj ⊢
    dsimp only
    cases hdt : dropTrailingZeros (d :: rest) with
    | nil =>
      rw [hdt, List.nil_append] at hj
      have : d ∈ List.replicate j 0 := by rw [← hj]; exact List.mem_cons_self
      have := List.eq_of_mem_replicate this
      omega
    | cons a tail =>
      rw [hdt, List.cons_append] at hj
      have := (List.cons.inj hj).1
      exact ⟨a, tail, rfl, by omega⟩

/-! ## Reading decimals -/

theorem repr_length_bounds (hm : 0 < m) :
    10 ^ (m.repr.length - 1) ≤ m ∧ m < 10 ^ m.repr.length := by
  have hpos : 0 < m.repr.length := Nat.length_repr_pos
  refine ⟨?_, (Nat.length_repr_le_iff hpos).mp le_rfl⟩
  rcases Nat.eq_or_lt_of_le (show 1 ≤ m.repr.length from hpos) with h1 | h1
  · rw [← h1]
    exact hm
  · by_contra hc
    have := (Nat.length_repr_le_iff (show 0 < m.repr.length - 1 by omega)).mpr (not_le.mp hc)
    omega

theorem zpow_ten_lt {a b : ℤ} : (10 : ℚ) ^ a < 10 ^ b ↔ a < b := zpow_lt_zpow_iff_right₀ (by norm_num)

theorem ofDecimal_of_contains (hf : isFinite x = true) (hz : isZero x = false)
    (hs : isNegative x = false) {e : Int} (h : (roundingOf x).Contains (m * 10 ^ e)) :
    ofDecimal false m e = x := by
  obtain ⟨low, high⟩ := range_of_contains hf hz h
  have hm : 0 < m := by
    rcases Nat.eq_zero_or_pos m with rfl | hm
    · simpa using pos_of_contains hf hz h
    · exact hm
  obtain ⟨hd1, hd2⟩ := repr_length_bounds hm
  have hhigh : ((m.repr.length - 1 : Nat) : ℤ) + e < 309 := by
    apply zpow_ten_lt.mp
    calc (10 : ℚ) ^ (((m.repr.length - 1 : Nat) : ℤ) + e) = 10 ^ (m.repr.length - 1) * 10 ^ e := by
          rw [zpow_add₀ (by norm_num), zpow_natCast]
      _ ≤ m * 10 ^ e := by gcongr; exact_mod_cast hd1
      _ < 2 ^ (1024 : ℤ) := high
      _ ≤ 10 ^ (309 : ℤ) := by
          have hnat : 2 ^ 1024 ≤ 10 ^ 309 := by decide +kernel
          exact_mod_cast hnat
  have hlow : -324 < (m.repr.length : ℤ) + e := by
    apply zpow_ten_lt.mp
    calc (10 : ℚ) ^ (-324 : ℤ) ≤ 2 ^ (-1075 : ℤ) := zpow_le_of_tenPowLe (by decide +kernel)
      _ ≤ m * 10 ^ e := low
      _ < 10 ^ m.repr.length * 10 ^ e := by gcongr; exact_mod_cast hd2
      _ = 10 ^ ((m.repr.length : ℤ) + e) := by rw [zpow_add₀ (by norm_num), zpow_natCast]
  have hread (num den : Nat) (hden : 0 < den) (hq : (num / den : ℚ) = m * 10 ^ e) :
      ofRatio? false num den = some x := by
    rw [← hs]
    exact ofRatio?_of_contains hf hz hden (hq ▸ h)
  simp only [ofDecimal]
  rw [if_neg (by omega), if_neg (by omega), if_neg (by omega)]
  cases e with
  | ofNat k =>
    dsimp only
    rw [hread (m * Nat.pow 10 k) 1 one_pos (by simp)]
    rfl
  | negSucc k =>
    dsimp only
    rw [hread m (Nat.pow 10 (k + 1)) (by simp) (by simp [zpow_negSucc, div_eq_mul_inv])]
    rfl

theorem ofInt?_of_contains (hf : isFinite x = true) (hz : isZero x = false)
    (h : (roundingOf x).Contains n) : ofInt? (if isNegative x then -(n : Int) else n) = some x := by
  have hn : 0 < n := by
    rcases Nat.eq_zero_or_pos n with rfl | hn
    · simpa using pos_of_contains hf hz h
    · exact hn
  have hr : ofRatio? (isNegative x) n 1 = some x := ofRatio?_of_contains hf hz one_pos (by simpa using h)
  rw [ofInt?]
  cases hs : isNegative x with
  | true =>
    rw [hs] at hr
    simp only [↓reduceIte, Int.natAbs_neg, Int.natAbs_natCast, Left.neg_neg_iff, Int.natCast_pos, hn, decide_true]
    exact hr
  | false =>
    rw [hs] at hr
    exact hr

end SourceOptimizer.Number
