import SourceOptimizer.Proofs.ProperValues
import SourceOptimizer.Proofs.Evaluation

/-! Values up to the signs of zeros. A complex number that is written as a sum loses the signs of its zeros; nothing
that equality, hashing and types see depends on them. -/
namespace SourceOptimizer

namespace Number

theorem unsigned_unsigned (x : Float) : unsigned (unsigned x) = unsigned x := by
  by_cases h : isZero x = true
  · rw [unsigned_of_isZero h]
    rfl
  · simp only [unsigned, h, Bool.false_eq_true, ↓reduceIte]

theorem eq_zero_or {x : Float} (h : isZero x = true) : x = 0.0 ∨ x = negate 0.0 := by
  have hm : magnitude x = 0 := (isZero_iff x).mp h
  cases hs : isNegative x with
  | false => exact .inl (ext_sign (by rw [hs]; rfl) (by rw [hm]; rfl))
  | true => exact .inr (ext_sign (by rw [hs]; rfl) (by rw [hm]; rfl))

theorem compareInt_unsigned (x : Float) (n : Int) : compareInt (unsigned x) n = compareInt x n := by
  by_cases h : isZero x = true
  · rw [unsigned_of_isZero h]
    rcases eq_zero_or h with rfl | rfl
    · rfl
    · rfl
  · simp only [unsigned, h, Bool.false_eq_true, ↓reduceIte]

theorem beq_unsigned_left (x y : Float) : (unsigned x == y) = (x == y) := by
  rw [← beq_unsigned (unsigned x) y, unsigned_unsigned, beq_unsigned]

theorem beq_unsigned_right (x y : Float) : (x == unsigned y) = (x == y) := by
  rw [← beq_unsigned x (unsigned y), unsigned_unsigned, beq_unsigned]

theorem isFinite_unsigned (x : Float) : isFinite (unsigned x) = isFinite x := by
  by_cases h : isZero x = true
  · rw [unsigned_of_isZero h]
    rcases eq_zero_or h with rfl | rfl <;> rfl
  · simp only [unsigned, h, Bool.false_eq_true, ↓reduceIte]

end Number

open Number

theorem floatEqInt_unsigned (x : Float) (n : Int) : floatEqInt (unsigned x) n = floatEqInt x n := by
  rw [floatEqInt, floatEqInt, isFinite_unsigned, compareInt_unsigned]

namespace Value

mutual

def unsigned : Value → Value
  | .complex re im => .complex (Number.unsigned re) (Number.unsigned im)
  | .tuple xs => .tuple (unsignedAll xs)
  | .list xs => .list (unsignedAll xs)
  | .setOf xs => .setOf (unsignedAll xs)
  | .frozen xs => .frozen (unsignedAll xs)
  | .dict kvs => .dict (unsignedPairs kvs)
  | v => v

def unsignedAll : List Value → List Value
  | [] => []
  | x :: xs => unsigned x :: unsignedAll xs

def unsignedPairs : List (Value × Value) → List (Value × Value)
  | [] => []
  | (k, v) :: kvs => (unsigned k, unsigned v) :: unsignedPairs kvs

end

theorem unsignedAll_eq_map (xs : List Value) : unsignedAll xs = xs.map unsigned := by
  induction xs with
  | nil => rfl
  | cons x xs ih => rw [unsignedAll, ih, List.map_cons]

theorem unsignedPairs_eq_map (kvs : List (Value × Value)) :
    unsignedPairs kvs = kvs.map fun p => (unsigned p.1, unsigned p.2) := by
  induction kvs with
  | nil => rfl
  | cons p kvs ih => rw [unsignedPairs, ih, List.map_cons]

theorem length_unsignedAll (xs : List Value) : (unsignedAll xs).length = xs.length := by
  rw [unsignedAll_eq_map, List.length_map]

theorem length_unsignedPairs (kvs : List (Value × Value)) : (unsignedPairs kvs).length = kvs.length := by
  rw [unsignedPairs_eq_map, List.length_map]

theorem atomEq_unsigned (a b : Value) : atomEq a.unsigned b.unsigned = atomEq a b := by
  cases a <;> cases b <;> simp [unsigned, atomEq, asInt?, isZero_unsigned, beq_unsigned_left, beq_unsigned_right,
    floatEqInt_unsigned]

theorem equal_of_atom {a b : Value} (h : a.isContainer = false) : equal a b = atomEq a b := by
  cases a <;> simp only [isContainer, Bool.true_eq_false] at h <;> cases b <;> simp only [equal]

mutual

theorem equal_unsigned : (a b : Value) → equal a.unsigned b.unsigned = equal a b
  | .tuple xs, b => by
    cases b with
    | tuple ys => simp only [unsigned, equal, equalAll_unsigned xs ys]
    | _ => simp [unsigned, equal, atomEq, asInt?]
  | .list xs, b => by
    cases b with
    | list ys => simp only [unsigned, equal, equalAll_unsigned xs ys]
    | _ => simp [unsigned, equal, atomEq, asInt?]
  | .setOf xs, b => by
    cases b with
    | setOf ys | frozen ys =>
      simp only [unsigned, equal, within_unsigned xs ys, length_unsignedAll]
    | _ => simp [unsigned, equal, atomEq, asInt?]
  | .frozen xs, b => by
    cases b with
    | setOf ys | frozen ys =>
      simp only [unsigned, equal, within_unsigned xs ys, length_unsignedAll]
    | _ => simp [unsigned, equal, atomEq, asInt?]
  | .dict xs, b => by
    cases b with
    | dict ys =>
      simp only [unsigned, equal, pairsWithin_unsigned xs ys, length_unsignedPairs]
    | _ => simp [unsigned, equal, atomEq, asInt?]
  | .none, b | .ellipsis, b | .notImplemented, b | .bool _, b | .int _, b | .float _, b | .complex _ _, b | .str _, b
  | .bytes _, b | .builtin _, b | .union _, b | .method _, b => by
    rw [equal_of_atom (by rfl), equal_of_atom (by rfl), atomEq_unsigned]

theorem equalAll_unsigned : (xs ys : List Value) → equalAll (unsignedAll xs) (unsignedAll ys) = equalAll xs ys
  | [], [] => rfl
  | [], _ :: _ => by simp only [unsignedAll, equalAll]
  | _ :: _, [] => by simp only [unsignedAll, equalAll]
  | x :: xs, y :: ys => by rw [unsignedAll, unsignedAll, equalAll, equalAll, equal_unsigned x y, equalAll_unsigned xs ys]

theorem within_unsigned : (xs ys : List Value) → within (unsignedAll xs) (unsignedAll ys) = within xs ys
  | [], _ => by rw [unsignedAll, within, within]
  | x :: xs, ys => by
    have hany : (unsignedAll ys).any (equal x.unsigned) = ys.any (equal x) := by
      rw [unsignedAll_eq_map, List.any_map]
      exact congrArg ys.any (funext fun y => equal_unsigned x y)
    rw [unsignedAll, within, within, hany, within_unsigned xs ys]

theorem pairsWithin_unsigned :
    (xs ys : List (Value × Value)) → pairsWithin (unsignedPairs xs) (unsignedPairs ys) = pairsWithin xs ys
  | [], _ => by rw [unsignedPairs, pairsWithin, pairsWithin]
  | (k, v) :: xs, ys => by
    have hany : ((unsignedPairs ys).any fun p => equal k.unsigned p.1 && equal v.unsigned p.2) =
        ys.any fun p => equal k p.1 && equal v p.2 := by
      rw [unsignedPairs_eq_map, List.any_map]
      exact congrArg ys.any (funext fun p => by simp only [Function.comp, equal_unsigned k, equal_unsigned v])
    rw [unsignedPairs, pairsWithin, pairsWithin, hany, pairsWithin_unsigned xs ys]

end

mutual

theorem unhashable_unsigned : (v : Value) → v.unsigned.unhashable? = v.unhashable?
  | .tuple xs => unhashableIn_unsigned xs
  | .none | .ellipsis | .notImplemented | .bool _ | .int _ | .float _ | .complex _ _ | .str _ | .bytes _ | .list _
  | .setOf _ | .frozen _ | .dict _ | .builtin _ | .union _ | .method _ => rfl

theorem unhashableIn_unsigned : (xs : List Value) → unhashableIn? (unsignedAll xs) = unhashableIn? xs
  | [] => rfl
  | x :: xs => by rw [unsignedAll, unhashableIn?, unhashableIn?, unhashable_unsigned x, unhashableIn_unsigned xs]

end

theorem typeName_unsigned (v : Value) : v.unsigned.typeName = v.typeName := by
  cases v <;> rfl

/-! ## Equality with itself -/

theorem atomEq_self {v : Value} (h : v.finite = true) (ha : v.isContainer = false) : atomEq v v = true := by
  cases v with
  | float x => exact beq_self (isNaN_of_isFinite h)
  | complex re im =>
    simp only [finite, Bool.and_eq_true] at h
    simp only [atomEq, beq_self (isNaN_of_isFinite h.1), beq_self (isNaN_of_isFinite h.2), Bool.and_self]
  | tuple | list | setOf | frozen | dict => cases ha
  | _ => simp [atomEq, asInt?]

theorem within_of_any {xs ys : List Value} (h : ∀ x ∈ xs, ys.any (equal x) = true) : within xs ys = true := by
  induction xs with
  | nil => rw [within]
  | cons x xs ih =>
    rw [within, h x (by simp), ih fun y hy => h y (by simp [hy])]
    rfl

theorem pairsWithin_of_any {xs ys : List (Value × Value)}
    (h : ∀ p ∈ xs, (ys.any fun q => equal p.1 q.1 && equal p.2 q.2) = true) : pairsWithin xs ys = true := by
  induction xs with
  | nil => rw [pairsWithin]
  | cons p xs ih =>
    rw [pairsWithin, h p (by simp), ih fun q hq => h q (by simp [hq])]
    rfl

mutual

theorem equal_self : (v : Value) → v.finite = true → equal v v = true
  | .tuple xs, h | .list xs, h => by
    rw [equal]
    exact equalAll_self xs h
  | .setOf xs, h | .frozen xs, h => by
    rw [equal, within_of_any fun x hx => List.any_eq_true.mpr ⟨x, hx, items_equal_self xs h x hx⟩]
    simp
  | .dict kvs, h => by
    rw [equal, pairsWithin_of_any fun p hp => List.any_eq_true.mpr ⟨p, hp, ?_⟩]
    · simp
    · simp [pairs_equal_self kvs h p hp]
  | .none, h | .ellipsis, h | .notImplemented, h | .bool _, h | .int _, h | .float _, h | .complex _ _, h | .str _, h
  | .bytes _, h | .builtin _, h | .union _, h | .method _, h => by
    rw [equal_of_atom (by rfl)]
    exact atomEq_self h (by rfl)

theorem equalAll_self : (xs : List Value) → finiteAll xs = true → equalAll xs xs = true
  | [], _ => by rw [equalAll]
  | x :: xs, h => by
    simp only [finiteAll, Bool.and_eq_true] at h
    rw [equalAll, equal_self x h.1, equalAll_self xs h.2]
    rfl

theorem items_equal_self : (xs : List Value) → finiteAll xs = true → ∀ x ∈ xs, equal x x = true
  | [], _, _, hx => by cases hx
  | y :: ys, h, x, hx => by
    simp only [finiteAll, Bool.and_eq_true] at h
    rcases List.mem_cons.mp hx with heq | hx
    · exact heq ▸ equal_self y h.1
    · exact items_equal_self ys h.2 x hx

theorem pairs_equal_self : (kvs : List (Value × Value)) → finitePairs kvs = true →
    ∀ p ∈ kvs, equal p.1 p.1 = true ∧ equal p.2 p.2 = true
  | [], _, _, hp => by cases hp
  | (k, v) :: kvs, h, p, hp => by
    simp only [finitePairs, Bool.and_eq_true] at h
    rcases List.mem_cons.mp hp with rfl | hp
    · exact ⟨equal_self k h.1.1, equal_self v h.1.2⟩
    · exact pairs_equal_self kvs h.2 p hp

end

theorem equal_of_unsigned {v w : Value} (h : w.unsigned = v.unsigned) (hv : v.finite = true) :
    w.typeName = v.typeName ∧ equal w v = true := by
  constructor
  · rw [← typeName_unsigned, h, typeName_unsigned]
  · rw [← equal_unsigned, h, equal_unsigned, equal_self v hv]

/-! ## Sets and mappings of different keys -/

theorem apart_unsigned {related : Value → Value → Bool}
    (h : ∀ a b, related a.unsigned b.unsigned = related a b) (xs : List Value) :
    apart related (unsignedAll xs) = apart related xs := by
  induction xs with
  | nil => rfl
  | cons x xs ih =>
    rw [unsignedAll, apart, apart, ih, unsignedAll_eq_map, List.all_map]
    congr 2
    funext y
    simp [h]

theorem distinct_apart {xs acc : List Value} (hkeys : xs.all (fun x => x.unhashable?.isNone) = true)
    (hacc : ∀ x ∈ xs, ∀ a ∈ acc, equal x a = false) (hapart : apart (fun a b => equal b a) xs = true) :
    distinct acc xs = .ok (acc.reverse ++ xs) := by
  induction xs generalizing acc with
  | nil => simp [distinct]
  | cons x xs ih =>
    simp only [List.all_cons, Bool.and_eq_true, Option.isNone_iff_eq_none] at hkeys
    simp only [apart, Bool.and_eq_true, List.all_eq_true, Bool.not_eq_true'] at hapart
    have hnew : acc.any (equal x) = false := List.any_eq_false.mpr fun a ha => by simp [hacc x (by simp) a ha]
    have hacc' : ∀ y ∈ xs, ∀ a ∈ x :: acc, equal y a = false := by
      intro y hy a ha
      rcases List.mem_cons.mp ha with rfl | ha
      · exact hapart.1 y hy
      · exact hacc y (by simp [hy]) a ha
    rw [distinct, checkKey, hkeys.1, hnew]
    show distinct (x :: acc) xs = _
    rw [ih hkeys.2 hacc' hapart.2]
    simp

theorem setKey_new {kvs : List (Value × Value)} {k v : Value} (h : ∀ p ∈ kvs, equal p.1 k = false) :
    setKey kvs k v = kvs ++ [(k, v)] := by
  rw [setKey, List.any_eq_false.mpr fun p hp => by simp [h p hp]]
  rfl

theorem dictValue_apart {kvs acc : List (Value × Value)}
    (hkeys : (kvs.map (·.1)).all (fun x => x.unhashable?.isNone) = true)
    (hacc : ∀ q ∈ acc, ∀ p ∈ kvs, equal q.1 p.1 = false) (hapart : apart equal (kvs.map (·.1)) = true) :
    kvs.foldlM (fun acc (k, v) => do
      Value.checkKey k
      return Value.setKey acc k v) acc = (.ok (acc ++ kvs) : Except Fault _) := by
  induction kvs generalizing acc with
  | nil => simp [pure, Except.pure]
  | cons p kvs ih =>
    obtain ⟨k, v⟩ := p
    simp only [List.map_cons, List.all_cons, Bool.and_eq_true, Option.isNone_iff_eq_none] at hkeys
    simp only [List.map_cons, apart, Bool.and_eq_true, List.all_eq_true, Bool.not_eq_true', List.mem_map,
      forall_exists_index, and_imp, forall_apply_eq_imp_iff₂] at hapart
    have hstep : setKey acc k v = acc ++ [(k, v)] := setKey_new fun q hq => hacc q hq (k, v) (by simp)
    have hacc' : ∀ q ∈ acc ++ [(k, v)], ∀ p ∈ kvs, equal q.1 p.1 = false := by
      intro q hq p hp
      rcases List.mem_append.mp hq with hq | hq
      · exact hacc q hq p (by simp [hp])
      · obtain rfl := List.mem_singleton.mp hq
        exact hapart.1 p hp
    have hcheck : checkKey k = .ok () := by rw [checkKey, hkeys.1]
    simp only [List.foldlM_cons, hcheck]
    show List.foldlM _ (setKey acc k v) kvs = _
    rw [hstep, ih hkeys.2 hacc' hapart.2]
    simp

end Value
end SourceOptimizer
