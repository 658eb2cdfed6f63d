import SourceOptimizer.Proofs.Denotation

/-! Values as expressions. An expression can be made for a value exactly if there is nothing in it but numbers, texts, the
missing value, lists, tuples, sets and mappings; and it comes to the value. -/
namespace SourceOptimizer.Value

mutual

def contents : Value → List Value
  | .tuple xs => .tuple xs :: contentsAll xs
  | .list xs => .list xs :: contentsAll xs
  | .setOf xs => .setOf xs :: contentsAll xs
  | .frozen xs => .frozen xs :: contentsAll xs
  | .dict kvs => .dict kvs :: contentsPairs kvs
  | v => [v]

def contentsAll : List Value → List Value
  | [] => []
  | x :: xs => contents x ++ contentsAll xs

def contentsPairs : List (Value × Value) → List Value
  | [] => []
  | (k, v) :: kvs => contents k ++ contents v ++ contentsPairs kvs

end

def writtenTypes : List String := ["int", "float", "str", "NoneType", "list", "tuple", "set", "dict"]

end SourceOptimizer.Value

namespace SourceOptimizer.Tree
open Value (contents contentsAll contentsPairs writtenTypes typeName proper properAll properPairs)

/-! ## Which values have expressions -/

mutual

theorem isSome_ofValue : (v : Value) → ((ofValue? v).isSome ↔ ∀ w ∈ contents v, typeName w ∈ writtenTypes)
  | .int _ | .float _ | .str _ | .none | .ellipsis | .notImplemented | .bool _ | .complex _ _ | .bytes _ | .frozen _
  | .union _ | .method _ => by simp [ofValue?, contents, typeName, writtenTypes]
  | .builtin name => by by_cases h : Value.isClass name = true <;> simp [ofValue?, contents, typeName, writtenTypes, h]
  | .list xs | .tuple xs | .setOf xs => by
    rw [contents, List.forall_mem_cons, ← isSome_ofValues xs, ofValue?]
    cases ofValues? xs <;> simp [typeName, writtenTypes]
  | .dict kvs => by
    rw [contents, List.forall_mem_cons, ← isSome_ofPairs kvs, ofValue?]
    cases ofPairs? kvs <;> simp [typeName, writtenTypes]

theorem isSome_ofValues : (vs : List Value) → ((ofValues? vs).isSome ↔ ∀ w ∈ contentsAll vs, typeName w ∈ writtenTypes)
  | [] => by simp [ofValues?, contentsAll]
  | v :: vs => by
    rw [contentsAll, List.forall_mem_append, ← isSome_ofValue v, ← isSome_ofValues vs, ofValues?]
    cases ofValue? v <;> cases ofValues? vs <;> simp

theorem isSome_ofPairs : (kvs : List (Value × Value)) →
    ((ofPairs? kvs).isSome ↔ ∀ w ∈ contentsPairs kvs, typeName w ∈ writtenTypes)
  | [] => by simp [ofPairs?, contentsPairs]
  | (k, v) :: kvs => by
    rw [contentsPairs, List.forall_mem_append, List.forall_mem_append, ← isSome_ofValue k, ← isSome_ofValue v,
      ← isSome_ofPairs kvs, ofPairs?]
    cases ofValue? k <;> cases ofValue? v <;> cases ofPairs? kvs <;> simp

end

/-! ## What the expressions come to -/

mutual

theorem evaluate_ofValue (names : String → Option Value) : (v : Value) → proper v = true → (t : Tree) → ofValue? v = some t →
    evaluateWith names t = .ok v ∧ t.kind?.any Kind.isExpr = true
  | .int _, _, t, h | .float _, _, t, h | .str _, _, t, h | .none, _, t, h => by
    cases h
    exact ⟨rfl, rfl⟩
  | .list xs, hv, t, h | .tuple xs, hv, t, h => by
    obtain ⟨ts, hts, heq⟩ := Option.bind_eq_some_iff.mp h
    cases heq
    refine ⟨?_, rfl⟩
    rw [evaluateWith, evaluate_ofValues names xs (by simpa [proper] using hv) ts hts]
    rfl
  | .setOf xs, hv, t, h => by
    obtain ⟨ts, hts, heq⟩ := Option.bind_eq_some_iff.mp h
    cases heq
    refine ⟨?_, rfl⟩
    simp only [proper, Bool.and_eq_true] at hv
    rw [evaluateWith, evaluate_ofValues names xs hv.1.1 ts hts]
    show (Value.distinct [] xs >>= fun items => pure (Value.setOf items)) = _
    rw [Value.distinct_apart hv.1.2 (by simp) hv.2]
    rfl
  | .dict kvs, hv, t, h => by
    obtain ⟨⟨ks, vs⟩, hts, heq⟩ := Option.bind_eq_some_iff.mp h
    cases heq
    refine ⟨?_, rfl⟩
    simp only [proper, Bool.and_eq_true] at hv
    obtain ⟨hks, hvs⟩ := evaluate_ofPairs names kvs hv.1.1 ks vs hts
    rw [evaluateWith, hks, hvs]
    show (dictValue ((kvs.map (·.1)).zip (kvs.map (·.2))) >>= fun kvs => pure (Value.dict kvs)) = _
    rw [List.zip_map', show dictValue (kvs.map fun p => (p.1, p.2)) = .ok kvs by
      simpa [dictValue] using Value.dictValue_apart hv.1.2 (List.forall_mem_nil _) hv.2]
    rfl

theorem evaluate_ofValues (names : String → Option Value) : (vs : List Value) → properAll vs = true → (ts : List Tree) →
    ofValues? vs = some ts → evaluateAllWith names ts = .ok vs
  | [], _, ts, h => by
    cases h
    rfl
  | v :: vs, hv, ts, h => by
    simp only [properAll, Bool.and_eq_true] at hv
    obtain ⟨u, hu, h⟩ := Option.bind_eq_some_iff.mp h
    obtain ⟨us, hus, heq⟩ := Option.bind_eq_some_iff.mp h
    cases heq
    rw [evaluateAllWith, (evaluate_ofValue names v hv.1 u hu).1, evaluate_ofValues names vs hv.2 us hus]
    rfl

theorem evaluate_ofPairs (names : String → Option Value) : (kvs : List (Value × Value)) → properPairs kvs = true →
    (ks vs : List Tree) → ofPairs? kvs = some (ks, vs) →
    evaluateAllWith names ks = .ok (kvs.map (·.1)) ∧ evaluateAllWith names vs = .ok (kvs.map (·.2))
  | [], _, ks, vs, h => by
    cases h
    exact ⟨rfl, rfl⟩
  | (k, v) :: kvs, hv, ks, vs, h => by
    simp only [properPairs, Bool.and_eq_true] at hv
    obtain ⟨t, ht, h⟩ := Option.bind_eq_some_iff.mp h
    obtain ⟨u, hu, h⟩ := Option.bind_eq_some_iff.mp h
    obtain ⟨⟨ts, us⟩, hrest, heq⟩ := Option.bind_eq_some_iff.mp h
    cases heq
    obtain ⟨hts, hus⟩ := evaluate_ofPairs names kvs hv.2 ts us hrest
    rw [evaluateAllWith, (evaluate_ofValue names k hv.1.1 t ht).1, hts, evaluateAllWith,
      (evaluate_ofValue names v hv.1.2 u hu).1, hus]
    exact ⟨rfl, rfl⟩

end

theorem ofValue_encodes {v : Value} (hv : proper v = true) :
    ((∀ w ∈ contents v, typeName w ∈ writtenTypes) →
      ∃ t, ofValue? v = some t ∧ t.kind?.any Kind.isExpr = true ∧ ∀ names, evaluateWith names t = .ok v) ∧
    ((∃ w ∈ contents v, typeName w ∉ writtenTypes) → ofValue? v = none) := by
  constructor
  · intro hwritten
    obtain ⟨t, ht⟩ := Option.isSome_iff_exists.mp ((isSome_ofValue v).mpr hwritten)
    exact ⟨t, ht, (evaluate_ofValue knownName? v hv t ht).2, fun names => (evaluate_ofValue names v hv t ht).1⟩
  · rintro ⟨w, hw, hother⟩
    rw [← Option.not_isSome_iff_eq_none, isSome_ofValue]
    exact fun hwritten => hother (hwritten w hw)

def nested : Value :=
  .dict [(.tuple [.int 1, .str [97]], .list [.float 2.5, .none, .setOf [.int (-3), .str []], .dict []])]

theorem ofValue_encodes_nested :
    (proper nested = true ∧
      ∃ t, ofValue? nested = some t ∧ t.kind?.any Kind.isExpr = true ∧ ∀ names, evaluateWith names t = .ok nested) ∧
    proper (.tuple [nested, .bool true]) = true ∧ ofValue? (.tuple [nested, .bool true]) = none := by
  have hnested : proper nested = true := by decide +kernel
  have hpair : proper (.tuple [nested, .bool true]) = true := by decide +kernel
  refine ⟨⟨hnested, (ofValue_encodes hnested).1 ?_⟩, hpair, (ofValue_encodes hpair).2 ⟨.bool true, ?_, ?_⟩⟩
  · simp [nested, contents, contentsAll, contentsPairs, typeName, writtenTypes]
  · simp [contents, contentsAll]
  · simp [typeName, writtenTypes]

end SourceOptimizer.Tree
