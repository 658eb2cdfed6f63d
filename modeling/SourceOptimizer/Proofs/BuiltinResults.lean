import SourceOptimizer.Proofs.Evaluation
import SourceOptimizer.Proofs.ProperValues

/-! The functions without effect give values that a run can have, when they are given such values. -/
namespace SourceOptimizer

variable {xs : List Value} {call : Caller} {ks : List Keyed}

namespace Value

variable {kvs : List (Value × Value)} {v a b x key : Value} {acc : List Value} {op : CompareOp} {f : String}

theorem properAll_iff : properAll xs = true ↔ ∀ x ∈ xs, x.proper = true := by
  induction xs with
  | nil => simp [properAll]
  | cons x xs ih => simp [properAll, ih]

theorem properPairs_iff :
    properPairs kvs = true ↔ ∀ p ∈ kvs, p.1.proper = true ∧ p.2.proper = true := by
  induction kvs with
  | nil => simp [properPairs]
  | cons p kvs ih => simp [properPairs, ih, and_assoc]

theorem proper_items (hv : v.proper = true) (h : v.items = .ok xs) :
    ∀ x ∈ xs, x.proper = true := by
  cases v with
  | str s =>
    cases h
    intro x hx
    obtain ⟨c, hc, rfl⟩ := List.mem_map.mp hx
    simpa [proper] using List.all_eq_true.mp hv c hc
  | bytes bs =>
    cases h
    intro x hx
    obtain ⟨b, -, rfl⟩ := List.mem_map.mp hx
    rfl
  | tuple ys | list ys =>
    cases h
    exact properAll_iff.mp hv
  | setOf ys | frozen ys =>
    cases h
    simp only [proper, Bool.and_eq_true] at hv
    exact properAll_iff.mp hv.1.1
  | dict kvs =>
    cases h
    simp only [proper, Bool.and_eq_true] at hv
    intro x hx
    obtain ⟨p, hp, rfl⟩ := List.mem_map.mp hx
    exact (properPairs_iff.mp hv.1.1 p hp).1
  | _ => cases h

/-! ## Arithmetic -/

def isNumber : Value → Bool
  | .int _ | .float _ | .complex _ _ => true
  | _ => false

theorem proper_of_isNumber (h : v.isNumber = true) : v.proper = true := by
  cases v <;> first | rfl | cases h

theorem isNumber_powFloats {x y : Float} (h : powFloats x y = .ok v) : v.isNumber = true := by
  rw [powFloats] at h
  split at h
  all_goals
    obtain ⟨_, _, heq⟩ := bind_eq_ok.mp h
    cases heq
    rfl

theorem isNumber_arith {op : BinaryOp} (hop : op = .add ∨ op = .pow) {ns : Numbers}
    (h : arith op ns = some (.ok v)) : v.isNumber = true := by
  rcases hop with rfl | rfl
  · cases ns <;>
    · cases h
      rfl
  · cases ns with
    | ints a b =>
      simp only [arith, intArith, Option.some.injEq, powInts] at h
      split at h
      · cases h
        rfl
      · obtain ⟨_, _, hrest⟩ := bind_eq_ok.mp h
        obtain ⟨_, _, hrest⟩ := bind_eq_ok.mp hrest
        exact isNumber_powFloats hrest
    | floats x y =>
      simp only [arith, floatArith, Option.some.injEq] at h
      exact isNumber_powFloats h
    | complexes a b =>
      simp only [arith, complexArith, Option.some.injEq] at h
      obtain ⟨_, _, heq⟩ := bind_eq_ok.mp h
      cases heq
      rfl

theorem binary_cases {op : BinaryOp} (hop : op = .add ∨ op = .pow) (h : binary op a b = .ok v) :
    v.isNumber = true ∨ op = .add ∧ concatenate a b = some (.ok v) := by
  have hnumbers : binary.onNumbers op a b = .ok v := by
    rw [← h, binary.eq_def]
    split
    · rcases hop with rfl | rfl <;> rfl
    · rfl
  rw [binary.onNumbers] at hnumbers
  split at hnumbers
  · split at hnumbers
    · split at hnumbers
      · rename_i ns _
        cases harith : arith op ns with
        | none =>
          rw [harith] at hnumbers
          cases hnumbers
        | some r =>
          rw [harith] at hnumbers
          cases r with
          | error e => cases hnumbers
          | ok w =>
            cases hnumbers
            exact .inl (isNumber_arith hop harith)
      · cases hnumbers
      · cases hnumbers
    · cases hnumbers
  · have hother : otherBinary op a b = some (.ok v) := by
      cases hother : otherBinary op a b with
      | none =>
        rw [hother] at hnumbers
        cases hnumbers
      | some r =>
        rw [hother] at hnumbers
        exact congrArg some hnumbers
    rcases hop with rfl | rfl
    · exact .inr ⟨rfl, hother⟩
    · rw [otherBinary.eq_def] at hother
      split at hother <;> simp_all [setArith]

theorem proper_concatenate (ha : a.proper = true) (hb : b.proper = true)
    (h : concatenate a b = some (.ok v)) : v.proper = true := by
  rw [concatenate.eq_def] at h
  split at h
  case h_1 | h_2 =>
    cases h
    simp only [proper, List.all_append, Bool.and_eq_true] at ha hb ⊢
    exact ⟨ha, hb⟩
  case h_3 | h_4 =>
    cases h
    rw [proper, properAll_iff] at ha hb ⊢
    intro x hx
    exact (List.mem_append.mp hx).elim (ha x) (hb x)
  all_goals cases h

theorem proper_add (ha : a.proper = true) (hb : b.proper = true) (h : binary .add a b = .ok v) :
    v.proper = true := by
  rcases binary_cases (.inl rfl) h with hnumber | ⟨-, hjoined⟩
  · exact proper_of_isNumber hnumber
  · exact proper_concatenate ha hb hjoined

/-! ## Sets and mappings -/

theorem apart_concat {related : Value → Value → Bool} (h : apart related xs = true)
    (hx : ∀ y ∈ xs, related y x = false) : apart related (xs ++ [x]) = true := by
  induction xs with
  | nil => rfl
  | cons y ys ih =>
    simp only [apart, Bool.and_eq_true, List.all_eq_true, Bool.not_eq_true'] at h
    simp only [List.cons_append, apart, Bool.and_eq_true, List.all_append, List.all_cons, List.all_nil, Bool.and_true,
      List.all_eq_true, Bool.not_eq_true']
    exact ⟨⟨h.1, hx y (by simp)⟩, ih h.2 fun z hz => hx z (by simp [hz])⟩

theorem checkKey_ok {u : Unit} (h : checkKey v = .ok u) : v.unhashable?.isNone = true := by
  rw [checkKey] at h
  split at h
  · cases h
  · rename_i hnone
    rw [hnone]
    rfl

structure Keys (acc : List Value) : Prop where
  proper : ∀ x ∈ acc, x.proper = true
  hashable : ∀ x ∈ acc, x.unhashable?.isNone = true
  apart : apart (fun a b => equal b a) acc.reverse = true

theorem Keys.proper_set (h : Keys acc) : (Value.setOf acc.reverse).proper = true := by
  simp only [Value.proper, Bool.and_eq_true, properAll_iff, List.all_eq_true, List.mem_reverse]
  exact ⟨⟨h.proper, h.hashable⟩, h.apart⟩

theorem Keys.distinct {ys : List Value} (hacc : Keys acc) (hxs : ∀ x ∈ xs, x.proper = true)
    (h : distinct acc xs = .ok ys) : (Value.setOf ys).proper = true := by
  induction xs generalizing acc with
  | nil =>
    cases h
    exact hacc.proper_set
  | cons x xs ih =>
    obtain ⟨_, hkey, hrest⟩ := bind_eq_ok.mp h
    refine ih ?_ (fun y hy => hxs y (by simp [hy])) hrest
    split
    · exact hacc
    · rename_i hnew
      refine ⟨?_, ?_, ?_⟩
      · simpa using ⟨hxs x (by simp), hacc.proper⟩
      · simpa using ⟨by simpa using checkKey_ok hkey, by simpa using hacc.hashable⟩
      · rw [List.reverse_cons]
        refine apart_concat hacc.apart fun y hy => ?_
        simp only [Bool.not_eq_true, List.any_eq_false] at hnew
        simpa using hnew y (List.mem_reverse.mp hy)

theorem proper_setKey {k : Value} (h : (Value.dict kvs).proper = true)
    (hk : k.proper = true) (hv : v.proper = true) (hkey : k.unhashable?.isNone = true) :
    (Value.dict (setKey kvs k v)).proper = true := by
  simp only [proper, Bool.and_eq_true, properPairs_iff] at h ⊢
  obtain ⟨⟨hproper, hkeys⟩, hapart⟩ := h
  rw [setKey]
  split
  · have hfirst : (kvs.map fun p => if equal p.1 k = true then (p.1, v) else p).map (·.1) = kvs.map (·.1) := by
      rw [List.map_map]
      refine List.map_congr_left fun p _ => ?_
      simp only [Function.comp]
      split <;> rfl
    rw [hfirst]
    refine ⟨⟨fun q hq => ?_, hkeys⟩, hapart⟩
    obtain ⟨p, hp, rfl⟩ := List.mem_map.mp hq
    split
    · exact ⟨(hproper p hp).1, hv⟩
    · exact hproper p hp
  · rename_i hnew
    simp only [Bool.not_eq_true, List.any_eq_false] at hnew
    refine ⟨⟨fun q hq => ?_, ?_⟩, ?_⟩
    · rcases List.mem_append.mp hq with hq | hq
      · exact hproper q hq
      · obtain rfl := List.mem_singleton.mp hq
        exact ⟨hk, hv⟩
    · simp only [List.map_append, List.all_append, hkeys, Bool.true_and]
      simpa using hkey
    · rw [List.map_append]
      refine apart_concat hapart fun y hy => ?_
      obtain ⟨p, hp, rfl⟩ := List.mem_map.mp hy
      simpa using hnew p hp

end Value

/-! ## Calls -/

namespace Builtin
open Value

theorem proper_pairsOf {i : Nat} {acc : List (Value × Value)} {vs : List Value} (hacc : (Value.dict acc).proper = true)
    (hvs : ∀ v ∈ vs, v.proper = true) (h : pairsOf i acc vs = .ok kvs) : (Value.dict kvs).proper = true := by
  induction vs generalizing i acc with
  | nil =>
    cases h
    exact hacc
  | cons v vs ih =>
    obtain ⟨⟨k, x⟩, hpair, hrest⟩ := bind_eq_ok.mp h
    obtain ⟨_, hkey, hrest⟩ := bind_eq_ok.mp hrest
    have hparts : k.proper = true ∧ x.proper = true := by
      rw [pairOf] at hpair
      split at hpair
      · cases hpair
      · rename_i hitems
        cases hpair
        have hall := proper_items (hvs v (by simp)) hitems
        exact ⟨hall k (by simp), hall x (by simp)⟩
      · cases hpair
    exact ih (proper_setKey hacc hparts.1 hparts.2 (checkKey_ok hkey)) (fun w hw => hvs w (by simp [hw])) hrest

theorem proper_text (s : String) : (Value.text s).proper = true := by
  rw [Value.text, Value.proper, List.all_eq_true]
  intro c hc
  obtain ⟨d, -, rfl⟩ := List.mem_map.mp hc
  have hvalid : d.toNat < 0xd800 ∨ 0xdfff < d.toNat ∧ d.toNat < 0x110000 := d.valid
  exact decide_eq_true (by omega)

theorem mapM_keys_mem {f : Value}
    (h : (xs.mapM fun x => do .ok (← call f x, x)) = Except.ok ks) : ∀ p ∈ ks, p.2 ∈ xs := by
  induction xs generalizing ks with
  | nil =>
    cases h
    simp
  | cons x xs ih =>
    rw [List.mapM_cons] at h
    obtain ⟨p, hp, hrest⟩ := bind_eq_ok.mp h
    obtain ⟨rest, hmap, heq⟩ := bind_eq_ok.mp hrest
    obtain ⟨k, -, hpair⟩ := bind_eq_ok.mp hp
    cases hpair
    cases heq
    intro q hq
    rcases List.mem_cons.mp hq with rfl | hq
    · simp
    · exact List.mem_cons_of_mem _ (ih hmap q hq)

theorem keyed_mem (h : keyed call key xs = .ok ks) :
    ∀ p ∈ ks, p.2 ∈ xs := by
  rw [keyed.eq_def] at h
  split at h
  · cases h
    simp
  · exact mapM_keys_mem h

theorem choose_mem {best : Keyed} {xs : List Keyed} (h : choose op best xs = .ok v) :
    ∃ p ∈ best :: xs, v = p.2 := by
  induction xs generalizing best with
  | nil =>
    cases h
    exact ⟨best, by simp, rfl⟩
  | cons x xs ih =>
    obtain ⟨better, -, hrest⟩ := bind_eq_ok.mp h
    obtain ⟨p, hp, rfl⟩ := ih hrest
    refine ⟨p, ?_, rfl⟩
    rcases List.mem_cons.mp hp with rfl | hp
    · split <;> simp
    · simp [hp]

theorem insertAll_mem {sorted out : Array Keyed} {xs : List Keyed} (h : insertAll sorted xs = .ok out) :
    ∀ p ∈ out, p ∈ sorted ∨ p ∈ xs := by
  induction xs generalizing sorted with
  | nil =>
    cases h
    exact fun _ => .inl
  | cons x xs ih =>
    obtain ⟨i, -, hrest⟩ := bind_eq_ok.mp h
    intro p hp
    rcases ih hrest p hp with hp | hp
    · rw [Array.insertIdxIfInBounds] at hp
      split at hp
      · rcases Array.mem_insertIdx.mp hp with rfl | hp
        · simp
        · exact .inl hp
      · exact .inl hp
    · simp [hp]

theorem takeRun_mem {down : Bool} {acc xs run rest : List Keyed} (h : takeRun down acc xs = .ok (run, rest)) :
    ∀ p, p ∈ run ∨ p ∈ rest → p ∈ acc ∨ p ∈ xs := by
  induction xs generalizing acc with
  | nil =>
    cases h
    exact fun _ => id
  | cons x xs ih =>
    intro p hp
    cases acc with
    | nil =>
      have := ih h p hp
      simp only [List.mem_cons, List.not_mem_nil, or_false, false_or] at this ⊢
      exact this
    | cons q acc =>
      obtain ⟨less, -, hrest⟩ := bind_eq_ok.mp h
      split at hrest
      · have := ih hrest p hp
        simp only [List.mem_cons] at this ⊢
        tauto
      · cases hrest
        exact hp

theorem sortKeyed_mem {xs out : List Keyed} (h : sortKeyed xs = .ok out) : ∀ p ∈ out, p ∈ xs := by
  rw [sortKeyed.eq_def] at h
  split at h
  · rename_i a b rest
    obtain ⟨down, -, hrest⟩ := bind_eq_ok.mp h
    obtain ⟨⟨run, left⟩, hrun, hrest⟩ := bind_eq_ok.mp hrest
    obtain ⟨sorted, hsorted, heq⟩ := bind_eq_ok.mp hrest
    cases heq
    intro p hp
    have hfrom : p ∈ run ∨ p ∈ left := by
      rcases insertAll_mem hsorted p (Array.mem_toList_iff.mp hp) with hp | hp
      · left
        split at hp <;> simpa using hp
      · exact .inr hp
    have := takeRun_mem hrun p hfrom
    simp only [List.mem_cons, List.not_mem_nil, or_false] at this ⊢
    tauto
  · cases h
    exact fun _ => id

theorem bind_mem {params : List String} {required positional : Nat}
    {vs : List (Option Value)} (h : Builtin.bind f params required positional args kws = .ok vs) :
    ∀ v, some v ∈ vs → v ∈ args ∨ ∃ k, (k, v) ∈ kws := by
  rw [Builtin.bind] at h
  split at h
  · cases h
  · obtain ⟨_, -, hrest⟩ := bind_eq_ok.mp h
    obtain ⟨_, -, hrest⟩ := bind_eq_ok.mp hrest
    obtain ⟨_, -, hrest⟩ := bind_eq_ok.mp hrest
    cases hrest
    intro v hv
    obtain ⟨⟨p, i⟩, -, heq⟩ := List.mem_map.mp hv
    dsimp only at heq
    split at heq
    · exact .inl (List.mem_of_getElem? heq)
    · obtain ⟨⟨k, w⟩, hfind, rfl⟩ := Option.map_eq_some_iff.mp heq
      exact .inr ⟨k, List.mem_of_find?_eq_some hfind⟩

/-! ### Numbers, truth values and texts -/

/-- Results that hold no other values: numbers, truth values, texts, pairs of numbers. -/
def isFlat : Value → Bool
  | .bool _ | .int _ | .float _ | .complex _ _ | .str _ => true
  | .tuple [.int _, .int _] | .tuple [.float _, .float _] => true
  | _ => false

theorem proper_of_isFlat (h : isFlat v = true) : v.proper = true ∨ ∃ s, v = .str s := by
  unfold isFlat at h
  split at h
  case h_5 => exact .inr ⟨_, rfl⟩
  case h_8 => cases h
  all_goals exact .inl rfl

theorem isFlat_of_isNumber (h : v.isNumber = true) : isFlat v = true := by
  cases v <;> first | rfl | cases h

def Flat (x : Answer) : Prop := ∀ v, x = .ok v → isFlat v = true

namespace Flat
variable {args : List Value} {kws : Keywords}

theorem ok (h : isFlat v = true) : Flat (.ok v) := by
  rintro _ ⟨⟩
  exact h

theorem error {e : Fault} : Flat (.error e) := nofun

theorem bind {α : Type} {x : Except Fault α} {f : α → Answer} (h : ∀ a, Flat (f a)) : Flat (x >>= f) := by
  intro v hv
  obtain ⟨a, -, hv⟩ := bind_eq_ok.mp hv
  exact h a v hv

theorem abs (x : Value) : Flat (Builtin.abs x) := by
  unfold Builtin.abs
  split
  · exact ok rfl
  · exact ok rfl
  · dsimp only
    split
    · exact error
    · exact ok rfl
  · exact error

theorem round : Flat (Builtin.round args kws) := by
  refine bind fun vs => ?_
  split
  · split
    · exact ok rfl
    · exact bind fun _ => ok rfl
    · rw [roundFloat]
      split
      · exact error
      · split
        · exact error
        · exact ok rfl
    · refine bind fun places => ?_
      unfold roundPlaces
      split
      · exact ok rfl
      · split
        · exact ok rfl
        · split
          · exact ok rfl
          · exact error
    · exact error
  · exact error

theorem powInts (b e m : Int) : Flat (Builtin.powInts b e m) := by
  unfold Builtin.powInts
  dsimp only
  repeat' split
  all_goals first | exact ok rfl | exact error

theorem pow : Flat (Builtin.pow args kws) := by
  refine bind fun vs => ?_
  split
  · split
    · intro v hv
      rcases binary_cases (.inr rfl) hv with hnumber | ⟨hop, -⟩
      · exact isFlat_of_isNumber hnumber
      · cases hop
    · split
      · exact powInts _ _ _
      · exact error
  · exact error

theorem divmod : Flat (Builtin.divmod args kws) := by
  refine bind fun _ => ?_
  repeat' split
  all_goals first | exact ok rfl | exact error

theorem str : Flat (Builtin.str args kws) := by
  refine bind fun vs => ?_
  split
  · refine bind fun enc => bind fun err => ?_
    split
    · exact ok rfl
    · split
      · exact bind fun _ => ok rfl
      · split
        · exact bind fun _ => ok rfl
        · exact error
        · exact error
  · exact ok rfl

theorem readText (base : Nat) (s : Text) : Flat (Builtin.readText base s) := bind fun _ => ok rfl

theorem readBytes (base : Nat) (bs : List Nat) : Flat (Builtin.readBytes base bs) := bind fun _ => ok rfl

theorem int : Flat (Builtin.int args kws) := by
  refine bind fun vs => ?_
  split
  · exact ok rfl
  · exact error
  · split
    · exact ok rfl
    · exact bind fun _ => ok rfl
    · exact readText _ _
    · exact readBytes _ _
    · exact error
  · refine bind fun base => ?_
    split
    · exact error
    · split
      · exact readText _ _
      · exact readBytes _ _
      · exact error
  · exact ok rfl

theorem float : Flat (Builtin.float args kws) := by
  refine bind fun argument => ?_
  split
  · exact ok rfl
  · dsimp only
    split
    · exact bind fun _ => ok rfl
    · exact ok rfl
    · split
      · exact ok rfl
      · exact error
    · split
      · exact ok rfl
      · exact error
    · exact error

theorem len (x : Value) : Flat (Builtin.len x) := by
  unfold Builtin.len
  split <;> first | exact ok rfl | exact error

end Flat

/-! ### All functions -/

section Calls
variable {args : List Value} {kws : Keywords} {v : Value} (hargs : ∀ a ∈ args, a.proper = true)
  (hkws : ∀ p ∈ kws, p.2.proper = true)
include hargs hkws

omit hargs in
theorem proper_keywords {start : List (Value × Value)} (hstart : (Value.dict start).proper = true) :
    (Value.dict (kws.foldl (fun acc (k, v) => setKey acc (Value.text k) v) start)).proper = true := by
  induction kws generalizing start with
  | nil => exact hstart
  | cons p kws ih =>
    exact ih (fun q hq => hkws q (by simp [hq])) (proper_setKey hstart (proper_text _) (hkws p (by simp)) rfl)

theorem proper_dict (h : dict args kws = .ok v) : v.proper = true := by
  unfold dict at h
  split at h
  · cases h
    exact proper_keywords hkws rfl
  · cases h
    exact proper_keywords hkws (hargs _ (by simp))
  · obtain ⟨xs, hxs, hrest⟩ := bind_eq_ok.mp h
    obtain ⟨start, hpairs, heq⟩ := bind_eq_ok.mp hrest
    cases heq
    exact proper_keywords hkws (proper_pairsOf rfl (proper_items (hargs _ (by simp)) hxs) hpairs)
  · cases h

theorem proper_sum (h : sum args kws = .ok v) : v.proper = true := by
  have hfrom {acc v : Value} {xs : List Value} (hacc : acc.proper = true) (hxs : ∀ x ∈ xs, x.proper = true)
      (h : sumFrom acc xs = .ok v) : v.proper = true := by
    induction xs generalizing acc with
    | nil =>
      cases h
      exact hacc
    | cons x xs ih =>
      obtain ⟨next, hnext, hrest⟩ := bind_eq_ok.mp h
      exact ih (proper_add hacc (hxs x (by simp)) hnext) (fun y hy => hxs y (by simp [hy])) hrest
  rw [sum] at h
  split at h
  · cases h
  · obtain ⟨vs, hvs, hrest⟩ := bind_eq_ok.mp h
    have hmem := bind_mem hvs
    have hproper (w : Value) (hw : some w ∈ vs) : w.proper = true := by
      rcases hmem w hw with hw | ⟨k, hk⟩
      · exact hargs w hw
      · exact hkws _ hk
    split at hrest
    · rename_i iterable start
      obtain ⟨xs, hxs, hrest⟩ := bind_eq_ok.mp hrest
      have hitems := proper_items (hproper iterable (by simp)) hxs
      have hstart : (start.getD (.int 0)).proper = true := by
        cases start with
        | none => rfl
        | some w => exact hproper w (by simp)
      split at hrest
      · cases hrest
      · cases hrest
      · exact hfrom hstart hitems hrest
    · cases hrest

omit hargs hkws in
theorem proper_chosen
    {fallback : Option Value} (hxs : ∀ x ∈ xs, x.proper = true) (hfallback : ∀ w, fallback = some w → w.proper = true)
    (h : (do
      match ← keyed call key xs with
      | x :: rest => choose op x rest
      | [] =>
        match fallback with
        | some w => .ok w
        | Option.none => .error (.value (.emptyChoice f))) = Except.ok v) : v.proper = true := by
  obtain ⟨ks, hks, hrest⟩ := bind_eq_ok.mp h
  split at hrest
  · obtain ⟨p, hp, rfl⟩ := choose_mem hrest
    exact hxs _ (keyed_mem hks p hp)
  · split at hrest
    · cases hrest
      exact hfallback _ rfl
    · cases hrest

theorem proper_extreme (h : extreme call f op args kws = .ok v) :
    v.proper = true := by
  have hfallback (w : Value) (hw : (kws.find? (·.1 == "default")).map (·.2) = some w) : w.proper = true := by
    obtain ⟨p, hp, rfl⟩ := Option.map_eq_some_iff.mp hw
    exact hkws _ (List.mem_of_find?_eq_some hp)
  unfold extreme at h
  dsimp only at h
  split at h
  · cases h
  · rename_i first more
    obtain ⟨_, -, hrest⟩ := bind_eq_ok.mp h
    split at hrest
    · cases hrest
    · split at hrest
      · obtain ⟨xs, hxs, hrest⟩ := bind_eq_ok.mp hrest
        exact proper_chosen (proper_items (hargs first (by simp)) hxs) hfallback hrest
      · exact proper_chosen hargs hfallback hrest

omit hkws in
theorem proper_sorted (h : sorted call args kws = .ok v) : v.proper = true := by
  unfold sorted at h
  dsimp only at h
  split at h
  · rename_i w
    obtain ⟨xs, hxs, hrest⟩ := bind_eq_ok.mp h
    obtain ⟨_, -, hrest⟩ := bind_eq_ok.mp hrest
    have hlist {key : Value} {reverse : Bool} (h : (do
        let ks ← keyed call key xs
        let out ← sortKeyed (if reverse then ks.reverse else ks)
        let out := out.map (·.2)
        .ok (.list (if reverse then out.reverse else out))) = Except.ok v) : v.proper = true := by
      obtain ⟨ks, hks, hrest⟩ := bind_eq_ok.mp h
      obtain ⟨out, hout, heq⟩ := bind_eq_ok.mp hrest
      cases heq
      rw [Value.proper, properAll_iff]
      intro x hx
      obtain ⟨p, hp, rfl⟩ : ∃ p ∈ out, p.2 = x := by
        split at hx <;> simpa using hx
      refine proper_items (hargs w (by simp)) hxs _ (keyed_mem hks p ?_)
      have := sortKeyed_mem hout p hp
      split at this <;> simpa using this
    split at hrest
    · obtain ⟨_, -, hrest⟩ := bind_eq_ok.mp hrest
      exact hlist hrest
    · exact hlist hrest
  · cases h

omit hkws in
theorem proper_of_optionalArgument (h : optionalArgument f args kws = .ok (some x)) :
    x.proper = true := by
  obtain ⟨_, -, hrest⟩ := bind_eq_ok.mp h
  split at hrest
  · cases hrest
  · cases hrest
    exact hargs x (by simp)
  · cases hrest

omit hkws in
theorem proper_ofItems {make : List Value → Answer}
    (hmake : ∀ xs, (∀ x ∈ xs, x.proper = true) → make xs = .ok v → v.proper = true)
    (h : (do
      match ← optionalArgument f args kws with
      | some x => make (← items x)
      | Option.none => make []) = Except.ok v) : v.proper = true := by
  obtain ⟨argument, harg, hrest⟩ := bind_eq_ok.mp h
  split at hrest
  · obtain ⟨xs, hxs, hrest⟩ := bind_eq_ok.mp hrest
    exact hmake xs (proper_items (proper_of_optionalArgument hargs harg) hxs) hrest
  · exact hmake [] (by simp) hrest

theorem proper_call {invoke : Nat → Value → Answer} {name : String} (h : call? invoke name args kws = some (.ok v)) :
    v.proper = true ∨ ∃ s, v = .str s := by
  have hflat {x : Answer} (hx : Flat x) (h : some x = some (.ok v)) :
      v.proper = true ∨ ∃ s, v = .str s := proper_of_isFlat (hx v (Option.some.inj h))
  unfold call? apply at h
  split at h
  · exact hflat (.bind .abs) h
  · exact hflat .round h
  · exact hflat .pow h
  · exact hflat .divmod h
  · exact .inl (proper_sum hargs hkws (Option.some.inj h))
  · exact .inl (proper_extreme hargs hkws (Option.some.inj h))
  · exact .inl (proper_extreme hargs hkws (Option.some.inj h))
  · exact hflat .str h
  · exact hflat .int h
  · exact hflat .float h
  · exact hflat (.bind fun _ => .ok rfl) h
  · have htuple (xs : List Value) (hxs : ∀ x ∈ xs, x.proper = true) (h : Except.ok (.tuple xs) = (.ok v : Answer)) :
        v.proper = true := by
      cases h
      exact properAll_iff.mpr hxs
    exact .inl (proper_ofItems hargs htuple (Option.some.inj h))
  · have hlist (xs : List Value) (hxs : ∀ x ∈ xs, x.proper = true) (h : Except.ok (.list xs) = (.ok v : Answer)) :
        v.proper = true := by
      cases h
      exact properAll_iff.mpr hxs
    exact .inl (proper_ofItems hargs hlist (Option.some.inj h))
  · have hset (xs : List Value) (hxs : ∀ x ∈ xs, x.proper = true)
        (h : (do .ok (.setOf (← distinct [] xs))) = Except.ok v) : v.proper = true := by
      obtain ⟨ys, hys, heq⟩ := bind_eq_ok.mp h
      cases heq
      exact Keys.distinct ⟨by simp, by simp, rfl⟩ hxs hys
    exact .inl (proper_ofItems hargs hset (Option.some.inj h))
  · exact .inl (proper_dict hargs hkws (Option.some.inj h))
  · exact hflat (.bind .len) h
  · exact .inl (proper_sorted hargs (Option.some.inj h))
  · exact hflat (.bind fun _ => .bind fun _ => .ok rfl) h
  · exact hflat (.bind fun _ => .bind fun _ => .ok rfl) h
  · cases h

end Calls

end Builtin
end SourceOptimizer
