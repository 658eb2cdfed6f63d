import SourceOptimizer.Pass.PureCall
import SourceOptimizer.Proofs.Denotation
import SourceOptimizer.Proofs.Operands
import SourceOptimizer.Proofs.Placement
import SourceOptimizer.Proofs.Scanning

/-! The text of a value is read as an expression that comes to the value, where names are the predefined ones. -/
namespace SourceOptimizer.Grammar

open SourceOptimizer.Tree (refs refsAll evaluateWith evaluateAllWith)
open Value hiding none
open Number hiding unsigned
open Token (isKeyword)

variable {w n : String} {v : Value} {x re im : Float} {t : Tree} {xs ws : List Value} {us : List Tree}
  {kvs : List (Value × Value)} {ns names : List String}

def builtinValue? (name : String) : Option Value :=
  if name == "Ellipsis" then some .ellipsis
  else if name == "NotImplemented" then some .notImplemented
  else if (Value.classNames ++ Simulation.faultNames ++ Simulation.functionNames).contains name then some (.builtin name)
  else none

/-- An expression that comes to a value, up to signs of zeros. -/
structure Denotes (v : Value) (t : Tree) : Prop where
  unstarred : unstarred t
  plain : refs t = []
  value : ∃ w, evaluateWith builtinValue? t = .ok w ∧ w.unsigned = v.unsigned

/-- A spelling that is read as an expression for a value. -/
structure Rereads (ps : List Lexeme) (v : Value) : Prop where
  opens : opens ps = true
  reads : ∀ depth, Reads (bitOr (rulesWithin depth)) ps (Denotes v) closers

namespace Rereads
variable {ps : List Lexeme}

theorem expression (h : Rereads ps v) (depth : Nat) : Reads (rulesWithin depth .expression) ps (Denotes v) closers :=
  (expression_of_bitOr h.opens h.reads depth).1

theorem named (h : Rereads ps v) (depth : Nat) : Reads (rulesWithin depth .named) ps (Denotes v) closers :=
  (expression_of_bitOr h.opens h.reads depth).2

theorem of_factor (ho : Grammar.opens ps = true) (h : ∀ depth, Reads (factor (rulesWithin depth)) ps (Denotes v) closers) :
    Rereads ps v :=
  ⟨ho, fun depth => .bitOr_of_sum (by decide) (.binaryLevel (.binaryLevel (h depth) (by decide)) (by decide))⟩

theorem of_primary (ho : Grammar.opens ps = true) (hminus : ∀ qs, ps ≠ .sign "-" :: qs)
    (h : ∀ depth, Reads (primary (rulesWithin depth)) ps (Denotes v) closers) : Rereads ps v :=
  of_factor ho fun depth => .factor ho (by decide) hminus (.power ho (by decide) (by decide) (h depth))

theorem of_atom (ho : Grammar.opens ps = true) (hminus : ∀ qs, ps ≠ .sign "-" :: qs)
    (h : ∀ depth, Reads (atom (rulesWithin depth)) ps (Denotes v) closers) : Rereads ps v :=
  of_primary ho hminus fun depth => .primary ⟨by decide, by decide, by decide⟩ (h depth)

end Rereads

theorem denotes_constant (l : Nat) (v : Value) : Denotes v (constantNode l v) :=
  ⟨nofun, rfl, v, rfl, rfl⟩

/-! ## Words -/

theorem rereads_keyword (hw : (w, v) ∈ [("True", .bool true), ("False", .bool false), ("None", Value.none)]) :
    Rereads [.word w] v := by
  refine .of_atom ?_ (by simp) fun depth => (reads_keyword hw).imp fun t ⟨l, ht⟩ => ht ▸ denotes_constant l v
  simp only [List.mem_cons, Prod.mk.injEq, List.not_mem_nil, or_false] at hw
  rcases hw with ⟨rfl, -⟩ | ⟨rfl, -⟩ | ⟨rfl, -⟩ <;> rfl

theorem denotes_name (hv : builtinValue? w = some v) (l : Nat) : Denotes v (nameNode l w) := by
  refine ⟨nofun, rfl, v, ?_, rfl⟩
  simp [nameNode, Grammar.node, evaluateWith, hv]

theorem rereads_name (hw : isKeyword w = false) (hm : w ≠ "match") (hv : builtinValue? w = some v) :
    Rereads [.word w] v := by
  refine .of_atom ?_ (by simp) fun depth => (reads_name hw).imp fun t ⟨l, ht⟩ => ht ▸ denotes_name hv l
  simp [Grammar.opens, plainName, hw, hm]

theorem refusesBad (depth : Nat) : RefusesBad (rulesWithin depth .named) :=
  ((rereads_keyword (show ("None", Value.none) ∈ _ by simp)).named depth).bad rfl

/-! ## Numbers -/

/-- A number with or without a sign, as an operand. -/
structure Signs (negative : Bool) (ok : Value → Prop) (t : Tree) : Prop where
  unstarred : unstarred t
  plain : refs t = []
  value : ∃ v, ok v ∧ evaluateWith builtinValue? t = if negative then Tree.negated v else .ok v

def signedLexemes (negative : Bool) (ok : Value → Prop) : List Lexeme :=
  (if negative then [.sign "-"] else []) ++ [.number ok]

theorem opens_signed (negative : Bool) (ok : Value → Prop) : opens (signedLexemes negative ok) = true := by
  cases negative <;> rfl

theorem reads_signed (negative : Bool) (ok : Value → Prop) {signs : List String} (hs : ":=" ∉ signs ∧ "=" ∉ signs)
    (hp : closesPrimary signs) (hpow : "**" ∉ signs) (depth : Nat) :
    Reads (factor (rulesWithin depth)) (signedLexemes negative ok) (Signs negative ok) signs := by
  have hnumber : ∀ depth, Reads (factor (rulesWithin depth)) [.number ok]
      (fun t => ∃ l v, t = constantNode l v ∧ ok v) signs :=
    fun depth => factor_of_atom rfl hs hp hpow (by simp) reads_number
  cases negative with
  | false =>
    refine (hnumber depth).imp fun t ⟨l, v, ht, hok⟩ => ht ▸ ?_
    exact ⟨nofun, rfl, v, hok, rfl⟩
  | true =>
    have hinner : Reads (rulesWithin depth .factor) [.number ok] (fun t => ∃ l v, t = constantNode l v ∧ ok v) signs :=
      @reads_within _ _ _ .factor hnumber depth
    refine hinner.negative.imp fun t ⟨l, u, ht, l', v, hu, hok⟩ => ht ▸ hu ▸ ?_
    exact ⟨nofun, rfl, v, hok, rfl⟩

theorem rereads_signed (negative : Bool) (ok : Value → Prop)
    (h : ∀ u, ok u → ∃ w, (if negative then Tree.negated u else .ok u) = .ok w ∧ w.unsigned = v.unsigned) :
    Rereads (signedLexemes negative ok) v := by
  refine .of_factor (opens_signed negative ok) fun depth =>
    (reads_signed negative ok (by decide) ⟨by decide, by decide, by decide⟩ (by decide) depth).imp fun t ht => ?_
  obtain ⟨u, hu, hvalue⟩ := ht.value
  obtain ⟨w, hw, hsame⟩ := h u hu
  exact ⟨ht.unstarred, ht.plain, w, hvalue.trans hw, hsame⟩

theorem rereads_int (n : Int) : Rereads (Value.int n).lexemes (.int n) := by
  rw [lexemes]
  split
  · refine rereads_signed true (· = .int n.natAbs) ?_
    rintro _ rfl
    have hnat : -(n.natAbs : Int) = n := by omega
    exact ⟨.int n, congrArg (fun m => Except.ok (Value.int m)) hnat, rfl⟩
  · refine rereads_signed false (· = .int n) ?_
    rintro _ rfl
    exact ⟨_, rfl, rfl⟩

theorem numberLexemes_finite (hx : isFinite x = true) (suffix : String) (ok : Float → Value → Prop) :
    numberLexemes suffix ok x = signedLexemes (isNegative x) (ok (absolute x)) := by
  rw [numberLexemes, isNaN_of_isFinite hx, isInf_of_isFinite hx]
  rfl

theorem rereads_float (hx : isFinite x = true) : Rereads (Value.float x).lexemes (.float x) := by
  rw [lexemes, numberLexemes_finite hx]
  refine rereads_signed _ _ ?_
  rintro _ rfl
  have hnan := isNaN_of_isFinite hx
  cases hs : isNegative x with
  | true => exact ⟨.float x, by simp [Tree.negated, negate_absolute hnan hs], rfl⟩
  | false => exact ⟨.float x, by simp [absolute_of_nonnegative hnan hs], rfl⟩

theorem real_operand (hre : isFinite re = true) (hv : RealPart (absolute re) v) :
    ∃ w x, (if isNegative re then Tree.negated v else .ok v) = .ok w ∧ Number.unsigned x = Number.unsigned re ∧
      ∀ c d, binary .add w (.complex c d) = .ok (.complex (x + c) (0.0 + d)) ∧
        binary .sub w (.complex c d) = .ok (.complex (x - c) (0.0 - d)) := by
  have hnan := isNaN_of_isFinite hre
  have hint (n : Int) (x : Float) (hx : ofInt? n = some x) (c d : Float) :
      binary .add (.int n) (.complex c d) = .ok (.complex (x + c) (0.0 + d)) ∧
        binary .sub (.int n) (.complex c d) = .ok (.complex (x - c) (0.0 - d)) := by
    constructor <;> simp [binary, binary.onNumbers, numeric?, numbersHave, complexHas,
      numbers?, Value.Numeric.toPair, floatOfInt, hx, arith, complexArith, bind, Except.bind]
  cases hs : isNegative re with
  | true =>
    have hneg := negate_absolute hnan hs
    rcases hv with rfl | ⟨n, rfl, -, hn⟩
    · exact ⟨.float re, re, by simp [Tree.negated, hneg], rfl, fun _ _ => ⟨rfl, rfl⟩⟩
    · obtain ⟨x, hx, hunsigned⟩ := Option.map_eq_some_iff.mp hn
      exact ⟨.int (-n), x, rfl, by rw [hunsigned, hneg], hint _ x hx⟩
  | false =>
    have habs := absolute_of_nonnegative hnan hs
    rw [habs] at hv
    rcases hv with rfl | ⟨n, rfl, hn, -⟩
    · exact ⟨.float re, re, rfl, rfl, fun _ _ => ⟨rfl, rfl⟩⟩
    · exact ⟨.int n, re, rfl, rfl, hint _ re hn⟩

def partSign (im : Float) : BinaryOp := if Number.isNegative im then .sub else .add

def realItem (re : Float) : Item Tree :=
  ⟨signedLexemes (Number.isNegative re) (RealPart (Number.absolute re)),
    Signs (Number.isNegative re) (RealPart (Number.absolute re))⟩

def imaginaryItem (im : Float) : Item Tree :=
  ⟨[.number (· = .complex 0.0 (Number.absolute im))], fun t => ∃ l, t = constantNode l (.complex 0.0 (Number.absolute im))⟩

theorem complexLexemes_finite (hre : isFinite re = true) (him : isFinite im = true) :
    complexLexemes re im =
      if isZero re && !isNegative re then
        signedLexemes (isNegative im) (· = .complex 0.0 (absolute im))
      else .sign "(" :: ((realItem re).lexemes ++ operated (partSign im) [imaginaryItem im]) ++ [.sign ")"] := by
  rw [complexLexemes, numberLexemes_finite hre, numberLexemes_finite him, isNaN_of_isFinite him]
  cases hs : isNegative im <;>
    simp [signedLexemes, partSign, hs, operated, BinaryOp.sign, realItem, imaginaryItem]

theorem rereads_imaginary (hre : isZero re = true) (him : isFinite im = true) :
    Rereads (signedLexemes (isNegative im) (· = .complex 0.0 (absolute im))) (.complex re im) := by
  have hnan := isNaN_of_isFinite him
  refine rereads_signed _ _ ?_
  rintro _ rfl
  cases hs : isNegative im with
  | true =>
    refine ⟨.complex (negate 0.0) im, by simp [Tree.negated, negate_absolute hnan hs], ?_⟩
    rw [unsigned, unsigned, unsigned_of_isZero hre]
    rfl
  | false =>
    refine ⟨.complex 0.0 im, by simp [absolute_of_nonnegative hnan hs], ?_⟩
    rw [unsigned, unsigned, unsigned_of_isZero hre]
    rfl

theorem denotes_sum (hre : isFinite re = true) (him : isFinite im = true) {l l' : Nat}
    (ht : Signs (isNegative re) (RealPart (absolute re)) t) :
    Denotes (.complex re im) (node l (.binOp (partSign im)) [t, constantNode l' (.complex 0.0 (absolute im))]) := by
  obtain ⟨v, hv, hvalue⟩ := ht.value
  obtain ⟨w, x, hw, hx, hbinary⟩ := real_operand hre hv
  obtain ⟨hadd, hsub⟩ := hbinary 0.0 (absolute im)
  have hnan := isNaN_of_isFinite him
  have hevaluate : evaluateWith builtinValue?
      (node l (.binOp (partSign im)) [t, constantNode l' (.complex 0.0 (absolute im))]) =
        binary (partSign im) w (.complex 0.0 (absolute im)) := by
    rw [node, evaluateWith, hvalue, hw]
    rfl
  refine ⟨nofun, ?_, ?_⟩
  · simp [node, refs, refsAll, ht.plain, constantNode]
  · rw [hevaluate, partSign]
    cases hs : isNegative im with
    | true =>
      refine ⟨_, hsub, ?_⟩
      rw [unsigned, unsigned, sub_zero_unsigned, hx,
        zero_sub_unsigned (isNaN_absolute hnan), negate_absolute hnan hs]
    | false =>
      refine ⟨_, hadd, ?_⟩
      rw [unsigned, unsigned, add_zero_unsigned, hx, zero_add_unsigned,
        absolute_of_nonnegative hnan hs]

theorem partSign_facts (im : Float) :
    Distinguishes [.add, .sub] (partSign im) ∧ ∀ s ∈ (partSign im).sign :: closers, s ∈ followers := by
  rw [partSign]
  cases isNegative im
  · exact ⟨fun _ => rfl, by decide⟩
  · exact ⟨fun _ => rfl, by decide⟩

theorem reads_sum (hre : isFinite re = true) (him : isFinite im = true) (depth : Nat) :
    Reads (sum (rulesWithin depth)) ((realItem re).lexemes ++ operated (partSign im) [imaginaryItem im])
      (Denotes (.complex re im)) closers := by
  obtain ⟨hop, hsub⟩ := partSign_facts im
  have hreal : Reads (term (rulesWithin depth)) (realItem re).lexemes (realItem re).ok followers :=
    .binaryLevel (reads_signed _ _ (by decide) ⟨by decide, by decide, by decide⟩ (by decide) depth) (by decide)
  have himaginary : Reads (term (rulesWithin depth)) (imaginaryItem im).lexemes (imaginaryItem im).ok followers := by
    refine .binaryLevel (factor_of_atom rfl (by decide) ⟨by decide, by decide, by decide⟩ (by decide) (by simp [imaginaryItem])
      (reads_number.imp ?_)) (by decide)
    rintro t ⟨l, v, ht, rfl⟩
    exact ⟨l, ht⟩
  refine (reads_joined hop (by decide) ?_ (opens_signed _ _)).imp ?_
  · simp only [List.mem_cons, List.not_mem_nil, or_false, forall_eq_or_imp, forall_eq]
    exact ⟨hreal.mono hsub, himaginary.mono hsub⟩
  · rintro t ⟨l, first, rest, hfirst, hrest, rfl⟩
    obtain ⟨u, hu, rfl⟩ : ∃ u, (imaginaryItem im).ok u ∧ rest = [u] := by
      cases hrest with
      | cons hu hnil =>
        cases hnil
        exact ⟨_, hu, rfl⟩
    obtain ⟨l', rfl⟩ := hu
    exact denotes_sum hre him hfirst

theorem rereads_complex (hre : isFinite re = true) (him : isFinite im = true) :
    Rereads (Value.complex re im).lexemes (.complex re im) := by
  rw [lexemes, complexLexemes_finite hre him]
  split
  · rename_i hzero
    exact rereads_imaginary (Bool.and_eq_true_iff.mp hzero).1 him
  · have ho : opens ((realItem re).lexemes ++ operated (partSign im) [imaginaryItem im]) = true := by
      rw [realItem, signedLexemes]
      cases isNegative re <;> rfl
    have hsum : Rereads ((realItem re).lexemes ++ operated (partSign im) [imaginaryItem im]) (.complex re im) :=
      ⟨ho, fun depth => .bitOr_of_sum (by decide) (reads_sum hre him depth)⟩
    exact .of_atom rfl (by simp) fun depth => reads_round (hsum.named depth) ho fun t ht => ht.unstarred

/-! ## Displays -/

def valueItem (v : Value) : Item Tree := ⟨v.lexemes, Denotes v⟩

theorem lexemesAll_eq_map (xs : List Value) : lexemesAll xs = (xs.map valueItem).map Item.lexemes := by
  induction xs with
  | nil => rfl
  | cons x xs ih =>
    rw [lexemesAll, ih]
    rfl

theorem itemsRead (h : ∀ x ∈ xs, Rereads x.lexemes x) (depth : Nat) :
    ItemsRead (rulesWithin depth) (xs.map valueItem) := by
  intro it hit
  obtain ⟨x, hx, rfl⟩ := List.mem_map.mp hit
  exact ⟨(h x hx).named depth, (h x hx).opens, fun t ht => ht.unstarred⟩

theorem denotes_all (h : List.Forall₂ (fun x u => Denotes x u) xs us) :
    refsAll us = [] ∧
      ∃ ws, evaluateAllWith builtinValue? us = .ok ws ∧ unsignedAll ws = unsignedAll xs := by
  induction h with
  | nil => exact ⟨rfl, [], rfl, rfl⟩
  | cons hu _ ih =>
    obtain ⟨hrefs, ws, hws, hsame⟩ := ih
    obtain ⟨w, hw, hone⟩ := hu.value
    refine ⟨by rw [refsAll, hu.plain, hrefs]; rfl, w :: ws, ?_, ?_⟩
    · rw [evaluateAllWith, hw, hws]
      rfl
    · rw [unsignedAll, unsignedAll, hone, hsame]

theorem forall₂_denotes :
    List.Forall₂ (fun it u => Item.ok it u) (xs.map valueItem) us ↔ List.Forall₂ (fun x u => Denotes x u) xs us :=
  List.forall₂_map_left_iff

section Sequences
variable (h : List.Forall₂ (fun x u => Denotes x u) xs us) (l : Nat)
include h

theorem denotes_list : Denotes (.list xs) (node l (.list .load) [.seq us]) := by
  obtain ⟨hrefs, ws, hws, hsame⟩ := denotes_all h
  refine ⟨nofun, by simp [node, refs, refsAll, hrefs], .list ws, ?_, ?_⟩
  · rw [node, evaluateWith, hws]
    rfl
  · rw [unsigned, unsigned, hsame]

theorem denotes_tuple : Denotes (.tuple xs) (node l (.tuple .load) [.seq us]) := by
  obtain ⟨hrefs, ws, hws, hsame⟩ := denotes_all h
  refine ⟨nofun, by simp [node, refs, refsAll, hrefs], .tuple ws, ?_, ?_⟩
  · rw [node, evaluateWith, hws]
    rfl
  · rw [unsigned, unsigned, hsame]

end Sequences

theorem all_hashable_of_unsigned (h : unsignedAll ws = unsignedAll xs) :
    ws.all (fun x => x.unhashable?.isNone) = xs.all fun x => x.unhashable?.isNone := by
  have hall (ys : List Value) : ys.all (fun x => x.unhashable?.isNone) =
      (unsignedAll ys).all fun x => x.unhashable?.isNone := by
    rw [unsignedAll_eq_map, List.all_map]
    exact congrArg ys.all (funext fun y => by simp [unhashable_unsigned])
  rw [hall, h, ← hall]

theorem denotes_emptyCall (hv : (w, v) ∈ [("set", Value.setOf []), ("frozenset", .frozen [])])
    (l l' : Nat) : Denotes v (node l .call [nameNode l' w, .seq [], .seq []]) := by
  simp only [List.mem_cons, Prod.mk.injEq, List.not_mem_nil, or_false] at hv
  rcases hv with ⟨rfl, rfl⟩ | ⟨rfl, rfl⟩
  · exact ⟨fun _ _ _ h => (by cases h), rfl, _, rfl, rfl⟩
  · exact ⟨fun _ _ _ h => (by cases h), rfl, _, rfl, rfl⟩

/-! ### Their spellings -/

section Spellings
variable (h : ∀ x ∈ xs, Rereads x.lexemes x)
include h

theorem rereads_list : Rereads (Value.list xs).lexemes (.list xs) := by
  rw [lexemes, lexemesAll_eq_map]
  refine .of_atom rfl (by simp) fun depth => (reads_list (refusesBad depth) (itemsRead h depth)).imp ?_
  rintro t ⟨l, us, rfl, hall⟩
  exact denotes_list (forall₂_denotes.mp hall) l

theorem rereads_tuple : Rereads (Value.tuple xs).lexemes (.tuple xs) := by
  match xs, h with
  | [], _ =>
    refine .of_atom rfl (by simp [lexemes]) fun depth => (reads_emptyTuple (refusesBad depth)).imp ?_
    rintro t ⟨l, rfl⟩
    exact denotes_tuple .nil l
  | [x], h =>
    have hx := h x (by simp)
    rw [lexemes]
    refine .of_atom rfl (by simp) fun depth => (reads_single (hx.named depth) hx.opens fun t ht => ht.unstarred).imp ?_
    rintro t ⟨l, u, rfl, hu⟩
    exact denotes_tuple (.cons hu .nil) l
  | x :: y :: xs, h =>
    rw [lexemes, lexemesAll_eq_map]
    · refine .of_atom rfl (by simp) fun depth => (reads_tuple (itemsRead h depth)).imp ?_
      rintro t ⟨l, us, rfl, hall⟩
      exact denotes_tuple ((@forall₂_denotes (x :: y :: xs) us).mp hall) l
    · simp

end Spellings

theorem rereads_emptyCall (hv : (w, v) ∈ [("set", Value.setOf []), ("frozenset", .frozen [])]) :
    Rereads [.word w, .sign "(", .sign ")"] v := by
  have hw : isKeyword w = false ∧ opens [.word w, .sign "(", .sign ")"] = true := by
    simp only [List.mem_cons, Prod.mk.injEq, List.not_mem_nil, or_false] at hv
    rcases hv with ⟨rfl, -⟩ | ⟨rfl, -⟩ <;> decide
  refine .of_primary hw.2 (by simp) fun depth =>
    (reads_call hw.1 ⟨by decide, by decide, by decide⟩ fun hf hr => callBrackets_empty (refusesBad depth) hf hr).imp ?_
  rintro t ⟨l, l', a, rfl, rfl⟩
  exact denotes_emptyCall hv l l'

section Sets
variable (hkeys : xs.all (fun x => x.unhashable?.isNone) = true)
  (hapart : apart (fun a b => Value.equal b a) xs = true)
include hkeys hapart

theorem distinct_of_unsigned (h : unsignedAll ws = unsignedAll xs) : distinct [] ws = .ok ws := by
  refine (distinct_apart ?_ (by simp) ?_).trans (by simp)
  · rw [all_hashable_of_unsigned h, hkeys]
  · rw [← apart_unsigned (fun a b => equal_unsigned b a), h,
      apart_unsigned (fun a b => equal_unsigned b a), hapart]

theorem denotes_set (h : List.Forall₂ (fun x u => Denotes x u) xs us) (l : Nat) :
    Denotes (.setOf xs) (node l .setDisplay [.seq us]) := by
  obtain ⟨hrefs, ws, hws, hsame⟩ := denotes_all h
  refine ⟨nofun, by simp [node, refs, refsAll, hrefs], .setOf ws, ?_, ?_⟩
  · rw [node, evaluateWith, hws]
    show (distinct [] ws >>= fun items => pure (Value.setOf items)) = _
    rw [distinct_of_unsigned hkeys hapart hsame]
    rfl
  · rw [unsigned, unsigned, hsame]

theorem denotes_frozen (h : Denotes (.setOf xs) t) (l l' : Nat) :
    Denotes (.frozen xs) (node l .call [nameNode l' "frozenset", .seq [t], .seq []]) := by
  obtain ⟨w, hw, hsame⟩ := h.value
  obtain ⟨ws, rfl⟩ : ∃ ws, w = .setOf ws := by
    cases w <;> first | exact ⟨_, rfl⟩ | cases hsame
  have hitems : unsignedAll ws = unsignedAll xs := by
    exact Value.setOf.inj hsame
  refine ⟨nofun, by simp [node, refs, refsAll, h.plain, nameNode], .frozen ws, ?_, ?_⟩
  · have hname : evaluateWith builtinValue? (nameNode l' "frozenset") = .ok (.builtin "frozenset") :=
      rfl
    show (evaluateAllWith builtinValue? [t] >>= Tree.callValue (.builtin "frozenset")) = _
    rw [evaluateAllWith, hw]
    show Tree.callValue (.builtin "frozenset") [.setOf ws] = _
    show (distinct [] ws >>= fun items => Except.ok (Value.frozen items)) = _
    rw [distinct_of_unsigned hkeys hapart hitems]
    rfl
  · rw [unsigned, unsigned, hitems]

theorem reads_setDisplay {x : Value} {rest : List Value} (h : ∀ x ∈ xs, Rereads x.lexemes x)
    (hxs : xs = x :: rest) :
    Rereads (.sign "\x7b" :: separated "," (lexemesAll xs) ++ [.sign "\x7d"]) (.setOf xs) := by
  subst hxs
  rw [lexemesAll_eq_map]
  refine .of_atom rfl (by simp) fun depth => (reads_set (itemsRead h depth)).imp ?_
  rintro t ⟨l, us, rfl, hall⟩
  exact denotes_set hkeys hapart (forall₂_denotes.mp hall) l

theorem rereads_frozen (h : Rereads ps (.setOf xs)) :
    Rereads (.word "frozenset" :: .sign "(" :: ps ++ [.sign ")"]) (.frozen xs) := by
  refine .of_primary rfl (by simp) fun depth =>
    (reads_call (by decide) ⟨by decide, by decide, by decide⟩ fun hf hr =>
      callBrackets_single (h.named depth) h.opens hf hr).imp ?_
  rintro t ⟨l, l', a, ⟨u, hu, rfl⟩, rfl⟩
  exact denotes_frozen hkeys hapart hu l l'

end Sets

/-! ## Mappings -/

def pairEntry (p : Value × Value) : Entry := ⟨valueItem p.1, valueItem p.2⟩

theorem lexemesPairs_eq_map (kvs : List (Value × Value)) :
    lexemesPairs kvs = ((kvs.map pairEntry).map Entry.item).map Item.lexemes := by
  induction kvs with
  | nil => rfl
  | cons p kvs ih =>
    rw [lexemesPairs, ih]
    rfl

theorem forall₂_pairs {us : List (Tree × Tree)}
    (h : List.Forall₂ (fun e u => (Entry.item e).ok u) (kvs.map pairEntry) us) :
    List.Forall₂ (fun x u => Denotes x u) (kvs.map (·.1)) (us.map (·.1)) ∧
      List.Forall₂ (fun x u => Denotes x u) (kvs.map (·.2)) (us.map (·.2)) := by
  have hpairs : List.Forall₂ (fun p u => Denotes p.1 u.1 ∧ Denotes p.2 u.2) kvs us := List.forall₂_map_left_iff.mp h
  simp only [List.forall₂_map_left_iff, List.forall₂_map_right_iff]
  exact ⟨hpairs.imp fun _ _ h => h.1, hpairs.imp fun _ _ h => h.2⟩

theorem denotes_dict {us : List (Tree × Tree)}
    (hkeys : (kvs.map (·.1)).all (fun x => x.unhashable?.isNone) = true)
    (hapart : apart Value.equal (kvs.map (·.1)) = true)
    (h : List.Forall₂ (fun e u => (Entry.item e).ok u) (kvs.map pairEntry) us) (l : Nat) :
    Denotes (.dict kvs) (dictNode l us) := by
  obtain ⟨hks, hvs⟩ := forall₂_pairs h
  obtain ⟨hkrefs, ks, hkvalues, hksame⟩ := denotes_all hks
  obtain ⟨hvrefs, vs, hvvalues, hvsame⟩ := denotes_all hvs
  have hlength : ks.length = vs.length := by
    rw [← length_unsignedAll, hksame, length_unsignedAll, ← length_unsignedAll vs, hvsame,
      length_unsignedAll, List.length_map, List.length_map]
  have hfirst : (ks.zip vs).map (·.1) = ks := List.map_fst_zip hlength.le
  have hdict : Tree.dictValue (ks.zip vs) = .ok (ks.zip vs) := by
    refine dictValue_apart ?_ (by simp) ?_
    · rw [hfirst, all_hashable_of_unsigned hksame, hkeys]
    · rw [hfirst, ← apart_unsigned equal_unsigned, hksame, apart_unsigned equal_unsigned, hapart]
  refine ⟨nofun, by simp [dictNode, node, refs, refsAll, hkrefs, hvrefs], .dict (ks.zip vs), ?_, ?_⟩
  · rw [dictNode, node, evaluateWith, hkvalues, hvvalues]
    show (Tree.dictValue (ks.zip vs) >>= fun kvs => pure (Value.dict kvs)) = _
    rw [hdict]
    rfl
  · rw [unsignedAll_eq_map, unsignedAll_eq_map] at hksame hvsame
    rw [unsigned, unsigned, unsignedPairs_eq_map, unsignedPairs_eq_map]
    show Value.dict ((ks.zip vs).map (Prod.map unsigned unsigned)) = _
    rw [← List.zip_map, hksame, hvsame, List.map_map, List.map_map, List.zip_map']
    rfl

theorem rereads_dict (hkeys : (kvs.map (·.1)).all (fun x => x.unhashable?.isNone) = true)
    (hapart : apart Value.equal (kvs.map (·.1)) = true)
    (h : ∀ p ∈ kvs, Rereads p.1.lexemes p.1 ∧ Rereads p.2.lexemes p.2) : Rereads (Value.dict kvs).lexemes (.dict kvs) := by
  rw [lexemes, lexemesPairs_eq_map]
  have hentries (depth : Nat) : EntriesRead (rulesWithin depth) (kvs.map pairEntry) := by
    intro e he
    obtain ⟨p, hp, rfl⟩ := List.mem_map.mp he
    obtain ⟨hkey, hvalue⟩ := h p hp
    exact ⟨⟨hkey.named depth, hkey.expression depth, hkey.opens, fun t ht => ht.unstarred⟩, hvalue.expression depth⟩
  refine .of_atom rfl (by simp) fun depth => (reads_dict (refusesBad depth) (hentries depth)).imp ?_
  rintro t ⟨l, us, rfl, hall⟩
  exact denotes_dict hkeys hapart hall l

/-! ## Choices between classes -/

def choiceValue (n : String) : Value := if n = "None" then .none else .builtin n

def choiceOf : List String → Value
  | [n] => choiceValue n
  | ns => .union ns

structure Chooses (ns : List String) (t : Tree) : Prop where
  unstarred : unstarred t
  plain : refs t = []
  value : evaluateWith builtinValue? t = .ok (choiceOf ns)

def choiceItem (n : String) : Item Tree := ⟨[.word n], Chooses [n]⟩

theorem choice_facts (h : choiceNames.contains n = true) (hn : n ≠ "None") :
    isKeyword n = false ∧ n ≠ "match" ∧ builtinValue? n = some (.builtin n) ∧ isClass n = true := by
  have hall : (classNames ++ Simulation.faultNames).all (fun n => !isKeyword n && n != "match" &&
      n != "Ellipsis" && n != "NotImplemented" && isClass n) = true := by decide +kernel
  have hmem : n ∈ classNames ++ Simulation.faultNames := by
    simpa [choiceNames, hn] using h
  have hn := List.all_eq_true.mp hall n hmem
  simp only [Bool.and_eq_true, Bool.not_eq_true', bne_iff_ne] at hn
  obtain ⟨⟨⟨⟨hkeyword, hmatch⟩, hellipsis⟩, hnotImplemented⟩, hclass⟩ := hn
  refine ⟨hkeyword, hmatch, ?_, hclass⟩
  have hcontains : (classNames ++ Simulation.faultNames ++ Simulation.functionNames).contains n = true := by
    rw [List.contains_iff_mem]
    exact List.mem_append_left _ hmem
  rw [builtinValue?, if_neg (by simpa using hellipsis), if_neg (by simpa using hnotImplemented), if_pos hcontains]

theorem choices_choiceOf (h : ∀ n ∈ ns, choiceNames.contains n = true) (hne : ns ≠ []) :
    choices? (choiceOf ns) = some ns := by
  match ns, h with
  | [n], h =>
    rw [choiceOf, choiceValue]
    split
    · rename_i heq
      rw [heq]
      rfl
    · rename_i hn
      rw [choices?, (choice_facts (h n (by simp)) hn).2.2.2]
      rfl
  | n :: m :: ns, _ => rfl

theorem binary_choice (h : ∀ m ∈ ns ++ [n], choiceNames.contains m = true)
    (hne : ns ≠ []) (hn : n ∉ ns) : binary .bitOr (choiceOf ns) (choiceValue n) = .ok (choiceOf (ns ++ [n])) := by
  have hxs := choices_choiceOf (fun m hm => h m (by simp [hm])) hne
  have hy : choices? (choiceValue n) = some [n] := @choices_choiceOf [n] (by simpa using h n (by simp)) (by simp)
  have hlength : (ns ++ [n]).length ≠ 1 := by
    have := List.length_pos_iff.mpr hne
    simp only [List.length_append, List.length_singleton]
    omega
  have hunion : choiceOf (ns ++ [n]) = .union (ns ++ [n]) := by
    match ns, hne with
    | m :: ns, _ => cases ns <;> rfl
  have hother : otherBinary .bitOr (choiceOf ns) (choiceValue n) = (do
      let xs ← choices? (choiceOf ns)
      let ys ← choices? (choiceValue n)
      let all := xs ++ ys.filter fun y => !xs.contains y
      return .ok (if all.length == 1 then choiceOf ns else .union all)) := by
    match ns, hne with
    | [m], _ =>
      by_cases hm : m = "None"
      · have hn : n ≠ "None" := fun heq => hn (by simp [hm, heq])
        simp only [choiceOf, choiceValue, if_pos hm, if_neg hn, otherBinary]
      · simp only [choiceOf, choiceValue, if_neg hm, otherBinary]
    | m :: m' :: ns, _ => simp only [choiceOf, otherBinary]
  have hnumeric (ms : List String) : (choiceOf ms).numeric? = none := by
    match ms with
    | [m] =>
      rw [choiceOf, choiceValue]
      split <;> rfl
    | [] => rfl
    | m :: m' :: ms => rfl
  have hnumbers : binary .bitOr (choiceOf ns) (choiceValue n) =
      binary.onNumbers .bitOr (choiceOf ns) (choiceValue n) := by
    rw [binary]
    intro x y hx
    rw [hx] at hxs
    cases hxs
  rw [hnumbers, binary.onNumbers, hnumeric, hother, hxs, hy, hunion]
  simp [hn, hne]

theorem Chooses.joined {rest : List String} (l : Nat)
    (h : List.Forall₂ (fun n u => Chooses [n] u) rest us) {first : Tree} (hfirst : Chooses names first) (hne : names ≠ [])
    (hnames : ∀ n ∈ names ++ rest, choiceNames.contains n = true) (hnodup : (names ++ rest).Nodup) :
    Chooses (names ++ rest) (joined l .bitOr first us) := by
  induction h generalizing names first with
  | nil =>
    rw [List.append_nil]
    exact hfirst
  | @cons n u rest us hu _ ih =>
    rw [List.append_cons] at hnames hnodup ⊢
    have hn : n ∉ names := by
      have := (List.nodup_append.mp (List.nodup_append.mp hnodup).1).2.2
      exact fun hmem => this n hmem n (by simp) rfl
    refine ih ⟨nofun, ?_, ?_⟩ (by simp) hnames hnodup
    · simp [node, refs, refsAll, hfirst.plain, hu.plain]
    · show evaluateWith builtinValue? (.node _ (.binOp .bitOr) [first, u]) = _
      rw [evaluateWith, hfirst.value, hu.value]
      exact binary_choice (fun m hm => hnames m (List.mem_append_left _ hm)) hne hn

theorem reads_choiceItem (h : choiceNames.contains n = true) (depth : Nat) :
    opens (choiceItem n).lexemes = true ∧
      Reads (bitXor (rulesWithin depth)) (choiceItem n).lexemes (choiceItem n).ok (BinaryOp.sign .bitOr :: closers) := by
  have hoperand {ok : Tree → Prop} (ho : opens [.word n] = true)
      (h : Reads (atom (rulesWithin depth)) [.word n] ok (BinaryOp.sign .bitOr :: closers)) :
      Reads (bitXor (rulesWithin depth)) [.word n] ok (BinaryOp.sign .bitOr :: closers) :=
    .binaryLevel (.binaryLevel (.binaryLevel (.binaryLevel (.binaryLevel
      (factor_of_atom ho (by decide) ⟨by decide, by decide, by decide⟩ (by decide) (by simp) h)
      (by decide)) (by decide)) (by decide)) (by decide)) (by decide)
  by_cases hn : n = "None"
  · subst hn
    refine ⟨rfl, (hoperand rfl (reads_keyword (show ("None", Value.none) ∈ _ by simp))).imp ?_⟩
    rintro t ⟨l, rfl⟩
    exact ⟨fun _ _ _ h => (by cases h), rfl, rfl⟩
  · obtain ⟨hkeyword, hmatch, hvalue, -⟩ := choice_facts h hn
    have ho : opens [.word n] = true := by simp [opens, plainName, hkeyword, hmatch]
    refine ⟨ho, (hoperand ho (reads_name hkeyword)).imp ?_⟩
    rintro t ⟨l, rfl⟩
    refine ⟨fun _ _ _ h => (by cases h), rfl, ?_⟩
    simp [nameNode, node, evaluateWith, hvalue, choiceOf, choiceValue, hn]

theorem rereads_union (hlength : 2 ≤ names.length) (hnodup : names.Nodup)
    (hnames : ∀ n ∈ names, choiceNames.contains n = true) : Rereads (Value.union names).lexemes (.union names) := by
  match names, hlength with
  | n :: m :: names, _ =>
    have hmap : (n :: m :: names).map (fun n => [Lexeme.word n]) =
        (choiceItem n :: (m :: names).map choiceItem).map Item.lexemes := by
      simp [choiceItem]
    have hitem (n' : String) (hn' : n' ∈ n :: m :: names) := reads_choiceItem (hnames n' hn')
    rw [lexemes, hmap, separated_eq_flatMap]
    refine ⟨opens_append (hitem n (by simp) 0).1 (by decide), fun depth =>
      (@reads_joined ((m :: names).map choiceItem) [.bitOr] (bitXor (rulesWithin depth)) .bitOr closers (fun _ => rfl) (by decide)
        (choiceItem n) ?_ (hitem n (by simp) depth).1).imp ?_⟩
    · rw [← List.map_cons]
      rintro it hit
      obtain ⟨n', hn', rfl⟩ := List.mem_map.mp hit
      exact (hitem n' hn' depth).2
    · rintro t ⟨l, first, rest, hfirst, hrest, rfl⟩
      have hrest : List.Forall₂ (fun n u => Chooses [n] u) (m :: names) rest := by
        rw [List.forall₂_map_left_iff] at hrest
        exact hrest
      have hall := Chooses.joined l hrest hfirst (by simp) hnames hnodup
      exact ⟨hall.unstarred, hall.plain, _, hall.value, rfl⟩

/-! ## All values -/

mutual

theorem rereads_value : (v : Value) → v.proper = true → v.finite = true → Rereads v.lexemes v
  | .none, _, _ => rereads_keyword (by simp)
  | .ellipsis, _, _ => rereads_name (by decide) (by decide) rfl
  | .notImplemented, _, _ => rereads_name (by decide) (by decide) rfl
  | .bool b, _, _ => rereads_keyword (by cases b <;> simp)
  | .int n, _, _ => rereads_int n
  | .float x, _, hf => rereads_float hf
  | .complex re im, _, hf => by
    obtain ⟨hre, him⟩ := Bool.and_eq_true_iff.mp hf
    exact rereads_complex hre him
  | .str s, _, _ => .of_atom rfl (by simp [lexemes]) fun depth => reads_text.imp fun t ⟨l, ht⟩ => ht ▸ denotes_constant l _
  | .bytes bs, _, _ => .of_atom rfl (by simp [lexemes]) fun depth => reads_bytes.imp fun t ⟨l, ht⟩ => ht ▸ denotes_constant l _
  | .builtin _, _, _ => .of_atom rfl (by simp [lexemes]) fun _ => reads_foreign
  | .method _, _, _ => .of_atom rfl (by simp [lexemes]) fun _ => reads_foreign
  | .tuple xs, hp, hf => rereads_tuple (rereads_all xs hp hf)
  | .list xs, hp, hf => rereads_list (rereads_all xs hp hf)
  | .setOf [], _, _ => rereads_emptyCall (by simp)
  | .setOf (x :: xs), hp, hf => by
    simp only [proper, Bool.and_eq_true] at hp
    rw [lexemes]
    · exact reads_setDisplay hp.1.2 hp.2 (rereads_all (x :: xs) hp.1.1 hf) rfl
    · simp
  | .frozen [], _, _ => rereads_emptyCall (by simp)
  | .frozen (x :: xs), hp, hf => by
    simp only [proper, Bool.and_eq_true] at hp
    have h := rereads_frozen hp.1.2 hp.2 (reads_setDisplay hp.1.2 hp.2 (rereads_all (x :: xs) hp.1.1 hf) rfl)
    rw [lexemes]
    · simpa using h
    · simp
  | .dict kvs, hp, hf => by
    simp only [proper, Bool.and_eq_true] at hp
    exact rereads_dict hp.1.2 hp.2 (rereads_pairs kvs hp.1.1 hf)
  | .union names, hp, _ => by
    simp only [proper, Bool.and_eq_true, decide_eq_true_eq, List.all_eq_true] at hp
    exact rereads_union hp.1.1 hp.1.2 hp.2

theorem rereads_all : (xs : List Value) → properAll xs = true → finiteAll xs = true →
    ∀ x ∈ xs, Rereads x.lexemes x
  | [], _, _, _, hx => by cases hx
  | y :: ys, hp, hf, x, hx => by
    simp only [properAll, finiteAll, Bool.and_eq_true] at hp hf
    rcases List.mem_cons.mp hx with heq | hx
    · exact heq ▸ rereads_value y hp.1 hf.1
    · exact rereads_all ys hp.2 hf.2 x hx

theorem rereads_pairs : (kvs : List (Value × Value)) → properPairs kvs = true → finitePairs kvs = true →
    ∀ p ∈ kvs, Rereads p.1.lexemes p.1 ∧ Rereads p.2.lexemes p.2
  | [], _, _, _, hp => by cases hp
  | (k, v) :: kvs, hp, hf, p, hmem => by
    simp only [properPairs, finitePairs, Bool.and_eq_true] at hp hf
    rcases List.mem_cons.mp hmem with rfl | hmem
    · exact ⟨rereads_value k hp.1.1 hf.1.1, rereads_value v hp.1.2 hf.1.2⟩
    · exact rereads_pairs kvs hp.2 hf.2 p hmem

end

end SourceOptimizer.Grammar
