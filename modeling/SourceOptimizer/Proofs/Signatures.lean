import SourceOptimizer.Proofs.ParsedTrees
import SourceOptimizer.Proofs.StrippedTrees

/-! What becomes of signatures when documentation is removed. A module is gone through to its end exactly if
every function with a parameter for keywords has one for positions too. -/
namespace SourceOptimizer
open Tree Work

namespace Work
variable {α β : Type} {s m : Session}

theorem outcome_bind_of {x : Work α} {f : α → Work β} {a : α} (h : Returns x s a m) :
    outcome (x >>= f) s = outcome (f a) m := by
  rw [outcome_bind, show outcome x s = (.ok a, m) from h]

def Raises (x : Work α) (s : Session) (e : Fault) : Prop := ∃ s', outcome x s = (.error e, s')

theorem Raises.bind {x : Work α} {e : Fault} (h : Raises x s e) (f : α → Work β) : Raises (x >>= f) s e := by
  obtain ⟨s', h⟩ := h
  exact ⟨s', by rw [outcome_bind, h]⟩

theorem Raises.after {x : Work α} {f : α → Work β} {a : α} {e : Fault} (hx : Returns x s a m) (h : Raises (f a) m e) :
    Raises (x >>= f) s e := by
  obtain ⟨s', h⟩ := h
  exact ⟨s', (outcome_bind_of hx).trans h⟩

theorem Raises.not_returns {x : Work α} {e : Fault} (h : Raises x s e) {a : α} {s' : Session} : ¬ Returns x s a s' := by
  obtain ⟨_, h⟩ := h
  intro hreturns
  cases h.symm.trans hreturns

end Work

namespace Pass.Documentation
variable {s m : Session} {t : Tree} {parts : List Tree} {tag : Tag} {kind : Kind} {r : Store}
  {again : Nat → Work (List Tree)}

/-! ## Where it fails -/

def missingVariadic : Fault := .attribute (.ofObject "NoneType" "annotation")

theorem stripParameters_raises (hs : s.store.Empty) (ht : refs t = []) (h : accepted t = false) :
    Raises (stripParameters t) s missingVariadic := by
  obtain ⟨tag, kind, positional, plain, variadic, keywordOnly, keywordDefaults, keywordVariadic, defaults, rfl⟩ | ⟨htrue, _⟩ :=
    parameters_cases t
  · simp only [refs, refsAll, List.append_eq_nil_iff] at ht
    simp only [accepted, Bool.or_eq_false_iff, Bool.not_eq_false'] at h
    have hvariadic : untyped variadic = .absent := by
      cases variadic with
      | absent => rfl
      | _ => cases h.2
    refine .after rfl (.bind ?_ _)
    refine .after (mapM_returns hs ht.2.1) (.after (mapM_returns (s := told s _) hs ht.2.2.2.1) ?_)
    refine .after (stripVariadic_returns (s := told (told s _) _) hs ht.2.2.1) (.bind ?_ _)
    rw [hvariadic, stripKeywordVariadic, if_neg (by simp [h.1])]
    exact ⟨_, rfl⟩
  · rw [htrue] at h
    cases h

theorem strip_raises (hs : s.store.Empty) (hplain : refsAll parts = []) (h : acceptedParts kind parts = false) :
    Raises (strip kind parts) s missingVariadic := by
  unfold acceptedParts at h
  split at h
  next name parameters body decorators result =>
    simp only [refsAll, List.append_eq_nil_iff] at hplain
    exact .bind (stripParameters_raises hs hplain.1 h) _
  · cases h

/-! ## What is made of a tree -/

mutual

/-- A tree without documentation, and the store after it was gone through. -/
def treated (r : Store) : Tree → Tree × Store
  | .node tag kind parts =>
    let visited := treatedAll r parts
    let left := stripped visited.2 kind visited.1
    (.node tag kind left.1, left.2)
  | .seq items =>
    let visited := treatedAll r items
    (.seq visited.1, visited.2)
  | .absent => (.absent, r)
  | .shared id => (.shared id, r)

def treatedAll (r : Store) : List Tree → List Tree × Store
  | [] => ([], r)
  | t :: ts =>
    let first := treated r t
    let rest := treatedAll first.2 ts
    (first.1 :: rest.1, rest.2)

end

theorem isAbsent_treated (r : Store) (t : Tree) : (treated r t).1.isAbsent = t.isAbsent := by cases t <;> rfl

theorem acceptedParts_treated (r : Store) (hfits : Tree.fits kind parts = true) (hall : everyAll Tree.fits parts = true) :
    acceptedParts kind (treatedAll r parts).1 = acceptedParts kind parts := by
  cases kind with
  | functionDef name =>
    obtain ⟨parameters, body, decorators, result, rfl, hparameters⟩ := fits_functionDef hfits
    simp only [everyAll, Bool.and_eq_true] at hall
    obtain ⟨_, _, _, _, _, _, _, _, rfl, _⟩ := arguments_of_fits hparameters hall.1
    simp only [treatedAll, treated, stripped, acceptedParts, accepted, isAbsent_treated]
  | _ => rfl

structure Treats (accepted : Bool) (x : Work (List Tree)) (s : Session) (ts : List Tree) (r : Store) : Prop where
  returns : accepted = true → ∃ c, Returns x s ts { told s c with store := r }
  raises : accepted = false → Raises x s missingVariadic

theorem Treats.nothing (s : Session) (ts : List Tree) : Treats true (pure ts) s ts s.store where
  returns := fun _ => ⟨false, returns_pure.mpr ⟨rfl, (told_false s).symm⟩⟩
  raises := by simp

theorem Treats.cons {a b : Bool} {x y : Work (List Tree)} {u : Tree} {us : List Tree} {r r' : Store}
    (join : List Tree → List Tree → List Tree) (hjoin : ∀ ts, join [u] ts = u :: ts) (hx : Treats a x s [u] r)
    (hy : ∀ c, Returns x s [u] { told s c with store := r } → Treats b y { told s c with store := r } us r') :
    Treats (a && b) (do return join (← x) (← y)) s (u :: us) r' := by
  cases a with
  | false => exact ⟨by simp, fun _ => .bind (hx.raises rfl) _⟩
  | true =>
    obtain ⟨c, hfirst⟩ := hx.returns rfl
    have hrest := hy c hfirst
    rw [Bool.true_and]
    refine ⟨fun h => ?_, fun h => .after hfirst (.bind (hrest.raises h) _)⟩
    obtain ⟨d, hreturns⟩ := hrest.returns h
    refine ⟨c || d, .bind hfirst (returns_bind_pure.mpr ⟨us, ?_, hjoin us⟩)⟩
    simpa only [told, Bool.or_assoc] using hreturns

theorem Treats.node {visited : Work (List Tree)} (hs : s.store.Empty)
    (hfits : every Tree.fits (.node tag kind parts) = true) (hparts : PlainlyVisits Sheds parts visited)
    (h : Treats (everyAll acceptedParts parts) visited s (treatedAll s.store parts).1 (treatedAll s.store parts).2) :
    Treats (every acceptedParts (.node tag kind parts)) (step tag kind parts visited) s
      [(treated s.store (.node tag kind parts)).1] (treated s.store (.node tag kind parts)).2 := by
  obtain ⟨hnode, hall⟩ := every_node.mp hfits
  rw [every]
  cases haccepts : everyAll acceptedParts parts with
  | false => exact ⟨by simp, fun _ => .bind (.bind (h.raises haccepts) _) _⟩
  | true =>
    obtain ⟨c, hvisit⟩ := h.returns haccepts
    obtain ⟨hm, hto⟩ := hparts hs hvisit
    have haccepted := acceptedParts_treated s.store hnode hall
    rw [Bool.and_true]
    constructor
    · intro haccepts
      have hstrip := (returns_strip hm hto.shed.plain).mpr ⟨haccepted.trans haccepts, rfl, rfl⟩
      refine ⟨c || !calm kind (treatedAll s.store parts).1,
        returns_descend.mpr ⟨_, _, .bind hvisit hstrip, rfl, ?_⟩⟩
      rw [Store.Empty.keep (empty_stripped hm kind _)]
      simp only [told, Bool.or_assoc, treated]
    · exact fun hrefuses => .bind (.after hvisit (strip_raises hm hto.shed.plain (haccepted.trans hrefuses))) _

mutual

theorem visit_treats : (t : Tree) → refs t = [] → every Tree.fits t = true → ∀ {s : Session}, s.store.Empty →
    Treats (every acceptedParts t) (visit step again t) s [(treated s.store t).1] (treated s.store t).2
  | .node tag kind parts, ht, hfits, s, hs =>
    .node hs hfits (fun hm hv => visitParts_plain plainSound parts ht hm hv)
      (visitAll_treats parts ht (every_node.mp hfits).2 hs).1
  | .seq items, ht, hfits, s, hs => by
    have hitems := (visitAll_treats items ht hfits hs).2
    constructor
    · intro h
      obtain ⟨c, hvisit⟩ := hitems.returns h
      exact ⟨c, .bind hvisit rfl⟩
    · exact fun h => .bind (hitems.raises h) _
  | .absent, _, _, s, _ => .nothing s [.absent]
  | .shared _, ht, _, _, _ => by cases ht

theorem visitAll_treats : (ts : List Tree) → refsAll ts = [] → everyAll Tree.fits ts = true → ∀ {s : Session}, s.store.Empty →
    Treats (everyAll acceptedParts ts) (visitParts step again ts) s (treatedAll s.store ts).1 (treatedAll s.store ts).2 ∧
    Treats (everyAll acceptedParts ts) (visitItems step again ts) s (treatedAll s.store ts).1 (treatedAll s.store ts).2
  | [], _, _, s, _ => ⟨.nothing s [], .nothing s []⟩
  | t :: ts, hts, hfits, s, hs => by
    simp only [refsAll, List.append_eq_nil_iff] at hts
    simp only [everyAll, Bool.and_eq_true] at hfits
    have ht := visit_treats t hts.1 hfits.1 hs
    have hrest {c : Bool} (hvisit : Returns (visit step again t) s [(treated s.store t).1]
        { told s c with store := (treated s.store t).2 }) :=
      visitAll_treats ts hts.2 hfits.2 (visit_plain plainSound t hts.1 hs hvisit).1
    exact ⟨.cons (fun us ts => single us :: ts) (fun _ => rfl) ht fun _ hvisit => (hrest hvisit).1,
      .cons (· ++ ·) (fun _ => rfl) ht fun _ hvisit => (hrest hvisit).2⟩

end

/-! ## What is left of signatures -/

def untypedFunction : Kind → List Tree → Bool
  | .functionDef _, [.node _ _ [_, .seq plain, variadic, .seq keywordOnly, _, _, _], _, _, result] =>
    plain.all typeless && keywordOnly.all typeless && typeless variadic && result.isAbsent
  | .functionDef _, _ => false
  | _, _ => true

theorem untypedFunction_of_calm (hfits : every Tree.fits (.node tag kind parts) = true) (hcalm : calm kind parts = true) :
    untypedFunction kind parts = true := by
  obtain ⟨hnode, hall⟩ := every_node.mp hfits
  cases kind with
  | functionDef name =>
    obtain ⟨parameters, body, decorators, result, rfl, hparameters⟩ := fits_functionDef hnode
    simp only [everyAll, Bool.and_eq_true] at hall
    obtain ⟨_, _, _, _, _, _, _, _, rfl, _⟩ := arguments_of_fits hparameters hall.1
    simp only [calm, calmParameters, untypedFunction, Bool.and_eq_true] at hcalm ⊢
    exact ⟨hcalm.1.1.1, hcalm.1.2⟩
  | _ => rfl

theorem every_untypedFunction (ht : Standing next [t]) (hs : s.store.Empty) (h : Returns (run step t) s t' s') :
    every untypedFunction t' = true := by
  obtain ⟨-, -, -, hcalm⟩ := run_clears (refs_of_mem ht.plain (by simp)) hs h
  obtain ⟨-, ts, rfl, -, hgrows⟩ := run_plain plainGrows (refs_of_mem ht.plain (by simp)) hs h
  exact every_of_both untypedFunction_of_calm _ (by rw [every_single]; exact hgrows.fits (every_of_mem ht.fits (by simp))) hcalm

/-! ## Whole modules -/

section
variable {source : String} {n next : Nat} (hparse : Tree.parse n source = .ok (t, next)) (hs : s.store.Empty)
include hparse hs

theorem run_returns (h : every acceptedParts t = true) : ∃ s', Returns (run step t) s (treated s.store t).1 s' := by
  obtain ⟨hstanding, -⟩ := parse_standing hparse
  have hplain : refs t = [] := by simpa [refsAll] using hstanding.plain
  obtain ⟨c, hvisit⟩ := (visit_treats t hplain (every_of_mem hstanding.fits (by simp)) hs).returns h
  exact ⟨_, returns_get_bind.mpr (.bind hvisit rfl)⟩

theorem run_raises (h : every acceptedParts t = false) : Raises (run step t) s missingVariadic := by
  obtain ⟨hstanding, -⟩ := parse_standing hparse
  have hplain : refs t = [] := by simpa [refsAll] using hstanding.plain
  exact .after rfl
    (.bind ((visit_treats t hplain (every_of_mem hstanding.fits (by simp)) hs).raises h) _)

end

/-- Every module that can be read is gone through, or ends with the fault of a parameter for keywords that stands without one
for positions. What is left then has no result types and of the types of parameters only those for positions only and the
one for keywords. -/
theorem run_strips_signatures (source : String) (n next : Nat) (t : Tree) (s : Session)
    (hparse : Tree.parse n source = .ok (t, next)) (hs : s.store.Empty) :
    ((∃ t' s', Returns (run step t) s t' s') ↔ every acceptedParts t = true) ∧
      (every acceptedParts t = false → Raises (run step t) s missingVariadic) ∧
      ∀ t' s', Returns (run step t) s t' s' → every untypedFunction t' = true := by
  cases haccepts : every acceptedParts t with
  | true =>
    obtain ⟨s', hrun⟩ := run_returns hparse hs haccepts
    refine ⟨iff_of_true ⟨_, _, hrun⟩ rfl, by simp, fun t' s' h => ?_⟩
    obtain ⟨rfl, -⟩ := (returns_eq hrun).mp h
    exact every_untypedFunction (parse_standing hparse).1 hs hrun
  | false =>
    have hrun := run_raises hparse hs haccepts
    exact ⟨iff_of_false (fun ⟨t', s', h⟩ => hrun.not_returns h) (by simp), fun _ => hrun,
      fun t' s' h => (hrun.not_returns h).elim⟩

def typedMethod : String := "class A:\n    def f(self, a: int, /, b: int, *c: int, d: int=1, **e: int) -> int:\n        return b"

set_option maxRecDepth 100000 in
theorem accepts_typedMethod : readsAs typedMethod (every acceptedParts) = true := by decide +kernel

theorem run_strips_signatures_method :
    ∃ t n t' s', Tree.parse 1 typedMethod = .ok (t, n) ∧ Returns (run step t) { store := { next := n } } t' s' ∧
      every untypedFunction t' = true := by
  obtain ⟨t, n, hparse, haccepts⟩ := of_readsAs accepts_typedMethod
  obtain ⟨hreturns, -, huntyped⟩ :=
    run_strips_signatures typedMethod 1 n t { store := { next := n } } hparse fun id => by simp [Store.view]
  obtain ⟨t', s', h⟩ := hreturns.mpr haccepts
  exact ⟨t, n, t', s', hparse, h, huntyped t' s' h⟩

def keywordFunction : String := "def f(**kw: int):\n    pass"

set_option maxRecDepth 100000 in
theorem refuses_keywordFunction : readsAs keywordFunction (fun t => !every acceptedParts t) = true := by decide +kernel

theorem keywordFunction_raises :
    ∃ t n, Tree.parse 1 keywordFunction = .ok (t, n) ∧ Raises (run step t) { store := { next := n } } missingVariadic := by
  obtain ⟨t, n, hparse, hrefuses⟩ := of_readsAs refuses_keywordFunction
  exact ⟨t, n, hparse, run_raises hparse (fun id => by simp [Store.view]) (by simpa using hrefuses)⟩

end Pass.Documentation
end SourceOptimizer
