import SourceOptimizer.Pipeline.Transform
import SourceOptimizer.Proofs.Evaluation
import SourceOptimizer.Proofs.Evolution
import SourceOptimizer.Proofs.Returns

/-! Passes over trees without references. As long as nothing is shared, the store plays no part: a visit makes
results of a tree from the results of its parts, and what holds of one step holds of the whole visit. -/
namespace SourceOptimizer
open Tree Work

variable {ts us parts : List Tree} {t u : Tree} {test : Kind → List Tree → Bool} {tag : Tag} {kind : Kind}
  {s s' : Session} {visited : Work (List Tree)} {line : Nat}

def Store.Empty (s : Store) : Prop := ∀ id, s.view id = none

namespace Store.Empty
variable {s : Store}

theorem look (ht : refs t = []) : s.look t = t := by
  cases t with
  | shared id => cases ht
  | _ => rfl

theorem keep (h : s.Empty) (t : Tree) : s.keep t = s := by
  cases t with
  | node tag kind parts => exact keep_of_unstored (h tag.id)
  | _ => rfl

theorem of_view {s' : Store} (h : s.Empty) (hview : s'.view = s.view) : s'.Empty := by
  intro id
  rw [hview, h]

theorem adopt (h : s.Empty) (t : Tree) : (s.adopt t).2.Empty := h.of_view rfl

end Store.Empty

namespace Tree

theorem refsAll_append (ts us : List Tree) : refsAll (ts ++ us) = refsAll ts ++ refsAll us := by
  induction ts with
  | nil => rfl
  | cons t ts ih => simp [refsAll, ih]

theorem refs_single (h : refsAll ts = []) : refs (Pass.single ts) = [] := by
  match ts, h with
  | [], _ => rfl
  | [t], h => exact (List.append_eq_nil_iff.mp h).1
  | _ :: _ :: _, h => exact h

theorem refs_of_mem (h : refsAll ts = []) (ht : t ∈ ts) : refs t = [] := by
  induction ts with
  | nil => cases ht
  | cons u ts ih =>
    simp only [refsAll, List.append_eq_nil_iff] at h
    rcases List.mem_cons.mp ht with rfl | ht
    · exact h.1
    · exact ih h.2 ht

theorem refsAll_of_sublist (h : us.Sublist ts) (hts : refsAll ts = []) : refsAll us = [] := by
  induction h with
  | slnil => rfl
  | cons t _ ih => exact ih (by simp_all [refsAll])
  | cons_cons t _ ih =>
    simp only [refsAll, List.append_eq_nil_iff] at hts ⊢
    exact ⟨hts.1, ih hts.2⟩

theorem refs_items (h : refs t = []) : refsAll t.items = [] := by
  cases t with
  | seq items => exact h
  | _ => rfl

mutual

/-- Whether all nodes of a tree pass a test of their kind and parts. -/
def every (test : Kind → List Tree → Bool) : Tree → Bool
  | .node _ kind parts => test kind parts && everyAll test parts
  | .seq items => everyAll test items
  | .absent => true
  | .shared _ => true

def everyAll (test : Kind → List Tree → Bool) : List Tree → Bool
  | [] => true
  | t :: ts => every test t && everyAll test ts

end

theorem everyAll_eq_all (test : Kind → List Tree → Bool) (ts : List Tree) : everyAll test ts = ts.all (every test) := by
  induction ts with
  | nil => rfl
  | cons t ts ih => rw [everyAll, ih, List.all_cons]

theorem everyAll_append (test : Kind → List Tree → Bool) (ts us : List Tree) :
    everyAll test (ts ++ us) = (everyAll test ts && everyAll test us) := by simp [everyAll_eq_all]

theorem everyAll_eq_true : everyAll test ts = true ↔ ∀ t ∈ ts, every test t = true := by simp [everyAll_eq_all]

theorem every_of_mem (h : everyAll test ts = true) (ht : t ∈ ts) : every test t = true := everyAll_eq_true.mp h t ht

theorem every_single (test : Kind → List Tree → Bool) (ts : List Tree) : every test (Pass.single ts) = everyAll test ts := by
  rcases ts with _ | ⟨t, _ | ⟨u, us⟩⟩
  · rfl
  · exact (Bool.and_true _).symm
  · rfl

theorem everyAll_items (h : every test t = true) : everyAll test t.items = true := by
  cases t with
  | seq items => exact h
  | _ => rfl

theorem every_node :
    every test (.node tag kind parts) = true ↔ test kind parts = true ∧ everyAll test parts = true := by
  simp [every]

mutual

theorem every_of_both {test' test'' : Kind → List Tree → Bool}
    (h : ∀ {tag kind parts}, every test (.node tag kind parts) = true → test' kind parts = true → test'' kind parts = true) :
    (t : Tree) → every test t = true → every test' t = true → every test'' t = true
  | .node _ _ parts, ht, ht' =>
    every_node.mpr ⟨h ht (every_node.mp ht').1, everyAll_of_both h parts (every_node.mp ht).2 (every_node.mp ht').2⟩
  | .seq items, ht, ht' => everyAll_of_both h items ht ht'
  | .absent, _, _ => rfl
  | .shared _, _, _ => rfl

theorem everyAll_of_both {test' test'' : Kind → List Tree → Bool}
    (h : ∀ {tag kind parts}, every test (.node tag kind parts) = true → test' kind parts = true → test'' kind parts = true) :
    (ts : List Tree) → everyAll test ts = true → everyAll test' ts = true → everyAll test'' ts = true
  | [], _, _ => rfl
  | t :: ts, hts, hts' => by
    simp only [everyAll, Bool.and_eq_true] at hts hts' ⊢
    exact ⟨every_of_both h t hts.1 hts'.1, everyAll_of_both h ts hts.2 hts'.2⟩

end

mutual

theorem every_bare (htest : ∀ kind parts, test kind.bare (bareAll parts) = test kind parts) :
    (t : Tree) → every test (bare t) = every test t
  | .node _ kind parts => by rw [bare, every, every, htest, everyAll_bare htest parts]
  | .seq items => everyAll_bare htest items
  | .absent => rfl
  | .shared _ => rfl

theorem everyAll_bare (htest : ∀ kind parts, test kind.bare (bareAll parts) = test kind parts) :
    (ts : List Tree) → everyAll test (bareAll ts) = everyAll test ts
  | [] => rfl
  | t :: ts => by rw [bareAll, everyAll, everyAll, every_bare htest t, everyAll_bare htest ts]

end

end Tree

/-! ## Visits -/

namespace Pass
variable {step : Step Work} {again : Nat → Work (List Tree)}

abbrev Outcome := Tree → Session → List Tree → Session → Prop

variable {R : Outcome}

inductive PartsTo (R : Outcome) : List Tree → Session → List Tree → Session → Prop
  | nil {s : Session} : PartsTo R [] s [] s
  | cons {p : Tree} {ps results rest : List Tree} {s m s' : Session} (head : R p s results m)
      (tail : PartsTo R ps m rest s') : PartsTo R (p :: ps) s (single results :: rest) s'

inductive ItemsTo (R : Outcome) : List Tree → Session → List Tree → Session → Prop
  | nil {s : Session} : ItemsTo R [] s [] s
  | cons {t : Tree} {ts results rest : List Tree} {s m s' : Session} (head : R t s results m)
      (tail : ItemsTo R ts m rest s') : ItemsTo R (t :: ts) s (results ++ rest) s'

def PlainlyVisits (R : Outcome) (parts : List Tree) (visited : Work (List Tree)) : Prop :=
  ∀ {m m' : Session} {parts'}, m.store.Empty → Returns visited m parts' m' → m'.store.Empty ∧ PartsTo R parts m parts' m'

/-- What is asked of a step: a node without references becomes what it may, given that its parts do. -/
structure PlainSound (R : Outcome) (step : Step Work) : Prop where
  node : ∀ {s s' : Session} {tag kind parts visited ts}, s.store.Empty → refsAll parts = [] →
    PlainlyVisits R parts visited → Returns (step tag kind parts visited) s ts s' →
    s'.store.Empty ∧ R (.node tag kind parts) s ts s'
  seq : ∀ {s s' : Session} {items items'}, refsAll items = [] → ItemsTo R items s items' s' →
    R (.seq items) s [.seq items'] s'
  absent : ∀ s, R .absent s [.absent] s

mutual

theorem visit_plain (h : PlainSound R step) : (t : Tree) → refs t = [] → ∀ {s s' : Session} {ts}, s.store.Empty →
    Returns (visit step again t) s ts s' → s'.store.Empty ∧ R t s ts s'
  | .node tag kind parts, ht, s, s', ts, hs, hr =>
    h.node hs ht (fun hm hv => visitParts_plain h parts ht hm hv) hr
  | .seq items, ht, s, s', ts, hs, hr => by
    obtain ⟨items', hitems, rfl⟩ := returns_bind_pure.mp hr
    obtain ⟨hm, hto⟩ := visitItems_plain h items ht hs hitems
    exact ⟨hm, h.seq ht hto⟩
  | .absent, _, s, s', ts, hs, hr => by
    cases hr
    exact ⟨hs, h.absent s⟩
  | .shared _, ht, _, _, _, _, _ => by cases ht

theorem visitParts_plain (h : PlainSound R step) : (ps : List Tree) → refsAll ps = [] → ∀ {s s' : Session} {ps'},
    s.store.Empty → Returns (visitParts step again ps) s ps' s' → s'.store.Empty ∧ PartsTo R ps s ps' s'
  | [], _, s, s', ps', hs, hr => by
    cases hr
    exact ⟨hs, .nil⟩
  | p :: ps, hps, s, s', ps', hs, hr => by
    obtain ⟨results, m, hp, hr⟩ := returns_bind.mp hr
    obtain ⟨rest, hrest, rfl⟩ := returns_bind_pure.mp hr
    simp only [refsAll, List.append_eq_nil_iff] at hps
    obtain ⟨hm, hhead⟩ := visit_plain h p hps.1 hs hp
    obtain ⟨hm', htail⟩ := visitParts_plain h ps hps.2 hm hrest
    exact ⟨hm', .cons hhead htail⟩

theorem visitItems_plain (h : PlainSound R step) : (ts : List Tree) → refsAll ts = [] → ∀ {s s' : Session} {ts'},
    s.store.Empty → Returns (visitItems step again ts) s ts' s' → s'.store.Empty ∧ ItemsTo R ts s ts' s'
  | [], _, s, s', ts', hs, hr => by
    cases hr
    exact ⟨hs, .nil⟩
  | t :: ts, hts, s, s', ts', hs, hr => by
    obtain ⟨results, m, ht, hr⟩ := returns_bind.mp hr
    obtain ⟨rest, hrest, rfl⟩ := returns_bind_pure.mp hr
    simp only [refsAll, List.append_eq_nil_iff] at hts
    obtain ⟨hm, hhead⟩ := visit_plain h t hts.1 hs ht
    obtain ⟨hm', htail⟩ := visitItems_plain h ts hts.2 hm hrest
    exact ⟨hm', .cons hhead htail⟩

end

theorem run_plain (h : PlainSound R step) {t' : Tree} (ht : refs t = []) (hs : s.store.Empty)
    (hr : Returns (run step t) s t' s') : s'.store.Empty ∧ ∃ ts, t' = single ts ∧ R t s ts s' := by
  replace hr := returns_get_bind.mp hr
  obtain ⟨ts, hvisit, rfl⟩ := returns_bind_pure.mp hr
  obtain ⟨hs', hto⟩ := visit_plain h t ht hs hvisit
  exact ⟨hs', ts, rfl, hto⟩

/-! ## Visits that leave everything as it is -/

/-- A step that leaves the nodes that pass a test, with the parts that were left. -/
def Rests (test : Kind → List Tree → Bool) (step : Step Work) : Prop :=
  ∀ {s : Session} {tag kind parts visited}, s.store.Empty → refsAll parts = [] → test kind parts = true →
    Returns visited s parts s → Returns (step tag kind parts visited) s [.node tag kind parts] s

mutual

theorem visit_rests (h : Rests test step) : (t : Tree) → refs t = [] → every test t = true → ∀ {s : Session},
    s.store.Empty → Returns (visit step again t) s [t] s
  | .node tag kind parts, ht, hall, s, hs => by
    obtain ⟨hnode, hparts⟩ := every_node.mp hall
    exact h hs ht hnode (visitAll_rests h parts ht hparts hs).1
  | .seq items, ht, hall, s, hs =>
    returns_bind_pure.mpr ⟨_, (visitAll_rests h items ht hall hs).2, rfl⟩
  | .absent, _, _, s, _ => rfl
  | .shared _, ht, _, _, _ => by cases ht

theorem visitAll_rests (h : Rests test step) : (ts : List Tree) → refsAll ts = [] → everyAll test ts = true →
    ∀ {s : Session}, s.store.Empty →
      Returns (visitParts step again ts) s ts s ∧ Returns (visitItems step again ts) s ts s
  | [], _, _, s, _ => ⟨rfl, rfl⟩
  | t :: ts, hts, hall, s, hs => by
    simp only [refsAll, List.append_eq_nil_iff] at hts
    simp only [everyAll, Bool.and_eq_true] at hall
    have ht := visit_rests h t hts.1 hall.1 hs
    obtain ⟨hparts, hitems⟩ := visitAll_rests h ts hts.2 hall.2 hs
    exact ⟨.bind ht (.bind hparts rfl),
      .bind ht (.bind hitems rfl)⟩

end

theorem run_rests (h : Rests test step) (ht : refs t = []) (hall : every test t = true)
    (hs : s.store.Empty) : Returns (run step t) s t s :=
  .bind rfl (.bind (visit_rests h t ht hall hs) rfl)

theorem returns_descend_self
    (hs : s.store.Empty) (h : Returns visited s parts s) :
    Returns (descend tag kind visited) s [.node tag kind parts] s :=
  returns_descend.mpr ⟨parts, s, h, rfl, by rw [hs.keep]⟩

theorem returns_descend_plain (hs : s.store.Empty) (hvisited : PlainlyVisits R parts visited)
    (h : Returns (descend tag kind visited) s ts s') :
    ∃ parts', ts = [.node tag kind parts'] ∧ s'.store.Empty ∧ PartsTo R parts s parts' s' := by
  obtain ⟨parts', m, hparts, rfl, rfl⟩ := returns_descend.mp h
  obtain ⟨hm, hto⟩ := hvisited hs hparts
  refine ⟨parts', rfl, ?_, ?_⟩
  · rw [hm.keep]
    exact hm
  · rw [hm.keep]
    exact hto

end Pass

/-! ## Lines -/

namespace Tree

mutual

def lined (line : Nat) : Tree → Tree
  | .node tag kind parts =>
    let tag := if kind.hasLine && tag.line.isNone then { tag with line := some line } else tag
    .node tag kind (linedAll (if kind.hasLine then tag.line.getD line else line) parts)
  | .seq items => .seq (linedAll line items)
  | .absent => .absent
  | .shared id => .shared id

def linedAll (line : Nat) : List Tree → List Tree
  | [] => []
  | t :: ts => lined line t :: linedAll line ts

end

mutual

theorem refs_lined : (t : Tree) → (line : Nat) → refs (lined line t) = refs t
  | .node _ _ parts, _ => refsAll_lined parts _
  | .seq items, line => refsAll_lined items line
  | .absent, _ => rfl
  | .shared _, _ => rfl

theorem refsAll_lined : (ts : List Tree) → (line : Nat) → refsAll (linedAll line ts) = refsAll ts
  | [], _ => rfl
  | t :: ts, line => by rw [linedAll, refsAll, refs_lined t, refsAll_lined ts, refsAll]

end

mutual

theorem lined_lined : (t : Tree) → (line : Nat) → lined line (lined line t) = lined line t
  | .node tag kind parts, line => by
    simp only [lined]
    cases hk : kind.hasLine with
    | false => simp [linedAll_linedAll parts]
    | true =>
      cases hl : tag.line with
      | none => simp [linedAll_linedAll parts]
      | some l => simp [hl, linedAll_linedAll parts]
  | .seq items, line => by simp only [lined, linedAll_linedAll items]
  | .absent, _ => rfl
  | .shared _, _ => rfl

theorem linedAll_linedAll : (ts : List Tree) → (line : Nat) → linedAll line (linedAll line ts) = linedAll line ts
  | [], _ => rfl
  | t :: ts, line => by simp only [linedAll, lined_lined t, linedAll_linedAll ts]

end

mutual

theorem bare_lined : (t : Tree) → (line : Nat) → bare (lined line t) = bare t
  | .node tag kind parts, line => by simp only [lined, bare, bareAll_lined parts]
  | .seq items, line => by simp only [lined, bare, bareAll_lined items]
  | .absent, _ => rfl
  | .shared _, _ => rfl

theorem bareAll_lined : (ts : List Tree) → (line : Nat) → bareAll (linedAll line ts) = bareAll ts
  | [], _ => rfl
  | t :: ts, line => by simp only [linedAll, bareAll, bare_lined t, bareAll_lined ts]

end

theorem every_lined (htest : ∀ kind parts, test kind.bare (bareAll parts) = test kind parts) (t : Tree) (line : Nat) :
    every test (lined line t) = every test t := by
  rw [← every_bare htest, bare_lined, every_bare htest]

end Tree

namespace Store
variable {again : Nat → Nat → Store → Store} {s : Store}

mutual

theorem locateWith_plain : (t : Tree) → (line : Nat) → refs t = [] → locateWith again line t s = (t.lined line, s)
  | .node tag kind parts, line, h => by simp only [locateWith, locateAll_plain parts _ h, lined]
  | .seq items, line, h => by simp only [locateWith, locateAll_plain items _ h, lined]
  | .absent, _, _ => rfl
  | .shared _, _, h => by cases h

theorem locateAll_plain : (ts : List Tree) → (line : Nat) → refsAll ts = [] →
    locateAll again line ts s = (linedAll line ts, s)
  | [], _, _ => rfl
  | t :: ts, line, h => by
    simp only [refsAll, List.append_eq_nil_iff] at h
    simp only [locateAll, locateWith_plain t line h.1, locateAll_plain ts line h.2, linedAll]

end

theorem locate_plain (h : refs t = []) : s.locate t = (t.lined 1, s) := locateWith_plain t 1 h

end Store

theorem Work.returns_locate (ht : refs t = []) :
    Returns (locate t) s u s' ↔ t.lined 1 = u ∧ s = s' := by
  rw [returns_locate_iff, Store.locate_plain ht]

end SourceOptimizer
