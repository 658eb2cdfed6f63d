import SourceOptimizer.Proofs.Composition

/-! What a pass does to the values of trees. A pass is one step, so it is enough to say what the step makes of a
node whose parts have been visited; the visit of whole trees, with all the nodes they share, follows. -/
namespace SourceOptimizer

variable {ts results rest parts' : List Tree} {s m : Store} {t t' : Tree} {s' : Session}
  {again : Nat → Work (List Tree)} {hidden : List Nat}
universe u v w

def Reading.single {X : Type u} (A : Reading X) : List X → X
  | [] => A.absent
  | [x] => x
  | xs => A.seq xs

namespace Pass
open Store Tree Work
variable {X : Type u} {A : Reading X}

/-- What a value may become while work leads from one session to another. -/
abbrev Becoming (X : Type u) := Session → Session → X → List X → Prop

variable {P : Becoming X}

section
variable {M : Type v} {N : Type w} {x : X} {xs : List X} {yss : List (List X)} {n m : M}

inductive Chain (P : M → M → X → List X → Prop) : M → M → List X → List (List X) → Prop
  | nil {n : M} : Chain P n n [] []
  | cons {n k m : M} {x : X} {ys : List X} {xs : List X} {yss : List (List X)}
      (head : P n k x ys) (tail : Chain P k m xs yss) : Chain P n m (x :: xs) (ys :: yss)

theorem Chain.uncons {P : M → M → X → List X → Prop} (h : Chain P n m (x :: xs) yss) :
    ∃ k ys rest, yss = ys :: rest ∧ P n k x ys ∧ Chain P k m xs rest := by
  cases h with
  | cons head tail => exact ⟨_, _, _, rfl, head, tail⟩

theorem Chain.at {Q : N → N → X → List X → Prop} (f : M → N) (h : Chain (fun n m => Q (f n) (f m)) n m xs yss) :
    Chain Q (f n) (f m) xs yss := by
  induction h with
  | nil => exact .nil
  | cons head _ ih => exact .cons head ih

end

/-- What a value may become, told the identities that are in use before and afterwards. -/
def Numbered (Q : Nat → Nat → X → List X → Prop) : Becoming X := fun s s' => Q s.store.next s'.store.next

/-- What values may become in visits that go some depth into shared nodes. A visit that goes nowhere leaves a value
as it is, and a list becomes the list of what its items become. -/
structure Respects (A : Reading X) (P : Nat → Becoming X) : Prop where
  refl : ∀ s x, P 0 s s x [x]
  absent : ∀ d s, P d s s A.absent [A.absent]
  seq : ∀ {d s s' xs yss}, Chain (P d) s s' xs yss → P d s s' (A.seq xs) [A.seq yss.flatten]
  less : ∀ {d s s' x ys}, P (d + 1) s s' x ys → P d s s' x ys
  before : ∀ {d s s' x y zs}, A.yields x y → P d s s' y zs → P d s s' x zs
  after : ∀ {d s s' x ys zs}, P d s s' x ys → List.Forall₂ A.yields ys zs → P d s s' x zs

theorem Respects.numbered {Q : Nat → Nat → X → List X → Prop} (hA : A.yields = Eq) (hrefl : ∀ n x, Q n n x [x])
    (hseq : ∀ {n m xs yss}, Chain Q n m xs yss → Q n m (A.seq xs) [A.seq yss.flatten]) :
    Respects A fun _ => Numbered Q where
  refl := fun s x => hrefl _ x
  absent := fun _ s => hrefl _ _
  seq := fun h => hseq (h.at fun s : Session => s.store.next)
  less := id
  before := by
    intro d s s' x y zs h
    rw [hA] at h
    exact h ▸ id
  after := by
    intro d s s' x ys zs h hys
    rw [hA] at hys
    exact eq_of_forall₂ hys ▸ h

theorem Chain.before {P : Nat → Becoming X} {d : Nat} {s s' : Session} {xs ys : List X} {zss : List (List X)}
    (hP : Respects A P) (hyields : List.Forall₂ A.yields xs ys) (h : Chain (P d) s s' ys zss) :
    Chain (P d) s s' xs zss := by
  induction h generalizing xs with
  | nil =>
    cases hyields
    exact .nil
  | cons head _ ih =>
    obtain _ | ⟨hhead, htail⟩ := hyields
    exact .cons (hP.before hhead head) (ih htail)

structure Becomes (A : Reading X) (P : Becoming X) (s : Session) (t : Tree) (s' : Session) (ts : List Tree) : Prop
    extends Evolves A s.store [t] s'.store ts where
  value : ∀ hidden, s.store.Stores hidden → ∀ {x}, Reads A (s.store.view.hide hidden) [t] [x] →
    ∃ ys, Reads A (s'.store.view.hide hidden) ts ys ∧ P s s' x ys

structure PartsBecome (A : Reading X) (P : Becoming X) (s : Session) (parts : List Tree) (s' : Session)
    (parts' : List Tree) : Prop extends Evolves A s.store parts s'.store parts' where
  value : ∀ hidden, s.store.Stores hidden → ∀ {xs}, Reads A (s.store.view.hide hidden) parts xs →
    ∃ yss, Chain P s s' xs yss ∧ Reads A (s'.store.view.hide hidden) parts' (yss.map A.single)

structure ItemsBecome (A : Reading X) (P : Becoming X) (s : Session) (items : List Tree) (s' : Session)
    (items' : List Tree) : Prop extends Evolves A s.store items s'.store items' where
  value : ∀ hidden, s.store.Stores hidden → ∀ {xs}, Reads A (s.store.view.hide hidden) items xs →
    ∃ yss, Chain P s s' xs yss ∧ Reads A (s'.store.view.hide hidden) items' yss.flatten

/-- How a node is seen from where it stands, and how the nodes that it becomes are put there: a node in a tree is
itself, a shared one is referred to. -/
inductive Seat (s : Store) (tag : Tag) (kind : Kind) (parts : List Tree) : Tree → (Tree → Tree) → Prop
  | beside (h : s.Places [.node tag kind parts]) : Seat s tag kind parts (.node tag kind parts) id
  | stored (h : s.view tag.id = some (.node tag kind parts)) : Seat s tag kind parts (.shared tag.id) (refer tag.id)

def Readable (A : Reading X) (s : Store) (ts : List Tree) : Prop := ∃ xs, Reads A s.view ts xs

def Visits (A : Reading X) (P : Becoming X) (parts : List Tree) (visited : Work (List Tree)) : Prop :=
  ∀ {m m' : Session} {parts'}, m.store.Sound → m.store.Places parts → Readable A m.store parts →
    Returns visited m parts' m' → PartsBecome A P m parts m' parts'

/-- What is asked of a step: given that visiting the parts goes well, the node becomes what it may. -/
def StepSound (A : Reading X) (P : Nat → Becoming X) (step : Step Work) : Prop :=
  ∀ (d : Nat) {s s' : Session} {tag kind parts seat put visited ts}, s.store.Sound →
    Seat s.store tag kind parts seat put → Readable A s.store [seat] → Visits A (P d) parts visited →
    Returns (step tag kind parts visited) s ts s' → Becomes A (P (d + 1)) s seat s' (ts.map put)

theorem Readable.keeps (h : Readable A s ts) (hkeeps : Keeps A s m) : Readable A m ts := by
  obtain ⟨xs, h⟩ := h
  obtain ⟨ys, hys, _⟩ := hkeeps.live h
  exact ⟨ys, hys⟩

/-- The trees `ts` of `s` with the values `xs` have become the trees `ts'` of `s'` with the values `ys`. -/
structure Alters (A : Reading X) (s : Store) (ts : List Tree) (xs : List X) (s' : Store) (ts' : List Tree) (ys : List X) : Prop
    extends Evolves A s ts s' ts' where
  before : Reads A s.view ts xs
  after : ∀ hidden, s.Stores hidden → Reads A (s.view.hide hidden) ts xs → Reads A (s'.view.hide hidden) ts' ys

/-! ## Values -/

section
variable {xs ys : List X} {x : X} {ts' : List Tree}

theorem Alters.of_values {R : List X → Prop} (h : Evolves A s ts m ts') (hreads : Reads A s.view ts xs)
    (hvalue : ∀ hidden, s.Stores hidden → Reads A (s.view.hide hidden) ts xs →
      ∃ ys, Reads A (m.view.hide hidden) ts' ys ∧ R ys) : ∃ ys, R ys ∧ Alters A s ts xs m ts' ys := by
  obtain ⟨ys, hys, hR⟩ := hvalue [] (by simp [Stores]) hreads
  refine ⟨ys, hR, h, hreads, fun hidden hhidden hreads => ?_⟩
  obtain ⟨zs, hzs, -⟩ := hvalue hidden hhidden hreads
  cases hzs.of_hide.unique hys.of_hide
  exact hzs

theorem PartsBecome.alters {s m : Session} (h : PartsBecome A P s ts m ts') (hread : Readable A s.store ts) :
    ∃ xs yss, Chain P s m xs yss ∧ Alters A s.store ts xs m.store ts' (yss.map A.single) := by
  obtain ⟨xs, hread⟩ := hread
  obtain ⟨_, ⟨yss, hchain, rfl⟩, halters⟩ :=
    Alters.of_values (R := fun ys => ∃ yss, Chain P s m xs yss ∧ ys = yss.map A.single) h.toEvolves hread
      fun hidden hhidden hreads => by
        obtain ⟨yss, hchain, hys⟩ := h.value hidden hhidden hreads
        exact ⟨_, hys, yss, hchain, rfl⟩
  exact ⟨xs, yss, hchain, halters⟩

theorem Alters.becomes {s s' : Session} (h : Alters A s.store [t] [x] s'.store ts ys) (hP : P s s' x ys) :
    Becomes A P s t s' ts where
  toEvolves := h.toEvolves
  value := by
    intro hidden hhidden y hreads
    cases h.before.unique hreads.of_hide
    exact ⟨ys, h.after hidden hhidden hreads, hP⟩

theorem Alters.revalues {tag : Tag} {kind : Kind} (h : Alters A s ts xs m ts' ys) (hadmits : A.admits kind ys)
    (hyields : A.yields (A.node tag kind xs) (A.node tag kind ys)) : Revalues A s tag kind ts m ts' := by
  intro hidden hhidden zs hreads _
  cases h.before.unique hreads.of_hide
  exact ⟨ys, h.after hidden hhidden hreads, hadmits, hyields⟩

end

/-! ## Results as parts -/

theorem idsAll_single (ts : List Tree) : idsAll [single ts] = idsAll ts := by
  match ts with
  | [] => rfl
  | [t] => rfl
  | t :: u :: ts => simp [single, idsAll, ids]

theorem originsAll_single (ts : List Tree) : originsAll [single ts] = originsAll ts := by
  match ts with
  | [] => rfl
  | [t] => rfl
  | t :: u :: ts => simp [single, originsAll, origins]

theorem reads_single {v : View} {ys : List X} (h : Reads A v ts ys) :
    Reads A v [single ts] [A.single ys] := by
  match ts, ys, h with
  | [], [], _ => exact .absent .nil
  | [t], [y], h => exact h
  | _ :: _ :: _, _ :: _ :: _, h => exact .seq h .nil
  | [t], _ :: _ :: _, h => simpa using h.length_eq
  | _ :: _ :: _, [y], h => simpa using h.length_eq

/-! ## Visits -/

section
variable {step : Step Work}

theorem Becomes.refl {s : Session} (hP : ∀ x, P s s x [x]) (hs : s.store.Sound) (hplaces : s.store.Places [t]) :
    Becomes A P s t s [t] where
  toEvolves := .refl hs hplaces
  value := fun _ _ x hreads => ⟨[x], hreads, hP x⟩

variable {P : Nat → Becoming X} {d : Nat} {s m : Session}

theorem Becomes.consParts {p : Tree} {ps : List Tree} (hP : Respects A P) (h : Becomes A (P d) s p m results)
    (h' : PartsBecome A (P d) m ps s' rest) (hplaces : s.store.Places (p :: ps)) :
    PartsBecome A (P d) s (p :: ps) s' (single results :: rest) where
  toEvolves := by
    have happend := h.toEvolves.append h'.toEvolves hplaces
    have hids : idsAll (single results :: rest) = idsAll (results ++ rest) := by
      rw [show single results :: rest = [single results] ++ rest from rfl, idsAll_append, idsAll_append, idsAll_single]
    have horigins : originsAll (single results :: rest) = originsAll (results ++ rest) := by
      rw [show single results :: rest = [single results] ++ rest from rfl, originsAll_append, originsAll_append,
        originsAll_single]
    exact happend.select (hids ▸ List.Sublist.refl _) (horigins ▸ fun _ => id)
  value := by
    intro hidden hhidden xs hreads
    obtain ⟨x, xs, rfl, hp, hps⟩ := hreads.uncons
    obtain ⟨ys, hresults, hbecomes⟩ := h.value hidden hhidden hp
    obtain ⟨xs', hps, hbefore⟩ := h.keeps hidden hhidden hps
    obtain ⟨yss, hchain, hrest⟩ := h'.value hidden (h.stores hhidden) hps
    obtain ⟨ys', hresults, hafter⟩ := h'.keeps hidden (h.stores hhidden) hresults
    exact ⟨ys' :: yss, .cons (hP.after hbecomes hafter) (hchain.before hP hbefore), (reads_single hresults).cons hrest⟩

theorem Becomes.consItems (hP : Respects A P) (h : Becomes A (P d) s t m results)
    (h' : ItemsBecome A (P d) m ts s' rest) (hplaces : s.store.Places (t :: ts)) :
    ItemsBecome A (P d) s (t :: ts) s' (results ++ rest) where
  toEvolves := h.toEvolves.append h'.toEvolves hplaces
  value := by
    intro hidden hhidden xs hreads
    obtain ⟨x, xs, rfl, ht, hts⟩ := hreads.uncons
    obtain ⟨ys, hresults, hbecomes⟩ := h.value hidden hhidden ht
    obtain ⟨xs', hts, hbefore⟩ := h.keeps hidden hhidden hts
    obtain ⟨yss, hchain, hrest⟩ := h'.value hidden (h.stores hhidden) hts
    obtain ⟨ys', hresults, hafter⟩ := h'.keeps hidden (h.stores hhidden) hresults
    exact ⟨ys' :: yss, .cons (hP.after hbecomes hafter) (hchain.before hP hbefore), hresults.append hrest⟩

theorem Becomes.less (hP : Respects A P) (h : Becomes A (P (d + 1)) s t s' ts) : Becomes A (P d) s t s' ts where
  toEvolves := h.toEvolves
  value := by
    intro hidden hhidden x hreads
    obtain ⟨ys, hys, hvalue⟩ := h.value hidden hhidden hreads
    exact ⟨ys, hys, hP.less hvalue⟩

set_option linter.unusedSectionVars false
variable (hP : Respects A P) (hstep : StepSound A P step)
  (hagain : ∀ {s s' : Session} {id ts}, s.store.Sound → Readable A s.store [.shared id] →
    Returns (again id) s ts s' → Becomes A (P d) s (.shared id) s' ts)
include hP hstep hagain

mutual

theorem visit_becomes : (t : Tree) → ∀ {s s' : Session} {ts}, s.store.Sound → s.store.Places [t] →
    Readable A s.store [t] → Returns (visit step again t) s ts s' → Becomes A (P d) s t s' ts
  | .node tag kind parts, s, s', ts, hs, hplaces, hread, h => by
    have hbecomes := hstep d hs (.beside hplaces) hread
      (fun hm hplaces hread hvisited => visitParts_become parts hm hplaces hread hvisited) h
    rw [List.map_id] at hbecomes
    exact hbecomes.less hP
  | .seq items, s, s', ts, hs, hplaces, ⟨_, hread⟩, h => by
    obtain ⟨items', hitems, rfl⟩ := returns_bind_pure.mp h
    cases hread with
    | seq hreads _ =>
      have hbecome := visitItems_become items hs (places_seq.mp hplaces) ⟨_, hreads⟩ hitems
      constructor
      case toEvolves =>
        refine (hbecome.toEvolves.select ?_ ?_).widen ?_ ?_
        · simp [idsAll, ids]
        · simp [originsAll, origins]
        · simp [idsAll, ids]
        · intro hidden xs hread
          cases hread with
          | seq hreads _ => exact ⟨_, hreads⟩
      case value =>
        intro hidden hhidden x hread
        cases hread with
        | seq hreads _ =>
          obtain ⟨yss, hchain, hreads'⟩ := hbecome.value hidden hhidden hreads
          exact ⟨_, .seq hreads' .nil, hP.seq hchain⟩
  | .absent, s, s', ts, hs, hplaces, _, h => by
    cases h
    refine { toEvolves := .refl hs hplaces, value := ?_ }
    intro hidden _ x hread
    cases hread with
    | absent _ => exact ⟨_, .absent .nil, hP.absent d s⟩
  | .shared id, s, s', ts, hs, _, hread, h => hagain hs hread h

theorem visitParts_become : (ps : List Tree) → ∀ {s s' : Session} {ps'}, s.store.Sound → s.store.Places ps →
    Readable A s.store ps → Returns (visitParts step again ps) s ps' s' →
      PartsBecome A (P d) s ps s' ps'
  | [], s, s', ps', hs, hplaces, _, h => by
    cases h
    refine { toEvolves := .refl hs hplaces, value := ?_ }
    intro hidden _ xs hreads
    cases hreads
    exact ⟨[], .nil, .nil⟩
  | p :: ps, s, s', ps', hs, hplaces, ⟨_, hread⟩, h => by
    obtain ⟨results, m, hp, h⟩ := returns_bind.mp h
    obtain ⟨rest, hps, rfl⟩ := returns_bind_pure.mp h
    obtain ⟨x, xs, rfl, hhead, htail⟩ := hread.uncons
    have hfirst := visit_becomes p hs hplaces.head ⟨_, hhead⟩ hp
    have hothers := visitParts_become ps hfirst.sound (hfirst.places_rest hplaces)
      (Readable.keeps ⟨_, htail⟩ hfirst.keeps) hps
    exact hfirst.consParts hP hothers hplaces

theorem visitItems_become : (ts : List Tree) → ∀ {s s' : Session} {ts'}, s.store.Sound → s.store.Places ts →
    Readable A s.store ts → Returns (visitItems step again ts) s ts' s' →
      ItemsBecome A (P d) s ts s' ts'
  | [], s, s', ts', hs, hplaces, _, h => by
    cases h
    refine { toEvolves := .refl hs hplaces, value := ?_ }
    intro hidden _ xs hreads
    cases hreads
    exact ⟨[], .nil, .nil⟩
  | t :: ts, s, s', ts', hs, hplaces, ⟨_, hread⟩, h => by
    obtain ⟨results, m, ht, h⟩ := returns_bind.mp h
    obtain ⟨rest, hts, rfl⟩ := returns_bind_pure.mp h
    obtain ⟨x, xs, rfl, hhead, htail⟩ := hread.uncons
    have hfirst := visit_becomes t hs hplaces.head ⟨_, hhead⟩ ht
    have hothers := visitItems_become ts hfirst.sound (hfirst.places_rest hplaces)
      (Readable.keeps ⟨_, htail⟩ hfirst.keeps) hts
    exact hfirst.consItems hP hothers hplaces

end

omit hagain in
/-- Shared nodes are visited within a depth, each by the same step. A visit that ends at a shared node has used one more
than one that ends at a node of the tree. -/
theorem visitWithin_becomes (depth : Nat) :
    (∀ {s s' : Session} {t ts}, s.store.Sound → s.store.Places [t] → Readable A s.store [t] →
      Returns (visitWithin fetch step depth t) s ts s' → Becomes A (P (depth - 1)) s t s' ts) ∧
    (∀ {s s' : Session} {tag kind parts ts}, s.store.Sound → s.store.view tag.id = some (.node tag kind parts) →
      Readable A s.store [.shared tag.id] → Returns (visitWithin fetch step depth (.node tag kind parts)) s ts s' →
        Becomes A (P depth) s (.shared tag.id) s' (ts.map (refer tag.id))) := by
  -- a shared node is visited as a tree, although it does not stand beside the store: hence the second half
  induction depth with
  | zero =>
    constructor
    · intro s s' t ts hs hplaces _ h
      cases h
      exact .refl (hP.refl s) hs hplaces
    · intro s s' tag kind parts ts hs _ _ h
      cases h
      have hrefer : refer tag.id (.node tag kind parts) = .shared tag.id := by simp [refer, Tree.id?]
      rw [List.map_singleton, hrefer]
      exact .refl (hP.refl s) hs (places_of_bare rfl rfl)
  | succ depth ih =>
    have hagain {s s' : Session} {id : Nat} {ts : List Tree} (hs : s.store.Sound)
        (hread : Readable A s.store [.shared id])
        (h : Returns (do
          let results ← visitWithin fetch step depth (← fetch id)
          return results.map (refer id)) s ts s') : Becomes A (P depth) s (.shared id) s' ts := by
      obtain ⟨t, _, hlook, h⟩ := returns_bind.mp h
      cases hlook
      obtain ⟨results, hvisit, rfl⟩ := returns_bind_pure.mp h
      obtain ⟨x, hx⟩ := hread
      cases hx with
      | shared hview hnode _ =>
        obtain ⟨tag, kind, parts, rfl, rfl, _⟩ := hs.stored hview
        have hlook : s.store.look (.shared tag.id) = .node tag kind parts := by
          simp [Store.look, show s.store.nodes[tag.id]? = some (.node tag kind parts) from hview]
        rw [hlook] at hvisit
        exact ih.2 hs hview ⟨_, .shared hview hnode .nil⟩ hvisit
    constructor
    · intro s s' t ts hs hplaces hread h
      exact visit_becomes hP hstep hagain t hs hplaces hread h
    · intro s s' tag kind parts ts hs hview hread h
      exact hstep depth hs (.stored hview) hread
        (fun hm hplaces hread hvisited => visitParts_become hP hstep hagain parts hm hplaces hread hvisited) h

omit hagain in
theorem run_becomes {s : Session} (hs : s.store.Sound) (hplaces : s.store.Places [t])
    (hread : Readable A s.store [t]) (h : Returns (run step t) s t' s') :
    ∃ ts, t' = single ts ∧ Becomes A (P (depthBound s - 1)) s t s' ts := by
  have hrest := returns_get_bind.mp h
  obtain ⟨ts, hvisit, rfl⟩ := returns_bind_pure.mp hrest
  exact ⟨ts, rfl, (visitWithin_becomes hP hstep _).1 hs hplaces hread hvisit⟩

end

/-! ## Whole programs -/

theorem run_carries {step : Step Work} {P : Nat → Becoming X} (hP : Respects A P) (hstep : StepSound A P step) {s : Session}
    (hcarries : s.store.Carries t) (hfits : A.Fits (s.store.expand t)) (h : Returns (run step t) s t' s') :
    s'.store.Carries t' ∧ A.Fits (s'.store.expand t') ∧
      ∃ ys, P (depthBound s - 1) s s' (A.eval (s.store.expand t)) ys ∧
        A.eval (s'.store.expand t') = A.single ys := by
  obtain ⟨hs, hplaces, u, hu⟩ := hcarries
  rw [expand_eq_of_reads hu] at hfits ⊢
  have hread : Reads A s.store.view [t] [A.eval u] := Reading.reads_of_resolved hu ⟨hfits, trivial⟩
  obtain ⟨ts, rfl, hbecomes⟩ := run_becomes hP hstep hs hplaces ⟨_, hread⟩ h
  obtain ⟨ys, hreads, hvalue⟩ := hbecomes.value [] (by simp [Stores]) hread
  obtain ⟨us, hus, heq, hfits'⟩ := Reading.resolved_of_reads (reads_single hreads)
  obtain ⟨u', _, rfl, hu', hnil⟩ := hus.uncons
  cases hnil
  rw [expand_eq_of_reads hu']
  refine ⟨⟨hbecomes.sound, ?_, u', hu'⟩, hfits'.1, ys, hvalue, ?_⟩
  · exact hbecomes.places.congr (idsAll_single ts) (originsAll_single ts)
  · simpa [Reading.evalAll] using heq.symm

/-! ## Passes that always return -/

def StepCompletes (step : Step Work) : Prop :=
  ∀ tag kind parts visited, Completes visited → Completes (step tag kind parts visited)

theorem sequential_completes : Sequential fun _ x => Completes x where
  pure := .pure
  bind := .bind
  look := completes_look
  keep _ := .modify _
  done := .modify _

theorem completes_run {step : Step Work} (hstep : StepCompletes step) (t : Tree) : Completes (run step t) :=
  .bind .get fun _ => .bind (sequential_completes.visitWithin hstep _ t) fun _ => .pure _

/-! ## Nodes that stay -/

namespace Seat
variable {tag : Tag} {kind : Kind} {parts : List Tree} {seat : Tree} {put : Tree → Tree}

theorem unstored_after (hplaces : s.Places [.node tag kind parts])
    (hevolves : Evolves A s parts m parts') : m.view tag.id = none := by
  obtain ⟨_, htag, hout, hlt, _⟩ := places_node.mp hplaces
  refine Classical.byContradiction fun hview => ?_
  rcases hevolves.grown hview with hold | hid | hnew
  · exact hold hout
  · exact htag hid
  · exact absurd hlt (by omega)

variable (h : Seat s tag kind parts seat put)
include h

theorem places (hs : s.Sound) : s.Places parts := by
  cases h with
  | beside hplaces => exact (places_node.mp hplaces).1
  | stored hview =>
    obtain ⟨_, _, _, heq, _, hids, horigins⟩ := hs.stored hview
    cases heq
    exact places_of_bare hids horigins

theorem reads {x : X}
    (hreads : Reads A (s.view.hide hidden) [seat] [x]) :
    ∃ xs, Reads A (s.view.hide hidden) parts xs ∧ A.admits kind xs ∧ x = A.node tag kind xs := by
  cases h with
  | beside _ =>
    cases hreads with
    | node hparts hadmits _ => exact ⟨_, hparts, hadmits, rfl⟩
  | stored hview =>
    obtain ⟨_, xs, hparts, hadmits, hx⟩ := reads_inside hview hreads
    rw [← View.hide_hide] at hparts
    exact ⟨xs, hparts.of_hide, hadmits, hx⟩

theorem readable (hread : Readable A s [seat]) : Readable A s parts := by
  obtain ⟨xs, hread⟩ := hread
  obtain ⟨x, _, rfl, hread, _⟩ := hread.uncons
  rw [← View.hide_nil s.view] at hread
  obtain ⟨xs, hparts, _⟩ := h.reads hread
  exact ⟨xs, hparts.of_hide⟩

theorem admits {xs : List X} (hread : Readable A s [seat]) (hparts : Reads A s.view parts xs) : A.admits kind xs := by
  obtain ⟨_, hread⟩ := hread
  obtain ⟨x, _, rfl, hread, _⟩ := hread.uncons
  rw [← View.hide_nil s.view] at hread
  obtain ⟨ys, hparts', hadmits, _⟩ := h.reads hread
  cases hparts.unique hparts'.of_hide
  exact hadmits

theorem put_eq (hs : s.Sound) (hnew : ∀ i ∈ idsAll [t], s.next ≤ i) :
    put t = t := by
  cases h with
  | beside _ => rfl
  | stored hview =>
    have hlt := hs.below hview
    cases t with
    | node tag' kind' parts' =>
      have hge := hnew tag'.id (by simp [idsAll, ids])
      have hne : tag'.id ≠ tag.id := by omega
      simp [refer, Tree.id?, hne]
    | seq items => simp [refer, Tree.id?]
    | absent => simp [refer, Tree.id?]
    | shared id => simp [refer, Tree.id?]

theorem descend (hs : s.Sound)
    (hevolves : Evolves A s parts m parts') (hvalue : Revalues A s tag kind parts m parts') :
    Evolves A s [seat] (m.keep (.node tag kind parts')) [put (.node tag kind parts')] ∧
      ∀ hidden, s.Stores hidden → ∀ {x}, Reads A (s.view.hide hidden) [seat] [x] →
        ∃ y, Reads A ((m.keep (.node tag kind parts')).view.hide hidden) [put (.node tag kind parts')] [y] ∧
          A.yields x y := by
  cases h with
  | beside hplaces =>
    obtain ⟨_, htag, hout, hlt, hkind⟩ := places_node.mp hplaces
    have hfresh := unstored_after hplaces hevolves
    have htag' : tag.id ∉ idsAll parts' := by
      intro hid
      rcases hevolves.ids _ hid with hold | hnew
      · exact htag hold
      · exact absurd hlt (by omega)
    rw [keep_of_unstored hfresh]
    constructor
    · constructor
      case sound => exact hevolves.sound
      case places =>
        exact places_node.mpr ⟨hevolves.places, htag', hfresh, Nat.lt_of_lt_of_le hlt hevolves.next_le,
          fun o ho => Nat.lt_of_lt_of_le (hkind o ho) hevolves.next_le⟩
      case next_le => exact hevolves.next_le
      case old => exact hevolves.old
      case ids =>
        intro i hi
        simp only [id, idsAll, Tree.ids, List.append_nil, List.mem_cons] at hi ⊢
        exact hi.elim (fun hi => .inl (.inl hi)) fun hi => (hevolves.ids i hi).imp_left .inr
      case grown =>
        intro i hi
        simp only [idsAll, Tree.ids, List.append_nil, List.mem_cons]
        exact (hevolves.grown hi).imp_right (.imp_left .inr)
      case keeps => exact hevolves.keeps
      case frame =>
        intro hidden hhidden xs hreads i x hlive
        cases hreads with
        | node hparts _ _ => exact hevolves.frame hidden hhidden hparts hlive
    · intro hidden hhidden x hreads
      cases hreads with
      | node hparts hadmits _ =>
        obtain ⟨ys, hparts', hadmits', hyields⟩ := hvalue hidden hhidden hparts hadmits
        exact ⟨_, .node hparts' hadmits' .nil, hyields⟩
  | stored hview =>
    have hrefer : refer tag.id (.node tag kind parts') = .shared tag.id := by simp [refer, Tree.id?]
    have hback := hevolves.writeBack hs hview hvalue
    rw [hrefer]
    exact ⟨hback, fun hidden hhidden _ hreads => hback.keeps.sole hhidden hreads⟩

variable {xs ys : List X} (hs : s.Sound) (halters : Alters A s parts xs m parts' ys)
include hs halters

/-- What has become of the parts can be read where the node is kept. -/
theorem kept (hhidden : s.Stores hidden) {x : X} (hseat : Reads A (s.view.hide hidden) [seat] [x]) :
    Reads A ((m.keep (.node tag kind parts')).view.hide hidden) parts' ys := by
  obtain ⟨_, hparts, -, -⟩ := h.reads hseat
  cases halters.before.unique hparts.of_hide
  cases h with
  | beside hplaces =>
    rw [keep_of_unstored (unstored_after hplaces halters.toEvolves)]
    exact halters.after hidden hhidden hparts
  | stored hview =>
    obtain ⟨_, _, hparts, -, -⟩ := reads_inside hview hseat
    cases halters.before.unique hparts.of_hide
    exact (halters.writesBack hs hview).apart (halters.after _ (hhidden.cons (by simp [hview])) hparts)

variable (hadmits : A.admits kind xs) (hadmits' : A.admits kind ys)
  (hyields : A.yields (A.node tag kind xs) (A.node tag kind ys))
include hadmits hadmits' hyields

/-- The node stays, with what has become of its parts. -/
theorem stays : Alters A s [seat] [A.node tag kind xs] (m.keep (.node tag kind parts')) [put (.node tag kind parts')]
    [A.node tag kind ys] := by
  refine ⟨(h.descend hs halters.toEvolves (halters.revalues hadmits' hyields)).1, ?_, fun hidden hhidden hreads => ?_⟩
  · cases h with
    | beside _ => exact .node halters.before hadmits .nil
    | stored hview => exact .shared hview (.node halters.before hadmits .nil) .nil
  · obtain ⟨_, hparts, -, -⟩ := h.reads hreads
    cases halters.before.unique hparts.of_hide
    cases h with
    | beside hplaces =>
      rw [keep_of_unstored (unstored_after hplaces halters.toEvolves)]
      exact .node (halters.after hidden hhidden hparts) hadmits' .nil
    | stored hview =>
      obtain ⟨hid, _, hparts, -, -⟩ := reads_inside hview hreads
      cases halters.before.unique hparts.of_hide
      have hback := halters.writesBack hs hview
      have hrefer : refer tag.id (.node tag kind parts') = .shared tag.id := by simp [refer, Tree.id?]
      rw [hrefer]
      refine .shared (View.hide_eq_some.mpr ⟨hid, hback.here⟩) (.node ?_ hadmits' .nil) .nil
      exact hback.reads (halters.stores hhidden) (halters.after _ (hhidden.cons (by simp [hview])) hparts)

/-- Some of what has become of the parts is put where the node was. Where nothing is new, parts of a shared node are
references. -/
theorem picks {R : List X → Prop} {ws : List Tree} (hnext : s.next = m.next) (hids : (idsAll ws).Sublist (idsAll parts'))
    (horigins : ∀ o ∈ originsAll ws, o ∈ originsAll parts')
    (hvalue : ∀ hidden, Reads A ((m.keep (.node tag kind parts')).view.hide hidden) parts' ys →
      ∃ zs, Reads A ((m.keep (.node tag kind parts')).view.hide hidden) ws zs ∧ R zs) :
    ws.map put = ws ∧ ∃ zs, R zs ∧ Alters A s [seat] [A.node tag kind xs] (m.keep (.node tag kind parts')) ws zs := by
  have hstays := h.stays hs halters hadmits hadmits' hyields
  have hkept (hidden : List Nat) (hhidden : s.Stores hidden) (hseat : Reads A (s.view.hide hidden) [seat] [A.node tag kind xs]) :
      ∃ zs, Reads A ((m.keep (.node tag kind parts')).view.hide hidden) ws zs ∧ R zs :=
    hvalue hidden (h.kept hs halters hhidden hseat)
  cases h with
  | beside hplaces =>
    refine ⟨List.map_id ws, Alters.of_values (hstays.select ?_ ?_) hstays.before hkept⟩
    · simpa [idsAll, ids] using hids.cons tag.id
    · intro o ho
      simpa [originsAll, origins] using .inr (horigins o ho)
  | stored hview =>
    -- a shared node has only references as parts, and nothing was made meanwhile
    have hbare : idsAll ws = [] := by
      obtain ⟨_, _, _, heq, _, hbare, _⟩ := hs.stored hview
      cases heq
      refine List.eq_nil_iff_forall_not_mem.mpr fun i hi => ?_
      rcases halters.ids i (hids.subset hi) with hold | hnew
      · simp [hbare] at hold
      · exact absurd (halters.places.below i (hids.subset hi)) (by omega)
    refine ⟨?_, Alters.of_values (hstays.select (by simp [hbare]) (by simp [originsAll_of_bare ws hbare])) hstays.before hkept⟩
    have hrefer : ∀ w ∈ ws, refer tag.id w = id w := by
      intro w hw
      have hnone := hbare ▸ ids_sublist_idsAll hw
      cases w with
      | node => simp [ids] at hnone
      | _ => rfl
    rw [List.map_congr_left hrefer, List.map_id]

end Seat

theorem Seat.descend_becomes {s m : Session} {tag : Tag} {kind : Kind} {parts : List Tree} {seat : Tree} {put : Tree → Tree}
    (h : Seat s.store tag kind parts seat put) (hs : s.store.Sound) (hevolves : Evolves A s.store parts m.store parts')
    (hvalue : Revalues A s.store tag kind parts m.store parts')
    (hP : ∀ x y, A.yields x y → P s { m with store := m.store.keep (.node tag kind parts') } x [y]) :
    Becomes A P s seat { m with store := m.store.keep (.node tag kind parts') } [put (.node tag kind parts')] := by
  obtain ⟨hkept, hyields⟩ := h.descend hs hevolves hvalue
  refine { toEvolves := hkept, value := fun hidden hhidden x hreads => ?_ }
  obtain ⟨y, hy, hyields⟩ := hyields hidden hhidden hreads
  exact ⟨[y], hy, hP x y hyields⟩

theorem Seat.adopt_becomes {s m : Session} {tag : Tag} {kind : Kind} {parts : List Tree} {seat : Tree} {put : Tree → Tree}
    (h : Seat s.store tag kind parts seat put) (hs : s.store.Sound) (hnew : Unnumbered [t])
    (hrefs : refs t = []) (hfits : A.Fits (s.store.adopt t).1) (hm : m.store = (s.store.adopt t).2)
    (hvalue : ∀ hidden xs, Reads A (s.store.view.hide hidden) parts xs → A.admits kind xs →
      P s m (A.node tag kind xs) [A.eval (s.store.adopt t).1]) :
    Becomes A P s seat m [put (s.store.adopt t).1] := by
  rw [h.put_eq hs fun i hi => (adopt_ids hnew i hi).1]
  refine { toEvolves := hm ▸ .adopt [seat] hs hnew, value := ?_ }
  intro hidden _ x hreads
  obtain ⟨xs, hparts, hadmits, rfl⟩ := h.reads hreads
  refine ⟨_, reads_plain _ ?_ hfits, hvalue hidden xs hparts hadmits⟩
  rw [adopt_eq, number_refs, hrefs]

end Pass
end SourceOptimizer
