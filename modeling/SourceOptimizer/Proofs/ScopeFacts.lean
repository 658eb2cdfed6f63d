import SourceOptimizer.Proofs.Pruning

/-! What a function is by what stands in it. Whether a function is a generator and which names are its own is
decided by what its body holds, run or not; a function loses exactly what only the removed branches said. -/
namespace SourceOptimizer
open Tree Work Pass Pass.DeadBranch

/-- What a part of a body says about the function. -/
inductive Fact where
  | generator
  | binds (name : String)
  | declaresGlobal (name : String)
  | declaresNonlocal (name : String)
  deriving DecidableEq

/-- In which way a part belongs to a function: as a statement of it, as an expression that is evaluated in it, or as its
parameters. -/
inductive Belonging where
  | body
  | expression
  | parameters

namespace Kind

/-- What a node says itself. In an expression names are bound only by a named expression. -/
def tells : Belonging → Kind → List Fact
  | .parameters, .arg id => [.binds id]
  | .parameters, _ => []
  | .expression, .yield | .expression, .yieldFrom => [.generator]
  | .expression, _ => []
  | .body, kind =>
    match kind with
    | yield | yieldFrom => [.generator]
    | name id .store | name id .del => [.binds id]
    | functionDef id | asyncFunctionDef id | classDef id => [.binds id]
    | importName path asName => [.binds (asName.getD (.ofList (path.toList.takeWhile (· ≠ '.'))))]
    | exceptHandler (some id) | matchStar (some id) | matchAs (some id) | matchMapping (some id) => [.binds id]
    | globalStmt names => names.map .declaresGlobal
    | nonlocalStmt names => names.map .declaresNonlocal
    | _ => []

/-- How a part, by its place, belongs to the function that the node belongs to: the bodies of functions and classes do not,
and the rest of them is evaluated in it, as comprehensions are but for the names that they bind. -/
def reach : Belonging → Kind → Nat → Option Belonging
  | .parameters, .arguments, 4 | .parameters, .arguments, 6 | .parameters, .arg _, _ => none
  | .parameters, _, _ => some .parameters
  | _, .functionDef _, 1 | _, .asyncFunctionDef _, 1 | _, .classDef _, 2 | _, .lambda, 1 => none
  | _, .functionDef _, _ | _, .asyncFunctionDef _, _ | _, .classDef _, _ | _, .lambda, _ => some .expression
  | _, .listComp, _ | _, .setComp, _ | _, .dictComp, _ | _, .generatorExp, _ => some .expression
  | _, .namedExpr, 0 => some .body
  | b, _, _ => some b

end Kind

namespace Tree

mutual

/-- What a tree says about the function that it belongs to. -/
def facts (b : Belonging) : Tree → List Fact
  | .node _ kind parts => kind.tells b ++ factsParts b kind 0 parts
  | .seq items => factsAll b items
  | .absent => []
  | .shared _ => []

def factsParts (b : Belonging) (kind : Kind) (i : Nat) : List Tree → List Fact
  | [] => []
  | p :: ps =>
    (match kind.reach b i with
      | some b => facts b p
      | none => []) ++ factsParts b kind (i + 1) ps

def factsAll (b : Belonging) : List Tree → List Fact
  | [] => []
  | t :: ts => facts b t ++ factsAll b ts

end

def functionFacts : Tree → List Fact
  | .node _ _ (parameters :: body :: _) => facts .parameters parameters ++ facts .body body
  | _ => []

/-- A name that is a function's own: it is bound in it and not declared to be another's. -/
def IsLocal (said : List Fact) (name : String) : Prop :=
  .binds name ∈ said ∧ .declaresGlobal name ∉ said ∧ .declaresNonlocal name ∉ said

end Tree

def Kind.definesFunction : Kind → Bool
  | .functionDef _ | .asyncFunctionDef _ => true
  | _ => false

namespace Tree

def isList : Tree → Bool
  | .seq _ => true
  | _ => false

/-- The branches of a conditional statement are lists. -/
def branchable (kind : Kind) (parts : List Tree) : Bool :=
  match kind, parts with
  | .ifStmt, [_, body, other] => body.isList && other.isList
  | _, _ => true

mutual

def functions : Tree → List Tree
  | .node tag kind parts => (if kind.definesFunction then [.node tag kind parts] else []) ++ functionsAll parts
  | .seq items => functionsAll items
  | .absent => []
  | .shared _ => []

def functionsAll : List Tree → List Tree
  | [] => []
  | t :: ts => functions t ++ functionsAll ts

end

variable {b : Belonging} {ts us : List Tree} {t f : Tree} {fact : Fact}

theorem factsAll_append (b : Belonging) (ts us : List Tree) : factsAll b (ts ++ us) = factsAll b ts ++ factsAll b us := by
  induction ts with
  | nil => rfl
  | cons t ts ih => rw [List.cons_append, factsAll, factsAll, ih, List.append_assoc]

theorem facts_single (b : Belonging) (ts : List Tree) : facts b (single ts) = factsAll b ts := by
  rcases ts with _ | ⟨t, _ | ⟨u, us⟩⟩
  · rfl
  · exact (List.append_nil _).symm
  · rfl

theorem facts_items (b : Belonging) (h : t.isList = true) : factsAll b t.items = facts b t := by
  cases t with
  | seq items => rfl
  | _ => cases h

theorem functionsAll_eq_flatMap (ts : List Tree) : functionsAll ts = ts.flatMap functions := by
  induction ts with
  | nil => rfl
  | cons t ts ih => rw [functionsAll, ih, List.flatMap_cons]

theorem functions_single (ts : List Tree) : functions (single ts) = functionsAll ts := by
  rcases ts with _ | ⟨t, _ | ⟨u, us⟩⟩
  · rfl
  · exact (List.append_nil _).symm
  · rfl

theorem functionsAll_items_subset (t : Tree) : functionsAll t.items ⊆ functions t := by
  cases t with
  | seq items => exact fun _ => id
  | _ => exact List.nil_subset _

mutual

theorem every_of_mem_functions {test : Kind → List Tree → Bool} :
    (t : Tree) → every test t = true → f ∈ functions t → every test f = true
  | .node tag kind parts, h, hf => by
    rcases List.mem_append.mp hf with hf | hf
    · split at hf
      · rwa [List.mem_singleton.mp hf]
      · cases hf
    · exact every_of_mem_functionsAll parts (every_node.mp h).2 hf
  | .seq items, h, hf => every_of_mem_functionsAll items h hf
  | .absent, _, hf => by cases hf
  | .shared _, _, hf => by cases hf

theorem every_of_mem_functionsAll {test : Kind → List Tree → Bool} :
    (ts : List Tree) → everyAll test ts = true → f ∈ functionsAll ts → every test f = true
  | [], _, hf => by cases hf
  | t :: ts, h, hf => by
    rw [everyAll, Bool.and_eq_true] at h
    rcases List.mem_append.mp hf with hf | hf
    · exact every_of_mem_functions t h.1 hf
    · exact every_of_mem_functionsAll ts h.2 hf

end

end Tree

namespace Pass.DeadBranch
variable {b : Belonging} {kind : Kind} {tag : Tag} {parts : List Tree} {fact : Fact} {t f : Tree}

/-- What is said by the parts of a node that are removed with it. -/
def dropped (b : Belonging) (kind : Kind) (parts : List Tree) : List Fact :=
  match kind, parts with
  | .ifStmt, [test, body, other] | .ifExp, [test, body, other] =>
    match test.literal? with
    | some l => facts b test ++ facts b (if l.value.truth then other else body)
    | none => []
  | .whileStmt, test :: rest => if test.literal?.all (·.value.truth) then [] else factsAll b (test :: rest)
  | _, _ => []

mutual

/-- What is said by all that is removed from a tree. -/
def lost (b : Belonging) : Tree → List Fact
  | .node _ kind parts => lostParts b kind 0 parts ++ dropped b kind (prunedParts parts)
  | .seq items => lostItems b items
  | .absent => []
  | .shared _ => []

def lostParts (b : Belonging) (kind : Kind) (i : Nat) : List Tree → List Fact
  | [] => []
  | p :: ps =>
    (match kind.reach b i with
      | some b => lost b p
      | none => []) ++ lostParts b kind (i + 1) ps

def lostItems (b : Belonging) : List Tree → List Fact
  | [] => []
  | t :: ts => lost b t ++ lostItems b ts

end

def lostFacts : Tree → List Fact
  | .node _ _ (parameters :: body :: _) => lost .parameters parameters ++ lost .body body
  | _ => []

theorem factsParts_branch (b : Belonging) (i : Nat) (hkind : kind = .ifStmt ∨ kind = .whileStmt ∨ kind = .ifExp)
    (parts : List Tree) : factsParts b kind i parts = factsAll b parts := by
  induction parts generalizing i with
  | nil => rfl
  | cons p ps ih =>
    have hreach : kind.reach b i = some b := by rcases hkind with rfl | rfl | rfl <;> cases b <;> rfl
    rw [factsParts, hreach, ih, factsAll]

theorem tells_branch (b : Belonging) (hkind : kind = .ifStmt ∨ kind = .whileStmt ∨ kind = .ifExp) : kind.tells b = [] := by
  rcases hkind with rfl | rfl | rfl <;> cases b <;> rfl

theorem mem_facts_chosen (b : Belonging) (tag : Tag) (fact : Fact)
    (hshape : ∀ test body other, kind = .ifStmt → parts = [test, body, other] →
      body.isList = true ∧ other.isList = true) :
    fact ∈ facts b (.node tag kind parts) ↔ fact ∈ factsAll b (chosen tag kind parts) ∨ fact ∈ dropped b kind parts := by
  have hself : fact ∈ facts b (.node tag kind parts) ↔ fact ∈ factsAll b [.node tag kind parts] ∨ fact ∈ [] := by
    simp [factsAll]
  have hopen (hkind : kind = .ifStmt ∨ kind = .whileStmt ∨ kind = .ifExp) :
      facts b (.node tag kind parts) = factsAll b parts := by
    rw [facts, tells_branch b hkind, factsParts_branch b 0 hkind, List.nil_append]
  unfold chosen
  split
  next test body other =>
    obtain ⟨hbody, hother⟩ := hshape test body other rfl rfl
    cases hl : test.literal? with
    | none => simpa only [dropped, hl] using hself
    | some l =>
      rw [hopen (by simp)]
      simp only [dropped, hl, factsAll, List.mem_append, List.append_nil]
      split <;> simp only [facts_items, hbody, hother] <;> tauto
  next test rest =>
    cases hl : test.literal?.all (·.value.truth) with
    | true => simpa only [dropped, hl, if_true] using hself
    | false =>
      rw [hopen (by simp)]
      simp [dropped, hl, factsAll]
  next test body other =>
    cases hl : test.literal? with
    | none => simpa only [dropped, hl] using hself
    | some l =>
      rw [hopen (by simp)]
      simp only [dropped, hl, factsAll, List.mem_append, List.append_nil]
      split <;> tauto
  next hif hwhile hifExp =>
    have hnone : dropped b kind parts = [] := by
      unfold dropped
      split
      · exact absurd rfl (hif _ _ _ rfl)
      · exact absurd rfl (hifExp _ _ _ rfl)
      · exact absurd rfl (hwhile _ _ rfl)
      · rfl
    rw [hnone]
    exact hself

theorem isList_pruned (h : t.isList = true) : (single (pruned t)).isList = true := by
  cases t with
  | seq items => rfl
  | _ => cases h

theorem lists_pruned (h : branchable kind parts = true) : ∀ test body other, kind = .ifStmt →
    prunedParts parts = [test, body, other] → body.isList = true ∧ other.isList = true := by
  rintro test body other rfl hparts
  match parts, hparts with
  | [a, c, d], hparts =>
    cases hparts
    simp only [branchable, Bool.and_eq_true] at h
    exact ⟨isList_pruned h.1, isList_pruned h.2⟩

mutual

/-- What a tree says is what is left of it says, and what is removed from it said. -/
theorem mem_facts_iff (b : Belonging) : (t : Tree) → every branchable t = true →
    (fact ∈ facts b t ↔ fact ∈ factsAll b (pruned t) ∨ fact ∈ lost b t)
  | .node tag kind parts, h => by
    obtain ⟨hnode, hparts⟩ := every_node.mp h
    have hchosen := mem_facts_chosen b tag fact (lists_pruned hnode)
    rw [facts, List.mem_append] at hchosen
    rw [facts, List.mem_append, mem_factsParts_iff b kind 0 parts hparts, ← or_assoc, hchosen, pruned, lost, List.mem_append]
    tauto
  | .seq items, h => by
    rw [pruned, lost, facts, factsAll, factsAll, List.append_nil, facts, mem_factsAll_iff b items h]
  | .absent, _ => by simp [pruned, lost, facts, factsAll]
  | .shared _, _ => by simp [pruned, lost, facts, factsAll]

theorem mem_factsParts_iff (b : Belonging) (kind : Kind) (i : Nat) : (ps : List Tree) → everyAll branchable ps = true →
    (fact ∈ factsParts b kind i ps ↔ fact ∈ factsParts b kind i (prunedParts ps) ∨ fact ∈ lostParts b kind i ps)
  | [], _ => by simp [prunedParts, factsParts, lostParts]
  | p :: ps, h => by
    rw [everyAll, Bool.and_eq_true] at h
    simp only [prunedParts, factsParts, lostParts, List.mem_append, mem_factsParts_iff b kind (i + 1) ps h.2]
    cases kind.reach b i with
    | none => simp
    | some b =>
      simp only [facts_single, mem_facts_iff b p h.1]
      tauto

theorem mem_factsAll_iff (b : Belonging) : (ts : List Tree) → everyAll branchable ts = true →
    (fact ∈ factsAll b ts ↔ fact ∈ factsAll b (prunedItems ts) ∨ fact ∈ lostItems b ts)
  | [], _ => by simp [prunedItems, factsAll, lostItems]
  | t :: ts, h => by
    rw [everyAll, Bool.and_eq_true] at h
    simp only [prunedItems, factsAll, factsAll_append, lostItems, List.mem_append, mem_facts_iff b t h.1,
      mem_factsAll_iff b ts h.2]
    tauto

end

def trimmed : Tree → Tree
  | .node tag kind parts => .node tag kind (prunedParts parts)
  | t => t

theorem mem_functionFacts_iff (f : Tree) (fact : Fact) (h : every branchable f = true) :
    fact ∈ functionFacts f ↔ fact ∈ functionFacts (trimmed f) ∨ fact ∈ lostFacts f := by
  match f, h with
  | .node _ _ [], _ | .node _ _ [_], _ | .seq _, _ | .absent, _ | .shared _, _ =>
    simp [functionFacts, trimmed, prunedParts, lostFacts]
  | .node _ _ (parameters :: body :: _), h =>
    simp only [every, everyAll, Bool.and_eq_true] at h
    simp only [functionFacts, trimmed, prunedParts, lostFacts, List.mem_append, facts_single,
      mem_facts_iff _ parameters h.2.1, mem_facts_iff _ body h.2.2.1]
    tauto

/-! ## The functions that are left -/

theorem functionsAll_chosen_subset (tag : Tag) (kind : Kind) (parts : List Tree) :
    functionsAll (chosen tag kind parts) ⊆ functions (.node tag kind parts) := by
  have hpart {p : Tree} (hp : p ∈ parts) : functions p ⊆ functions (.node tag kind parts) := by
    intro f hf
    rw [functions, functionsAll_eq_flatMap]
    exact List.mem_append_right _ (List.mem_flatMap.mpr ⟨p, hp, hf⟩)
  have hself : functionsAll [.node tag kind parts] ⊆ functions (.node tag kind parts) := by simp [functionsAll]
  unfold chosen
  split
  next test body other =>
    split
    next l hl => split <;> exact List.Subset.trans (functionsAll_items_subset _) (hpart (by simp))
    next => exact hself
  next =>
    split
    · exact hself
    · exact List.nil_subset _
  next test body other =>
    split
    next l hl =>
      rw [functionsAll, functionsAll, List.append_nil]
      split <;> exact hpart (by simp)
    next => exact hself
  next => exact hself

mutual

theorem functions_pruned : (t : Tree) → functionsAll (pruned t) ⊆ (functions t).map trimmed
  | .node tag kind parts => by
    refine List.Subset.trans (functionsAll_chosen_subset tag kind _) ?_
    rw [functions, functions, List.map_append]
    refine List.append_subset.mpr ⟨?_, List.subset_append_of_subset_right _ (functions_prunedParts parts)⟩
    split <;> simp [trimmed]
  | .seq items => by
    rw [pruned, functionsAll, functionsAll, List.append_nil]
    exact functions_prunedItems items
  | .absent => List.nil_subset _
  | .shared _ => List.nil_subset _

theorem functions_prunedParts : (ps : List Tree) → functionsAll (prunedParts ps) ⊆ (functionsAll ps).map trimmed
  | [] => List.nil_subset _
  | p :: ps => by
    rw [prunedParts, functionsAll, functions_single, functionsAll, List.map_append]
    exact List.append_subset.mpr ⟨List.subset_append_of_subset_left _ (functions_pruned p),
      List.subset_append_of_subset_right _ (functions_prunedParts ps)⟩

theorem functions_prunedItems : (ts : List Tree) → functionsAll (prunedItems ts) ⊆ (functionsAll ts).map trimmed
  | [] => List.nil_subset _
  | t :: ts => by
    rw [prunedItems, functionsAll_eq_flatMap, List.flatMap_append, ← functionsAll_eq_flatMap, ← functionsAll_eq_flatMap,
      functionsAll, List.map_append]
    exact List.append_subset.mpr ⟨List.subset_append_of_subset_left _ (functions_pruned t),
      List.subset_append_of_subset_right _ (functions_prunedItems ts)⟩

end

/-- The same in all that decides the scope of a function. -/
def KeepsScope (f g : Tree) : Prop :=
  (.generator ∈ functionFacts g ↔ .generator ∈ functionFacts f) ∧
    ∀ name, (IsLocal (functionFacts g) name ↔ IsLocal (functionFacts f) name) ∧
      (.declaresGlobal name ∈ functionFacts g ↔ .declaresGlobal name ∈ functionFacts f) ∧
      (.declaresNonlocal name ∈ functionFacts g ↔ .declaresNonlocal name ∈ functionFacts f)

theorem keepsScope_of_facts {g : Tree} (h : ∀ fact, fact ∈ functionFacts g ↔ fact ∈ functionFacts f) : KeepsScope f g :=
  ⟨h _, fun name => ⟨by simp only [IsLocal, h], h _, h _⟩⟩

/-- Every function that a run leaves is one of the program with what is left of its body. It says nothing new, and loses
what only the removed branches said: its scope is what it was if they said nothing else than the rest. -/
theorem run_keeps_live_facts {s : Session} (ht : refs t = []) (hs : s.store.Empty) (hshape : every branchable t = true) :
    ∃ t' s', Returns (run step t) s t' s' ∧ ∀ g ∈ functions t', ∃ f ∈ functions t, g = trimmed f ∧
      (∀ fact, fact ∈ functionFacts f ↔ fact ∈ functionFacts g ∨ fact ∈ lostFacts f) ∧
      ((∀ fact ∈ lostFacts f, fact ∈ functionFacts g) → KeepsScope f g) := by
  obtain ⟨t', s', h⟩ := completes_run step_completes t s
  refine ⟨t', s', h, fun g hg => ?_⟩
  obtain ⟨-, -, rfl⟩ := run_prunes ht hs h
  rw [functions_single] at hg
  obtain ⟨f, hf, rfl⟩ := List.mem_map.mp (functions_pruned t hg)
  have hfacts (fact : Fact) := mem_functionFacts_iff f fact (every_of_mem_functions t hshape hf)
  refine ⟨f, hf, rfl, hfacts, fun hsaid => keepsScope_of_facts fun fact => ?_⟩
  rw [hfacts fact]
  exact ⟨.inl, fun h => h.elim id (hsaid fact)⟩

def dormant : Tree :=
  .node { id := 1 } .moduleDef [.seq
    [.node { id := 2 } (.functionDef "f")
      [.node { id := 3 } .arguments [.seq [], .seq [], .absent, .seq [], .seq [], .absent, .seq []],
       .seq [.node { id := 4 } .ifStmt
          [.node { id := 5 } (.constant { value := .int 0, origin := 5 }) [],
           .seq [.node { id := 6 } .exprStmt [.node { id := 7 } .yield [.absent]],
             .node { id := 8 } .assign [.seq [.node { id := 9 } (.name "x" .store) []],
               .node { id := 10 } (.constant { value := .int 1, origin := 10 }) []]],
           .seq []],
         .node { id := 11 } .assign [.seq [.node { id := 12 } (.name "x" .store) []],
           .node { id := 13 } (.constant { value := .int 2, origin := 13 }) []]],
       .seq [], .absent]]]

theorem run_keeps_live_facts_dormant :
    ∃ t' s', Returns (run step dormant) { store := { next := 14 } } t' s' ∧ ∀ g ∈ functions t', ∃ f ∈ functions dormant,
      g = trimmed f ∧ (∀ fact, fact ∈ functionFacts f ↔ fact ∈ functionFacts g ∨ fact ∈ lostFacts f) ∧
      ((∀ fact ∈ lostFacts f, fact ∈ functionFacts g) → KeepsScope f g) :=
  run_keeps_live_facts rfl (fun _ => by simp [Store.view]) rfl

/-- A function whose only yield stands in a branch that never runs is no generator any more. -/
theorem dormant_generator_lost :
    ∃ t' s' f g, Returns (run step dormant) { store := { next := 14 } } t' s' ∧ functions dormant = [f] ∧
      functions t' = [g] ∧ .generator ∈ functionFacts f ∧ .generator ∉ functionFacts g :=
  ⟨_, _, _, _, returns_of_ok rfl, rfl, rfl, by decide, by decide⟩

end Pass.DeadBranch
end SourceOptimizer
