import SourceOptimizer.Proofs.OuterFunctions

/-! Functions without inner scopes: the renaming pass replaces their names by one injective substitution. -/
namespace SourceOptimizer

def Kind.isScope : Kind → Bool
  | .functionDef _ | .asyncFunctionDef _ | .classDef _ | .lambda | .listComp | .setComp | .dictComp | .generatorExp => true
  | _ => false

namespace Tree
open Pass.Rename

mutual

/-- No function, class, lambda, comprehension or generator stands in a tree. -/
def scopeFree : Tree → Bool
  | .node _ kind parts => !kind.isScope && scopeFreeAll parts
  | .seq items => scopeFreeAll items
  | .absent => true
  | .shared _ => true

def scopeFreeAll : List Tree → Bool
  | [] => true
  | t :: ts => scopeFree t && scopeFreeAll ts

end

mutual

/-- The names that are declared global or nonlocal in a tree, outside the functions and classes in it. -/
def declares : Tree → List String
  | .node _ kind parts =>
    match kind with
    | .globalStmt names | .nonlocalStmt names => names
    | .functionDef _ | .asyncFunctionDef _ | .classDef _ => []
    | _ => declaresAll parts
  | .seq items => declaresAll items
  | .absent => []
  | .shared _ => []

def declaresAll : List Tree → List String
  | [] => []
  | t :: ts => declares t ++ declaresAll ts

end

mutual

theorem functionFree_of_scopeFree : (t : Tree) → scopeFree t = true → functionFree t = true
  | .node _ kind parts, h => by
    simp only [scopeFree, functionFree, Bool.and_eq_true] at h ⊢
    refine ⟨?_, functionFreeAll_of_scopeFree parts h.2⟩
    cases kind <;> first | rfl | simp [Kind.isScope] at h
  | .seq items, h => functionFreeAll_of_scopeFree items h
  | .absent, _ => rfl
  | .shared _, _ => rfl

theorem functionFreeAll_of_scopeFree : (ts : List Tree) → scopeFreeAll ts = true → functionFreeAll ts = true
  | [], _ => rfl
  | t :: ts, h => by
    simp only [scopeFreeAll, functionFreeAll, Bool.and_eq_true] at h ⊢
    exact ⟨functionFree_of_scopeFree t h.1, functionFreeAll_of_scopeFree ts h.2⟩

end

mutual

theorem mapOpen_of_scopeFree (σ : String → String) : (t : Tree) → scopeFree t = true → mapOpen σ t = mapNames σ t
  | .node _ kind parts, h => by
    simp only [scopeFree, Bool.and_eq_true] at h
    have hparts := mapOpenAll_of_scopeFree σ parts h.2
    cases kind with
    | lambda => simp [Kind.isScope] at h
    | _ => simp only [mapOpen, mapNames, hparts]
  | .seq items, h => by simp only [mapOpen, mapNames, mapOpenAll_of_scopeFree σ items h]
  | .absent, _ => rfl
  | .shared _, _ => rfl

theorem mapOpenAll_of_scopeFree (σ : String → String) :
    (ts : List Tree) → scopeFreeAll ts = true → mapOpenAll σ ts = mapNamesAll σ ts
  | [], _ => rfl
  | t :: ts, h => by
    simp only [scopeFreeAll, Bool.and_eq_true] at h
    simp only [mapOpenAll, mapNamesAll, mapOpen_of_scopeFree σ t h.1, mapOpenAll_of_scopeFree σ ts h.2]

end

mutual

theorem fixed_of_scopeFree : (t : Tree) → scopeFree t = true → fixed t = []
  | .node _ kind parts, h => by
    simp only [scopeFree, Bool.and_eq_true] at h
    have hparts := fixedAll_of_scopeFree parts h.2
    cases kind with
    | lambda => simp [Kind.isScope] at h
    | functionDef name => simp [Kind.isScope] at h
    | _ => simp only [fixed, hparts]
  | .seq items, h => fixedAll_of_scopeFree items h
  | .absent, _ => rfl
  | .shared _, _ => rfl

theorem fixedAll_of_scopeFree : (ts : List Tree) → scopeFreeAll ts = true → fixedAll ts = []
  | [], _ => rfl
  | t :: ts, h => by
    simp only [scopeFreeAll, Bool.and_eq_true] at h
    simp only [fixedAll, fixed_of_scopeFree t h.1, fixedAll_of_scopeFree ts h.2, List.append_nil]

end

mutual

theorem fixed_subset_names : (t : Tree) → functionFree t = true → fixed t ⊆ names t
  | .node _ kind parts, h => by
    simp only [functionFree, Bool.and_eq_true] at h
    have hparts := fixedAll_subset_names parts h.2
    cases kind with
    | name id ctx => exact List.nil_subset _
    | lambda => exact List.Subset.refl _
    | functionDef name => simp [Kind.isFunction] at h
    | _ => exact hparts
  | .seq items, h => fixedAll_subset_names items h
  | .absent, _ => List.nil_subset _
  | .shared _, _ => List.nil_subset _

theorem fixedAll_subset_names : (ts : List Tree) → functionFreeAll ts = true → fixedAll ts ⊆ namesAll ts
  | [], _ => List.nil_subset _
  | t :: ts, h => by
    simp only [functionFreeAll, Bool.and_eq_true] at h
    exact List.append_subset.mpr ⟨List.subset_append_of_subset_left _ (fixed_subset_names t h.1),
      List.subset_append_of_subset_right _ (fixedAll_subset_names ts h.2)⟩

end

end Tree

namespace Pass.Rename
open Tree
variable {s : Session} {naming : Naming} {t : Tree} {path : List Nat} {tag : Tag} {name : String}
  {parameters decorators result : Tree} {body : List Tree}

theorem declares_of_declared {u : Tree} {names : List String} (h : declared? {} u = some names) : declares u = names := by
  cases u with
  | node tag kind parts => cases kind <;> simp_all [declared?, Store.look, declares]
  | _ => simp [declared?, Store.look] at h

theorem mem_declaresAll {x : String} : x ∈ declaresAll body ↔ ∃ u ∈ body, x ∈ declares u := by
  induction body with
  | nil => simp [declaresAll]
  | cons u us ih => simp [declaresAll, ih]

theorem declarations_subset : declarations body ⊆ declaresAll body := by
  intro x hx
  obtain ⟨u, hu, hx⟩ := List.mem_flatMap.mp hx
  cases hnames : declared? {} u with
  | none => simp [hnames] at hx
  | some names =>
    refine mem_declaresAll.mpr ⟨u, hu, ?_⟩
    rw [declares_of_declared hnames]
    simpa [hnames] using hx

theorem Fresh.declaresAll {plain : List String} {σ : String → String} (h : Fresh plain body σ)
    (htop : ∀ u ∈ body, declared? {} u = none → declares u = [])
    (hfirst : ∀ pre u post, body = pre ++ u :: post → ∀ x ∈ declares u, x ∉ storesAll true pre) :
    ∀ x ∈ declaresAll body, σ x = x := by
  intro x hx
  obtain ⟨u, hu, hx⟩ := mem_declaresAll.mp hx
  obtain ⟨pre, post, hsplit⟩ := List.append_of_mem hu
  cases hnames : declared? {} u with
  | none => simp [htop u hu hnames] at hx
  | some names =>
    have hmem : x ∈ (declared? {} u).getD [] := by simpa [hnames, declares_of_declared hnames] using hx
    exact h.declared hsplit x hmem (hfirst pre u post hsplit x hx)

/-- In a function without inner scopes the pass replaces the names of all name nodes by one injective substitution and
changes nothing else. The function stands in no other function; its declarations are statements of its body that
come before what they declare is stored. -/
theorem run_substitutes (hplaces : s.store.Places [t]) (hrefs : refs t = []) (hflat : flat t = true)
    (hnaming : Settled naming)
    (hat : outerAt? path t = some (.node tag (.functionDef name) [parameters, .seq body, decorators, result]))
    (hfree : functionFreeAll [parameters, decorators, result] = true) (hbody : scopeFreeAll body = true)
    (hstatement : ∀ u ∈ body, isStatement u = true)
    (htop : ∀ u ∈ body, declared? {} u = none → declares u = [])
    (hfirst : ∀ pre u post, body = pre ++ u :: post → ∀ x ∈ declares u, x ∉ storesAll true pre)
    (hletters : ∀ x ∈ namesAll [parameters, .seq body, decorators, result] ++ plainParameters {} parameters, ¬ Lettered x) :
    ∃ t' m σ, Work.Returns (run naming t) s (t', m) s ∧ Settled m ∧ shape t' = shape t ∧
      outerAt? path t' =
        some (.node tag (.functionDef name) [parameters, .seq (mapNamesAll σ body), decorators, result]) ∧
      Set.InjOn σ {x | x ∈ namesAll body ++ plainParameters {} parameters} ∧
      (∀ x ∈ plainParameters {} parameters, σ x = x) ∧ (∀ x ∈ declaresAll body, σ x = x) ∧
      (∀ x, x ∉ storesAll true body → σ x = x) ∧
      ∀ x ∈ storesAll false body, x ∉ plainParameters {} parameters → x ∉ declaresAll body → Lettered (σ x) := by
  simp only [functionFreeAll, Bool.and_eq_true, and_true] at hfree
  obtain ⟨hp, hd, hr⟩ := hfree
  have hbodyFree := functionFreeAll_of_scopeFree body hbody
  have hfixed := fixedAll_of_scopeFree body hbody
  have hnested : Nested (.node tag (.functionDef name) [parameters, .seq body, decorators, result]) :=
    .function hp hd hr (fun u hu => .free (functionFree_of_mem hbodyFree hu)) hstatement (by simp [hfixed])
  have hnames : ∀ x ∈ names (.node tag (.functionDef name) [parameters, .seq body, decorators, result]) ++
      fixed (.node tag (.functionDef name) [parameters, .seq body, decorators, result]), ¬ Lettered x := by
    intro x hx
    have hp := @fixed_subset_names parameters hp x
    have hd := @fixed_subset_names decorators hd x
    have hr := @fixed_subset_names result hr x
    refine hletters x ?_
    simp only [names, fixed, namesAll, fixedAll, hfixed, List.headD_cons, List.append_nil, List.nil_append,
      List.mem_append] at hx ⊢
    tauto
  obtain ⟨t', m, hrun, hm, hshape, depth, n, hn, -, hheight, hat'⟩ := run_outer hplaces hrefs hflat hnaming hat
  obtain ⟨σ, T, body', hfresh, _, hbody', heq⟩ := walk_outer hn rfl hnested hheight hnames
  obtain rfl := (rewritesAll_iff_mapOpen σ hbodyFree body').mp hbody'
  rw [mapOpenAll_of_scopeFree σ body hbody] at heq
  refine ⟨t', m, σ, hrun, hm, hshape, heq ▸ hat', ?_, hfresh.parameters, hfresh.declaresAll htop hfirst,
    fun x => hfresh.unstored, fun x hx hx' hx'' => hfresh.named x hx hx' fun hmem => hx'' (declarations_subset hmem)⟩
  have hletter : ∀ x ∈ namesAll body ++ plainParameters {} parameters, ¬ Lettered x := by
    intro x hx
    refine hletters x ?_
    simp only [namesAll, names, List.mem_append] at hx ⊢
    tauto
  exact fun x hx y hy => hfresh.injective (hletter x hx) (hletter y hy)

def plainArguments (id : Nat) (names : List String) : Tree :=
  .node { id } .arguments [.seq [], .seq (names.mapIdx fun i name => .node { id := id + i + 1 } (.arg name) [.absent]), .absent,
    .seq [], .seq [], .absent, .seq []]

def storing : List Tree :=
  [.node { id := 6 } (.globalStmt ["g"]) [],
    .node { id := 7 } .assign [.seq [.node { id := 8 } (.name "x" .store) []], .node { id := 9 } (.name "a" .load) []],
    .node { id := 10 } .assign [.seq [.node { id := 11 } (.name "g" .store) []], .node { id := 12 } (.name "x" .load) []],
    .node { id := 13 } .deleteStmt [.seq [.node { id := 14 } (.name "x" .del) []]]]

def methodModule : Tree :=
  .node { id := 1 } .moduleDef [.seq [.node { id := 2 } (.classDef "A") [.seq [], .seq [],
    .seq [.node { id := 3 } (.functionDef "f") [plainArguments 4 ["a"], .seq storing, .seq [], .absent]], .seq []]]]

theorem run_substitutes_method :
    ∃ t' m σ, Work.Returns (run {} methodModule) { store := { next := 15 } } (t', m) { store := { next := 15 } } ∧
      outerAt? [0, 0, 2, 0] t' =
        some (.node { id := 3 } (.functionDef "f") [plainArguments 4 ["a"], .seq (mapNamesAll σ storing), .seq [], .absent]) ∧
      σ "a" = "a" ∧ σ "g" = "g" ∧ Lettered (σ "x") := by
  have hplaces : Store.Places { next := 15 } [methodModule] :=
    ⟨by decide, fun _ _ => by simp [Store.view], by decide, by decide⟩
  have hsettled : Settled {} := ⟨by decide, rfl, rfl, rfl, rfl⟩
  have hat : outerAt? [0, 0, 2, 0] methodModule =
      some (.node { id := 3 } (.functionDef "f") [plainArguments 4 ["a"], .seq storing, .seq [], .absent]) := rfl
  have hfirst : ∀ pre u post, storing = pre ++ u :: post → ∀ x ∈ declares u, x ∉ storesAll true pre := by
    intro pre u post heq x hx
    cases pre with
    | nil => simp [storesAll]
    | cons p pre =>
      have hu : u ∈ storing.tail := by simp [heq]
      simp only [storing, List.tail_cons, List.mem_cons, List.not_mem_nil, or_false] at hu
      rcases hu with rfl | rfl | rfl <;> simp [declares, declaresAll] at hx
  obtain ⟨t', m, σ, hrun, _, _, hat', _, hparameters, hdeclared, _, hnamed⟩ :=
    run_substitutes (s := { store := { next := 15 } }) hplaces rfl rfl hsettled hat rfl rfl (by decide) (by decide) hfirst
      (by decide)
  exact ⟨t', m, σ, hrun, hat', hparameters "a" (by decide), hdeclared "g" (by decide),
    hnamed "x" (by decide) (by decide) (by decide)⟩

/-- A class inside a function, with a method that reads a variable of the function. -/
def innerMethodModule : Tree :=
  .node { id := 1 } .moduleDef [.seq [.node { id := 2 } (.functionDef "f") [plainArguments 3 [],
    .seq [.node { id := 4 } .assign [.seq [.node { id := 5 } (.name "x" .store) []],
        .node { id := 6 } (.constant { value := .int 1, origin := 6 }) []],
      .node { id := 7 } (.classDef "A") [.seq [], .seq [],
        .seq [.node { id := 8 } (.functionDef "g") [plainArguments 9 ["self"],
          .seq [.node { id := 11 } .returnStmt [.node { id := 12 } (.name "x" .load) []]], .seq [], .absent]], .seq []],
      .node { id := 13 } .returnStmt [.node { id := 14 } (.name "A" .load) []]],
    .seq [], .absent]]]

/-- In a class that stands in a function, a method does not keep the names that it never stores. -/
theorem inner_method_not_substituted :
    ¬ ∃ t' m σ body, at? [0, 0, 1, 1, 2, 0, 1] innerMethodModule = some (.seq body) ∧
      Work.Returns (run {} innerMethodModule) { store := { next := 15 } } (t', m) { store := { next := 15 } } ∧
      at? [0, 0, 1, 1, 2, 0, 1] t' = some (.seq (mapNamesAll σ body)) ∧ ∀ x, x ∉ storesAll true body → σ x = x := by
  rintro ⟨t', m, σ, body, hbody, hrun, hat, hkeep⟩
  cases hbody
  have hruns := returns_run (s := { store := { next := 15 } }) (t := innerMethodModule) {}
    ⟨rfl, fun _ _ => by simp [Store.view]⟩
  have ht := Except.ok.inj (Prod.mk.inj (hrun.symm.trans hruns)).1
  rw [show t' = _ from congrArg Prod.fst ht] at hat
  have hname : some (Tree.seq [.node { id := 11 } .returnStmt [.node { id := 12 } (.name "IIIlI" .load) []]]) =
      some (.seq [.node { id := 11 } .returnStmt [.node { id := 12 } (.name (σ "x") .load) []]]) := hat
  have hx : σ "x" = "x" := hkeep "x" (by decide)
  simp [hx] at hname

end Pass.Rename
end SourceOptimizer
