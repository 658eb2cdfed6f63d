import SourceOptimizer.Proofs.Renaming

/-! Trees whose functions have names of their own. A function replaces the names that it stores by others; what it does
not store is replaced as in the surroundings, and lambdas are left as they are. -/
namespace SourceOptimizer

variable {ts us body : List Tree} {plain bound : List String} {env' : String → String} {tag : Tag} {name : String}
  {parameters decorators result t : Tree}

/-- Where stored names need not be noticed: in comprehensions other than generators, and in declarations. -/
def Kind.isOverlooked : Kind → Bool
  | .listComp | .setComp | .dictComp | .globalStmt _ | .nonlocalStmt _ => true
  | _ => false

def Kind.isFunction : Kind → Bool
  | .functionDef _ => true
  | _ => false

namespace Tree
open Pass.Rename

mutual

def functionFree : Tree → Bool
  | .node _ kind parts => !kind.isFunction && functionFreeAll parts
  | .seq items => functionFreeAll items
  | .absent => true
  | .shared _ => true

def functionFreeAll : List Tree → Bool
  | [] => true
  | t :: ts => functionFree t && functionFreeAll ts

end

mutual

/-- The names that are stored in a tree, outside functions and lambdas and, unless `all`, where
they are noticed. -/
def stores (all : Bool) : Tree → List String
  | .node _ kind parts =>
    match kind with
    | .name id .store => [id]
    | .name _ _ | .lambda | .functionDef _ => []
    | kind => if !all && kind.isOverlooked then [] else storesAll all parts
  | .seq items => storesAll all items
  | .absent => []
  | .shared _ => []

def storesAll (all : Bool) : List Tree → List String
  | [] => []
  | t :: ts => stores all t ++ storesAll all ts

end

mutual

def names : Tree → List String
  | .node _ (.name id _) _ => [id]
  | .node _ _ parts => namesAll parts
  | .seq items => namesAll items
  | .absent => []
  | .shared _ => []

def namesAll : List Tree → List String
  | [] => []
  | t :: ts => names t ++ namesAll ts

end

mutual

def fixed : Tree → List String
  | .node _ kind parts =>
    match kind with
    | .name _ _ => []
    | .lambda => namesAll parts
    | .functionDef _ => plainParameters {} (parts.headD .absent) ++ fixedAll parts
    | _ => fixedAll parts
  | .seq items => fixedAll items
  | .absent => []
  | .shared _ => []

def fixedAll : List Tree → List String
  | [] => []
  | t :: ts => fixed t ++ fixedAll ts

end

mutual

def mapOpen (f : String → String) : Tree → Tree
  | .node tag kind parts =>
    match kind with
    | .name id ctx => .node tag (.name (f id) ctx) parts
    | .lambda => .node tag .lambda parts
    | kind => .node tag kind (mapOpenAll f parts)
  | .seq items => .seq (mapOpenAll f items)
  | .absent => .absent
  | .shared slot => .shared slot

def mapOpenAll (f : String → String) : List Tree → List Tree
  | [] => []
  | t :: ts => mapOpen f t :: mapOpenAll f ts

end

def bodyOf : List Tree → List Tree
  | _ :: body :: _ => body.items
  | _ => []

def isStatement : Tree → Bool
  | .node _ kind _ => !kind.isExpr
  | _ => false

/-- The names of a function's own: it keeps its plain parameters; on the names of `D` it replaces as `env` does, except for
names that are bound in it, and it keeps different names apart. -/
structure Own (D T : String → Prop) (plain bound : List String) (env env' : String → String) : Prop where
  keeps : ∀ x ∈ plain, env' x = x
  agree : ∀ {x}, D x → x ∉ bound → env' x = env x
  injective : ∀ {x y}, D x → D y → env' x = env' y → x = y
  maps : ∀ {x}, D x → T (env' x)

section
variable (D T : String → Prop)

mutual

/-- One tree is the other with its names replaced by `env` and, in functions, by their own. -/
def Rewrites (env : String → String) : Tree → Tree → Prop
  | .node tag kind parts, u =>
    match kind with
    | .name id ctx => u = .node tag (.name (env id) ctx) parts
    | .lambda => u = .node tag .lambda parts
    | .functionDef name =>
      ∃ env' parts', Own D T (plainParameters {} (parts.headD .absent)) (storesAll true (bodyOf parts)) env env' ∧
        u = .node tag (.functionDef name) parts' ∧ RewritesEach (fun i => if i = 1 then env' else env) parts parts'
    | kind => ∃ parts', u = .node tag kind parts' ∧ RewritesEach (fun _ => env) parts parts'
  | .seq items, u => ∃ items', u = .seq items' ∧ RewritesEach (fun _ => env) items items'
  | .absent, u => u = .absent
  | .shared slot, u => u = .shared slot

def RewritesEach (pick : Nat → String → String) : List Tree → List Tree → Prop
  | [], us => us = []
  | t :: ts, us => ∃ u us', us = u :: us' ∧ Rewrites (pick 0) t u ∧ RewritesEach (fun i => pick (i + 1)) ts us'

end

abbrev RewritesAll (env : String → String) : List Tree → List Tree → Prop := RewritesEach D T fun _ => env

end

/-! ## What replacing leaves alone -/

mutual

@[simp] theorem functionFree_shape : (t : Tree) → functionFree (shape t) = functionFree t
  | .node _ kind parts => by
    have hkind : (shape.unnamed kind).isFunction = kind.isFunction := by cases kind <;> rfl
    simp only [shape, functionFree, hkind, functionFreeAll_shapes parts]
  | .seq items => by simp only [shape, functionFree, functionFreeAll_shapes items]
  | .absent => rfl
  | .shared _ => rfl

@[simp] theorem functionFreeAll_shapes : (ts : List Tree) → functionFreeAll (shapes ts) = functionFreeAll ts
  | [] => rfl
  | t :: ts => by simp only [shapes, functionFreeAll, functionFree_shape t, functionFreeAll_shapes ts]

end

@[simp] theorem isStatement_shape (t : Tree) : isStatement (shape t) = isStatement t := by
  cases t with
  | node tag kind parts => cases kind <;> rfl
  | _ => rfl

theorem shapes_eq_map (ts : List Tree) : shapes ts = ts.map shape := by
  induction ts with
  | nil => rfl
  | cons t ts ih => simp only [shapes, ih, List.map_cons]

theorem isStatement_of_shapes (h : shapes us = shapes ts) (hts : ∀ t ∈ ts, isStatement t = true) :
    ∀ u ∈ us, isStatement u = true := by
  intro u hu
  rw [shapes_eq_map, shapes_eq_map] at h
  obtain ⟨t, ht, heq⟩ := List.mem_map.mp (h ▸ List.mem_map_of_mem hu : shape u ∈ ts.map shape)
  rw [← isStatement_shape, ← heq, isStatement_shape, hts t ht]

theorem parameterName_shape (a : Tree) :
    (match Store.look {} (shape a) with | .node _ (.arg name) _ => some name | _ => none) =
      (match Store.look {} a with | .node _ (.arg name) _ => some name | _ => none) := by
  cases a with
  | node tag kind parts => cases kind <;> rfl
  | _ => rfl

@[simp] theorem plainParameters_shape (t : Tree) : plainParameters {} (shape t) = plainParameters {} t := by
  have hitems (plain : Tree) : (shape plain).items = plain.items.map shape := by
    cases plain with
    | seq items => exact shapes_eq_map items
    | _ => rfl
  cases t with
  | node tag kind parts =>
    cases kind with
    | arguments =>
      rcases parts with _ | ⟨_, _ | ⟨plain, _⟩⟩
      · rfl
      · rfl
      · simp only [shape, shapes, shape.unnamed, plainParameters, Store.look, hitems, List.filterMap_map]
        exact List.filterMap_congr fun a _ => parameterName_shape a
    | _ => rfl
  | _ => rfl

section
variable {D T T' : String → Prop} {env env₁ env₂ : String → String} {pick : Nat → String → String}

mutual

theorem alike_of_rewrites {env : String → String} :
    {t u : Tree} → Rewrites D T env t u → shape u = shape t ∧ fixed u = fixed t
  | .node tag kind parts, u, h => by
    cases kind with
    | name id ctx => cases h; exact ⟨rfl, rfl⟩
    | lambda => cases h; exact ⟨rfl, rfl⟩
    | functionDef name =>
      obtain ⟨env', parts', _, rfl, h⟩ := h
      obtain ⟨hshapes, hfixed, hhead⟩ := allAlike_of_rewrites h
      simp only [shape, fixed, hshapes, hfixed, hhead, and_self]
    | _ =>
      obtain ⟨parts', rfl, h⟩ := h
      obtain ⟨hshapes, hfixed, -⟩ := allAlike_of_rewrites h
      simp only [shape, fixed, hshapes, hfixed, and_self]
  | .seq items, u, h => by
    obtain ⟨items', rfl, h⟩ := h
    obtain ⟨hshapes, hfixed, -⟩ := allAlike_of_rewrites h
    simp only [shape, fixed, hshapes, hfixed, and_self]
  | .absent, u, h => by cases h; exact ⟨rfl, rfl⟩
  | .shared _, u, h => by cases h; exact ⟨rfl, rfl⟩

theorem allAlike_of_rewrites {pick : Nat → String → String} :
    {ts us : List Tree} → RewritesEach D T pick ts us → shapes us = shapes ts ∧ fixedAll us = fixedAll ts ∧
      plainParameters {} (us.headD .absent) = plainParameters {} (ts.headD .absent)
  | [], us, h => by cases h; exact ⟨rfl, rfl, rfl⟩
  | t :: ts, us, h => by
    obtain ⟨u, us', rfl, hu, hus⟩ := h
    obtain ⟨hshape, hfixed⟩ := alike_of_rewrites hu
    obtain ⟨hshapes, hfixeds, -⟩ := allAlike_of_rewrites hus
    refine ⟨by rw [shapes, hshape, hshapes, shapes], by rw [fixedAll, hfixed, hfixeds, fixedAll], ?_⟩
    rw [List.headD_cons, List.headD_cons, ← plainParameters_shape, hshape, plainParameters_shape]

end

mutual

theorem stores_of_rewrites {env : String → String} {all : Bool} :
    {t u : Tree} → Rewrites D T env t u → stores all u = (stores all t).map env
  | .node tag kind parts, u, h => by
    cases kind with
    | name id ctx => cases h; cases ctx <;> rfl
    | lambda => cases h; rfl
    | functionDef name =>
      obtain ⟨env', parts', _, rfl, _⟩ := h
      rfl
    | _ =>
      obtain ⟨parts', rfl, h⟩ := h
      simp only [stores, storesAll_of_rewrites h]
      split <;> rfl
  | .seq items, u, h => by
    obtain ⟨items', rfl, h⟩ := h
    simp only [stores, storesAll_of_rewrites h]
  | .absent, u, h => by cases h; rfl
  | .shared _, u, h => by cases h; rfl

theorem storesAll_of_rewrites {env : String → String} {all : Bool} :
    {ts us : List Tree} → RewritesAll D T env ts us → storesAll all us = (storesAll all ts).map env
  | [], us, h => by cases h; rfl
  | t :: ts, us, h => by
    obtain ⟨u, us', rfl, hu, hus⟩ := h
    simp only [storesAll, stores_of_rewrites hu, storesAll_of_rewrites hus, List.map_append]

end

theorem storesAll_bodyOf {all : Bool} (h : RewritesEach D T pick ts us) :
    storesAll all (bodyOf us) = (storesAll all (bodyOf ts)).map (pick 1) := by
  match ts with
  | [] => cases h; rfl
  | [t] =>
    obtain ⟨u, us', rfl, _, rfl⟩ := h
    rfl
  | t :: body :: ts =>
    obtain ⟨u, us, rfl, _, body', us', rfl, hbody, _⟩ := h
    cases body with
    | seq items =>
      obtain ⟨items', rfl, hitems⟩ := hbody
      exact storesAll_of_rewrites hitems
    | node tag kind parts =>
      have hshape := (alike_of_rewrites hbody).1
      cases body' with
      | node tag' kind' parts' => rfl
      | _ => simp [shape] at hshape
    | absent => cases hbody; rfl
    | shared slot => cases hbody; rfl

mutual

theorem stores_subset_names {all : Bool} : (t : Tree) → stores all t ⊆ names t
  | .node tag kind parts => by
    cases kind with
    | name id ctx => cases ctx <;> simp [stores, names]
    | lambda => simp [stores]
    | functionDef name => simp [stores]
    | _ =>
      simp only [stores, names]
      split
      · exact List.nil_subset _
      · exact storesAll_subset_names parts
  | .seq items => storesAll_subset_names items
  | .absent => List.nil_subset _
  | .shared _ => List.nil_subset _

theorem storesAll_subset_names {all : Bool} : (ts : List Tree) → storesAll all ts ⊆ namesAll ts
  | [] => List.nil_subset _
  | t :: ts => List.append_subset.mpr
      ⟨List.subset_append_of_subset_left _ (stores_subset_names t),
        List.subset_append_of_subset_right _ (storesAll_subset_names ts)⟩

end

theorem bodyOf_subset_names (parts : List Tree) : namesAll (bodyOf parts) ⊆ namesAll parts := by
  match parts with
  | [] => exact List.nil_subset _
  | [_] => exact List.nil_subset _
  | _ :: body :: _ =>
    cases body with
    | seq items =>
      exact List.subset_append_of_subset_right _ (List.subset_append_left _ _)
    | _ => exact List.nil_subset _

/-! ## Replacing twice -/

theorem Own.comp {env₁' env₂' : String → String} (h₁ : Own D T plain bound env₁ env₁')
    (h₂ : Own T T' plain (bound.map env₁') env₂ env₂') (hbound : ∀ x ∈ bound, D x) :
    Own D T' plain bound (env₂ ∘ env₁) (env₂' ∘ env₁') where
  keeps x hx := by rw [Function.comp, h₁.keeps x hx, h₂.keeps x hx]
  agree := by
    intro x hx hout
    have h := h₁.agree hx hout
    have hout' : env₁' x ∉ bound.map env₁' := by
      intro hmem
      obtain ⟨z, hz, heq⟩ := List.mem_map.mp hmem
      exact hout (h₁.injective (hbound z hz) hx heq ▸ hz)
    rw [Function.comp, h₂.agree (h₁.maps hx) hout', h, Function.comp]
  injective hx hy heq := h₁.injective hx hy (h₂.injective (h₁.maps hx) (h₁.maps hy) heq)
  maps hx := h₂.maps (h₁.maps hx)

mutual

theorem Rewrites.comp {env₁ env₂ : String → String} :
    {t u v : Tree} → Rewrites D T env₁ t u → Rewrites T T' env₂ u v → (∀ x ∈ names t, D x) →
      Rewrites D T' (env₂ ∘ env₁) t v
  | .node tag kind parts, u, v, h₁, h₂, hnames => by
    cases kind with
    | name id ctx => cases h₁; exact h₂
    | lambda => cases h₁; exact h₂
    | functionDef name =>
      obtain ⟨env₁', parts', hown₁, rfl, h₁⟩ := h₁
      obtain ⟨env₂', parts'', hown₂, rfl, h₂⟩ := h₂
      rw [storesAll_bodyOf h₁, if_pos rfl, (allAlike_of_rewrites h₁).2.2] at hown₂
      have hbound : ∀ x ∈ storesAll true (bodyOf parts), D x := fun x hx =>
        hnames x (bodyOf_subset_names parts (storesAll_subset_names _ hx))
      refine ⟨env₂' ∘ env₁', parts'', hown₁.comp hown₂ hbound, rfl, ?_⟩
      have hpick : (fun i => if i = 1 then env₂' ∘ env₁' else env₂ ∘ env₁) =
          fun i => (if i = 1 then env₂' else env₂) ∘ (if i = 1 then env₁' else env₁) := by
        funext i
        split <;> rfl
      rw [hpick]
      exact RewritesEach.comp h₁ h₂ hnames
    | _ =>
      obtain ⟨parts', rfl, h₁⟩ := h₁
      obtain ⟨parts'', rfl, h₂⟩ := h₂
      exact ⟨parts'', rfl, RewritesEach.comp h₁ h₂ hnames⟩
  | .seq items, u, v, h₁, h₂, hnames => by
    obtain ⟨items', rfl, h₁⟩ := h₁
    obtain ⟨items'', rfl, h₂⟩ := h₂
    exact ⟨items'', rfl, RewritesEach.comp h₁ h₂ hnames⟩
  | .absent, u, v, h₁, h₂, _ => by cases h₁; exact h₂
  | .shared _, u, v, h₁, h₂, _ => by cases h₁; exact h₂

theorem RewritesEach.comp {pick₁ pick₂ : Nat → String → String} :
    {ts us vs : List Tree} → RewritesEach D T pick₁ ts us → RewritesEach T T' pick₂ us vs →
      (∀ x ∈ namesAll ts, D x) → RewritesEach D T' (fun i => pick₂ i ∘ pick₁ i) ts vs
  | [], us, vs, h₁, h₂, _ => by cases h₁; exact h₂
  | t :: ts, us, vs, h₁, h₂, hnames => by
    simp only [RewritesEach] at h₁
    obtain ⟨u, us', rfl, hu, hus⟩ := h₁
    simp only [RewritesEach] at h₂
    obtain ⟨v, vs', rfl, hv, hvs⟩ := h₂
    simp only [namesAll, List.mem_append] at hnames
    exact ⟨v, vs', rfl, Rewrites.comp hu hv fun x hx => hnames x (.inl hx),
      RewritesEach.comp hus hvs fun x hx => hnames x (.inr hx)⟩

end

theorem Own.widen (h : Own D T plain bound env env')
    (hT : ∀ x, T x → T' x) : Own D T' plain bound env env' := { h with maps := fun hx => hT _ (h.maps hx) }

mutual

theorem Rewrites.widen {env : String → String} (hT : ∀ x, T x → T' x) :
    {t u : Tree} → Rewrites D T env t u → Rewrites D T' env t u
  | .node tag kind parts, u, h => by
    cases kind with
    | name id ctx => exact h
    | lambda => exact h
    | functionDef name =>
      obtain ⟨env', parts', hown, rfl, h⟩ := h
      exact ⟨env', parts', hown.widen hT, rfl, RewritesEach.widen hT h⟩
    | _ =>
      obtain ⟨parts', rfl, h⟩ := h
      exact ⟨parts', rfl, RewritesEach.widen hT h⟩
  | .seq items, u, h => by
    obtain ⟨items', rfl, h⟩ := h
    exact ⟨items', rfl, RewritesEach.widen hT h⟩
  | .absent, u, h => h
  | .shared _, u, h => h

theorem RewritesEach.widen {pick : Nat → String → String} (hT : ∀ x, T x → T' x) :
    {ts us : List Tree} → RewritesEach D T pick ts us → RewritesEach D T' pick ts us
  | [], us, h => h
  | t :: ts, us, h => by
    obtain ⟨u, us', rfl, hu, hus⟩ := h
    exact ⟨u, us', rfl, Rewrites.widen hT hu, RewritesEach.widen hT hus⟩

end

/-! ## Functions in functions -/

mutual

theorem rewrites_iff_mapOpen (env : String → String) :
    {t : Tree} → functionFree t = true → (u : Tree) → (Rewrites D T env t u ↔ u = mapOpen env t)
  | .node tag kind parts, h, u => by
    simp only [functionFree, Bool.and_eq_true] at h
    have hparts := rewritesAll_iff_mapOpen env h.2
    cases kind with
    | name id ctx => simp only [Rewrites, mapOpen]
    | lambda => simp only [Rewrites, mapOpen]
    | functionDef name => simp [Kind.isFunction] at h
    | _ => simp only [Rewrites, mapOpen, hparts, exists_eq_right]
  | .seq items, h, u => by simp only [Rewrites, mapOpen, rewritesAll_iff_mapOpen env h, exists_eq_right]
  | .absent, _, u => by simp only [Rewrites, mapOpen]
  | .shared _, _, u => by simp only [Rewrites, mapOpen]

theorem rewritesAll_iff_mapOpen (env : String → String) :
    {ts : List Tree} → functionFreeAll ts = true → (us : List Tree) → (RewritesAll D T env ts us ↔ us = mapOpenAll env ts)
  | [], _, us => by simp only [RewritesEach, mapOpenAll]
  | t :: ts, h, us => by
    simp only [functionFreeAll, Bool.and_eq_true] at h
    have ht := rewrites_iff_mapOpen env h.1
    have hts := rewritesAll_iff_mapOpen env h.2
    simp only [RewritesEach, mapOpenAll, ht, hts]
    constructor
    · rintro ⟨u, us', rfl, rfl, rfl⟩; rfl
    · rintro rfl; exact ⟨_, _, rfl, rfl, rfl⟩

end

mutual

theorem names_mapOpen {env : String → String} :
    (t : Tree) → ∀ y ∈ names (mapOpen env t), (∃ x ∈ names t, y = env x) ∨ y ∈ fixed t
  | .node tag kind parts => by
    cases kind with
    | name id ctx => simp [mapOpen, names]
    | lambda => exact fun y hy => .inr hy
    | functionDef name =>
      intro y hy
      rcases namesAll_mapOpen parts y hy with h | h
      · exact .inl h
      · exact .inr (List.mem_append_right _ h)
    | _ => exact namesAll_mapOpen parts
  | .seq items => namesAll_mapOpen items
  | .absent => by simp [mapOpen, names]
  | .shared _ => by simp [mapOpen, names]

theorem namesAll_mapOpen {env : String → String} :
    (ts : List Tree) → ∀ y ∈ namesAll (mapOpenAll env ts), (∃ x ∈ namesAll ts, y = env x) ∨ y ∈ fixedAll ts
  | [] => by simp [mapOpenAll, namesAll]
  | t :: ts => by
    intro y hy
    simp only [mapOpenAll, namesAll, fixedAll, List.mem_append] at hy ⊢
    rcases hy with hy | hy
    · rcases names_mapOpen t y hy with ⟨x, hx, rfl⟩ | h
      · exact .inl ⟨x, .inl hx, rfl⟩
      · exact .inr (.inl h)
    · rcases namesAll_mapOpen ts y hy with ⟨x, hx, rfl⟩ | h
      · exact .inl ⟨x, .inr hx, rfl⟩
      · exact .inr (.inr h)

end

/-- Functions stand directly in the bodies of functions, and no function stores a name that must not be replaced in it. -/
inductive Nested : Tree → Prop where
  | free {t : Tree} (h : functionFree t = true) : Nested t
  | seq {items : List Tree} (h : ∀ t ∈ items, Nested t) : Nested (.seq items)
  | function {tag : Tag} {name : String} {parameters decorators result : Tree} {body : List Tree}
      (hparameters : functionFree parameters = true) (hdecorators : functionFree decorators = true)
      (hresult : functionFree result = true) (hbody : ∀ t ∈ body, Nested t) (hstatement : ∀ t ∈ body, isStatement t = true)
      (hfixed : ∀ x ∈ fixedAll body, x ∉ storesAll true body) :
      Nested (.node tag (.functionDef name) [parameters, .seq body, decorators, result])

theorem rewrites_function {u : Tree} :
    Rewrites D T env (.node tag (.functionDef name) [parameters, .seq body, decorators, result]) u ↔
      ∃ env' parameters' body' decorators' result', Own D T (plainParameters {} parameters) (storesAll true body) env env' ∧
        u = .node tag (.functionDef name) [parameters', .seq body', decorators', result'] ∧
        Rewrites D T env parameters parameters' ∧ RewritesAll D T env' body body' ∧
        Rewrites D T env decorators decorators' ∧ Rewrites D T env result result' := by
  constructor
  · rintro ⟨env', parts', hown, rfl, p', ps', rfl, hp, q', qs', rfl, ⟨body', rfl, hbody⟩, d', ds', rfl, hd, r', rs', rfl, hr, rfl⟩
    exact ⟨env', p', body', d', r', hown, rfl, hp, hbody, hd, hr⟩
  · rintro ⟨env', p', body', d', r', hown, rfl, hp, hbody, hd, hr⟩
    exact ⟨env', _, hown, rfl, p', _, rfl, hp, _, _, rfl, ⟨body', rfl, hbody⟩, d', _, rfl, hd, r', _, rfl, hr, rfl⟩

/-- The names of a tree are in `D`, and `env` keeps those that must not be replaced. -/
structure Fits (D : String → Prop) (env : String → String) (names fixed : List String) : Prop where
  names : ∀ x ∈ names, D x
  fixed : ∀ x ∈ fixed, D x ∧ env x = x

theorem Fits.subset {names fixed names' fixed' : List String} (h : Fits D env names fixed) (hnames : names' ⊆ names)
    (hfixed : fixed' ⊆ fixed) : Fits D env names' fixed' :=
  ⟨fun x hx => h.names x (hnames hx), fun x hx => h.fixed x (hfixed hx)⟩

theorem Fits.function
    (h : Fits D env (Tree.names (.node tag (.functionDef name) [parameters, .seq body, decorators, result]))
      (Tree.fixed (.node tag (.functionDef name) [parameters, .seq body, decorators, result]))) :
    (∀ x ∈ plainParameters {} parameters, env x = x) ∧ Fits D env (Tree.names parameters) (Tree.fixed parameters) ∧
      Fits D env (namesAll body) (fixedAll body) ∧ Fits D env (Tree.names decorators) (Tree.fixed decorators) ∧
      Fits D env (Tree.names result) (Tree.fixed result) := by
  simp only [Tree.names, namesAll, Tree.fixed, fixedAll, List.headD_cons, List.append_nil] at h
  refine ⟨fun x hx => (h.fixed x (List.mem_append_left _ hx)).2, ?_, ?_, ?_, ?_⟩
  all_goals exact h.subset (fun _ hx => by simp [hx]) fun _ hx => by simp [hx]

theorem Own.fits (h : Own D T plain bound env env')
    (hfits : Fits D env (namesAll ts) (fixedAll ts)) (hfixed : ∀ x ∈ fixedAll ts, x ∉ bound) :
    Fits D env' (namesAll ts) (fixedAll ts) := by
  refine ⟨hfits.names, fun x hx => ⟨(hfits.fixed x hx).1, ?_⟩⟩
  rw [h.agree (hfits.fixed x hx).1 (hfixed x hx), (hfits.fixed x hx).2]

theorem Nested.rewrites (h : Nested t) :
    ∀ {env u}, Rewrites D T env t u → Fits D env (names t) (fixed t) → (∀ x, D x → T (env x)) →
      Nested u ∧ ∀ y ∈ names u, T y := by
  -- a list is rewritten item by item
  have hall {ts : List Tree} (ih : ∀ t ∈ ts, ∀ {env u}, Rewrites D T env t u → Fits D env (names t) (fixed t) →
      (∀ x, D x → T (env x)) → Nested u ∧ ∀ y ∈ names u, T y) {env us} (hus : RewritesAll D T env ts us)
      (hfits : Fits D env (namesAll ts) (fixedAll ts)) (hmaps : ∀ x, D x → T (env x)) :
      (∀ u ∈ us, Nested u) ∧ ∀ y ∈ namesAll us, T y := by
    induction ts generalizing us with
    | nil =>
      subst hus
      exact ⟨by simp, by simp [namesAll]⟩
    | cons t ts ihts =>
      obtain ⟨u, us', rfl, hu, hus⟩ := hus
      obtain ⟨hnested, hnames⟩ := ih t (by simp) hu
        (hfits.subset (List.subset_append_left _ _) (List.subset_append_left _ _)) hmaps
      obtain ⟨hnested', hnames'⟩ := ihts (fun t ht => ih t (by simp [ht])) hus
        (hfits.subset (List.subset_append_right _ _) (List.subset_append_right _ _))
      constructor
      · rintro v (_ | ⟨_, hv⟩)
        · exact hnested
        · exact hnested' v hv
      · intro y hy
        rcases List.mem_append.mp hy with hy | hy
        · exact hnames y hy
        · exact hnames' y hy
  have hfree {t : Tree} (h : functionFree t = true) {env u} (hu : Rewrites D T env t u)
      (hfits : Fits D env (names t) (fixed t)) (hmaps : ∀ x, D x → T (env x)) : functionFree u = true ∧ ∀ y ∈ names u, T y := by
    refine ⟨by rw [← functionFree_shape, (alike_of_rewrites hu).1, functionFree_shape, h], fun y hy => ?_⟩
    obtain rfl := (rewrites_iff_mapOpen env h u).mp hu
    rcases names_mapOpen t y hy with ⟨x, hx, rfl⟩ | hy
    · exact hmaps x (hfits.names x hx)
    · have := hmaps y (hfits.fixed y hy).1
      rwa [(hfits.fixed y hy).2] at this
  induction h with
  | free h =>
    intro env u hu hfits hmaps
    obtain ⟨hu, hnames⟩ := hfree h hu hfits hmaps
    exact ⟨.free hu, hnames⟩
  | seq _ ih =>
    intro env u hu hfits hmaps
    obtain ⟨us, rfl, hus⟩ := hu
    obtain ⟨hnested, hnames⟩ := hall ih hus hfits hmaps
    exact ⟨.seq hnested, hnames⟩
  | @function tag name parameters decorators result body hp hd hr hbody hstatement hfixed ih =>
    intro env u hu hfits hmaps
    obtain ⟨env', p', body', d', r', hown, rfl, hp', hbody', hd', hr'⟩ := rewrites_function.mp hu
    obtain ⟨_, hpfits, hbfits, hdfits, hrfits⟩ := hfits.function
    obtain ⟨hpfree, hpnames⟩ := hfree hp hp' hpfits hmaps
    obtain ⟨hdfree, hdnames⟩ := hfree hd hd' hdfits hmaps
    obtain ⟨hrfree, hrnames⟩ := hfree hr hr' hrfits hmaps
    have hbodyFits : Fits D env' (namesAll body) (fixedAll body) := hown.fits hbfits hfixed
    obtain ⟨hnested, hnames⟩ := hall ih hbody' hbodyFits (fun x hx => hown.maps hx)
    refine ⟨.function hpfree hdfree hrfree hnested ?_ ?_, ?_⟩
    · exact isStatement_of_shapes (allAlike_of_rewrites hbody').1 hstatement
    · -- a name that must not be replaced is not a new one
      rw [(allAlike_of_rewrites hbody').2.1, storesAll_of_rewrites hbody']
      intro x hx hmem
      obtain ⟨z, hz, heq⟩ := List.mem_map.mp hmem
      have hDz := hbodyFits.names z (storesAll_subset_names _ hz)
      have hDx := (hbodyFits.fixed x hx).1
      obtain rfl : z = x := hown.injective hDz hDx (heq.trans (hbodyFits.fixed x hx).2.symm)
      exact hfixed z hx hz
    · simp only [names, namesAll, List.append_nil, List.mem_append]
      rintro y (hy | hy | hy | hy)
      exacts [hpnames y hy, hnames y hy, hdnames y hy, hrnames y hy]

end

end Tree
end SourceOptimizer
