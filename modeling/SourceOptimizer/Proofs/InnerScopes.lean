import SourceOptimizer.Proofs.ScopeFree

/-! Inner scopes. The renaming pass replaces the names of a function alike and turns no other into one, as
long as no scope inside binds a name of the function and lambdas do not use a name that is stored. -/
namespace SourceOptimizer

namespace Tree
open Pass.Rename

variable {ts parts : List Tree} {e : String → String}

/-! ## Names that a scope binds -/

def parameterNames : Tree → List String
  | .node _ _ parts =>
    parts.flatMap fun p => (p :: p.items).filterMap fun a =>
      match a with
      | .node _ (.arg name) _ => some name
      | _ => none
  | _ => []

mutual

/-- The names that a tree binds in the scope it stands in. Inside a comprehension only an assignment expression does. -/
def bound (inside : Bool) : Tree → List String
  | .node _ kind parts =>
    match kind with
    | .name id ctx => if inside || ctx == .load then [] else [id]
    | .namedExpr => boundEach (fun i => some (if i = 0 then false else inside)) parts
    | .functionDef name | .asyncFunctionDef name => name :: boundEach (fun i => if i = 1 then none else some inside) parts
    | .classDef name => name :: boundEach (fun i => if i = 2 then none else some inside) parts
    | .lambda => boundEach (fun i => if i = 1 then none else some inside) parts
    | .listComp | .setComp | .dictComp | .generatorExp => boundEach (fun _ => some true) parts
    | .importName name asName =>
      asName.getD (String.ofList (name.toList.takeWhile (· != '.'))) :: boundEach (fun _ => some inside) parts
    | .exceptHandler (some name) | .matchAs (some name) | .matchStar (some name) | .matchMapping (some name) =>
      name :: boundEach (fun _ => some inside) parts
    | _ => boundEach (fun _ => some inside) parts
  | .seq items => boundEach (fun _ => some inside) items
  | .absent => []
  | .shared _ => []

def boundEach (pick : Nat → Option Bool) : List Tree → List String
  | [] => []
  | t :: ts =>
    (match pick 0 with
      | some inside => bound inside t
      | none => []) ++ boundEach (fun i => pick (i + 1)) ts

end

mutual

/-- The names that the generators of a comprehension bind: those that are stored in it other than by assignment expressions. -/
def targets : Tree → List String
  | .node _ kind parts =>
    match kind with
    | .name id .store => [id]
    | .name _ _ | .lambda | .listComp | .setComp | .dictComp | .generatorExp => []
    | .namedExpr => targetsFrom 1 parts
    | _ => targetsFrom 0 parts
  | .seq items => targetsFrom 0 items
  | .absent => []
  | .shared _ => []

def targetsFrom : Nat → List Tree → List String
  | _, [] => []
  | 0, t :: ts => targets t ++ targetsFrom 0 ts
  | skip + 1, _ :: ts => targetsFrom skip ts

end

mutual

/-- The names that are declared nonlocal in a tree, outside the functions and classes in it. -/
def nonlocals : Tree → List String
  | .node _ kind parts =>
    match kind with
    | .nonlocalStmt names => names
    | .globalStmt _ | .functionDef _ | .asyncFunctionDef _ | .classDef _ => []
    | _ => nonlocalsAll parts
  | .seq items => nonlocalsAll items
  | .absent => []
  | .shared _ => []

def nonlocalsAll : List Tree → List String
  | [] => []
  | t :: ts => nonlocals t ++ nonlocalsAll ts

end

def scopeNames (kind : Kind) (parts : List Tree) : List String :=
  match kind with
  | .functionDef _ | .asyncFunctionDef _ | .lambda =>
    parameterNames (parts.getD 0 .absent) ++ bound false (parts.getD 1 .absent) ++ declares (parts.getD 1 .absent)
  | .classDef _ => bound false (parts.getD 2 .absent) ++ declares (parts.getD 2 .absent)
  | .listComp | .setComp | .dictComp | .generatorExp => targetsFrom 0 parts
  | _ => []

mutual

def innerNames : Tree → List String
  | .node _ kind parts => scopeNames kind parts ++ innerNamesAll parts
  | .seq items => innerNamesAll items
  | .absent => []
  | .shared _ => []

def innerNamesAll : List Tree → List String
  | [] => []
  | t :: ts => innerNames t ++ innerNamesAll ts

end

/-! ## What a name belongs to -/

/-- Which names belong to the function in question: those that are used here, and those that are used in scopes inside. The two
differ in the body of a class, whose names are not seen from the scopes inside it. -/
structure Sight where
  here : String → Bool
  deep : String → Bool

/-- The view from a scope inside that binds names, of which some are declared nonlocal. -/
def Sight.behind (s : Sight) (names through : List String) (x : String) : Bool :=
  if through.contains x then s.deep x else !names.contains x && s.deep x

def Sight.within (s : Sight) (names through : List String) : Sight := ⟨s.behind names through, s.behind names through⟩

def Sight.inClass (s : Sight) (names through : List String) : Sight := ⟨s.behind names through, s.deep⟩

mutual

/-- The names in the name nodes of a tree, each with whether it belongs to the function in question. The iterable of the first
generator is looked at from outside of the comprehension, which `source` tells. -/
def uses (s source : Sight) : Tree → List (String × Bool)
  | .node _ kind parts =>
    match kind with
    | .name id _ => [(id, s.here id)]
    | .functionDef _ | .asyncFunctionDef _ | .lambda =>
      let inner := s.within (scopeNames kind parts) (nonlocals (parts.getD 1 .absent))
      usesEach (fun i => if i = 1 then (inner, inner) else (s, s)) parts
    | .classDef _ =>
      let inner := s.inClass (scopeNames kind parts) (nonlocals (parts.getD 2 .absent))
      usesEach (fun i => if i = 2 then (inner, inner) else (s, s)) parts
    | .listComp | .setComp | .dictComp | .generatorExp =>
      usesEach (fun _ => (s.within (scopeNames kind parts) [], s)) parts
    | .comprehension _ => usesEach (fun i => if i = 1 then (source, source) else (s, s)) parts
    | _ => usesEach (fun _ => (s, s)) parts
  | .seq items => usesEach (fun i => (s, if i = 0 then source else s)) items
  | .absent => []
  | .shared _ => []

def usesEach (pick : Nat → Sight × Sight) : List Tree → List (String × Bool)
  | [] => []
  | t :: ts => uses (pick 0).1 (pick 0).2 t ++ usesEach (fun i => pick (i + 1)) ts

end

def locals (parameters : Tree) (body : List Tree) : List String :=
  (parameterNames parameters ++ bound false (.seq body)).filter fun x => !(declares (.seq body)).contains x

def resolved (parameters : Tree) (body : List Tree) : List (String × Bool) :=
  let own : Sight := ⟨(locals parameters body).contains, (locals parameters body).contains⟩
  uses own own (.seq body)

section
variable {L : List String}

theorem Sight.behind_eq {names : List String} (h : ∀ x ∈ names, x ∉ L) (through : List String) :
    Sight.behind ⟨L.contains, L.contains⟩ names through = L.contains := by
  funext x
  unfold Sight.behind
  split
  · rfl
  · by_cases hx : x ∈ names
    · simp [hx, h x hx]
    · simp [hx]

mutual

/-- Where no scope inside binds a name of the function, a name belongs to the function wherever it stands. -/
theorem uses_eq_map : (t : Tree) → (∀ x ∈ innerNames t, x ∉ L) →
    uses ⟨L.contains, L.contains⟩ ⟨L.contains, L.contains⟩ t = (names t).map fun x => (x, L.contains x)
  | .node _ kind parts, h => by
    simp only [innerNames, List.mem_append] at h
    have hscope := Sight.behind_eq fun x hx => h x (.inl hx)
    have hparts := usesEach_eq_map parts fun x hx => h x (.inr hx)
    cases kind <;>
      simp only [uses, names, Sight.within, Sight.inClass, hscope, ite_self, hparts, List.map_cons, List.map_nil]
  | .seq items, h => by simp only [uses, names, ite_self, usesEach_eq_map items h]
  | .absent, _ => rfl
  | .shared _, _ => rfl

theorem usesEach_eq_map : (ts : List Tree) → (∀ x ∈ innerNamesAll ts, x ∉ L) →
    usesEach (fun _ => (⟨L.contains, L.contains⟩, ⟨L.contains, L.contains⟩)) ts = (namesAll ts).map fun x => (x, L.contains x)
  | [], _ => rfl
  | t :: ts, h => by
    simp only [innerNamesAll, List.mem_append] at h
    simp only [usesEach, namesAll, List.map_append, uses_eq_map t fun x hx => h x (.inl hx),
      usesEach_eq_map ts fun x hx => h x (.inr hx)]

end

end

def Binds (t : Tree) : Prop :=
  ∀ inside, ∀ x ∈ stores true t, x ∈ bound inside t ∨ (inside = true ∧ x ∈ targets t) ∨ x ∈ innerNames t

theorem Binds.all (h : ∀ t ∈ ts, Binds t) (inside : Bool) :
    ∀ x ∈ storesAll true ts, x ∈ boundEach (fun _ => some inside) ts ∨ (inside = true ∧ x ∈ targetsFrom 0 ts) ∨
      x ∈ innerNamesAll ts := by
  induction ts with
  | nil => simp [storesAll]
  | cons t ts ih =>
    intro x hx
    have ht := h t (by simp) inside x
    have hts := ih (fun u hu => h u (by simp [hu])) x
    simp only [storesAll, boundEach, targetsFrom, innerNamesAll, List.mem_append] at hx ⊢
    tauto

theorem Binds.namedExpr (h : ∀ t ∈ parts, Binds t) (inside : Bool) :
    ∀ x ∈ storesAll true parts, x ∈ boundEach (fun i => some (if i = 0 then false else inside)) parts ∨
      (inside = true ∧ x ∈ targetsFrom 1 parts) ∨ x ∈ innerNamesAll parts := by
  cases parts with
  | nil => simp [storesAll]
  | cons t ts =>
    intro x hx
    have ht := h t (by simp) false x
    have hts := Binds.all (fun u (hu : u ∈ ts) => h u (by simp [hu])) inside x
    simp only [storesAll, boundEach, targetsFrom, innerNamesAll, List.mem_append, if_true, Nat.succ_ne_zero, if_false,
      Bool.false_eq_true, false_and, false_or] at hx ht ⊢
    tauto

theorem Binds.except (h : ∀ t ∈ parts, Binds t) (inside : Bool) (j : Nat) :
    ∀ x ∈ storesAll true parts, x ∈ boundEach (fun i => if i = j then none else some inside) parts ∨
      (inside = true ∧ x ∈ targetsFrom 0 parts) ∨ x ∈ bound false (parts.getD j .absent) ∨ x ∈ innerNamesAll parts := by
  induction parts generalizing j with
  | nil => simp [storesAll]
  | cons t ts ih =>
    intro x hx
    have hrest := fun u (hu : u ∈ ts) => h u (by simp [hu])
    cases j with
    | zero =>
      have ht := h t (by simp) false x
      have hts := Binds.all hrest inside x
      simp only [storesAll, boundEach, targetsFrom, innerNamesAll, List.mem_append, if_true, Nat.succ_ne_zero, if_false,
        List.getD_cons_zero, List.nil_append, Bool.false_eq_true, false_and, false_or] at hx ht ⊢
      tauto
    | succ j =>
      have ht := h t (by simp) inside x
      have hts := ih hrest j x
      simp only [storesAll, boundEach, targetsFrom, innerNamesAll, List.mem_append, Nat.zero_ne_add_one, if_false,
        List.getD_cons_succ, Nat.add_right_cancel_iff] at hx ⊢
      tauto

mutual

theorem binds : (t : Tree) → Binds t
  | .node tag kind parts => by
    have h := bindsAll parts
    intro inside x hx
    have hall := Binds.all h
    have hcomp : x ∈ storesAll true parts → x ∈ boundEach (fun _ => some true) parts ∨ x ∈ targetsFrom 0 parts ∨
        x ∈ innerNamesAll parts := by
      have := hall true x
      tauto
    cases kind with
    | name id ctx =>
      cases ctx with
      | store =>
        obtain rfl : x = id := by simpa [stores] using hx
        cases inside <;> simp [bound, targets]
      | _ => simp [stores] at hx
    | namedExpr => exact Binds.namedExpr h inside x hx
    | functionDef name => simp [stores] at hx
    | lambda => simp [stores] at hx
    | asyncFunctionDef name =>
      have := Binds.except h inside 1 x hx
      simp only [bound, targets, innerNames, scopeNames, List.mem_cons, List.mem_append]
      tauto
    | classDef name =>
      have := Binds.except h inside 2 x hx
      simp only [bound, targets, innerNames, scopeNames, List.mem_cons, List.mem_append]
      tauto
    | listComp | setComp | dictComp | generatorExp =>
      simp only [bound, innerNames, scopeNames, List.mem_append]
      exact (hcomp hx).imp_right .inr
    | importName name asName => exact (hall inside x hx).imp_left (List.mem_cons_of_mem _)
    | exceptHandler name | matchAs name | matchStar name | matchMapping name =>
      cases name with
      | none => exact hall inside x hx
      | some name => exact (hall inside x hx).imp_left (List.mem_cons_of_mem _)
    | _ => exact hall inside x hx
  | .seq items => Binds.all (bindsAll items)
  | .absent => by simp [Binds, stores]
  | .shared _ => by simp [Binds, stores]

theorem bindsAll : (ts : List Tree) → ∀ t ∈ ts, Binds t
  | [] => by simp
  | t :: ts => by
    rintro u (_ | ⟨_, hu⟩)
    · exact binds t
    · exact bindsAll ts u hu

end

mutual

def written : Tree → List String
  | .node _ kind parts =>
    match kind with
    | .name id .store => [id]
    | .name _ _ => []
    | _ => writtenAll parts
  | .seq items => writtenAll items
  | .absent => []
  | .shared _ => []

def writtenAll : List Tree → List String
  | [] => []
  | t :: ts => written t ++ writtenAll ts

end

mutual

theorem stores_subset_written : (t : Tree) → stores true t ⊆ written t
  | .node _ kind parts => by
    cases kind with
    | name id ctx => cases ctx <;> simp [stores, written]
    | lambda => simp [stores]
    | functionDef name => simp [stores]
    | _ => exact storesAll_subset_written parts
  | .seq items => storesAll_subset_written items
  | .absent => List.nil_subset _
  | .shared _ => List.nil_subset _

theorem storesAll_subset_written : (ts : List Tree) → storesAll true ts ⊆ writtenAll ts
  | [] => List.nil_subset _
  | t :: ts => List.append_subset.mpr
      ⟨List.subset_append_of_subset_left _ (stores_subset_written t),
        List.subset_append_of_subset_right _ (storesAll_subset_written ts)⟩

end

/-! ## What becomes of the names -/

mutual

theorem names_mapOpen_eq : (t : Tree) → (∀ x ∈ fixed t, e x = x) → names (mapOpen e t) = (names t).map e
  | .node tag kind parts, h => by
    cases kind with
    | name id ctx => rfl
    | lambda => exact (List.map_id'' (fun x => rfl) _).symm.trans (List.map_congr_left fun x hx => (h x hx).symm)
    | functionDef name => exact namesAll_mapOpen_eq parts fun x hx => h x (List.mem_append_right _ hx)
    | _ => exact namesAll_mapOpen_eq parts h
  | .seq items, h => namesAll_mapOpen_eq items h
  | .absent, _ => rfl
  | .shared _, _ => rfl

theorem namesAll_mapOpen_eq :
    (ts : List Tree) → (∀ x ∈ fixedAll ts, e x = x) → namesAll (mapOpenAll e ts) = (namesAll ts).map e
  | [], _ => rfl
  | t :: ts, h => by
    simp only [fixedAll, List.mem_append] at h
    simp only [mapOpenAll, namesAll, List.map_append, names_mapOpen_eq t fun x hx => h x (.inl hx),
      namesAll_mapOpen_eq ts fun x hx => h x (.inr hx)]

end

section
variable {D T : String → Prop} {L W : List String} {σ : String → String} {t u : Tree}

/-- Different names become different ones, and what is not written keeps its name. -/
structure Separates (D : String → Prop) (W : List String) (e : String → String) : Prop where
  injective : ∀ {x y}, D x → D y → e x = e y → x = y
  unwritten : ∀ {x}, D x → x ∉ W → e x = x

theorem Own.separates {plain bound : List String} {e' : String → String} (h : Own D T plain bound e e')
    (hbound : bound ⊆ W) (he : Separates D W e) : Separates D W e' :=
  ⟨h.injective, fun hx hout => (h.agree hx fun hmem => hout (hbound hmem)).trans (he.unwritten hx hout)⟩

/-- What becomes of a name in a function with the local variables `L`: a variable is replaced by `σ`, no other name becomes one
of them, and a name that is written nowhere stays. -/
def Becomes (L W : List String) (σ : String → String) (x : String × Bool) (y : String) : Prop :=
  (if x.2 then y = σ x.1 else y ∉ L.map σ) ∧ (x.1 ∉ W → y = x.1)

theorem becomes_env (he : Separates D W e) (hL : ∀ x ∈ L, D x ∧ e x = σ x) {x : String} (hx : D x) :
    Becomes L W σ (x, L.contains x) (e x) := by
  refine ⟨?_, he.unwritten hx⟩
  split
  next hmem => exact (hL x (by simpa using hmem)).2
  next hmem =>
    intro hy
    obtain ⟨z, hz, heq⟩ := List.mem_map.mp hy
    obtain ⟨hDz, hez⟩ := hL z hz
    obtain rfl : z = x := he.injective hDz hx (hez.trans heq)
    simp [hz] at hmem

structure Replaced (D T : String → Prop) (W : List String) (f f' : Tree) (e : String → String) : Prop where
  rewrites : Rewrites D T e f f'
  nested : Nested f
  separates : Separates D W e
  fits : Fits D e (names f) (fixed f)
  written : written f ⊆ W

namespace Replaced
variable {tag : Tag} {name : String} {parameters decorators result f' : Tree} {us body body' : List Tree}

theorem uncons (h : Replaced D T W (.seq (t :: ts)) (.seq us) e) :
    ∃ v vs, us = v :: vs ∧ Replaced D T W t v e ∧ Replaced D T W (.seq ts) (.seq vs) e := by
  obtain ⟨⟨_, heq, hus⟩, hnested, he, hfits, hW⟩ := h
  cases heq
  obtain ⟨v, vs, rfl, hv, hvs⟩ := hus
  have hitems : Nested t ∧ Nested (.seq ts) := by
    cases hnested with
    | free hfree =>
      simp only [functionFree, functionFreeAll, Bool.and_eq_true] at hfree
      exact ⟨.free hfree.1, .free hfree.2⟩
    | seq hitems => exact ⟨hitems t (by simp), .seq fun u hu => hitems u (by simp [hu])⟩
  simp only [Tree.written, writtenAll, List.append_subset] at hW
  exact ⟨v, vs, rfl,
    ⟨hv, hitems.1, he, hfits.subset (List.subset_append_left _ _) (List.subset_append_left _ _), hW.1⟩,
    ⟨vs, rfl, hvs⟩, hitems.2, he, hfits.subset (List.subset_append_right _ _) (List.subset_append_right _ _), hW.2⟩

theorem getElem {i : Nat} (h : Replaced D T W (.seq ts) (.seq us) e) (ht : ts[i]? = some t) :
    ∃ u, us[i]? = some u ∧ Replaced D T W t u e := by
  induction ts generalizing us i with
  | nil => simp at ht
  | cons v ts ih =>
    obtain ⟨w, ws, rfl, hw, hws⟩ := h.uncons
    cases i with
    | zero =>
      obtain rfl : v = t := by simpa using ht
      exact ⟨w, rfl, hw⟩
    | succ i => simpa using ih hws (by simpa using ht)

theorem inside (h : Replaced D T W (.node tag (.functionDef name) [parameters, .seq body, decorators, result]) f' e)
    (hown : Own D T (plainParameters {} parameters) (storesAll true body) e σ) (hrewrites : RewritesAll D T σ body body') :
    Replaced D T W (.seq body) (.seq body') σ := by
  have hW := h.written
  simp only [Tree.written, writtenAll, List.append_nil, List.append_subset] at hW
  obtain ⟨_, _, hfits, _, _⟩ := h.fits.function
  cases h.nested with
  | free hfree => simp [functionFree, Kind.isFunction] at hfree
  | function _ _ _ hbody _ hfixed =>
    exact ⟨⟨body', rfl, hrewrites⟩, .seq hbody,
      hown.separates (fun x hx => hW.2.1 (storesAll_subset_written body hx)) h.separates, hown.fits hfits hfixed, hW.2.1⟩

end Replaced

/-- What replacing does to the names in a tree of which no scope inside binds a local variable. -/
def NamesBecome (D T : String → Prop) (L W : List String) (σ : String → String) (t : Tree) : Prop :=
  ∀ {e u}, Replaced D T W t u e → (∀ x ∈ L, D x ∧ e x = σ x) → (∀ x ∈ innerNames t, x ∉ L) →
    List.Forall₂ (Becomes L W σ) ((names t).map fun x => (x, L.contains x)) (names u)

theorem namesBecome_free (h : functionFree t = true) : NamesBecome D T L W σ t := by
  intro e u hu hL _
  rw [(rewrites_iff_mapOpen e h u).mp hu.rewrites, names_mapOpen_eq t fun x hx => (hu.fits.fixed x hx).2,
    List.forall₂_map_left_iff, List.forall₂_map_right_iff, List.forall₂_same]
  exact fun x hx => becomes_env hu.separates hL (hu.fits.names x hx)

theorem namesBecome_seq (ih : ∀ t ∈ ts, NamesBecome D T L W σ t) : NamesBecome D T L W σ (.seq ts) := by
  intro e u hu hL hinner
  obtain ⟨us, rfl, hus⟩ := hu.rewrites
  induction ts generalizing us with
  | nil =>
    subst hus
    exact .nil
  | cons t ts ihts =>
    obtain ⟨v, vs, rfl, hv, hvs⟩ := hu.uncons
    obtain ⟨_, heq, hrest⟩ := hvs.rewrites
    cases heq
    simp only [innerNames, innerNamesAll, List.mem_append] at hinner
    simp only [names, namesAll, List.map_append]
    exact List.rel_append (ih t (by simp) hv hL fun x hx => hinner x (.inl hx))
      (ihts (fun t ht => ih t (by simp [ht])) (fun x hx => hinner x (.inr hx)) vs hrest hvs)

theorem Nested.becomes (h : Nested t) : NamesBecome D T L W σ t := by
  induction h with
  | free h => exact namesBecome_free h
  | seq _ ih => exact namesBecome_seq ih
  | @function tag name parameters decorators result body hp hd hr hbody hstatement hfixed ih =>
    intro e u hu hL hinner
    obtain ⟨e', p', body', d', r', hown, rfl, hp', hbody', hd', hr'⟩ := rewrites_function.mp hu.rewrites
    obtain ⟨_, hpfits, _, hdfits, hrfits⟩ := hu.fits.function
    have hW := hu.written
    simp only [written, writtenAll, List.append_nil, List.append_subset] at hW
    simp only [innerNames, scopeNames, innerNamesAll, List.getD_cons_zero, List.getD_cons_succ, List.mem_append,
      List.append_nil] at hinner
    -- the function inside does not store a variable of this one
    have hapart : ∀ x ∈ L, x ∉ storesAll true body := by
      intro x hx hmem
      refine hinner x ?_ hx
      rcases binds (.seq body) false x hmem with h | ⟨h, _⟩ | h
      · exact .inl (.inl (.inr h))
      · exact absurd h (by simp)
      · exact .inr (.inr (.inl h))
    have hL' : ∀ x ∈ L, D x ∧ e' x = σ x := fun x hx =>
      ⟨(hL x hx).1, (hown.agree (hL x hx).1 (hapart x hx)).trans (hL x hx).2⟩
    have hfree {t u : Tree} (ht : functionFree t = true) (hu' : Rewrites D T e t u) (hfits : Fits D e (names t) (fixed t))
        (hW : written t ⊆ W) (hinner : ∀ x ∈ innerNames t, x ∉ L) :=
      namesBecome_free ht ⟨hu', .free ht, hu.separates, hfits, hW⟩ hL hinner
    simp only [names, namesAll, List.append_nil, List.map_append]
    refine List.rel_append (hfree hp hp' hpfits hW.1 fun x hx => hinner x (.inr (.inl hx))) (List.rel_append ?_
      (List.rel_append ?_ ?_))
    · exact namesBecome_seq ih (hu.inside hown hbody') hL' fun x hx => hinner x (.inr (.inr (.inl hx)))
    · exact hfree hd hd' hdfits hW.2.2.1 fun x hx => hinner x (.inr (.inr (.inr (.inl hx))))
    · exact hfree hr hr' hrfits hW.2.2.2 fun x hx => hinner x (.inr (.inr (.inr (.inr hx))))

theorem functionFree_at (h : functionFree t = true) (hf : at? path t = some f) :
    functionFree f = true := by
  induction path generalizing t with
  | nil =>
    obtain rfl : t = f := by simpa [at?] using hf
    exact h
  | cons i path ih =>
    cases t with
    | node tag kind parts =>
      simp only [functionFree, Bool.and_eq_true] at h
      obtain ⟨p, hp, hf⟩ := Option.bind_eq_some_iff.mp hf
      exact ih (functionFree_of_mem h.2 (List.mem_of_getElem? hp)) hf
    | seq items =>
      obtain ⟨p, hp, hf⟩ := Option.bind_eq_some_iff.mp hf
      exact ih (functionFree_of_mem h (List.mem_of_getElem? hp)) hf
    | absent => simp [at?] at hf
    | shared slot => simp [at?] at hf

def FunctionsReplaced (D T : String → Prop) (W : List String) (t : Tree) : Prop :=
  ∀ {e u path tag name parts}, Replaced D T W t u e → at? path t = some (.node tag (.functionDef name) parts) →
    ∃ e' u', at? path u = some u' ∧ Replaced D T W (.node tag (.functionDef name) parts) u' e'

theorem functionsReplaced_seq (ih : ∀ t ∈ ts, FunctionsReplaced D T W t) : FunctionsReplaced D T W (.seq ts) := by
  intro e u path tag name parts hu hf
  obtain ⟨us, rfl, -⟩ := hu.rewrites
  cases path with
  | nil => simp [at?] at hf
  | cons i path =>
    obtain ⟨t, ht, hf⟩ := Option.bind_eq_some_iff.mp hf
    obtain ⟨v, hv, hreplaced⟩ := hu.getElem ht
    obtain ⟨e', u', hat, hreplaced⟩ := ih t (List.mem_of_getElem? ht) hreplaced hf
    exact ⟨e', u', by simp [at?, hv, hat], hreplaced⟩

theorem Nested.function_at (h : Nested t) : FunctionsReplaced D T W t := by
  have hnone {t : Tree} (hfree : functionFree t = true) {path tag name parts}
      (hf : at? path t = some (.node tag (.functionDef name) parts)) : False := by
    simpa [functionFree, Kind.isFunction] using functionFree_at hfree hf
  induction h with
  | free hfree => exact fun _ hf => (hnone hfree hf).elim
  | seq _ ih => exact functionsReplaced_seq ih
  | @function tag name parameters decorators result body hp hd hr hbody hstatement hfixed ih =>
    intro e u path tag' name' parts hreplaced hf
    cases path with
    | nil =>
      cases hf
      exact ⟨e, u, rfl, hreplaced⟩
    | cons i path =>
      obtain ⟨e', p', body', d', r', hown, rfl, _, hbody', _, _⟩ := rewrites_function.mp hreplaced.rewrites
      match i with
      | 0 => exact (hnone hp hf).elim
      | 1 =>
        replace hf : at? path (.seq body) = some (.node tag' (.functionDef name') parts) := hf
        obtain ⟨e', u', hat, hreplaced'⟩ := functionsReplaced_seq ih (hreplaced.inside hown hbody') hf
        exact ⟨e', u', hat, hreplaced'⟩
      | 2 => exact (hnone hd hf).elim
      | 3 => exact (hnone hr hf).elim
      | _ + 4 => simp [at?] at hf

theorem Replaced.becomes {tag : Tag} {name : String}
    {parameters decorators result f' : Tree} {body body' : List Tree}
    (h : Replaced D T W (.node tag (.functionDef name) [parameters, .seq body, decorators, result]) f' e)
    (hown : Own D T (plainParameters {} parameters) (storesAll true body) e σ) (hrewrites : RewritesAll D T σ body body')
    (hlocals : ∀ x ∈ locals parameters body, x ∉ innerNamesAll body ∧ D x) :
    List.Forall₂ (Becomes (locals parameters body) W σ) (resolved parameters body) (namesAll body') := by
  have hinner : ∀ x ∈ innerNames (.seq body), x ∉ locals parameters body := fun x hx hmem => (hlocals x hmem).1 hx
  rw [resolved, uses_eq_map (.seq body) hinner]
  have hbody := h.inside hown hrewrites
  exact hbody.nested.becomes hbody (fun x hx => ⟨(hlocals x hx).2, rfl⟩) hinner

end

end Tree

namespace Pass.Rename
open Tree
variable {s : Session} {naming : Naming} {t f : Tree} {path : List Nat}

/-- In a function that stands in no other one, the pass respects inner scopes: for the function itself and every function
inside it, if no scope inside binds one of its local variables, all names that belong to it are replaced alike, with its
plain parameters kept, and no other name becomes the name of one of its variables. Names that are stored nowhere stay as they
are, and the variables that the outer function stores get new names. Functions have to stand directly in the bodies of
functions, and names that functions inside have as parameters or that lambdas use must not be stored around
them. -/
theorem run_respects_scopes (hplaces : s.store.Places [t]) (hrefs : refs t = []) (hflat : flat t = true)
    (hnaming : Settled naming) (hat : outerAt? path t = some f) (hf : Nested f) (hfunction : isFunction {} f = true)
    (hletters : ∀ x ∈ names f ++ fixed f, ¬ Lettered x) :
    ∃ t' m f', Work.Returns (run naming t) s (t', m) s ∧ Settled m ∧ shape t' = shape t ∧ outerAt? path t' = some f' ∧
      ∀ path' tag name parameters body decorators result,
        at? path' f = some (.node tag (.functionDef name) [parameters, .seq body, decorators, result]) →
        (∀ x ∈ locals parameters body, x ∉ innerNamesAll body ∧ ¬ Lettered x) →
        ∃ σ parameters' body' decorators' result',
          at? path' f' = some (.node tag (.functionDef name) [parameters', .seq body', decorators', result']) ∧
          List.Forall₂ (Becomes (locals parameters body) (written f) σ) (resolved parameters body) (namesAll body') ∧
          (∀ x ∈ plainParameters {} parameters, σ x = x) ∧
          (path' = [] → ∀ x ∈ storesAll false body, x ∉ plainParameters {} parameters → x ∉ declarations body →
            Lettered (σ x)) := by
  obtain ⟨t', m, hrun, hm, hshape, depth, n, hn, -, hheight, hat'⟩ := run_outer hplaces hrefs hflat hnaming hat
  cases hf with
  | free hfree =>
    cases f with
    | node tag kind parts => cases kind <;> simp_all [isFunction, Store.look, functionFree, Kind.isFunction]
    | _ => simp [isFunction, Store.look] at hfunction
  | seq => simp [isFunction, Store.look] at hfunction
  | @function tag name parameters decorators result body hp hd hr hbody hstatement hfixed =>
    have hnested : Nested (.node tag (.functionDef name) [parameters, .seq body, decorators, result]) :=
      .function hp hd hr hbody hstatement hfixed
    obtain ⟨σ, T, body', hfresh, hown, hbody', heq⟩ := walk_outer hn rfl hnested hheight hletters
    have hkeep {u : Tree} (hu : functionFree u = true) : Rewrites (¬ Lettered ·) T id u u :=
      (rewrites_iff_mapOpen id hu u).mpr (mapOpen_id u).symm
    have hreplaced : Replaced (¬ Lettered ·) T (written (.node tag (.functionDef name) [parameters, .seq body, decorators, result]))
        (.node tag (.functionDef name) [parameters, .seq body, decorators, result])
        (.node tag (.functionDef name) [parameters, .seq body', decorators, result]) id :=
      { rewrites := rewrites_function.mpr
          ⟨σ, parameters, body', decorators, result, hown, rfl, hkeep hp, hbody', hkeep hd, hkeep hr⟩
        nested := hnested
        separates := ⟨fun _ _ h => h, fun _ _ => rfl⟩
        fits := ⟨fun x hx => hletters x (List.mem_append_left _ hx), fun x hx => ⟨hletters x (List.mem_append_right _ hx), rfl⟩⟩
        written := List.Subset.refl _ }
    refine ⟨t', m, _, hrun, hm, hshape, heq ▸ hat', ?_⟩
    intro path' tag' name' parameters₁ body₁ decorators₁ result₁ hin hlocals
    cases path' with
    | nil =>
      cases hin
      exact ⟨σ, parameters, body', decorators, result, rfl, hreplaced.becomes hown hbody' hlocals, hfresh.parameters,
        fun _ => hfresh.named⟩
    | cons i path' =>
      obtain ⟨e, f', hat₁, hreplaced₁⟩ := hnested.function_at hreplaced hin
      obtain ⟨σ₁, p₁, body₁', d₁, r₁, hown₁, rfl, _, hbody₁, _, _⟩ := rewrites_function.mp hreplaced₁.rewrites
      exact ⟨σ₁, p₁, body₁', d₁, r₁, hat₁, hreplaced₁.becomes hown₁ hbody₁ hlocals, hown₁.keeps, by simp⟩

/-- Statements with a function inside that reads a variable, a generator and a lambda:
`x = a`, `def g(b): y = x; return y`, `return sum(g(i) for i in map(lambda k: k, x))`. -/
def layered : List Tree :=
  [.node { id := 5 } .assign [.seq [.node { id := 6 } (.name "x" .store) []], .node { id := 7 } (.name "a" .load) []],
    .node { id := 8 } (.functionDef "g") [plainArguments 9 ["b"],
      .seq [.node { id := 11 } .assign [.seq [.node { id := 12 } (.name "y" .store) []], .node { id := 13 } (.name "x" .load) []],
        .node { id := 14 } .returnStmt [.node { id := 15 } (.name "y" .load) []]], .seq [], .absent],
    .node { id := 16 } .returnStmt [.node { id := 17 } .call [.node { id := 18 } (.name "sum" .load) [],
      .seq [.node { id := 19 } .generatorExp [
        .node { id := 20 } .call [.node { id := 21 } (.name "g" .load) [], .seq [.node { id := 22 } (.name "i" .load) []], .seq []],
        .seq [.node { id := 23 } (.comprehension false) [.node { id := 24 } (.name "i" .store) [],
          .node { id := 25 } .call [.node { id := 26 } (.name "map" .load) [],
            .seq [.node { id := 27 } .lambda [plainArguments 28 ["k"], .node { id := 30 } (.name "k" .load) []],
              .node { id := 31 } (.name "x" .load) []], .seq []],
          .seq []]]]], .seq []]]]

def layeredFunction : Tree := .node { id := 2 } (.functionDef "f") [plainArguments 3 ["a"], .seq layered, .seq [], .absent]

theorem run_respects_scopes_layered :
    ∃ t' m σ parameters' body' decorators' result',
      Work.Returns (run {} (.node { id := 1 } .moduleDef [.seq [layeredFunction]])) { store := { next := 32 } } (t', m)
        { store := { next := 32 } } ∧
      outerAt? [0, 0] t' = some (.node { id := 2 } (.functionDef "f") [parameters', .seq body', decorators', result']) ∧
      resolved (plainArguments 3 ["a"]) layered = [("x", true), ("a", true), ("y", false), ("x", true), ("y", false),
        ("sum", false), ("g", true), ("i", false), ("i", false), ("map", false), ("k", false), ("x", true)] ∧
      List.Forall₂ (Becomes ["a", "x", "g"] ["x", "y", "i"] σ) (resolved (plainArguments 3 ["a"]) layered) (namesAll body') ∧
      Lettered (σ "x") := by
  have hplaces : Store.Places { next := 32 } [.node { id := 1 } .moduleDef [.seq [layeredFunction]]] :=
    ⟨by decide, fun _ _ => by simp [Store.view], by decide, by decide⟩
  have hsettled : Settled {} := ⟨by decide, rfl, rfl, rfl, rfl⟩
  have hat : outerAt? [0, 0] (.node { id := 1 } .moduleDef [.seq [layeredFunction]]) = some layeredFunction := rfl
  have hnested : Nested layeredFunction := by
    refine .function rfl rfl rfl (fun u hu => ?_) (by decide) (by decide)
    simp only [layered, List.mem_cons, List.not_mem_nil, or_false] at hu
    rcases hu with rfl | rfl | rfl
    · exact .free rfl
    · refine .function rfl rfl rfl (fun u hu => .free ?_) (by decide) (by decide)
      simp only [List.mem_cons, List.not_mem_nil, or_false] at hu
      rcases hu with rfl | rfl <;> rfl
    · exact .free rfl
  obtain ⟨t', m, f', hrun, _, _, hat', hinside⟩ :=
    run_respects_scopes (s := { store := { next := 32 } }) hplaces rfl rfl hsettled hat hnested rfl (by decide)
  have hlocals : locals (plainArguments 3 ["a"]) layered = ["a", "x", "g"] := by decide +kernel
  have hwritten : written layeredFunction = ["x", "y", "i"] := rfl
  obtain ⟨σ, p', body', d', r', hf', hnames, _, hnamed⟩ := hinside [] _ _ _ _ _ _ rfl (by rw [hlocals]; decide)
  exact ⟨t', m, σ, p', body', d', r', hrun, hat'.trans hf', by decide +kernel, hnames,
    hnamed rfl "x" (by decide) (by decide) (by decide)⟩

/-- Statements with a lambda that reads a variable: `x = 1`, `return lambda: x`. -/
def capturing : List Tree :=
  [.node { id := 4 } .assign [.seq [.node { id := 5 } (.name "x" .store) []],
      .node { id := 6 } (.constant { value := .int 1, origin := 6 }) []],
    .node { id := 7 } .returnStmt [.node { id := 8 } .lambda [plainArguments 9 [], .node { id := 10 } (.name "x" .load) []]]]

def capturingModule : Tree :=
  .node { id := 1 } .moduleDef [.seq [.node { id := 2 } (.functionDef "f") [plainArguments 3 [], .seq capturing, .seq [], .absent]]]

/-- A variable that a lambda reads is renamed everywhere but there. -/
theorem captured_variable_strays :
    ¬ ∃ t' m σ body', Work.Returns (run {} capturingModule) { store := { next := 11 } } (t', m) { store := { next := 11 } } ∧
      at? [0, 0, 1] t' = some (.seq body') ∧
      List.Forall₂ (fun x y => if x.2 then y = σ x.1 else y ∉ (locals (plainArguments 3 []) capturing).map σ)
        (resolved (plainArguments 3 []) capturing) (namesAll body') := by
  rintro ⟨t', m, σ, body', hrun, hat, hnames⟩
  have hruns := returns_run (s := { store := { next := 11 } }) (t := capturingModule) {}
    ⟨rfl, fun _ _ => by simp [Store.view]⟩
  have ht := Except.ok.inj (Prod.mk.inj (hrun.symm.trans hruns)).1
  rw [show t' = _ from congrArg Prod.fst ht] at hat
  have hresolved : resolved (plainArguments 3 []) capturing = [("x", true), ("x", true)] := by decide +kernel
  have hbody : namesAll body' = ["IIIlI", "x"] := by
    cases hat
    rfl
  rw [hresolved, hbody] at hnames
  obtain _ | ⟨hfirst, _ | ⟨hsecond, _⟩⟩ := hnames
  exact absurd (hfirst.trans hsecond.symm) (by decide)

end Pass.Rename
end SourceOptimizer
