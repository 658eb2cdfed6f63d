import SourceOptimizer.Proofs.PlainVisits

/-! The sources of a session and its modules. Files that were read are sources, and modules as well if they are
programs; writing the modules back puts each of them in the place of its source and keeps all other sources. -/
namespace SourceOptimizer
open Tree Work

variable {t : Tree} {ps qs : List Program} {store : Store} {path : String} {c d : Code}

variable {s m s' : Session} {paths : List String} {ss : List Source} {x : Source}

/-! ## Texts of modules -/

namespace Work

theorem returns_expand {u : Tree} : Returns (expand t) s u s' ↔ s.store.expand t = u ∧ s = s' := by
  simp only [expand, returns_bind, returns_get, returns_pure]
  constructor
  · rintro ⟨_, _, ⟨rfl, rfl⟩, rfl, rfl⟩
    exact ⟨rfl, rfl⟩
  · rintro ⟨rfl, rfl⟩
    exact ⟨_, _, ⟨rfl, rfl⟩, rfl, rfl⟩

theorem returns_print {text : String} :
    Returns (Work.print t) s text s' ↔ (s.store.expand t).print = .ok text ∧ s = s' := by
  simp only [Work.print, returns_bind, returns_expand, returns_ofExcept]
  constructor
  · rintro ⟨_, _, ⟨rfl, rfl⟩, h⟩
    exact h
  · exact fun h => ⟨_, _, ⟨rfl, rfl⟩, h⟩

end Work

namespace Store

mutual

theorem resolve_plain (again : Nat → Tree) : (t : Tree) → refs t = [] → resolve again t = t
  | .node tag kind parts, h => by rw [resolve, resolveAll_plain again parts h]
  | .seq items, h => by rw [resolve, resolveAll_plain again items h]
  | .absent, _ => rfl
  | .shared _, h => by cases h

theorem resolveAll_plain (again : Nat → Tree) : (ts : List Tree) → refsAll ts = [] → resolveAll again ts = ts
  | [], _ => rfl
  | t :: ts, h => by
    obtain ⟨ht, hts⟩ := List.append_eq_nil_iff.mp h
    rw [resolveAll, resolve_plain again t ht, resolveAll_plain again ts hts]

end

theorem expand_plain (s : Store) (ht : refs t = []) : s.expand t = t := resolve_plain _ t ht

end Store

structure Store.Writes (store : Store) (p q : Program) : Prop where
  text : (store.expand p.tree).print = .ok q.code.text
  path : q.code.path = p.code.path
  tree : q.tree = p.tree

theorem returns_printAll :
    Returns (ps.mapM fun p => do return { p with code := { p.code with text := ← Work.print p.tree } }) s qs s' ↔
      List.Forall₂ s.store.Writes ps qs ∧ s = s' := by
  induction ps generalizing s s' qs with
  | nil =>
    rw [List.mapM_nil, returns_pure]
    constructor
    · rintro ⟨rfl, rfl⟩
      exact ⟨.nil, rfl⟩
    · rintro ⟨h, rfl⟩
      cases h
      exact ⟨rfl, rfl⟩
  | cons p ps ih =>
    simp only [List.mapM_cons, returns_bind, returns_print, returns_pure, ih]
    constructor
    · rintro ⟨_, _, ⟨text, _, ⟨htext, rfl⟩, rfl, rfl⟩, qs, _, ⟨hqs, rfl⟩, rfl, rfl⟩
      exact ⟨.cons ⟨htext, rfl, rfl⟩ hqs, rfl⟩
    · rintro ⟨h, rfl⟩
      cases h with
      | @cons _ q _ qs head tail =>
        obtain ⟨htext, hpath, htree⟩ := head
        obtain ⟨⟨path, text⟩, tree⟩ := q
        cases hpath
        cases htree
        exact ⟨_, s, ⟨text, s, ⟨htext, rfl⟩, rfl, rfl⟩, qs, s, ⟨tail, rfl⟩, rfl, rfl⟩

theorem exists_writes :
    (∃ qs, List.Forall₂ store.Writes ps qs) ↔ ∀ p ∈ ps, ∃ text, (store.expand p.tree).print = .ok text := by
  induction ps with
  | nil => simp
  | cons p ps ih =>
    rw [List.forall_mem_cons, ← ih]
    constructor
    · rintro ⟨_, _ | ⟨head, tail⟩⟩
      exact ⟨⟨_, head.text⟩, _, tail⟩
    · rintro ⟨⟨text, htext⟩, qs, hqs⟩
      exact ⟨⟨⟨p.code.path, text⟩, p.tree⟩ :: qs, .cons ⟨htext, rfl, rfl⟩ hqs⟩

theorem written_of_mem {q : Program} (h : List.Forall₂ store.Writes ps qs) (hq : q ∈ qs) :
    ∃ p ∈ ps, store.Writes p q := by
  induction h with
  | nil => cases hq
  | cons head _ ih =>
    rcases List.mem_cons.mp hq with rfl | hq
    · exact ⟨_, by simp, head⟩
    · obtain ⟨p, hp, hwrites⟩ := ih hq
      exact ⟨p, by simp [hp], hwrites⟩

theorem paths_of_writes (h : List.Forall₂ store.Writes ps qs) :
    (qs.map fun q => (q.code.path, q.tree)) = ps.map fun p => (p.code.path, p.tree) := by
  induction h with
  | nil => rfl
  | cons head _ ih => simp only [List.map_cons, head.path, head.tree, ih]

/-! ## Other sources -/

theorem otherSources_sublist (paths : List String) (ss : List Source) : (otherSources paths ss).Sublist ss := by
  induction ss generalizing paths with
  | nil => exact .slnil
  | cons x ss ih =>
    unfold otherSources
    split
    · exact (ih paths).cons x
    · exact (ih (paths ++ [x.path])).cons_cons x

theorem mem_paths_otherSources (paths : List String) (ss : List Source) (path : String) :
    path ∈ (otherSources paths ss).map Source.path ↔ path ∈ ss.map Source.path ∧ path ∉ paths := by
  induction ss generalizing paths with
  | nil => simp [otherSources]
  | cons x ss ih =>
    unfold otherSources
    split
    next hmem =>
      have hx : x.path ∈ paths := by simpa using hmem
      rw [ih, List.map_cons, List.mem_cons]
      constructor
      · exact fun h => ⟨.inr h.1, h.2⟩
      · rintro ⟨rfl | h, hpath⟩
        · exact absurd hx hpath
        · exact ⟨h, hpath⟩
    next hmem =>
      have hx : x.path ∉ paths := by simpa using hmem
      rw [List.map_cons, List.map_cons, List.mem_cons, List.mem_cons, ih, List.mem_append, List.mem_singleton]
      by_cases heq : path = x.path
      · simp [heq, hx]
      · simp [heq]

theorem nodup_otherSources (paths : List String) (ss : List Source) : ((otherSources paths ss).map Source.path).Nodup := by
  induction ss generalizing paths with
  | nil => exact List.nodup_nil
  | cons x ss ih =>
    unfold otherSources
    split
    · exact ih paths
    · refine List.nodup_cons.mpr ⟨fun hmem => ?_, ih _⟩
      exact ((mem_paths_otherSources _ ss x.path).mp hmem).2 (by simp)

theorem nodup_of_paths {codes : List Code} (h : (codes.map (·.path)).Nodup) :
    ((codes.map Source.code ++ otherSources (codes.map (·.path)) ss).map Source.path).Nodup := by
  have hpaths : (codes.map Source.code).map Source.path = codes.map (·.path) := by simp [Source.path]
  rw [List.map_append, hpaths]
  refine List.Nodup.append h (nodup_otherSources _ _) fun path hpath hother => ?_
  exact ((mem_paths_otherSources _ _ path).mp hother).2 hpath

theorem find?_otherSources (hpath : path ∉ paths) :
    (otherSources paths ss).find? (·.path == path) = ss.find? (·.path == path) := by
  induction ss generalizing paths with
  | nil => rfl
  | cons x ss ih =>
    unfold otherSources
    by_cases heq : x.path = path
    · rw [if_neg (by simpa [heq] using hpath)]
      simp [heq]
    · have hhead : (x.path == path) = false := by simpa using heq
      split
      · rw [ih hpath, List.find?_cons, hhead]
      · rw [List.find?_cons, List.find?_cons, hhead]
        exact ih (by simp [hpath, Ne.symm heq])

def Agreeing (ss : List Source) : Prop := ∀ x ∈ ss, ∀ y ∈ ss, x.path = y.path → x = y

theorem mem_otherSources (hss : Agreeing ss) : x ∈ otherSources paths ss ↔ x ∈ ss ∧ x.path ∉ paths := by
  constructor
  · intro hx
    exact ⟨(otherSources_sublist paths ss).subset hx,
      ((mem_paths_otherSources paths ss x.path).mp (List.mem_map_of_mem hx)).2⟩
  · rintro ⟨hx, hpath⟩
    obtain ⟨y, hy, heq⟩ := List.mem_map.mp ((mem_paths_otherSources paths ss x.path).mpr ⟨List.mem_map_of_mem hx, hpath⟩)
    exact hss y ((otherSources_sublist paths ss).subset hy) x hx heq ▸ hy

/-! ## Writing back -/

def Session.rewritten (s : Session) (modules : List Program) (current : Option Code) : Session where
  __ := s
  modules := modules
  sources := modules.map (fun p => .code p.code) ++ otherSources (modules.map (·.code.path)) s.sources
  current := current

def Source.takeOver (old : Option Code) : Source → Option Code
  | .code c => some c
  | .native _ _ => old

theorem returns_updateSources : Returns updateSources s () s' ↔
    (s.modules = [] ∧ s.sources = [] ∧ s = s') ∨
      (¬(s.modules = [] ∧ s.sources = []) ∧ ∃ qs c x, List.Forall₂ s.store.Writes s.modules qs ∧ s.current = some c ∧
        (s.rewritten qs none).sources.find? (·.path == c.path) = some x ∧ s.rewritten qs (x.takeOver (some c)) = s') := by
  have hpaths (qs : List Program) : (qs.map fun p => Source.code p.code).map Source.path = qs.map (·.code.path) := by
    simp [Source.path]
  constructor
  · intro h
    have hrest := returns_get_bind.mp h
    split at hrest
    next hempty =>
      cases hrest
      have hempty' : s.modules = [] ∧ s.sources = [] := by simpa using hempty
      exact .inl ⟨hempty'.1, hempty'.2, rfl⟩
    next hempty =>
      obtain ⟨qs, _, hprint, hrest⟩ := returns_bind.mp hrest
      obtain ⟨hqs, rfl⟩ := returns_printAll.mp hprint
      replace hrest := returns_modify_bind.mp hrest
      rw [hpaths] at hrest
      refine .inr ⟨by simpa using hempty, qs, ?_⟩
      split at hrest
      · exact absurd hrest returns_throw
      next c hc =>
        split at hrest
        · exact absurd hrest returns_throw
        next code hfind =>
          cases hrest
          exact ⟨c, .code code, hqs, hc, hfind, rfl⟩
        next hfind =>
          cases hrest
          refine ⟨c, _, hqs, hc, hfind, ?_⟩
          simp only [Session.rewritten, Source.takeOver, ← hc]
  · rintro (⟨hmodules, hsources, rfl⟩ | ⟨hempty, qs, c, x, hqs, hc, hfind, rfl⟩)
    · refine .bind rfl ?_
      rw [if_pos (by simp [hmodules, hsources])]
      exact rfl
    · refine .bind rfl ?_
      rw [if_neg (by simpa using hempty)]
      refine .bind (returns_printAll.mpr ⟨hqs, rfl⟩)
        (.bind rfl ?_)
      rw [hpaths, hc]
      dsimp only
      rw [show (qs.map (fun p => Source.code p.code) ++ otherSources (qs.map (·.code.path)) s.sources).find?
        (·.path == c.path) = some x from hfind]
      cases x with
      | code code => exact rfl
      | native path bytes =>
        refine returns_pure.mpr ⟨rfl, ?_⟩
        simp only [Session.rewritten, Source.takeOver, ← hc]

def Store.written (store : Store) (p : Program) : Except Fault Program :=
  (store.expand p.tree).print.map fun text => { p with code := { p.code with text } }

theorem outcome_printAll (ps : List Program) (s : Session) :
    outcome (ps.mapM fun p => do return { p with code := { p.code with text := ← Work.print p.tree } }) s =
      (ps.mapM s.store.written, s) := by
  have hprint (p : Program) : outcome (do return { p with code := { p.code with text := ← Work.print p.tree } }) s =
      (s.store.written p, s) := by
    rw [outcome_bind, Work.print, outcome_bind, show outcome (expand p.tree) s = (.ok (s.store.expand p.tree), s) from rfl]
    unfold Store.written
    dsimp only
    cases (s.store.expand p.tree).print <;> rfl
  induction ps with
  | nil => rfl
  | cons p ps ih =>
    rw [List.mapM_cons, List.mapM_cons, outcome_bind, hprint]
    cases s.store.written p with
    | error e => rfl
    | ok q =>
      dsimp only
      rw [outcome_bind, ih]
      cases ps.mapM s.store.written <;> rfl

theorem writes_of_mapM (h : ps.mapM store.written = .ok qs) :
    List.Forall₂ store.Writes ps qs := by
  have hreturns : Returns _ { store } qs { store } := (outcome_printAll ps { store }).trans (by rw [h])
  exact (returns_printAll.mp hreturns).1

def Session.updated (s : Session) (qs : List Program) : Except Fault Unit × Session :=
  match s.current with
  | none => (.error (.attribute (.ofObject "NoneType" "getFilepath")), s.rewritten qs none)
  | some c =>
    match (s.rewritten qs none).sources.find? (·.path == c.path) with
    | none => (.error .exhausted, s.rewritten qs (some c))
    | some x => (.ok (), s.rewritten qs (x.takeOver (some c)))

theorem outcome_updateSources (s : Session) (hs : s.modules ≠ []) : outcome updateSources s =
    match s.modules.mapM s.store.written with
    | .error e => (.error e, s)
    | .ok qs => s.updated qs := by
  have hpaths (qs : List Program) : (qs.map fun p => Source.code p.code).map Source.path = qs.map (·.code.path) := by
    simp [Source.path]
  rw [updateSources, outcome_bind, show outcome MonadState.get s = (.ok s, s) from rfl]
  dsimp only
  rw [if_neg (by simp [hs]), outcome_bind, outcome_printAll]
  cases s.modules.mapM s.store.written with
  | error e => rfl
  | ok qs =>
    dsimp only
    rw [outcome_bind, hpaths]
    unfold Session.updated
    cases hc : s.current with
    | none =>
      simp only [Session.rewritten, ← hc]
      rfl
    | some c =>
      dsimp only [Session.rewritten]
      generalize hfind : List.find? _ (qs.map (fun p => Source.code p.code) ++ _) = found
      rcases found with _ | (code | ⟨path, bytes⟩)
      · simp only [← hc]
        rfl
      · rfl
      · simp only [Source.takeOver, ← hc]
        rfl

theorem find?_rewritten (hpath : path ∈ qs.map (·.code.path)) :
    ∃ q ∈ qs, q.code.path = path ∧
      ∀ (s : Session) current, (s.rewritten qs current).sources.find? (·.path == path) = some (.code q.code) := by
  obtain ⟨p, hp, rfl⟩ := List.mem_map.mp hpath
  cases hfind : (qs.map fun p => Source.code p.code).find? (·.path == p.code.path) with
  | none => exact absurd (by simp [Source.path]) (List.find?_eq_none.mp hfind (.code p.code) (List.mem_map_of_mem hp))
  | some x =>
    obtain ⟨q, hq, rfl⟩ := List.mem_map.mp (List.mem_of_find?_eq_some hfind)
    refine ⟨q, hq, by simpa [Source.path] using List.find?_some hfind, fun s current => ?_⟩
    rw [Session.rewritten, List.find?_append, hfind, Option.some_or]

/-! ## Order among the sources -/

/-- Modules have different paths and are among the sources, and sources with the same path are the same. -/
structure Session.Orderly (s : Session) : Prop where
  nodup : (s.modules.map (·.code.path)).Nodup
  listed : ∀ p ∈ s.modules, .code p.code ∈ s.sources
  agreeing : Agreeing s.sources

def moduleOf? (programs : List Program) (code : Code) : Option Tree :=
  (programs.find? (·.code == code)).map (·.tree)

theorem moduleOf?_eq_some {programs : List Program} {p : Program} (h : (programs.map (·.code.path)).Nodup)
    (hp : p ∈ programs) : moduleOf? programs p.code = some p.tree := by
  cases hfind : programs.find? (·.code == p.code) with
  | none =>
    rw [List.find?_eq_none] at hfind
    exact absurd (by simp) (hfind p hp)
  | some q =>
    have hcode : q.code = p.code := by simpa using List.find?_some hfind
    have heq : q = p := List.inj_on_of_nodup_map h (List.mem_of_find?_eq_some hfind) hp (by rw [hcode])
    rw [moduleOf?, hfind, heq, Option.map_some]

/-- What writing the modules back makes of the sources. -/
structure Session.Rewrites (s s' : Session) : Prop where
  /-- no path is lost, and none is new -/
  paths : ∀ path, path ∈ s'.sources.map Source.path ↔ path ∈ s.sources.map Source.path
  nodup : (s'.sources.map Source.path).Nodup
  modules : (s'.modules.map fun p => (p.code.path, p.tree)) = s.modules.map fun p => (p.code.path, p.tree)
  texts : ∀ p ∈ s'.modules, (s.store.expand p.tree).print = .ok p.code.text ∧
    (∀ x ∈ s'.sources, x.path = p.code.path → x = .code p.code) ∧ moduleOf? s'.modules p.code = some p.tree
  others : ∀ x ∈ s.sources, x.path ∉ s.modules.map (·.code.path) → x ∈ s'.sources
  first : s'.modules.map (fun p => Source.code p.code) <+: s'.sources
  current : ∀ c ∈ s.current, (∃ d, .code d ∈ s.sources ∧ d.path = c.path) →
    ∃ d ∈ s'.current, .code d ∈ s'.sources ∧ d.path = c.path

section
variable {current : Option Code}

theorem modulePaths_of_writes (h : List.Forall₂ store.Writes ps qs) :
    qs.map (·.code.path) = ps.map (·.code.path) := by
  have heq := congrArg (List.map Prod.fst) (paths_of_writes h)
  simpa [Function.comp_def] using heq

theorem mem_rewritten : x ∈ (s.rewritten qs current).sources ↔
    (∃ q ∈ qs, Source.code q.code = x) ∨ x ∈ otherSources (qs.map (·.code.path)) s.sources := by
  simp [Session.rewritten]

theorem filter_of_mem (hnodup : (ss.map Source.path).Nodup) (hx : x ∈ ss) : ss.filter (·.path == x.path) = [x] := by
  induction ss with
  | nil => cases hx
  | cons y ss ih =>
    obtain ⟨hy, hnodup⟩ := List.nodup_cons.mp hnodup
    rcases List.mem_cons.mp hx with rfl | hx
    · rw [List.filter_cons_of_pos (by simp), List.filter_eq_nil_iff.mpr]
      intro z hz hpath
      exact hy (List.mem_map.mpr ⟨z, hz, by simpa using hpath⟩)
    · have hne : y.path ≠ x.path := fun h => hy (h ▸ List.mem_map_of_mem hx)
      rw [List.filter_cons_of_neg (by simpa using hne), ih hnodup hx]

theorem nodup_rewritten (hs : (s.modules.map (·.code.path)).Nodup) (hqs : List.Forall₂ s.store.Writes s.modules qs) :
    ((s.rewritten qs current).sources.map Source.path).Nodup := by
  have hcodes : ((qs.map (·.code)).map (·.path)).Nodup := by
    rw [List.map_map]
    exact modulePaths_of_writes hqs ▸ hs
  have hnodup := @nodup_of_paths s.sources _ hcodes
  rw [List.map_map, List.map_map] at hnodup
  exact hnodup

theorem agreeing_of_nodup (h : (ss.map Source.path).Nodup) : Agreeing ss :=
  fun _ hx _ hy heq => List.inj_on_of_nodup_map h hx hy heq

theorem orderly_rewritten (hs : s.Orderly) (hqs : List.Forall₂ s.store.Writes s.modules qs) :
    (s.rewritten qs current).Orderly where
  nodup := by
    rw [show (s.rewritten qs current).modules = qs from rfl, modulePaths_of_writes hqs]
    exact hs.nodup
  listed := fun q hq => mem_rewritten.mpr (.inl ⟨q, hq, rfl⟩)
  agreeing := agreeing_of_nodup (nodup_rewritten hs.nodup hqs)

theorem mem_paths_rewritten (hs : s.Orderly) (hqs : List.Forall₂ s.store.Writes s.modules qs) (path : String) :
    path ∈ (s.rewritten qs current).sources.map Source.path ↔ path ∈ s.sources.map Source.path := by
  rw [Session.rewritten, List.map_append, List.mem_append, mem_paths_otherSources, List.map_map]
  have hmodules : path ∈ qs.map (Source.path ∘ fun p => .code p.code) ↔ path ∈ s.modules.map (·.code.path) := by
    rw [← modulePaths_of_writes hqs]
    rfl
  have hlisted : path ∈ s.modules.map (·.code.path) → path ∈ s.sources.map Source.path := by
    intro hpath
    obtain ⟨p, hp, rfl⟩ := List.mem_map.mp hpath
    exact List.mem_map.mpr ⟨_, hs.listed p hp, rfl⟩
  rw [hmodules, modulePaths_of_writes hqs]
  constructor
  · rintro (hpath | ⟨hpath, -⟩)
    · exact hlisted hpath
    · exact hpath
  · intro hpath
    by_cases hmodule : path ∈ s.modules.map (·.code.path)
    · exact .inl hmodule
    · exact .inr ⟨hpath, hmodule⟩

theorem code_of_path (hs : s.Orderly) (hd : .code d ∈ s.sources) (hpath : d.path = c.path)
    (hx : x ∈ (s.rewritten qs current).sources) (heq : x.path = c.path) : ∃ e, x = .code e := by
  rcases mem_rewritten.mp hx with ⟨q, -, rfl⟩ | hother
  · exact ⟨q.code, rfl⟩
  · have hold := (otherSources_sublist _ _).subset hother
    exact ⟨d, hs.agreeing x hold _ hd (heq.trans hpath.symm)⟩

theorem rewrites_rewritten (hs : s.Orderly) (hqs : List.Forall₂ s.store.Writes s.modules qs)
    (hc : s.current = some c) (hfind : (s.rewritten qs none).sources.find? (·.path == c.path) = some x) :
    s.Rewrites (s.rewritten qs (x.takeOver (some c))) where
  paths := mem_paths_rewritten hs hqs
  nodup := nodup_rewritten hs.nodup hqs
  modules := paths_of_writes hqs
  texts := by
    intro q hq
    have horderly : (s.rewritten qs (x.takeOver (some c))).Orderly := orderly_rewritten hs hqs
    have htext : (s.store.expand q.tree).print = .ok q.code.text := by
      obtain ⟨p, -, hwrites⟩ := written_of_mem hqs hq
      rw [hwrites.tree]
      exact hwrites.text
    exact ⟨htext, fun y hy hpath => horderly.agreeing y hy _ (horderly.listed q hq) hpath,
      moduleOf?_eq_some horderly.nodup hq⟩
  others := by
    intro y hy hpath
    refine mem_rewritten.mpr (.inr ((mem_otherSources hs.agreeing).mpr ⟨hy, ?_⟩))
    rwa [modulePaths_of_writes hqs]
  first := List.prefix_append _ _
  current := by
    rintro _ hc' ⟨d, hd, hpath⟩
    obtain rfl : c = _ := Option.some.inj (hc.symm.trans hc')
    have hx : x ∈ (s.rewritten qs none).sources := List.mem_of_find?_eq_some hfind
    have heq : x.path = c.path := by simpa using List.find?_some hfind
    obtain ⟨e, rfl⟩ := code_of_path hs hd hpath hx heq
    exact ⟨e, rfl, hx, heq⟩

end

theorem updateSources_rewrites (hs : s.Orderly) (h : Returns updateSources s () s') : s.Rewrites s' ∧ s'.Orderly := by
  rcases returns_updateSources.mp h with ⟨hmodules, hsources, rfl⟩ | ⟨-, qs, c, x, hqs, hc, hfind, rfl⟩
  · refine ⟨⟨fun _ => Iff.rfl, by simp [hsources], rfl, by simp [hmodules], fun _ hx _ => hx, by simp [hmodules], ?_⟩, hs⟩
    rintro c - ⟨d, hd, -⟩
    rw [hsources] at hd
    cases hd
  · exact ⟨rewrites_rewritten hs hqs hc hfind, orderly_rewritten hs hqs⟩

theorem updateSources_returns_iff (hs : s.Orderly) (hc : s.current = some c) (hd : .code d ∈ s.sources)
    (hpath : d.path = c.path) :
    (∃ s', Returns updateSources s () s') ↔ ∀ p ∈ s.modules, ∃ text, (s.store.expand p.tree).print = .ok text := by
  have hne : ¬(s.modules = [] ∧ s.sources = []) := fun h => by
    rw [h.2] at hd
    cases hd
  rw [← exists_writes]
  constructor
  · rintro ⟨s', h⟩
    rcases returns_updateSources.mp h with ⟨hmodules, hsources, -⟩ | ⟨-, qs, -, -, hqs, -⟩
    · exact absurd ⟨hmodules, hsources⟩ hne
    · exact ⟨qs, hqs⟩
  · rintro ⟨qs, hqs⟩
    have hmem : c.path ∈ (s.rewritten qs none).sources.map Source.path := by
      rw [mem_paths_rewritten hs hqs, ← hpath]
      exact List.mem_map_of_mem hd
    obtain ⟨y, hy, heq⟩ := List.mem_map.mp hmem
    cases hfind : (s.rewritten qs none).sources.find? (·.path == c.path) with
    | none =>
      rw [List.find?_eq_none] at hfind
      exact absurd (by simpa using heq) (hfind y hy)
    | some x => exact ⟨_, returns_updateSources.mpr (.inr ⟨hne, qs, c, x, hqs, hc, hfind, rfl⟩)⟩

end SourceOptimizer
