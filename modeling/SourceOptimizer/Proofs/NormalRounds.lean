import SourceOptimizer.Proofs.NormalForm
import SourceOptimizer.Proofs.ParsedTrees

/-! Rounds and normal forms. Where the rounds of the first two levels end with nothing left to do, the modules
are the normal forms of what was read. -/
namespace SourceOptimizer
open Tree Work

variable {w : Worker}

namespace Session

variable {α : Type} {i n : Nat} {t : Tree} {p : Program} {source path : String} {s s' m : Session} {x : Work α}
  {e : Fault}

structure Stands (s : Session) : Prop where
  store : s.store.Empty
  modules : ∀ p ∈ s.modules, Standing s.store.next [p.tree] ∧ p.tree.isBranch = false

def outline (s : Session) : List (Code × Tree) := s.modules.map fun p => (p.code, p.tree.bare)

def aim (s : Session) : Aim := if s.level ≤ 0 then .documentation else .all true

def forms (s : Session) : List (Code × List Tree) := s.modules.map fun p => (p.code, normal s.aim p.tree)

theorem Stands.plain (h : s.Stands) : s.Plain :=
  ⟨h.store, fun p hp => refs_of_mem (h.modules p hp).1.plain (by simp)⟩

theorem Stands.putTree (h : s.Stands) (hstore : m.store.Empty) (hmodules : m.modules = s.modules)
    (hnext : s.store.next ≤ m.store.next) (ht : Standing m.store.next [t]) (hsingle : t.isBranch = false) :
    (m.putTree i t).Stands where
  store := hstore
  modules := by
    intro p hp
    obtain ⟨j, hj⟩ := List.mem_iff_getElem?.mp hp
    simp only [Session.putTree, List.getElem?_modify, Option.map_eq_map, Option.map_eq_some_iff, hmodules] at hj
    obtain ⟨q, hq, rfl⟩ := hj
    obtain ⟨hstanding, hbranch⟩ := h.modules q (List.mem_of_getElem? hq)
    split
    · exact ⟨ht, hsingle⟩
    · exact ⟨hstanding.mono hnext, hbranch⟩

theorem forms_putTree (hp : s.modules[i]? = some p)
    (ht : normal s.aim t = normal s.aim p.tree) : (s.putTree i t).forms = s.forms := by
  change (s.putTree i t).modules.map (fun p => (p.code, normal s.aim p.tree)) = _
  refine List.ext_getElem? fun j => ?_
  simp only [forms, Session.putTree, List.getElem?_map, List.getElem?_modify]
  by_cases hij : i = j
  · subst hij
    simp [hp, ht]
  · simp [hij]

end Session

/-! ## Reading -/

theorem Work.fixes_readText {γ : Type} (f : Session → γ) (path : String) : Fixes f (readText path) := by
  refine .bind .get fun s => ?_
  split
  · exact .throw _
  · exact .throw _
  · split
    · exact .pure _
    · exact .throw _

def fileCode (path text : String) : Code := ⟨replaceAll path "\\" "/", text⟩

theorem Work.outcome_bind_error {β : Type} {f : α → Work β}
    (h : outcome (x >>= f) s = (.error e, m)) :
    outcome x s = (.error e, m) ∨ ∃ a r, Returns x s a r ∧ outcome (f a) r = (.error e, m) := by
  rw [outcome_bind] at h
  split at h
  next a r hx => exact .inr ⟨a, r, hx, h⟩
  next e' r hx =>
    cases h
    exact .inl hx

theorem Work.not_completes (h : outcome x s = (.error e, m)) :
    ¬Completes x := by
  intro hx
  obtain ⟨a, s', hreturns⟩ := hx s
  cases h.symm.trans hreturns

theorem Work.outcome_parse_error (h : outcome (Work.parse source) s = (.error e, m)) :
    Tree.parse s.store.next source = .error e ∧ m = s := by
  cases hparse : Tree.parse s.store.next source with
  | ok p =>
    have hreturns : Returns (Work.parse source) s p.1 _ := returns_parse_iff.mpr ⟨p.2, hparse, rfl⟩
    cases h.symm.trans hreturns
  | error e' =>
    have hget : outcome (get : Work Session) s = (.ok s, s) := rfl
    rw [Work.parse, outcome_bind, hget] at h
    simp only [hparse] at h
    cases h
    exact ⟨rfl, rfl⟩

theorem skips_eq_false (t : Tree) : skips t = false := by
  unfold skips
  split <;> simp [Datum.equal]

/-- Texts are no nodes, so that no import skips its module. -/
theorem checkModule_eq_true (body : List Tree) : checkModule body = true := by
  induction body with
  | nil => rfl
  | cons t ts ih => simp [checkModule, skips_eq_false, ih]

theorem returns_parseFile (h : Returns (parseFile path) s () s') :
    ∃ text log, Returns (readText path) s text s ∧
      ((∃ t n, Tree.parse s.store.next text = .ok (t, n) ∧
          s' = { s with
            sources := s.sources ++ [.code (fileCode path text)], store := { s.store with next := n }, log,
            modules := addProgram s.modules (fileCode path text) t }) ∨
        ((∃ e, Tree.parse s.store.next text = .error e) ∧
          s' = { s with sources := s.sources ++ [.code (fileCode path text)], log })) := by
  obtain ⟨text, m, htext, hrest⟩ := returns_bind.mp h
  obtain rfl : s = m := (fixes_readText id path _ _ _ htext).symm
  replace hrest := returns_modify_bind.mp hrest
  rcases returns_tryCatch.mp hrest with hread | ⟨e, m, hfault, hhandle⟩
  · obtain ⟨t, _, ht, hread⟩ := returns_bind.mp hread
    obtain ⟨n, hparse, rfl⟩ := returns_parse_iff.mp ht
    replace hread := returns_modify_bind.mp hread
    rw [if_pos (checkModule_eq_true _)] at hread
    cases hread
    exact ⟨text, _, htext, .inl ⟨t, n, hparse, rfl⟩⟩
  · -- nothing but the parsing can fail
    rcases outcome_bind_error hfault with hparse | ⟨_, _, _, hafter⟩
    · obtain ⟨herror, rfl⟩ := outcome_parse_error hparse
      cases e with
      | source cause =>
        have hdebug := returns_modify_bind.mp hhandle
        cases hdebug
        exact ⟨text, _, htext, .inr ⟨⟨_, herror⟩, rfl⟩⟩
      | _ => exact absurd hhandle returns_throw
    · refine absurd (.bind (.modify _) fun _ => ?_) (not_completes hafter)
      rw [if_pos (checkModule_eq_true _)]
      exact .modify _

def Session.withModule (s : Session) (code : Code) (t : Tree) (n : Nat) : Session where
  __ := s
  sources := s.sources ++ [.code code]
  store := { s.store with next := n }
  log :=
    let body := match t with
      | .node _ _ [body] => body.items
      | _ => []
    s.log.write .debug ["Find module in source " ++ Style.cyan ++ code.path ++ Style.plain ++ s!" with {body.length} ast objects."]
  modules := addProgram s.modules code t

theorem parseFile_returns {text : String} (htext : Returns (readText path) s text s)
    (hparse : Tree.parse s.store.next text = .ok (t, n)) : Returns (parseFile path) s () (s.withModule (fileCode path text) t n) := by
  refine .bind htext (.bind rfl (returns_tryCatch.mpr (.inl ?_)))
  refine .bind (returns_parse_iff.mpr ⟨n, hparse, rfl⟩) (.bind rfl ?_)
  rw [if_pos (checkModule_eq_true _)]
  rfl

theorem mem_addProgram {programs : List Program} {code : Code} {tree : Tree}
    (h : p ∈ addProgram programs code tree) : p ∈ programs ∨ p = ⟨code, tree⟩ := by
  unfold addProgram at h
  split at h
  · obtain ⟨q, hq, rfl⟩ := List.mem_map.mp h
    split
    next hcode => exact .inr (by rw [beq_iff_eq.mp hcode])
    · exact .inl hq
  · exact (List.mem_append.mp h).imp_right List.mem_singleton.mp

theorem parseFile_stands (hs : s.Stands) (h : Returns (parseFile path) s () s') :
    s'.Stands ∧ s'.level = s.level := by
  obtain ⟨text, log, -, ⟨t, n, hparse, rfl⟩ | ⟨-, rfl⟩⟩ := returns_parseFile h
  · obtain ⟨hstanding, hsingle, hle, -⟩ := Tree.parse_standing hparse
    refine ⟨⟨hs.store, fun p hp => ?_⟩, rfl⟩
    rcases mem_addProgram hp with hp | rfl
    · exact ⟨(hs.modules p hp).1.mono hle, (hs.modules p hp).2⟩
    · exact ⟨hstanding, hsingle⟩
  · exact ⟨⟨hs.store, hs.modules⟩, rfl⟩

theorem parseFiles_stands {paths : List String} (hs : s.Stands) (h : Returns (paths.forM parseFile) s () s') :
    s'.Stands ∧ s'.level = s.level := by
  induction paths generalizing s with
  | nil =>
    cases h
    exact ⟨hs, rfl⟩
  | cons path paths ih =>
    obtain ⟨_, m, hfirst, hrest⟩ := returns_bind.mp h
    obtain ⟨hm, hlevel⟩ := parseFile_stands hs hfirst
    obtain ⟨hs', hlevel'⟩ := ih hm hrest
    exact ⟨hs', hlevel'.trans hlevel⟩

/-! ## Rounds -/

namespace Pipeline
variable {s m s' : Session} {ws ws' : List Worker} {b : Bool}

structure Upholds (s s' : Session) : Prop where
  stands : s'.Stands
  level : s'.level = s.level
  forms : s'.forms = s.forms

theorem upholds_composes (level : Int) : Composes fun _ s s' => s.Stands → s.level = level → Upholds s s' where
  refl := fun s hs _ => ⟨hs, rfl, rfl⟩
  trans := by
    intro b b' s m s' h h' hs hat
    obtain ⟨hm, hlevel, hforms⟩ := h hs hat
    obtain ⟨hs', hlevel', hforms'⟩ := h' hm (hlevel.trans hat)
    exact ⟨hs', hlevel'.trans hlevel, hforms'.trans hforms⟩
  current := fun s code hs _ => ⟨⟨hs.store, hs.modules⟩, rfl, rfl⟩

theorem kind_of_regular (hlevel : s.level ≤ 1) (h : isRegular s.level w = true) :
    (w.kind = .fold ∨ w.kind = .deadBranch) ∧ s.aim ≠ .documentation ∨ w.kind = .documentation ∧ s.aim ≠ .all false := by
  obtain ⟨step, hstep⟩ := Worker.exists_step_of_regular hlevel h
  simp only [isRegular, takesPart, Bool.and_eq_true, decide_eq_true_eq] at h
  rw [Worker.step_iff] at hstep
  cases hk : w.kind <;> simp [hk, PassKind.level, Session.aim] at hstep h ⊢
  · omega
  · omega
  · split <;> simp

theorem upholds_putTree {w' : Worker} (hs : s.Stands) (hlevel : s.level ≤ 1)
    (hactive : isRegular s.level w = true) (hp : s.modules[i]? = some p) (hrun : Returns (w.run p.tree) s (t, w') m) :
    Upholds s (m.putTree i t) := by
  obtain ⟨step, hstep⟩ := Worker.exists_step_of_regular hlevel hactive
  obtain ⟨hstanding, hsingle⟩ := hs.modules p (List.mem_of_getElem? hp)
  obtain ⟨hm, -, hmodules, hlevel', -⟩ := Worker.run_sheds hstep hs.store (refs_of_mem hstanding.plain (by simp)) hrun
  obtain ⟨ht, hnext, hsingle', -⟩ := Worker.run_standing hstep hs.store hstanding hrun
  have haim : m.aim = s.aim := by rw [Session.aim, hlevel', Session.aim]
  have hnormal : normal m.aim t = normal m.aim p.tree :=
    haim ▸ Worker.run_normal (kind_of_regular hlevel hactive) hs.store hstanding hsingle hrun
  refine ⟨hs.putTree hm hmodules hnext ht (hsingle' hsingle), hlevel', ?_⟩
  rw [Session.forms_putTree (hmodules ▸ hp) hnormal, Session.forms, hmodules, haim, Session.forms]

theorem round_upholds (hs : s.Stands) (hlevel : s.level ≤ 1) (h : Returns (round ws) s (b, ws') s') : Upholds s s' := by
  refine round_composes (upholds_composes s.level) ?_ h hs rfl
  intro i w w' p t s₁ m hactive hp hrun hs hat
  rw [← hat] at hactive hlevel
  exact upholds_putTree hs hlevel hactive hp hrun

theorem ends_upholds {k : Nat} (hs : s.Stands) (hlevel : s.level ≤ 1) (h : Ends n ws s (.ok (k, ws'), s')) :
    Upholds s s' := by
  generalize hout : (Except.ok (k, ws'), s') = out at h
  induction h with
  | fault _ => cases hout
  | rest h =>
    cases hout
    exact round_upholds hs hlevel h
  | again h _ ih =>
    have hround := round_upholds hs hlevel h
    have hrest := ih hround.stands (by rw [hround.level]; exact hlevel) hout
    exact ⟨hrest.stands, hrest.level.trans hround.level, hrest.forms.trans hround.forms⟩

theorem outline_of_calm (h : Upholds s s') (hcalm : ∀ p ∈ s'.modules, Calm s.aim p.tree) :
    s'.outline = s.modules.map fun p => (p.code, Pass.single (normal s.aim p.tree)) := by
  have haim : s'.aim = s.aim := by rw [Session.aim, h.level, Session.aim]
  have hforms : s'.forms = s'.modules.map fun p => (p.code, [p.tree.bare]) :=
    List.map_congr_left fun p hp => by rw [haim, normal_calm p.tree (hcalm p hp)]
  have hsingle := congrArg (List.map fun f => (f.1, Pass.single f.2)) (hforms.symm.trans h.forms)
  simpa [Session.outline, Session.forms, Pass.single, Function.comp_def] using hsingle

end Pipeline
end SourceOptimizer
