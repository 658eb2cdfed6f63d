import SourceOptimizer.Proofs.NormalRounds
import SourceOptimizer.Proofs.Printing
import SourceOptimizer.Proofs.SourceUpdates

/-! How a pipeline ends: the rounds come to rest, and the modules are written back to their sources. What is written
for a module depends on its tree only up to identities, and on its lines only in that they are known. -/
namespace SourceOptimizer
open Tree Work

/-! ## Lines -/

namespace Printer

mutual

theorem imprint_lined : (t u : Tree) → t.bare = u.bare → (n m : Nat) → imprint (t.lined n) = imprint (u.lined m)
  | .node tag kind parts, u, h, n, m => by
    cases u with
    | node tag' kind' parts' =>
      simp only [bare, node.injEq, true_and] at h
      obtain ⟨hkind, hparts⟩ := h
      have hhas : kind'.hasLine = kind.hasLine := by rw [← hasLine_bare, ← hkind, hasLine_bare]
      simp only [lined, imprint, node.injEq, Tag.mk.injEq, true_and]
      refine ⟨?_, hkind, imprintAll_lined parts parts' hparts _ _⟩
      rw [hhas]
      cases kind.hasLine <;> cases hl : tag.line <;> cases hl' : tag'.line <;> simp [hl, hl']
    | _ => simp [bare] at h
  | .seq items, u, h, n, m => by
    cases u with
    | seq items' =>
      simp only [lined, imprint, imprintAll_lined items items' (by simpa [bare] using h) n m]
    | _ => simp [bare] at h
  | .absent, u, h, _, _ => by cases u <;> simp [bare] at h; rfl
  | .shared _, u, h, _, _ => by cases u <;> simp [bare] at h; subst h; rfl

theorem imprintAll_lined : (ts us : List Tree) → bareAll ts = bareAll us → (n m : Nat) →
    imprintAll (linedAll n ts) = imprintAll (linedAll m us)
  | [], us, h, _, _ => by cases us <;> simp [bareAll] at h; rfl
  | t :: ts, us, h, n, m => by
    cases us with
    | nil => simp [bareAll] at h
    | cons u us =>
      simp only [bareAll, List.cons.injEq] at h
      simp only [linedAll, imprintAll, imprint_lined t u h.1 n m, imprintAll_lined ts us h.2 n m]

end
end Printer

theorem Tree.print_of_bare {t u : Tree} {n m : Nat} (ht : Standing n [t]) (hu : Standing m [u]) (hlined : t.lined 1 = t)
    (hlined' : u.lined 1 = u) (h : t.bare = u.bare) : t.print = u.print := by
  have himprint := Printer.imprint_lined t u h 1 1
  rw [hlined, hlined'] at himprint
  exact print_congr (by simpa [idsAll] using ht.nodup) (by simpa [idsAll] using hu.nodup) himprint

/-! ## Writing back -/

namespace Pipeline
variable {s m s' : Session} {ws ws' : List Worker} {n : Nat}

structure Writes (p q : Program) : Prop where
  text : p.tree.print = .ok q.code.text
  path : q.code.path = p.code.path
  tree : q.tree = p.tree

theorem forall₂_writes (hs : s.Plain) {qs : List Program} :
    List.Forall₂ s.store.Writes s.modules qs ↔ List.Forall₂ Writes s.modules qs := by
  have hwrites (p : Program) (hp : p ∈ s.modules) (q : Program) : s.store.Writes p q ↔ Writes p q := by
    have hexpand : s.store.expand p.tree = p.tree := s.store.expand_plain (hs.modules p hp)
    exact ⟨fun h => ⟨hexpand ▸ h.text, h.path, h.tree⟩, fun h => ⟨hexpand.symm ▸ h.text, h.path, h.tree⟩⟩
  revert hwrites
  generalize s.modules = ps
  intro hwrites
  induction ps generalizing qs with
  | nil => simp only [List.forall₂_nil_left_iff]
  | cons p ps ih =>
    have ih (qs : List Program) := @ih qs fun p hp => hwrites p (by simp [hp])
    simp only [List.forall₂_cons_left_iff, hwrites p (by simp), ih]

theorem updateSources_writes (hs : s.Plain) (h : Returns updateSources s () s') : List.Forall₂ Writes s.modules s'.modules := by
  rcases returns_updateSources.mp h with ⟨hmodules, -, rfl⟩ | ⟨-, qs, -, -, hqs, -, -, rfl⟩
  · rw [hmodules]
    exact .nil
  · exact (forall₂_writes hs).mp hqs

theorem workOnAll_idle {active : Worker → Bool} (is : List Nat) (s : Session) (hidle : ∀ w ∈ ws, active w = false) :
    Returns (workOnAll active is ws) s (false, ws)
      { s with current := (is.getLast?.map fun i => (s.modules[i]?).map (·.code)).getD s.current } := by
  have hwork (i : Nat) (m : Session) : Returns (workOn active i ws) m (false, ws) m := by
    induction ws with
    | nil => exact rfl
    | cons w ws ih =>
      unfold workOn
      rw [if_neg (by simp [hidle w])]
      exact .bind (ih fun w hw => hidle w (by simp [hw])) rfl
  induction is generalizing s with
  | nil => exact rfl
  | cons i is ih =>
    refine .bind rfl (.bind (hwork i _) (.bind (ih _) (returns_pure.mpr ⟨rfl, ?_⟩)))
    cases is with
    | nil => rfl
    | cons j is => simp [List.getLast?_eq_some_getLast]

theorem isPost_idle {level : Int} (hlevel : level ≤ 1) (w : Worker) : (takesPart level w && w.kind.isPost) = false := by
  cases hk : w.kind with
  | native =>
    have hnative : ¬(3 : Int) ≤ level := by omega
    simp [takesPart, hk, PassKind.level, hnative]
  | _ => simp [PassKind.isPost]

def closing (rounds : Nat) (s : Session) : Session where
  __ := s
  log := (s.log.write .debug [s!"General-Transform done in {rounds} cycle."]).write .info ["Transform done! Cost 0.000s"]
  current := (s.modules.getLast?.map fun p => some p.code).getD s.current

theorem returns_conclude (hlevel : m.level ≤ 1) : Returns (conclude n ws) m ws' s' ↔
    ws = ws' ∧ Returns updateSources (closing n m) () s' := by
  have hidle (r : Session) := workOnAll_idle (List.range m.modules.length) r fun w (_ : w ∈ ws) => isPost_idle hlevel w
  have hlast : ((List.range m.modules.length).getLast?.map fun i => (m.modules[i]?).map (·.code)).getD m.current =
      (m.modules.getLast?.map fun p => some p.code).getD m.current := by
    rw [List.getLast?_range, List.getLast?_eq_getElem?]
    cases m.modules with
    | nil => rfl
    | cons p ps => simp
  constructor
  · intro h
    have hrest := returns_modify_bind.mp h
    replace hrest := returns_get_bind.mp hrest
    obtain ⟨r, _, hwork, hrest⟩ := returns_bind.mp hrest
    cases (hidle _).symm.trans hwork
    replace hrest := returns_modify_bind.mp hrest
    obtain ⟨_, hupdate, rfl⟩ := returns_bind_pure.mp hrest
    rw [hlast] at hupdate
    exact ⟨rfl, hupdate⟩
  · rintro ⟨rfl, hupdate⟩
    refine .bind rfl (.bind rfl (.bind (hidle _) (.bind rfl (Returns.bind (a := ⟨⟩) (m := s') ?_ rfl))))
    rw [hlast]
    exact hupdate

/-! ## Results -/

def results (s : Session) : List (String × Except Fault String × Tree) :=
  s.modules.map fun p => (p.code.path, p.tree.print, p.tree.bare)

theorem results_congr {r : Session} (h : s.outline = r.outline) (hs : s.Stands) (hr : r.Stands)
    (hlined : ∀ p ∈ s.modules, p.tree.lined 1 = p.tree) (hlined' : ∀ p ∈ r.modules, p.tree.lined 1 = p.tree) :
    results s = results r := by
  refine List.ext_getElem? fun j => ?_
  have hj := congrArg (fun ps : List (Code × Tree) => ps[j]?) h
  simp only [Session.outline, results, List.getElem?_map] at hj ⊢
  cases hp : s.modules[j]? with
  | none =>
    cases hq : r.modules[j]? with
    | none => rfl
    | some q => simp [hp, hq] at hj
  | some p =>
    cases hq : r.modules[j]? with
    | none => simp [hp, hq] at hj
    | some q =>
      have hp' := List.mem_of_getElem? hp
      have hq' := List.mem_of_getElem? hq
      obtain ⟨hcode, hbare⟩ : p.code = q.code ∧ p.tree.bare = q.tree.bare := by simpa [hp, hq] using hj
      have hprint := print_of_bare (hs.modules p hp').1 (hr.modules q hq').1 (hlined p hp') (hlined' q hq') hbare
      simp [hcode, hbare, hprint]

theorem outline_of_writes {r r' : Session} (hs : List.Forall₂ Writes s.modules s'.modules)
    (hr : List.Forall₂ Writes r.modules r'.modules)
    (h : results s = results r) : s'.outline = r'.outline := by
  have hshow {ps qs : List Program} (h : List.Forall₂ Writes ps qs) :
      (qs.map fun q => (q.code, q.tree.bare)).map (fun c => (c.1.path, (.ok c.1.text : Except Fault String), c.2)) =
        ps.map fun p => (p.code.path, p.tree.print, p.tree.bare) := by
    induction h with
    | nil => rfl
    | cons head _ ih =>
      simp only [List.map_cons, ih, head.text, head.path, head.tree]
  have hinjective : Function.Injective fun c : Code × Tree => (c.1.path, (.ok c.1.text : Except Fault String), c.2) := by
    rintro ⟨⟨path, text⟩, t⟩ ⟨⟨path', text'⟩, t'⟩ heq
    obtain ⟨rfl, rfl, rfl⟩ := heq
    rfl
  exact hinjective.list_map ((hshow hs).trans (h.trans (hshow hr).symm))

/-! ## Pipelines -/

/-- What the pipeline makes of a session, however many rounds it takes. -/
def Transforms (ws : List Worker) (s s' : Session) : Prop :=
  ∃ n ws₁ ws' m, Ends 0 ws s (.ok (n, ws₁), m) ∧ Returns (conclude n ws₁) m ws' s'

theorem transforms_iff (hs : s.Plain) (hlevel : s.level ≤ 1) (hweight : s.weight < maxCycles) :
    Transforms ws s s' ↔ ∃ ws', Returns (transform ws) s ws' s' := by
  obtain ⟨-, out, hends, -, hcycle⟩ := rounds_terminate ws s hs hlevel
  have hout := hcycle maxCycles hweight
  constructor
  · rintro ⟨n, ws₁, ws', m, hends', hconclude⟩
    obtain rfl := hends.unique hends'
    exact ⟨ws', .bind hout hconclude⟩
  · rintro ⟨ws', h⟩
    obtain ⟨⟨n, ws₁⟩, m, hrounds, hconclude⟩ := returns_bind.mp h
    obtain rfl : out = (.ok (n, ws₁), m) := hout.symm.trans hrounds
    exact ⟨n, ws₁, ws', m, hends, hconclude⟩

theorem Transforms.writes (hs : s.Stands) (hlevel : s.level ≤ 1) (h : Transforms ws s s') :
    ∃ n ws' m, Ends 0 ws s (.ok (n, ws'), m) ∧ Upholds s m ∧ List.Forall₂ Writes m.modules s'.modules := by
  obtain ⟨n, ws₁, ws', m, hends, hconclude⟩ := h
  have hupholds := ends_upholds hs hlevel hends
  obtain ⟨-, hupdate⟩ := (returns_conclude (by rw [hupholds.level]; exact hlevel)).mp hconclude
  have hplain : (closing n m).Plain := ⟨hupholds.stands.plain.store, hupholds.stands.plain.modules⟩
  have hwrites := updateSources_writes hplain hupdate
  exact ⟨n, ws₁, m, hends, hupholds, hwrites⟩

end Pipeline
end SourceOptimizer
