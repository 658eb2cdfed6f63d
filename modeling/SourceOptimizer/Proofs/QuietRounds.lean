import SourceOptimizer.Proofs.Fixpoint
import SourceOptimizer.Proofs.LineSearch
import SourceOptimizer.Proofs.Reports

/-! The last round of the third level. If folding, renaming and computing calls made no change that goes
unreported, that round has left everything as it was, and one more does so again. -/
namespace SourceOptimizer
open Store Tree Work

variable {n : Nat}

/-! ## The last round -/

namespace Worker
variable {w w' : Worker} {s q q' : Session} {t t' : Tree}

/-- Workers of a kind, whatever they have warned about before, leave a module alone in sessions like `s`. -/
def Leaves (s : Session) (kind : PassKind) (t : Tree) : Prop :=
  ∀ (w w' : Worker) (q q' : Session) (t' : Tree), w.Ready → w.kind = kind → s.Resembles q →
    Returns (w.run t) q (t', w') q' → t' = t ∧ s.Resembles q'

/-- The passes that change some things without a report. -/
def unreporting : List PassKind := [.fold, .rename, .pureCall]

theorem Ready.reports (hw : w.Ready) (hlevel : level ≤ 2) (h : Pipeline.isRegular level w = true)
    (hkind : w.kind ∉ unreporting) : ∃ step, w.pass? = some step ∧ Pass.Reports step := by
  have hpass := hw.pass hlevel h
  unfold pass? at hpass ⊢
  cases hk : w.kind with
  | deadBranch => exact ⟨_, rfl, Pass.DeadBranch.reports⟩
  | unroll => exact ⟨_, rfl, Pass.Unroll.reports⟩
  | documentation => exact ⟨_, rfl, Pass.Documentation.reports⟩
  | _ => simp_all [unreporting]

theorem Ready.run_stands (hw : w.Ready) (hlevel : level ≤ 2) (hactive : Pipeline.isRegular level w = true)
    (hcarries : s.store.Carries t) (hlocated : s.store.Located t) (hleaves : ∀ kind ∈ unreporting, Leaves s kind t)
    (hsame : s.Resembles q) (h : Returns (w.run t) q (t', w') q') (hquiet : w'.changed = false) :
    t' = t ∧ s.Resembles q' := by
  by_cases hkind : w.kind ∈ unreporting
  · exact hleaves w.kind hkind w w' q q' t' hw rfl hsame h
  · obtain ⟨step, hstep, hreports⟩ := hw.reports hlevel hactive hkind
    obtain ⟨u, m, hrun, hlocate, rfl⟩ := (returns_run hstep).mp h
    cases hlocate
    have hstart := hsame.start s.notices w.notices
    obtain ⟨rfl, hvisit⟩ := hreports.run_spares hcarries _ u m hstart.store.view hrun hquiet
    have hm : s.Resembles m := (hstart.trans hvisit).resembles
    obtain ⟨ht, hstore⟩ := hlocated.of_alike hm.store
    exact ⟨ht, hm.trans ⟨hstore, rfl, rfl, rfl, rfl, rfl⟩⟩

theorem located_of_leaves (hleaves : Leaves s .fold t) (hw : w.Ready) (hk : w.kind = .fold) (hsame : s.Resembles q)
    (h : Returns (w.run t) q (t', w') q') : s.store.Located t := by
  obtain ⟨rfl, hsame'⟩ := hleaves w w' q q' t' hw hk hsame h
  have hstep : w.pass? = some Pass.Fold.step := by simp [pass?, hk]
  obtain ⟨u, m, _, hlocate, _⟩ := (returns_run hstep).mp h
  cases hlocate
  exact (located_locate m.store u).of_alike hsame'.store.symm

theorem leaves_of_run (hw : w.Ready) (hpass : (∃ step, w.pass? = some step) ∨ w.kind = .rename)
    (h : Returns (w.run t) s (t, w') s') (hsame : s.Resembles s') (hquiet : w'.notices = []) : Leaves s w.kind t := by
  intro v v' q q' t' hv hk hq hrun
  have hlater := hw.run_recalls hpass h
  have hrecalls : Recalls w' v := by
    refine ⟨hk.trans hlater.kind.symm, ?_, hv.resting.trans (hw.of_recalls hlater).resting.symm⟩
    rw [hquiet]
    exact List.nil_subset _
  obtain ⟨v'', q'', hrun', hsame', _⟩ := hw.run_again hpass h hrecalls hq
  cases hrun.symm.trans hrun'
  exact ⟨rfl, hsame.trans hsame'⟩

end Worker

namespace Pipeline
open Worker
variable {s q q' s' : Session} {ws ws' : List Worker} {i : Nat} {p : Program} {level : Int}

theorem workOn_stands (hlevel : level ≤ 2) (hws : ∀ w ∈ ws, w.Ready) (hp : s.modules[i]? = some p)
    (hcarries : s.store.Carries p.tree) (hlocated : s.store.Located p.tree)
    (hleaves : ∀ kind ∈ unreporting, Leaves s kind p.tree) (hsame : s.Resembles q)
    (h : Returns (workOn (isRegular level) i ws) q (false, ws') q') : s.Resembles q' := by
  induction ws generalizing q ws' with
  | nil =>
    cases h
    exact hsame
  | cons w ws ih =>
    simp only [List.mem_cons, forall_eq_or_imp] at hws
    have hmodules : q.modules = s.modules := hsame.modules
    rcases workOn_cons_at (hmodules ▸ hp) h with ⟨t, w', m, b', ws'', hactive, hw, hothers, hb, -⟩ | ⟨ws'', -, hothers, -⟩
    · obtain ⟨hquiet, rfl⟩ := Bool.or_eq_false_iff.mp hb.symm
      obtain ⟨rfl, hm⟩ := hws.1.run_stands hlevel hactive hcarries hlocated hleaves hsame hw hquiet
      have hput : s.Resembles (m.putTree i p.tree) := by
        refine hm.trans ⟨.refl _, rfl, ?_, rfl, rfl, rfl⟩
        have hmodules : m.modules = s.modules := hm.modules
        simp only [Session.putTree, hmodules, modify_self hp]
      exact ih hws.2 hput hothers
    · exact ih hws.2 hsame hothers

theorem workOn_registered_stands (hlevel : level = 2) (hkinds : ws.map (·.kind) = PassKind.registered)
    (hws : ∀ w ∈ ws, w.Ready) (hp : s.modules[i]? = some p) (hcarries : s.store.Carries p.tree)
    (hleaves : ∀ kind ∈ unreporting, Leaves s kind p.tree) (hsame : s.Resembles q)
    (h : Returns (workOn (isRegular level) i ws) q (false, ws') q') : s.Resembles q' := by
  -- the first worker folds, and its run shows that the nodes of the module have their lines
  obtain ⟨w, rest, rfl, hk, -⟩ := List.map_eq_cons_iff.mp hkinds
  have hready : w.Ready := hws w (by simp)
  have hlocated : s.store.Located p.tree := by
    have hactive : isRegular level w = true := by
      subst hlevel
      simp [isRegular, takesPart, hk, PassKind.level, PassKind.isPost]
    have hmodules : q.modules = s.modules := hsame.modules
    obtain ⟨t, w', m, -, -, -, hw, -⟩ := (workOn_cons_at (hmodules ▸ hp) h).resolve_right (by simp [hactive])
    exact located_of_leaves (hleaves .fold (by simp [unreporting])) hready hk hsame hw
  exact workOn_stands (Int.le_of_eq hlevel) hws hp hcarries hlocated hleaves hsame h

theorem workOnAll_stands (hlevel : level = 2) {is : List Nat} (his : ∀ i ∈ is, ∃ p, s.modules[i]? = some p)
    (hkinds : ws.map (·.kind) = PassKind.registered) (hws : ∀ w ∈ ws, w.Ready)
    (hcarries : ∀ p ∈ s.modules, s.store.Carries p.tree)
    (hleaves : ∀ p ∈ s.modules, ∀ kind ∈ unreporting, Leaves s kind p.tree) (hsame : s.Resembles q)
    (h : Returns (workOnAll (isRegular level) is ws) q (false, ws') q') : s.Resembles q' := by
  induction is generalizing q ws with
  | nil =>
    cases h
    exact hsame
  | cons i is ih =>
    obtain ⟨_, _, _, _, hfirst, hothers, hb⟩ := returns_workOnAll_cons.mp h
    obtain ⟨rfl, rfl⟩ := Bool.or_eq_false_iff.mp hb.symm
    obtain ⟨p, hp⟩ := his i (by simp)
    have hmem := List.mem_of_getElem? hp
    have hcurrent : s.Resembles { q with current := (q.modules[i]?).map (·.code) } :=
      ⟨hsame.store, rfl, hsame.modules, hsame.level, hsame.infinity, hsame.notANumber⟩
    have hm := workOn_registered_stands hlevel hkinds hws hp (hcarries p hmem) (hleaves p hmem) hcurrent hfirst
    exact ih (fun j hj => his j (by simp [hj])) ((workOn_kinds hfirst).trans hkinds)
      (ready_of_recalls hws (workOn_recalls (Int.le_of_eq hlevel) hws hfirst)) hm hothers

/-- A round without a report leaves everything as it was, if the passes that do not report all they change do so. -/
theorem round_stands (hlevel : s.level = 2) (hkinds : ws.map (·.kind) = PassKind.registered) (hws : ∀ w ∈ ws, w.Ready)
    (hcarries : ∀ p ∈ s.modules, s.store.Carries p.tree)
    (hleaves : ∀ p ∈ s.modules, ∀ kind ∈ unreporting, Leaves s kind p.tree)
    (h : Returns (round ws) s (false, ws') s') : s.Resembles s' := by
  have hall := returns_get_bind.mp h
  exact workOnAll_stands hlevel (getElem?_of_range s) hkinds hws hcarries hleaves (Session.Alike.refl _) hall

theorem Ends.count {k : Nat} (h : Ends n ws s (.ok (k, ws'), s')) : n < k := by
  generalize hout : (Except.ok (k, ws'), s') = out at h
  induction h with
  | fault _ => cases hout
  | rest _ =>
    cases hout
    exact Nat.lt_succ_self _
  | again _ _ ih => exact Nat.lt_of_succ_lt (ih hout)

theorem Ends.last (h : Ends n ws s (.ok (n + 1, ws'), s')) : Returns (round ws) s (false, ws') s' := by
  cases h with
  | rest h => exact h
  | again _ rest => exact absurd rest.count (Nat.lt_irrefl _)

/-- Where the rounds of the third level end, there is nothing left to do, provided that in the last round no change went
unreported: if folding, renaming and computing calls leave every module alone, as it is when the last round
begins, then that round leaves everything as it was, and one more round returns, reports no change, writes
nothing to the log and leaves the text of every module as it is. -/
theorem ends_at_fixpoint_unless_unreported (ws ws' : List Worker) (s s' : Session) (n : Nat)
    (hkinds : ws.map (·.kind) = PassKind.registered) (hrest : ∀ w ∈ ws, w.memory.naming.rest = {}) (hlevel : s.level = 2)
    (hcarries : ∀ p ∈ s.modules, s.store.Carries p.tree)
    (hleaves : ∀ p ∈ s.modules, ∀ kind ∈ unreporting, Leaves s kind p.tree)
    (h : Ends n ws s (.ok (n + 1, ws'), s')) :
    (s'.modules = s.modules ∧ ∀ t, s'.store.expand t = s.store.expand t) ∧
      ∃ ws'' s'', Returns (round ws') s' (false, ws'') s'' ∧ s''.modules = s'.modules ∧ s''.log = s'.log ∧
        ∀ p ∈ s'.modules, (s''.store.expand p.tree).print = (s'.store.expand p.tree).print := by
  have hws : ∀ w ∈ ws, w.Ready := fun w hw => ⟨hkinds ▸ List.mem_map_of_mem hw, hrest w hw⟩
  have hsame := round_stands hlevel hkinds hws hcarries hleaves h.last
  obtain ⟨ws'', s'', hround, hsame', hlog⟩ := round_again (Int.le_of_eq hlevel) hws h.last hsame
  refine ⟨⟨hsame.modules, hsame.store.expand⟩, ws'', s'', hround, hsame'.modules, hlog, fun p _ => ?_⟩
  rw [hsame'.store.expand]

def renamedModule : Tree :=
  .node { id := 1 } .moduleDef [.seq
    [.node { id := 2, line := some 1 } (.functionDef "f")
      [.node { id := 3 } .arguments [.seq [], .seq [], .absent, .seq [], .seq [], .absent, .seq []],
       .seq
        [.node { id := 4, line := some 2 } .assign
          [.seq [.node { id := 5, line := some 2 } (.name "IIIlI" .store) []],
           .node { id := 6, line := some 2 } (.name "x" .load) []],
         .node { id := 7, line := some 3 } .returnStmt [.node { id := 8, line := some 3 } (.name "IIIlI" .load) []]],
       .seq [], .absent]]]

def renamed : Session where
  store := { next := 9 }
  level := 2
  modules := [⟨⟨"renamed", "def f():\n    IIIlI = x\n    return IIIlI"⟩, renamedModule⟩]

theorem empty_renamed : renamed.store.Empty := fun id => by simp [renamed, Store.view]

theorem carries_renamed : renamed.store.Carries renamedModule := by
  have hnone {id : Nat} {t : Tree} (h : renamed.store.view id = some t) : False := by
    cases (empty_renamed id).symm.trans h
  refine ⟨⟨fun h => (hnone h).elim, fun h => (hnone h).elim, fun h => (hnone h).elim⟩,
    ⟨by decide, fun id _ => empty_renamed id, by decide, by decide⟩, _,
    reads_plain _ rfl (Reading.fits_of_admits (fun _ _ => trivial) _)⟩

def uncalled : Kind → List Tree → Bool
  | .call, _ => false
  | _, _ => true

theorem rests_uncalled : Pass.Rests uncalled Pass.PureCall.step := by
  intro s tag kind parts visited hs _ hkind hvisited
  have hleave : Returns (Pass.descend tag kind visited) s [.node tag kind parts] s :=
    Pass.returns_descend_self hs hvisited
  unfold Pass.PureCall.step
  split
  · cases hkind
  · exact hleave

theorem leaves_renamed : ∀ kind ∈ unreporting, Leaves renamed kind renamedModule := by
  intro kind hkind
  simp only [unreporting, List.mem_cons, List.not_mem_nil, or_false] at hkind
  have hlocate {s : Session} : Returns (locate renamedModule) s renamedModule s := (returns_locate rfl).mpr ⟨rfl, rfl⟩
  rcases hkind with rfl | rfl | rfl
  · have hrun := run_rests (w := { kind := .fold }) (s := renamed) (t := renamedModule) rfl empty_renamed rfl
      ⟨rfl, by decide⟩
    exact leaves_of_run ⟨by decide, rfl⟩ (.inl ⟨_, rfl⟩) hrun ⟨.refl _, rfl, rfl, rfl, rfl, rfl⟩ rfl
  · have hplain : Pass.Rename.Plain renamed.store renamedModule := ⟨rfl, fun id _ => empty_renamed id⟩
    have hvisit := Pass.Rename.returns_run (s := { renamed with changed := false, notices := [] }) {} hplain
    have hrun := (returns_run_rename (w := { kind := .rename }) rfl).mpr ⟨renamedModule, _, _, hvisit, hlocate, rfl⟩
    exact leaves_of_run ⟨by decide, rfl⟩ (.inr rfl) hrun ⟨.refl _, rfl, rfl, rfl, rfl, rfl⟩ rfl
  · have hvisit := Pass.run_rests (s := { renamed with changed := false, notices := [] }) rests_uncalled (t := renamedModule)
      rfl (by decide) empty_renamed
    have hrun := (returns_run (w := { kind := .pureCall }) rfl).mpr ⟨renamedModule, _, hvisit, hlocate, rfl⟩
    exact leaves_of_run ⟨by decide, rfl⟩ (.inl ⟨_, rfl⟩) hrun ⟨.refl _, rfl, rfl, rfl, rfl, rfl⟩ rfl

def starters : List Worker := PassKind.registered.map fun kind => { kind }

theorem ends_renamed : ∃ ws' s', Ends 0 starters renamed (.ok (1, ws'), s') := by
  have hquiet : (match (outcome (round starters) renamed).1 with
      | .ok (changed, _) => !changed
      | .error _ => false) = true := by decide +kernel
  rcases hround : outcome (round starters) renamed with ⟨_ | ⟨changed, ws'⟩, s'⟩
  · simp [hround] at hquiet
  · obtain rfl : changed = false := by simpa [hround] using hquiet
    exact ⟨ws', s', .rest hround⟩

theorem ends_at_fixpoint_unless_unreported_renamed :
    ∃ ws' s', Ends 0 starters renamed (.ok (1, ws'), s') ∧
      (s'.modules = renamed.modules ∧ ∀ t, s'.store.expand t = renamed.store.expand t) ∧
      ∃ ws'' s'', Returns (round ws') s' (false, ws'') s'' ∧ s''.modules = s'.modules ∧ s''.log = s'.log ∧
        ∀ p ∈ s'.modules, (s''.store.expand p.tree).print = (s'.store.expand p.tree).print := by
  obtain ⟨ws', s', h⟩ := ends_renamed
  refine ⟨ws', s', h, ends_at_fixpoint_unless_unreported starters ws' renamed s' 0 rfl
    (by simp [starters, PassKind.registered]; rfl) rfl ?_ ?_ h⟩
  · simpa [renamed] using carries_renamed
  · simpa [renamed] using leaves_renamed

def measured : Session where
  store := { next := 9 }
  level := 2
  modules := [⟨⟨"measured", "if len('abc'):\n    x = 1"⟩,
    .node { id := 1 } .moduleDef [.seq
      [.node { id := 2, line := some 1 } .ifStmt
        [.node { id := 3, line := some 1 } .call
          [.node { id := 4, line := some 1 } (.name "len" .load) [],
           .seq [.node { id := 5, line := some 1 } (.constant { value := .str (Text.ofString "abc"), origin := 5 }) []],
           .seq []],
         .seq [.node { id := 6, line := some 2 } .assign
          [.seq [.node { id := 7, line := some 2 } (.name "x" .store) []],
           .node { id := 8, line := some 2 } (.constant { value := .int 1, origin := 8 }) []]],
         .seq []]]]⟩]

def texts (s : Session) : List (Option String) := s.modules.map fun p => (s.store.expand p.tree).print.toOption

theorem measured_rounds : (match outcome (round starters) measured with
    | (.ok (false, ws'), s') => texts s' == [some "if 3:\n    x = 1"] &&
      match outcome (round ws') s' with
      | (.ok (true, _), s'') => texts s'' == [some "x = 1"]
      | _ => false
    | _ => false) = true := by decide +kernel

/-- The computed condition is not reported, so that the rounds end after the first; the next one decides the branch. -/
theorem computed_call_unreported :
    ∃ ws' s' ws'' s'', Ends 0 starters measured (.ok (1, ws'), s') ∧ texts s' = [some "if 3:\n    x = 1"] ∧
      Returns (round ws') s' (true, ws'') s'' ∧ texts s'' = [some "x = 1"] := by
  have hrounds := measured_rounds
  rcases hfirst : outcome (round starters) measured with ⟨_ | ⟨_ | _, ws'⟩, s'⟩ <;> rw [hfirst] at hrounds
  · cases hrounds
  · simp only [Bool.and_eq_true, beq_iff_eq] at hrounds
    obtain ⟨htext, hrounds⟩ := hrounds
    rcases hsecond : outcome (round ws') s' with ⟨_ | ⟨_ | _, ws''⟩, s''⟩ <;> rw [hsecond] at hrounds
    · cases hrounds
    · cases hrounds
    · exact ⟨ws', s', ws'', s'', .rest hfirst, htext, hsecond, by simpa using hrounds⟩
  · cases hrounds

end Pipeline
end SourceOptimizer
