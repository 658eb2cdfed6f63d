import SourceOptimizer.Proofs.ClosedExpressions

/-! Suites that must not be empty. A dead branch leaves nothing behind in the suite it stood in, and only
functions, classes and modules get a statement when nothing is left to them. -/
namespace SourceOptimizer
open Tree Work

/-- The places of a statement where lists of others stand that must not be empty, or of which one must not be. -/
def Kind.demands : Kind → List (List Nat)
  | .functionDef _ | .asyncFunctionDef _ | .whileStmt | .ifStmt | .withStmt | .asyncWith | .exceptHandler _ | .matchStmt => [[1]]
  | .classDef _ | .forStmt | .asyncFor | .matchCase => [[2]]
  | .tryStmt | .tryStar => [[0], [1, 3]]
  | _ => []

namespace Tree
variable {t u : Tree} {ts parts : List Tree} {tag : Tag} {kind : Kind} {aim : Aim}

def meets (test : List Tree → Bool) (kind : Kind) (parts : List Tree) : Bool :=
  kind.demands.all (·.any fun i => test (parts.getD i .absent).items)

def filled (kind : Kind) (parts : List Tree) : Bool := meets (!·.isEmpty) kind parts

/-- Where no documentation is removed, each list has something that is neither a branch nor a loop. -/
def lasting : Kind → List Tree → Bool
  | .functionDef _, [_, .seq _, _, _] | .classDef _, [_, _, .seq _, _] => true
  | kind, parts => meets (·.any (!·.isBranch)) kind parts

theorem getD_normalParts (i : Nat) : (normalParts aim parts).getD i .absent = Pass.single (normal aim (parts.getD i .absent)) := by
  induction parts generalizing i with
  | nil => rfl
  | cons p ps ih =>
    cases i with
    | zero => rfl
    | succ i => exact ih i

theorem normalAll_ne_nil (h : ts.any (!·.isBranch) = true) : normalAll aim ts ≠ [] := by
  obtain ⟨t, ht, hsingle⟩ := List.any_eq_true.mp h
  obtain ⟨before, after, rfl⟩ := List.append_of_mem ht
  obtain ⟨u, hu⟩ := normal_single aim (t := t) (by simpa using hsingle)
  simp [normalAll_append, normalAll, hu]

theorem filled_normalParts (h : meets (·.any (!·.isBranch)) kind parts = true) : filled kind (normalParts aim parts) = true := by
  simp only [filled, meets, List.all_eq_true, List.any_eq_true] at h ⊢
  intro places hplaces
  obtain ⟨i, hi, u, hu, hsingle⟩ := h places hplaces
  refine ⟨i, hi, ?_⟩
  rw [getD_normalParts]
  generalize parts.getD i .absent = p at hu
  cases p with
  | seq items =>
    have hne : normalAll aim items ≠ [] := normalAll_ne_nil (List.any_eq_true.mpr ⟨u, hu, hsingle⟩)
    simpa [normal, Pass.single, Tree.items] using hne
  | _ => cases hu

/-! ## Normal forms -/

theorem every_ofResult (result : Except Fault Value) : every filled (ofResult result) = true := by
  cases result with
  | ok v => rfl
  | error e =>
    have htexts : ∀ t ∈ e.args.map text, every filled t = true := by
      intro t ht
      obtain ⟨arg, -, rfl⟩ := List.mem_map.mp ht
      rfl
    simp [ofResult, raisingFault, raising, callOf, emptyGenerator, noParameters, loadName, make, every, everyAll, filled, meets,
      Kind.demands, everyAll_eq_true.mpr htexts]

theorem items_untyped (t : Tree) : (untyped t).items = t.items := by
  unfold untyped
  split <;> rfl

theorem untypes_filled : Pass.Documentation.Untypes filled where
  parameter {kind type} h := by
    -- no kind of node with one part demands a list
    cases kind <;> first | rfl | simp [filled, meets, Kind.demands, Tree.items] at h
  parameters {kind _ plain _ keywordOnly _ _ _} h := by
    rw [← h]
    have hitems (xs : List Tree) : (seq xs).items = xs := rfl
    cases kind <;> simp [filled, meets, Kind.demands, items_untyped, hitems]

theorem every_asTruth (h : every filled t = true) : every filled (asTruth t) = true := by
  unfold asTruth
  split
  · rfl
  · exact h

theorem everyAll_textless (h : everyAll filled ts = true) : everyAll filled (textless ts) = true := by
  unfold textless
  split
  · rfl
  next hfilter =>
    rw [everyAll_eq_true] at h ⊢
    intro t ht
    rw [← hfilter] at ht
    exact h t (List.mem_filter.mp ht).1

theorem every_undocumented (hparts : everyAll filled parts = true) (h : filled kind (undocumented kind parts) = true) :
    every filled (make kind (undocumented kind parts)) = true := by
  refine every_node.mpr ⟨h, ?_⟩
  unfold undocumented
  split
  · simp only [everyAll, every, Bool.and_eq_true, Bool.true_and] at hparts ⊢
    exact ⟨untypes_filled.every_untypedParameters hparts.1, everyAll_textless hparts.2.1, hparts.2.2.1, trivial⟩
  · simp only [everyAll, every, Bool.and_eq_true] at hparts ⊢
    exact ⟨hparts.1, hparts.2.1, everyAll_textless hparts.2.2.1, hparts.2.2.2⟩
  · simp only [everyAll, every, Bool.and_eq_true] at hparts ⊢
    exact ⟨everyAll_textless hparts.1, trivial⟩
  · exact hparts

theorem everyAll_finish (hparts : everyAll filled parts = true) (h : filled kind (undocumented kind parts) = true) :
    everyAll filled (finish true kind parts) = true := by
  have hone {u : Tree} (hu : every filled u = true) : everyAll filled [u] = true := by rw [everyAll, hu]; rfl
  have hwhole := every_undocumented hparts h
  unfold finish
  split
  · split
    · exact hone (every_ofResult _)
    · exact hone hwhole
  · split
    · exact hone (every_ofResult _)
    · exact hone hwhole
  · split
    · simp only [everyAll, Bool.and_eq_true] at hparts
      split
      · exact everyAll_items hparts.2.1
      · exact everyAll_items hparts.2.2.1
    · exact hone hwhole
  · split
    · split
      · refine hone (every_node.mpr ⟨h, ?_⟩)
        simp only [everyAll, Bool.and_eq_true] at hparts ⊢
        exact ⟨every_asTruth hparts.1, hparts.2⟩
      · rfl
    · exact hone hwhole
  · split
    · simp only [everyAll, Bool.and_eq_true] at hparts
      split
      · exact hone hparts.2.1
      · exact hone hparts.2.2.1
    · exact hone hwhole
  · exact hone hwhole

theorem filled_textless (name : String) (a b c : Tree) (body : List Tree) :
    filled (.functionDef name) [a, .seq (textless body), b, c] = true ∧
      filled (.classDef name) [a, b, .seq (textless body), c] = true := by
  have hne : (textless body).isEmpty = false := by
    unfold textless
    split <;> rfl
  simp [filled, meets, Kind.demands, Tree.items, hne]

theorem filled_undocumented (h : filled kind parts = true) : filled kind (undocumented kind parts) = true := by
  unfold undocumented
  split
  · exact (filled_textless _ _ _ _ _).1
  · exact (filled_textless _ _ _ _ _).2
  · rfl
  · exact h

theorem filled_lasting (h : lasting kind parts = true) : filled kind.bare (undocumented kind.bare (normalParts true parts)) = true := by
  have hbare : kind.bare.demands = kind.demands := by cases kind <;> rfl
  unfold lasting at h
  split at h
  · exact (filled_textless _ _ _ _ _).1
  · exact (filled_textless _ _ _ _ _).2
  · refine filled_undocumented ?_
    rw [filled, meets, hbare]
    exact filled_normalParts h

mutual

theorem everyAll_normal : (t : Tree) → every lasting t = true → everyAll filled (normal true t) = true
  | .node _ kind parts, h => by
    obtain ⟨hlasting, hparts⟩ := every_node.mp h
    exact everyAll_finish (everyAll_normalParts parts hparts) (filled_lasting hlasting)
  | .seq items, h => by
    rw [normal, everyAll, every, everyAll_normalAll items h]
    rfl
  | .absent, _ => rfl
  | .shared _, _ => rfl

theorem everyAll_normalParts : (ps : List Tree) → everyAll lasting ps = true → everyAll filled (normalParts true ps) = true
  | [], _ => rfl
  | p :: ps, h => by
    obtain ⟨hp, hps⟩ := (Bool.and_eq_true _ _).mp h
    rw [normalParts, everyAll, every_single, everyAll_normal p hp, everyAll_normalParts ps hps]
    rfl

theorem everyAll_normalAll : (ts : List Tree) → everyAll lasting ts = true → everyAll filled (normalAll true ts) = true
  | [], _ => rfl
  | t :: ts, h => by
    obtain ⟨ht, hts⟩ := (Bool.and_eq_true _ _).mp h
    rw [normalAll, everyAll_append, everyAll_normal t ht, everyAll_normalAll ts hts]
    rfl

end

theorem filled_bare (kind : Kind) (parts : List Tree) : filled kind.bare (bareAll parts) = filled kind parts := by
  have hbare : kind.bare.demands = kind.demands := by cases kind <;> rfl
  have hitems (i : Nat) : ((bareAll parts).getD i .absent).items.isEmpty = (parts.getD i .absent).items.isEmpty := by
    have hget : (bareAll parts).getD i .absent = (parts.getD i .absent).bare := by
      rw [bareAll_eq_map]
      exact List.getD_map parts .absent bare
    rw [hget]
    cases parts.getD i .absent with
    | seq items => simp [bare, bareAll_eq_map, Tree.items]
    | _ => rfl
  simp only [filled, meets, hbare, hitems]

/-! ## Functions and classes -/

def bodied : Kind → List Tree → Bool
  | .functionDef name, parts => filled (.functionDef name) parts
  | .classDef name, parts => filled (.classDef name) parts
  | _, _ => true

theorem bodied_of_calm (hfits : every fits (.node tag kind parts) = true)
    (hcalm : Pass.Documentation.calm kind parts = true) : bodied kind parts = true := by
  replace hfits := (every_node.mp hfits).1
  cases kind with
  | functionDef name =>
    obtain ⟨parameters, body, decorators, result, rfl, -⟩ := fits_functionDef hfits
    simp only [Pass.Documentation.calm, Pass.Documentation.calmBody, Bool.and_eq_true] at hcalm
    simpa [bodied, filled, meets, Kind.demands, Tree.items] using hcalm.2.1
  | classDef name =>
    obtain ⟨bases, keywords, body, decorators, rfl⟩ := fits_classDef hfits
    simp only [Pass.Documentation.calm, Pass.Documentation.calmBody, Bool.and_eq_true] at hcalm
    simpa [bodied, filled, meets, Kind.demands, Tree.items] using hcalm.1
  | _ => rfl

end Tree

/-! ## In the end -/

/-- Where the rounds of the first level end, no function and no class has an empty body. And if every list of statements
of a module that must not be empty, but for the bodies of functions and classes, has a statement that is neither a
branch nor a loop, then none is empty in the end. -/
theorem suites_stay_filled (paths : List String) (s₀ s s' : Session) (ws ws' : List Worker) (n i : Nat) (p : Program)
    (hstore : s₀.store.Empty) (hmodules : s₀.modules = []) (hlevel : s₀.level = 1) (hread : Returns (paths.forM parseFile) s₀ () s)
    (hws : ws.map (·.kind) = PassKind.registered) (hends : Pipeline.Ends 0 ws s (.ok (n, ws'), s')) (hp : s.modules[i]? = some p) :
    ∃ p', s'.modules[i]? = some p' ∧ p'.code = p.code ∧ every bodied p'.tree = true ∧
      (every lasting p.tree = true → every filled p'.tree = true) := by
  obtain ⟨hstands, hkept⟩ := parseFiles_stands ⟨hstore, by simp [hmodules]⟩ hread
  have hone : s.level = 1 := hkept.trans hlevel
  have haim : s.aim = true := by simp [Session.aim, hone]
  obtain ⟨p', hp', hcode, hform⟩ := Pipeline.module_of_ends (.inr hone) hws hstands hends hp
  obtain ⟨-, hlevel', -, hsettled⟩ := Pipeline.ends_settled hone.le hws hstands.plain hends
  have hcalm := (Pipeline.calm_of_settledAt (.inr (hlevel'.trans hone)) (hsettled p' (List.mem_of_getElem? hp'))).1
  have hstanding := ((Pipeline.ends_upholds hstands hone.le hends).stands.modules p' (List.mem_of_getElem? hp')).1
  refine ⟨p', hp', hcode, every_of_both bodied_of_calm _ (every_of_mem hstanding.fits (by simp))
    (hcalm.documentation ?_), fun hlasting => ?_⟩
  · simp [Session.aim, hlevel'.trans hone]
  · rw [← every_bare filled_bare, hform, haim, every_single]
    exact everyAll_normal p.tree hlasting

def partlyDeadLoop : String := "while x:\n    if 0:\n        y = 1\n    z = 2"

theorem read_partlyDeadLoop : Returns (readText "m.py") (fileSession partlyDeadLoop) partlyDeadLoop (fileSession partlyDeadLoop) := by
  have hbytes := files_fileSession partlyDeadLoop
  exact readText_of_bytes hbytes rfl

set_option maxRecDepth 100000 in
theorem rests_partlyDeadLoop : rests partlyDeadLoop (fun t _ => every lasting t) = true := by decide +kernel

theorem suites_stay_filled_partlyDeadLoop :
    ∃ s s' ws' n p, Returns (["m.py"].forM parseFile) (fileSession partlyDeadLoop) () s ∧
      Pipeline.Ends 0 (PassKind.registered.map fun kind => { kind }) s (.ok (n, ws'), s') ∧ s.modules[0]? = some p ∧
      every lasting p.tree = true ∧ ∃ p', s'.modules[0]? = some p' ∧ p'.code = p.code ∧ every bodied p'.tree = true ∧
        every filled p'.tree = true := by
  obtain ⟨t, n, s', k, ws', hread, hends, hlasting⟩ := of_rests read_partlyDeadLoop rests_partlyDeadLoop
  have hstore : (fileSession partlyDeadLoop).store.Empty := fun id => by simp [fileSession, Store.view]
  obtain ⟨p', hp', hcode, hbodied, hfilled⟩ := suites_stay_filled ["m.py"] (fileSession partlyDeadLoop) _ s' _ ws' k 0 ⟨⟨"m.py", partlyDeadLoop⟩, t⟩
    hstore rfl rfl hread rfl hends rfl
  exact ⟨_, s', ws', k, _, hread, hends, rfl, hlasting, p', hp', hcode, hbodied, hfilled hlasting⟩

def deadLoop : String := "while x:\n    if 0:\n        y = 1"

theorem read_deadLoop : Returns (readText "m.py") (fileSession deadLoop) deadLoop (fileSession deadLoop) := by
  have hbytes := files_fileSession deadLoop
  exact readText_of_bytes hbytes rfl

set_option maxRecDepth 100000 in
theorem rests_deadLoop : rests deadLoop (fun _ s' => s'.modules.any fun p => !every filled p.tree) = true := by decide +kernel

theorem deadLoop_suite_emptied : ∃ s s' ws' n p', Returns (["m.py"].forM parseFile) (fileSession deadLoop) () s ∧
    Pipeline.Ends 0 (PassKind.registered.map fun kind => { kind }) s (.ok (n, ws'), s') ∧ p' ∈ s'.modules ∧
      every filled p'.tree = false := by
  obtain ⟨t, n, s', k, ws', hread, hends, hempty⟩ := of_rests read_deadLoop rests_deadLoop
  obtain ⟨p', hp', hempty⟩ := List.any_eq_true.mp hempty
  exact ⟨_, s', ws', k, p', hread, hends, hp', by simpa using hempty⟩

end SourceOptimizer
