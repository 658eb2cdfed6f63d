import SourceOptimizer.Proofs.Writeback

/-! Folding and the removal of dead branches are confluent. Both keep the normal form of a tree, and a tree
that neither of them changes is its own. -/
namespace SourceOptimizer
open Tree Work
open PassKind (registered)

variable {w w' : Worker} {n : Nat} {ks : List PassKind}

/-! ## Passes in any order -/

def Reduces (t : Tree) (s : Session) (t' : Tree) (s' : Session) : Prop :=
  ∃ w w' : Worker, (w.kind = .fold ∨ w.kind = .deadBranch) ∧ Returns (w.run t) s (t', w') s'

/-- Passes one after the other, in sessions that have nothing but the store in common. -/
inductive Reductions : Tree → Session → Tree → Session → Prop
  | refl (t : Tree) (s : Session) : Reductions t s t s
  | step {t t' t'' : Tree} {s m m' s' : Session} (hstore : m.store = s.store) (head : Reduces t m t' m')
      (tail : Reductions t' m' t'' s') : Reductions t s t'' s'

def Irreducible (t : Tree) (s : Session) : Prop :=
  ∀ k ∈ [PassKind.fold, .deadBranch], ∃ (w w' : Worker) (m s' : Session) (t' : Tree),
    w.kind = k ∧ m.store = s.store ∧ Returns (w.run t) m (t', w') s' ∧ t'.bare = t.bare

variable {s s' : Session} {t t' : Tree}

theorem exists_step_of_kind (h : w.kind = .fold ∨ w.kind = .deadBranch) : ∃ step, w.step? = some step := by
  rcases h with h | h
  · exact ⟨_, Worker.step_iff.mpr (.inl ⟨h, rfl⟩)⟩
  · exact ⟨_, Worker.step_iff.mpr (.inr (.inl ⟨h, rfl⟩))⟩

theorem Reductions.normal (h : Reductions t s t' s') (hs : s.store.Empty) (ht : Standing s.store.next [t])
    (hsingle : t.isBranch = false) :
    s'.store.Empty ∧ Standing s'.store.next [t'] ∧ Tree.normal false t' = Tree.normal false t := by
  induction h with
  | refl t s => exact ⟨hs, ht, rfl⟩
  | @step t t' t'' s m m' s' hstore head tail ih =>
    obtain ⟨w, w', hkind, hrun⟩ := head
    obtain ⟨step, hstep⟩ := exists_step_of_kind hkind
    rw [← hstore] at hs ht
    obtain ⟨hm', -⟩ := Worker.run_sheds hstep hs (refs_of_mem ht.plain (by simp)) hrun
    obtain ⟨ht', -, hsingle', -⟩ := Worker.run_standing hstep hs ht hrun
    obtain ⟨hs', ht'', hnormal⟩ := ih hm' ht' (hsingle' hsingle)
    have hkeep : Tree.normal false t' = Tree.normal false t :=
      Worker.run_normal (.inl ⟨hkind, by simp⟩) hs ht hsingle hrun
    exact ⟨hs', ht'', hnormal.trans hkeep⟩

/-- A pass that leaves a tree as it is has nothing left to do: reported changes lower its weight. -/
theorem calm_of_unchanged (hkind : w.kind = .fold ∨ w.kind = .deadBranch) (hs : s.store.Empty) (ht : refs t = [])
    (h : Returns (w.run t) s (t', w') s') (hsame : t'.bare = t.bare) : every w.kind.calm t = true := by
  obtain ⟨step, hstep⟩ := exists_step_of_kind hkind
  obtain ⟨-, -, -, -, -, hless⟩ := Worker.run_sheds hstep hs ht h
  have hquiet : w'.changed = false := by
    refine Bool.eq_false_iff.mpr fun hchanged => Nat.ne_of_lt (hless hchanged) ?_
    rw [← weight_bare, hsame, weight_bare]
  have hcalm := (Worker.run_settles hstep hs ht h hquiet).1.calm
  rw [← every_bare w.kind.calm_bare, ← hsame, every_bare w.kind.calm_bare]
  exact hcalm

theorem Irreducible.calm (h : Irreducible t s) (hs : s.store.Empty) (ht : refs t = []) : Calm false t := by
  obtain ⟨w, w', m, s', t', hk, hstore, hrun, hsame⟩ := h .fold (by simp)
  obtain ⟨v, v', r, r', u, hk', hstore', hrun', hsame'⟩ := h .deadBranch (by simp)
  have hfold := calm_of_unchanged (.inl hk) (hstore ▸ hs) ht hrun hsame
  have hbranch := calm_of_unchanged (.inr hk') (hstore' ▸ hs) ht hrun' hsame'
  rw [hk] at hfold
  rw [hk'] at hbranch
  exact ⟨fun _ => hfold, fun _ => hbranch, by simp⟩

theorem Reductions.unique {t₁ t₂ : Tree} (hs : s.store.Empty) (ht : Standing s.store.next [t])
    (hsingle : t.isBranch = false) (h₁ : Reductions t s t₁ s₁) (h₂ : Reductions t s t₂ s₂) (hend₁ : Irreducible t₁ s₁)
    (hend₂ : Irreducible t₂ s₂) : t₁.bare = t₂.bare := by
  obtain ⟨hs₁, ht₁, hnormal₁⟩ := h₁.normal hs ht hsingle
  obtain ⟨hs₂, ht₂, hnormal₂⟩ := h₂.normal hs ht hsingle
  have hcalm₁ := hend₁.calm hs₁ (refs_of_mem ht₁.plain (by simp))
  have hcalm₂ := hend₂.calm hs₂ (refs_of_mem ht₂.plain (by simp))
  refine List.singleton_inj.mp ?_
  rw [← normal_calm t₁ hcalm₁, ← normal_calm t₂ hcalm₂, hnormal₁, hnormal₂]

/-! ## Pipelines with the passes in either order -/

namespace Pass.Fold
variable {m : Session} {tag : Tag} {kind : Kind} {parts parts' ts : List Tree} {visited : Work (List Tree)}

def Undecided : Outcome := fun t _ ts s' =>
  s'.changed = false → every DeadBranch.calm t = true → everyAll DeadBranch.calm ts = true

theorem PartsTo.undecided (h : PartsTo (Both (Both Sheds Quiets) Undecided) parts s parts' s') (hquiet : s'.changed = false)
    (hcalm : everyAll DeadBranch.calm parts = true) : everyAll DeadBranch.calm parts' = true := by
  induction h with
  | nil => rfl
  | cons head tail ih =>
    simp only [everyAll, Bool.and_eq_true] at hcalm ⊢
    obtain ⟨hm, -⟩ := PartsTo.quiet (tail.imp fun h => h.1.2) hquiet
    obtain ⟨-, t', rfl, -⟩ := head.1.2 hm
    exact ⟨(Bool.and_eq_true _ _ ▸ head.2 hm hcalm.1).1, ih hquiet hcalm.2⟩

theorem ItemsTo.undecided {items items' : List Tree} (h : ItemsTo (Both (Both Sheds Quiets) Undecided) items s items' s') :
    Undecided (.seq items) s [.seq items'] s' := by
  intro hquiet hcalm
  suffices hall : everyAll DeadBranch.calm items' = true by simpa [everyAll, every] using hall
  have hitems : everyAll DeadBranch.calm items = true := hcalm
  induction h with
  | nil => rfl
  | cons head tail ih =>
    simp only [everyAll, Bool.and_eq_true] at hitems
    obtain ⟨hm, -⟩ := ItemsTo.quiet (tail.imp fun h => h.1.2) hquiet
    rw [everyAll_append, head.2 hm hitems.1, ih hquiet hitems.2 hitems.2]
    rfl

theorem undecided_of_alike (h : List.Forall₂ Alike parts parts') (hcalm : DeadBranch.calm kind parts = true) :
    DeadBranch.calm kind parts' = true := by
  unfold DeadBranch.calm
  split
  next test' body' other' =>
    rcases h with _ | ⟨htest, _ | ⟨-, _ | ⟨-, _ | _⟩⟩⟩
    rw [htest.literal]
    exact hcalm
  next test' rest' =>
    rcases h with _ | ⟨htest, -⟩
    rw [htest.literal]
    exact hcalm
  next test' body' other' =>
    rcases h with _ | ⟨htest, _ | ⟨-, _ | ⟨-, _ | _⟩⟩⟩
    rw [htest.literal]
    exact hcalm
  · rfl

theorem undecided_raising (className : String) (args : List String) (n : Nat) :
    every DeadBranch.calm ((raising className args).number n).1 = true := by
  have htexts (n : Nat) : everyAll DeadBranch.calm (numberAll n (args.map text)).1 = true := everyAll_texts (fun _ => rfl) args n
  simp [raising, callOf, emptyGenerator, noParameters, loadName, make, number, numberAll, every, everyAll, DeadBranch.calm,
    htexts]

theorem plainUndecided : PlainSound (Both (Both Sheds Quiets) Undecided) step := by
  refine plainQuiets.also ?_ ItemsTo.undecided fun _ _ _ => rfl
  intro s s' tag kind parts visited ts hs hplain hvisited h _ hquiet hcalm
  obtain ⟨hnode, hparts⟩ := every_node.mp hcalm
  rcases step_results hplain h with ⟨-, hleave⟩ | hdecides | ⟨-, -, ⟨v, -, rfl, rfl⟩ | ⟨e, -, m, -, rfl, rfl⟩⟩
  · obtain ⟨parts', rfl, _, hto⟩ := returns_descend_plain hs hvisited hleave
    obtain ⟨-, halike, -⟩ := PartsTo.quiet (hto.imp fun h => h.1.2) hquiet
    have hall := PartsTo.undecided hto hquiet hparts
    simpa [everyAll] using every_node.mpr ⟨undecided_of_alike halike hnode, hall⟩
  · obtain ⟨test, rest, l, parts', m, -, -, -, -, hvisit, rfl, rfl⟩ := hdecides
    obtain ⟨hm, hto⟩ := hvisited (by exact hs.adopt (.constant (.bool l.value.truth))) hvisit
    cases (PartsTo.quiet (hto.imp fun h => h.1.2) hquiet).1
  · cases hquiet
  · rw [Store.adopt_eq, raisingFault]
    simpa [everyAll] using undecided_raising e.className e.args m.store.next

end Pass.Fold

theorem Worker.run_undecided (hk : w.kind = .fold) (hs : s.store.Empty) (ht : refs t = [])
    (h : Returns (w.run t) s (t', w') s') (hquiet : w'.changed = false) (hcalm : every Pass.DeadBranch.calm t = true) :
    every Pass.DeadBranch.calm t' = true := by
  have hstep : w.step? = some Pass.Fold.step := Worker.step_iff.mpr (.inl ⟨hk, rfl⟩)
  obtain ⟨u, m, hrun, hlocate, rfl⟩ := (returns_run (pass_of_step hstep)).mp h
  have hbegin : Store.Empty { s with changed := false, notices := w.notices }.store := hs
  obtain ⟨_, ts, rfl, ⟨hsheds, hquiets⟩, hundecided⟩ := Pass.run_plain Pass.Fold.plainUndecided ht hbegin hrun
  obtain ⟨rfl, rfl⟩ := (returns_locate (refs_single hsheds.plain)).mp hlocate
  obtain ⟨-, u, rfl, -⟩ := hquiets hquiet
  have hu : every Pass.DeadBranch.calm u = true := by simpa [everyAll] using hundecided hquiet hcalm
  exact (every_lined PassKind.deadBranch.calm_bare u 1).trans hu

namespace Pipeline
variable {ws ws' ws₁ ws₂ : List Worker} {s₁ s₂ : Session} {i : Nat} {p : Program}

def exchanged : List PassKind := .deadBranch :: .fold :: PassKind.registered.drop 2

theorem workOn_exchanged (hws : ws.map (·.kind) = exchanged) (hs : s.Plain) (hp : s.modules[i]? = some p)
    (h : Returns (workOn (isRegular 1) i ws) s (false, ws') s') : ∃ t, Replants i p t s s' ∧ SettledAt 1 t := by
  obtain ⟨v, rest', rfl, hv, hrest'⟩ := List.map_eq_cons_iff.mp hws
  obtain ⟨w, rest, rfl, hw, hrest⟩ := List.map_eq_cons_iff.mp hrest'
  have hactive : isRegular 1 v = true := by rw [isRegular_eq, hv]; decide
  have hactive' : isRegular 1 w = true := by rw [isRegular_eq, hw]; decide
  have hkinds : ∀ w ∈ rest, w.kind ≠ .fold := by
    intro x hx hfold
    have hmem : x.kind ∈ rest.map (·.kind) := List.mem_map_of_mem hx
    rw [hrest, hfold] at hmem
    exact absurd hmem (by decide)
  rcases workOn_cons_at hp h with ⟨t, v', m, b, vs, -, hrun, hthen, hb, rfl⟩ | ⟨-, hrests, -⟩
  · obtain ⟨hquiet, rfl⟩ := Bool.or_eq_false_iff.mp hb.symm
    obtain ⟨hput, hdecided, -⟩ := settles_putTree (by decide) hactive hs hp hrun hquiet
    rcases workOn_cons_at hput.here hthen with ⟨u, w', m', b, us, -, hrun', hthen', hb', rfl⟩ | ⟨-, hrests, -⟩
    · obtain ⟨hquiet', rfl⟩ := Bool.or_eq_false_iff.mp hb'.symm
      obtain ⟨hput', hsettled, -⟩ := settles_putTree (by decide) hactive' hput.plain hput.here hrun' hquiet'
      have ht : refs t = [] := hput.plain.modules _ (List.mem_of_getElem? hput.here)
      have hbranch := hdecided.calm
      rw [hv] at hbranch
      have hbranch' := Worker.run_undecided hw hput.plain.store ht hrun' hquiet' hbranch
      replace hput' := hput.trans hput'
      obtain ⟨x, hreplants, hx, hothers⟩ := workOn_settles (by decide) (fun v hv => hkinds v (List.mem_of_mem_tail hv))
        hput'.plain hput'.here hthen'
      obtain rfl : x = u := by simpa [hsettled.lined] using hx hkinds
      refine ⟨x, hput'.trans hreplants, fun k hk hregular => ?_⟩
      rcases List.mem_cons.mp (show k ∈ PassKind.fold :: .deadBranch :: registered.drop 2 from hk) with rfl | hk
      · exact hw ▸ hsettled
      · rcases List.mem_cons.mp hk with rfl | hk
        · exact ⟨hsettled.lined, hbranch'⟩
        · rw [← hrest] at hk
          obtain ⟨y, hy, rfl⟩ := List.mem_map.mp hk
          exact hothers y hy hregular
    · cases hrests.symm.trans hactive'
  · cases hrests.symm.trans hactive

theorem calm_of_settledAt (hlevel : s.level = 0 ∨ s.level = 1) (h : SettledAt s.level t) : Calm s.aim t ∧ t.lined 1 = t := by
  have hdocs : PassKind.documentation.Settled t := h _ (by decide) (by rcases hlevel with h | h <;> rw [h] <;> decide)
  have hone (haim : s.aim ≠ .documentation) {k : PassKind} (hk : k ∈ registered) (hregular : isRegularKind 1 k = true) :
      k.Settled t := by
    refine h k hk ?_
    rcases hlevel with h | h
    · exact absurd (if_pos (by omega)) haim
    · rwa [h]
  exact ⟨⟨fun ha => (hone ha (k := .fold) (by decide) (by decide)).calm,
    fun ha => (hone ha (k := .deadBranch) (by decide) (by decide)).calm, fun _ => hdocs.calm⟩, hdocs.lined⟩

/-- The rounds of the first two levels end in the normal forms of what was there; at the first level also with the passes in the
other order. -/
theorem results_of_ends (hlevel : s.level = 0 ∨ s.level = 1)
    (hws : ws.map (·.kind) = registered ∨ s.level = 1 ∧ ws.map (·.kind) = exchanged) (hs : s.Stands)
    (h : Ends 0 ws s (.ok (n, ws'), m)) :
    (m.outline = s.modules.map fun p => (p.code, Pass.single (Tree.normal s.aim p.tree))) ∧
      ∀ p ∈ m.modules, p.tree.lined 1 = p.tree := by
  have hle : s.level ≤ 1 := by omega
  have hsettled : ∀ p ∈ m.modules, SettledAt s.level p.tree := by
    rcases hws with hws | ⟨hone, hws⟩
    · exact (ends_quiet hle (fun hws hs hp h => workOn_registered hle hws hs hp h) hws hs.plain rfl h).2.2.2
    · rw [hone]
      exact (ends_quiet le_rfl (fun hws hs hp h => workOn_exchanged hws hs hp h) hws hs.plain hone h).2.2.2
  exact ⟨outline_of_calm (ends_upholds hs hle h) fun p hp => (calm_of_settledAt hlevel (hsettled p hp)).1,
    fun p hp => (calm_of_settledAt hlevel (hsettled p hp)).2⟩

theorem module_of_ends (hlevel : s.level = 0 ∨ s.level = 1)
    (hws : ws.map (·.kind) = registered) (hs : s.Stands) (h : Ends 0 ws s (.ok (n, ws'), m)) (hp : s.modules[i]? = some p) :
    ∃ p', m.modules[i]? = some p' ∧ p'.code = p.code ∧ p'.tree.bare = Pass.single (Tree.normal s.aim p.tree) := by
  have houtline := congrArg (·[i]?) (results_of_ends hlevel (.inl hws) hs h).1
  simp only [Session.outline, List.getElem?_map, hp, Option.map_some, Option.map_eq_some_iff, Prod.mk.injEq] at houtline
  exact houtline

theorem outline_exchanged (hs : s.Stands) (hlevel : s.level = 1) (hws₁ : ws₁.map (·.kind) = registered)
    (hws₂ : ws₂.map (·.kind) = exchanged) (h₁ : Transforms ws₁ s s₁) (h₂ : Transforms ws₂ s s₂) : s₁.outline = s₂.outline := by
  obtain ⟨n₁, ws₁', m₁, hends₁, hupholds₁, hwrites₁⟩ := h₁.writes hs hlevel.le
  obtain ⟨n₂, ws₂', m₂, hends₂, hupholds₂, hwrites₂⟩ := h₂.writes hs hlevel.le
  obtain ⟨houtline₁, hlined₁⟩ := results_of_ends (.inr hlevel) (.inl hws₁) hs hends₁
  obtain ⟨houtline₂, hlined₂⟩ := results_of_ends (.inr hlevel) (.inr ⟨hlevel, hws₂⟩) hs hends₂
  refine outline_of_writes hwrites₁ hwrites₂ (results_congr ?_ hupholds₁.stands hupholds₂.stands hlined₁ hlined₂)
  rw [houtline₁, houtline₂]

end Pipeline

/-! ## Two schedules -/

def passes : List PassKind → Tree → Work Tree
  | [], t => return t
  | k :: ks, t => do
    let (t, _) ← Worker.run { kind := k } t
    passes ks t

theorem reductions_of_passes (hks : ∀ k ∈ ks, k = .fold ∨ k = .deadBranch)
    (h : Returns (passes ks t) s t' s') : Reductions t s t' s' := by
  induction ks generalizing t s with
  | nil =>
    obtain ⟨rfl, rfl⟩ := returns_pure.mp h
    exact .refl t s
  | cons k ks ih =>
    obtain ⟨⟨u, w⟩, m, hrun, hrest⟩ := returns_bind.mp h
    exact .step rfl ⟨{ kind := k }, w, hks k (by simp), hrun⟩ (ih (fun k hk => hks k (by simp [hk])) hrest)

theorem irreducible_of_calm (hs : s.store.Empty) (ht : refs t = []) (h : Calm false t) : Irreducible t s := by
  have hrun (w : Worker) (hkind : w.kind = .fold ∨ w.kind = .deadBranch) (hcalm : every w.kind.calm t = true) :
      Returns (w.run t) s (t.lined 1, { w with changed := false }) { s with changed := false, notices := w.notices } := by
    obtain ⟨step, hstep⟩ := exists_step_of_kind hkind
    exact (Worker.returns_run (Worker.pass_of_step hstep)).mpr ⟨t, _, Pass.run_rests (Worker.rests_of_step hstep) ht hcalm hs,
      (returns_locate ht).mpr ⟨rfl, rfl⟩, rfl⟩
  intro k hk
  rcases List.mem_cons.mp hk with rfl | hk
  · exact ⟨{ kind := .fold }, _, s, _, _, rfl, rfl, hrun _ (.inl rfl) (h.fold (by simp)), bare_lined t 1⟩
  · obtain rfl := List.mem_singleton.mp hk
    exact ⟨{ kind := .deadBranch }, _, s, _, _, rfl, rfl, hrun _ (.inr rfl) (h.branch (by simp)), bare_lined t 1⟩

def branching : Code := ⟨"m.py", "if 0:\n    y\nif 1 + 1:\n    x"⟩

def branchingSession : Session := { level := 1, files := { files := [(["m.py"], branching.bytes)] } }

theorem read_branching : Returns (readText "m.py") branchingSession branching.text branchingSession := by cbv

def comesToRest (ks : List PassKind) (ws : List Worker) : Bool :=
  match Tree.parse 1 branching.text with
  | .error _ => false
  | .ok (t, n) =>
    let s := branchingSession.withModule branching t n
    (match (outcome (passes ks t) { branchingSession with store := { next := n } }).1 with
      | .error _ => false
      | .ok t => every Pass.Fold.calm t && every Pass.DeadBranch.calm t) &&
    (match (outcome (Pipeline.transform ws) s).1 with
      | .error _ => false
      | .ok _ => s.weight < Pipeline.maxCycles)

theorem of_comesToRest (hks : ∀ k ∈ ks, k = .fold ∨ k = .deadBranch)
    (h : comesToRest ks ws = true) (hparse : Tree.parse 1 branching.text = .ok (t, n)) :
    (∃ t' s', Reductions t { branchingSession with store := { next := n } } t' s' ∧ Irreducible t' s') ∧
      ∃ s', Pipeline.Transforms ws (branchingSession.withModule branching t n) s' := by
  obtain ⟨hstanding, hsingle, -⟩ := Tree.parse_standing hparse
  have hempty : Store.Empty { next := n } := fun id => by simp [Store.view]
  simp only [comesToRest, hparse, Bool.and_eq_true] at h
  obtain ⟨hpasses, htransform⟩ := h
  split at hpasses
  · cases hpasses
  next t' ht' =>
    have hreductions := reductions_of_passes hks (returns_of_ok ht')
    obtain ⟨hs', ht'', -⟩ := hreductions.normal hempty hstanding hsingle
    obtain ⟨hfold, hbranch⟩ := (Bool.and_eq_true _ _).mp hpasses
    refine ⟨⟨_, _, hreductions, irreducible_of_calm hs' (refs_of_mem ht''.plain (by simp)) ⟨fun _ => hfold,
      fun _ => hbranch, by simp⟩⟩, ?_⟩
    split at htransform
    · cases htransform
    next ws' hws' =>
      have hplain : (branchingSession.withModule branching t n).Plain := by
        refine ⟨hempty, fun p hp => ?_⟩
        obtain rfl := List.mem_singleton.mp hp
        exact refs_of_mem hstanding.plain (by simp)
      exact ⟨_, (Pipeline.transforms_iff hplain (show (1 : Int) ≤ 1 from le_rfl) (of_decide_eq_true htransform)).mpr
        ⟨_, returns_of_ok hws'⟩⟩

set_option maxRecDepth 100000 in
theorem comesToRest_branching :
    comesToRest [.deadBranch, .fold, .fold, .deadBranch] (registered.map fun kind => { kind }) = true ∧
      comesToRest [.fold, .deadBranch, .fold, .deadBranch] (Pipeline.exchanged.map fun kind => { kind }) = true := by
  decide +kernel

/-! ## Confluence -/

/-- Folding and the removal of dead branches are confluent: passes over a tree that was read, in any order and number,
that end in trees which neither of them changes end in the same tree up to identities and lines. And at the first level
the order in which a pipeline has them does not change its modules or what is written for them. -/
theorem passes_confluent :
    (∀ (source : String) (s₀ s s₁ s₂ : Session) (t t₁ t₂ : Tree), s₀.store.Empty → Returns (Work.parse source) s₀ t s →
      Reductions t s t₁ s₁ → Irreducible t₁ s₁ → Reductions t s t₂ s₂ → Irreducible t₂ s₂ → t₁.bare = t₂.bare) ∧
    ∀ (paths : List String) (s₀ s s₁ s₂ : Session) (ws₁ ws₂ : List Worker), s₀.store.Empty → s₀.modules = [] → s₀.level = 1 →
      Returns (paths.forM parseFile) s₀ () s → ws₁.map (·.kind) = PassKind.registered → ws₂.map (·.kind) = Pipeline.exchanged →
      Pipeline.Transforms ws₁ s s₁ → Pipeline.Transforms ws₂ s s₂ → s₁.outline = s₂.outline := by
  constructor
  · intro source s₀ s s₁ s₂ t t₁ t₂ hs₀ hparse h₁ hend₁ h₂ hend₂
    obtain ⟨n, hread, rfl⟩ := returns_parse_iff.mp hparse
    obtain ⟨hstanding, hsingle, -⟩ := Tree.parse_standing hread
    have hs : Session.store { s₀ with store := { s₀.store with next := n } } |>.Empty := hs₀
    exact Reductions.unique hs hstanding hsingle h₁ h₂ hend₁ hend₂
  · intro paths s₀ s s₁ s₂ ws₁ ws₂ hs₀ hmodules hlevel hparse hws₁ hws₂ h₁ h₂
    have hstands₀ : s₀.Stands := ⟨hs₀, by simp [hmodules]⟩
    obtain ⟨hstands, hlevel'⟩ := parseFiles_stands hstands₀ hparse
    exact Pipeline.outline_exchanged hstands (hlevel'.trans hlevel) hws₁ hws₂ h₁ h₂

theorem passes_confluent_branching :
    (∃ t s t₁ s₁ t₂ s₂, Returns (Work.parse branching.text) branchingSession t s ∧ Reductions t s t₁ s₁ ∧ Irreducible t₁ s₁ ∧
        Reductions t s t₂ s₂ ∧ Irreducible t₂ s₂ ∧ t₁.bare = t₂.bare) ∧
      ∃ s s₁ s₂, Returns (["m.py"].forM parseFile) branchingSession () s ∧
        Pipeline.Transforms (PassKind.registered.map fun kind => { kind }) s s₁ ∧
        Pipeline.Transforms (Pipeline.exchanged.map fun kind => { kind }) s s₂ ∧ s₁.outline = s₂.outline := by
  have hempty : branchingSession.store.Empty := fun id => by simp [branchingSession, Store.view]
  obtain ⟨⟨t, n⟩, hparse⟩ : ∃ r, Tree.parse 1 branching.text = .ok r := by
    have hrest := comesToRest_branching.1
    unfold comesToRest at hrest
    split at hrest
    · cases hrest
    next t n hparse => exact ⟨(t, n), hparse⟩
  have hread : Returns (Work.parse branching.text) branchingSession t { branchingSession with store := { next := n } } :=
    returns_parse_iff.mpr ⟨n, hparse, rfl⟩
  have hfile : Returns (["m.py"].forM parseFile) branchingSession () (branchingSession.withModule branching t n) :=
    .bind (parseFile_returns read_branching hparse) rfl
  obtain ⟨⟨t₁, s₁, hred₁, hirr₁⟩, r₁, htrans₁⟩ := of_comesToRest (by decide) comesToRest_branching.1 hparse
  obtain ⟨⟨t₂, s₂, hred₂, hirr₂⟩, r₂, htrans₂⟩ := of_comesToRest (by decide) comesToRest_branching.2 hparse
  exact ⟨⟨t, _, t₁, s₁, t₂, s₂, hread, hred₁, hirr₁, hred₂, hirr₂,
      passes_confluent.1 branching.text branchingSession _ s₁ s₂ t t₁ t₂ hempty hread hred₁ hirr₁ hred₂ hirr₂⟩,
    _, r₁, r₂, hfile, htrans₁, htrans₂,
    passes_confluent.2 ["m.py"] branchingSession _ r₁ r₂ _ _ hempty rfl rfl hfile rfl rfl htrans₁ htrans₂⟩

end SourceOptimizer
