import SourceOptimizer.Proofs.Composition
import SourceOptimizer.Proofs.Settling

/-! The rounds of a pipeline. Where only the passes of the first two levels take part, a round that reports a
change has made the modules lighter, and there is a last one. -/
namespace SourceOptimizer
open Tree Work

namespace Session

variable {p : Program} {s : Session} {tree : Tree} {step : Pass.Step Work} {is : List Nat} {n : Nat}

def putTree (s : Session) (i : Nat) (tree : Tree) : Session :=
  { s with modules := s.modules.modify i fun p => { p with tree } }

/-- Nothing is shared, neither in the store nor in the modules. -/
structure Plain (s : Session) : Prop where
  store : s.store.Empty
  modules : ∀ p ∈ s.modules, refs p.tree = []

def weight (s : Session) : Nat := (s.modules.map (·.tree.weight)).sum

theorem sum_map_modify (ps : List Program) (i : Nat) (hp : ps[i]? = some p) (tree : Tree) :
    ((ps.modify i fun p => { p with tree }).map (·.tree.weight)).sum + p.tree.weight =
      (ps.map (·.tree.weight)).sum + tree.weight := by
  induction ps generalizing i with
  | nil => cases hp
  | cons q ps ih =>
    cases i with
    | zero =>
      cases hp
      simp only [List.modify_zero_cons, List.map_cons, List.sum_cons]
      omega
    | succ i =>
      have hrest := ih i hp
      simp only [List.modify_succ_cons, List.map_cons, List.sum_cons]
      omega

theorem weight_putTree (hp : s.modules[i]? = some p) (tree : Tree) :
    (s.putTree i tree).weight + p.tree.weight = s.weight + tree.weight := sum_map_modify s.modules i hp tree

theorem Plain.putTree (h : s.Plain) (i : Nat) (htree : refs tree = []) :
    (s.putTree i tree).Plain where
  store := h.store
  modules := by
    intro p hp
    obtain ⟨j, hj⟩ := List.mem_iff_getElem?.mp hp
    simp only [Session.putTree, List.getElem?_modify, Option.map_eq_map, Option.map_eq_some_iff] at hj
    obtain ⟨q, hq, rfl⟩ := hj
    split
    · exact htree
    · exact h.modules q (List.mem_of_getElem? hq)

end Session

/-! ## Workers -/

namespace Worker
variable {w w' : Worker} {s s' : Session} {t t' : Tree}

def pass? (w : Worker) : Option (Pass.Step Work) :=
  match w.kind with
  | .fold => some Pass.Fold.step
  | .deadBranch => some Pass.DeadBranch.step
  | .unroll => some Pass.Unroll.step
  | .documentation => some Pass.Documentation.step
  | .pureCall => some Pass.PureCall.step
  | _ => none

def step? (w : Worker) : Option (Pass.Step Work) := if w.kind.level ≤ 1 then w.pass? else none

theorem step_iff : w.step? = some step ↔ w.kind = .fold ∧ step = Pass.Fold.step ∨
    w.kind = .deadBranch ∧ step = Pass.DeadBranch.step ∨ w.kind = .documentation ∧ step = Pass.Documentation.step := by
  unfold step? pass?
  cases w.kind <;> simp [PassKind.level, eq_comm]

theorem exists_step_of_regular {level : Int} (hlevel : level ≤ 1) (h : Pipeline.isRegular level w = true) :
    ∃ step, w.step? = some step := by
  simp only [Pipeline.isRegular, Pipeline.takesPart, Bool.and_eq_true, decide_eq_true_eq] at h
  have hle : w.kind.level ≤ 1 := Int.le_trans h.1 hlevel
  rw [step?, if_pos hle, pass?]
  cases hk : w.kind with
  | fold | deadBranch | documentation => exact ⟨_, rfl⟩
  | _ => simp [hk, PassKind.level] at hle

theorem pass_of_step (hstep : w.step? = some step) : w.pass? = some step :=
  (Option.ite_none_right_eq_some.mp hstep).2

theorem returns_run_iff : Returns (w.run t) s (t', w') s' ↔
    ∃ u memory m, Returns (w.visit t) { s with changed := false, notices := w.notices } (u, memory) m ∧
      Returns (locate u) m t' s' ∧ w' = { w with changed := s'.changed, notices := s'.notices, memory } := by
  simp only [run, returns_bind, returns_modify, returns_get, returns_pure]
  constructor
  · rintro ⟨_, _, rfl, ⟨u, memory⟩, m, hv, t'', m', hlocate, _, _, ⟨rfl, rfl⟩, heq, rfl⟩
    cases heq
    exact ⟨u, memory, m, hv, hlocate, rfl⟩
  · rintro ⟨u, memory, m, hv, hlocate, rfl⟩
    exact ⟨⟨⟩, _, rfl, (u, memory), m, hv, t', s', hlocate, _, _, ⟨rfl, rfl⟩, rfl, rfl⟩

theorem returns_run (hstep : w.pass? = some step) :
    Returns (w.run t) s (t', w') s' ↔
      ∃ u m, Returns (Pass.run step t) { s with changed := false, notices := w.notices } u m ∧
        Returns (locate u) m t' s' ∧ w' = { w with changed := s'.changed, notices := s'.notices } := by
  have hvisit {m u memory m'} : Returns (w.visit t) m (u, memory) m' ↔ Returns (Pass.run step t) m u m' ∧ memory = w.memory := by
    unfold pass? at hstep
    unfold visit
    split at hstep <;> cases hstep <;> rename_i hk <;> rw [hk] <;> simp only [returns_bind, returns_pure] <;>
      constructor <;> grind
  simp only [returns_run_iff, hvisit]
  grind

theorem run_kind (h : Returns (w.run t) s (t', w') s') : w'.kind = w.kind := by
  obtain ⟨_, _, _, _, _, rfl⟩ := returns_run_iff.mp h
  rfl

theorem fixes_run {γ : Type} {f : Session → γ} (hf : Aloof f) (hstep : w.step? = some step)
    (t : Tree) : Fixes f (Pass.run step t) := by
  have hP := compositional_fixes hf
  refine .bind .get fun _ => .bind (hP.visitWithin ?_ _ t) fun _ => .pure _
  rcases step_iff.mp hstep with ⟨_, rfl⟩ | ⟨_, rfl⟩ | ⟨_, rfl⟩
  · exact hP.fold
  · exact hP.deadBranch
  · exact hP.documentation

theorem plainSound_of_step (hstep : w.step? = some step) : Pass.PlainSound Pass.Sheds step := by
  rcases step_iff.mp hstep with ⟨_, rfl⟩ | ⟨_, rfl⟩ | ⟨_, rfl⟩
  · exact Pass.Fold.plainSound
  · exact Pass.DeadBranch.plainSound
  · exact Pass.Documentation.plainSound

theorem run_sheds (hstep : w.step? = some step) (hs : s.store.Empty) (ht : refs t = [])
    (h : Returns (w.run t) s (t', w') s') :
    s'.store.Empty ∧ refs t' = [] ∧ s'.modules = s.modules ∧ s'.level = s.level ∧ weight t' ≤ weight t ∧
      (w'.changed = true → weight t' < weight t) := by
  obtain ⟨u, m, hrun, hlocate, rfl⟩ := (returns_run (pass_of_step hstep)).mp h
  have hframe := fixes_run (f := fun s => (s.modules, s.level)) (fun _ _ _ _ _ => rfl) hstep t _ _ _ hrun
  obtain ⟨hm, ts, rfl, hsheds⟩ :=
    Pass.run_plain (s := { s with changed := false, notices := w.notices }) (plainSound_of_step hstep) ht hs hrun
  obtain ⟨rfl, rfl⟩ := (returns_locate (refs_single hsheds.plain)).mp hlocate
  simp only [Prod.mk.injEq] at hframe
  refine ⟨hm, ?_, hframe.1, hframe.2, ?_, fun hchanged => ?_⟩
  · rw [refs_lined, refs_single hsheds.plain]
  · rw [weight_lined, weight_single]
    exact hsheds.le
  · rw [weight_lined, weight_single]
    exact (hsheds.changed hchanged).resolve_left (by simp)

end Worker

/-! ## Rounds -/

namespace Pipeline
variable {s m s' : Session} {ws ws' : List Worker} {active : Worker → Bool} {i : Nat} {b : Bool}

theorem returns_putTree {a : Unit} : Returns (putTree i tree) s a s' ↔ s.putTree i tree = s' := returns_modify

/-- What sessions before and after some work have to do with each other, given whether a change was reported. -/
structure Composes (Q : Bool → Session → Session → Prop) : Prop where
  refl : ∀ s, Q false s s
  trans : ∀ {b b' s m s'}, Q b s m → Q b' m s' → Q (b || b') s s'
  current : ∀ s code, Q false s { s with current := code }

variable {Q : Bool → Session → Session → Prop}

theorem returns_workOn_nil : Returns (workOn active i []) s (b, ws') s' ↔ b = false ∧ ws' = [] ∧ s = s' := by
  simp only [workOn, returns_pure, Prod.mk.injEq, and_assoc, eq_comm]

theorem returns_workOn_cons : Returns (workOn active i (w :: ws)) s (b, ws') s' ↔
    (active w = true ∧ s.modules[i]? = none ∧ b = false ∧ ws' = w :: ws ∧ s = s') ∨
      (∃ p t w' m b' ws'', active w = true ∧ s.modules[i]? = some p ∧ Returns (w.run p.tree) s (t, w') m ∧
        Returns (workOn active i ws) (m.putTree i t) (b', ws'') s' ∧ b = (w'.changed || b') ∧ ws' = w' :: ws'') ∨
      ∃ ws'', active w = false ∧ Returns (workOn active i ws) s (b, ws'') s' ∧ ws' = w :: ws'' := by
  rw [workOn]
  cases hactive : active w with
  | false =>
    simp only [returns_bind_pure, Prod.exists, Prod.mk.injEq, Bool.false_eq_true, if_false]
    grind
  | true =>
    rw [if_pos rfl, returns_get_bind]
    cases hp : s.modules[i]? with
    | none =>
      simp only [returns_pure, Prod.mk.injEq]
      grind
    | some p =>
      simp only [returns_bind, returns_putTree, returns_pure, Prod.exists, Prod.mk.injEq]
      grind

theorem workOn_cons_at (hp : s.modules[i]? = some p) (h : Returns (workOn active i (w :: ws)) s (b, ws') s') :
    (∃ t w' m b' ws'', active w = true ∧ Returns (w.run p.tree) s (t, w') m ∧
        Returns (workOn active i ws) (m.putTree i t) (b', ws'') s' ∧ b = (w'.changed || b') ∧ ws' = w' :: ws'') ∨
      ∃ ws'', active w = false ∧ Returns (workOn active i ws) s (b, ws'') s' ∧ ws' = w :: ws'' := by
  simpa [hp] using returns_workOn_cons.mp h

theorem returns_workOnAll_cons : Returns (workOnAll active (i :: is) ws) s (b, ws') s' ↔
    ∃ changed ws₁ m more, Returns (workOn active i ws) { s with current := (s.modules[i]?).map (·.code) } (changed, ws₁) m ∧
      Returns (workOnAll active is ws₁) m (more, ws') s' ∧ b = (changed || more) := by
  rw [workOnAll, returns_modify_bind]
  simp only [returns_bind, returns_pure, Prod.exists, Prod.mk.injEq]
  grind

theorem workOn_composes (hQ : Composes Q)
    (hrun : ∀ {w w' : Worker} {p t s m}, active w = true → s.modules[i]? = some p →
      Returns (w.run p.tree) s (t, w') m → Q w'.changed s (m.putTree i t))
    (h : Returns (workOn active i ws) s (b, ws') s') : Q b s s' := by
  induction ws generalizing s b ws' with
  | nil =>
    obtain ⟨rfl, -, rfl⟩ := returns_workOn_nil.mp h
    exact hQ.refl s
  | cons w ws ih =>
    rcases returns_workOn_cons.mp h with ⟨-, -, rfl, -, rfl⟩ | ⟨p, t, w', m, b', ws'', hactive, hp, hw, hws, rfl, -⟩ | ⟨ws'', -, hws, -⟩
    · exact hQ.refl s
    · exact hQ.trans (hrun hactive hp hw) (ih hws)
    · exact ih hws

theorem workOn_forall₂ {R : Worker → Worker → Prop} (hrefl : ∀ w, R w w)
    (hrun : ∀ {w w' t t' s m}, w ∈ ws → active w = true → Returns (w.run t) s (t', w') m → R w w')
    (h : Returns (workOn active i ws) s (b, ws') s') : List.Forall₂ R ws ws' := by
  induction ws generalizing s b ws' with
  | nil =>
    obtain ⟨-, rfl, -⟩ := returns_workOn_nil.mp h
    exact .nil
  | cons w ws ih =>
    have hothers {s b ws'} := @ih s b ws' fun hw => hrun (List.mem_cons_of_mem _ hw)
    rcases returns_workOn_cons.mp h with ⟨-, -, -, rfl, -⟩ | ⟨p, t, w', m, b', ws'', hactive, -, hw, hws, -, rfl⟩ | ⟨ws'', -, hws, rfl⟩
    · exact List.forall₂_same.mpr fun w _ => hrefl w
    · exact .cons (hrun List.mem_cons_self hactive hw) (hothers hws)
    · exact .cons (hrefl w) (hothers hws)

theorem workOn_kinds (h : Returns (workOn active i ws) s (b, ws') s') : ws'.map (·.kind) = ws.map (·.kind) := by
  rw [← List.forall₂_eq_eq_eq, List.forall₂_map_left_iff, List.forall₂_map_right_iff]
  exact (workOn_forall₂ (R := fun w v => v.kind = w.kind) (fun _ => rfl) (fun _ _ => Worker.run_kind) h).flip

theorem workOnAll_kinds (h : Returns (workOnAll active is ws) s (b, ws') s') :
    ws'.map (·.kind) = ws.map (·.kind) := by
  induction is generalizing s b ws with
  | nil =>
    cases h
    rfl
  | cons i is ih =>
    obtain ⟨_, _, _, _, hfirst, hothers, -⟩ := returns_workOnAll_cons.mp h
    exact (ih hothers).trans (workOn_kinds hfirst)

theorem round_kinds (h : Returns (round ws) s (b, ws') s') : ws'.map (·.kind) = ws.map (·.kind) := by
  obtain ⟨_, _, _, hall⟩ := returns_bind.mp h
  exact workOnAll_kinds hall

theorem workOnAll_composes (hQ : Composes Q)
    (hrun : ∀ {i} {w w' : Worker} {p t s m}, active w = true → s.modules[i]? = some p →
      Returns (w.run p.tree) s (t, w') m → Q w'.changed s (m.putTree i t))
    (h : Returns (workOnAll active is ws) s (b, ws') s') : Q b s s' := by
  induction is generalizing s b ws with
  | nil =>
    obtain ⟨heq, rfl⟩ := returns_pure.mp h
    cases heq
    exact hQ.refl s
  | cons i is ih =>
    obtain ⟨_, _, _, _, hfirst, hothers, rfl⟩ := returns_workOnAll_cons.mp h
    have hmodule := hQ.trans (hQ.current s _) (workOn_composes hQ hrun hfirst)
    exact hQ.trans hmodule (ih hothers)

theorem round_composes (hQ : Composes Q)
    (hrun : ∀ {i} {w w' : Worker} {p t s₁ m}, isRegular s.level w = true → s₁.modules[i]? = some p →
      Returns (w.run p.tree) s₁ (t, w') m → Q w'.changed s₁ (m.putTree i t))
    (h : Returns (round ws) s (b, ws') s') : Q b s s' := by
  replace h := returns_get_bind.mp h
  exact workOnAll_composes hQ hrun h

structure Lightens (b : Bool) (s s' : Session) : Prop where
  plain : s'.Plain
  level : s'.level = s.level
  le : s'.weight ≤ s.weight
  less : b = true → s'.weight < s.weight

theorem lightens_composes : Composes fun b s s' => s.Plain → Lightens b s s' where
  refl := fun s hs => ⟨hs, rfl, Nat.le_refl _, nofun⟩
  trans := by
    intro b b' s m s' h h' hs
    obtain ⟨hm, hlevel, hle, hless⟩ := h hs
    obtain ⟨hs', hlevel', hle', hless'⟩ := h' hm
    refine ⟨hs', hlevel'.trans hlevel, Nat.le_trans hle' hle, fun hb => ?_⟩
    rcases (Bool.or_eq_true b b').mp hb with hb | hb
    · exact Nat.lt_of_le_of_lt hle' (hless hb)
    · exact Nat.lt_of_lt_of_le (hless' hb) hle
  current := fun s code hs => ⟨⟨hs.store, hs.modules⟩, rfl, Nat.le_refl _, nofun⟩

theorem round_lightens (hplain : s.Plain) (hlevel : s.level ≤ 1) (h : Returns (round ws) s (b, ws') s') :
    Lightens b s s' := by
  refine round_composes lightens_composes ?_ h hplain
  intro i w w' p t s₁ m hactive hp hrun hs
  obtain ⟨step, hstep⟩ := Worker.exists_step_of_regular hlevel hactive
  obtain ⟨hm, ht, hmodules, hlevel', hle, hless⟩ :=
    Worker.run_sheds hstep hs.store (hs.modules p (List.mem_of_getElem? hp)) hrun
  have hplain : m.Plain := ⟨hm, hmodules ▸ hs.modules⟩
  have hsame : m.weight = s₁.weight := by rw [Session.weight, hmodules, Session.weight]
  have hput := Session.weight_putTree (s := m) (hmodules ▸ hp) t
  exact ⟨hplain.putTree i ht, hlevel', by omega, fun hchanged => by have := hless hchanged; omega⟩

/-! ## The last round -/

/-- The rounds, their number not bounded: they end with one that reports no change, or with a fault. -/
inductive Ends : Nat → List Worker → Session → Except Fault (Nat × List Worker) × Session → Prop
  | fault {n : Nat} {ws : List Worker} {s s' : Session} {e : Fault} (h : outcome (round ws) s = (.error e, s')) :
      Ends n ws s (.error e, s')
  | rest {n : Nat} {ws ws' : List Worker} {s s' : Session} (h : Returns (round ws) s (false, ws') s') :
      Ends n ws s (.ok (n + 1, ws'), s')
  | again {n : Nat} {ws ws' : List Worker} {s m : Session} {out : Except Fault (Nat × List Worker) × Session}
      (h : Returns (round ws) s (true, ws') m) (rest : Ends (n + 1) ws' m out) : Ends n ws s out

theorem Ends.unique {out out' : Except Fault (Nat × List Worker) × Session} (h : Ends n ws s out)
    (h' : Ends n ws s out') : out = out' := by
  induction h with
  | fault h =>
    cases h' with
    | fault h' =>
      cases h.symm.trans h'
      rfl
    | rest h' => cases h.symm.trans h'
    | again h' _ => cases h.symm.trans h'
  | rest h =>
    cases h' with
    | fault h' => cases h.symm.trans h'
    | rest h' =>
      cases h.symm.trans h'
      rfl
    | again h' _ => cases h.symm.trans h'
  | again h _ ih =>
    cases h' with
    | fault h' | rest h' => cases h.symm.trans h'
    | again h' rest =>
      cases h.symm.trans h'
      exact ih rest

theorem outcome_cycle {fuel : Nat} :
    outcome (cycle (fuel + 1) n ws) s =
      match outcome (round ws) s with
      | (.ok (true, ws'), m) => outcome (cycle fuel (n + 1) ws') m
      | (.ok (false, ws'), m) => (.ok (n + 1, ws'), m)
      | (.error e, m) => (.error e, m) := by
  rw [cycle, outcome_bind]
  rcases outcome (round ws) s with ⟨_ | ⟨_ | _, ws'⟩, m⟩ <;> rfl

/-- A round that reports a change makes plain modules lighter, so that the rounds come to an end after at most as many
as the modules weigh, and one more; a bound above that is none. -/
theorem ends_within (ws : List Worker) (hplain : s.Plain) (hlevel : s.level ≤ 1) (n fuel : Nat) (hfuel : s.weight < fuel) :
    ∃ out, Ends n ws s out ∧ outcome (cycle fuel n ws) s = out ∧
      ∀ k ws', out.1 = .ok (k, ws') → k ≤ n + s.weight + 1 := by
  induction fuel generalizing s ws n with
  | zero => exact absurd hfuel (Nat.not_lt_zero _)
  | succ fuel ih =>
    rw [outcome_cycle]
    cases hround : outcome (round ws) s with
    | mk result m =>
      cases result with
      | error e => exact ⟨_, .fault hround, rfl, nofun⟩
      | ok result =>
        obtain ⟨changed, ws'⟩ := result
        have hreturns : Returns (round ws) s (changed, ws') m := hround
        have hlight := round_lightens hplain hlevel hreturns
        cases changed with
        | false =>
          refine ⟨_, .rest hreturns, rfl, ?_⟩
          rintro k ws'' ⟨⟩
          omega
        | true =>
          have hless := hlight.less rfl
          obtain ⟨out, hends, hcycle, hcount⟩ := ih ws' hlight.plain (by rw [hlight.level]; exact hlevel)
            (n + 1) (by omega)
          refine ⟨out, .again hreturns hends, hcycle, fun k ws'' hout => ?_⟩
          have hk := hcount k ws'' hout
          omega

/-- The rounds of the first two levels terminate: whatever the workers are, each round that reports a change lowers the
weight of the modules, so there is a last round, and a bound on their number above the weight gives what the
rounds give without one. -/
theorem rounds_terminate (ws : List Worker) (s : Session) (hplain : s.Plain) (hlevel : s.level ≤ 1) :
    (∀ ws' s', Returns (round ws) s (true, ws') s' → s'.Plain ∧ s'.level ≤ 1 ∧ s'.weight < s.weight) ∧
      ∃ out, Ends 0 ws s out ∧ (∀ n ws', out.1 = .ok (n, ws') → n ≤ s.weight + 1) ∧
        ∀ fuel, s.weight < fuel → outcome (cycle fuel 0 ws) s = out := by
  constructor
  · intro ws' s' h
    have hlight := round_lightens hplain hlevel h
    exact ⟨hlight.plain, hlight.level ▸ hlevel, hlight.less rfl⟩
  · obtain ⟨out, hends, _, hcount⟩ := ends_within ws hplain hlevel 0 (s.weight + 1) (Nat.lt_succ_self _)
    refine ⟨out, hends, fun n ws' hout => by simpa using hcount n ws' hout, fun fuel hfuel => ?_⟩
    obtain ⟨out', hends', hcycle, _⟩ := ends_within ws hplain hlevel 0 fuel hfuel
    exact hcycle.trans (hends'.unique hends)

def layered : Session where
  store := { next := 8 }
  level := 1
  modules := [{
    code := ⟨"layered", "if 1 + 1:\n    'text'"⟩
    tree := .node { id := 1 } .moduleDef [.seq
      [.node { id := 2, line := some 1 } .ifStmt
        [.node { id := 3, line := some 1 } (.binOp .add)
          [.node { id := 4, line := some 1 } (.constant { value := .int 1, origin := 4 }) [],
           .node { id := 5, line := some 1 } (.constant { value := .int 1, origin := 5 }) []],
         .seq [.node { id := 6, line := some 2 } .exprStmt
          [.node { id := 7, line := some 2 } (.constant { value := .str (Text.ofString "text"), origin := 7 }) []]],
         .seq []]]] }]

theorem plain_layered : layered.Plain := ⟨fun id => by simp [layered, Store.view], by simp [layered, refs, refsAll]⟩

theorem rounds_terminate_layered :
    layered.Plain ∧ layered.level ≤ 1 ∧ layered.weight = 8 ∧
      ∃ out, Ends 0 (PassKind.registered.map fun kind => { kind }) layered out ∧
        (∀ n ws', out.1 = .ok (n, ws') → n ≤ 9) ∧
        ∀ fuel, 8 < fuel → outcome (cycle fuel 0 (PassKind.registered.map fun kind => { kind })) layered = out :=
  ⟨plain_layered, by decide, by decide, (rounds_terminate _ layered plain_layered (by decide)).2⟩

end Pipeline
end SourceOptimizer
