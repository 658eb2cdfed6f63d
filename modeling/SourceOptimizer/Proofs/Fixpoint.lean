import SourceOptimizer.Proofs.Rounds

/-! The last round is a fixpoint. A pass that reports no change has left nothing of what it looks for. Folding
comes first and is the only pass that may change a tree without a report; what it puts there is of no interest
to any pass. -/
namespace SourceOptimizer
open Tree Work
open PassKind (registered)

namespace Pass

variable {items items' body parts parts' ts : List Tree} {is : List Nat} {n k : Nat}
  {s m s' : Session} {t : Tree} {tag : Tag} {kind : Kind}
  {visited : Work (List Tree)} {test : Kind → List Tree → Bool} {R R' : Outcome}

theorem PartsTo.imp (hR : ∀ {t s ts s'}, R t s ts s' → R' t s ts s') (h : PartsTo R parts s parts' s') :
    PartsTo R' parts s parts' s' := by
  induction h with
  | nil => exact .nil
  | cons head _ ih => exact .cons (hR head) ih

theorem ItemsTo.imp (hR : ∀ {t s ts s'}, R t s ts s' → R' t s ts s')
    (h : ItemsTo R items s items' s') : ItemsTo R' items s items' s' := by
  induction h with
  | nil => exact .nil
  | cons head _ ih => exact .cons (hR head) ih

def Both (R R' : Outcome) : Outcome := fun t s ts s' => R t s ts s' ∧ R' t s ts s'

/-- A second relation is proved of a step with the first one at hand, also for the node and the list itself. -/
theorem PlainSound.also {step : Step Work} (h : PlainSound R step)
    (hnode : ∀ {s s' : Session} {tag kind parts visited ts}, s.store.Empty → refsAll parts = [] →
      PlainlyVisits (Both R R') parts visited → Returns (step tag kind parts visited) s ts s' →
      R (.node tag kind parts) s ts s' → R' (.node tag kind parts) s ts s')
    (hseq : ∀ {s s' : Session} {items items'}, ItemsTo (Both R R') items s items' s' → R' (.seq items) s [.seq items'] s')
    (habsent : ∀ s, R' .absent s [.absent] s) : PlainSound (Both R R') step where
  node := by
    intro s s' tag kind parts visited ts hs hplain hvisited hstep
    have hfirst := h.node hs hplain (fun hm hv => (hvisited hm hv).imp_right (.imp And.left)) hstep
    exact ⟨hfirst.1, hfirst.2, hnode hs hplain hvisited hstep hfirst.2⟩
  seq := fun hplain hto => ⟨h.seq hplain (hto.imp And.left), hseq hto⟩
  absent := fun s => ⟨h.absent s, habsent s⟩

/-! ## Passes that report what they change -/

/-- Without a report a tree is as it was, and all its nodes pass the test. -/
def Stays (test : Kind → List Tree → Bool) : Outcome := fun t s ts s' =>
  s'.changed = false → ts = [t] ∧ s' = s ∧ every test t = true

theorem PartsTo.stay (h : PartsTo (Stays test) parts s parts' s') (hquiet : s'.changed = false) :
    parts' = parts ∧ s' = s ∧ everyAll test parts = true := by
  induction h with
  | nil => exact ⟨rfl, rfl, rfl⟩
  | cons head tail ih =>
    obtain ⟨rfl, rfl, hrest⟩ := ih hquiet
    obtain ⟨rfl, rfl, hfirst⟩ := head hquiet
    exact ⟨rfl, rfl, by simp [everyAll, hfirst, hrest]⟩

theorem ItemsTo.stay (h : ItemsTo (Stays test) items s items' s') :
    Stays test (.seq items) s [.seq items'] s' := by
  intro hquiet
  suffices hsame : items' = items ∧ s' = s ∧ everyAll test items = true by
    obtain ⟨rfl, rfl, hall⟩ := hsame
    exact ⟨rfl, rfl, hall⟩
  induction h with
  | nil => exact ⟨rfl, rfl, rfl⟩
  | cons head tail ih =>
    obtain ⟨rfl, rfl, hrest⟩ := ih hquiet
    obtain ⟨rfl, rfl, hfirst⟩ := head hquiet
    exact ⟨rfl, rfl, by simp [everyAll, hfirst, hrest]⟩

theorem stays_absent (s : Session) : Stays test .absent s [.absent] s := fun _ => ⟨rfl, rfl, rfl⟩

theorem DeadBranch.plainStays : PlainSound (Both Sheds (Stays calm)) DeadBranch.step := by
  refine DeadBranch.plainSound.also ?_ (fun hto => ItemsTo.stay (hto.imp And.right)) stays_absent
  intro s s' tag kind parts visited ts hs _ hvisited h _ hquiet
  obtain ⟨parts', m, hm, hto, hchoose⟩ := returns_step_plain hs hvisited h
  rcases choose_results (hto.imp And.left).shed.plain hchoose with ⟨hcalm, rfl, rfl⟩ | ⟨_, rfl⟩
  · obtain ⟨rfl, rfl, hall⟩ := (hto.imp And.right).stay hquiet
    exact ⟨rfl, rfl, every_node.mpr ⟨hcalm, hall⟩⟩
  · cases hquiet

theorem Documentation.plainStays : PlainSound (Both Sheds (Stays Documentation.calm)) Documentation.step := by
  refine Documentation.plainSound.also ?_ (fun hto => ItemsTo.stay (hto.imp And.right)) stays_absent
  intro s s' tag kind parts visited ts hs _ hvisited h _ hquiet
  obtain ⟨parts', m, parts'', hto, rfl, -, -, ⟨hcalm, rfl, rfl⟩ | ⟨hchanged, -⟩⟩ :=
    Documentation.step_cases hs hvisited (fun hto => (hto.imp And.left).shed.plain) h
  · obtain ⟨rfl, rfl, hall⟩ := (hto.imp And.right).stay hquiet
    exact ⟨rfl, rfl, every_node.mpr ⟨hcalm, hall⟩⟩
  · cases hchanged.symm.trans hquiet

/-! ## Folding -/

namespace Fold

/-- A tree that other passes and the nodes around it see as before. -/
structure Alike (t t' : Tree) : Prop where
  literal : t'.literal? = t.literal?
  face : t'.face = t.face
  sole : ∀ x', t' = .seq [x'] → ∃ x, t = .seq [x] ∧ x'.literal? = x.literal?

/-- Without a report a tree becomes one that looks as before and holds nothing to fold. -/
def Quiets : Outcome := fun t s ts s' =>
  s'.changed = false → s.changed = false ∧ ∃ t', ts = [t'] ∧ Alike t t' ∧ every calm t' = true

theorem PartsTo.quiet (h : PartsTo Quiets parts s parts' s') (hquiet : s'.changed = false) :
    s.changed = false ∧ List.Forall₂ Alike parts parts' ∧ everyAll calm parts' = true := by
  induction h with
  | nil => exact ⟨hquiet, .nil, rfl⟩
  | cons head tail ih =>
    obtain ⟨hm, hrest, hall⟩ := ih hquiet
    obtain ⟨hs, t', rfl, halike, hevery⟩ := head hm
    exact ⟨hs, .cons halike hrest, by simp [everyAll, single, hevery, hall]⟩

theorem ItemsTo.quiet (h : ItemsTo Quiets items s items' s') :
    Quiets (.seq items) s [.seq items'] s' := by
  intro hquiet
  have hall : s.changed = false ∧ List.Forall₂ Alike items items' ∧ everyAll calm items' = true := by
    induction h with
    | nil => exact ⟨hquiet, .nil, rfl⟩
    | cons head tail ih =>
      obtain ⟨hm, hrest, hall⟩ := ih hquiet
      obtain ⟨hs, t', rfl, halike, hevery⟩ := head hm
      exact ⟨hs, .cons halike hrest, by simp [everyAll, hevery, hall]⟩
  obtain ⟨hs, halike, hevery⟩ := hall
  refine ⟨hs, _, rfl, ⟨rfl, ?_, ?_⟩, hevery⟩
  · cases halike with
    | nil => rfl
    | cons _ _ => rfl
  · intro x' hx'
    cases hx'
    cases halike with
    | cons hx hnil =>
      cases hnil
      exact ⟨_, rfl, hx.literal⟩

theorem calm_of_alike (h : List.Forall₂ Alike parts parts') (hcalm : calm kind parts = true) :
    calm kind parts' = true := by
  unfold calm
  split
  next left' right' =>
    rcases h with _ | ⟨hleft, _ | ⟨hright, _ | _⟩⟩
    rw [hleft.literal, hright.literal]
    exact hcalm
  next left' right' =>
    rcases h with _ | ⟨hleft, _ | ⟨hright, _ | _⟩⟩
    obtain ⟨right, rfl, hliteral⟩ := hright.sole _ rfl
    rw [hleft.literal, hliteral]
    exact hcalm
  next test' rest' =>
    rcases h with _ | ⟨htest, -⟩
    rw [htest.face]
    exact hcalm
  next test' rest' =>
    rcases h with _ | ⟨htest, -⟩
    rw [htest.face]
    exact hcalm
  · rfl

theorem everyAll_texts (htest : ∀ l, test (.constant l) [] = true) (args : List String) (n : Nat) :
    everyAll test (numberAll n (args.map text)).1 = true := by
  induction args generalizing n with
  | nil => rfl
  | cons arg args ih =>
    simp only [List.map_cons, numberAll, everyAll, ih, Bool.and_true, text, constant, make, number, every]
    exact htest _

theorem every_raising (r : Store) (e : Fault) : every calm (r.adopt (raisingFault e)).1 = true := by
  have htexts (n : Nat) : everyAll calm (numberAll n (e.args.map text)).1 = true := everyAll_texts (fun _ => rfl) e.args n
  simp [Store.adopt_eq, raisingFault, raising, callOf, emptyGenerator, noParameters, loadName, make, number, numberAll, every, everyAll, calm,
    htexts]

theorem adopt_raising (r : Store) (e : Fault) : ∃ tag parts, (r.adopt (raisingFault e)).1 = .node tag .call parts := by
  simp only [Store.adopt_eq, raisingFault, raising, callOf, make, number]
  exact ⟨_, _, rfl⟩

theorem quiets_failed {node : Tree} {e : Fault} (hface : t.face = .other) (hliteral : t.literal? = none)
    (h : Failed node s e ts s') : Quiets t s ts s' := by
  obtain ⟨m, hflag, rfl, rfl⟩ := h
  intro hquiet
  have hchanged : m.changed = s.changed := fixes_flag_changed e _ _ _ _ hflag
  have hevery := every_raising m.store e
  obtain ⟨tag, parts, heq⟩ := adopt_raising m.store e
  generalize m.store.adopt (raisingFault e) = adopted at hquiet hevery heq ⊢
  obtain ⟨u, r⟩ := adopted
  cases heq
  exact ⟨hchanged.symm.trans hquiet, _, rfl, ⟨hliteral.symm, hface.symm, fun _ h => Tree.noConfusion h⟩, hevery⟩

theorem plainQuiets : PlainSound (Both Sheds Quiets) step := by
  refine plainSound.also ?_ (fun hto => ItemsTo.quiet (hto.imp And.right)) fun _ hquiet => ⟨hquiet, .absent, rfl, ⟨rfl, rfl, nofun⟩, rfl⟩
  intro s s' tag kind parts visited ts hs hplain hvisited h _
  rcases step_results hplain h with ⟨hcalm, hleave⟩ | hdecides | ⟨result, hoperation, hreplace⟩
  · intro hquiet
    obtain ⟨parts', rfl, _, hto⟩ := returns_descend_plain hs hvisited hleave
    obtain ⟨hs, halike, hall⟩ := PartsTo.quiet (hto.imp And.right) hquiet
    refine ⟨hs, _, rfl, ⟨?_, face_node _ _ _ _ _, nofun⟩, every_node.mpr ⟨calm_of_alike halike hcalm, hall⟩⟩
    cases kind <;> rfl
  · intro hquiet
    obtain ⟨test, rest, l, parts', m, -, -, -, -, hvisit, rfl, rfl⟩ := hdecides
    obtain ⟨hm, hto⟩ := hvisited (by exact hs.adopt (.constant (.bool l.value.truth))) hvisit
    cases (PartsTo.quiet (hto.imp And.right) hquiet).1
  · rcases hreplace with ⟨v, -, rfl, rfl⟩ | ⟨e, -, hfailed⟩
    · intro hquiet
      cases hquiet
    · exact quiets_failed (by cases hoperation <;> rfl) (by cases hoperation <;> rfl) hfailed

end Fold

/-! ## Trees that are left as they are -/

namespace Fold

theorem condition_rests {test : Tree} (ht : refs test = []) (hcalm : test.face.isUnsettled = false) :
    Returns (condition? test) s none s := by
  refine .bind (returns_literal.mpr ⟨rfl, rfl⟩) ?_
  rw [Store.Empty.look ht]
  split
  · exact rfl
  next l hbool hl =>
    have hunsettled : test.face.isUnsettled = true := by
      refine (isUnsettled_of_literal hl).mpr fun b hb => ?_
      obtain ⟨value, origin, marked⟩ := l
      cases hb
      exact hbool _ _ _ rfl
    cases hcalm.symm.trans hunsettled
  · exact rfl

theorem operands_rest {left right : Tree} (hl : refs left = []) (hr : refs right = [])
    {fold : Literal → Literal → Work (List Tree)} {leave : Work (List Tree)}
    (hcalm : (left.literal?.isSome && right.literal?.isSome) = false) (h : Returns leave s ts s') :
    Returns (do
      match ← literal? left, ← literal? right with
      | some a, some b => fold a b
      | _, _ => leave) s ts s' := by
  refine .bind (returns_literal.mpr ⟨rfl, rfl⟩) ?_
  refine .bind (returns_literal.mpr ⟨rfl, rfl⟩) ?_
  rw [Store.Empty.look hl, Store.Empty.look hr]
  split
  next ha hb => simp [ha, hb] at hcalm
  · exact h

theorem rests : Rests calm step := by
  intro s tag kind parts visited hs hplain hcalm hvisited
  have hleave : Returns (descend tag kind visited) s [.node tag kind parts] s := returns_descend_self hs hvisited
  unfold step
  split
  next test rest =>
    have hcondition : Returns (condition? test) s none s :=
      condition_rests (refs_of_mem hplain (by simp)) (by simpa [calm] using hcalm)
    exact .bind hcondition hleave
  next test rest =>
    have hcondition : Returns (condition? test) s none s :=
      condition_rests (refs_of_mem hplain (by simp)) (by simpa [calm] using hcalm)
    exact .bind hcondition hleave
  next op left right =>
    have hright : refs right = [] := by
      have hseq : refsAll [right] = [] := refs_of_mem hplain (t := .seq [right]) (by simp)
      exact refs_of_mem hseq (by simp)
    exact operands_rest (refs_of_mem hplain (by simp)) hright (by simpa only [calm, Bool.not_eq_true'] using hcalm) hleave
  · exact operands_rest (refs_of_mem hplain (by simp)) (refs_of_mem hplain (by simp))
      (by simpa only [calm, Bool.not_eq_true'] using hcalm) hleave
  · exact hleave

end Fold

namespace DeadBranch

theorem rests : Rests calm step := by
  intro s tag kind parts visited hs hplain hcalm hvisited
  obtain ⟨ts, s', hchoose⟩ := sequential_completes.choose tag kind parts s
  obtain ⟨-, rfl, rfl⟩ | ⟨htakes, -⟩ := returns_choose hchoose
  · exact returns_bind.mpr ⟨parts, s', hvisited, returns_bind.mpr ⟨⟨⟩, s', returns_keep.mpr (by rw [hs.keep]), hchoose⟩⟩
  · exact absurd htakes ((calm_iff s.store hplain).mp hcalm ts)

end DeadBranch

namespace Documentation

theorem rests : Rests calm step := by
  intro s tag kind parts visited hs hplain hcalm hvisited
  refine returns_descend_self hs (.bind hvisited ((returns_strip hs hplain).mpr
    ⟨acceptedParts_of_calm hcalm, ?_⟩))
  rw [stripped_calm s.store hcalm, hcalm, Bool.not_true, told_false]
  exact ⟨rfl, rfl⟩

end Documentation

end Pass

/-! ## Workers -/

def PassKind.calm : PassKind → Kind → List Tree → Bool
  | .fold => Pass.Fold.calm
  | .deadBranch => Pass.DeadBranch.calm
  | .documentation => Pass.Documentation.calm
  | _ => fun _ _ => true

theorem PassKind.calm_bare (k : PassKind) (kind : Kind) (parts : List Tree) :
    k.calm kind.bare (bareAll parts) = k.calm kind parts := by
  cases k with
  | fold => exact Pass.Fold.calm_bare kind parts
  | deadBranch => exact Pass.DeadBranch.calm_bare kind parts
  | documentation => exact Pass.Documentation.calm_bare kind parts
  | _ => rfl

structure PassKind.Settled (k : PassKind) (t : Tree) : Prop where
  lined : t.lined 1 = t
  calm : every k.calm t = true

namespace Worker
variable {w w' : Worker} {s s' : Session} {t t' : Tree} {step : Pass.Step Work}

theorem rests_of_step (hstep : w.step? = some step) : Pass.Rests w.kind.calm step := by
  rcases step_iff.mp hstep with ⟨hk, rfl⟩ | ⟨hk, rfl⟩ | ⟨hk, rfl⟩ <;> rw [hk]
  · exact Pass.Fold.rests
  · exact Pass.DeadBranch.rests
  · exact Pass.Documentation.rests

theorem run_settles (hstep : w.step? = some step) (hs : s.store.Empty) (ht : refs t = [])
    (h : Returns (w.run t) s (t', w') s') (hquiet : w'.changed = false) :
    w.kind.Settled t' ∧ (w.kind ≠ .fold → t' = t.lined 1) := by
  obtain ⟨u, m, hrun, hlocate, rfl⟩ := (returns_run (pass_of_step hstep)).mp h
  -- the pass gives one tree; the rest is the lines
  suffices hu : refs u = [] ∧ (m.changed = false → every w.kind.calm u = true ∧ (w.kind ≠ .fold → u = t)) by
    obtain ⟨rfl, rfl⟩ := (returns_locate hu.1).mp hlocate
    obtain ⟨hcalm, hsame⟩ := hu.2 hquiet
    exact ⟨⟨lined_lined u 1, (every_lined w.kind.calm_bare u 1).trans hcalm⟩, fun hk => by rw [hsame hk]⟩
  have hbegin : Store.Empty { s with changed := false, notices := w.notices }.store := hs
  rcases step_iff.mp hstep with ⟨hk, rfl⟩ | ⟨hk, rfl⟩ | ⟨hk, rfl⟩
  · obtain ⟨_, ts, rfl, hsheds, hquiets⟩ := Pass.run_plain Pass.Fold.plainQuiets ht hbegin hrun
    refine ⟨refs_single hsheds.plain, fun hm => ?_⟩
    obtain ⟨_, u, rfl, _, hcalm⟩ := hquiets hm
    exact ⟨by rw [hk]; exact hcalm, fun hne => absurd hk hne⟩
  · obtain ⟨_, ts, rfl, hsheds, hstays⟩ := Pass.run_plain Pass.DeadBranch.plainStays ht hbegin hrun
    refine ⟨refs_single hsheds.plain, fun hm => ?_⟩
    obtain ⟨rfl, _, hcalm⟩ := hstays hm
    exact ⟨by rw [hk]; exact hcalm, fun _ => rfl⟩
  · obtain ⟨_, ts, rfl, hsheds, hstays⟩ := Pass.run_plain Pass.Documentation.plainStays ht hbegin hrun
    refine ⟨refs_single hsheds.plain, fun hm => ?_⟩
    obtain ⟨rfl, _, hcalm⟩ := hstays hm
    exact ⟨by rw [hk]; exact hcalm, fun _ => rfl⟩

theorem run_rests (hstep : w.step? = some step) (hs : s.store.Empty) (ht : refs t = []) (h : w.kind.Settled t) :
    Returns (w.run t) s (t, { w with changed := false }) { s with changed := false, notices := w.notices } := by
  refine (returns_run (pass_of_step hstep)).mpr ⟨t, _, Pass.run_rests (rests_of_step hstep) ht h.calm hs, ?_, rfl⟩
  exact (returns_locate ht).mpr ⟨h.lined, rfl⟩

end Worker

/-! ## The last round -/

namespace Pipeline
variable {s m s' : Session} {ws ws' : List Worker} {level : Int} {i : Nat} {b : Bool} {p : Program}

def isRegularKind (level : Int) (k : PassKind) : Bool := k.level ≤ level && !k.isPost

theorem isRegular_eq (level : Int) (w : Worker) : isRegular level w = isRegularKind level w.kind := rfl

structure Replants (i : Nat) (p : Program) (t : Tree) (s s' : Session) : Prop where
  here : s'.modules[i]? = some { p with tree := t }
  other : ∀ j, j ≠ i → s'.modules[j]? = s.modules[j]?
  plain : s'.Plain

theorem Replants.refl (hs : s.Plain) (hp : s.modules[i]? = some p) : Replants i p p.tree s s := ⟨hp, fun _ _ => rfl, hs⟩

theorem replants_putTree (hp : s.modules[i]? = some p) (hmodules : m.modules = s.modules) (hm : m.store.Empty)
    (hs : s.Plain) (ht : refs t = []) : Replants i p t s (m.putTree i t) where
  here := by simp [Session.putTree, hmodules, hp]
  other := by
    intro j hj
    simp [Session.putTree, hmodules, Ne.symm hj]
  plain := Session.Plain.putTree ⟨hm, hmodules ▸ hs.modules⟩ i ht

theorem Replants.trans {u : Tree} (h : Replants i p t s m) (h' : Replants i { p with tree := t } u m s') :
    Replants i p u s s' := ⟨h'.here, fun j hj => (h'.other j hj).trans (h.other j hj), h'.plain⟩

theorem settles_putTree {w w' : Worker} (hlevel : level ≤ 1) (hactive : isRegular level w = true) (hs : s.Plain)
    (hp : s.modules[i]? = some p) (hrun : Returns (w.run p.tree) s (t, w') m) (hquiet : w'.changed = false) :
    Replants i p t s (m.putTree i t) ∧ w.kind.Settled t ∧ (w.kind ≠ .fold → t = p.tree.lined 1) := by
  obtain ⟨step, hstep⟩ := Worker.exists_step_of_regular hlevel hactive
  have hplain : refs p.tree = [] := hs.modules p (List.mem_of_getElem? hp)
  obtain ⟨hm, ht, hmodules, -⟩ := Worker.run_sheds hstep hs.store hplain hrun
  exact ⟨replants_putTree hp hmodules hm hs ht, Worker.run_settles hstep hs.store hplain hrun hquiet⟩

/-- Workers that report no change and do not fold, but for the first of them, settle a module. Its tree is left, up to
lines, if the first does not fold either. -/
theorem workOn_settles (hlevel : level ≤ 1) (hkinds : ∀ w ∈ ws.tail, w.kind ≠ .fold) (hs : s.Plain)
    (hp : s.modules[i]? = some p) (h : Returns (workOn (isRegular level) i ws) s (false, ws') s') :
    ∃ t, Replants i p t s s' ∧ ((∀ w ∈ ws, w.kind ≠ .fold) → t = p.tree ∨ t = p.tree.lined 1) ∧
      ∀ w ∈ ws, isRegular level w = true → w.kind.Settled t := by
  induction ws generalizing s p ws' with
  | nil =>
    obtain ⟨-, -, rfl⟩ := returns_workOn_nil.mp h
    exact ⟨p.tree, .refl hs hp, fun _ => .inl rfl, by simp⟩
  | cons w ws ih =>
    have htail : ∀ w ∈ ws.tail, w.kind ≠ .fold := fun v hv => hkinds v (List.mem_of_mem_tail hv)
    rcases workOn_cons_at hp h with ⟨t, w', m, b', ws'', hactive, hrun, hws, hb, rfl⟩ | ⟨ws'', hrests, hws, rfl⟩
    · obtain ⟨hquiet, rfl⟩ := Bool.or_eq_false_iff.mp hb.symm
      obtain ⟨hput, hsettled, hsame⟩ := settles_putTree hlevel hactive hs hp hrun hquiet
      obtain ⟨u, hreplants, hu, hall⟩ := ih htail hput.plain hput.here hws
      obtain rfl : u = t := by simpa [hsettled.lined] using hu hkinds
      exact ⟨u, hput.trans hreplants, fun hfold => .inr (hsame (hfold w (by simp))), by simpa [hsettled] using hall⟩
    · obtain ⟨u, hreplants, hu, hall⟩ := ih htail hs hp hws
      exact ⟨u, hreplants, fun hfold => hu fun v hv => hfold v (by simp [hv]), by simpa [hrests] using hall⟩

def SettledAt (level : Int) (t : Tree) : Prop := ∀ k ∈ PassKind.registered, isRegularKind level k = true → k.Settled t

theorem workOn_registered (hlevel : level ≤ 1) (hws : ws.map (·.kind) = registered) (hs : s.Plain)
    (hp : s.modules[i]? = some p) (h : Returns (workOn (isRegular level) i ws) s (false, ws') s') :
    ∃ t, Replants i p t s s' ∧ SettledAt level t := by
  have hkinds : ∀ w ∈ ws.tail, w.kind ≠ .fold := by
    intro v hv hfold
    have hmem : v.kind ∈ ws.tail.map (·.kind) := List.mem_map_of_mem hv
    rw [List.map_tail, hws, hfold] at hmem
    exact absurd hmem (by decide)
  obtain ⟨t, hreplants, -, hall⟩ := workOn_settles hlevel hkinds hs hp h
  refine ⟨t, hreplants, fun k hk hregular => ?_⟩
  rw [← hws] at hk
  obtain ⟨v, hv, rfl⟩ := List.mem_map.mp hk
  exact hall v hv hregular

section Quiet
variable {kinds : List PassKind} {P : Tree → Prop}

def LeavesEach (level : Int) (kinds : List PassKind) (P : Tree → Prop) : Prop :=
  ∀ {s s' : Session} {ws ws' : List Worker} {i : Nat} {p : Program}, ws.map (·.kind) = kinds → s.Plain →
    s.modules[i]? = some p → Returns (workOn (isRegular level) i ws) s (false, ws') s' → ∃ t, Replants i p t s s' ∧ P t

theorem getElem?_of_range (s : Session) : ∀ i ∈ List.range s.modules.length, ∃ p, s.modules[i]? = some p :=
  fun _ hi => ⟨_, List.getElem?_eq_getElem (List.mem_range.mp hi)⟩

theorem workOnAll_quiet (hmodule : LeavesEach level kinds P) (hnodup : is.Nodup)
    (his : ∀ i ∈ is, ∃ p, s.modules[i]? = some p) (hws : ws.map (·.kind) = kinds) (hs : s.Plain)
    (h : Returns (workOnAll (isRegular level) is ws) s (false, ws') s') :
    (∀ j, j ∉ is → s'.modules[j]? = s.modules[j]?) ∧ ∀ j ∈ is, ∃ q, s'.modules[j]? = some q ∧ P q.tree := by
  induction is generalizing s ws with
  | nil =>
    cases h
    exact ⟨fun _ _ => rfl, by simp⟩
  | cons i is ih =>
    obtain ⟨_, _, m, _, hfirst, hothers, hb⟩ := returns_workOnAll_cons.mp h
    obtain ⟨rfl, rfl⟩ := Bool.or_eq_false_iff.mp hb.symm
    obtain ⟨p, hp⟩ := his i (by simp)
    have hs' : Session.Plain { s with current := (s.modules[i]?).map (·.code) } := ⟨hs.store, hs.modules⟩
    obtain ⟨t, hreplants, ht⟩ := hmodule hws hs' hp hfirst
    obtain ⟨hi, hnodup⟩ := List.nodup_cons.mp hnodup
    have his' : ∀ j ∈ is, ∃ q, m.modules[j]? = some q := by
      intro j hj
      rw [hreplants.other j (by rintro rfl; exact hi hj)]
      exact his j (by simp [hj])
    obtain ⟨hout, hin⟩ := ih hnodup his' ((workOn_kinds hfirst).trans hws) hreplants.plain hothers
    refine ⟨fun j hj => ?_, fun j hj => ?_⟩
    · obtain ⟨hji, hj⟩ : j ≠ i ∧ j ∉ is := by simpa using hj
      exact (hout j hj).trans (hreplants.other j hji)
    · rcases List.mem_cons.mp hj with rfl | hj
      · exact ⟨_, (hout j hi).trans hreplants.here, ht⟩
      · exact hin j hj

theorem round_quiet (hmodule : LeavesEach s.level kinds P) (hws : ws.map (·.kind) = kinds) (hs : s.Plain)
    (h : Returns (round ws) s (false, ws') s') : ∀ q ∈ s'.modules, P q.tree := by
  have hall := returns_get_bind.mp h
  obtain ⟨hout, hin⟩ := workOnAll_quiet hmodule List.nodup_range (getElem?_of_range s) hws hs hall
  intro q hq
  obtain ⟨j, hj⟩ := List.mem_iff_getElem?.mp hq
  by_cases hrange : j ∈ List.range s.modules.length
  · obtain ⟨q', hq', ht⟩ := hin j hrange
    cases hj.symm.trans hq'
    exact ht
  · rw [hout j hrange, List.getElem?_eq_none (by simpa using hrange)] at hj
    cases hj

theorem ends_quiet (hlevel : level ≤ 1) (hmodule : LeavesEach level kinds P) (hws : ws.map (·.kind) = kinds)
    (hs : s.Plain) (hat : s.level = level) (h : Ends n ws s (.ok (k, ws'), s')) :
    s'.Plain ∧ s'.level = level ∧ ws'.map (·.kind) = kinds ∧ ∀ p ∈ s'.modules, P p.tree := by
  subst hat
  generalize hout : (Except.ok (k, ws'), s') = out at h
  induction h with
  | fault _ => cases hout
  | rest h =>
    cases hout
    have hlight := round_lightens hs hlevel h
    exact ⟨hlight.plain, hlight.level, (round_kinds h).trans hws, round_quiet hmodule hws hs h⟩
  | @again n ws ws' s m out h _ ih =>
    have hlight := round_lightens hs hlevel h
    have hends := ih ((round_kinds h).trans hws) hlight.plain (by rw [hlight.level]; exact hlevel)
      (by rw [hlight.level]; exact hmodule) hout
    rwa [hlight.level] at hends

end Quiet

/-! ## One more round -/

structure Undisturbed (s s' : Session) : Prop where
  modules : s'.modules = s.modules
  store : s'.store = s.store
  log : s'.log = s.log

theorem Undisturbed.trans (h : Undisturbed s m) (h' : Undisturbed m s') : Undisturbed s s' :=
  ⟨h'.modules.trans h.modules, h'.store.trans h.store, h'.log.trans h.log⟩

theorem Undisturbed.plain (h : Undisturbed s s') (hs : s.Plain) : s'.Plain := ⟨h.store ▸ hs.store, h.modules ▸ hs.modules⟩

theorem modify_self {ps : List Program} (hp : ps[i]? = some p) : ps.modify i (fun q => { q with tree := p.tree }) = ps := by
  refine List.ext_getElem? fun j => ?_
  rw [List.getElem?_modify]
  split
  next heq =>
    subst heq
    rw [hp]
    rfl
  · simp

theorem workOn_rests (hlevel : level ≤ 1) (hs : s.Plain) (hp : s.modules[i]? = some p)
    (h : ∀ w ∈ ws, isRegular level w = true → w.kind.Settled p.tree) :
    ∃ ws' s', Returns (workOn (isRegular level) i ws) s (false, ws') s' ∧ Undisturbed s s' := by
  induction ws generalizing s with
  | nil => exact ⟨[], s, rfl, ⟨rfl, rfl, rfl⟩⟩
  | cons w ws ih =>
    have h' : ∀ w ∈ ws, isRegular level w = true → w.kind.Settled p.tree := fun w hw => h w (by simp [hw])
    cases hactive : isRegular level w with
    | true =>
      obtain ⟨step, hstep⟩ := Worker.exists_step_of_regular hlevel hactive
      have hrun := Worker.run_rests hstep hs.store (hs.modules p (List.mem_of_getElem? hp)) (h w (by simp) hactive)
      have hsame : Undisturbed s (Session.putTree { s with changed := false, notices := w.notices } i p.tree) :=
        ⟨modify_self hp, rfl, rfl⟩
      obtain ⟨ws', s', hrest, hundisturbed⟩ := ih (hsame.plain hs) (hsame.modules.symm ▸ hp) h'
      exact ⟨_, s', returns_workOn_cons.mpr (.inr (.inl ⟨p, _, _, _, _, ws', hactive, hp, hrun, hrest, rfl, rfl⟩)),
        hsame.trans hundisturbed⟩
    | false =>
      obtain ⟨ws', s', hrest, hundisturbed⟩ := ih hs hp h'
      exact ⟨w :: ws', s', returns_workOn_cons.mpr (.inr (.inr ⟨ws', hactive, hrest, rfl⟩)), hundisturbed⟩

theorem workOnAll_rests (hlevel : level ≤ 1) (his : ∀ i ∈ is, ∃ p, s.modules[i]? = some p)
    (hws : ws.map (·.kind) = registered) (hs : s.Plain) (h : ∀ p ∈ s.modules, SettledAt level p.tree) :
    ∃ ws' s', Returns (workOnAll (isRegular level) is ws) s (false, ws') s' ∧ Undisturbed s s' := by
  induction is generalizing s ws with
  | nil => exact ⟨ws, s, rfl, ⟨rfl, rfl, rfl⟩⟩
  | cons i is ih =>
    obtain ⟨p, hp⟩ := his i (by simp)
    have hsettled : ∀ w ∈ ws, isRegular level w = true → w.kind.Settled p.tree := by
      intro w hw hactive
      exact h p (List.mem_of_getElem? hp) w.kind (hws ▸ List.mem_map_of_mem hw) hactive
    have hs' : Session.Plain { s with current := (s.modules[i]?).map (·.code) } := ⟨hs.store, hs.modules⟩
    obtain ⟨ws₁, m, hfirst, hsame⟩ := workOn_rests hlevel hs' hp hsettled
    have hmodules : m.modules = s.modules := hsame.modules
    obtain ⟨ws₂, s', hothers, hundisturbed⟩ := ih (s := m) (fun j hj => hmodules ▸ his j (by simp [hj]))
      ((workOn_kinds hfirst).trans hws) (hsame.plain hs') (hmodules ▸ h)
    exact ⟨ws₂, s', returns_workOnAll_cons.mpr ⟨_, _, m, _, hfirst, hothers, rfl⟩, hundisturbed.modules.trans hmodules,
      hundisturbed.store.trans hsame.store, hundisturbed.log.trans hsame.log⟩

theorem round_rests (hlevel : s.level ≤ 1) (hws : ws.map (·.kind) = registered) (hs : s.Plain)
    (h : ∀ p ∈ s.modules, SettledAt s.level p.tree) :
    ∃ ws' s', Returns (round ws) s (false, ws') s' ∧ Undisturbed s s' := by
  obtain ⟨ws', s', hall, hundisturbed⟩ := workOnAll_rests hlevel (getElem?_of_range s) hws hs h
  exact ⟨ws', s', .bind rfl hall, hundisturbed⟩

theorem ends_settled (hlevel : s.level ≤ 1) (hws : ws.map (·.kind) = registered) (hs : s.Plain)
    (h : Ends n ws s (.ok (k, ws'), s')) :
    s'.Plain ∧ s'.level = s.level ∧ ws'.map (·.kind) = registered ∧ ∀ p ∈ s'.modules, SettledAt s'.level p.tree := by
  obtain ⟨hplain, hlevel', hws', hsettled⟩ := ends_quiet hlevel (workOn_registered hlevel) hws hs rfl h
  exact ⟨hplain, hlevel', hws', by rwa [hlevel']⟩

/-- Where the rounds of the first two levels end, there is nothing left to do: one more round reports no change, and
modules, store and log stay as they are. No operation and no single comparison has two constant operands, no
branch a constant condition, no loop one that is false or no truth value; and no text is a statement of a
module, class or function. -/
theorem ends_at_fixpoint (ws ws' : List Worker) (s s' : Session) (n : Nat) (hws : ws.map (·.kind) = PassKind.registered)
    (hplain : s.Plain) (hlevel : s.level ≤ 1) (h : Ends 0 ws s (.ok (n, ws'), s')) :
    (∃ ws'' s'', Returns (round ws') s' (false, ws'') s'' ∧ Undisturbed s' s'') ∧
      ∀ p ∈ s'.modules,
        (1 ≤ s.level → every Pass.Fold.calm p.tree = true ∧ every Pass.DeadBranch.calm p.tree = true) ∧
        (0 ≤ s.level → every Pass.Documentation.calm p.tree = true) := by
  obtain ⟨hplain', hlevel', hws', hsettled⟩ := ends_settled hlevel hws hplain h
  refine ⟨round_rests (hlevel' ▸ hlevel) hws' hplain' hsettled, fun p hp => ⟨fun hone => ?_, fun hzero => ?_⟩⟩
  · have hregular (k : PassKind) (hk : k.level = 1) (hpost : k.isPost = false) : isRegularKind s'.level k = true := by
      simp [isRegularKind, hk, hpost, hlevel', hone]
    exact ⟨(hsettled p hp .fold (by decide) (hregular _ rfl rfl)).calm,
      (hsettled p hp .deadBranch (by decide) (hregular _ rfl rfl)).calm⟩
  · refine (hsettled p hp .documentation (by decide) ?_).calm
    simp [isRegularKind, PassKind.level, PassKind.isPost, hlevel', hzero]

theorem ends_layered :
    ∃ ws' s', Ends 0 (registered.map fun kind => { kind }) layered (.ok (2, ws'), s') := by
  obtain ⟨out, hends, hcycle, _⟩ := ends_within (registered.map fun kind => { kind }) plain_layered
    (by decide) 0 9 (by decide)
  have htwo : (match (outcome (cycle 9 0 (registered.map fun kind => { kind })) layered).1 with
      | .ok (n, _) => n == 2
      | .error _ => false) = true := by decide +kernel
  rw [hcycle] at htwo
  obtain ⟨_ | ⟨n, ws'⟩, s'⟩ := out
  · cases htwo
  · obtain rfl : n = 2 := by simpa using htwo
    exact ⟨ws', s', hends⟩

theorem ends_at_fixpoint_layered :
    ∃ ws' s', Ends 0 (PassKind.registered.map fun kind => { kind }) layered (.ok (2, ws'), s') ∧
      (∃ ws'' s'', Returns (round ws') s' (false, ws'') s'' ∧ Undisturbed s' s'') ∧
      ∀ p ∈ s'.modules, (every Pass.Fold.calm p.tree = true ∧ every Pass.DeadBranch.calm p.tree = true) ∧
        every Pass.Documentation.calm p.tree = true := by
  obtain ⟨ws', s', h⟩ := ends_layered
  obtain ⟨hagain, hnormal⟩ := ends_at_fixpoint _ ws' layered s' 2 rfl plain_layered (by decide) h
  exact ⟨ws', s', h, hagain, fun p hp => ⟨(hnormal p hp).1 (by decide), (hnormal p hp).2 (by decide)⟩⟩

end Pipeline
end SourceOptimizer
