import SourceOptimizer.Proofs.Repetition

/-! Rounds that are repeated. Workers do not forget the warnings they have given, so a round that leaves
modules and shared nodes as they were does so again, without a line in the log. -/
namespace SourceOptimizer
open Tree Work

variable {is : List Nat}

/-! ## Workers -/

namespace Session

def Resembles (s r : Session) : Prop := Alike { s with changed := false } { r with changed := false }

variable {s r : Session}

theorem Alike.resembles (h : Alike s r) : Resembles s r := ⟨h.store, rfl, h.modules, h.level, h.infinity, h.notANumber⟩

theorem Resembles.trans {q : Session} (h : Resembles s r) (h' : Resembles r q) : Resembles s q := Alike.trans h h'

theorem Resembles.start (h : Resembles s r) (notices notices' : List Notice) :
    Alike { s with changed := false, notices := notices } { r with changed := false, notices := notices' } :=
  ⟨h.store, rfl, h.modules, h.level, h.infinity, h.notANumber⟩

theorem Resembles.putTree (h : Resembles s r) (i : Nat) (tree : Tree) : Resembles (s.putTree i tree) (r.putTree i tree) := by
  have hmodules : r.modules = s.modules := h.modules
  refine ⟨h.store, rfl, ?_, h.level, h.infinity, h.notANumber⟩
  simp only [Session.putTree, hmodules]

end Session

namespace Worker
variable {w w' v : Worker} {s s' r : Session} {t t' : Tree} {step : Pass.Step Work}

structure Ready (w : Worker) : Prop where
  registered : w.kind ∈ PassKind.registered
  resting : w.memory.naming.rest = {}

structure Recalls (w v : Worker) : Prop where
  kind : v.kind = w.kind
  notices : w.notices ⊆ v.notices
  naming : v.memory.naming.rest = w.memory.naming.rest

theorem Recalls.refl (w : Worker) : Recalls w w := ⟨rfl, List.Subset.refl _, rfl⟩

theorem Recalls.trans {u : Worker} (h : Recalls w v) (h' : Recalls v u) : Recalls w u :=
  ⟨h'.kind.trans h.kind, List.Subset.trans h.notices h'.notices, h'.naming.trans h.naming⟩

theorem Ready.of_recalls (hw : w.Ready) (h : Recalls w v) : v.Ready where
  registered := h.kind ▸ hw.registered
  resting := h.naming.trans hw.resting

theorem echoes_pass (hstep : w.pass? = some step) (t : Tree) : Echoes (Pass.run step t) := by
  refine Pass.echoes_run ?_ t
  unfold pass? at hstep
  split at hstep <;> cases hstep
  · exact compositional_echoes.fold
  · exact compositional_echoes.deadBranch
  · exact Pass.Unroll.echoes
  · exact compositional_echoes.documentation
  · exact Pass.PureCall.echoes

theorem Ready.pass (hw : w.Ready) (hlevel : level ≤ 2) (h : Pipeline.isRegular level w = true) :
    (∃ step, w.pass? = some step) ∨ w.kind = .rename := by
  simp only [Pipeline.isRegular, Pipeline.takesPart, Bool.and_eq_true, decide_eq_true_eq] at h
  have hle : w.kind.level ≤ 2 := Int.le_trans h.1 hlevel
  have hkind := hw.registered
  unfold pass?
  cases hk : w.kind with
  | rename => exact .inr rfl
  | native | simulation => simp [hk, PassKind.level] at hle
  | unused => simp [hk, PassKind.registered] at hkind
  | _ => exact .inl ⟨_, rfl⟩

theorem returns_run_rename (hk : w.kind = .rename) :
    Returns (w.run t) s (t', w') s' ↔
      ∃ u naming m, Returns (Pass.Rename.run w.memory.naming t) { s with changed := false, notices := w.notices } (u, naming) m ∧
        Returns (locate u) m t' s' ∧
        w' = { w with changed := s'.changed, notices := s'.notices, memory := { w.memory with naming } } := by
  have hvisit {m u memory m'} : Returns (w.visit t) m (u, memory) m' ↔
      ∃ naming, Returns (Pass.Rename.run w.memory.naming t) m (u, naming) m' ∧ memory = { w.memory with naming } := by
    unfold visit
    rw [hk]
    simp only [returns_bind, returns_pure]
    constructor
    · rintro ⟨⟨u', naming⟩, m'', hrun, heq, rfl⟩
      cases heq
      exact ⟨naming, hrun, rfl⟩
    · rintro ⟨naming, hrun, rfl⟩
      exact ⟨(u, naming), m', hrun, rfl, rfl⟩
  simp only [returns_run_iff, hvisit]
  grind

theorem Ready.run_recalls (hw : w.Ready) (hpass : (∃ step, w.pass? = some step) ∨ w.kind = .rename)
    (h : Returns (w.run t) s (t', w') s') : Recalls w w' := by
  rcases hpass with ⟨step, hstep⟩ | hk
  · obtain ⟨u, m, hrun, hlocate, rfl⟩ := (returns_run hstep).mp h
    exact ⟨rfl, List.Subset.trans ((echoes_pass hstep t).grows hrun) ((Mirrors.locate u).echoes.grows hlocate), rfl⟩
  · obtain ⟨u, naming, m, hrun, hlocate, rfl⟩ := (returns_run_rename hk).mp h
    exact ⟨rfl, List.Subset.trans ((Pass.Rename.echoes_run _ t).grows hrun) ((Mirrors.locate u).echoes.grows hlocate),
      Pass.Rename.run_rest (congrArg Pass.Rename.Naming.phase hw.resting) (congrArg Pass.Rename.Naming.ignoring hw.resting) hrun⟩

/-- A worker that has run over a module, and has not forgotten since, does the same once more. -/
theorem Ready.run_again (hw : w.Ready) (hpass : (∃ step, w.pass? = some step) ∨ w.kind = .rename)
    (h : Returns (w.run t) s (t', w') s') (hv : Recalls w' v) (hsame : s.Resembles r) :
    ∃ v' r', Returns (v.run t) r (t', v') r' ∧ s'.Resembles r' ∧ v'.changed = w'.changed ∧ Recalls v v' ∧
      v'.notices = v.notices ∧ r'.log = r.log := by
  have hrecalls := (hw.run_recalls hpass h).trans hv
  have hv' : (∃ step, v.pass? = some step) ∨ v.kind = .rename := by
    unfold pass?
    rw [hrecalls.kind]
    exact hpass
  -- the second run warns of nothing, so that it goes through
  suffices hrun : ∃ v' r', Returns (v.run t) r (t', v') r' ∧ s'.Alike r' ∧ v'.changed = r'.changed ∧
      v'.notices = r'.notices ∧ r'.notices = v.notices ∧ r'.log = r.log by
    obtain ⟨v', r', hrun, halike, hchanged, hnotices, hkept, hlog⟩ := hrun
    have hchanged' : w'.changed = s'.changed := by
      rcases hpass with ⟨step, hstep⟩ | hk
      · obtain ⟨_, _, _, _, rfl⟩ := (returns_run hstep).mp h
        rfl
      · obtain ⟨_, _, _, _, _, rfl⟩ := (returns_run_rename hk).mp h
        rfl
    exact ⟨v', r', hrun, halike.resembles, by rw [hchanged, hchanged', halike.changed],
      (hw.of_recalls hrecalls).run_recalls hv' hrun, hnotices.trans hkept, hlog⟩
  have hstart := hsame.start w.notices v.notices
  rcases hpass with ⟨step, hstep⟩ | hk
  · have hstep' : v.pass? = some step := by
      unfold pass? at hstep ⊢
      rwa [hrecalls.kind]
    obtain ⟨u, m, hrun, hlocate, rfl⟩ := (returns_run hstep).mp h
    have hgrows := (Mirrors.locate u).echoes.grows hlocate
    obtain ⟨q, hq, halike, hkept, hlog⟩ := (echoes_pass hstep t).again hstart hrun (List.Subset.trans hgrows hv.notices)
    obtain ⟨r', hr', halike, hkept', hlog'⟩ :=
      (Mirrors.locate u).echoes.again halike hlocate (hkept.symm ▸ hv.notices)
    exact ⟨_, r', (returns_run hstep').mpr ⟨u, q, hq, hr', rfl⟩, halike, rfl, rfl, hkept'.trans hkept, hlog'.trans hlog⟩
  · have hk' : v.kind = .rename := hrecalls.kind.trans hk
    obtain ⟨u, naming, m, hrun, hlocate, rfl⟩ := (returns_run_rename hk).mp h
    have hgrows := (Mirrors.locate u).echoes.grows hlocate
    obtain ⟨q, hq, halike, hkept, hlog⟩ := (Pass.Rename.echoes_run _ t).again hstart hrun (List.Subset.trans hgrows hv.notices)
    have hnaming : Pass.Rename.run v.memory.naming t = Pass.Rename.run w.memory.naming t :=
      congrArg (StateT.run (Pass.runDeep Pass.Rename.rule t)) hrecalls.naming
    obtain ⟨r', hr', halike, hkept', hlog'⟩ :=
      (Mirrors.locate u).echoes.again halike hlocate (hkept.symm ▸ hv.notices)
    exact ⟨_, r', (returns_run_rename hk').mpr ⟨u, naming, q, hnaming ▸ hq, hr', rfl⟩, halike, rfl, rfl,
      hkept'.trans hkept, hlog'.trans hlog⟩

end Worker

/-! ## Rounds -/

namespace Pipeline
open Worker
variable {s s' r : Session} {ws ws' vs : List Worker} {b : Bool} {i : Nat} {level : Int}

theorem ready_of_recalls (hws : ∀ w ∈ ws, w.Ready) (h : List.Forall₂ Recalls ws vs) : ∀ v ∈ vs, v.Ready := by
  induction h with
  | nil => simp
  | cons hhead _ ih =>
    simp only [List.mem_cons, forall_eq_or_imp] at hws ⊢
    exact ⟨hws.1.of_recalls hhead, ih hws.2⟩

theorem recalls_refl (ws : List Worker) : List.Forall₂ Recalls ws ws := List.forall₂_same.mpr fun w _ => .refl w

theorem recalls_trans {us : List Worker} (h : List.Forall₂ Recalls ws vs) (h' : List.Forall₂ Recalls vs us) :
    List.Forall₂ Recalls ws us := by
  induction h generalizing us with
  | nil =>
    cases h'
    exact .nil
  | cons hhead _ ih =>
    cases h' with
    | cons hhead' htail' => exact .cons (hhead.trans hhead') (ih htail')

theorem isRegular_of_recalls (h : Recalls w v) : isRegular level v = isRegular level w := by
  simp only [isRegular, takesPart, h.kind]

theorem workOn_recalls (hlevel : level ≤ 2) (hws : ∀ w ∈ ws, w.Ready)
    (h : Returns (workOn (isRegular level) i ws) s (b, ws') s') : List.Forall₂ Recalls ws ws' :=
  workOn_forall₂ .refl (fun hw hactive => (hws _ hw).run_recalls ((hws _ hw).pass hlevel hactive)) h

def Unwarned (w v : Worker) : Prop := Recalls w v ∧ v.notices = w.notices

theorem workOn_again (hlevel : level ≤ 2) (hws : ∀ w ∈ ws, w.Ready)
    (h : Returns (workOn (isRegular level) i ws) s (b, ws') s') (hvs : List.Forall₂ Recalls ws' vs) (hsame : s.Resembles r) :
    ∃ vs' r', Returns (workOn (isRegular level) i vs) r (b, vs') r' ∧ s'.Resembles r' ∧
      List.Forall₂ Unwarned vs vs' ∧ r'.log = r.log := by
  induction ws generalizing s r b ws' vs with
  | nil =>
    obtain ⟨rfl, rfl, rfl⟩ := returns_workOn_nil.mp h
    cases hvs
    exact ⟨[], r, returns_workOn_nil.mpr ⟨rfl, rfl, rfl⟩, hsame, .nil, rfl⟩
  | cons w ws ih =>
    simp only [List.mem_cons, forall_eq_or_imp] at hws
    have hmodules : r.modules = s.modules := hsame.modules
    rcases returns_workOn_cons.mp h with ⟨hactive, hnone, rfl, rfl, rfl⟩ | ⟨p, t, w', m, b', ws'', hactive, hp, hw, hothers, rfl, rfl⟩ |
      ⟨ws'', hrests, hothers, rfl⟩
    · obtain _ | @⟨_, v, _, vs, hv, hvs⟩ := hvs
      exact ⟨v :: vs, r, returns_workOn_cons.mpr (.inl ⟨(isRegular_of_recalls hv).trans hactive, hmodules ▸ hnone, rfl, rfl, rfl⟩),
        hsame, List.forall₂_same.mpr fun v _ => ⟨.refl v, rfl⟩, rfl⟩
    · obtain _ | @⟨_, v, _, vs, hv, hvs⟩ := hvs
      have hpass := hws.1.pass hlevel hactive
      have hkind := (hws.1.run_recalls hpass hw).trans hv
      obtain ⟨v', q, hq, hsame, hchanged, hkeeps, hnotices, hlog⟩ := hws.1.run_again hpass hw hv hsame
      obtain ⟨vs', r', hr', hsame, hothers', hlog'⟩ := ih hws.2 hothers hvs (hsame.putTree i t)
      exact ⟨v' :: vs', r', returns_workOn_cons.mpr (.inr (.inl ⟨p, t, v', q, b', vs', (isRegular_of_recalls hkind).trans hactive,
        hmodules ▸ hp, hq, hr', by rw [hchanged], rfl⟩)), hsame, .cons ⟨hkeeps, hnotices⟩ hothers', hlog'.trans hlog⟩
    · obtain _ | @⟨_, v, _, vs, hv, hvs⟩ := hvs
      obtain ⟨vs', r', hr', hsame, hothers', hlog⟩ := ih hws.2 hothers hvs hsame
      exact ⟨v :: vs', r', returns_workOn_cons.mpr (.inr (.inr ⟨vs', (isRegular_of_recalls hv).trans hrests, hr', rfl⟩)), hsame,
        .cons ⟨.refl v, rfl⟩ hothers', hlog⟩

theorem workOnAll_recalls (hlevel : level ≤ 2) (hws : ∀ w ∈ ws, w.Ready)
    (h : Returns (workOnAll (isRegular level) is ws) s (b, ws') s') : List.Forall₂ Recalls ws ws' := by
  induction is generalizing s b ws with
  | nil =>
    cases h
    exact recalls_refl _
  | cons i is ih =>
    obtain ⟨_, _, _, _, hfirst, hothers, -⟩ := returns_workOnAll_cons.mp h
    have hrecalls := workOn_recalls hlevel hws hfirst
    exact recalls_trans hrecalls (ih (ready_of_recalls hws hrecalls) hothers)

theorem workOnAll_again (hlevel : level ≤ 2) (hws : ∀ w ∈ ws, w.Ready)
    (h : Returns (workOnAll (isRegular level) is ws) s (b, ws') s') (hvs : List.Forall₂ Recalls ws' vs) (hsame : s.Resembles r) :
    ∃ vs' r', Returns (workOnAll (isRegular level) is vs) r (b, vs') r' ∧ s'.Resembles r' ∧ r'.log = r.log := by
  induction is generalizing s r b ws vs with
  | nil =>
    cases h
    exact ⟨vs, r, rfl, hsame, rfl⟩
  | cons i is ih =>
    obtain ⟨_, _, _, _, hfirst, hothers, rfl⟩ := returns_workOnAll_cons.mp h
    have hready := ready_of_recalls hws (workOn_recalls hlevel hws hfirst)
    have hlater := recalls_trans (workOnAll_recalls hlevel hready hothers) hvs
    have hcurrent : Session.Resembles { s with current := (s.modules[i]?).map (·.code) }
        { r with current := (r.modules[i]?).map (·.code) } :=
      ⟨hsame.store, rfl, hsame.modules, hsame.level, hsame.infinity, hsame.notANumber⟩
    obtain ⟨vs₁, q, hq, hsame, hunwarned, hlog⟩ := workOn_again hlevel hws hfirst hlater hcurrent
    obtain ⟨vs₂, r', hr', hsame, hlog'⟩ := ih hready hothers (recalls_trans hvs (hunwarned.imp fun _ _ h => h.1)) hsame
    exact ⟨vs₂, r', returns_workOnAll_cons.mpr ⟨_, _, q, _, hq, hr', rfl⟩, hsame, hlog'.trans hlog⟩

theorem round_again (hlevel : s.level ≤ 2) (hws : ∀ w ∈ ws, w.Ready) (h : Returns (round ws) s (b, ws') s')
    (hsame : s.Resembles s') :
    ∃ ws'' s'', Returns (round ws') s' (b, ws'') s'' ∧ s'.Resembles s'' ∧ s''.log = s'.log := by
  have hall := returns_get_bind.mp h
  obtain ⟨ws'', s'', hall', hsame', hlog⟩ := workOnAll_again hlevel hws hall (recalls_refl _) hsame
  have hlevel' : s'.level = s.level := hsame.level
  have hmodules : s'.modules = s.modules := hsame.modules
  refine ⟨ws'', s'', .bind rfl ?_, hsame', hlog⟩
  rw [hlevel', hmodules]
  exact hall'

end Pipeline

end SourceOptimizer
