import SourceOptimizer.Proofs.RepeatedRounds

/-! What passes report. Deciding branches, unrolling loops and removing documentation report every change they make: a
visit that reports none has left the tree and all shared nodes as they were. -/
namespace SourceOptimizer
open Store Tree Work

namespace Work

variable {t : Tree}
variable {α β : Type}

def Persists (x : Work α) : Prop := ∀ s a s', Returns x s a s' → s.changed = true → s'.changed = true

theorem Persists.of_fixes {x : Work α} (h : Fixes Session.changed x) : Persists x := by
  intro s a s' hr hchanged
  exact (h s a s' hr).trans hchanged

theorem Persists.bind {x : Work α} {f : α → Work β} (hx : Persists x) (hf : ∀ a, Persists (f a)) : Persists (x >>= f) := by
  intro s b s' h hchanged
  obtain ⟨a, m, ha, hb⟩ := returns_bind.mp h
  exact hf a m b s' hb (hx s a m ha hchanged)

theorem persists_done : Persists done := by
  intro s a s' h _
  rw [← returns_done.mp h]

theorem compositional_persists : Compositional fun _ x => Persists x where
  pure a := .of_fixes (.pure a)
  throw e := .of_fixes (.throw e)
  bind := .bind
  look t := .of_fixes (.look t)
  keep t := .of_fixes (fixes_keep (fun _ _ => rfl) t)
  adopt t := .of_fixes (fixes_adopt (fun _ _ => rfl) t)
  done := persists_done
  flag message nodes := .of_fixes (fixes_flag (fun _ _ _ => rfl) message nodes)

/-- Work that, unless it reports a change, gives `a` and leaves the session as it was. -/
def Spares (q : Store) (x : Work α) (a : α) : Prop :=
  ∀ s b s', s.store.view = q.view → Returns x s b s' → s'.changed = false → b = a ∧ s.Alike s'

/-- Work that never takes a report back and, where `c` holds, gives what is `ok` and leaves the session as it was
unless it reports a change. -/
structure Sparing (q : Store) (c : Prop) (x : Work α) (ok : α → Prop) : Prop where
  persists : Persists x
  spares : c → ∀ s b s', s.store.view = q.view → Returns x s b s' → s'.changed = false → ok b ∧ s.Alike s'

namespace Sparing
variable {q : Store} {c d : Prop} {ok : α → Prop} {x : Work α}

theorem weaken (h : Sparing q c x ok) (hd : d → c) : Sparing q d x ok := ⟨h.persists, fun hc => h.spares (hd hc)⟩

theorem imp {ok' : α → Prop} (h : Sparing q c x ok) (himp : c → ∀ a, ok a → ok' a) : Sparing q c x ok' where
  persists := h.persists
  spares hc s b s' hview hr hquiet := (h.spares hc s b s' hview hr hquiet).imp_left (himp hc b)

theorem pure {a : α} (h : c → ok a) : Sparing q c (pure a) ok where
  persists := .of_fixes (.pure a)
  spares hc s b s' _ hr _ := by
    cases hr
    exact ⟨h hc, .refl s⟩

theorem bind {f : α → Work β} {ok' : β → Prop} (hx : Sparing q c x ok) (hf : ∀ a, Sparing q (c ∧ ok a) (f a) ok') :
    Sparing q c (x >>= f) ok' where
  persists := .bind hx.persists fun a => (hf a).persists
  spares hc s b s' hview hr hquiet := by
    obtain ⟨a, m, ha, hb⟩ := returns_bind.mp hr
    have hm : m.changed = false := by
      cases hchanged : m.changed with
      | false => rfl
      | true => exact absurd ((hf a).persists m b s' hb hchanged) (by simp [hquiet])
    obtain ⟨hok, hsame⟩ := hx.spares hc s a m hview ha hm
    obtain ⟨hok', hsame'⟩ := (hf a).spares ⟨hc, hok⟩ m b s' (hsame.store.view.trans hview) hb hquiet
    exact ⟨hok', hsame.trans hsame'⟩

theorem throw (e : Fault) : Sparing q c (throw e) ok := ⟨.of_fixes (.throw e), fun _ _ _ _ _ h _ => absurd h returns_throw⟩

theorem get_bind {f : Session → Work α} (hf : ∀ s, Sparing q c (f s) ok) : Sparing q c (get >>= f) ok where
  persists := .bind (.of_fixes .get) fun s => (hf s).persists
  spares hc s b s' hview hr hquiet := (hf s).spares hc s b s' hview (returns_get_bind.mp hr) hquiet

theorem look (t : Tree) : Sparing q c (look t) (· = q.look t) where
  persists := .of_fixes (.look t)
  spares _ s u s' hview h _ := by
    cases h
    refine ⟨?_, .refl s⟩
    cases t with
    | shared id =>
      have hid : s.store.nodes[id]? = q.nodes[id]? := congrFun hview id
      simp only [Store.look, hid]
    | _ => rfl

theorem literal? (t : Tree) : Sparing q c (Pass.literal? t) fun _ => True := .bind (.look t) fun _ => .pure fun _ => trivial

theorem flag (message : String) (nodes : List Tree) : Sparing q c (flag message nodes) fun _ => True where
  persists := .of_fixes (fixes_flag (fun _ _ _ => rfl) message nodes)
  spares _ s b s' _ h _ := by
    have hkept := fixes_flag (f := fun s => (s.store, s.changed, s.modules, s.level, s.infinity, s.notANumber))
      (fun _ _ _ => rfl) message nodes _ _ _ h
    simp only [Prod.mk.injEq] at hkept
    obtain ⟨hstore, hchanged, hmodules, hlevel, hinfinity, hnan⟩ := hkept
    exact ⟨trivial, hstore ▸ .refl _, hchanged, hmodules, hlevel, hinfinity, hnan⟩

theorem of_changed (h : ∀ s b s', Returns x s b s' → s'.changed = true) : Sparing q c x ok where
  persists s b s' hr _ := h s b s' hr
  spares _ s b s' _ hr hquiet := absurd (h s b s' hr) (by simp [hquiet])

theorem done_bind {f : Unit → Work α} (hf : Persists (f ())) : Sparing q c (Work.done >>= f) ok :=
  of_changed fun _ b s' h => hf _ b s' (returns_modify_bind.mp h) rfl

theorem done_return (a : α) : Sparing q c (do Work.done; return a) ok := done_bind (.of_fixes (.pure a))

theorem mapM {f : α → Work α} {as : List α} (hf : ∀ a ∈ as, Sparing q c (f a) (· = a)) :
    Sparing q c (as.mapM f) (· = as) := by
  induction as with
  | nil => exact .pure fun _ => rfl
  | cons a as ih =>
    simp only [List.mem_cons, forall_eq_or_imp] at hf
    rw [List.mapM_cons]
    refine .bind hf.1 fun _ => .bind ((ih hf.2).weaken And.left) fun _ => .pure ?_
    rintro ⟨⟨_, h⟩, h'⟩
    rw [h, h']

end Sparing
end Work

/-! ## Visits -/

namespace Pass
variable {q : Store} {tag : Tag} {kind : Kind} {parts : List Tree}

/-- A node that stands in a tree or in the store, beside its parts. -/
structure Stands (q : Store) (tag : Tag) (kind : Kind) (parts : List Tree) : Prop where
  outside : ∀ id ∈ idsAll parts, q.view id = none
  here : q.view tag.id = none ∨ q.view tag.id = some (.node tag kind parts) ∧ idsAll parts = []

theorem keep_spares {c : Prop} (h : c → Stands q tag kind parts) :
    Sparing q c (Work.keep (.node tag kind parts)) fun _ => True where
  persists := .of_fixes (fixes_keep (fun _ _ => rfl) _)
  spares hc s b s' hview hr _ := by
    obtain rfl := returns_keep.mp hr
    refine ⟨trivial, ?_, rfl, rfl, rfl, rfl, rfl⟩
    rcases (h hc).here with hnone | ⟨hsome, hbare⟩
    · rw [keep_of_unstored (hview ▸ hnone)]
      exact .refl _
    · rw [← hview] at hsome
      rw [keep_of_stored (by simp [hsome]), shareAll_of_bare _ _ hbare]
      refine ⟨?_, rfl⟩
      funext other
      rw [view_insert]
      split
      next heq => rw [heq, hsome]
      next => rfl

theorem descend_spares {c : Prop} {visited : Work (List Tree)} (h : c → Stands q tag kind parts)
    (hvisited : Sparing q c visited (· = parts)) : Sparing q c (descend tag kind visited) (· = [.node tag kind parts]) :=
  .bind hvisited fun _ => .bind (keep_spares fun ⟨hc, heq⟩ => heq ▸ h hc) fun _ => .pure fun ⟨⟨_, heq⟩, _⟩ => by rw [heq]

theorem stands_of_outside (h : ∀ id ∈ ids (.node tag kind parts), q.view id = none) : Stands q tag kind parts where
  outside id hid := h id (List.mem_cons_of_mem _ hid)
  here := .inl (h tag.id (by simp [ids]))

theorem stands_of_stored {id : Nat} (hq : q.Sound) (h : q.view id = some t) :
    ∃ tag kind parts, t = .node tag kind parts ∧ tag.id = id ∧ Stands q tag kind parts := by
  obtain ⟨tag, kind, parts, rfl, rfl, hbare, _⟩ := hq.stored h
  exact ⟨tag, kind, parts, rfl, rfl, by simp [hbare], .inr ⟨h, hbare⟩⟩

theorem stands_of_look (hq : q.Sound) (ht : ∀ id ∈ ids t, q.view id = none) (h : q.look t = .node tag kind parts) :
    Stands q tag kind parts := by
  cases t with
  | node _ _ _ =>
    cases h
    exact stands_of_outside ht
  | shared id =>
    cases hview : q.view id with
    | none =>
      have hid : q.nodes[id]? = none := hview
      simp [Store.look, hid] at h
    | some u =>
      have hid : q.nodes[id]? = some u := hview
      obtain ⟨tag', kind', parts', rfl, _, hstands⟩ := stands_of_stored hq hview
      simp only [Store.look, hid, Option.getD_some, node.injEq] at h
      obtain ⟨rfl, rfl, rfl⟩ := h
      exact hstands
  | seq _ => cases h
  | absent => cases h

/-- A step that reports all that it changes. -/
structure Reports (step : Step Work) : Prop where
  persists : Compositional.OfStep (fun _ x => Persists x) step
  spares : ∀ {q : Store} {tag kind parts visited}, q.Sound → Stands q tag kind parts → Persists visited →
    Spares q visited parts → Spares q (step tag kind parts visited) [.node tag kind parts]

theorem Reports.of_sparing {step : Step Work} (h : ∀ {q : Store} {c : Prop} {tag kind parts visited},
    (c → q.Sound ∧ Stands q tag kind parts) → Sparing q c visited (· = parts) →
      Sparing q c (step tag kind parts visited) (· = [.node tag kind parts])) : Reports step where
  persists _ _ _ _ hvisited := (h (q := {}) (c := False) False.elim ⟨hvisited, False.elim⟩).persists
  spares hq hstands hpersists hvisited :=
    (h (c := True) (fun _ => ⟨hq, hstands⟩) ⟨hpersists, fun _ => hvisited⟩).spares trivial

structure Steady (q : Store) (step : Step Work) (again : Nat → Work (List Tree)) : Prop where
  sound : q.Sound
  reports : Reports step
  persists : ∀ id, Persists (again id)
  spares : ∀ {id t}, q.view id = some t → Readable .itself q [t] → Spares q (again id) [.shared id]

section
variable {step : Step Work} {again : Nat → Work (List Tree)}

theorem Steady.node (h : Steady q step again) (hstands : Stands q tag kind parts)
    (hparts : Sparing q True (visitParts step again parts) (· = parts)) :
    Sparing q True (visit step again (.node tag kind parts)) (· = [.node tag kind parts]) where
  persists := h.reports.persists tag kind parts _ hparts.persists
  spares _ := h.reports.spares h.sound hstands hparts.persists (hparts.spares trivial)

mutual

theorem visit_spares (h : Steady q step again) : (t : Tree) → (∀ id ∈ ids t, q.view id = none) →
    Readable .itself q [t] → Sparing q True (visit step again t) (· = [t])
  | .node tag kind parts, hids, ⟨_, hread⟩ => by
    cases hread with
    | node hparts _ _ =>
      have hstands := stands_of_outside hids
      exact h.node hstands (visitAll_spares h parts hstands.outside ⟨_, hparts⟩).1
  | .seq items, hids, ⟨_, hread⟩ => by
    cases hread with
    | seq hitems _ =>
      exact .bind (visitAll_spares h items hids ⟨_, hitems⟩).2 fun _ => .pure fun ⟨_, heq⟩ => by rw [heq]
  | .absent, _, _ => .pure fun _ => rfl
  | .shared id, _, ⟨_, hread⟩ => by
    cases hread with
    | shared hview hnode _ => exact ⟨h.persists id, fun _ => h.spares hview ⟨_, hnode⟩⟩

theorem visitAll_spares (h : Steady q step again) : (ts : List Tree) → (∀ id ∈ idsAll ts, q.view id = none) →
    Readable .itself q ts →
      Sparing q True (visitParts step again ts) (· = ts) ∧ Sparing q True (visitItems step again ts) (· = ts)
  | [], _, _ => ⟨.pure fun _ => rfl, .pure fun _ => rfl⟩
  | t :: ts, hids, ⟨_, hread⟩ => by
    obtain ⟨_, _, _, ht, hts⟩ := hread.uncons
    have hhead := visit_spares h t (fun id hid => hids id (List.mem_append_left _ hid)) ⟨_, ht⟩
    obtain ⟨hparts, hitems⟩ := visitAll_spares h ts (fun id hid => hids id (List.mem_append_right _ hid)) ⟨_, hts⟩
    exact ⟨.bind hhead fun _ => .bind (hparts.weaken fun _ => trivial) fun _ =>
        .pure fun ⟨⟨_, heq⟩, heq'⟩ => by rw [heq, heq']; rfl,
      .bind hhead fun _ => .bind (hitems.weaken fun _ => trivial) fun _ =>
        .pure fun ⟨⟨_, heq⟩, heq'⟩ => by rw [heq, heq']; rfl⟩

end

theorem again_spares {id : Nat} {depth : Nat} (hq : q.Sound) (hview : q.view id = some t)
    (h : Sparing q True (visitWithin fetch step depth t) (· = [t])) (hpersists : ∀ t, Persists (visitWithin fetch step depth t)) :
    Spares q (do
      let results ← visitWithin fetch step depth (← fetch id)
      return results.map (refer id)) [.shared id] := by
  have hid : q.nodes[id]? = some t := hview
  have hall : Sparing q True (do
      let results ← visitWithin fetch step depth (← fetch id)
      return results.map (refer id)) (· = [.shared id]) := by
    have hvisit (u : Tree) : Sparing q (True ∧ u = q.look (.shared id)) (visitWithin fetch step depth u) (· = [t]) := by
      refine ⟨hpersists u, fun ⟨_, hu⟩ => ?_⟩
      obtain rfl : u = t := hu.trans (by simp [Store.look, hid])
      exact h.spares trivial
    refine .bind (.look _) fun u => .bind (hvisit u) fun results => .pure ?_
    rintro ⟨_, rfl⟩
    obtain ⟨tag, kind, parts, rfl, rfl, _⟩ := stands_of_stored hq hview
    simp [refer, Tree.id?]
  exact hall.spares trivial

theorem steady_visitWithin (hstep : Reports step) (hq : q.Sound) (depth : Nat) :
    Steady q step (fun id => do
      let results ← visitWithin fetch step depth (← fetch id)
      return results.map (refer id)) := by
  have hpersists (depth : Nat) (t : Tree) : Persists (visitWithin fetch step depth t) :=
    compositional_persists.visitWithin hstep.persists depth t
  induction depth with
  | zero =>
    exact ⟨hq, hstep, fun id => .bind (compositional_persists.look _) fun t => .bind (hpersists 0 t) fun _ =>
      compositional_persists.pure _, fun hview _ => again_spares hq hview (.pure fun _ => rfl) (hpersists 0)⟩
  | succ depth ih =>
    refine ⟨hq, hstep, fun id => .bind (compositional_persists.look _) fun t => .bind (hpersists _ t) fun _ =>
      compositional_persists.pure _, fun hview hread => again_spares hq hview ?_ (hpersists (depth + 1))⟩
    obtain ⟨_, hread⟩ := hread
    obtain ⟨tag, kind, parts, rfl, _, hstands⟩ := stands_of_stored hq hview
    cases hread with
    | node hparts _ _ => exact ih.node hstands (visitAll_spares ih parts hstands.outside ⟨_, hparts⟩).1

/-- A pass that reports what it changes leaves a program as it is if it reports nothing. -/
theorem Reports.run_spares (hstep : Reports step) (ht : q.Carries t) : Spares q (run step t) t := by
  have hids : ∀ id ∈ ids t, q.view id = none := fun id hid => ht.places.outside id (by simpa [idsAll] using hid)
  obtain ⟨u, hread⟩ := ht.resolves
  have hvisit (depth : Nat) : Sparing q True (visitWithin fetch step depth t) (· = [t]) := by
    cases depth with
    | zero => exact .pure fun _ => rfl
    | succ depth => exact visit_spares (steady_visitWithin hstep ht.sound depth) t hids ⟨_, hread⟩
  have hrun : Sparing q True (run step t) (· = t) :=
    .get_bind fun s => .bind (hvisit _) fun _ => .pure fun ⟨_, heq⟩ => by rw [heq]; rfl
  exact hrun.spares trivial

end

/-! ## Passes that report all they change -/

theorem DeadBranch.reports : Reports DeadBranch.step := by
  refine .of_sparing fun {q c tag kind parts visited} h hvisited => ?_
  refine .bind hvisited fun parts' => .bind (keep_spares fun ⟨hc, heq⟩ => heq ▸ (h hc).2) fun _ => ?_
  refine ⟨compositional_persists.choose tag kind parts', ?_⟩
  rintro ⟨⟨_, rfl⟩, _⟩ s ts s' _ hr hquiet
  obtain ⟨-, rfl, rfl⟩ | ⟨-, rfl⟩ := DeadBranch.returns_choose hr
  · exact ⟨rfl, .refl _⟩
  · cases hquiet

theorem Unroll.reports : Reports Unroll.step := by
  refine .of_sparing fun {q c tag kind parts visited} h hvisited => ?_
  have hleave := descend_spares (fun hc => (h hc).2) hvisited
  unfold Unroll.step
  split
  · refine .get_bind fun s => ?_
    dsimp only
    split
    · split
      · exact .pure fun _ => rfl
      · split
        · exact .bind (.flag _ _) fun _ => hleave.weaken And.left
        · split
          · exact hleave
          · -- an unrolled loop is reported
            refine .of_changed fun s ts s' hr => ?_
            obtain ⟨_, _, _, hr⟩ := returns_bind.mp hr
            obtain ⟨_, _, _, hr⟩ := returns_bind.mp hr
            exact Persists.bind (compositional_persists.adopt _) (fun _ => compositional_persists.pure _) _ _ _
              (returns_modify_bind.mp hr) rfl
    · exact hleave
  · exact hleave

namespace Documentation
variable {c : Prop}

def Outside (q : Store) (t : Tree) : Prop := q.Sound ∧ ∀ id ∈ ids t, q.view id = none

theorem revise_spares {k : List Tree → Work (List Tree)} (ht : c → Outside q t)
    (hk : ∀ {d : Prop} {tag kind} parts, (d → q.Sound ∧ Stands q tag kind parts) → Sparing q d (k parts) (· = parts)) :
    Sparing q c (revise t k) (· = t) := by
  refine .bind (.look t) fun u => ?_
  split
  next tag kind parts =>
    have hstands : c ∧ .node tag kind parts = q.look t → q.Sound ∧ Stands q tag kind parts :=
      fun h => ⟨(ht h.1).1, stands_of_look (ht h.1).1 (ht h.1).2 h.2.symm⟩
    refine .bind (hk parts hstands) fun parts' => .bind (keep_spares fun h => h.2 ▸ (hstands h.1).2) fun _ => ?_
    split
    next => exact .pure fun _ => rfl
    next hnode =>
      refine .pure ?_
      rintro ⟨⟨⟨_, hlook⟩, rfl⟩, _⟩
      rw [hlook]
      cases t with
      | shared id => exact absurd rfl (hnode id)
      | _ => rfl
  next => exact .pure fun _ => rfl

theorem stripParameter_spares (ht : c → Outside q t) : Sparing q c (stripParameter t) (· = t) := by
  refine revise_spares ht fun parts _ => ?_
  split
  · split
    · exact .pure fun _ => rfl
    · exact .done_return _
  · exact .pure fun _ => rfl

theorem stripAll_spares {ts : List Tree} (hts : c → Outside q (.seq ts)) : Sparing q c (ts.mapM stripParameter) (· = ts) :=
  .mapM fun _ ht => stripParameter_spares fun hc =>
    ⟨(hts hc).1, fun i hi => (hts hc).2 i ((ids_sublist_idsAll ht).subset hi)⟩

theorem stripVariadic_spares (ht : c → Outside q t) : Sparing q c (stripVariadic t) (· = t) := by
  unfold stripVariadic
  split
  · exact .pure fun _ => rfl
  · exact stripParameter_spares ht

theorem stripKeywordVariadic_spares (v : Tree) (ht : c → Outside q t) :
    Sparing q c (stripKeywordVariadic v t) (· = t) := by
  have htype : Sparing q c (hasType v) fun _ => True := by
    refine .bind (.look v) fun u => ?_
    split <;> exact .pure fun _ => trivial
  unfold stripKeywordVariadic
  split
  · exact .pure fun _ => rfl
  · split
    · exact .throw _
    · refine .bind htype fun b => ?_
      split
      · exact stripParameter_spares fun h => ht h.1
      · exact .pure fun _ => rfl

theorem stripParameters_spares (ht : c → Outside q t) : Sparing q c (stripParameters t) (· = t) := by
  refine revise_spares ht fun {d tag kind} parts h => ?_
  split
  next positional plain variadic keywordOnly keywordDefaults keywordVariadic defaults =>
    have hout {u : Tree} (hu : ids u ⊆ idsAll [positional, .seq plain, variadic, .seq keywordOnly, keywordDefaults,
        keywordVariadic, defaults]) (hd : d) : Outside q u := ⟨(h hd).1, fun id hid => (h hd).2.outside id (hu hid)⟩
    refine .bind (stripAll_spares (hout ?_)) fun _ => .bind (stripAll_spares fun h => hout ?_ h.1) fun _ =>
      .bind (stripVariadic_spares fun h => hout ?_ h.1.1) fun _ =>
        .bind (stripKeywordVariadic_spares _ fun h => hout ?_ h.1.1.1) fun _ => .pure ?_
    case refine_5 =>
      rintro ⟨⟨⟨⟨_, rfl⟩, rfl⟩, rfl⟩, rfl⟩
      rfl
    all_goals
      intro id hid
      simp only [idsAll, ids, List.mem_append] at hid ⊢
      simp [hid]
  next => exact .pure fun _ => rfl

theorem isText_spares (t : Tree) : Sparing q c (isText t) fun _ => True := by
  refine .bind (.look t) fun u => ?_
  split
  · refine .bind (.literal? _) fun l => ?_
    split <;> exact .pure fun _ => trivial
  · exact .pure fun _ => trivial

theorem stripBody_spares (body : List Tree) : Sparing q c (stripBody body) (· = body) := by
  induction body with
  | nil => exact .pure fun _ => rfl
  | cons t ts ih =>
    refine .bind (isText_spares t) fun b => ?_
    split
    · exact .done_bind ih.persists
    · exact .bind (ih.weaken And.left) fun _ => .pure fun ⟨_, heq⟩ => by rw [heq]

theorem documentedBody_spares (body : List Tree) : Sparing q c (documentedBody body) (· = .seq body) := by
  refine .bind (stripBody_spares body) fun us => ?_
  split
  · exact .done_bind (.bind (compositional_persists.adopt _) fun _ => compositional_persists.pure _)
  · exact .pure fun ⟨_, heq⟩ => by rw [heq]

theorem dropResult_spares (t : Tree) : Sparing q c (dropResult t) (· = t) := by
  unfold dropResult
  split
  · exact .pure fun _ => rfl
  · exact .done_return _

theorem strip_spares (h : c → q.Sound ∧ Stands q tag kind parts) : Sparing q c (strip kind parts) (· = parts) := by
  unfold strip
  split
  next parameters body decorators result =>
    have hout (hc : c) : Outside q parameters :=
      ⟨(h hc).1, fun id hid => (h hc).2.outside id (by simp [idsAll, hid])⟩
    refine .bind (stripParameters_spares hout) fun _ => .bind (dropResult_spares result) fun _ =>
      .bind (documentedBody_spares body) fun _ => .pure ?_
    rintro ⟨⟨⟨_, rfl⟩, rfl⟩, rfl⟩
    rfl
  · exact .bind (documentedBody_spares _) fun _ => .pure fun ⟨_, heq⟩ => by rw [heq]
  · exact .bind (documentedBody_spares _) fun _ => .pure fun ⟨_, heq⟩ => by rw [heq]
  · exact .pure fun _ => rfl

theorem reports : Reports step := by
  refine .of_sparing fun {q c tag kind parts visited} h hvisited => ?_
  refine descend_spares (fun hc => (h hc).2) (.bind hvisited fun parts' => ?_)
  refine (strip_spares fun ⟨hc, heq⟩ => heq ▸ h hc).imp ?_
  rintro ⟨_, rfl⟩ _ heq
  exact heq

end Documentation
end Pass
end SourceOptimizer
