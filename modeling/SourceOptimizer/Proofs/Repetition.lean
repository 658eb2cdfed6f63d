import SourceOptimizer.Proofs.Observation
import SourceOptimizer.Proofs.Renaming
import SourceOptimizer.Proofs.Rounds

/-! Running passes again. What a pass does depends on which nodes are shared, not on how the store is laid out
or what was written to the log, and a warning that was given once is not given again. -/
namespace SourceOptimizer
open Tree Work

variable {f : Naming → Naming}

variable {again : Nat → Nat → Store → Store} {s s' : Session} {n m : Naming}

/-! ## Stores -/

namespace Store
variable {s r : Store} {t : Tree}

structure Alike (s r : Store) : Prop where
  view : r.view = s.view
  next : r.next = s.next

namespace Alike

theorem refl (s : Store) : Alike s s := ⟨rfl, rfl⟩

theorem symm (h : Alike s r) : Alike r s := ⟨h.view.symm, h.next.symm⟩

theorem trans {q : Store} (h : Alike s r) (h' : Alike r q) : Alike s q :=
  ⟨h'.view.trans h.view, h'.next.trans h.next⟩

theorem get (h : Alike s r) (id : Nat) : r.nodes[id]? = s.nodes[id]? := congrFun h.view id

theorem look (h : Alike s r) (t : Tree) : r.look t = s.look t := by
  cases t with
  | shared id => simp only [Store.look, h.get id]
  | _ => rfl

theorem size (h : Alike s r) : r.nodes.size = s.nodes.size :=
  (Std.HashMap.Equiv.of_forall_getElem?_eq h.get).size_eq

theorem insert (h : Alike s r) (id : Nat) (t : Tree) :
    Alike { s with nodes := s.nodes.insert id t } { r with nodes := r.nodes.insert id t } where
  view := by
    funext other
    rw [view_insert, view_insert, h.view]
  next := h.next

theorem adopt (h : Alike s r) (t : Tree) : (r.adopt t).1 = (s.adopt t).1 ∧ Alike (s.adopt t).2 (r.adopt t).2 := by
  simp only [Store.adopt, h.next]
  exact ⟨trivial, h.view, rfl⟩

mutual

theorem share {s r : Store} (h : Alike s r) :
    (t : Tree) → (r.share t).1 = (s.share t).1 ∧ Alike (s.share t).2 (r.share t).2
  | .node tag kind parts => by
    obtain ⟨hparts, hstore⟩ := shareAll h parts
    simp only [Store.share, hparts]
    exact ⟨trivial, hstore.insert tag.id _⟩
  | .seq items => by
    obtain ⟨hitems, hstore⟩ := shareAll h items
    simp only [Store.share, hitems]
    exact ⟨trivial, hstore⟩
  | .absent => ⟨rfl, h⟩
  | .shared _ => ⟨rfl, h⟩

theorem shareAll {s r : Store} (h : Alike s r) :
    (ts : List Tree) → (r.shareAll ts).1 = (s.shareAll ts).1 ∧ Alike (s.shareAll ts).2 (r.shareAll ts).2
  | [] => ⟨rfl, h⟩
  | t :: ts => by
    obtain ⟨ht, hstore⟩ := share h t
    obtain ⟨hts, hstore⟩ := shareAll hstore ts
    simp only [Store.shareAll, ht, hts]
    exact ⟨trivial, hstore⟩

end

theorem keep (h : Alike s r) (t : Tree) : Alike (s.keep t) (r.keep t) := by
  cases t with
  | node tag kind parts =>
    by_cases hstored : s.view tag.id = none
    · rw [keep_of_unstored hstored, keep_of_unstored (h.view ▸ hstored)]
      exact h
    · rw [keep_of_stored hstored, keep_of_stored (h.view ▸ hstored)]
      obtain ⟨hparts, hstore⟩ := h.shareAll parts
      rw [hparts]
      exact hstore.insert tag.id _
  | _ => exact h

theorem expandWithin (h : Alike s r) (depth : Nat) (t : Tree) : r.expandWithin depth t = s.expandWithin depth t := by
  induction depth generalizing t with
  | zero => rfl
  | succ depth ih => simp only [Store.expandWithin, h.get, ih]

theorem expand (h : Alike s r) (t : Tree) : r.expand t = s.expand t := by
  rw [Store.expand, Store.expand, h.size, h.expandWithin]

/-- What is done to a shared node on the way does not depend on the layout. -/
def Uniform (again : Nat → Nat → Store → Store) : Prop :=
  ∀ line id {s r : Store}, Alike s r → Alike (again line id s) (again line id r)

mutual

theorem locateWith (hagain : Uniform again) {s r : Store} (h : Alike s r) :
    (line : Nat) → (t : Tree) → (Store.locateWith again line t r).1 = (Store.locateWith again line t s).1 ∧
      Alike (Store.locateWith again line t s).2 (Store.locateWith again line t r).2
  | line, .node tag kind parts => by
    obtain ⟨hparts, hstore⟩ := locateAll hagain h (if kind.hasLine then
      (if kind.hasLine && tag.line.isNone then { tag with line := some line } else tag).line.getD line else line) parts
    simp only [Store.locateWith, hparts]
    exact ⟨trivial, hstore⟩
  | line, .seq items => by
    obtain ⟨hitems, hstore⟩ := locateAll hagain h line items
    simp only [Store.locateWith, hitems]
    exact ⟨trivial, hstore⟩
  | _, .absent => ⟨rfl, h⟩
  | line, .shared id => ⟨rfl, hagain line id h⟩

theorem locateAll (hagain : Uniform again) {s r : Store} (h : Alike s r) :
    (line : Nat) → (ts : List Tree) → (Store.locateAll again line ts r).1 = (Store.locateAll again line ts s).1 ∧
      Alike (Store.locateAll again line ts s).2 (Store.locateAll again line ts r).2
  | _, [] => ⟨rfl, h⟩
  | line, t :: ts => by
    obtain ⟨ht, hstore⟩ := locateWith hagain h line t
    obtain ⟨hts, hstore⟩ := locateAll hagain hstore line ts
    simp only [Store.locateAll, ht, hts]
    exact ⟨trivial, hstore⟩

end

theorem locateWithin (depth : Nat) {s r : Store} (h : Alike s r) (line : Nat) (t : Tree) :
    (Store.locateWithin depth line t r).1 = (Store.locateWithin depth line t s).1 ∧
      Alike (Store.locateWithin depth line t s).2 (Store.locateWithin depth line t r).2 := by
  induction depth generalizing s r line t with
  | zero => exact ⟨rfl, h⟩
  | succ depth ih =>
    refine locateWith ?_ h line t
    intro line id s r h
    simp only [h.get id]
    cases s.nodes[id]? with
    | none => exact h
    | some t =>
      obtain ⟨ht, hstore⟩ := ih h line t
      simp only [ht]
      exact hstore.insert id _

theorem locate (h : Alike s r) (t : Tree) : (r.locate t).1 = (s.locate t).1 ∧ Alike (s.locate t).2 (r.locate t).2 := by
  rw [Store.locate, Store.locate, h.size]
  exact locateWithin _ h 1 t

end Alike
end Store

/-! ## Sessions -/

namespace Session
variable {r : Session}

/-- The same in all that passes go by. -/
structure Alike (s r : Session) : Prop where
  store : s.store.Alike r.store
  changed : r.changed = s.changed
  modules : r.modules = s.modules
  level : r.level = s.level
  infinity : r.infinity = s.infinity
  notANumber : r.notANumber = s.notANumber

theorem Alike.refl (s : Session) : Alike s s := ⟨.refl _, rfl, rfl, rfl, rfl, rfl⟩

theorem Alike.symm (h : Alike s r) : Alike r s :=
  ⟨h.store.symm, h.changed.symm, h.modules.symm, h.level.symm, h.infinity.symm, h.notANumber.symm⟩

theorem Alike.trans {q : Session} (h : Alike s r) (h' : Alike r q) : Alike s q :=
  ⟨h.store.trans h'.store, h'.changed.trans h.changed, h'.modules.trans h.modules, h'.level.trans h.level,
    h'.infinity.trans h.infinity, h'.notANumber.trans h.notANumber⟩

theorem Alike.withStore (h : Alike s r) {a b : Store} (hstore : a.Alike b) :
    Alike { s with store := a } { r with store := b } :=
  ⟨hstore, h.changed, h.modules, h.level, h.infinity, h.notANumber⟩

end Session

namespace Work
variable {α β : Type}

/-- Work that goes the same way in sessions that are alike, and neither warns nor writes to the log. -/
structure Mirrors (x : Work α) : Prop where
  result : ∀ {s r}, s.Alike r → (outcome x r).1 = (outcome x s).1
  alike : ∀ {s r}, s.Alike r → (outcome x s).2.Alike (outcome x r).2
  notices : ∀ s, (outcome x s).2.notices = s.notices
  log : ∀ s, (outcome x s).2.log = s.log

namespace Mirrors

theorem of_update {x : Work α} (result : Session → Except Fault α) (next : Session → Session)
    (hx : ∀ s, outcome x s = (result s, next s)) (hresult : ∀ {s r}, s.Alike r → result r = result s)
    (hnext : ∀ {s r}, s.Alike r → (next s).Alike (next r)) (hnotices : ∀ s, (next s).notices = s.notices)
    (hlog : ∀ s, (next s).log = s.log) : Mirrors x where
  result h := by rw [hx, hx, hresult h]
  alike h := by
    rw [hx, hx]
    exact hnext h
  notices s := by rw [hx, hnotices]
  log s := by rw [hx, hlog]

theorem pure (a : α) : Mirrors (pure a : Work α) :=
  of_update (fun _ => .ok a) id (fun _ => rfl) (fun _ => rfl) id (fun _ => rfl) fun _ => rfl

theorem throw (e : Fault) : Mirrors (throw e : Work α) :=
  of_update (fun _ => .error e) id (fun _ => rfl) (fun _ => rfl) id (fun _ => rfl) fun _ => rfl

theorem bind {x : Work α} {f : α → Work β} (hx : Mirrors x) (hf : ∀ a, Mirrors (f a)) : Mirrors (x >>= f) := by
  -- the two runs of `x` end alike, so that they go on with the same work or stop with the same fault
  have hboth {s r : Session} (h : s.Alike r) : (∃ a m q, outcome x s = (.ok a, m) ∧ outcome x r = (.ok a, q) ∧ m.Alike q) ∨
      ∃ e m q, outcome x s = (.error e, m) ∧ outcome x r = (.error e, q) ∧ m.Alike q := by
    have hresult := hx.result h
    have halike := hx.alike h
    rcases hs : outcome x s with ⟨a, m⟩
    rcases hr : outcome x r with ⟨b, q⟩
    rw [hs, hr] at hresult halike
    cases hresult
    cases a with
    | error e => exact .inr ⟨e, m, q, rfl, rfl, halike⟩
    | ok a => exact .inl ⟨a, m, q, rfl, rfl, halike⟩
  have hone {γ : Type} (g : Session → γ) (hg : ∀ s, g (outcome x s).2 = g s) (hg' : ∀ a s, g (outcome (f a) s).2 = g s)
      (s : Session) : g (outcome (x >>= f) s).2 = g s := by
    have hfirst := hg s
    rw [outcome_bind]
    rcases hs : outcome x s with ⟨e | a, m⟩ <;> rw [hs] at hfirst
    · exact hfirst
    · exact (hg' a m).trans hfirst
  refine ⟨fun h => ?_, fun h => ?_, hone _ hx.notices fun a => (hf a).notices, hone _ hx.log fun a => (hf a).log⟩
  · rcases hboth h with ⟨a, m, q, hs, hr, halike⟩ | ⟨e, m, q, hs, hr, halike⟩
    · rw [outcome_bind, outcome_bind, hs, hr]
      exact (hf a).result halike
    · rw [outcome_bind, outcome_bind, hs, hr]
  · rcases hboth h with ⟨a, m, q, hs, hr, halike⟩ | ⟨e, m, q, hs, hr, halike⟩
    · rw [outcome_bind, outcome_bind, hs, hr]
      exact (hf a).alike halike
    · rw [outcome_bind, outcome_bind, hs, hr]
      exact halike

theorem get {f : Session → Work α} (hf : ∀ s, Mirrors (f s)) (hsame : ∀ {s r}, s.Alike r → f r = f s) :
    Mirrors (get >>= f) where
  result {s r} h := by
    rw [show outcome (MonadState.get >>= f) r = outcome (f r) r from rfl, hsame h]
    exact (hf s).result h
  alike {s r} h := by
    rw [show outcome (MonadState.get >>= f) r = outcome (f r) r from rfl, hsame h]
    exact (hf s).alike h
  notices s := (hf s).notices s
  log s := (hf s).log s

theorem look (t : Tree) : Mirrors (look t) := .get (fun _ => .pure _) fun h => by rw [h.store.look]

theorem done : Mirrors done :=
  of_update (fun _ => .ok ()) (fun s => { s with changed := true }) (fun _ => rfl) (fun _ => rfl)
    (fun h => ⟨h.store, rfl, h.modules, h.level, h.infinity, h.notANumber⟩) (fun _ => rfl) fun _ => rfl

theorem of_store {x : Work α} (f : Store → α × Store)
    (hx : ∀ s, outcome x s = (.ok (f s.store).1, { s with store := (f s.store).2 }))
    (hf : ∀ {s r : Store}, s.Alike r → (f r).1 = (f s).1 ∧ (f s).2.Alike (f r).2) : Mirrors x :=
  of_update _ _ hx (fun h => by rw [(hf h.store).1]) (fun h => h.withStore (hf h.store).2) (fun _ => rfl) fun _ => rfl

theorem adopt (t : Tree) : Mirrors (adopt t) := of_store (·.adopt t) (fun _ => rfl) fun h => h.adopt t

theorem share (t : Tree) : Mirrors (share t) := of_store (·.share t) (fun _ => rfl) fun h => h.share t

theorem keep (t : Tree) : Mirrors (keep t) :=
  of_update (fun _ => .ok ()) (fun s => { s with store := s.store.keep t }) (fun _ => rfl) (fun _ => rfl)
    (fun h => h.withStore (h.store.keep t)) (fun _ => rfl) fun _ => rfl

theorem locate (t : Tree) : Mirrors (locate t) := of_store (·.locate t) (fun _ => rfl) fun h => h.locate t

end Mirrors

/-- Work that, once it has returned, returns the same again in a session that is alike and remembers the warnings; the
second time nothing is written to the log. -/
structure Echoes (x : Work α) : Prop where
  grows : ∀ {s a s'}, Returns x s a s' → s.notices ⊆ s'.notices
  again : ∀ {s r a s'}, s.Alike r → Returns x s a s' → s'.notices ⊆ r.notices →
    ∃ r', Returns x r a r' ∧ s'.Alike r' ∧ r'.notices = r.notices ∧ r'.log = r.log

theorem Mirrors.echoes {x : Work α} (hx : Mirrors x) : Echoes x where
  grows {s a s'} h := by
    have hnotices := hx.notices s
    rw [h] at hnotices
    rw [hnotices]
    exact List.Subset.refl _
  again {s r a s'} halike h _ := by
    have hresult := hx.result halike
    have halike := hx.alike halike
    rw [h] at hresult halike
    exact ⟨_, returns_of_ok hresult, halike, hx.notices r, hx.log r⟩

namespace Echoes

theorem pure (a : α) : Echoes (pure a : Work α) := (Mirrors.pure a).echoes

theorem throw (e : Fault) : Echoes (throw e : Work α) := (Mirrors.throw e).echoes

theorem bind {x : Work α} {f : α → Work β} (hx : Echoes x) (hf : ∀ a, Echoes (f a)) : Echoes (x >>= f) where
  grows h := by
    obtain ⟨a, m, ha, hb⟩ := returns_bind.mp h
    exact List.Subset.trans (hx.grows ha) ((hf a).grows hb)
  again halike h hnotices := by
    obtain ⟨a, m, ha, hb⟩ := returns_bind.mp h
    obtain ⟨q, hq, halike, hkept, hlog⟩ := hx.again halike ha (List.Subset.trans ((hf a).grows hb) hnotices)
    obtain ⟨r', hr', halike, hkept', hlog'⟩ := (hf a).again halike hb (hkept.symm ▸ hnotices)
    exact ⟨r', .bind hq hr', halike, hkept'.trans hkept, hlog'.trans hlog⟩

theorem get {f : Session → Work α} (hf : ∀ s, Echoes (f s)) (hsame : ∀ {s r}, s.Alike r → f r = f s) :
    Echoes (get >>= f) where
  grows {s a s'} h := (hf s).grows h
  again {s r a s'} halike h hnotices := by
    obtain ⟨r', hr', hrest⟩ := (hf s).again halike h hnotices
    rw [← hsame halike] at hr'
    exact ⟨r', hr', hrest⟩

theorem tryCatch {x : Work α} {handle : Fault → Work α} (hx : Mirrors x) (hhandle : ∀ e, Echoes (handle e)) :
    Echoes (tryCatch x handle) where
  grows {s a s'} h := by
    rcases returns_tryCatch.mp h with h | ⟨e, m, hfault, h⟩
    · exact hx.echoes.grows h
    · have hnotices := hx.notices s
      rw [hfault] at hnotices
      exact hnotices ▸ (hhandle e).grows h
  again {s r a s'} halike h hnotices := by
    rcases returns_tryCatch.mp h with h | ⟨e, m, hfault, h⟩
    · obtain ⟨r', hr', hrest⟩ := hx.echoes.again halike h hnotices
      exact ⟨r', returns_tryCatch.mpr (.inl hr'), hrest⟩
    · have hresult := hx.result halike
      have halike := hx.alike halike
      have hkept := hx.notices r
      have hlog := hx.log r
      rw [hfault] at hresult halike
      obtain ⟨r', hr', halike', hkept', hlog'⟩ := (hhandle e).again halike h (hkept.symm ▸ hnotices)
      exact ⟨r', returns_tryCatch.mpr (.inr ⟨e, (outcome x r).2, Prod.ext hresult rfl, hr'⟩), halike', hkept'.trans hkept,
        hlog'.trans hlog⟩

end Echoes

/-- A warning that was new is known the second time. -/
theorem echoes_flag (message : String) (nodes : List Tree) : Echoes (flag message nodes) := by
  refine .bind (Threaded.mapM ⟨.pure, .bind⟩ Mirrors.look nodes).echoes fun nodes => ?_
  have hremember {notice : Notice} {s s' : Session} {new : Bool} (h : Returns (remember notice) s new s') :
      (notice ∈ s.notices ∧ new = false ∧ s' = s) ∨ (new = true ∧ s' = { s with notices := s.notices ++ [notice] }) := by
    have hrest := returns_get_bind.mp h
    split at hrest
    next hknown =>
      cases hrest
      exact .inl ⟨by simpa using hknown, rfl, rfl⟩
    next =>
      obtain ⟨_, _, hset, hpure⟩ := returns_bind.mp hrest
      cases hset
      cases hpure
      exact .inr ⟨rfl, rfl⟩
  have hknown {notice : Notice} {r : Session} (h : notice ∈ r.notices) (x : Work Unit) :
      Returns (do if ← remember notice then x) r () r := by
    refine returns_bind.mpr ⟨false, r, ?_, rfl⟩
    refine .bind rfl ?_
    rw [if_pos (by simpa using h)]
    exact rfl
  -- what is noted in the first run, and what the first run leaves alone
  have hfirst {s s' : Session} {a : Unit} (h : Returns (do
      if ← remember { message, nodes := nodes.map Tree.id? } then report message nodes) s a s') :
      s.notices ⊆ s'.notices ∧ { message, nodes := nodes.map Tree.id? } ∈ s'.notices ∧ s.Alike s' := by
    obtain ⟨new, m, hnew, hrest⟩ := returns_bind.mp h
    rcases hremember hnew with ⟨hmem, rfl, rfl⟩ | ⟨rfl, rfl⟩
    · cases hrest
      exact ⟨List.Subset.refl _, hmem, .refl _⟩
    · have hkept := (reporting_fixes (f := fun s => (s.store, s.changed, s.modules, s.level, s.infinity, s.notANumber,
        s.notices)) fun _ _ => rfl).report message nodes _ _ _ hrest
      simp only [Prod.mk.injEq] at hkept
      obtain ⟨hstore, hchanged, hmodules, hlevel, hinfinity, hnan, hnotices⟩ := hkept
      rw [hnotices]
      exact ⟨by simp, by simp, ⟨hstore ▸ .refl _, hchanged, hmodules, hlevel, hinfinity, hnan⟩⟩
  constructor
  · intro s a s' h
    exact (hfirst h).1
  · intro s r a s' halike h hnotices
    obtain ⟨_, hmem, hsame⟩ := hfirst h
    exact ⟨r, hknown (hnotices hmem) _, hsame.symm.trans halike, rfl, rfl⟩

end Work

/-! ## Passes -/

namespace Work

theorem compositional_echoes : Compositional fun _ x => Echoes x where
  pure := .pure
  throw := .throw
  bind := .bind
  look t := (Mirrors.look t).echoes
  keep t := (Mirrors.keep t).echoes
  adopt t := (Mirrors.adopt t).echoes
  done := Mirrors.done.echoes
  flag := echoes_flag

theorem seen_of_alike {r : Session} (h : s.Alike r) : Seen s r :=
  ⟨h.store.look, h.store.expand, h.store.next, h.infinity, h.notANumber⟩

theorem observant_echoes : Observant fun _ x => Echoes x where
  toCompositional := compositional_echoes
  share t := (Mirrors.share t).echoes
  view hf hsame := .get hf fun h => hsame (seen_of_alike h)

theorem inventive_mirrors : Inventive fun _ x => Mirrors x where
  pure := .pure
  throw := .throw
  bind := .bind
  view hf hsame := .get hf fun h => hsame (seen_of_alike h)
  adopt := .adopt
  share := .share
  number _ hx := .of_update _ _ hx (fun h => by rw [h.store.next])
    (fun {s r} h => by
      rw [h.store.next]
      exact h.withStore ⟨h.store.view, rfl⟩)
    (fun _ => rfl) fun _ => rfl
  infinity id := .of_update (fun _ => .ok ()) (fun s => { s with infinity := some id }) (fun _ => rfl) (fun _ => rfl)
    (fun h => ⟨h.store, h.changed, h.modules, h.level, rfl, h.notANumber⟩) (fun _ => rfl) fun _ => rfl
  notANumber id := .of_update (fun _ => .ok ()) (fun s => { s with notANumber := some id }) (fun _ => rfl) (fun _ => rfl)
    (fun h => ⟨h.store, h.changed, h.modules, h.level, h.infinity, rfl⟩) (fun _ => rfl) fun _ => rfl

end Work

namespace Pass
open Compositional

theorem echoes_run {step : Step Work} (hstep : OfStep (fun _ x => Echoes x) step) (t : Tree) : Echoes (run step t) :=
  observant_echoes.run hstep t

theorem Unroll.echoes : OfStep (fun _ x => Echoes x) Unroll.step := observant_echoes.unroll

theorem PureCall.echoes : OfStep (fun _ x => Echoes x) PureCall.step :=
  observant_echoes.pureCall fun function args keywords _ hhandle =>
    .tryCatch (inventive_mirrors.replacement function args keywords) hhandle

end Pass

/-! ## Renaming -/

namespace Pass.Rename
variable {α β : Type}

theorem echoes_run (naming : Naming) (t : Tree) : Echoes (run naming t) := observant_echoes.rename naming t

/-! ### What a visit leaves of the naming -/

/-- What the naming before and after some renaming have to do with each other. -/
def Leads (R : Naming → Naming → Prop) (x : Renaming α) : Prop :=
  ∀ n m s s' a, 0 < n.assigned → Returns (x.run n) s (a, m) s' → R n m

theorem renames_bind {x : Renaming α} {f : α → Renaming β} {b : β} :
    Returns ((x >>= f).run n) s (b, m) s' ↔
      ∃ a k q, Returns (x.run n) s (a, k) q ∧ Returns ((f a).run k) q (b, m) s' := by
  rw [StateT.run_bind, returns_bind]
  constructor
  · rintro ⟨⟨a, k⟩, q, ha, hb⟩
    exact ⟨a, k, q, ha, hb⟩
  · rintro ⟨a, k, q, ha, hb⟩
    exact ⟨(a, k), q, ha, hb⟩

theorem renames_lift {x : Work α} {a : α} :
    Returns ((liftM x : Renaming α).run n) s (a, m) s' ↔ n = m ∧ Returns x s a s' := by
  constructor
  · intro h
    obtain ⟨a, hx, heq⟩ := returns_bind_pure.mp h
    cases heq
    exact ⟨rfl, hx⟩
  · rintro ⟨rfl, h⟩
    exact .bind h rfl

theorem renames_modify {a : PUnit} :
    Returns ((modify f : Renaming PUnit).run n) s (a, m) s' ↔ f n = m ∧ s = s' := by
  constructor
  · intro h
    cases h
    exact ⟨rfl, rfl⟩
  · rintro ⟨rfl, rfl⟩
    exact rfl

section
variable {R : Naming → Naming → Prop} {visit : Tree → Renaming (List Tree)}

theorem Leads.lift (hR : ∀ n, R n n) (x : Work α) : Leads R (liftM x : Renaming α) := by
  intro n m s s' b _ h
  obtain ⟨rfl, _⟩ := renames_lift.mp h
  exact hR _

theorem Leads.pure (hR : ∀ n, R n n) (a : α) : Leads R (pure a) := .lift hR (Pure.pure a)

theorem Leads.modify (hf : ∀ n, R n (f n)) : Leads R (modify f) := by
  intro n m s s' b _ h
  obtain ⟨rfl, _⟩ := renames_modify.mp h
  exact hf n

theorem Leads.bind (hle : ∀ {n m}, R n m → n.assigned ≤ m.assigned) (htrans : ∀ {n m k}, R n m → R m k → R n k)
    {x : Renaming α} {f : α → Renaming β} (hx : Leads R x) (hf : ∀ a, Leads R (f a)) : Leads R (x >>= f) := by
  intro n m s s' b hn h
  obtain ⟨a, k, q, ha, hb⟩ := renames_bind.mp h
  have hfirst := hx _ _ _ _ _ hn ha
  exact htrans hfirst (hf a _ _ _ _ _ (Int.lt_of_lt_of_le hn (hle hfirst)) hb)

theorem Leads.mapM (hR : ∀ n, R n n) (hle : ∀ {n m}, R n m → n.assigned ≤ m.assigned)
    (htrans : ∀ {n m k}, R n m → R m k → R n k) {f : α → Renaming β} (hf : ∀ a, Leads R (f a)) (as : List α) :
    Leads R (as.mapM f) := by
  induction as with
  | nil => exact .pure hR []
  | cons a as ih =>
    rw [List.mapM_cons]
    exact .bind hle htrans (hf a) fun _ => .bind hle htrans ih fun _ => .pure hR _

theorem Leads.settles_bind {x : Renaming α} {f : α → Renaming β} (hx : Leads Settles x) (hf : ∀ a, Leads Settles (f a)) :
    Leads Settles (x >>= f) := .bind (·.assigned_le) .trans hx hf

theorem Leads.inside (h : ∀ t, Leads Settles (visit t)) (t : Tree) : Leads Settles (inside visit t) := by
  refine .settles_bind (.lift .refl _) fun u => ?_
  split
  · refine .settles_bind (.mapM .refl (·.assigned_le) .trans (fun p => .settles_bind (h p) fun _ => .pure .refl _) _)
      fun _ => .settles_bind (.lift .refl _) fun _ => ?_
    split
    · exact .pure .refl _
    · exact .pure .refl _
  · exact .pure .refl _

theorem Leads.search (h : ∀ t, Leads Settles (visit t)) (t : Tree) : Leads Advances (search visit t) := by
  refine .bind (·.assigned_le) .trans (.lift .refl get) fun s => ?_
  dsimp only
  split
  · exact .bind (·.assigned_le) .trans (.modify fun n => ⟨id, Int.le_refl _⟩) fun _ => .pure .refl _
  · split
    · exact .pure .refl _
    · exact fun n m s s' a hn hr => (Leads.inside h t n m s s' a hn hr).toAdvances

theorem Leads.function (h : ∀ t, Leads Settles (visit t)) (tag : Tag) (kind : Kind) (parts : List Tree) :
    Leads Settles (function visit tag kind parts) := by
  unfold Rename.function
  split
  next parameters body decorators result =>
    intro n m s s' b hn hr
    obtain ⟨_, _, _, hget, hr⟩ := renames_bind.mp hr
    cases hget
    obtain ⟨q, _, _, hsession, hr⟩ := renames_bind.mp hr
    obtain ⟨rfl, _⟩ := renames_lift.mp hsession
    obtain ⟨_, _, _, hset, hr⟩ := renames_bind.mp hr
    cases hset
    obtain ⟨body₁, k₁, _, hsearch, hr⟩ := renames_bind.mp hr
    obtain ⟨_, _, _, hphase, hr⟩ := renames_bind.mp hr
    obtain ⟨rfl, _⟩ := renames_modify.mp hphase
    obtain ⟨body₂, k₂, _, hreplace, hr⟩ := renames_bind.mp hr
    obtain ⟨_, _, _, hleave, hr⟩ := renames_bind.mp hr
    obtain ⟨rfl, _⟩ := renames_modify.mp hleave
    obtain ⟨_, k₃, _, hkeep, hr⟩ := renames_bind.mp hr
    obtain ⟨rfl, _⟩ := renames_lift.mp hkeep
    obtain ⟨_, hignoring, hassigned⟩ := foldl_map_eq (plainParameters q.store parameters) n
    have hsearch := Leads.mapM .refl (·.assigned_le) .trans (Leads.search h) _ _ _ _ _ _ (hassigned ▸ hn) hsearch
    have hk₁ : 0 < k₁.assigned := Int.lt_of_lt_of_le (hassigned ▸ hn) hsearch.assigned_le
    have hreplace := Leads.mapM .refl (·.assigned_le) .trans (Leads.inside h) _ { k₁ with phase := .replace } _ _ _ _ hk₁ hreplace
    have hleave : Settles n (leave n k₂) := by
      refine ⟨⟨fun hi => ?_, ?_⟩, rfl, rfl, fun _ => rfl⟩
      · exact hreplace.attentive (hsearch.attentive (hignoring.trans hi))
      · exact hassigned ▸ Int.le_trans hsearch.assigned_le hreplace.assigned_le
    exact hleave.trans (Leads.inside h _ _ _ _ _ _ (Int.lt_of_lt_of_le hn hleave.assigned_le) hr)
  next => exact .pure .refl _

theorem settles_renameName (id : String) (ctx : Context) : Leads Settles (renameName id ctx) := by
  intro n m s s' a hn h
  cases h.symm.trans (makes_renameName (s := s) id ctx n)
  exact settles_walkName n id ctx hn

theorem Leads.rule (h : ∀ t, Leads Settles (visit t)) (tag : Tag) (kind : Kind) (parts : List Tree) :
    Leads Settles (rule visit tag kind parts) := by
  -- a comprehension is left attentive, whatever was before
  have hignored (t : Tree) (x : Renaming (List Tree)) (hx : x = do
      StateT.modifyGet fun n => (⟨⟩, { n with ignoring := true })
      let t ← Pass.inside visit t
      StateT.modifyGet fun n => (⟨⟩, { n with ignoring := false })
      return [t]) : Leads Settles x := by
    subst hx
    intro n m s s' a hn hr
    obtain ⟨_, _, _, hset, hr⟩ := renames_bind.mp hr
    obtain ⟨rfl, _⟩ := renames_modify.mp hset
    obtain ⟨_, k, _, hinside, hr⟩ := renames_bind.mp hr
    obtain ⟨_, _, _, hset, hr⟩ := renames_bind.mp hr
    obtain ⟨rfl, _⟩ := renames_modify.mp hset
    cases hr
    have hsettles := Leads.inside h t { n with ignoring := true } _ _ _ _ hn hinside
    exact ⟨⟨fun _ => rfl, hsettles.assigned_le⟩, hsettles.phase_eq, hsettles.bypassed_eq, hsettles.mapping_eq⟩
  unfold Rename.rule
  split
  · exact .settles_bind (settles_renameName _ _) fun _ => .settles_bind (.lift .refl _) fun _ => .pure .refl _
  · exact .settles_bind (.function h tag _ parts) fun _ => .pure .refl _
  · exact hignored _ _ rfl
  · exact hignored _ _ rfl
  · exact hignored _ _ rfl
  · exact .pure .refl _
  · exact .settles_bind (.inside h _) fun _ => .pure .refl _

end

theorem settles_visitDeep (depth : Nat) (t : Tree) : Leads Settles (visitDeep rule depth t) := by
  induction depth generalizing t with
  | zero => exact .pure .refl _
  | succ depth ih =>
    cases t with
    | node tag kind parts => exact .rule ih tag kind parts
    | seq items =>
      exact .settles_bind (.mapM .refl (·.assigned_le) .trans ih items) fun _ => .pure .refl _
    | absent => exact .pure .refl _
    | shared id => exact .settles_bind (.lift .refl _) fun u => .settles_bind (ih u) fun _ => .pure .refl _

def Naming.rest (n : Naming) : Naming := { n with assigned := firstNumber }

theorem run_rest {naming naming' : Naming} {t' : Tree} (hphase : naming.phase = .idle)
    (hattentive : naming.ignoring = false) (h : Returns (run naming t) s (t', naming') s') : naming'.rest = naming.rest := by
  have hleads : Leads Settles (runDeep rule t) :=
    .settles_bind (.lift .refl _) fun s => .settles_bind (settles_visitDeep _ t) fun _ => .pure .refl _
  have hsettles := hleads _ _ _ _ _ (by decide : 0 < firstNumber) h
  have hbypassed : naming'.bypassed = naming.bypassed := hsettles.bypassed_eq
  have hmapping : naming'.mapping = naming.mapping := hsettles.mapping_eq (by simp [hphase])
  have hphase' : naming'.phase = naming.phase := hsettles.phase_eq
  have hignoring : naming'.ignoring = naming.ignoring := (hsettles.attentive hattentive).trans hattentive.symm
  simp only [Naming.rest, hbypassed, hmapping, hphase', hignoring]

end Pass.Rename

end SourceOptimizer
