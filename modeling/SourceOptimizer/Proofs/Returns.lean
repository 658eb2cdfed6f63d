import Mathlib
import SourceOptimizer.Pass.Basic

/-! Work that returns. `Returns x s a s'` says that `x`, started in the session `s`, ends with the result `a`
in the session `s'`; a piece of work is taken apart into its steps by the equivalences below. -/
namespace SourceOptimizer.Work

variable {s m s' : Session} {a : PUnit} {g : Session → Session} {t u : Tree} {ts : List Tree}
variable {α β : Type}

def outcome (x : Work α) (s : Session) : Except Fault α × Session := (ExceptT.run x).run s

def Returns (x : Work α) (s : Session) (a : α) (s' : Session) : Prop := outcome x s = (.ok a, s')

theorem returns_of_ok {x : Work α} {a : α} (h : (outcome x s).1 = .ok a) :
    Returns x s a (outcome x s).2 := Prod.ext h rfl

theorem outcome_bind (x : Work α) (f : α → Work β) (s : Session) :
    outcome (x >>= f) s =
      match outcome x s with
      | (.ok a, m) => outcome (f a) m
      | (.error e, m) => (.error e, m) := by
  unfold outcome ExceptT.run StateT.run
  simp only [bind, ExceptT.bind, ExceptT.mk, StateT.bind, ExceptT.bindCont]
  cases x s with
  | mk r m => cases r <;> rfl

theorem returns_eq {x : Work α} {a b : α} (h : Returns x s a m) :
    Returns x s b s' ↔ a = b ∧ m = s' := by
  rw [Returns, show outcome x s = (.ok a, m) from h]
  simp

theorem returns_unit_eq {x : Work PUnit} (h : Returns x s ⟨⟩ m) :
    Returns x s a s' ↔ m = s' := (returns_eq h).trans (and_iff_right rfl)

theorem returns_pure {a b : α} : Returns (pure a : Work α) s b s' ↔ a = b ∧ s = s' := returns_eq rfl

theorem returns_bind {x : Work α} {f : α → Work β} {b : β} :
    Returns (x >>= f) s b s' ↔ ∃ a m, Returns x s a m ∧ Returns (f a) m b s' := by
  unfold Returns
  rw [outcome_bind]
  rcases outcome x s with ⟨r, m⟩
  cases r with
  | error e => simp
  | ok a =>
    constructor
    · intro h
      exact ⟨a, m, rfl, h⟩
    · rintro ⟨_, _, h, hf⟩
      cases h
      exact hf

theorem Returns.bind {x : Work α} {f : α → Work β} {a : α} {b : β} (hx : Returns x s a m)
    (hf : Returns (f a) m b s') : Returns (x >>= f) s b s' := returns_bind.mpr ⟨a, m, hx, hf⟩

theorem returns_bind_of {x : Work α} {f : α → Work β} {a : α} {b : β} (h : Returns x s a m) :
    Returns (x >>= f) s b s' ↔ Returns (f a) m b s' := by
  rw [Returns, outcome_bind, show outcome x s = (.ok a, m) from h]
  rfl

theorem returns_bind_iff {c : Prop} {x : Work α} {f : α → Work β} {a : α} {b : β}
    (h : ∀ {a' m'}, Returns x s a' m' ↔ c ∧ a = a' ∧ m = m') : Returns (x >>= f) s b s' ↔ c ∧ Returns (f a) m b s' := by
  rw [returns_bind]
  constructor
  · rintro ⟨_, _, hx, hf⟩
    obtain ⟨hc, rfl, rfl⟩ := h.mp hx
    exact ⟨hc, hf⟩
  · rintro ⟨hc, hf⟩
    exact ⟨_, _, h.mpr ⟨hc, rfl, rfl⟩, hf⟩

theorem returns_get {a : Session} : Returns (get : Work Session) s a s' ↔ s = a ∧ s = s' := returns_eq rfl

theorem returns_set {u : Session} : Returns (set u : Work PUnit) s a s' ↔ u = s' := returns_unit_eq rfl

theorem returns_modify {f : Session → Session} :
    Returns (modify f : Work PUnit) s a s' ↔ f s = s' := returns_unit_eq rfl

theorem returns_get_bind {f : Session → Work β} {b : β} :
    Returns (get >>= f) s b s' ↔ Returns (f s) s b s' := Iff.rfl

theorem returns_modify_bind {f : PUnit → Work β} {b : β} :
    Returns (modify g >>= f) s b s' ↔ Returns (f ⟨⟩) (g s) b s' := Iff.rfl

theorem returns_bind_pure {x : Work α} {g : α → β} {b : β} :
    Returns (x >>= fun a => pure (g a)) s b s' ↔ ∃ a, Returns x s a s' ∧ g a = b := by
  simp only [returns_bind, returns_pure]
  constructor
  · rintro ⟨a, _, h, rfl, rfl⟩
    exact ⟨a, h, rfl⟩
  · rintro ⟨a, h, rfl⟩
    exact ⟨a, _, h, rfl, rfl⟩

theorem returns_throw {e : Fault} {a : α} :
    ¬ Returns (throw e : Work α) s a s' := by
  intro h
  cases h

theorem returns_ofExcept {x : Except Fault α} {a : α} :
    Returns (ofExcept x) s a s' ↔ x = .ok a ∧ s = s' := by
  cases x with
  | ok b => simpa [ofExcept] using returns_pure
  | error e => simpa [ofExcept] using returns_throw

theorem outcome_tryCatch (x : Work α) (handle : Fault → Work α) (s : Session) :
    outcome (tryCatch x handle) s =
      match outcome x s with
      | (.ok b, m) => (.ok b, m)
      | (.error e, m) => outcome (handle e) m := by
  unfold outcome ExceptT.run StateT.run
  simp only [tryCatch, tryCatchThe, MonadExceptOf.tryCatch, ExceptT.tryCatch, ExceptT.mk, bind, StateT.bind]
  cases x s with
  | mk r m => cases r <;> rfl

theorem returns_tryCatch {x : Work α} {handle : Fault → Work α} {a : α} :
    Returns (tryCatch x handle) s a s' ↔
      Returns x s a s' ∨ ∃ e m, outcome x s = (.error e, m) ∧ Returns (handle e) m a s' := by
  unfold Returns
  rw [outcome_tryCatch]
  rcases outcome x s with ⟨r, m⟩
  cases r with
  | ok b => simp
  | error e =>
    constructor
    · exact fun h => .inr ⟨e, m, rfl, h⟩
    · rintro (h | ⟨_, _, h, hhandle⟩)
      · cases h
      · cases h
        exact hhandle

theorem returns_done {a : Unit} :
    Returns done s a s' ↔ { s with changed := true } = s' := returns_modify

theorem returns_look :
    Returns (look t) s u s' ↔ s.store.look t = u ∧ s = s' := returns_eq rfl

theorem returns_keep {a : Unit} :
    Returns (keep t) s a s' ↔ { s with store := s.store.keep t } = s' := returns_modify

theorem returns_adopt :
    Returns (adopt t) s u s' ↔
      (s.store.adopt t).1 = u ∧ { s with store := (s.store.adopt t).2 } = s' := returns_eq rfl

theorem returns_adopt_bind {f : Tree → Work β} {b : β} :
    Returns (adopt t >>= f) s b s' ↔ Returns (f (s.store.adopt t).1) { s with store := (s.store.adopt t).2 } b s' := Iff.rfl

theorem returns_keep_bind {f : Unit → Work β} {b : β} :
    Returns (keep t >>= f) s b s' ↔ Returns (f ()) { s with store := s.store.keep t } b s' := Iff.rfl

theorem returns_share :
    Returns (share t) s u s' ↔
      (s.store.share t).1 = u ∧ { s with store := (s.store.share t).2 } = s' := returns_eq rfl

theorem returns_locate_iff :
    Returns (locate t) s u s' ↔
      (s.store.locate t).1 = u ∧ { s with store := (s.store.locate t).2 } = s' := returns_eq rfl

theorem returns_shareAll {us : List Tree} :
    Returns (ts.mapM share) s us s' ↔
      (s.store.shareAll ts).1 = us ∧ { s with store := (s.store.shareAll ts).2 } = s' := by
  induction ts generalizing s us s' with
  | nil => exact returns_pure
  | cons t ts ih =>
    simp only [List.mapM_cons, returns_bind, returns_share, returns_pure, ih, Store.shareAll]
    constructor
    · rintro ⟨_, _, ⟨rfl, rfl⟩, _, _, ⟨rfl, rfl⟩, rfl, rfl⟩
      exact ⟨rfl, rfl⟩
    · rintro ⟨rfl, rfl⟩
      exact ⟨_, _, ⟨rfl, rfl⟩, _, _, ⟨rfl, rfl⟩, rfl, rfl⟩

theorem returns_literal {a : Option Literal} :
    Returns (Pass.literal? t) s a s' ↔ (s.store.look t).literal? = a ∧ s = s' := returns_eq rfl

theorem returns_descend {tag : Tag} {kind : Kind} {visited : Work (List Tree)} :
    Returns (Pass.descend tag kind visited) s ts s' ↔
      ∃ parts m, Returns visited s parts m ∧ [.node tag kind parts] = ts ∧
        { m with store := m.store.keep (.node tag kind parts) } = s' := by
  simp only [Pass.descend, returns_bind, returns_keep, returns_pure]
  constructor
  · rintro ⟨parts, m, hvisited, _, _, rfl, rfl, rfl⟩
    exact ⟨parts, m, hvisited, rfl, rfl⟩
  · rintro ⟨parts, m, hvisited, rfl, rfl⟩
    exact ⟨parts, m, hvisited, ⟨⟩, _, rfl, rfl, rfl⟩

theorem returns_parse_iff {source : String} : Returns (Work.parse source) s t s' ↔
    ∃ n, Tree.parse s.store.next source = .ok (t, n) ∧ { s with store := { s.store with next := n } } = s' := by
  simp only [Work.parse, returns_bind, returns_get]
  constructor
  · rintro ⟨_, _, ⟨rfl, rfl⟩, h⟩
    split at h
    next u n hparse =>
      obtain ⟨_, hset, rfl⟩ := returns_bind_pure.mp h
      exact ⟨n, hparse, returns_set.mp hset⟩
    · exact absurd h returns_throw
  · rintro ⟨n, hparse, rfl⟩
    refine ⟨s, s, ⟨rfl, rfl⟩, ?_⟩
    rw [hparse]
    exact .bind (rfl) rfl

/-! ## Work that is put together -/

structure Threaded (P : (α : Type) → Work α → Prop) : Prop where
  pure : ∀ {α : Type} (a : α), P α (pure a)
  bind : ∀ {α β : Type} {x : Work α} {f : α → Work β}, P α x → (∀ a, P β (f a)) → P β (x >>= f)

variable {P : (α : Type) → Work α → Prop}

theorem Threaded.mapM (hP : Threaded P) {f : α → Work β} (hf : ∀ a, P β (f a)) (as : List α) : P (List β) (as.mapM f) := by
  induction as with
  | nil => exact hP.pure []
  | cons a as ih =>
    rw [List.mapM_cons]
    exact hP.bind (hf a) fun _ => hP.bind ih fun _ => hP.pure _

/-- A property that sequencing preserves and that what a warning is made of has. -/
structure Reporting (P : (α : Type) → Work α → Prop) : Prop extends Threaded P where
  throw : ∀ {α : Type} (e : Fault), P α (throw e)
  look : ∀ t, P Tree (look t)
  print : ∀ t, P String (print t)
  write : ∀ lines, P Unit (write .warn lines)
  view : ∀ {α : Type} {f : Session → Work α}, (∀ s, P α (f s)) → (∀ {s r}, r.current = s.current → f r = f s) → P α (get >>= f)

namespace Reporting
variable (hP : Reporting P)
include hP

theorem quoteLine (code : Option Code) (first : Tree) (nodes : List Tree) : P String (quoteLine code first nodes) := by
  have hquote (line : String) : P String (nodes.foldlM (fun quoted t => do return highlight quoted (← Work.print t)) line) := by
    induction nodes generalizing line with
    | nil => exact hP.pure line
    | cons t ts ih =>
      exact hP.bind (hP.bind (hP.print t) fun _ => hP.pure _) ih
  unfold Work.quoteLine
  split
  · exact hP.throw _
  · exact hP.throw _
  · split
    · exact hP.throw _
    · exact hP.bind (hquote _) fun _ => hP.pure _

theorem report (message : String) (nodes : List Tree) : P Unit (report message nodes) := by
  refine hP.view (fun s => ?_) fun hcurrent => by rw [hcurrent]
  cases s.current with
  | none =>
    cases nodes with
    | nil => exact hP.bind (hP.pure _) fun _ => hP.throw _
    | cons first rest => exact hP.bind (hP.quoteLine _ _ _) fun _ => hP.throw _
  | some code =>
    cases nodes with
    | nil => exact hP.bind (hP.pure _) fun _ => hP.write _
    | cons first rest => exact hP.bind (hP.quoteLine _ _ _) fun _ => hP.write _

theorem flag (hremember : ∀ notice, P Bool (remember notice)) (message : String) (nodes : List Tree) :
    P Unit (flag message nodes) := by
  refine hP.bind (hP.mapM hP.look nodes) fun nodes => hP.bind (hremember _) fun new => ?_
  cases new with
  | true => exact hP.report message nodes
  | false => exact hP.pure _

end Reporting

/-! ## Work that always returns -/

def Completes (x : Work α) : Prop := ∀ s, ∃ a s', Returns x s a s'

theorem Completes.pure (a : α) : Completes (pure a : Work α) := fun s => ⟨a, s, rfl⟩

theorem Completes.bind {x : Work α} {f : α → Work β} (hx : Completes x) (hf : ∀ a, Completes (f a)) :
    Completes (x >>= f) := by
  intro s
  obtain ⟨a, m, ha⟩ := hx s
  obtain ⟨b, s', hb⟩ := hf a m
  exact ⟨b, s', ha.bind hb⟩

theorem Completes.get : Completes (get : Work Session) := fun s => ⟨s, s, rfl⟩

theorem Completes.modify (f : Session → Session) : Completes (modify f : Work PUnit) :=
  fun s => ⟨⟨⟩, f s, rfl⟩

theorem completes_look (t : Tree) : Completes (look t) := .bind .get fun _ => .pure _

/-! ## Work that leaves a part of the session alone -/

variable {γ : Type}

def Fixes (f : Session → γ) (x : Work α) : Prop := ∀ s a s', Returns x s a s' → f s' = f s

namespace Fixes
variable {f : Session → γ}

theorem pure (a : α) : Fixes f (pure a : Work α) := by
  intro s b s' h
  rw [(returns_pure.mp h).2]

theorem throw (e : Fault) : Fixes f (throw e : Work α) := fun _ _ _ h => absurd h returns_throw

theorem bind {x : Work α} {k : α → Work β} (hx : Fixes f x) (hk : ∀ a, Fixes f (k a)) : Fixes f (x >>= k) := by
  intro s b s' h
  obtain ⟨a, m, ha, hb⟩ := returns_bind.mp h
  rw [hk a m b s' hb, hx s a m ha]

theorem get : Fixes f (get : Work Session) := by
  intro s a s' h
  rw [(returns_get.mp h).2]

theorem modify (hg : ∀ s, f (g s) = f s) : Fixes f (modify g : Work PUnit) := by
  intro s a s' h
  rw [← returns_modify.mp h, hg]

theorem ofExcept (x : Except Fault α) : Fixes f (ofExcept x) := by
  cases x with
  | ok a => exact .pure a
  | error e => exact .throw e

theorem look (t : Tree) : Fixes f (look t) := .bind .get fun _ => .pure _

end Fixes

section Frame
variable {f : Session → γ} (hf : ∀ s t, f { s with store := t } = f s)
include hf

theorem fixes_keep (t : Tree) : Fixes f (keep t) := .modify fun s => hf s _

theorem fixes_adopt (t : Tree) : Fixes f (adopt t) := by
  intro s a s' h
  rw [← (returns_adopt.mp h).2, hf]

end Frame

section Warnings
variable {f : Session → γ} (hf : ∀ s notices log, f { s with notices := notices, log := log } = f s)
include hf

omit hf in
theorem reporting_fixes (hf : ∀ s log, f { s with log := log } = f s) : Reporting fun _ x => Fixes f x where
  pure := .pure
  bind := .bind
  throw := .throw
  look := .look
  print _ := .bind (.bind .get fun _ => .pure _) fun _ => .ofExcept _
  write _ := .modify fun s => hf s _
  view hk _ := .bind .get hk

theorem fixes_remember (notice : Notice) : Fixes f (remember notice) := by
  intro s new s' h
  have hrest := returns_get_bind.mp h
  split at hrest
  · rw [(returns_pure.mp hrest).2]
  · obtain ⟨_, _, hset, hpure⟩ := returns_bind.mp hrest
    rw [← (returns_pure.mp hpure).2, ← returns_set.mp hset]
    exact hf s _ s.log

theorem fixes_flag (message : String) (nodes : List Tree) : Fixes f (flag message nodes) :=
  (reporting_fixes fun s log => hf s s.notices log).flag (fixes_remember hf) message nodes

end Warnings

end SourceOptimizer.Work
