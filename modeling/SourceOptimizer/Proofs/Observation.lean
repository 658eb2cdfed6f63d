import SourceOptimizer.Proofs.Composition

/-! Passes that look at the session: at what stands below a shared node, at the next free identity, and at the
nodes for the numbers that are not finite. -/
namespace SourceOptimizer.Work
open Pass

variable {α β : Type}

/-- The same in all that passes look at. -/
structure Seen (s r : Session) : Prop where
  look : ∀ t, r.store.look t = s.store.look t
  expand : ∀ t, r.store.expand t = s.store.expand t
  next : r.store.next = s.store.next
  infinity : r.infinity = s.infinity
  notANumber : r.notANumber = s.notANumber

/-- Properties of work that may go on with what it has seen, and that shares nodes. -/
structure Observant (P : (α : Type) → Work α → Prop) : Prop extends Compositional P where
  share : ∀ t, P Tree (share t)
  view : ∀ {α : Type} {f : Session → Work α}, (∀ s, P α (f s)) → (∀ {s r}, Seen s r → f r = f s) → P α (get >>= f)

/-- Properties of work that makes new nodes. -/
structure Inventive (P : (α : Type) → Work α → Prop) : Prop extends Threaded P where
  throw : ∀ {α : Type} (e : Fault), P α (throw e)
  view : ∀ {α : Type} {f : Session → Work α}, (∀ s, P α (f s)) → (∀ {s r}, Seen s r → f r = f s) → P α (get >>= f)
  adopt : ∀ t, P Tree (adopt t)
  share : ∀ t, P Tree (share t)
  /-- work that only goes by the next free identity and only moves it on -/
  number : ∀ {α : Type} {x : Work α} (f : Nat → Except Fault α × Nat), (∀ s, outcome x s =
    ((f s.store.next).1, { s with store := { s.store with next := (f s.store.next).2 } })) → P α x
  infinity : ∀ id, P Unit (modify fun s => { s with infinity := some id })
  notANumber : ∀ id, P Unit (modify fun s => { s with notANumber := some id })

/-! ## Calls of pure functions -/

namespace Inventive
variable {P : (α : Type) → Work α → Prop} (hP : Inventive P)
include hP

theorem ofExcept (x : Except Fault α) : P α (ofExcept x) := by
  cases x with
  | ok a => exact hP.pure a
  | error e => exact hP.throw e

omit hP in
def parsedFrom (source : String) (n : Nat) : Except Fault Tree × Nat :=
  match Tree.parse n source with
  | .ok (t, next) => (.ok t, next)
  | .error e => (.error e, n)

theorem parse (source : String) : P _ (Work.parse source) := by
  refine hP.number (parsedFrom source) fun s => ?_
  unfold parsedFrom
  unfold Work.parse
  rw [outcome_bind, show outcome MonadState.get s = (.ok s, s) from rfl]
  dsimp only
  generalize Tree.parse s.store.next source = parsed
  cases parsed with
  | ok result => rfl
  | error e => rfl

omit hP in
def readFrom (text : String) (n : Nat) : Except Fault (Option Tree) × Nat :=
  match Tree.parse n text with
  | .error _ => (.ok none, n)
  | .ok (.node _ _ [.seq (.node _ .exprStmt [value] :: _)], next) => (.ok (some value), next)
  | .ok _ => (.ok none, n)

theorem readBack (text : String) : P _ (PureCall.readBack text) := by
  refine hP.number (readFrom text) fun s => ?_
  unfold readFrom
  unfold PureCall.readBack
  rw [outcome_bind, show outcome MonadState.get s = (.ok s, s) from rfl]
  dsimp only
  generalize Tree.parse s.store.next text = parsed
  split
  · rfl
  · rfl
  · (try split) <;> first | rfl | contradiction | simp_all

theorem remember (name : String) {put : Session → Nat → Session} (hput : ∀ id, P Unit (modify fun s => put s id)) :
    P _ (PureCall.infinite.remember name put) := by
  refine hP.bind (hP.parse _) fun t => ?_
  split
  · refine hP.bind (hP.share _) fun t => ?_
    split
    · exact hP.bind (hput _) fun _ => hP.pure _
    · exact hP.pure _
  · exact hP.pure _

theorem infinite : P _ PureCall.infinite := by
  refine hP.view (fun s => ?_) fun h => by rw [h.infinity]
  split
  · exact hP.pure _
  · exact hP.remember _ hP.infinity

theorem undefined : P _ PureCall.undefined := by
  refine hP.view (fun s => ?_) fun h => by rw [h.notANumber]
  split
  · exact hP.pure _
  · exact hP.remember _ hP.notANumber

theorem express (function : String) (v : Value) : P _ (PureCall.express function v) := by
  unfold PureCall.express
  split
  · split
    · exact hP.bind hP.infinite fun _ => hP.pure _
    · split
      · exact hP.bind hP.undefined fun _ => hP.pure _
      · exact hP.bind (hP.adopt _) fun _ => hP.pure _
  · split
    · split
      · exact hP.readBack _
      · exact hP.pure _
    · exact hP.pure _

theorem replacement (function : String) (args keywords : List Tree) : P _ (PureCall.replacement function args keywords) := by
  refine hP.view (fun s => hP.bind (hP.ofExcept _) fun values => ?_) fun {s r} h => ?_
  · split
    · unfold PureCall.call
      split
      · exact hP.pure _
      · exact hP.throw _
      · exact hP.express _ _
    · refine hP.bind (hP.ofExcept _) fun t => ?_
      split
      · exact hP.bind (hP.adopt _) fun _ => hP.pure _
      · exact hP.pure _
  · have hexpand : r.store.expand = s.store.expand := funext h.expand
    simp only [PureCall.arguments?, PureCall.constants?, hexpand]

end Inventive

namespace Observant
open Compositional
variable {P : (α : Type) → Work α → Prop} (hP : Observant P)
include hP

theorem run {step : Step Work} (hstep : OfStep P step) (t : Tree) : P _ (run step t) := by
  refine hP.view (fun s => hP.bind (hP.toCompositional.visitWithin hstep _ t) fun _ => hP.pure _) fun h => ?_
  rw [depthBound, depthBound, h.next]

theorem pureCall (htry : ∀ function args keywords (handle : Fault → Work (Option Tree)), (∀ e, P _ (handle e)) →
    P _ (tryCatch (PureCall.replacement function args keywords) handle)) : OfStep P PureCall.step := by
  intro tag kind parts visited h
  have hleave := hP.toCompositional.descend tag kind h
  unfold PureCall.step
  split
  · refine hP.bind (hP.look _) fun f => ?_
    split
    · refine hP.bind (htry _ _ _ _ fun e => hP.bind (hP.flag _ _) fun _ => hP.pure _) fun t => ?_
      split
      · exact hP.pure _
      · exact hleave
    · exact hleave
  · exact hleave

theorem unroll : OfStep P Unroll.step := by
  intro tag kind parts visited h
  have hleave := hP.toCompositional.descend tag kind h
  unfold Unroll.step
  split
  · refine hP.view (fun s => ?_) fun {s r} hsame => ?_
    · dsimp only
      split
      · split
        · exact hP.pure _
        · split
          · exact hP.bind (hP.flag _ _) fun _ => hleave
          · split
            · exact hleave
            · exact hP.bind (hP.share _) fun _ => hP.bind (hP.toCompositional.mapM hP.share _) fun _ =>
                hP.bind hP.done fun _ => hP.bind (hP.adopt _) fun _ => hP.pure _
      · exact hleave
    · have hrange (t : Tree) : Unroll.isRange r.store t = Unroll.isRange s.store t := by
        simp only [Unroll.isRange, hsame.look]
      have hbounds (t : Tree) : Unroll.bounds? r.store t = Unroll.bounds? s.store t := by
        simp only [Unroll.bounds?, Unroll.arguments?, Unroll.integer?, hsame.look]
      simp only [hrange, hbounds]
  · exact hleave

end Observant

/-! ## Renaming -/

/-- Work beside which a state is kept has the property if it has it from every state on. -/
def Always {σ : Type} (P : (α : Type) → Work α → Prop) (x : StateT σ Work α) : Prop := ∀ n, P _ (x.run n)

namespace Always
variable {σ : Type} {P : (α : Type) → Work α → Prop} (hP : Observant P)
include hP

theorem pure (a : α) : Always P (pure a : StateT σ Work α) := fun _ => hP.pure _

theorem bind {x : StateT σ Work α} {f : α → StateT σ Work β} (hx : Always P x) (hf : ∀ a, Always P (f a)) :
    Always P (x >>= f) := fun n => hP.bind (hx n) fun ⟨a, m⟩ => hf a m

theorem state : Always P (get : StateT σ Work σ) := fun _ => hP.pure _

theorem set (n : σ) : Always P (set n : StateT σ Work PUnit) := fun _ => hP.pure _

theorem update (f : σ → σ) : Always P (modify f : StateT σ Work PUnit) := fun _ => hP.pure _

theorem lift {x : Work α} (hx : P _ x) : Always P (liftM x : StateT σ Work α) := fun _ => hP.bind hx fun _ => hP.pure _

theorem session {f : Session → StateT σ Work α} (hf : ∀ s, Always P (f s)) (hsame : ∀ {s r}, Seen s r → f r = f s) :
    Always P (getThe Session >>= f) := fun n => hP.view (fun s => hf s n) fun h => by rw [hsame h]

theorem mapM {f : α → StateT σ Work β} (hf : ∀ a, Always P (f a)) (as : List α) : Always P (as.mapM f) := by
  induction as with
  | nil => exact pure hP []
  | cons a as ih =>
    rw [List.mapM_cons]
    exact bind hP (hf a) fun _ => bind hP ih fun _ => pure hP _

theorem inside {visit : Tree → StateT σ Work (List Tree)} (hvisit : ∀ t, Always P (visit t)) (t : Tree) :
    Always P (inside visit t) := by
  refine bind hP (lift hP (hP.look t)) fun u => ?_
  split
  · refine bind hP (mapM hP (fun p => bind hP (hvisit p) fun _ => pure hP _) _) fun _ => bind hP (lift hP (hP.keep _)) fun _ => ?_
    split
    · exact pure hP _
    · exact pure hP _
  · exact pure hP _

theorem visitDeep {rule : Rule (StateT σ Work)}
    (hrule : ∀ {visit}, (∀ t, Always P (visit t)) → ∀ tag kind parts, Always P (rule visit tag kind parts)) (depth : Nat) (t : Tree) :
    Always P (visitDeep rule depth t) := by
  induction depth generalizing t with
  | zero => exact pure hP _
  | succ depth ih =>
    cases t with
    | node tag kind parts => exact hrule ih tag kind parts
    | seq items => exact bind hP (mapM hP ih items) fun _ => pure hP _
    | absent => exact pure hP _
    | shared id => exact bind hP (lift hP (hP.look _)) fun u => bind hP (ih u) fun _ => pure hP _

theorem runDeep {rule : Rule (StateT σ Work)}
    (hrule : ∀ {visit}, (∀ t, Always P (visit t)) → ∀ tag kind parts, Always P (rule visit tag kind parts)) (t : Tree) :
    Always P (runDeep rule t) := by
  refine session hP (fun s => bind hP (visitDeep hP hrule _ t) fun _ => pure hP _) fun h => ?_
  rw [h.next]

end Always

namespace Observant
open Rename
variable {P : (α : Type) → Work α → Prop} (hP : Observant P) {visit : Tree → Renaming (List Tree)} (hvisit : ∀ t, Always P (visit t))
include hP hvisit

theorem search (t : Tree) : Always P (search visit t) := by
  refine Always.session hP (fun s => ?_) fun {s r} h => ?_
  · dsimp only
    split
    · exact Always.bind hP (Always.update hP _) fun _ => Always.pure hP _
    · split
      · exact Always.pure hP _
      · exact Always.inside hP hvisit t
  · have hdeclared : declared? r.store t = declared? s.store t := by simp only [declared?, h.look]
    have hfunction : isFunction r.store t = isFunction s.store t := by simp only [isFunction, h.look]
    simp only [hdeclared, hfunction]

theorem function (tag : Tag) (kind : Kind) (parts : List Tree) : Always P (function visit tag kind parts) := by
  unfold Rename.function
  split
  · refine Always.bind hP (Always.state hP) fun outer => Always.session hP (fun s => ?_) fun {s r} h => ?_
    · exact Always.bind hP (Always.set hP _) fun _ => Always.bind hP (Always.mapM hP (hP.search hvisit) _) fun _ =>
        Always.bind hP (Always.update hP _) fun _ => Always.bind hP (Always.mapM hP (Always.inside hP hvisit) _) fun _ =>
        Always.bind hP (Always.update hP _) fun _ => Always.bind hP (Always.lift hP (hP.keep _)) fun _ => Always.inside hP hvisit _
    · have hparameters (t : Tree) : plainParameters r.store t = plainParameters s.store t := by
        simp only [plainParameters, h.look]
      simp only [hparameters]
  · exact Always.pure hP _

theorem renameRule (tag : Tag) (kind : Kind) (parts : List Tree) : Always P (rule visit tag kind parts) := by
  have hignored (t : Tree) : Always P (do
      modify fun n : Naming => { n with ignoring := true }
      let t ← Pass.inside visit t
      modify fun n : Naming => { n with ignoring := false }
      return [t]) :=
    Always.bind hP (Always.update hP _) fun _ => Always.bind hP (Always.inside hP hvisit t) fun _ =>
      Always.bind hP (Always.update hP _) fun _ => Always.pure hP _
  unfold Rename.rule
  split
  · refine Always.bind hP (Always.bind hP (Always.state hP) fun n => ?_) fun _ =>
      Always.bind hP (Always.lift hP (hP.keep _)) fun _ => Always.pure hP _
    split
    · exact Always.pure hP _
    · split
      · exact Always.bind hP (Always.set hP _) fun _ => Always.pure hP _
      · exact Always.pure hP _
    · exact Always.pure hP _
  · exact Always.bind hP (hP.function hvisit tag _ parts) fun _ => Always.pure hP _
  · exact hignored _
  · exact hignored _
  · exact hignored _
  · exact Always.pure hP _
  · exact Always.bind hP (Always.inside hP hvisit _) fun _ => Always.pure hP _

omit hvisit in
theorem rename (naming : Naming) (t : Tree) : P _ (Rename.run naming t) := Always.runDeep hP hP.renameRule t _

end Observant
end SourceOptimizer.Work
