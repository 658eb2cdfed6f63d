import SourceOptimizer.Proofs.PlainVisits

/-! What passes are made of. A property of work that the actions of passes have, and that sequencing
preserves, is one of the whole visit. -/
namespace SourceOptimizer.Work
open Pass

variable {α : Type} {step : Step Work} {again : Nat → Work (List Tree)}

/-- A property that sequencing preserves and that the actions that cannot fail have. -/
structure Sequential (P : (α : Type) → Work α → Prop) : Prop extends Threaded P where
  look : ∀ t, P Tree (look t)
  keep : ∀ t, P Unit (keep t)
  done : P Unit done

/-- A property that sequencing preserves and that the actions of passes have. -/
structure Compositional (P : (α : Type) → Work α → Prop) : Prop extends Sequential P where
  throw : ∀ {α : Type} (e : Fault), P α (throw e)
  adopt : ∀ t, P Tree (adopt t)
  flag : ∀ message nodes, P Unit (flag message nodes)

def Compositional.OfStep (P : (α : Type) → Work α → Prop) (step : Step Work) : Prop :=
  ∀ tag kind parts visited, P _ visited → P _ (step tag kind parts visited)

open Compositional (OfStep)

variable {P : (α : Type) → Work α → Prop}

namespace Sequential
variable (hP : Sequential P)
include hP

theorem literal? (t : Tree) : P _ (literal? t) := hP.bind (hP.look t) fun _ => hP.pure _

theorem doneReturn (a : α) : P α (do Work.done; return a) := hP.bind hP.done fun _ => hP.pure a

theorem descend (tag : Tag) (kind : Kind) {visited : Work (List Tree)} (h : P _ visited) :
    P _ (descend tag kind visited) := hP.bind h fun _ => hP.bind (hP.keep _) fun _ => hP.pure _

theorem revise (t : Tree) {k : List Tree → Work (List Tree)} (hk : ∀ parts, P _ (k parts)) : P _ (revise t k) := by
  refine hP.bind (hP.look t) fun u => ?_
  split
  · refine hP.bind (hk _) fun _ => hP.bind (hP.keep _) fun _ => ?_
    split
    · exact hP.pure _
    · exact hP.pure _
  · exact hP.pure _

/-! ## Visits -/

mutual

theorem visit (hstep : OfStep P step) (hagain : ∀ id, P _ (again id)) :
    (t : Tree) → P _ (visit step again t)
  | .node tag kind parts => hstep tag kind parts _ (visitParts hstep hagain parts)
  | .seq items => hP.bind (visitItems hstep hagain items) fun _ => hP.pure _
  | .absent => hP.pure _
  | .shared id => hagain id

theorem visitParts (hstep : OfStep P step)
    (hagain : ∀ id, P _ (again id)) : (ps : List Tree) → P _ (visitParts step again ps)
  | [] => hP.pure _
  | p :: ps => hP.bind (visit hstep hagain p) fun _ => hP.bind (visitParts hstep hagain ps) fun _ => hP.pure _

theorem visitItems (hstep : OfStep P step)
    (hagain : ∀ id, P _ (again id)) : (ts : List Tree) → P _ (visitItems step again ts)
  | [] => hP.pure _
  | t :: ts => hP.bind (visit hstep hagain t) fun _ => hP.bind (visitItems hstep hagain ts) fun _ => hP.pure _

end

theorem visitWithin (hstep : OfStep P step) (depth : Nat) (t : Tree) :
    P _ (visitWithin fetch step depth t) := by
  induction depth generalizing t with
  | zero => exact hP.pure _
  | succ depth ih =>
    exact hP.visit hstep (fun _ => hP.bind (hP.look _) fun u => hP.bind (ih u) fun _ => hP.pure _) t

/-! ## Steps -/

theorem choose (tag : Tag) (kind : Kind) (parts : List Tree) : P _ (DeadBranch.choose tag kind parts) := by
  have hdecided (test : Tree) : P _ (DeadBranch.decided? test) := hP.bind (hP.literal? test) fun _ => hP.pure _
  unfold DeadBranch.choose
  split
  · refine hP.bind (hdecided _) fun _ => ?_
    split
    · exact hP.doneReturn _
    · exact hP.doneReturn _
    · exact hP.pure _
  · refine hP.bind (hdecided _) fun _ => ?_
    split
    · exact hP.doneReturn _
    · exact hP.pure _
  · refine hP.bind (hdecided _) fun _ => ?_
    split
    · exact hP.doneReturn _
    · exact hP.doneReturn _
    · exact hP.pure _
  · exact hP.pure _

theorem deadBranch : OfStep P DeadBranch.step := by
  intro tag kind parts visited h
  exact hP.bind h fun parts' => hP.bind (hP.keep _) fun _ => hP.choose tag kind parts'

end Sequential

namespace Compositional
variable (hP : Compositional P)
include hP

theorem fold : OfStep P Fold.step := by
  intro tag kind parts visited h
  have hreplace (node : Tree) (result : Except Fault Value) : P _ (Fold.replace node result) := by
    cases result with
    | ok v => exact hP.bind hP.done fun _ => hP.bind (hP.adopt _) fun _ => hP.pure _
    | error e => exact hP.bind (hP.flag _ _) fun _ => hP.bind (hP.adopt _) fun _ => hP.pure _
  have hcondition (test : Tree) : P _ (Fold.foldCondition tag kind test visited) := by
    refine hP.bind (hP.bind (hP.literal? test) fun l => ?_) fun c => ?_
    · split
      · exact hP.pure _
      · exact hP.bind hP.done fun _ => hP.bind (hP.adopt _) fun _ => hP.pure _
      · exact hP.pure _
    · split
      · exact hP.descend tag kind (hP.bind h fun _ => hP.pure _)
      · exact hP.descend tag kind h
  unfold Fold.step
  split
  · exact hcondition _
  · exact hcondition _
  · refine hP.bind (hP.literal? _) fun _ => hP.bind (hP.literal? _) fun _ => ?_
    split
    · exact hreplace _ _
    · exact hP.descend tag _ h
  · refine hP.bind (hP.literal? _) fun _ => hP.bind (hP.literal? _) fun _ => ?_
    split
    · exact hreplace _ _
    · exact hP.descend tag _ h
  · exact hP.descend tag kind h

theorem stripParameter (t : Tree) : P _ (Documentation.stripParameter t) := by
  refine hP.revise t fun parts => ?_
  split
  · split
    · exact hP.pure _
    · exact hP.doneReturn _
  · exact hP.pure _

theorem stripVariadic (t : Tree) : P _ (Documentation.stripVariadic t) := by
  unfold Documentation.stripVariadic
  split
  · exact hP.pure _
  · exact hP.stripParameter t

theorem stripKeywordVariadic (v t : Tree) : P _ (Documentation.stripKeywordVariadic v t) := by
  unfold Documentation.stripKeywordVariadic
  split
  · exact hP.pure _
  · split
    · exact hP.throw _
    · refine hP.bind (hP.bind (hP.look v) fun u => ?_) fun typed => ?_
      · split
        · exact hP.pure _
        · exact hP.pure _
      · split
        · exact hP.stripParameter t
        · exact hP.pure _

theorem stripParameters (t : Tree) : P _ (Documentation.stripParameters t) := by
  refine hP.revise t fun parts => ?_
  split
  · exact hP.bind (hP.mapM hP.stripParameter _) fun _ => hP.bind (hP.mapM hP.stripParameter _) fun _ =>
      hP.bind (hP.stripVariadic _) fun _ => hP.bind (hP.stripKeywordVariadic _ _) fun _ => hP.pure _
  · exact hP.pure _

theorem isText (t : Tree) : P _ (Documentation.isText t) := by
  refine hP.bind (hP.look t) fun u => ?_
  split
  · refine hP.bind (hP.literal? _) fun l => ?_
    split
    · exact hP.pure _
    · exact hP.pure _
  · exact hP.pure _

theorem stripBody (body : List Tree) : P _ (Documentation.stripBody body) := by
  induction body with
  | nil => exact hP.pure _
  | cons t ts ih =>
    refine hP.bind (hP.isText t) fun isText => ?_
    split
    · exact hP.bind hP.done fun _ => ih
    · exact hP.bind ih fun _ => hP.pure _

theorem documentedBody (body : List Tree) : P _ (Documentation.documentedBody body) := by
  refine hP.bind (hP.stripBody body) fun us => ?_
  split
  · exact hP.bind hP.done fun _ => hP.bind (hP.adopt _) fun _ => hP.pure _
  · exact hP.pure _

theorem dropResult (t : Tree) : P _ (Documentation.dropResult t) := by
  unfold Documentation.dropResult
  split
  · exact hP.pure _
  · exact hP.doneReturn _

theorem strip (kind : Kind) (parts : List Tree) : P _ (Documentation.strip kind parts) := by
  unfold Documentation.strip
  split
  · exact hP.bind (hP.stripParameters _) fun _ => hP.bind (hP.dropResult _) fun _ =>
      hP.bind (hP.documentedBody _) fun _ => hP.pure _
  · exact hP.bind (hP.documentedBody _) fun _ => hP.pure _
  · exact hP.bind (hP.documentedBody _) fun _ => hP.pure _
  · exact hP.pure _

theorem documentation : OfStep P Documentation.step := by
  intro tag kind parts visited h
  exact hP.descend tag kind (hP.bind h fun parts' => hP.strip kind parts')

end Compositional

/-! ## What passes leave alone -/

def Aloof {γ : Type} (f : Session → γ) : Prop :=
  ∀ s store changed notices log,
    f { s with store := store, changed := changed, notices := notices, log := log } = f s

theorem compositional_fixes {γ : Type} {f : Session → γ} (hf : Aloof f) : Compositional fun _ x => Fixes f x where
  pure := .pure
  throw := .throw
  bind := .bind
  look := .look
  keep := fixes_keep fun s t => hf s t s.changed s.notices s.log
  adopt := fixes_adopt fun s t => hf s t s.changed s.notices s.log
  done := .modify fun s => hf s s.store true s.notices s.log
  flag := fixes_flag fun s notices log => hf s s.store s.changed notices log

end SourceOptimizer.Work
