import SourceOptimizer.Proofs.Fixpoint

/-! What a run leaves of a tree without shared nodes, put together from what is left of its parts. -/
namespace SourceOptimizer.Pass.DeadBranch
open Tree Work

variable {tag : Tag} {kind : Kind} {parts parts' ts : List Tree} {t t' : Tree} {s s' : Session}

def chosen (tag : Tag) (kind : Kind) (parts : List Tree) : List Tree :=
  match kind, parts with
  | .ifStmt, [test, body, other] =>
    match test.literal? with
    | some l => (if l.value.truth then body else other).items
    | none => [.node tag kind parts]
  | .whileStmt, test :: _ => if test.literal?.all (·.value.truth) then [.node tag kind parts] else []
  | .ifExp, [test, body, other] =>
    match test.literal? with
    | some l => [if l.value.truth then body else other]
    | none => [.node tag kind parts]
  | _, _ => [.node tag kind parts]

mutual

def pruned : Tree → List Tree
  | .node tag kind parts => chosen tag kind (prunedParts parts)
  | .seq items => [.seq (prunedItems items)]
  | .absent => [.absent]
  | .shared id => [.shared id]

def prunedParts : List Tree → List Tree
  | [] => []
  | p :: ps => single (pruned p) :: prunedParts ps

def prunedItems : List Tree → List Tree
  | [] => []
  | t :: ts => pruned t ++ prunedItems ts

end

theorem chosen_of_calm (tag : Tag) (h : calm kind parts = true) : chosen tag kind parts = [.node tag kind parts] := by
  unfold calm at h
  split at h
  · rw [Option.isNone_iff_eq_none] at h
    simp only [chosen, h]
  · simp only [chosen, h, if_true]
  · rw [Option.isNone_iff_eq_none] at h
    simp only [chosen, h]
  next hif hwhile hifExp =>
    unfold chosen
    split
    · exact absurd rfl (hif _ _ _ rfl)
    · exact absurd rfl (hwhile _ _ rfl)
    · exact absurd rfl (hifExp _ _ _ rfl)
    · rfl

theorem Takes.chosen {r : Store} (h : Takes r kind parts ts) (tag : Tag) (hplain : refsAll parts = []) :
    chosen tag kind parts = ts := by
  have hliteral {test : Tree} (htest : test ∈ parts) : (r.look test).literal? = test.literal? := by
    rw [Store.Empty.look (refs_of_mem hplain htest)]
  cases h with
  | branch hl | choice hl =>
    rw [hliteral (by simp)] at hl
    simp only [DeadBranch.chosen, hl]
  | nothing hl hfalse =>
    rw [hliteral (by simp)] at hl
    simp [DeadBranch.chosen, hl, hfalse]

/-! ## The pass -/

def Prunes : Outcome := fun t _ ts _ => ts = pruned t

theorem PartsTo.pruned (h : PartsTo Prunes parts s parts' s') : parts' = prunedParts parts := by
  induction h with
  | nil => rfl
  | cons head _ ih => rw [prunedParts, ← head, ← ih]

theorem ItemsTo.pruned {items items' : List Tree} (h : ItemsTo Prunes items s items' s') : items' = prunedItems items := by
  induction h with
  | nil => rfl
  | cons head _ ih => rw [prunedItems, ← head, ← ih]

theorem plainPrunes : PlainSound (Both Sheds Prunes) step := by
  refine plainSound.also ?_ (fun hto => by rw [Prunes, DeadBranch.pruned, ItemsTo.pruned (hto.imp And.right)]) fun _ => rfl
  intro s s' tag kind parts visited ts hs _ hvisited h _
  obtain ⟨parts', m, -, hto, hchoose⟩ := returns_step_plain hs hvisited h
  have hplain := (hto.imp And.left).shed.plain
  rw [Prunes, DeadBranch.pruned, ← PartsTo.pruned (hto.imp And.right)]
  rcases choose_results hplain hchoose with ⟨hcalm, rfl, -⟩ | ⟨htakes, -⟩
  · exact (chosen_of_calm tag hcalm).symm
  · exact (htakes.chosen tag hplain).symm

theorem run_prunes (ht : refs t = []) (hs : s.store.Empty) (h : Returns (run step t) s t' s') :
    s'.store.Empty ∧ refs t' = [] ∧ t' = single (pruned t) := by
  obtain ⟨hs', ts, rfl, hsheds, rfl⟩ := run_plain plainPrunes ht hs h
  exact ⟨hs', refs_single hsheds.plain, rfl⟩

end SourceOptimizer.Pass.DeadBranch
