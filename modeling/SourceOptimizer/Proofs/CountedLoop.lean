import SourceOptimizer.Proofs.Execution
import SourceOptimizer.Proofs.Unrolling

/-! An unrolled loop runs as the loop does. The loop counts from its start by its step until it comes to its stop;
in each round it assigns the number to its target and runs its body, whatever the body does to the target. -/
namespace SourceOptimizer
universe u v

namespace Pass.Unroll.Bounds
variable {b : Bounds}

def Within (b : Bounds) : Prop := 0 < b.step ∧ b.start < b.stop ∨ b.step < 0 ∧ b.stop < b.start

instance (b : Bounds) : Decidable b.Within := inferInstanceAs (Decidable (_ ∨ _))

def next (b : Bounds) : Bounds := { b with start := b.start + b.step }

def distance (b : Bounds) : Nat := if 0 < b.step then (b.stop - b.start).toNat else (b.start - b.stop).toNat

theorem distance_next_lt (h : b.Within) : b.next.distance < b.distance := by
  rcases h with ⟨hstep, hlt⟩ | ⟨hstep, hlt⟩
  · simp only [distance, next, hstep, if_true]
    omega
  · have hnot : ¬ 0 < b.step := by omega
    simp only [distance, next, hnot, if_false]
    omega

theorem ceil_succ {d k : Int} (hk : 0 < k) (hd : 0 < d) :
    ((d + k - 1) / k).toNat = ((d - k + k - 1) / k).toNat + 1 := by
  have hsplit : d + k - 1 = d - k + k - 1 + 1 * k := by omega
  have hnonneg : 0 ≤ (d - k + k - 1) / k := Int.ediv_nonneg (by omega) (by omega)
  rw [hsplit, Int.add_mul_ediv_right _ _ (by omega)]
  omega

theorem ceil_eq_zero {d k : Int} (hk : 0 < k) (hd : d ≤ 0) : ((d + k - 1) / k).toNat = 0 := by
  have hlt : (d + k - 1) / k < 1 := Int.ediv_lt_of_lt_mul hk (by omega)
  omega

theorem count_of_within (h : b.Within) : b.count = b.next.count + 1 := by
  rcases h with ⟨hstep, hlt⟩ | ⟨hstep, hlt⟩
  · have hceil := ceil_succ hstep (show 0 < b.stop - b.start by omega)
    simp only [count, next, hstep, if_true]
    rw [hceil, Int.sub_sub]
  · -- downwards, with the signs of step and distance turned
    have hnot : ¬ 0 < b.step := by omega
    have hceil := ceil_succ (show 0 < -b.step by omega) (show 0 < b.start - b.stop by omega)
    simp only [count, next, hnot, hstep, if_false, if_true]
    rw [show b.start - b.stop - b.step - 1 = b.start - b.stop + -b.step - 1 by omega, hceil,
      show b.start + b.step - b.stop - b.step - 1 = b.start - b.stop - -b.step + -b.step - 1 by omega]

theorem count_of_not_within (h : ¬ b.Within) : b.count = 0 := by
  unfold Within at h
  unfold count
  split
  next hstep => exact ceil_eq_zero hstep (by omega)
  next hnot =>
    split
    next hstep =>
      exact ceil_eq_zero (by omega) (by omega)
    next => rfl

theorem numbers_of_within (h : b.Within) : b.numbers = b.start :: b.next.numbers := by
  rw [numbers, numbers, count_of_within h, List.range_succ_eq_map, List.map_cons, List.map_map]
  congr 1
  · simp
  · refine List.map_congr_left fun i _ => ?_
    simp only [Function.comp, next, Nat.succ_eq_add_one, Int.natCast_add, Int.mul_add]
    omega

theorem numbers_of_not_within (h : ¬ b.Within) : b.numbers = [] := by
  rw [numbers, count_of_not_within h]
  rfl

end Pass.Unroll.Bounds

open Pass Unroll Store Tree Work
variable {S : Type u} {R : Type v}

/-- A loop over the numbers between bounds. In each round the number is assigned, then the body runs. -/
def Run.counting (assign : Int → Run S R) (body : Run S R) (b : Bounds) : Run S R :=
  if b.Within then (assign b.start).seq (body.again (counting assign body b.next)) else .skip
termination_by b.distance
decreasing_by exact Bounds.distance_next_lt ‹_›

theorem Run.counting_of_within {assign : Int → Run S R} {body : Run S R} {b : Bounds} (h : b.Within) :
    counting assign body b = (assign b.start).seq (body.again (counting assign body b.next)) := by
  conv =>
    lhs
    rw [counting, if_pos h]

theorem Run.counting_of_not_within {assign : Int → Run S R} {body : Run S R} {b : Bounds} (h : ¬ b.Within) :
    counting assign body b = skip := by
  rw [counting, if_neg h]

structure Machine (S : Type u) (R : Type v) where
  exec : Tree → Run S R
  /-- a value is assigned to a target -/
  assign : Tree → Value → Run S R

/-- An assignment of a constant assigns its value, and a statement without jumps that belong to the loop around it
does not end with one. -/
structure Machine.Lawful (M : Machine S R) : Prop where
  assign : ∀ tag target ctag l parts,
    M.exec (.node tag .assign [.seq [target], .node ctag (.constant l) parts]) = M.assign target l.value
  settled : ∀ t, jumps t = 0 → (M.exec t).Settled

namespace Machine
variable {M : Machine S R}

def run (M : Machine S R) (stmts : List Tree) : Run S R := .block (stmts.map M.exec)

theorem settled_run (hM : M.Lawful) {body : List Tree} (h : ∀ t ∈ body, jumps t = 0) : (M.run body).Settled := by
  refine .block fun a ha => ?_
  obtain ⟨t, ht, rfl⟩ := List.mem_map.mp ha
  exact hM.settled t (h t ht)

theorem run_rounds (hM : M.Lawful) {target : Tree} {body : List Tree} (hbody : ∀ t ∈ body, jumps t = 0) {ns : List Int}
    {stmts : List Tree} (h : Rounds target body ns stmts) (b : Bounds) (hb : b.numbers = ns) :
    M.run stmts = Run.counting (fun n => M.assign target (.int n)) (M.run body) b := by
  induction h generalizing b with
  | nil =>
    have hend : ¬ b.Within := by
      intro hwithin
      simp [Bounds.numbers_of_within hwithin] at hb
    rw [Run.counting_of_not_within hend]
    rfl
  | @cons n ns tag ctag l stmts hvalue _ ih =>
    have hwithin : b.Within := by
      refine Classical.byContradiction fun hend => ?_
      simp [Bounds.numbers_of_not_within hend] at hb
    rw [Bounds.numbers_of_within hwithin] at hb
    obtain ⟨rfl, hnext⟩ := List.cons.inj hb
    calc M.run (.node tag .assign [.seq [target], .node ctag (.constant l) []] :: (body ++ stmts))
      _ = (M.assign target (.int b.start)).seq ((M.run body).seq (M.run stmts)) := by
        rw [run, List.map_cons, List.map_append, Run.block, Run.block_append, hM.assign, hvalue]
        rfl
      _ = (M.assign target (.int b.start)).seq ((M.run body).again
          (Run.counting (fun n => M.assign target (.int n)) (M.run body) b.next)) := by
        rw [ih b.next hnext, Run.again_of_settled (settled_run hM hbody)]
      _ = Run.counting (fun n => M.assign target (.int n)) (M.run body) b := by
        rw [Run.counting_of_within hwithin]

theorem run_unrolled (hM : M.Lawful) {s s' : Session} {tag : Tag} {target iterable seat u : Tree}
    {body : List Tree} {put : Tree → Tree} {visited : Work (List Tree)} (hs : s.store.Sound)
    (hseat : Seat s.store tag .forStmt [target, iterable, .seq body, .seq []] seat put)
    (hread : Readable .itself s.store [seat])
    (hplain : ∃ ctag f args, s.store.expand iterable = .node ctag .call [f, args, .seq []])
    (hjumps : ∀ t ∈ body, jumps (s.store.expand t) = 0)
    (h : Returns (step tag .forStmt [target, iterable, .seq body, .seq []] visited) s [u] s')
    (hmodule : u.kind? = some .moduleDef) :
    ∃ b mtag stmts, RangeCall (s.store.expand iterable) b (.seq []) ∧
      s'.store.expand (put u) = .node mtag .moduleDef [.seq stmts] ∧
      M.run stmts = Run.counting (fun n => M.assign (s.store.expand target) (.int n))
        (M.run (body.map s.store.expand)) b := by
  rcases returns_step h with ⟨b, hb, hts, rfl⟩ | ⟨_, _, hts⟩
  · obtain ⟨keywords, hcall⟩ := (rangeCall_expand hs hseat hread b).mp ⟨hb.range, hb.bounds⟩
    obtain ⟨mtag, stmts, hexpand, hrounds⟩ := expand_unrolled hs hseat hread b
    obtain ⟨ctag, f, args, hplain⟩ := hplain
    have hkeywords : keywords = .seq [] := by
      rw [hplain] at hcall
      cases hcall
      rfl
    subst hkeywords
    rw [← List.singleton_inj.mp hts] at hexpand
    refine ⟨b, mtag, stmts, hcall, hexpand, run_rounds hM ?_ hrounds b rfl⟩
    intro u hu
    obtain ⟨t, ht, rfl⟩ := List.mem_map.mp hu
    exact hjumps t ht
  · cases hts
    cases hmodule

def recorder : Machine (List (Tree × Option Value)) Unit where
  exec := fun t s =>
    match t with
    | .node _ .assign [.seq [target], .node _ (.constant l) _] => some (s ++ [(target, some l.value)], .normal)
    | .node _ .breakStmt _ => some (s, .broke)
    | .node _ .continueStmt _ => some (s, .continued)
    | .node _ .raiseStmt _ => some (s, .raised ())
    | .node _ .returnStmt _ => some (s, .returned ())
    | t => some (s ++ [(t, none)], .normal)
  assign := fun target value s => some (s ++ [(target, some value)], .normal)

theorem recorder_lawful : recorder.Lawful where
  assign := fun _ _ _ _ _ => rfl
  settled := by
    intro t ht s s' e h
    simp only [recorder] at h
    split at h
    next =>
      cases h
      exact id
    next => simp [jumps, Kind.isJump] at ht
    next => simp [jumps, Kind.isJump] at ht
    all_goals
      cases h
      exact id

def descending : List Tree :=
  [.node { id := 1 } (.name "i" .store) [],
   .node { id := 2 } .call
    [.node { id := 3 } (.name "range" .load) [],
     .seq [.node { id := 4 } (.constant { value := .int 10, origin := 4 }) [],
       .node { id := 5 } (.constant { value := .int 4, origin := 5 }) [],
       .node { id := 6 } (.constant { value := .int (-3), origin := 6 }) []],
     .seq []],
   .seq [.node { id := 7 } .passStmt []], .seq []]

theorem run_unrolled_descending :
    ∃ u s', Returns (step { id := 8 } .forStmt descending (pure [])) { store := { next := 9 } } [u] s' ∧
      ∃ b mtag stmts, RangeCall (Store.expand { next := 9 } descending[1]) b (.seq []) ∧
        s'.store.expand u = .node mtag .moduleDef [.seq stmts] ∧
        recorder.run stmts = Run.counting (fun n => recorder.assign (Store.expand { next := 9 } descending[0]) (.int n))
          (recorder.run [.node { id := 7 } .passStmt []]) b := by
  have hs : Sound { next := 9 } := Sound.empty.grow (by decide)
  have hseat : Seat { next := 9 } { id := 8 } .forStmt descending (.node { id := 8 } .forStmt descending) id :=
    .beside ⟨by decide, fun _ _ => by simp [Store.view], by decide, by decide⟩
  have hreplaced : Replaced { next := 9 } descending[1] [.node { id := 7 } .passStmt []] ⟨10, 4, -3⟩ :=
    ⟨rfl, rfl, by decide, by decide⟩
  have hreturns : Returns (step { id := 8 } .forStmt descending (pure [])) { store := { next := 9 } } _ _ :=
    returns_of_replaced hreplaced
  have hjumps : ∀ t ∈ [Tree.node { id := 7 } .passStmt []], jumps (Store.expand { next := 9 } t) = 0 := by
    intro t ht
    cases List.mem_singleton.mp ht
    rfl
  have hrun := run_unrolled recorder_lawful hs hseat (readable_plain rfl) ⟨_, _, _, rfl⟩ hjumps hreturns rfl
  exact ⟨_, _, hreturns, hrun⟩

end Machine

end SourceOptimizer
