import SourceOptimizer.Proofs.CountedLoop

/-! How long an unrolled loop gets. The limit is checked with an estimate that rounds the number of rounds
down, while a loop rounds it up. -/
namespace SourceOptimizer.Pass.Unroll
open Store Tree Work

namespace Bounds
variable {b : Bounds} {n : Nat}

theorem ceil_eq_floor_add {d k : Int} (hk : 0 < k) : (d + k - 1) / k = d / k + if k ∣ d then 0 else 1 := by
  have hnonneg := Int.emod_nonneg d (by omega : k ≠ 0)
  have hsmall := Int.emod_lt_of_pos d hk
  have hdiv : d / k * k + d % k = d := Int.mul_comm k (d / k) ▸ Int.mul_ediv_add_emod d k
  split
  next hdvd =>
    have hzero := Int.emod_eq_zero_of_dvd hdvd
    have hsplit : d + k - 1 = k - 1 + d / k * k := by omega
    rw [hsplit, Int.add_mul_ediv_right _ _ (by omega), Int.ediv_eq_zero_of_lt (by omega) (by omega)]
    omega
  next hdvd =>
    have hpos : d % k ≠ 0 := fun h => hdvd (Int.dvd_of_emod_eq_zero h)
    have hsplit : d + k - 1 = d % k - 1 + (d / k + 1) * k := by
      rw [Int.add_mul]
      omega
    rw [hsplit, Int.add_mul_ediv_right _ _ (by omega), Int.ediv_eq_zero_of_lt (by omega) (by omega)]
    omega

theorem count_eq (h : b.step ≠ 0) :
    (b.count : Int) = max 0 ((b.stop - b.start).fdiv b.step + if b.step ∣ b.stop - b.start then 0 else 1) := by
  unfold count
  split
  next hpos => rw [Int.fdiv_eq_ediv_of_nonneg _ (by omega), ← ceil_eq_floor_add hpos, Int.toNat_eq_max, max_comm]
  next hneg =>
    -- downwards, with the signs of step and distance turned
    have hstep : b.step < 0 := by omega
    have hdvd : b.step ∣ b.stop - b.start ↔ -b.step ∣ b.start - b.stop := by
      rw [Int.neg_dvd, ← Int.dvd_neg, Int.neg_sub]
    have hfloor : (b.stop - b.start).fdiv b.step = (b.start - b.stop) / -b.step := by
      rw [← Int.neg_fdiv_neg, Int.neg_sub, Int.fdiv_eq_ediv_of_nonneg _ (by omega)]
    rw [if_pos hstep, hfloor, if_congr hdvd rfl rfl, ← ceil_eq_floor_add (by omega), Int.toNat_eq_max, max_comm]
    rfl

theorem count_mul_eq (h : b.step ≠ 0) (n : Nat) :
    ((b.count * n : Nat) : Int) = max 0 (b.estimate n + if b.step ∣ b.stop - b.start then 0 else (n : Int)) := by
  rw [Int.natCast_mul, count_eq h, max_mul_of_nonneg _ _ (Int.natCast_nonneg n), Int.zero_mul, Int.add_mul, estimate]
  split
  · rw [Int.zero_mul]
  · rw [Int.one_mul]

theorem length_numbers (b : Bounds) : b.numbers.length = b.count := by simp [numbers]

end Bounds

variable {target : Tree} {body stmts : List Tree} {ns : List Int}

theorem Rounds.length_eq (h : Rounds target body ns stmts) : stmts.length = ns.length + ns.length * body.length := by
  induction h with
  | nil => simp
  | cons _ _ ih =>
    rw [List.length_cons, List.length_append, ih, List.length_cons, Nat.add_mul]
    omega

theorem emits_rounds {s : Session} {tag : Tag} {target iterable other seat : Tree} {body : List Tree}
    {put : Tree → Tree} {b : Bounds} (visited : Work (List Tree)) (hs : s.store.Sound)
    (hseat : Seat s.store tag .forStmt [target, iterable, .seq body, other] seat put)
    (hread : Readable .itself s.store [seat]) (hb : Replaced s.store iterable body b) :
    ∃ u s' mtag stmts, Returns (step tag .forStmt [target, iterable, .seq body, other] visited) s [u] s' ∧
      u.kind? = some .moduleDef ∧ s'.store.expand (put u) = .node mtag .moduleDef [.seq stmts] ∧
      Rounds (s.store.expand target) (body.map s.store.expand) b.numbers stmts := by
  obtain ⟨mtag, stmts, hexpand, hrounds⟩ := expand_unrolled hs hseat hread b
  exact ⟨_, _, mtag, stmts, returns_of_replaced hb, rfl, hexpand, hrounds⟩

/-- A loop that is unrolled has at most as many statements as the limit allows if its step divides the distance, and
else up to one round more. -/
theorem emitted_within_limit {s s' : Session} {tag : Tag} {target iterable other seat u : Tree} {body : List Tree}
    {put : Tree → Tree} {visited : Work (List Tree)} (hs : s.store.Sound)
    (hseat : Seat s.store tag .forStmt [target, iterable, .seq body, other] seat put)
    (hread : Readable .itself s.store [seat])
    (h : Returns (step tag .forStmt [target, iterable, .seq body, other] visited) s [u] s')
    (hmodule : u.kind? = some .moduleDef) :
    ∃ b keywords mtag stmts, RangeCall (s.store.expand iterable) b keywords ∧ b.step ≠ 0 ∧
      s'.store.expand (put u) = .node mtag .moduleDef [.seq stmts] ∧
      Rounds (s.store.expand target) (body.map s.store.expand) b.numbers stmts ∧
      stmts.length - b.numbers.length = b.numbers.length * body.length ∧
      (maxLines < (b.numbers.length * body.length : Nat) ↔
        ¬ b.step ∣ b.stop - b.start ∧ maxLines < b.estimate body.length + body.length) ∧
      (b.numbers.length * body.length : Nat) ≤ maxLines + body.length := by
  rcases returns_step h with ⟨b, hb, _⟩ | ⟨_, _, hu⟩
  · obtain ⟨keywords, hcall⟩ := (rangeCall_expand hs hseat hread b).mp ⟨hb.range, hb.bounds⟩
    obtain ⟨_, _, mtag, stmts, h', _, hexpand, hrounds⟩ := emits_rounds visited hs hseat hread hb
    obtain ⟨hu, rfl⟩ := (returns_eq h').mp h
    rw [List.singleton_inj.mp hu] at hexpand
    have hlength := hrounds.length_eq
    have hestimate := hb.estimate_le
    have hlimit : (0 : Int) ≤ maxLines := by decide
    have hcount := Bounds.count_mul_eq hb.step_ne body.length
    rw [← Bounds.length_numbers] at hcount
    refine ⟨b, keywords, mtag, stmts, hcall, hb.step_ne, hexpand, hrounds, ?_, ?_, ?_⟩
    · rw [List.length_map] at hlength
      omega
    · rw [hcount]
      split <;> simp_all
    · rw [hcount]
      split <;> omega
  · cases hu
    cases hmodule

def halving : List Tree :=
  [.node { id := 1 } (.name "i" .store) [],
   .node { id := 2 } .call
    [.node { id := 3 } (.name "range" .load) [],
     .seq [.node { id := 4 } (.constant { value := .int 0, origin := 4 }) [],
       .node { id := 5 } (.constant { value := .int 2001, origin := 5 }) [],
       .node { id := 6 } (.constant { value := .int 2, origin := 6 }) []],
     .seq []],
   .seq [.node { id := 7 } .passStmt []], .seq []]

theorem replaced_halving : Replaced { next := 9 } halving[1] [.node { id := 7 } .passStmt []] ⟨0, 2001, 2⟩ :=
  ⟨rfl, rfl, by decide, by decide⟩

theorem seat_halving : Seat { next := 9 } { id := 8 } .forStmt halving (.node { id := 8 } .forStmt halving) id :=
  .beside ⟨by decide, fun _ _ => by simp [Store.view], by decide, by decide⟩

theorem emitted_within_limit_halving :
    ∃ u s', Returns (step { id := 8 } .forStmt halving (pure [])) { store := { next := 9 } } [u] s' ∧
      ∃ b mtag stmts, s'.store.expand u = .node mtag .moduleDef [.seq stmts] ∧
        stmts.length - (Bounds.numbers b).length = b.numbers.length ∧ b.numbers.length ≤ maxLines + 1 := by
  have hs : Sound { next := 9 } := Sound.empty.grow (by decide)
  obtain ⟨u, s', _, _, hreturns, hmodule, _⟩ :=
    emits_rounds (s := { store := { next := 9 } }) (pure []) hs seat_halving (readable_plain rfl) replaced_halving
  obtain ⟨b, _, mtag, stmts, _, _, hexpand, _, hlength, _, hle⟩ :=
    emitted_within_limit hs seat_halving (readable_plain rfl) hreturns hmodule
  simp only [List.length_singleton, Nat.mul_one] at hlength hle
  exact ⟨u, s', hreturns, b, mtag, stmts, hexpand, hlength, hle⟩

theorem halving_exceeds_limit :
    ∃ u s' mtag stmts, Returns (step { id := 8 } .forStmt halving (pure [])) { store := { next := 9 } } [u] s' ∧
      s'.store.expand u = .node mtag .moduleDef [.seq stmts] ∧
      Rounds (Store.expand { next := 9 } halving[0]) [Store.expand { next := 9 } (.node { id := 7 } .passStmt [])]
        (Bounds.numbers ⟨0, 2001, 2⟩) stmts ∧
      maxLines < (stmts.length - (Bounds.numbers ⟨0, 2001, 2⟩).length : Nat) := by
  have hs : Sound { next := 9 } := Sound.empty.grow (by decide)
  obtain ⟨u, s', mtag, stmts, hreturns, _, hexpand, hrounds⟩ :=
    emits_rounds (s := { store := { next := 9 } }) (pure []) hs seat_halving (readable_plain rfl) replaced_halving
  refine ⟨u, s', mtag, stmts, hreturns, hexpand, hrounds, ?_⟩
  rw [hrounds.length_eq, Bounds.length_numbers]
  decide

end SourceOptimizer.Pass.Unroll
