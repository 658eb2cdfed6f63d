/-! Runs of statements. A run starts in a state and ends, if it ends, in a state and in some way; what it has
done on the way, its trace, is part of the state. Loops are runs made of runs. -/
namespace SourceOptimizer
universe u v w x

variable {n : Nat}

/-- How a statement ends, with what it raises or returns. -/
inductive Exit (R : Type v) where
  | normal
  | broke
  | continued
  | raised (r : R)
  | returned (r : R)

def Exit.IsJump {R : Type v} : Exit R → Prop
  | .broke | .continued => True
  | _ => False

def Run (S : Type u) (R : Type v) := S → Option (S × Exit R)

namespace Run
variable {S : Type u} {R : Type v} {a b c : Run S R} {as bs : List (Run S R)}

def skip : Run S R := fun s => some (s, .normal)

def seq (a b : Run S R) : Run S R := fun s =>
  match a s with
  | some (s, .normal) => b s
  | r => r

def block : List (Run S R) → Run S R
  | [] => skip
  | a :: as => a.seq (block as)

@[simp] theorem skip_seq (a : Run S R) : skip.seq a = a := rfl

@[simp] theorem seq_skip (a : Run S R) : a.seq skip = a := by
  funext s
  unfold seq
  split
  next h => rw [h, skip]
  next => rfl

theorem seq_assoc (a b c : Run S R) : (a.seq b).seq c = a.seq (b.seq c) := by
  funext s
  simp only [seq]
  cases a s with
  | none => rfl
  | some r =>
    obtain ⟨s, e⟩ := r
    cases e <;> rfl

theorem block_append (as bs : List (Run S R)) : block (as ++ bs) = (block as).seq (block bs) := by
  induction as with
  | nil => rfl
  | cons a as ih => rw [List.cons_append, block, block, ih, seq_assoc]

def Settled (a : Run S R) : Prop := ∀ s s' e, a s = some (s', e) → ¬ e.IsJump

theorem Settled.seq (ha : Settled a) (hb : Settled b) : Settled (a.seq b) := by
  intro s s' e h
  unfold Run.seq at h
  split at h
  · exact hb _ _ _ h
  · exact ha _ _ _ h

theorem Settled.block (h : ∀ a ∈ as, Settled a) : Settled (block as) := by
  induction as with
  | nil =>
    intro s s' e hskip
    cases hskip
    exact id
  | cons a as ih => exact (h a (by simp)).seq (ih fun b hb => h b (List.mem_cons_of_mem a hb))

end Run

/-! ## Conditions -/

/-- An evaluation gives a value or raises, without a result if it does not end. -/
def Eval (S : Type u) (R : Type v) (V : Type w) := S → Option (S × Except R V)

namespace Eval
variable {S : Type u} {R : Type v} {V : Type w}

def pure (v : V) : Eval S R V := fun s => some (s, .ok v)

def bind {W : Type x} (e : Eval S R V) (f : V → Eval S R W) : Eval S R W := fun s =>
  match e s with
  | some (s, .ok v) => f v s
  | some (s, .error r) => some (s, .error r)
  | none => none

theorem pure_bind {W : Type x} (v : V) (f : V → Eval S R W) : (pure v).bind f = f v := rfl

end Eval

namespace Run
variable {S : Type u} {R : Type v}

def branch (test : Eval S R Bool) (a b : Run S R) : Run S R := fun s =>
  match test s with
  | some (s, .ok true) => a s
  | some (s, .ok false) => b s
  | some (s, .error r) => some (s, .raised r)
  | none => none

theorem branch_pure (c : Bool) (a b : Run S R) : branch (.pure c) a b = if c then a else b := by
  cases c <;> rfl

/-! ## Loops -/

/-- A body runs in a loop. A jump of the body ends the round or the loop, and what is raised or returned ends the
loop. -/
def again (body next : Run S R) : Run S R := fun s =>
  match body s with
  | some (s, .normal) => next s
  | some (s, .continued) => next s
  | some (s, .broke) => some (s, .normal)
  | r => r

theorem again_of_settled (h : Settled body) (next : Run S R) : body.again next = body.seq next := by
  funext s
  unfold again seq
  cases hbody : body s with
  | none => rfl
  | some r =>
    obtain ⟨s', e⟩ := r
    cases e with
    | broke | continued => exact absurd trivial (h s s' _ hbody)
    | _ => rfl

/-- One round of a loop, told what follows it. The else clause runs once the condition does not hold, and not after
a break. -/
def round (test : Eval S R Bool) (body other next : Run S R) : Run S R := branch test (body.again next) other

def loopWithin (test : Eval S R Bool) (body other : Run S R) : Nat → Run S R
  | 0 => fun _ => none
  | n + 1 => round test body other (loopWithin test body other n)

open Classical in
noncomputable def loop (test : Eval S R Bool) (body other : Run S R) : Run S R := fun s =>
  if h : ∃ r n, loopWithin test body other n s = some r then some h.choose else none

section
variable {test : Eval S R Bool} {body other next : Run S R} {s : S} {r : S × Exit R}

theorem round_cases (h : round test body other next s = some r) :
    (∀ next', round test body other next' s = some r) ∨
      ∃ s', next s' = some r ∧ ∀ next', round test body other next' s = next' s' := by
  simp only [round, branch, again] at h ⊢
  split at h
  next =>
    split at h
    next s' _ => exact .inr ⟨s', h, fun _ => rfl⟩
    next s' _ => exact .inr ⟨s', h, fun _ => rfl⟩
    next => exact .inl fun _ => h
    next => exact .inl fun _ => h
  next => exact .inl fun _ => h
  next => exact .inl fun _ => h
  next => cases h

theorem loopWithin_succ (h : loopWithin test body other n s = some r) :
    loopWithin test body other (n + 1) s = some r := by
  induction n generalizing s with
  | zero => cases h
  | succ n ih =>
    rcases round_cases h with hends | ⟨s', hnext, hround⟩
    · exact hends _
    · rw [loopWithin, hround]
      exact ih hnext

theorem loopWithin_mono {m : Nat} (hnm : n ≤ m) (h : loopWithin test body other n s = some r) :
    loopWithin test body other m s = some r := by
  induction hnm with
  | refl => exact h
  | step _ ih => exact loopWithin_succ ih

theorem loop_eq_some : loop test body other s = some r ↔ ∃ n, loopWithin test body other n s = some r := by
  constructor
  · intro h
    unfold loop at h
    split at h
    next hends =>
      cases h
      exact hends.choose_spec
    next => cases h
  · rintro ⟨n, hn⟩
    have hends : ∃ r n, loopWithin test body other n s = some r := ⟨r, n, hn⟩
    obtain ⟨m, hm⟩ := hends.choose_spec
    have hsame : some hends.choose = some r := by
      rw [← loopWithin_mono (Nat.le_max_left m n) hm, loopWithin_mono (Nat.le_max_right m n) hn]
    rw [loop, dif_pos hends, hsame]

theorem loop_eq_round (test : Eval S R Bool) (body other : Run S R) :
    loop test body other = round test body other (loop test body other) := by
  funext s
  refine Option.ext fun r => ?_
  rw [loop_eq_some]
  constructor
  · rintro ⟨n, hn⟩
    cases n with
    | zero => cases hn
    | succ n =>
      rcases round_cases hn with hends | ⟨s', hnext, hround⟩
      · exact hends _
      · rw [hround]
        exact loop_eq_some.mpr ⟨n, hnext⟩
  · intro h
    rcases round_cases h with hends | ⟨s', hnext, hround⟩
    · -- a round that ends the loop ends it also if the loop is then given up
      exact ⟨1, hends _⟩
    · obtain ⟨n, hn⟩ := loop_eq_some.mp hnext
      exact ⟨n + 1, (hround _).trans hn⟩

theorem loop_false (body other : Run S R) : loop (.pure false) body other = other := by
  rw [loop_eq_round, round, branch_pure]
  rfl

end

end Run
end SourceOptimizer
