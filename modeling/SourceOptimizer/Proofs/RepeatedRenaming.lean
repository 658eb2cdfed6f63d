import SourceOptimizer.Proofs.PlainVisits
import SourceOptimizer.Proofs.ScopeFree

/-! The renaming pass once more. Where functions have no scopes inside, a second run meets the new names in the order in which
the first one gave them, so it gives each of them to itself. -/
namespace SourceOptimizer.Pass.Rename
open Tree Naming

variable {n m k : Naming} {x : String} {t : Tree} {ts body : List Tree} {depth : Nat} {least most : List String} {τ : String → String}

theorem scopeFree_of_mem (h : scopeFreeAll ts = true) (ht : t ∈ ts) : scopeFree t = true := by
  induction ht with
  | head => exact (Bool.and_eq_true _ _ ▸ h).1
  | tail _ _ ih => exact ih (Bool.and_eq_true _ _ ▸ h).2

/-! ## Replacing names -/

theorem mapNames_alike (σ : String → String) (t : Tree) : isStatement (mapNames σ t) = isStatement t ∧
    declared? {} (mapNames σ t) = declared? {} t ∧ isFunction {} (mapNames σ t) = isFunction {} t := by
  cases t with
  | node tag kind parts => cases kind <;> exact ⟨rfl, rfl, rfl⟩
  | _ => exact ⟨rfl, rfl, rfl⟩

theorem isFunction_of_scopeFree (h : scopeFree t = true) : isFunction {} t = false := by
  cases t with
  | node tag kind parts =>
    cases kind with
    | functionDef => cases h
    | _ => rfl
  | _ => simp [isFunction, Store.look]

/-- A naming of the second run beside one of the first: it gives the new names to themselves. -/
structure Retraces (n m : Naming) : Prop where
  positive : 0 < n.assigned
  assigned_eq : m.assigned = n.assigned
  phase_eq : m.phase = n.phase
  bypassed_eq : m.bypassed = n.bypassed
  ignoring_eq : m.ignoring = n.ignoring
  named : ∀ {x new}, n.newName? x = some new → m.newName? new = some new
  only : ∀ {x new}, m.newName? x = some new → new = x ∧ ∃ y, n.newName? y = some x
  old : ∀ {x new}, n.newName? x = some new → Old n.assigned new

/-- The first run comes from a naming to one that bypasses no name that could be generated. -/
def Toward (n k : Naming) : Prop := (∃ least most, Notes least most n k) ∧ ∀ x ∈ k.bypassed, ¬ Lettered x

theorem Toward.before (h : Toward m k) (hnotes : Notes least most n m) : Toward n k :=
  have ⟨⟨_, _, hrest⟩, hletters⟩ := h
  ⟨⟨_, _, hnotes.trans hrest⟩, hletters⟩

namespace Retraces

theorem declare (h : Retraces n m) (names : List String) :
    Retraces { n with bypassed := n.bypassed ++ names } { m with bypassed := m.bypassed ++ names } :=
  { h with bypassed_eq := congrArg (· ++ names) h.bypassed_eq }

theorem skip (h : Retraces n m) (hnotes : Notes least most n k)
    (hskip : n.ignoring = true ∨ x ∈ n.bypassed ∨ (n.newName? x).isSome = true) : m.noteStore (k.replace x) = m := by
  rcases noteStore_cases (h.assigned_eq ▸ h.positive) (k.replace x) with ⟨heq, _⟩ | ⟨hignoring, hbypassed, hnone, _⟩
  · exact heq
  rw [h.ignoring_eq] at hignoring
  rw [h.bypassed_eq] at hbypassed
  cases hx : n.newName? x with
  | some new => simp [Naming.replace, hnotes.kept hx, h.named hx] at hnone
  | none =>
    simp only [hignoring, hx, Bool.false_eq_true, Option.isSome_none, or_false, false_or] at hskip
    rcases hnotes.replace_cases x with heq | ⟨_, _, hout, _⟩
    · rw [heq, Naming.replace, hx] at hbypassed
      exact absurd hskip hbypassed
    · exact absurd hskip hout

theorem note (h : Retraces n m) (hignoring : n.ignoring = false) (hnone : n.newName? x = none)
    (hbypassed : spell (n.assigned + 1).toNat ∉ n.bypassed) :
    Retraces { n.map x (spell (n.assigned + 1).toNat) with assigned := n.assigned + 1 }
      (m.noteStore (spell (n.assigned + 1).toNat)) := by
  have hpositive := h.positive
  set new := spell (n.assigned + 1).toNat with hnew
  have hfresh : m.newName? new = none := by
    cases hm : m.newName? new with
    | none => rfl
    | some other =>
      obtain ⟨_, y, hy⟩ := h.only hm
      exact absurd (h.old hy) (not_old_spell (by omega))
  rcases noteStore_cases (h.assigned_eq ▸ h.positive) new with ⟨_, hskip⟩ | ⟨_, _, _, heq⟩
  · simp [h.ignoring_eq, hignoring, h.bypassed_eq, hbypassed, hfresh] at hskip
  rw [heq, h.assigned_eq, ← hnew]
  obtain ⟨hp, hb, hi, -⟩ := map_eq n x new
  obtain ⟨hp', hb', hi', -⟩ := map_eq m new new
  refine ⟨show 0 < n.assigned + 1 by omega, rfl, hp'.trans (h.phase_eq.trans hp.symm), hb'.trans (h.bypassed_eq.trans hb.symm),
    hi'.trans (h.ignoring_eq.trans hi.symm), ?_, ?_, ?_⟩
  · intro z other hz
    rw [newName_noted] at hz ⊢
    split at hz
    next => simp_all
    next =>
      rw [h.named hz]
      split <;> simp_all
  · intro z other hz
    rw [newName_noted] at hz
    split at hz
    next heq => exact ⟨by simp_all, x, by rw [newName_noted, if_pos rfl, heq]⟩
    next =>
      obtain ⟨rfl, y, hy⟩ := h.only hz
      refine ⟨rfl, y, ?_⟩
      rw [newName_noted, if_neg, hy]
      rintro rfl
      simp [hnone] at hy
  · intro z other hz
    rw [newName_noted] at hz
    split at hz
    next =>
      obtain rfl := Option.some.inj hz
      exact old_spell (by omega) (Int.le_refl _)
    next => exact (h.old hz).mono (show n.assigned ≤ n.assigned + 1 by omega)

theorem noteStore (h : Retraces n m) (hk : Toward (n.noteStore x) k) : Retraces (n.noteStore x) (m.noteStore (k.replace x)) := by
  obtain ⟨⟨_, _, hnotes⟩, hletters⟩ := hk
  rcases noteStore_cases h.positive x with ⟨heq, hskip⟩ | ⟨hignoring, _, hnone, heq⟩
  · rw [heq] at hnotes ⊢
    rw [h.skip hnotes hskip]
    exact h
  · rw [heq] at hnotes ⊢
    have hnew : k.replace x = spell (n.assigned + 1).toNat := by
      have hx : k.newName? x = _ := hnotes.kept (by rw [newName_noted, if_pos rfl])
      simp [Naming.replace, hx]
    rw [hnew]
    refine h.note hignoring hnone fun hmem => ?_
    exact hletters _ (hnotes.bypassed_subset ((map_eq n x _).2.1.symm ▸ hmem)) (lettered_spell _)

end Retraces

section
variable {walk : Naming → Tree → Tree × Naming}

/-- The first time through a tree, beside the first time through it under its new names. -/
def Follows (walk : Naming → Tree → Tree × Naming) (t : Tree) : Prop :=
  ∀ {n m k}, n.phase = .search → Retraces n m → Toward (walk n t).2 k →
    (walk m (mapNames k.replace t)).1 = mapNames k.replace t ∧ Retraces (walk n t).2 (walk m (mapNames k.replace t)).2

theorem Follows.all (h : ∀ t ∈ ts, Follows walk t) (hsearches : ∀ t ∈ ts, Searches walk t) (hphase : n.phase = .search)
    (htrace : Retraces n m) (hk : Toward (walkAll walk n ts).2 k) :
    (walkAll walk m (mapNamesAll k.replace ts)).1 = mapNamesAll k.replace ts ∧
      Retraces (walkAll walk n ts).2 (walkAll walk m (mapNamesAll k.replace ts)).2 := by
  induction ts generalizing n m with
  | nil => exact ⟨rfl, htrace⟩
  | cons t ts ih =>
    obtain ⟨-, hnotes⟩ := hsearches t (by simp) n hphase htrace.positive
    have hphase' := hnotes.phase_eq.trans hphase
    have htail : ∀ u ∈ ts, Searches walk u := fun u hu => hsearches u (by simp [hu])
    have hrest := Searches.all htail _ hphase' (Int.lt_of_lt_of_le htrace.positive hnotes.assigned_le)
    obtain ⟨hsame, hnext⟩ := h t (by simp) hphase htrace (hk.before hrest.2)
    obtain ⟨hsames, hend⟩ := ih (fun u hu => h u (by simp [hu])) htail hphase' hnext hk
    exact ⟨congrArg₂ List.cons hsame hsames, hend⟩

end

structure LoneBody (depth : Nat) (body : List Tree) : Prop where
  free : scopeFreeAll body = true
  statement : ∀ t ∈ body, isStatement t = true
  height_le : heightAll body ≤ depth

namespace LoneBody

theorem walk_statement (h : LoneBody depth body) (ht : t ∈ body) (σ : String → String) (n : Naming) :
    walk (depth + 1) n (mapNames σ t) = walkInside (walk depth) n (mapNames σ t) := by
  obtain ⟨hstatement, -, hfunction⟩ := mapNames_alike σ t
  exact Rename.walk_statement (hstatement.trans (h.statement t ht))
    (hfunction.trans (isFunction_of_scopeFree (scopeFree_of_mem h.free ht))) n

end LoneBody

section
variable {tag : Tag} {kind : Kind} {parameters decorators result : Tree} {parts : List Tree}

theorem Settled.calm (h : Settled { n with ignoring := false }) : Calm n :=
  ⟨h.positive, by simp [show n.phase = .idle from h.phase_eq], fun _ => h.mapping_eq⟩

end

/-! ## The whole pass -/

variable {s : Session} {naming : Naming}

end SourceOptimizer.Pass.Rename
