import Mathlib.Data.List.Nodup
import SourceOptimizer.Native.Toolchain

/-! Names of native modules. A compiler that answers requests one after the other never gives a name out twice; it
refuses a request only if none of the candidates is free, and is then as it was before. -/
namespace SourceOptimizer.Native

/-- A name that a request may be answered with, when some have been given out. -/
def Request.Free (r : Request) (given : List String) (name : String) : Prop :=
  isImportName name r.loaded = true ∧ name ∉ r.taken ∧ name ∉ given

def namesIn (answers : List (Except Fault String)) : List String := answers.filterMap Except.toOption

namespace Compiler

variable (c : Compiler) (r : Request)

-- or else the candidates are tried whenever two runs are compared
attribute [local irreducible] answer

def answers (c : Compiler) : List Request → List (Except Fault String)
  | [] => []
  | r :: rs => (c.answer r).1 :: (c.answer r).2.answers rs

def after (c : Compiler) : List Request → Compiler
  | [] => c
  | r :: rs => (c.answer r).2.after rs

theorem answer_cases :
    (∃ name ∈ candidates r.base, r.Free c.generated name ∧
      c.answer r = (.ok name, { c with generated := c.generated ++ [name] })) ∨
    (∀ name ∈ candidates r.base, ¬ r.Free c.generated name) ∧ c.answer r = (.error (noNameFault r.base), c) := by
  unfold answer name? newName?
  cases hname : (candidates r.base).find? fun n => isImportName n r.loaded && !r.taken.contains n && !c.generated.contains n with
  | none =>
    refine .inr ⟨fun name hmem hfree => ?_, rfl⟩
    have hnot := List.find?_eq_none.mp hname name hmem
    simp [hfree.1, hfree.2.1, hfree.2.2] at hnot
  | some name =>
    have htest := List.find?_some hname
    simp only [Bool.and_eq_true, Bool.not_eq_true', List.contains_eq_mem, decide_eq_false_iff_not] at htest
    exact .inl ⟨name, List.mem_of_find?_eq_some hname, ⟨htest.1.1, htest.1.2, htest.2⟩, rfl⟩

variable {c} in
theorem generated_after (requests : List Request) :
    (c.after requests).generated = c.generated ++ namesIn (c.answers requests) := by
  induction requests generalizing c with
  | nil => simp [after, answers, namesIn]
  | cons r rs ih =>
    rw [after, ih, answers]
    obtain ⟨name, -, -, heq⟩ | ⟨-, heq⟩ := answer_cases c r
    · rw [heq]
      exact List.append_assoc _ _ _
    · rw [heq]
      rfl

variable {c} in
theorem nodup_generated_after (requests : List Request) (h : c.generated.Nodup) :
    (c.after requests).generated.Nodup := by
  induction requests generalizing c with
  | nil => exact h
  | cons r rs ih =>
    rw [after]
    refine ih ?_
    obtain ⟨name, -, ⟨-, -, hnew⟩, heq⟩ | ⟨-, heq⟩ := answer_cases c r
    · rw [heq]
      exact List.nodup_append.mpr ⟨h, List.nodup_singleton _, by simpa using fun x hx => ne_of_mem_of_not_mem hx hnew⟩
    · rwa [heq]

variable {c} in
theorem answers_append (earlier later : List Request) :
    c.answers (earlier ++ later) = c.answers earlier ++ (c.after earlier).answers later := by
  induction earlier generalizing c with
  | nil => rfl
  | cons r rs ih => rw [List.cons_append, answers, ih, answers, after, List.cons_append]

/-- A request that comes after others and before others. -/
theorem answers_keep_names_apart (path : String) (earlier later : List Request) (r : Request) :
    let c := ofPath path
    let before := c.after earlier
    c.answers (earlier ++ r :: later) =
        c.answers earlier ++ (before.answer r).1 :: (before.answer r).2.answers later ∧
      (namesIn (c.answers (earlier ++ r :: later))).Nodup ∧
      (∀ name, (before.answer r).1 = .ok name → isImportName name r.loaded = true ∧ name ∉ r.taken) ∧
      ((before.answer r).1 = .error (noNameFault r.base) ↔
        ∀ i < 1000, isImportName (candidate r.base i) r.loaded = false ∨ candidate r.base i ∈ r.taken ∨
          candidate r.base i ∈ namesIn (c.answers earlier)) ∧
      ∀ e, (before.answer r).1 = .error e → e = noNameFault r.base ∧ (before.answer r).2.generated = before.generated := by
  intro c before
  have hgiven : before.generated = namesIn (c.answers earlier) := generated_after earlier
  have hfree (i : Nat) : ¬ r.Free before.generated (candidate r.base i) ↔
      isImportName (candidate r.base i) r.loaded = false ∨ candidate r.base i ∈ r.taken ∨
        candidate r.base i ∈ namesIn (c.answers earlier) := by
    rw [← hgiven, Request.Free]
    grind
  refine ⟨answers_append earlier _, ?_, ?_⟩
  · have hall : (c.after (earlier ++ r :: later)).generated = namesIn (c.answers (earlier ++ r :: later)) :=
      generated_after (earlier ++ r :: later)
    rw [← hall]
    exact nodup_generated_after _ List.nodup_nil
  · obtain ⟨name, hmem, hname, heq⟩ | ⟨hnone, heq⟩ := answer_cases before r
    · obtain ⟨i, hi, rfl⟩ := List.mem_map.mp hmem
      rw [heq]
      refine ⟨?_, ⟨nofun, fun h => ?_⟩, nofun⟩
      · rintro name ⟨⟩
        exact ⟨hname.1, hname.2.1⟩
      · exact absurd hname ((hfree i).mpr (h i (List.mem_range.mp hi)))
    · rw [heq]
      refine ⟨nofun, ⟨fun _ i hi => ?_, fun _ => rfl⟩, ?_⟩
      · exact (hfree i).mp (hnone _ (List.mem_map.mpr ⟨i, List.mem_range.mpr hi, rfl⟩))
      · rintro e ⟨⟩
        exact ⟨rfl, rfl⟩

end Compiler
end SourceOptimizer.Native
