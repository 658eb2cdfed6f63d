import SourceOptimizer.Class.Nearest
import Mathlib.Data.List.Basic

/-! The nearest common class. It is looked for among the given classes only: where one of them has all of them
as ancestors, the answer is the one that stands last in its order, and else it is the root. -/
namespace SourceOptimizer.Hierarchy

variable {h : Hierarchy} {cs cs' order : List String} {c r r' : String} {n : Nat}

def above (h : Hierarchy) (c : String) : List String :=
  match h.ancestors c with
  | .ok order => order
  | .error _ => []

structure Proper (h : Hierarchy) (cs : List String) : Prop where
  own : ∀ c ∈ cs, c ∈ h.above c
  antisymm : ∀ c ∈ cs, ∀ d ∈ h.above c, c ∈ h.above d → d = c

def Lowest (h : Hierarchy) (cs : List String) (c : String) : Prop := c ∈ cs ∧ ∀ x ∈ cs, x ∈ h.above c

/-- An ancestor of all the classes that no other such ancestor is below. -/
structure NearestCommon (h : Hierarchy) (cs : List String) (r : String) : Prop where
  common : ∀ c ∈ cs, r ∈ h.above c
  nearest : ∀ d, (∀ c ∈ cs, d ∈ h.above c) → r ∈ h.above d → d = r

structure Answers (h : Hierarchy) (cs : List String) (r : String) : Prop where
  root : (∀ c, ¬ h.Lowest cs c) → r = "object"
  last : ∀ c, h.Lowest cs c → r ∈ cs ∧ ∀ x ∈ cs, (h.above c).idxOf x ≤ (h.above c).idxOf r

theorem reach_eq_none (hne : cs ≠ []) (hr : reach cs order = none) : ¬ ∀ x ∈ cs, x ∈ order := by
  intro hall
  rw [reach, if_pos (by simpa using hall), List.max?_eq_none_iff, List.map_eq_nil_iff] at hr
  exact hne hr

theorem reach_eq_some (hr : reach cs order = some n) :
    (∀ x ∈ cs, x ∈ order) ∧ ∃ r ∈ cs, order[n]? = some r ∧ ∀ x ∈ cs, order.idxOf x ≤ order.idxOf r := by
  simp only [reach, List.all_eq_true, List.contains_iff_mem] at hr
  split at hr
  next hall =>
    obtain ⟨hmem, hle⟩ := List.max?_eq_some_iff.mp hr
    obtain ⟨r, hrcs, rfl⟩ := List.mem_map.mp hmem
    exact ⟨hall, r, hrcs, List.getElem?_idxOf (hall r hrcs), fun x hx => hle _ (List.mem_map_of_mem hx)⟩
  next => cases hr

theorem bestReach_spec (cs : List String) (os : List (List String)) :
    (bestReach cs os = none ∧ ∀ o ∈ os, reach cs o = none) ∨
      ∃ o ∈ os, ∃ n, bestReach cs os = some (o, n) ∧ reach cs o = some n := by
  induction os with
  | nil => exact .inl ⟨rfl, by simp⟩
  | cons o os ih =>
    rw [bestReach]
    cases ho : reach cs o with
    | none =>
      rcases ih with ⟨hbest, hnone⟩ | ⟨p, hp, m, hbest, hm⟩
      · exact .inl ⟨hbest, by simpa [ho] using hnone⟩
      · exact .inr ⟨p, by simp [hp], m, hbest, hm⟩
    | some n =>
      rcases ih with ⟨hbest, -⟩ | ⟨p, hp, m, hbest, hm⟩ <;> rw [hbest]
      · exact .inr ⟨o, by simp, n, rfl, ho⟩
      · by_cases hle : n ≤ m
        · exact .inr ⟨o, by simp, n, if_pos hle, ho⟩
        · exact .inr ⟨p, by simp [hp], m, if_neg hle, hm⟩

theorem ancestors_of_own (hown : c ∈ h.above c) : h.ancestors c = .ok (h.above c) := by
  unfold above at hown ⊢
  split at hown
  next horder => rw [horder]
  next => cases hown

theorem mapM_ancestors (hown : ∀ c ∈ cs, c ∈ h.above c) : cs.mapM h.ancestors = .ok (cs.map h.above) := by
  induction cs with
  | nil => rfl
  | cons c cs ih =>
    rw [List.mapM_cons, ancestors_of_own (hown c (by simp)), ih fun c hc => hown c (by simp [hc])]
    rfl

theorem nearest_eq (hcs : 1 < cs.length) (hown : ∀ c ∈ cs, c ∈ h.above c) :
    h.nearest cs = match bestReach cs (cs.map h.above) with
      | some (order, n) => .ok ((order[n]?).getD "object")
      | none => .ok "object" := by
  match cs, hcs with
  | c :: d :: cs, _ =>
    simp only [nearest, mapM_ancestors hown]
    rfl

theorem Lowest.unique (hcs : h.Proper cs) {d : String} (hc : h.Lowest cs c) (hd : h.Lowest cs d) : d = c :=
  hcs.antisymm c hc.1 d (hc.2 d hd.1) (hd.2 c hc.1)

theorem nearest_answers (hne : cs ≠ []) (hcs : h.Proper cs) : ∃ r, h.nearest cs = .ok r ∧ h.Answers cs r := by
  by_cases hone : 1 < cs.length
  · have hrun := nearest_eq hone hcs.own
    rcases bestReach_spec cs (cs.map h.above) with ⟨hbest, hnone⟩ | ⟨o, ho, n, hbest, hreach⟩ <;> rw [hbest] at hrun
    · have hlowest (c : String) : ¬ h.Lowest cs c := fun hc =>
        reach_eq_none hne (hnone _ (List.mem_map_of_mem hc.1)) hc.2
      exact ⟨"object", hrun, fun _ => rfl, fun c hc => absurd hc (hlowest c)⟩
    · obtain ⟨c, hc, rfl⟩ := List.mem_map.mp ho
      obtain ⟨hall, r, hr, hat, hlast⟩ := reach_eq_some hreach
      have hlowest : h.Lowest cs c := ⟨hc, hall⟩
      refine ⟨r, ?_, fun hnone => absurd hlowest (hnone c), fun d hd => ?_⟩
      · rw [hrun]
        simp only [hat, Option.getD_some]
      · rw [hlowest.unique hcs hd]
        exact ⟨hr, hlast⟩
  · obtain ⟨c, rfl⟩ : ∃ c, cs = [c] := by
      rw [← List.length_eq_one_iff]
      have := List.length_pos_iff.mpr hne
      omega
    have hlowest : h.Lowest [c] c := ⟨by simp, by simpa using hcs.own c (by simp)⟩
    exact ⟨c, rfl, fun hnone => absurd hlowest (hnone c), by simp⟩

theorem Answers.unique (hr : h.Answers cs r) (hr' : h.Answers cs r') : r = r' := by
  by_cases hlowest : ∃ c, h.Lowest cs c
  · obtain ⟨c, hc⟩ := hlowest
    obtain ⟨hmem, hlast⟩ := hr.last c hc
    obtain ⟨hmem', hlast'⟩ := hr'.last c hc
    exact (List.idxOf_inj (hc.2 r hmem)).mp (Nat.le_antisymm (hlast' r hmem) (hlast r' hmem'))
  · rw [hr.root (not_exists.mp hlowest), hr'.root (not_exists.mp hlowest)]

theorem Answers.perm (hperm : cs'.Perm cs) (hr : h.Answers cs' r) : h.Answers cs r := by
  obtain ⟨hroot, hlast⟩ := hr
  simp only [Lowest, hperm.mem_iff] at hroot hlast
  exact ⟨hroot, hlast⟩

/-- The last class in the order of the lowest one is the nearest common one if the classes are a chain in this order. -/
theorem Answers.nearestCommon (hcs : h.Proper cs) (hr : h.Answers cs r) (hc : h.Lowest cs c)
    (hchain : ∀ x ∈ cs, ∀ y ∈ cs, (h.above c).idxOf x ≤ (h.above c).idxOf y → y ∈ h.above x) : h.NearestCommon cs r := by
  obtain ⟨hmem, hlast⟩ := hr.last c hc
  exact ⟨fun x hx => hchain x hx r hmem (hlast x hx), fun d hd hbelow => hcs.antisymm r hmem d (hd r hmem) hbelow⟩

/-- Proper classes have an answer that does not depend on how they are listed: the root where none of them has all of
them as ancestors, else the one that stands last in the order of the lowest. That is the nearest common class if each
of them has the ones that stand after it in this order as ancestors. -/
theorem nearest_spec (hne : cs ≠ []) (hcs : h.Proper cs) :
    ∃ r, (∀ cs', cs'.Perm cs → h.nearest cs' = .ok r) ∧ h.Answers cs r ∧ ∀ c, h.Lowest cs c →
      (∀ x ∈ cs, ∀ y ∈ cs, (h.above c).idxOf x ≤ (h.above c).idxOf y → y ∈ h.above x) → h.NearestCommon cs r := by
  obtain ⟨r, -, hr⟩ := nearest_answers hne hcs
  refine ⟨r, fun cs' hperm => ?_, hr, fun c hc hchain => hr.nearestCommon hcs hc hchain⟩
  have hcs' : h.Proper cs' := ⟨fun c hc => hcs.own c (hperm.mem_iff.mp hc), fun c hc => hcs.antisymm c (hperm.mem_iff.mp hc)⟩
  obtain ⟨r', hrun, hr'⟩ := nearest_answers (fun hnil => hne (by simpa [hnil] using hperm.symm)) hcs'
  rw [hrun, (hr'.perm hperm).unique hr]

theorem nearest_spec_numbers : standard.Proper ["Real", "bool", "int"] ∧ standard.Lowest ["Real", "bool", "int"] "bool" ∧
    (standard.nearest ["int", "Real", "bool"]).toOption = some "Real" ∧
    standard.NearestCommon ["Real", "bool", "int"] "Real" := by
  have hproper : standard.Proper ["Real", "bool", "int"] := ⟨by decide +kernel, by decide +kernel⟩
  have hlowest : standard.Lowest ["Real", "bool", "int"] "bool" := ⟨by decide, by decide +kernel⟩
  have hreal : (standard.nearest ["int", "Real", "bool"]).toOption = some "Real" := by decide +kernel
  obtain ⟨r, hrun, -, hnearest⟩ := nearest_spec (by decide) hproper
  have hr := hreal
  rw [hrun ["int", "Real", "bool"] (by decide)] at hr
  cases hr
  exact ⟨hproper, hlowest, hreal, hnearest "bool" hlowest (by decide +kernel)⟩

/-- The class of the real numbers is above both classes of numbers, and the answer is the root above it. -/
theorem common_class_missed : (standard.nearest ["int", "float"]).toOption = some "object" ∧
    (∀ c ∈ ["int", "float"], "Real" ∈ standard.above c) ∧ "object" ∈ standard.above "Real" := by
  decide +kernel

end SourceOptimizer.Hierarchy
