import SourceOptimizer.Proofs.LocalNames

/-! Functions that stand in no other function. Whatever a module has around such a function, the pass comes to it knowing
no names, so what it does to the function depends on the function alone. -/
namespace SourceOptimizer

variable {path : List Nat}

namespace Tree

mutual

/-- No list of parts stands directly in another one. -/
def flat : Tree → Bool
  | .node _ _ parts => flatAll parts
  | .seq items => flatAll items && items.all fun t => t.items.isEmpty
  | .absent => true
  | .shared _ => true

def flatAll : List Tree → Bool
  | [] => true
  | t :: ts => flat t && flatAll ts

end

mutual

theorem height_le_ids : (t : Tree) → flat t = true → height t ≤ 2 * (ids t).length + 2 - if t.items.isEmpty then 1 else 0
  | .node _ _ parts, h => by
    have := heightAll_le_ids parts h
    simp only [height, ids, items, List.isEmpty_nil, List.length_cons, if_true]
    omega
  | .seq items, h => by
    simp only [flat, Bool.and_eq_true, List.all_eq_true] at h
    have := heightAll_le_ids_of_items items h.1 h.2
    simp only [height, ids, Tree.items]
    cases items with
    | nil => simp [heightAll]
    | cons t ts =>
      simp only [List.isEmpty_cons, Bool.false_eq_true, if_false]
      omega
  | .absent, _ => by simp [height, ids, items]
  | .shared _, _ => by simp [height, ids, items]

theorem heightAll_le_ids : (ts : List Tree) → flatAll ts = true → heightAll ts ≤ 2 * (idsAll ts).length + 2
  | [], _ => by simp [heightAll]
  | t :: ts, h => by
    simp only [flatAll, Bool.and_eq_true] at h
    have := height_le_ids t h.1
    have := heightAll_le_ids ts h.2
    simp only [heightAll, idsAll, List.length_append]
    omega

theorem heightAll_le_ids_of_items : (ts : List Tree) → flatAll ts = true → (∀ t ∈ ts, t.items.isEmpty = true) →
    heightAll ts ≤ 2 * (idsAll ts).length + 1
  | [], _, _ => by simp [heightAll]
  | t :: ts, h, hitems => by
    simp only [flatAll, Bool.and_eq_true] at h
    have hheight := height_le_ids t h.1
    have := heightAll_le_ids_of_items ts h.2 fun u hu => hitems u (by simp [hu])
    rw [if_pos (hitems t (by simp))] at hheight
    simp only [heightAll, idsAll, List.length_append]
    omega

end

def at? : List Nat → Tree → Option Tree
  | [], t => some t
  | i :: path, .node _ _ parts => parts[i]?.bind (at? path)
  | i :: path, .seq items => items[i]?.bind (at? path)
  | _ :: _, _ => none

/-- The tree at the end of a path that leads through no function and no expression. -/
def outerAt? : List Nat → Tree → Option Tree
  | [], t => some t
  | i :: path, .node _ kind parts => if kind.isExpr || kind.isFunction then none else parts[i]?.bind (outerAt? path)
  | i :: path, .seq items => items[i]?.bind (outerAt? path)
  | _ :: _, _ => none

end Tree

namespace Pass.Rename
open Tree Naming Store
variable {n m : Naming} {t f : Tree} {depth : Nat}

structure Settled (n : Naming) : Prop where
  positive : 0 < n.assigned
  phase_eq : n.phase = .idle
  mapping_eq : n.mapping = []
  bypassed_eq : n.bypassed = []
  attentive : n.ignoring = false

theorem Settled.settles (h : Settled n) (hs : Settles n m) : Settled m where
  positive := Int.lt_of_lt_of_le h.positive hs.assigned_le
  phase_eq := hs.phase_eq.trans h.phase_eq
  mapping_eq := (hs.mapping_eq (by simp [h.phase_eq])).trans h.mapping_eq
  bypassed_eq := hs.bypassed_eq.trans h.bypassed_eq
  attentive := hs.attentive h.attentive

theorem walkAll_getElem {walk : Naming → Tree → Tree × Naming} (hkeeping : Keeping Settles walk) {ts : List Tree} {i : Nat}
    (hn : 0 < n.assigned) (ht : ts[i]? = some t) :
    ∃ m, Settles n m ∧ (walkAll walk n ts).1[i]? = some (walk m t).1 := by
  induction ts generalizing n i with
  | nil => simp at ht
  | cons u ts ih =>
    have hsettles := hkeeping n u hn
    cases i with
    | zero =>
      obtain rfl : u = t := by simpa using ht
      exact ⟨n, .refl n, rfl⟩
    | succ i =>
      obtain ⟨m, hm, hget⟩ := ih (Int.lt_of_lt_of_le hn hsettles.assigned_le) (by simpa using ht)
      exact ⟨m, hsettles.trans hm, by simpa [walkAll] using hget⟩

theorem outerAt_walk (hn : Settled n) (hheight : height t ≤ depth) (hf : outerAt? path t = some f) :
    ∃ depth' m, Settled m ∧ n.assigned ≤ m.assigned ∧ height f ≤ depth' ∧
      outerAt? path (walk depth n t).1 = some (walk depth' m f).1 := by
  induction path generalizing t n depth with
  | nil =>
    obtain rfl : t = f := by simpa [outerAt?] using hf
    exact ⟨depth, n, hn, Int.le_refl _, hheight, rfl⟩
  | cons i path ih =>
    have hpart {parts : List Tree} (hheight : heightAll parts + 1 ≤ depth) (hf : parts[i]?.bind (outerAt? path) = some f) :
        ∃ depth' m, Settled m ∧ n.assigned ≤ m.assigned ∧ height f ≤ depth' ∧
          (walkAll (walk (depth - 1)) n parts).1[i]?.bind (outerAt? path) = some (walk depth' m f).1 := by
      obtain ⟨p, hp, hf⟩ := Option.bind_eq_some_iff.mp hf
      obtain ⟨k, hk, hget⟩ := walkAll_getElem (keeping_walk (depth - 1)) hn.positive hp
      have hpheight := height_le_of_mem (List.mem_of_getElem? hp)
      rw [hget, Option.bind_some]
      obtain ⟨depth', m, hm, hle, hrest⟩ : ∃ depth' m, Settled m ∧ k.assigned ≤ m.assigned ∧ height f ≤ depth' ∧
          outerAt? path (walk (depth - 1) k p).1 = some (walk depth' m f).1 := ih (hn.settles hk) (by omega) hf
      exact ⟨depth', m, hm, Int.le_trans hk.assigned_le hle, hrest⟩
    obtain ⟨d, rfl⟩ : ∃ d, depth = d + 1 := ⟨depth - 1, by cases t <;> simp only [height] at hheight <;> omega⟩
    cases t with
    | seq items => exact hpart hheight hf
    | node tag kind parts =>
      simp only [outerAt?] at hf
      split at hf
      · simp at hf
      next hkind =>
        have hwalk : walk (d + 1) n (.node tag kind parts) = walkInside (walk d) n (.node tag kind parts) := by
          cases kind <;> first | rfl | simp [Kind.isExpr, Kind.isFunction] at hkind
        rw [hwalk]
        simp only [walkInside, outerAt?, if_neg hkind]
        exact hpart hheight hf
    | absent => simp [outerAt?] at hf
    | shared slot => simp [outerAt?] at hf

/-! ## The names of an outer function -/

def declarations (body : List Tree) : List String := body.flatMap fun t => (declared? {} t).getD []

section
variable {parameters : Tree} {body : List Tree}

theorem walkAll_append (walk : Naming → Tree → Tree × Naming) (n : Naming) (ts us : List Tree) :
    (walkAll walk n (ts ++ us)).2 = (walkAll walk (walkAll walk n ts).2 us).2 := by
  induction ts generalizing n with
  | nil => rfl
  | cons t ts ih => exact ih _

theorem bypassed_search (hn : 0 < n.assigned) :
    (walkAll (walkSearch (walk depth)) n body).2.bypassed = n.bypassed ++ declarations body := by
  induction body generalizing n with
  | nil => simp [walkAll, declarations]
  | cons t ts ih =>
    have hadvances := (keeping_walk depth).search n t hn
    have hstep : (walkSearch (walk depth) n t).2.bypassed = n.bypassed ++ (declared? {} t).getD [] := by
      unfold walkSearch
      split
      next names hnames => simp [hnames]
      next hnames =>
        split
        · simp [hnames]
        · simpa [hnames] using ((keeping_walk depth).inside n t hn).bypassed_eq
    rw [walkAll]
    simp only [ih (Int.lt_of_lt_of_le hn hadvances.assigned_le), hstep, declarations, List.flatMap_cons, List.append_assoc]

theorem replace_search_of_declared {pre post : List Tree} {x : String} (hn : 0 < n.assigned) (hphase : n.phase = .search)
    (hsearch : ∀ u ∈ pre ++ t :: post, Searches (walkSearch (walk depth)) u) (hx : x ∈ (declared? {} t).getD [])
    (hpre : x ∉ storesAll true pre) :
    (walkAll (walkSearch (walk depth)) n (pre ++ t :: post)).2.replace x = n.replace x := by
  obtain ⟨_, hnotes⟩ := Searches.all (fun u hu => hsearch u (List.mem_append_left _ hu)) n hphase hn
  rw [walkAll_append]
  set m := (walkAll (walkSearch (walk depth)) n pre).2
  have hm : m.replace x = n.replace x := by
    rcases hnotes.replace_cases x with heq | ⟨_, hmem, _⟩
    · exact heq
    · exact absurd hmem hpre
  obtain ⟨names, hnames⟩ : ∃ names, declared? {} t = some names := by
    cases h : declared? {} t with
    | none => simp [h] at hx
    | some names => exact ⟨names, rfl⟩
  have hdeclare : walkSearch (walk depth) m t = (t, { m with bypassed := m.bypassed ++ names }) := by
    simp only [walkSearch, hnames]
  have hrest := Searches.all (fun u hu => hsearch u (List.mem_append_right _ (List.mem_cons_of_mem _ hu)))
    { m with bypassed := m.bypassed ++ names } (hnotes.phase_eq.trans hphase) (Int.lt_of_lt_of_le hn hnotes.assigned_le)
  rw [← hm, walkAll, hdeclare]
  rcases hrest.2.replace_cases x with heq | ⟨_, _, hbypassed, _⟩
  · exact heq
  · simp [hnames] at hx
    simp [hx] at hbypassed

/-- The new names of a function: each stored name has one of its own, parameters and declared names keep theirs. -/
structure Fresh (plain : List String) (body : List Tree) (σ : String → String) : Prop where
  injective : ∀ {x y}, ¬ Lettered x → ¬ Lettered y → σ x = σ y → x = y
  parameters : ∀ x ∈ plain, σ x = x
  unstored : ∀ {x}, x ∉ storesAll true body → σ x = x
  declared : ∀ {pre t post}, body = pre ++ t :: post → ∀ x ∈ (declared? {} t).getD [], x ∉ storesAll true pre → σ x = x
  named : ∀ x ∈ storesAll false body, x ∉ plain → x ∉ declarations body → Lettered (σ x)

theorem Settled.replace_eq (h : Settled n) : n.replace = id := by
  funext x
  simp [Naming.replace, Naming.newName?, h.mapping_eq]

theorem Settled.ready (h : Settled n) : Ready (¬ Lettered ·) n where
  positive := h.positive
  phase_ne := by simp [h.phase_eq]
  idle _ := h.mapping_eq
  old hx := old_of_not_lettered hx _
  stable hx := by
    simp only [Stable, h.replace_eq, id, and_true]
    exact old_of_not_lettered hx _
  injective := by simp [h.replace_eq]
  unborn := by simp [h.replace_eq]

theorem fresh_noted (hn : Settled n) (henters : Enters (¬ Lettered ·) n parameters body (noted depth n parameters body))
    (hsearch : ∀ t ∈ body, Searches (walkSearch (walk depth)) t) :
    Fresh (plainParameters {} parameters) body (noted depth n parameters body).replace := by
  obtain ⟨hphase, hbypassed, hignoring, hassigned⟩ := enter_eq n parameters
  have hpositive : 0 < (enter n parameters).assigned := hassigned ▸ hn.positive
  have hnone {x : String} (hx : x ∉ plainParameters {} parameters) : (enter n parameters).newName? x = none := by
    rw [newName_enter, if_neg hx]
    simp [Naming.newName?, hn.mapping_eq]
  have henter (x : String) : (enter n parameters).replace x = x := by
    by_cases hx : x ∈ plainParameters {} parameters
    · simp [Naming.replace, newName_enter, hx]
    · simp [Naming.replace, hnone hx]
  refine ⟨henters.ready_replace.injective, ?_, ?_, ?_, ?_⟩
  · intro x hx
    rcases henters.notes.replace_cases x with heq | ⟨hnew, _⟩
    · rw [heq, henter]
    · simp [newName_enter, hx] at hnew
  · intro x hx
    rcases henters.notes.replace_cases x with heq | ⟨_, hmem, _⟩
    · rw [heq, henter]
    · exact absurd hmem hx
  · rintro pre t post rfl x hx hpre
    rw [noted, replace_search_of_declared hpositive hphase hsearch hx hpre, henter]
  · intro x hx hparameter hdeclared
    have hout : x ∉ (noted depth n parameters body).bypassed := by
      rw [noted, bypassed_search hpositive, hbypassed, hn.bypassed_eq]
      exact hdeclared
    obtain ⟨new, hnew⟩ := Option.isSome_iff_exists.mp
      (henters.notes.named hx hout (hignoring.trans hn.attentive))
    rcases henters.notes.added hnew with hold | ⟨_, _, k, _, _, rfl⟩
    · simp [hnone hparameter] at hold
    · simp only [Naming.replace, hnew, Option.getD_some]
      exact lettered_spell _

end

mutual

theorem mapOpen_id : (t : Tree) → mapOpen id t = t
  | .node tag kind parts => by cases kind <;> simp only [mapOpen, id, mapOpenAll_id parts]
  | .seq items => by simp only [mapOpen, mapOpenAll_id items]
  | .absent => rfl
  | .shared _ => rfl

theorem mapOpenAll_id : (ts : List Tree) → mapOpenAll id ts = ts
  | [] => rfl
  | t :: ts => by simp only [mapOpenAll, mapOpen_id t, mapOpenAll_id ts]

end

/-- Visited with a settled naming, a function keeps all but its body, whose names are replaced by new ones. -/
theorem walk_outer {tag : Tag} {name : String} {decorators result : Tree} (hn : Settled n)
    (hf : f = .node tag (.functionDef name) [parameters, .seq body, decorators, result]) (hnested : Nested f)
    (hheight : height f ≤ depth) (hletters : ∀ x ∈ names f ++ fixed f, ¬ Lettered x) :
    ∃ σ T body', Fresh (plainParameters {} parameters) body σ ∧
      Own (¬ Lettered ·) T (plainParameters {} parameters) (storesAll true body) id σ ∧
      RewritesAll (¬ Lettered ·) T σ body body' ∧
      (walk depth n f).1 = .node tag (.functionDef name) [parameters, .seq body', decorators, result] := by
  subst hf
  obtain ⟨d, rfl⟩ : ∃ d, depth = d + 1 := ⟨depth - 1, by simp only [height] at hheight; omega⟩
  have hfits : Fits (¬ Lettered ·) n.replace (names (.node tag (.functionDef name) [parameters, .seq body, decorators, result]))
      (fixed (.node tag (.functionDef name) [parameters, .seq body, decorators, result])) :=
    ⟨fun x hx => hletters x (List.mem_append_left _ hx), fun x hx =>
      ⟨hletters x (List.mem_append_right _ hx), by rw [hn.replace_eq, id]⟩⟩
  obtain ⟨p', body', d', r', b, _, heq, henters, hle, hp, hbody, hd, hr⟩ :=
    walkFunction_rewrites (rewriting_walk d) hn.ready hfits hnested hheight
  cases hnested with
  | free hfree => simp [functionFree, Kind.isFunction] at hfree
  | function hpfree hdfree hrfree hbodyNested hstatement hfixed =>
    have hkeep {t u : Tree} (hfree : functionFree t = true) (h : Rewrites (¬ Lettered ·) (Stable n b) n.replace t u) : u = t := by
      rw [(rewrites_iff_mapOpen _ hfree u).mp h, hn.replace_eq, mapOpen_id]
    have hown := henters.own hle
    rw [hn.replace_eq, Function.id_comp] at hbody hown
    refine ⟨_, _, body', fresh_noted hn henters fun t ht => ?_, hown, hbody, ?_⟩
    · refine searches_walkSearch (hbodyNested t ht) (hstatement t ht) ?_
      have := height_le_of_mem ht
      simp only [height, heightAll] at hheight
      omega
    · rw [hkeep hpfree hp, hkeep hdfree hd, hkeep hrfree hr] at heq
      exact heq

/-! ## The whole pass -/

theorem length_ids_le {s : Store} (h : s.Places [t]) : (ids t).length ≤ s.next := by
  have hnodup : (ids t).Nodup := by simpa [idsAll] using h.nodup
  have hsubset : ids t ⊆ List.range s.next := fun i hi => List.mem_range.mpr (h.below i (by simpa [idsAll] using hi))
  simpa using (List.subperm_of_subset hnodup hsubset).length_le

/-- The pass on a module without shared nodes comes to each outer function with a settled naming, and ends with one. -/
theorem run_outer {s : Session} {naming : Naming} (hplaces : s.store.Places [t]) (hrefs : refs t = [])
    (hflat : flat t = true) (hn : Settled naming) (hf : outerAt? path t = some f) :
    ∃ t' m, Work.Returns (run naming t) s (t', m) s ∧ Settled m ∧ shape t' = shape t ∧
      ∃ depth n, Settled n ∧ firstNumber ≤ n.assigned ∧ height f ≤ depth ∧ outerAt? path t' = some (walk depth n f).1 := by
  have hplain : Plain s.store t := ⟨hrefs, fun id hid => hplaces.outside id (by simpa [idsAll] using hid)⟩
  have hstart : Settled { naming with assigned := firstNumber } := { hn with positive := (by decide : 0 < firstNumber) }
  have hheight : height t ≤ 3 * s.store.next + 100 := by
    have := height_le_ids t hflat
    have := length_ids_le hplaces
    omega
  refine ⟨_, _, returns_run naming hplain, ?_, keepsShape_walk _ _ t, outerAt_walk hstart hheight hf⟩
  exact hstart.settles (keeping_walk _ _ t hstart.positive)

end Pass.Rename
end SourceOptimizer
