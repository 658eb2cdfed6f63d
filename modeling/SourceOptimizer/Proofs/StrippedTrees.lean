import SourceOptimizer.Proofs.NormalForm

/-! What is left of a tree without its documentation. The bodies of functions, classes and modules keep all statements that
are no mere texts, or get one if there is none; else only declared types are lost, and a second run has nothing to do. -/
namespace SourceOptimizer.Pass.Documentation
open Tree Work

variable {s s' : Session} {t t' : Tree} {parts parts' items items' : List Tree}

/-! ## Identities and lines are not looked at -/

theorem bare_untyped (t : Tree) : bare (untyped t) = untyped (bare t) := by
  cases t with
  | node tag kind parts => rcases parts with _ | ⟨_, _ | ⟨_, _⟩⟩ <;> rfl
  | _ => rfl

theorem bareAll_untyped (ts : List Tree) : bareAll (ts.map untyped) = (bareAll ts).map untyped := by
  simp [bareAll_eq_map, bare_untyped]

theorem bare_untypedParameters (t : Tree) : bare (untypedParameters t) = untypedParameters (bare t) := by
  obtain ⟨tag, kind, positional, plain, variadic, keywordOnly, keywordDefaults, keywordVariadic, defaults, rfl⟩ |
    ⟨-, hcalm, huntyped, -⟩ := parameters_cases t
  · simp only [untypedParameters, bare, bareAll, bareAll_untyped, bare_untyped]
  · rw [huntyped, untypedParameters_calm ((calmParameters_bare t).trans hcalm)]

theorem bareAll_refilled (r : Store) (body : List Tree) : bareAll (refilled r body).1 = textless (bareAll body) := by
  have hfilter : (bareAll body).filter (!isMereText ·) = bareAll (body.filter (!isMereText ·)) := by
    simp only [bareAll_eq_map, List.filter_map, Function.comp_def, isMereText_bare]
  rw [textless, hfilter, refilled]
  cases body.filter (!isMereText ·) <;> rfl

theorem bareAll_stripped (r : Store) (kind : Kind) (parts : List Tree) :
    bareAll (stripped r kind parts).1 = undocumented kind.bare (bareAll parts) := by
  unfold stripped
  split
  · simp only [bareAll, bare, bareAll_refilled, bare_untypedParameters, Kind.bare, undocumented]
  · simp only [bareAll, bare, bareAll_refilled, Kind.bare, undocumented]
  · simp only [bareAll, bare, bareAll_refilled, Kind.bare, undocumented]
  next hfunction hclass hmodule =>
    rw [undocumented_calm ((calm_bare kind parts).trans (calm_of_other hfunction hclass hmodule))]

/-! ## Visits -/

/-- A tree becomes one without documentation, in which there is nothing left to remove. -/
def Clears : Outcome := fun t _ ts _ => ∃ t', ts = [t'] ∧ normal .documentation t = [bare t'] ∧ every calm t' = true

theorem PartsTo.clear (h : PartsTo Clears parts s parts' s') :
    normalParts .documentation parts = bareAll parts' ∧ everyAll calm parts' = true := by
  induction h with
  | nil => exact ⟨rfl, rfl⟩
  | cons head _ ih =>
    obtain ⟨t', rfl, hnormal, hcalm⟩ := head
    rw [normalParts, hnormal, ih.1]
    exact ⟨rfl, (Bool.and_eq_true _ _).mpr ⟨hcalm, ih.2⟩⟩

theorem ItemsTo.clear (h : ItemsTo Clears items s items' s') : Clears (.seq items) s [.seq items'] s' := by
  suffices hall : normalAll .documentation items = bareAll items' ∧ everyAll calm items' = true from
    ⟨_, rfl, by rw [normal, hall.1, bare], hall.2⟩
  induction h with
  | nil => exact ⟨rfl, rfl⟩
  | cons head _ ih =>
    obtain ⟨t', rfl, hnormal, hcalm⟩ := head
    rw [normalAll, hnormal, ih.1]
    exact ⟨rfl, (Bool.and_eq_true _ _).mpr ⟨hcalm, ih.2⟩⟩

theorem plainClears : PlainSound (Both Sheds Clears) step := by
  refine plainSound.also ?_ (fun hto => ItemsTo.clear (hto.imp And.right)) fun _ => ⟨_, rfl, rfl, rfl⟩
  intro s s' tag kind parts visited ts hs _ hvisited h _
  obtain ⟨parts', m, -, hto, haccepted, rfl, -⟩ := returns_step_plain hs hvisited (fun hto => (hto.imp And.left).shed.plain) h
  obtain ⟨hnormal, hcalm⟩ := PartsTo.clear (hto.imp And.right)
  refine ⟨_, rfl, ?_, every_node.mpr ⟨calm_stripped _ haccepted, everyAll_stripped _ hcalm⟩⟩
  rw [normal, hnormal, Aim.finish, ← bareAll_stripped m.store, bare]
  rfl

theorem run_clears (ht : refs t = []) (hs : s.store.Empty) (h : Returns (run step t) s t' s') :
    s'.store.Empty ∧ refs t' = [] ∧ normal .documentation t = [bare t'] ∧ every calm t' = true := by
  obtain ⟨hs', ts, rfl, hsheds, t', rfl, hnormal, hcalm⟩ := run_plain plainClears ht hs h
  exact ⟨hs', refs_single hsheds.plain, hnormal, hcalm⟩

end SourceOptimizer.Pass.Documentation
