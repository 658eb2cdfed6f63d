import SourceOptimizer.Proofs.Gauges
import SourceOptimizer.Proofs.Reports

/-! One run decides all branches, also those in shared nodes: conditions are decided from the inside out. -/
namespace SourceOptimizer.Pass.DeadBranch
open Store Tree Work Gauge Scale

variable {tag : Tag} {kind : Kind} {parts ts : List Tree} {t t' : Tree} {s s' : Session} {hidden : List Nat}

/-- Whether a node is decided, told the constants that its parts are. -/
def decides : Kind → List (Option Literal) → Bool
  | .ifStmt, [test, _, _] => test.isSome
  | .whileStmt, test :: _ => !test.all (·.value.truth)
  | .ifExp, [test, _, _] => test.isSome
  | _, _ => false

def literals : Reading (Option Literal) where
  node := fun _ kind _ => Tree.literal? (.node {} kind [])
  seq := fun _ => none
  absent := none

theorem decides_of_yields (kind : Kind) (ys zs : List (Option Literal)) (h : List.Forall₂ literals.yields ys zs)
    (hz : decides kind zs = true) : decides kind ys = true := by rwa [eq_of_forall₂ h]

def undecided : Scale (Option Literal) := .once literals decides decides_of_yields

/-! ## What is decided -/

theorem calm_eq_not_decides (kind : Kind) (ts : List Tree) : calm kind ts = !decides kind (ts.map Tree.literal?) := by
  unfold calm
  split
  · simp [decides, Option.not_isSome]
  · simp [decides]
  · simp [decides, Option.not_isSome]
  next hif hwhile hifExp =>
    unfold decides
    split
    next heq =>
      simp only [List.map_eq_cons_iff, List.map_eq_nil_iff] at heq
      obtain ⟨_, _, rfl, _, _, _, rfl, _, _, _, rfl, _, rfl⟩ := heq
      exact absurd rfl (hif _ _ _ rfl)
    next heq =>
      obtain ⟨_, _, rfl, _⟩ := List.map_eq_cons_iff.mp heq
      exact absurd rfl (hwhile _ _ rfl)
    next heq =>
      simp only [List.map_eq_cons_iff, List.map_eq_nil_iff] at heq
      obtain ⟨_, _, rfl, _, _, _, rfl, _, _, _, rfl, _, rfl⟩ := heq
      exact absurd rfl (hifExp _ _ _ rfl)
    · rfl

theorem evalAll_literals (ts : List Tree) : literals.evalAll ts = ts.map Tree.literal? := by
  induction ts with
  | nil => rfl
  | cons t ts ih =>
    rw [Reading.evalAll, ih, List.map_cons]
    congr 1
    cases t with
    | node _ kind _ => cases kind <;> rfl
    | _ => rfl

theorem undecided_rank (t : Tree) : (undecided.reading.eval t).rank = 0 ↔ every calm t = true :=
  eval_calm_iff (h := decides_of_yields) (fun kind ts _ _ => by rw [evalAll_literals, calm_eq_not_decides]) t
    (Reading.fits_of_admits (fun _ _ => trivial) t)

theorem signs_look {r : Store} {xs : List (Gauge (Option Literal))} (hr : r.Sound)
    (h : Reads undecided.reading (r.view.hide hidden) ts xs) :
    xs.map (·.sign) = ts.map fun t => (r.look t).literal? := by
  induction ts generalizing xs with
  | nil =>
    cases h
    rfl
  | cons t ts ih =>
    obtain ⟨x, xs, rfl, hx, hxs⟩ := h.uncons
    rw [List.map_cons, List.map_cons, ih hxs]
    congr 1
    rcases reads_look hr hx with ⟨tag, kind, parts, xs, heq, _, rfl⟩ | ⟨items, xs, rfl, _, rfl⟩ | ⟨rfl, rfl⟩
    · rw [heq]
      cases kind <;> rfl
    · rfl
    · rfl

theorem takes_iff (r : Store) : (∃ us, Takes r kind parts us) ↔ decides kind (parts.map fun t => (r.look t).literal?) = true := by
  constructor
  · rintro ⟨us, htakes⟩
    cases htakes with
    | branch hl => simp [decides, hl]
    | nothing hl hfalse => simp [decides, hl, hfalse]
    | choice hl => simp [decides, hl]
  · intro h
    unfold decides at h
    split at h
    next heq =>
      simp only [List.map_eq_cons_iff, List.map_eq_nil_iff] at heq
      obtain ⟨_, _, rfl, rfl, _, _, rfl, _, _, _, rfl, _, rfl⟩ := heq
      obtain ⟨l, hl⟩ := Option.isSome_iff_exists.mp h
      exact ⟨_, .branch hl⟩
    next heq =>
      obtain ⟨test, _, rfl, rfl, _⟩ := List.map_eq_cons_iff.mp heq
      cases hl : (r.look test).literal? with
      | none => simp [hl] at h
      | some l => exact ⟨_, .nothing hl (by simpa [hl] using h)⟩
    next heq =>
      simp only [List.map_eq_cons_iff, List.map_eq_nil_iff] at heq
      obtain ⟨_, _, rfl, rfl, _, _, rfl, _, _, _, rfl, _, rfl⟩ := heq
      obtain ⟨l, hl⟩ := Option.isSome_iff_exists.mp h
      exact ⟨_, .choice hl⟩
    · cases h

theorem Takes.gauges {r : Store} {v : View} {xs : List (Gauge (Option Literal))} (h : Takes r kind parts ts)
    (hreads : Reads undecided.reading v parts xs) :
    ∃ ys, Reads undecided.reading v ts ys ∧ top ys ≤ top xs ∧ peak ys ≤ peak xs := by
  obtain rfl | ⟨p, hp, hts⟩ := h.part
  · exact ⟨[], .nil, by simp, by simp⟩
  · obtain ⟨before, after, rfl⟩ := List.append_of_mem hp
    obtain ⟨xs, _, rfl, _, hreads⟩ := hreads.unappend
    obtain ⟨x, zs, rfl, hx, _⟩ := hreads.uncons
    rcases hts with rfl | rfl
    · cases hx with
      | seq hitems _ => exact ⟨_, hitems, by simp [undecided, Scale.reading], by simp [undecided, Scale.reading]⟩
      | node _ _ _ => exact ⟨[], .nil, by simp, by simp⟩
      | absent _ => exact ⟨[], .nil, by simp, by simp⟩
      | shared _ _ _ => exact ⟨[], .nil, by simp, by simp⟩
    · exact ⟨[x], hx, by simp, by simp⟩

/-! ## The step -/

def SameNext : Becoming (Option Literal) := fun s s' _ _ => s.store.next = s'.store.next

theorem chain_next {xs : List (Option Literal)} {yss : List (List (Option Literal))} (h : Chain SameNext s s' xs yss) :
    s.store.next = s'.store.next := by
  induction h with
  | nil => rfl
  | cons head _ ih => exact head.trans ih

theorem respects_sameNext : Respects undecided.toReading fun _ => SameNext where
  refl := fun _ _ => rfl
  absent := fun _ _ => rfl
  seq := chain_next
  less := id
  before := fun _ => id
  after := fun h _ => h

section
variable {xs ys : List (Gauge (Option Literal))} {m : Session} {d : Nat}

theorem undecided_node (tag : Tag) (kind : Kind) (xs : List (Gauge (Option Literal))) :
    (undecided.reading.node tag kind xs).rank = if decides kind (xs.map (·.sign)) then max 1 (peak xs) else peak xs := rfl

variable (h : undecided.SettlesParts SameNext d s m xs ys)
include h

/-- A condition comes down to a constant only if there was something to be decided in it. -/
theorem yields_node (tag : Tag) (kind : Kind) :
    undecided.reading.yields (undecided.reading.node tag kind xs) (undecided.reading.node tag kind ys) := by
  refine ⟨kind.rise_mono h.height, ?_, rfl⟩
  by_cases hzero : peak xs = 0
  · exact ((undecided.reading.node_yields (h.still hzero).2 trivial).2).2.1
  · have hrank := h.rank
    rw [undecided_node, undecided_node]
    split <;> split <;> omega

theorem settles_node {zs : List (Gauge (Option Literal))} (hnext : s.store.next = s'.store.next)
    (hheight : top zs ≤ kind.rise (top ys)) (hrank : peak zs ≤ peak ys)
    (hstill : peak xs = 0 → decides kind (xs.map (·.sign)) = false → s'.changed = m.changed ∧
      zs = [undecided.reading.node tag kind ys]) :
    undecided.Settles SameNext (d + 1) s s' (undecided.reading.node tag kind xs) zs := by
  have hle := h.rank
  constructor
  case sign => exact hnext
  case height => exact Nat.le_trans hheight (kind.rise_mono h.height)
  case rank =>
    rw [undecided_node]
    split <;> omega
  case still =>
    intro hzero
    rw [undecided_node] at hzero
    split at hzero
    · omega
    next hdecides =>
      obtain ⟨hchanged, rfl⟩ := hstill hzero (by simpa using hdecides)
      exact ⟨hchanged.trans (h.still hzero).1, _, rfl, yields_node h tag kind⟩
  case deep =>
    intro hlt
    exact Nat.le_trans hrank (h.deep (Nat.lt_of_lt_of_le (kind.rise_bounds (top xs)).1 (Nat.le_of_lt_succ hlt)))

end

theorem step_settles : StepSound undecided.reading (undecided.Settles SameNext) step := by
  intro d s s' tag kind parts seat put visited ts hs hseat hread hvisited h
  obtain ⟨parts', m, hparts, hrest⟩ := returns_bind.mp h
  have hchoose := returns_keep_bind.mp hrest
  obtain ⟨xs, ys, halters, hadmits, hsettles⟩ := visited_settles hs hseat hread hvisited hparts
  obtain ⟨_, hchain, -⟩ := hsettles.sign
  have hnext := chain_next hchain
  have hkept := hnext.trans (keep_next m.store (.node tag kind parts')).symm
  have hyields := yields_node hsettles tag kind
  have hstays := hseat.stays hs halters hadmits trivial hyields
  have hsigns := signs_look hstays.sound (hseat.kept hs halters (show s.store.Stores [] by simp [Stores]) hstays.before)
  obtain ⟨hnone, rfl, rfl⟩ | ⟨htakes, rfl⟩ := returns_choose hchoose
  · refine Alters.becomes hstays (settles_node hsettles hkept (by simp [undecided, Scale.reading]) ?_ fun _ _ => ⟨rfl, rfl⟩)
    have hdecides : decides kind (ys.map (·.sign)) = false := by
      rw [hsigns, ← Bool.not_eq_true, ← takes_iff]
      rintro ⟨us, hus⟩
      exact hnone us hus
    simp [undecided_node, hdecides]
  · obtain ⟨hids, horigins⟩ := htakes.sublist
    obtain ⟨hput, zs, ⟨hheight, hrank⟩, hpicks⟩ := hseat.picks hs halters hadmits trivial hyields hnext hids horigins
      fun hidden hreads => htakes.gauges hreads
    rw [hput]
    refine Alters.becomes hpicks (settles_node hsettles hkept ?_ hrank fun hzero hdecides => ?_)
    · exact Nat.le_trans hheight (Nat.le_of_lt (kind.rise_bounds (top ys)).1)
    · -- the parts are what they were, so there is nothing to decide
      rw [eq_of_forall₂ (gauges_of_yields (hsettles.still hzero).2).2.2, hsigns, (takes_iff _).mp ⟨_, htakes⟩] at hdecides
      cases hdecides

/-! ## Whole programs -/

/-- One run decides every condition that is a constant or comes down to one, whether the branches are shared or not. It
reports a change exactly if the program is not what it was, and a second run changes nothing and reports no change. -/
theorem run_decides_all (ht : s.store.Carries t) (hquiet : s.changed = false) :
    ∃ t' s', Returns (run step t) s t' s' ∧ s'.store.Carries t' ∧ every calm (s'.store.expand t') = true ∧
      (s'.changed = true ↔ s'.store.expand t' ≠ s.store.expand t) ∧
      ∃ s'', Returns (run step t') { s' with changed := false } t' s'' ∧ Session.Alike { s' with changed := false } s'' := by
  have hfits (u : Tree) : undecided.reading.Fits u := Reading.fits_of_admits (fun _ _ => trivial) u
  -- a run on what is calm reports nothing, and so it leaves everything as it was
  have hrests {s s' : Session} {t t' : Tree} (ht : s.store.Carries t) (hquiet : s.changed = false)
      (hcalm : every calm (s.store.expand t) = true) (h : Returns (run step t) s t' s') : t' = t ∧ s.Alike s' := by
    obtain ⟨-, -, -, hstill, -⟩ := run_settles respects_sameNext step_settles ht (hfits _) h
    exact reports.run_spares ht s t' s' rfl h ((hstill ((undecided_rank _).mpr hcalm)).trans hquiet)
  obtain ⟨t', s', h⟩ := completes_run step_completes t s
  obtain ⟨ht', -, hrank, -⟩ := run_settles respects_sameNext step_settles ht (hfits _) h
  have hcalm := (undecided_rank _).mp (Nat.le_zero.mp hrank)
  refine ⟨t', s', h, ht', hcalm, ⟨fun hchanged hsame => ?_, fun hdiffers => ?_⟩, ?_⟩
  · obtain ⟨-, halike⟩ := hrests ht hquiet (hsame ▸ hcalm) h
    cases hchanged.symm.trans (halike.changed.trans hquiet)
  · by_contra hunchanged
    obtain ⟨rfl, halike⟩ := reports.run_spares ht s t' s' rfl h (by simpa using hunchanged)
    exact hdiffers (halike.store.expand _)
  · obtain ⟨u, r, hr⟩ := completes_run step_completes t' { s' with changed := false }
    obtain ⟨rfl, halike⟩ := hrests (s := { s' with changed := false }) ht' rfl hcalm hr
    exact ⟨r, hr, halike⟩

/-- Shared branches, and a module that has them twice. -/
def decidingStore : Store := { (Store.share { next := 14 } deciding).2 with next := 15 }

def decidingTwice : Tree := .node { id := 14 } .moduleDef [.seq [.shared 1, .shared 1]]

theorem carries_decidingTwice : decidingStore.Carries decidingTwice := by
  obtain ⟨hshares, hvalues⟩ := share_shares _ carries_deciding.sound deciding carries_deciding.places
  have hunstored : decidingStore.view 14 = none := by
    refine Option.eq_none_iff_forall_not_mem.mpr fun t ht => ?_
    rcases hshares.grown ht with hold | hid
    · simp [Store.view] at hold
    · exact absurd hid (by decide)
  refine ⟨hshares.sound.grow (Nat.le_succ 14), ⟨by decide, ?_, by decide, by decide⟩, ?_⟩
  · intro id hid
    obtain rfl : id = 14 := by simpa [decidingTwice, idsAll, ids] using hid
    exact hunstored
  · have hread : Reads .itself decidingStore.view [.shared 1] [deciding] :=
      hvalues .itself [] _ (by simp) (reads_plain _ rfl (Reading.fits_of_admits (fun _ _ => trivial) _))
    exact ⟨_, .node (.seq (hread.cons hread) .nil) trivial .nil⟩

theorem run_decides_all_twice :
    ∃ t' s', Returns (run step decidingTwice) { store := decidingStore } t' s' ∧ s'.store.Carries t' ∧
      every calm (s'.store.expand t') = true ∧ (s'.changed = true ↔ s'.store.expand t' ≠ decidingStore.expand decidingTwice) ∧
      ∃ s'', Returns (run step t') { s' with changed := false } t' s'' ∧ Session.Alike { s' with changed := false } s'' :=
  run_decides_all carries_decidingTwice rfl

end SourceOptimizer.Pass.DeadBranch
