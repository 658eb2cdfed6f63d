import SourceOptimizer.Proofs.PlainVisits
import SourceOptimizer.Proofs.Traversal

/-! How much a pass leaves to be done. A pass goes farther into shared nodes than any program goes, so what a
step achieves at a node whose parts were visited, a run achieves everywhere. -/
namespace SourceOptimizer
universe u

/-- How high a node stands over its parts. A body is at least as high as the statement that is put into an empty one, and a
loop as high as what it is unrolled to. -/
def Kind.rise (kind : Kind) (height : Nat) : Nat :=
  match kind with
  | .functionDef _ | .classDef _ | .moduleDef => max 1 height + 1
  | .forStmt => max 1 height + 2
  | _ => height + 1

theorem Kind.rise_mono (kind : Kind) {n m : Nat} (h : n ≤ m) : kind.rise n ≤ kind.rise m := by
  unfold rise
  split <;> omega

theorem Kind.rise_bounds (kind : Kind) (n : Nat) : n < kind.rise n ∧ kind.rise n ≤ max 1 n + 2 := by
  unfold rise
  split <;> omega

/-- How high a tree is, how much there is to be done in it, and what else is to be known of it. -/
structure Gauge (Y : Type u) where
  height : Nat
  rank : Nat
  sign : Y

namespace Gauge
variable {Y : Type u} {xs ys : List (Gauge Y)} {n : Nat}

def top (xs : List (Gauge Y)) : Nat := (xs.map height).foldr max 0

def peak (xs : List (Gauge Y)) : Nat := (xs.map rank).foldr max 0

@[simp] theorem top_nil : top ([] : List (Gauge Y)) = 0 := rfl

@[simp] theorem peak_nil : peak ([] : List (Gauge Y)) = 0 := rfl

@[simp] theorem top_cons (x : Gauge Y) (xs : List (Gauge Y)) : top (x :: xs) = max x.height (top xs) := rfl

@[simp] theorem peak_cons (x : Gauge Y) (xs : List (Gauge Y)) : peak (x :: xs) = max x.rank (peak xs) := rfl

@[simp] theorem top_append (xs ys : List (Gauge Y)) : top (xs ++ ys) = max (top xs) (top ys) := by
  induction xs with
  | nil => simp
  | cons x xs ih => simp [ih, Nat.max_assoc]

@[simp] theorem peak_append (xs ys : List (Gauge Y)) : peak (xs ++ ys) = max (peak xs) (peak ys) := by
  induction xs with
  | nil => simp
  | cons x xs ih => simp [ih, Nat.max_assoc]

end Gauge

/-- What is to be known of trees, how much there is to be done at a node, and how much of that a run may leave. -/
structure Scale (Y : Type u) extends Reading Y where
  rank : Kind → List Y → Nat → Nat
  rank_le : ∀ {kind ys zs r q}, List.Forall₂ yields ys zs → q ≤ r → rank kind zs q ≤ rank kind ys r
  left : Nat → Nat
  left_le : ∀ {q r}, q ≤ r → left q ≤ left r

namespace Scale
open Gauge Store Tree Work Pass
variable {Y : Type u} {S : Scale Y} {xs ys : List (Gauge Y)} {yss : List (List (Gauge Y))}

theorem gauges_of_yields {R : Y → Y → Prop}
    (h : List.Forall₂ (fun x y : Gauge Y => y.height ≤ x.height ∧ y.rank ≤ x.rank ∧ R x.sign y.sign) xs ys) :
    top ys ≤ top xs ∧ peak ys ≤ peak xs ∧ List.Forall₂ R (xs.map (·.sign)) (ys.map (·.sign)) := by
  induction h with
  | nil => exact ⟨Nat.le_refl _, Nat.le_refl _, .nil⟩
  | cons head _ ih =>
    simp only [top_cons, peak_cons, List.map_cons]
    exact ⟨by omega, by omega, .cons head.2.2 ih.2.2⟩

def reading (S : Scale Y) : Reading (Gauge Y) where
  node := fun tag kind xs =>
    ⟨kind.rise (top xs), S.rank kind (xs.map (·.sign)) (peak xs), S.node tag kind (xs.map (·.sign))⟩
  seq := fun xs => ⟨top xs, peak xs, S.seq (xs.map (·.sign))⟩
  absent := ⟨0, 0, S.absent⟩
  admits := fun kind xs => S.admits kind (xs.map (·.sign))
  yields := fun x y => y.height ≤ x.height ∧ y.rank ≤ x.rank ∧ S.yields x.sign y.sign
  yields_refl := fun x => ⟨Nat.le_refl _, Nat.le_refl _, S.yields_refl _⟩
  yields_trans := fun h h' => ⟨Nat.le_trans h'.1 h.1, Nat.le_trans h'.2.1 h.2.1, S.yields_trans h.2.2 h'.2.2⟩
  node_yields := by
    intro tag kind xs ys h hadmits
    obtain ⟨htop, hpeak, hsigns⟩ := gauges_of_yields h
    obtain ⟨hadmits', hsign⟩ := S.node_yields hsigns hadmits
    exact ⟨hadmits', kind.rise_mono htop, S.rank_le hsigns hpeak, hsign⟩
  seq_yields := by
    intro xs ys h
    obtain ⟨htop, hpeak, hsigns⟩ := gauges_of_yields h
    exact ⟨htop, hpeak, S.seq_yields hsigns⟩

/-- A tree becomes trees that are no higher and in which there is no more to be done, and less if the visit goes deep enough.
Where there was nothing to be done nothing is reported. -/
structure Settles (S : Scale Y) (R : Becoming Y) (d : Nat) (s s' : Session) (x : Gauge Y) (ys : List (Gauge Y)) : Prop where
  sign : R s s' x.sign (ys.map (·.sign))
  height : top ys ≤ x.height
  rank : peak ys ≤ x.rank
  still : x.rank = 0 → s'.changed = s.changed ∧ ∃ y, ys = [y] ∧ S.reading.yields x y
  deep : x.height < d → peak ys ≤ S.left x.rank

variable {R : Becoming Y} {d : Nat} {s s' : Session}

theorem single_sign (S : Scale Y) (ys : List (Gauge Y)) : (S.reading.single ys).sign = S.single (ys.map (·.sign)) := by
  match ys with
  | [] => rfl
  | [y] => rfl
  | _ :: _ :: _ => rfl

theorem single_gauges (S : Scale Y) (ys : List (Gauge Y)) :
    (S.reading.single ys).height = top ys ∧ (S.reading.single ys).rank = peak ys := by
  match ys with
  | [] => exact ⟨rfl, rfl⟩
  | [y] => simp [Reading.single]
  | _ :: _ :: _ => exact ⟨rfl, rfl⟩

theorem gauges_parts (S : Scale Y) (yss : List (List (Gauge Y))) :
    top (yss.map S.reading.single) = top yss.flatten ∧ peak (yss.map S.reading.single) = peak yss.flatten := by
  induction yss with
  | nil => exact ⟨rfl, rfl⟩
  | cons ys yss ih => simp [single_gauges S ys, ih]

structure SettlesAll (S : Scale Y) (R : Becoming Y) (d : Nat) (s s' : Session) (xs : List (Gauge Y))
    (yss : List (List (Gauge Y))) : Prop where
  sign : Chain R s s' (xs.map (·.sign)) (yss.map (·.map (·.sign)))
  height : top yss.flatten ≤ top xs
  rank : peak yss.flatten ≤ peak xs
  still : peak xs = 0 → s'.changed = s.changed ∧ ∃ ys, yss = ys.map ([·]) ∧ List.Forall₂ S.reading.yields xs ys
  deep : top xs < d → peak yss.flatten ≤ S.left (peak xs)

theorem settlesAll (h : Chain (S.Settles R d) s s' xs yss) : S.SettlesAll R d s s' xs yss := by
  induction h with
  | nil => exact ⟨.nil, Nat.le_refl _, Nat.le_refl _, fun _ => ⟨rfl, [], rfl, .nil⟩, fun _ => Nat.zero_le _⟩
  | @cons _ _ _ x ys xs yss head _ ih =>
    have hheight := head.height
    have hrank := head.rank
    have hheights := ih.height
    have hranks := ih.rank
    constructor
    case sign => exact .cons head.sign ih.sign
    case height =>
      simp only [List.flatten_cons, top_append, top_cons]
      omega
    case rank =>
      simp only [List.flatten_cons, peak_append, peak_cons]
      omega
    case still =>
      intro hpeak
      rw [peak_cons] at hpeak
      obtain ⟨hchanged, y, rfl, hyields⟩ := head.still (by omega)
      obtain ⟨hchanged', ys, rfl, hall⟩ := ih.still (by omega)
      exact ⟨hchanged'.trans hchanged, y :: ys, rfl, .cons hyields hall⟩
    case deep =>
      intro htop
      rw [top_cons] at htop
      have hhead := Nat.le_trans (head.deep (by omega)) (S.left_le (Nat.le_max_left x.rank (peak xs)))
      have htail := Nat.le_trans (ih.deep (by omega)) (S.left_le (Nat.le_max_right x.rank (peak xs)))
      simp only [List.flatten_cons, peak_append, peak_cons]
      omega

theorem respects (hR : Respects S.toReading fun _ => R) : Respects S.reading (S.Settles R) where
  refl := fun s x =>
    ⟨hR.refl s _, by simp, by simp, fun _ => ⟨rfl, x, rfl, S.reading.yields_refl x⟩, fun h => absurd h (Nat.not_lt_zero _)⟩
  absent := fun d s =>
    ⟨hR.absent d s, Nat.le_refl _, Nat.le_refl _, fun _ => ⟨rfl, _, rfl, S.reading.yields_refl _⟩, fun _ => Nat.zero_le _⟩
  seq := by
    intro d s s' xs yss h
    have hall := settlesAll h
    constructor
    case sign =>
      have hsign := hR.seq (d := d) hall.sign
      rwa [← List.map_flatten] at hsign
    case height => simpa [reading] using hall.height
    case rank => simpa [reading] using hall.rank
    case still =>
      intro hpeak
      obtain ⟨hchanged, ys, rfl, hyields⟩ := hall.still hpeak
      refine ⟨hchanged, _, rfl, ?_⟩
      rw [← List.flatMap_def, List.flatMap_singleton']
      exact S.reading.seq_yields hyields
    case deep => exact fun htop => by simpa [reading] using hall.deep htop
  less := fun h => { h with deep := fun hlt => h.deep (by omega) }
  before := by
    intro d s s' x y zs hyields h
    constructor
    case sign => exact hR.before (d := d) hyields.2.2 h.sign
    case height => exact Nat.le_trans h.height hyields.1
    case rank => exact Nat.le_trans h.rank hyields.2.1
    case still =>
      intro hrank
      obtain ⟨hchanged, z, rfl, hz⟩ := h.still (Nat.le_zero.mp (hrank ▸ hyields.2.1))
      exact ⟨hchanged, z, rfl, S.reading.yields_trans hyields hz⟩
    case deep =>
      exact fun hlt => Nat.le_trans (h.deep (Nat.lt_of_le_of_lt hyields.1 hlt)) (S.left_le hyields.2.1)
  after := by
    intro d s s' x ys zs h hyields
    obtain ⟨htop, hpeak, hsigns⟩ := gauges_of_yields hyields
    constructor
    case sign => exact hR.after (d := d) h.sign hsigns
    case height => exact Nat.le_trans htop h.height
    case rank => exact Nat.le_trans hpeak h.rank
    case still =>
      intro hrank
      obtain ⟨hchanged, y, rfl, hy⟩ := h.still hrank
      obtain _ | ⟨hz, _ | _⟩ := hyields
      exact ⟨hchanged, _, rfl, S.reading.yields_trans hy hz⟩
    case deep => exact fun hlt => Nat.le_trans hpeak (h.deep hlt)

structure SettlesParts (S : Scale Y) (R : Becoming Y) (d : Nat) (s s' : Session) (xs ys : List (Gauge Y)) : Prop where
  sign : ∃ zss, Chain R s s' (xs.map (·.sign)) zss ∧ ys.map (·.sign) = zss.map S.single
  height : top ys ≤ top xs
  rank : peak ys ≤ peak xs
  still : peak xs = 0 → s'.changed = s.changed ∧ List.Forall₂ S.reading.yields xs ys
  deep : top xs < d → peak ys ≤ S.left (peak xs)

theorem SettlesAll.parts (h : S.SettlesAll R d s s' xs yss) : S.SettlesParts R d s s' xs (yss.map S.reading.single) := by
  obtain ⟨htop, hpeak⟩ := S.gauges_parts yss
  refine ⟨⟨_, h.sign, ?_⟩, htop ▸ h.height, hpeak ▸ h.rank, fun hzero => ?_, fun hlt => hpeak ▸ h.deep hlt⟩
  · simp only [List.map_map, Function.comp_def, single_sign]
  · obtain ⟨hchanged, ys, rfl, hyields⟩ := h.still hzero
    rw [List.map_map]
    exact ⟨hchanged, by simpa [Function.comp_def, Reading.single] using hyields⟩

theorem visited_settles {m : Session} {tag : Tag} {kind : Kind} {parts parts' : List Tree} {seat : Tree} {put : Tree → Tree}
    {visited : Work (List Tree)} (hs : s.store.Sound) (hseat : Seat s.store tag kind parts seat put)
    (hread : Readable S.reading s.store [seat]) (hvisited : Visits S.reading (S.Settles R d) parts visited)
    (h : Returns visited s parts' m) :
    ∃ xs ys, Alters S.reading s.store parts xs m.store parts' ys ∧ S.reading.admits kind xs ∧ S.SettlesParts R d s m xs ys := by
  have hreadable := hseat.readable hread
  obtain ⟨xs, yss, hchain, halters⟩ := (hvisited hs (hseat.places hs) hreadable h).alters hreadable
  exact ⟨xs, _, halters, hseat.admits hread halters.before, (settlesAll hchain).parts⟩

end Scale

/-! ## Programs are not too high -/

/-- How many shared nodes are not hidden. -/
def Store.room (s : Store) (hidden : List Nat) : Nat :=
  ((List.range s.next).filter fun id => (s.view id).isSome && !hidden.contains id).length

namespace Scale
open Gauge Store Tree Work Pass
variable {Y : Type u} {S : Scale Y} {s : Store} {hidden : List Nat}

theorem room_cons {id : Nat} (hlt : id < s.next) (hview : s.view id ≠ none) (hid : id ∉ hidden) :
    s.room (id :: hidden) < s.room hidden := by
  unfold Store.room
  have hmem : id ∈ (List.range s.next).filter fun id => (s.view id).isSome && !hidden.contains id := by
    simp [hlt, hid, Option.isSome_iff_ne_none, hview]
  have hsub : ((List.range s.next).filter fun i => (s.view i).isSome && !(id :: hidden).contains i) ⊆
      ((List.range s.next).filter fun id => (s.view id).isSome && !hidden.contains id).erase id := by
    intro i hi
    simp only [List.mem_filter, List.mem_range, Bool.and_eq_true, List.contains_cons, Bool.not_or, Bool.not_eq_true',
      beq_eq_false_iff_ne] at hi
    rw [(List.nodup_range.filter _).mem_erase_iff, List.mem_filter]
    simp only [List.mem_range, hi, Bool.not_false, Bool.and_self, and_self, ne_eq, not_false_eq_true]
  have hle := ((List.nodup_range.filter _).subperm hsub).length_le
  rw [List.length_erase_of_mem hmem] at hle
  have hpos := List.length_pos_of_mem hmem
  omega

theorem top_le_room (hs : s.Sound) (r : Nat) : ∀ {hidden ts} {xs : List (Gauge Y)}, s.room hidden < r →
    Reads S.reading (s.view.hide hidden) ts xs → top xs ≤ 2 * ((idsAll ts).length + s.room hidden) + 1 := by
  induction r with
  | zero => exact fun h => absurd h (Nat.not_lt_zero _)
  | succ r ih =>
    intro hidden ts xs hroom h
    induction h with
    | nil => simp
    | @node tag kind _ zs _ _ _ _ _ ihparts ihrest =>
      have hrise := (kind.rise_bounds (top zs)).2
      simp only [reading, top_cons, idsAll, ids, List.length_append, List.length_cons]
      omega
    | seq _ _ ihitems ihrest =>
      simp only [reading, top_cons, idsAll, ids, List.length_append]
      omega
    | absent _ ihrest => simpa [reading, idsAll, ids] using ihrest
    | shared hview hnode _ _ ihrest =>
      -- below the node it is hidden itself
      obtain ⟨hid, hkept⟩ := View.hide_eq_some.mp hview
      obtain ⟨tag, kind, parts, rfl, rfl, hbare, _⟩ := hs.stored hkept
      obtain ⟨_, zs, hparts, _, rfl⟩ := reads_inside hkept (.shared hview hnode .nil)
      have hless := room_cons (hs.below hkept) (by simp [hkept]) hid
      have hbelow := ih (by omega) hparts
      have hrise := (kind.rise_bounds (top zs)).2
      rw [hbare] at hbelow
      simp only [reading, top_cons, idsAll, ids, List.length_append, List.length_nil] at hbelow ⊢
      omega

theorem height_le {t : Tree} {x : Gauge Y} (hs : s.Sound) (hplaces : s.Places [t]) (h : Reads S.reading s.view [t] [x]) :
    x.height ≤ 2 * s.next + 1 := by
  have hroom : (idsAll [t]).length + s.room [] ≤ s.next := by
    have hnodup : (idsAll [t] ++ (List.range s.next).filter fun id => (s.view id).isSome && !([].contains id)).Nodup := by
      refine List.nodup_append.mpr ⟨hplaces.nodup, List.nodup_range.filter _, ?_⟩
      rintro i hi j hj rfl
      simp [hplaces.outside i hi] at hj
    have hsub : (idsAll [t] ++ (List.range s.next).filter fun id => (s.view id).isSome && !([].contains id)) ⊆
        List.range s.next := by
      intro i hi
      rcases List.mem_append.mp hi with hi | hi
      · exact List.mem_range.mpr (hplaces.below i hi)
      · exact (List.mem_filter.mp hi).1
    have hle := (hnodup.subperm hsub).length_le
    rwa [List.length_append, List.length_range] at hle
  rw [← View.hide_nil s.view] at h
  have htop := top_le_room hs _ (Nat.lt_succ_self _) h
  simp only [top_cons, top_nil] at htop
  omega

/-- What a run leaves to be done, and that it reports nothing if there was nothing to be done. -/
theorem run_settles {R : Becoming Y} {step : Step Work} {s s' : Session} {t t' : Tree}
    (hR : Respects S.toReading fun _ => R) (hstep : StepSound S.reading (S.Settles R) step) (hcarries : s.store.Carries t)
    (hfits : S.reading.Fits (s.store.expand t)) (h : Returns (run step t) s t' s') :
    s'.store.Carries t' ∧ S.reading.Fits (s'.store.expand t') ∧
      (S.reading.eval (s'.store.expand t')).rank ≤ S.left (S.reading.eval (s.store.expand t)).rank ∧
      ((S.reading.eval (s.store.expand t)).rank = 0 → s'.changed = s.changed) ∧
      ∃ zs, R s s' (S.reading.eval (s.store.expand t)).sign zs ∧
        (S.reading.eval (s'.store.expand t')).sign = S.single zs := by
  obtain ⟨hcarries', hfits', ys, hsettles, heval⟩ := run_carries (respects hR) hstep hcarries hfits h
  have hheight : (S.reading.eval (s.store.expand t)).height ≤ 2 * s.store.next + 1 := by
    obtain ⟨u, hu⟩ := hcarries.resolves
    rw [expand_eq_of_reads hu] at hfits ⊢
    exact height_le hcarries.sound hcarries.places (Reading.reads_of_resolved hu ⟨hfits, trivial⟩)
  rw [heval, (single_gauges S ys).2, single_sign]
  refine ⟨hcarries', hfits', hsettles.deep ?_, fun hrank => (hsettles.still hrank).1, _, hsettles.sign, rfl⟩
  unfold depthBound
  omega

/-! ## What one run is enough for -/

mutual

theorem eval_sign (S : Scale Y) : (t : Tree) → (S.reading.eval t).sign = S.eval t
  | .node tag kind parts => congrArg (S.node tag kind) (evalAll_sign S parts)
  | .seq items => congrArg S.seq (evalAll_sign S items)
  | .absent => rfl
  | .shared _ => rfl

theorem evalAll_sign (S : Scale Y) : (ts : List Tree) → (S.reading.evalAll ts).map (·.sign) = S.evalAll ts
  | [] => rfl
  | t :: ts => congrArg₂ List.cons (eval_sign S t) (evalAll_sign S ts)

end

/-- There is something to be done in a tree or not, and a run leaves nothing. -/
def once (B : Reading Y) (opens : Kind → List Y → Bool)
    (h : ∀ kind ys zs, List.Forall₂ B.yields ys zs → opens kind zs = true → opens kind ys = true) : Scale Y where
  toReading := B
  rank := fun kind ys r => if opens kind ys then max 1 r else r
  rank_le := by
    intro kind ys zs r q hyields hle
    cases hz : opens kind zs with
    | true =>
      rw [if_pos rfl, if_pos (h kind ys zs hyields hz)]
      omega
    | false =>
      rw [if_neg (by simp)]
      split <;> omega
  left := fun _ => 0
  left_le := fun _ => Nat.le_refl 0

section
set_option linter.unusedSectionVars false
variable {B : Reading Y} {opens : Kind → List Y → Bool}
  {h : ∀ kind ys zs, List.Forall₂ B.yields ys zs → opens kind zs = true → opens kind ys = true}
  {calm : Kind → List Tree → Bool}
  (hcalm : ∀ kind ts, B.admits kind (B.evalAll ts) → (once B opens h).reading.FitsAll ts →
    calm kind ts = !opens kind (B.evalAll ts))
include hcalm

mutual

theorem eval_calm_iff : (t : Tree) → (once B opens h).reading.Fits t →
    (((once B opens h).reading.eval t).rank = 0 ↔ every calm t = true)
  | .node tag kind parts, ⟨hadmits, hfits⟩ => by
    have hsigns := evalAll_sign (once B opens h) parts
    have hadmits : B.admits kind (((once B opens h).reading.evalAll parts).map (·.sign)) := hadmits
    rw [hsigns] at hadmits
    have hrank : ((once B opens h).reading.eval (.node tag kind parts)).rank = if opens kind (B.evalAll parts)
        then max 1 (peak ((once B opens h).reading.evalAll parts))
        else peak ((once B opens h).reading.evalAll parts) :=
      congrArg (fun ys => if opens kind ys then _ else _) hsigns
    rw [every, Bool.and_eq_true, ← evalAll_calm_iff parts hfits, hcalm kind parts hadmits hfits, hrank]
    cases opens kind (B.evalAll parts) with
    | true =>
      simp only [if_true, Bool.not_true, Bool.false_eq_true, false_and, iff_false]
      omega
    | false => simp
  | .seq items, hfits => evalAll_calm_iff items hfits
  | .absent, _ => by simp [Reading.eval, reading, every]
  | .shared _, _ => by simp [Reading.eval, reading, every]

theorem evalAll_calm_iff : (ts : List Tree) → (once B opens h).reading.FitsAll ts →
    (peak ((once B opens h).reading.evalAll ts) = 0 ↔ everyAll calm ts = true)
  | [], _ => by simp [Reading.evalAll, everyAll]
  | t :: ts, ⟨hfits, hrest⟩ => by
    rw [everyAll, Bool.and_eq_true, ← eval_calm_iff t hfits, ← evalAll_calm_iff ts hrest, Reading.evalAll, peak_cons]
    omega

end

end

end Scale
end SourceOptimizer
