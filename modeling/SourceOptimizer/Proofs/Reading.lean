import Mathlib
import SourceOptimizer.Tree.Store

/-! Values of trees that share nodes. A reading gives a tree a value from the values of its parts; a reference
has the value of the node it refers to. Only trees without missing and without circular references have a
value. -/
namespace SourceOptimizer
universe u
variable {X : Type u}

theorem eq_of_forall₂ {xs ys : List X} (h : List.Forall₂ Eq xs ys) : xs = ys := by rwa [List.forall₂_eq_eq_eq] at h

/-- A way to give values to trees, with an order in which the values of shared nodes may decrease. -/
structure Reading (X : Type u) where
  node : Tag → Kind → List X → X
  seq : List X → X
  absent : X
  /-- the nodes that have a value -/
  admits : Kind → List X → Prop := fun _ _ => True
  /-- the second value may take the place of the first -/
  yields : X → X → Prop := Eq
  yields_refl : ∀ x, yields x x := by exact fun _ => rfl
  yields_trans : ∀ {x y z}, yields x y → yields y z → yields x z := by exact Eq.trans
  node_yields : ∀ {tag kind xs ys}, List.Forall₂ yields xs ys → admits kind xs →
    admits kind ys ∧ yields (node tag kind xs) (node tag kind ys) := by
      intro _ _ _ _ h hadmits
      cases eq_of_forall₂ h
      exact ⟨hadmits, rfl⟩
  seq_yields : ∀ {xs ys}, List.Forall₂ yields xs ys → yields (seq xs) (seq ys) := by
    intro _ _ h
    cases eq_of_forall₂ h
    exact rfl

namespace Reading
variable {A : Reading X} {xs ys zs : List X}

theorem yields_self (A : Reading X) (xs : List X) : List.Forall₂ A.yields xs xs :=
  List.forall₂_same.mpr fun x _ => A.yields_refl x

theorem yields_all_trans (h : List.Forall₂ A.yields xs ys) (h' : List.Forall₂ A.yields ys zs) :
    List.Forall₂ A.yields xs zs := by
  induction h generalizing zs with
  | nil => exact h'
  | cons head _ ih =>
    obtain _ | ⟨head', tail'⟩ := h'
    exact .cons (A.yields_trans head head') (ih tail')

end Reading

/-- What is kept under each identity. -/
abbrev View := Nat → Option Tree

def Store.view (s : Store) : View := fun id => s.nodes[id]?

def View.hide (v : View) (hidden : List Nat) : View := fun id => if id ∈ hidden then none else v id

inductive Reads (A : Reading X) (v : View) : List Tree → List X → Prop
  | nil : Reads A v [] []
  | node {tag kind parts xs ts ys} (hparts : Reads A v parts xs) (hadmits : A.admits kind xs)
      (hrest : Reads A v ts ys) : Reads A v (.node tag kind parts :: ts) (A.node tag kind xs :: ys)
  | seq {items xs ts ys} (hitems : Reads A v items xs) (hrest : Reads A v ts ys) :
      Reads A v (.seq items :: ts) (A.seq xs :: ys)
  | absent {ts ys} (hrest : Reads A v ts ys) : Reads A v (.absent :: ts) (A.absent :: ys)
  | shared {id t x ts ys} (hview : v id = some t) (hnode : Reads A v [t] [x])
      (hrest : Reads A v ts ys) : Reads A v (.shared id :: ts) (x :: ys)

namespace View
variable {v : View} {hidden : List Nat} {id : Nat} {t : Tree}

theorem hide_eq_some : v.hide hidden id = some t ↔ id ∉ hidden ∧ v id = some t := by
  unfold hide
  split <;> simp_all

theorem hide_nil (v : View) : v.hide [] = v := by
  funext id
  simp [hide]

theorem hide_hide (v : View) (hidden : List Nat) (id : Nat) :
    (v.hide hidden).hide [id] = v.hide (id :: hidden) := by
  funext other
  by_cases h : other = id <;> simp [hide, h]

end View

namespace Reads
variable {A : Reading X} {v w : View} {ts us : List Tree} {xs ys : List X}

theorem unique (h : Reads A v ts xs) (h' : Reads A v ts ys) : xs = ys := by
  induction h generalizing ys with
  | nil =>
    cases h'
    rfl
  | node _ _ _ ihparts ihrest =>
    cases h' with
    | node hparts _ hrest => rw [ihparts hparts, ihrest hrest]
  | seq _ _ ihitems ihrest =>
    cases h' with
    | seq hitems hrest => rw [ihitems hitems, ihrest hrest]
  | absent _ ihrest =>
    cases h' with
    | absent hrest => rw [ihrest hrest]
  | shared hview _ _ ihnode ihrest =>
    cases h' with
    | shared hview' hnode hrest =>
      cases hview.symm.trans hview'
      cases ihnode hnode
      rw [ihrest hrest]

theorem mono (hvw : ∀ id t, v id = some t → w id = some t) (h : Reads A v ts xs) : Reads A w ts xs := by
  induction h with
  | nil => exact .nil
  | node _ hadmits _ ihparts ihrest => exact .node ihparts hadmits ihrest
  | seq _ _ ihitems ihrest => exact .seq ihitems ihrest
  | absent _ ihrest => exact .absent ihrest
  | shared hview _ _ ihnode ihrest => exact .shared (hvw _ _ hview) ihnode ihrest

theorem of_hide {hidden : List Nat} (h : Reads A (v.hide hidden) ts xs) : Reads A v ts xs :=
  h.mono fun _ _ hid => (View.hide_eq_some.mp hid).2

theorem append (h : Reads A v ts xs) (h' : Reads A v us ys) : Reads A v (ts ++ us) (xs ++ ys) := by
  induction h with
  | nil => exact h'
  | node hparts hadmits _ _ ihrest => exact .node hparts hadmits ihrest
  | seq hitems _ _ ihrest => exact .seq hitems ihrest
  | absent _ ihrest => exact .absent ihrest
  | shared hview hnode _ _ ihrest => exact .shared hview hnode ihrest

theorem cons {t : Tree} {x : X} (h : Reads A v [t] [x]) (h' : Reads A v ts xs) :
    Reads A v (t :: ts) (x :: xs) := h.append h'

theorem uncons {t : Tree} (h : Reads A v (t :: ts) ys) :
    ∃ x xs, ys = x :: xs ∧ Reads A v [t] [x] ∧ Reads A v ts xs := by
  cases h with
  | node hparts hadmits hrest => exact ⟨_, _, rfl, .node hparts hadmits .nil, hrest⟩
  | seq hitems hrest => exact ⟨_, _, rfl, .seq hitems .nil, hrest⟩
  | absent hrest => exact ⟨_, _, rfl, .absent .nil, hrest⟩
  | shared hview hnode hrest => exact ⟨_, _, rfl, .shared hview hnode .nil, hrest⟩

theorem length_eq (h : Reads A v ts xs) : xs.length = ts.length := by
  induction h with
  | nil => rfl
  | node _ _ _ _ ihrest | shared _ _ _ _ ihrest => simp [ihrest]
  | seq _ _ _ ihrest => simp [ihrest]
  | absent _ ihrest => simp [ihrest]

theorem unappend (h : Reads A v (ts ++ us) ys) :
    ∃ xs zs, ys = xs ++ zs ∧ Reads A v ts xs ∧ Reads A v us zs := by
  induction ts generalizing ys with
  | nil => exact ⟨[], ys, rfl, .nil, h⟩
  | cons t ts ih =>
    obtain ⟨x, rest, rfl, ht, hrest⟩ := h.uncons
    obtain ⟨xs, zs, rfl, hts, hus⟩ := ih hrest
    exact ⟨x :: xs, zs, rfl, ht.cons hts, hus⟩

/-- The value of a node does not go through the node itself: either a reading never comes to `id`, or
what is kept there can be read without it. -/
theorem hide_or (id : Nat) (h : Reads A v ts xs) :
    Reads A (v.hide [id]) ts xs ∨ ∃ t x, v id = some t ∧ Reads A (v.hide [id]) [t] [x] := by
  induction h with
  | nil => exact .inl .nil
  | node _ hadmits _ ihparts ihrest =>
    rcases ihparts with hparts | hkept
    · exact ihrest.imp_left (.node hparts hadmits)
    · exact .inr hkept
  | seq _ _ ihitems ihrest =>
    rcases ihitems with hitems | hkept
    · exact ihrest.imp_left (.seq hitems)
    · exact .inr hkept
  | absent _ ihrest => exact ihrest.imp_left .absent
  | @shared other t x _ _ hview _ _ ihnode ihrest =>
    rcases ihnode with hnode | hkept
    · by_cases heq : other = id
      · subst heq
        exact .inr ⟨t, x, hview, hnode⟩
      · have hother : v.hide [id] other = some t := View.hide_eq_some.mpr ⟨by simpa using heq, hview⟩
        exact ihrest.imp_left (.shared hother hnode)
    · exact .inr hkept

theorem hide_self {id : Nat} {t : Tree} {x : X} (hview : v id = some t) (h : Reads A v [t] [x]) :
    Reads A (v.hide [id]) [t] [x] := by
  rcases h.hide_or id with hhidden | ⟨t', y, hview', hkept⟩
  · exact hhidden
  · cases hview.symm.trans hview'
    cases h.unique hkept.of_hide
    exact hkept

end Reads

/-! ## The tree with its references resolved -/

def Reading.itself : Reading Tree where
  node := .node
  seq := .seq
  absent := .absent

namespace Store
variable {s : Store} {hidden : List Nat} {ts us : List Tree} {t u : Tree} {id : Nat}

def visible (s : Store) (hidden : List Nat) : List Nat := s.nodes.keys.filter (· ∉ hidden)

theorem mem_visible (hview : s.view.hide hidden id = some t) : id ∈ s.visible hidden := by
  obtain ⟨hid, hview⟩ := View.hide_eq_some.mp hview
  have hmem : id ∈ s.nodes := by
    rw [← Std.HashMap.isSome_getElem?_iff_mem]
    simp [show s.nodes[id]? = some t from hview]
  simp [visible, hmem, hid]

theorem visible_cons_lt (hid : id ∈ s.visible hidden) :
    (s.visible (id :: hidden)).length < (s.visible hidden).length := by
  have hfilter : s.visible (id :: hidden) = (s.visible hidden).filter (· ≠ id) := by
    simp only [visible, List.filter_filter]
    congr 1
    funext other
    by_cases h : other = id <;> simp [h]
  rw [hfilter, List.length_filter_lt_length_iff_exists]
  exact ⟨id, hid, by simp⟩

def referent (s : Store) (depth id : Nat) : Tree :=
  match s.nodes[id]? with
  | some t => s.expandWithin depth t
  | none => .absent

theorem expandWithin_succ (s : Store) (depth : Nat) (t : Tree) :
    s.expandWithin (depth + 1) t = resolve (s.referent depth) t := rfl

theorem referent_eq {depth : Nat} (hview : s.view id = some t) :
    s.referent depth id = s.expandWithin depth t := by
  simp only [referent, show s.nodes[id]? = some t from hview]

/-- The references below a reference avoid it, so that the number of nodes still visible bounds the depth. -/
theorem resolveAll_of_reads {depth : Nat} (h : Reads .itself (s.view.hide hidden) ts us)
    (hdepth : (s.visible hidden).length ≤ depth) : resolveAll (s.referent depth) ts = us := by
  -- the inner induction goes through the trees, the outer one through the references, each of which is then hidden
  induction depth using Nat.strongRecOn generalizing hidden ts us with
  | ind depth ih =>
    induction h with
    | nil => rfl
    | node _ _ _ ihparts ihrest => simp [resolveAll, resolve, Reading.itself, ihparts, ihrest]
    | seq _ _ ihitems ihrest => simp [resolveAll, resolve, Reading.itself, ihitems, ihrest]
    | absent _ ihrest => simp [resolveAll, resolve, Reading.itself, ihrest]
    | @shared id t u _ _ hview hnode _ _ ihrest =>
      have hlt := visible_cons_lt (mem_visible hview)
      obtain ⟨depth, rfl⟩ : ∃ d, depth = d + 1 := ⟨depth - 1, by omega⟩
      have hbelow : Reads .itself (s.view.hide (id :: hidden)) [t] [u] := by
        rw [← View.hide_hide]
        exact hnode.hide_self hview
      have hnode := ih depth (by omega) hbelow (by omega)
      simp only [resolveAll, List.cons.injEq, and_true] at hnode
      rw [resolveAll, resolve, ihrest, referent_eq (View.hide_eq_some.mp hview).2,
        expandWithin_succ, hnode]

theorem expand_eq_of_reads (h : Reads .itself s.view [t] [u]) : s.expand t = u := by
  rw [← View.hide_nil s.view] at h
  have hsize : (s.visible []).length ≤ s.nodes.size := by
    rw [← Std.HashMap.length_keys]
    exact List.length_filter_le _ _
  have hall := resolveAll_of_reads h hsize
  simp only [resolveAll, List.cons.injEq, and_true] at hall
  rw [expand, expandWithin_succ, hall]

theorem map_expand_eq_of_reads (h : Reads .itself s.view ts us) : ts.map s.expand = us := by
  induction ts generalizing us with
  | nil =>
    cases h
    rfl
  | cons t ts ih =>
    obtain ⟨u, us, rfl, ht, hts⟩ := h.uncons
    rw [List.map_cons, expand_eq_of_reads ht, ih hts]

end Store

namespace Reading
variable {A : Reading X} {v : View} {ts us : List Tree} {xs : List X}

mutual

def eval (A : Reading X) : Tree → X
  | .node tag kind parts => A.node tag kind (evalAll A parts)
  | .seq items => A.seq (evalAll A items)
  | .absent => A.absent
  | .shared _ => A.absent

def evalAll (A : Reading X) : List Tree → List X
  | [] => []
  | t :: ts => eval A t :: evalAll A ts

end

mutual

def Fits (A : Reading X) : Tree → Prop
  | .node _ kind parts => A.admits kind (evalAll A parts) ∧ FitsAll A parts
  | .seq items => FitsAll A items
  | .absent => True
  | .shared _ => True

def FitsAll (A : Reading X) : List Tree → Prop
  | [] => True
  | t :: ts => Fits A t ∧ FitsAll A ts

end

mutual

theorem fits_of_admits (h : ∀ kind xs, A.admits kind xs) : (t : Tree) → A.Fits t
  | .node _ kind parts => ⟨h kind _, fitsAll_of_admits h parts⟩
  | .seq items => fitsAll_of_admits h items
  | .absent => trivial
  | .shared _ => trivial

theorem fitsAll_of_admits (h : ∀ kind xs, A.admits kind xs) : (ts : List Tree) → A.FitsAll ts
  | [] => trivial
  | t :: ts => ⟨fits_of_admits h t, fitsAll_of_admits h ts⟩

end

/-- The value of a tree with references is that of the tree they resolve to. -/
theorem reads_of_resolved (h : Reads .itself v ts us) (hfits : A.FitsAll us) :
    Reads A v ts (A.evalAll us) := by
  induction h with
  | nil => exact .nil
  | node _ _ _ ihparts ihrest => exact .node (ihparts hfits.1.2) hfits.1.1 (ihrest hfits.2)
  | seq _ _ ihitems ihrest => exact .seq (ihitems hfits.1) (ihrest hfits.2)
  | absent _ ihrest => exact .absent (ihrest hfits.2)
  | shared hview _ _ ihnode ihrest => exact .shared hview (ihnode ⟨hfits.1, trivial⟩) (ihrest hfits.2)

theorem resolved_of_reads (h : Reads A v ts xs) :
    ∃ us, Reads .itself v ts us ∧ xs = A.evalAll us ∧ A.FitsAll us := by
  induction h with
  | nil => exact ⟨[], .nil, rfl, trivial⟩
  | @node tag kind _ _ _ _ _ hadmits _ ihparts ihrest =>
    obtain ⟨ps, hps, rfl, hfits⟩ := ihparts
    obtain ⟨us, hus, rfl, hrest⟩ := ihrest
    exact ⟨_, .node hps trivial hus, rfl, ⟨hadmits, hfits⟩, hrest⟩
  | seq _ _ ihitems ihrest =>
    obtain ⟨ps, hps, rfl, hfits⟩ := ihitems
    obtain ⟨us, hus, rfl, hrest⟩ := ihrest
    exact ⟨_, .seq hps hus, rfl, hfits, hrest⟩
  | absent _ ihrest =>
    obtain ⟨us, hus, rfl, hrest⟩ := ihrest
    exact ⟨_, .absent hus, rfl, trivial, hrest⟩
  | shared hview _ _ ihnode ihrest =>
    obtain ⟨ps, hps, hx, hfits⟩ := ihnode
    obtain ⟨us, hus, rfl, hrest⟩ := ihrest
    obtain ⟨u, rest, rfl, hu, hnil⟩ := hps.uncons
    cases hnil
    cases hx
    exact ⟨u :: us, .shared hview hu hus, rfl, hfits.1, hrest⟩

end Reading

/-! ## Trees without references -/

namespace Tree

mutual

def refs : Tree → List Nat
  | .node _ _ parts => refsAll parts
  | .seq items => refsAll items
  | .absent => []
  | .shared id => [id]

def refsAll : List Tree → List Nat
  | [] => []
  | t :: ts => refs t ++ refsAll ts

end

mutual

@[simp] theorem number_refs : (t : Tree) → (n : Nat) → refs (t.number n).1 = refs t
  | .node _ _ parts, n => by simp only [number, refs, numberAll_refs parts]
  | .seq items, n => by simp only [number, refs, numberAll_refs items]
  | .absent, _ => rfl
  | .shared _, _ => rfl

@[simp] theorem numberAll_refs : (ts : List Tree) → (n : Nat) → refsAll (numberAll n ts).1 = refsAll ts
  | [], _ => rfl
  | t :: ts, n => by simp only [numberAll, refsAll, number_refs t, numberAll_refs ts]

end

mutual

theorem reads_plain {A : Reading X} {v : View} : (t : Tree) → refs t = [] → A.Fits t → Reads A v [t] [A.eval t]
  | .node _ _ parts, hrefs, hfits => .node (readsAll_plain parts hrefs hfits.2) hfits.1 .nil
  | .seq items, hrefs, hfits => .seq (readsAll_plain items hrefs hfits) .nil
  | .absent, _, _ => .absent .nil
  | .shared _, hrefs, _ => by simp [refs] at hrefs

theorem readsAll_plain {A : Reading X} {v : View} :
    (ts : List Tree) → refsAll ts = [] → A.FitsAll ts → Reads A v ts (A.evalAll ts)
  | [], _, _ => .nil
  | t :: ts, hrefs, hfits => by
    simp only [refsAll, List.append_eq_nil_iff] at hrefs
    exact (reads_plain t hrefs.1 hfits.1).cons (readsAll_plain ts hrefs.2 hfits.2)

end
end Tree

namespace Store
open SourceOptimizer.Tree (refs refsAll reads_plain)

mutual

theorem eval_itself : (t : Tree) → refs t = [] → Reading.itself.eval t = t
  | .node _ _ parts, h => congrArg (Tree.node _ _) (evalAll_itself parts h)
  | .seq items, h => congrArg Tree.seq (evalAll_itself items h)
  | .absent, _ => rfl
  | .shared _, h => by simp [refs] at h

theorem evalAll_itself : (ts : List Tree) → refsAll ts = [] → Reading.itself.evalAll ts = ts
  | [], _ => rfl
  | t :: ts, h => by
    simp only [refsAll, List.append_eq_nil_iff] at h
    rw [Reading.evalAll, eval_itself t h.1, evalAll_itself ts h.2]

end

theorem reads_itself {t : Tree} (h : refs t = []) (v : View) : Reads .itself v [t] [t] := by
  have hreads := reads_plain (A := .itself) (v := v) t h (Reading.fits_of_admits (fun _ _ => trivial) t)
  rwa [eval_itself t h] at hreads

end Store
end SourceOptimizer
