import SourceOptimizer.Proofs.DeadBranches
import SourceOptimizer.Proofs.Folding
import SourceOptimizer.Proofs.Stripping

/-! The passes of the first two levels come to rest. A tree has a weight: what can still be folded, decided or
removed counts, and what is put in its place counts less. No pass adds to the weight, and one that reports a
change has lowered it. -/
namespace SourceOptimizer
open Work

namespace Tree

variable {t test u : Tree} {rest ts' us us' body : List Tree} {c d : Prop}

/-- What a node sees of one of its parts. -/
inductive Face where
  | literal (v : Value)
  | absent
  /-- a list without items -/
  | empty
  | other

def Face.isUnsettled : Face → Bool
  | .literal (.bool _) => false
  | .literal _ => true
  | _ => false

def Face.isEmpty : Face → Bool
  | .empty => true
  | _ => false

def Face.isPresent : Face → Bool
  | .absent => false
  | _ => true

def face : Tree → Face
  | .node _ (.constant l) _ => .literal l.value
  | .node _ _ _ => .other
  | .seq [] => .empty
  | .seq _ => .other
  | .absent => .absent
  | .shared _ => .other

def base : Kind → Nat
  | .binOp _ | .compare _ | .ifExp | .ifStmt | .whileStmt => 3
  | _ => 0

/-- Conditions that are no truth values yet, empty bodies and declared results. -/
def pending : Kind → List Face → Nat
  | .ifStmt, test :: _ => test.isUnsettled.toNat
  | .whileStmt, test :: _ => test.isUnsettled.toNat
  | .functionDef _, [_, body, _, result] => body.isEmpty.toNat + result.isPresent.toNat
  | .classDef _, [_, _, body, _] => body.isEmpty.toNat
  | .moduleDef, [body] => body.isEmpty.toNat
  | _, _ => 0

/-- The one part of a node, such as the text of a statement or the declared type of a parameter. -/
def sole : List Face → Nat
  | [f] => f.isPresent.toNat
  | _ => 0

def load (kind : Kind) (faces : List Face) : Nat := base kind + pending kind faces + sole faces

mutual

/-- How much there may be left to do in a tree. -/
def weight : Tree → Nat
  | .node _ kind parts => load kind (parts.map face) + weightAll parts
  | .seq items => weightAll items
  | .absent => 0
  | .shared _ => 0

def weightAll : List Tree → Nat
  | [] => 0
  | t :: ts => weight t + weightAll ts

end

theorem weightAll_append (ts us : List Tree) : weightAll (ts ++ us) = weightAll ts + weightAll us := by
  induction ts with
  | nil => simp [weightAll]
  | cons t ts ih => simp [weightAll, ih, Nat.add_assoc]

theorem weight_single (ts : List Tree) : weight (Pass.single ts) = weightAll ts := by
  match ts with
  | [] => rfl
  | [t] => exact (Nat.add_zero _).symm
  | _ :: _ :: _ => rfl

theorem weightAll_items_le (t : Tree) : weightAll t.items ≤ weight t := by
  cases t with
  | seq items => exact Nat.le_refl _
  | _ => exact Nat.zero_le _

theorem load_le (kind : Kind) (faces faces' : List Face) (hlength : faces.length = faces'.length) :
    load kind faces' ≤ load kind faces + 2 := by
  have hsole : ∀ fs, sole fs ≤ 1 := by
    intro fs
    unfold sole
    split
    · exact Bool.toNat_le _
    · exact Nat.zero_le _
  have hpending : pending kind faces' ≤ 1 ∨ pending kind faces' ≤ 2 ∧ sole faces' = 0 := by
    unfold pending
    split
    · exact .inl (Bool.toNat_le _)
    · exact .inl (Bool.toNat_le _)
    next _ body _ result =>
      have hbody := Bool.toNat_le body.isEmpty
      have hresult := Bool.toNat_le result.isPresent
      exact .inr ⟨by omega, rfl⟩
    · exact .inl (Bool.toNat_le _)
    · exact .inl (Bool.toNat_le _)
    · exact .inl (Nat.zero_le _)
  have hsole' := hsole faces'
  unfold load
  omega

theorem base_le_weight (tag : Tag) (kind : Kind) (parts : List Tree) :
    base kind + weightAll parts ≤ weight (.node tag kind parts) := by
  unfold weight load
  omega

theorem literal?_bare (t : Tree) : (bare t).literal? = t.literal?.map fun l => { l with origin := 0 } := by
  cases t with
  | node tag kind parts => cases kind <;> rfl
  | _ => rfl

theorem isSome_literal_bare (t : Tree) : (bare t).literal?.isSome = t.literal?.isSome := by
  rw [literal?_bare, Option.isSome_map]

theorem face_bare (t : Tree) : face (bare t) = face t := by
  cases t with
  | node tag kind parts => cases kind <;> rfl
  | seq items => cases items <;> rfl
  | _ => rfl

theorem isAbsent_bare (t : Tree) : (bare t).isAbsent = t.isAbsent := by cases t <;> rfl

theorem map_face_bare (ts : List Tree) : (bareAll ts).map face = ts.map face := by
  rw [bareAll_eq_map, List.map_map]
  exact List.map_congr_left fun t _ => face_bare t

mutual

theorem weight_bare : (t : Tree) → weight (bare t) = weight t
  | .node tag kind parts => by
    simp only [bare, weight, map_face_bare, weightAll_bare parts]
    cases kind <;> rfl
  | .seq items => weightAll_bare items
  | .absent => rfl
  | .shared _ => rfl

theorem weightAll_bare : (ts : List Tree) → weightAll (bareAll ts) = weightAll ts
  | [] => rfl
  | t :: ts => by simp only [bareAll, weightAll, weight_bare t, weightAll_bare ts]

end

theorem face_number (t : Tree) (n : Nat) : face (t.number n).1 = face t := by rw [← face_bare, bare_number, face_bare]

theorem weight_number (t : Tree) (n : Nat) : weight (t.number n).1 = weight t := by
  rw [← weight_bare, bare_number, weight_bare]

theorem weight_lined (t : Tree) (line : Nat) : weight (lined line t) = weight t := by
  rw [← weight_bare, bare_lined, weight_bare]

theorem isPresent_face (t : Tree) : t.face.isPresent = !t.isAbsent := by
  cases t with
  | node tag kind parts => cases kind <;> rfl
  | seq items => cases items <;> rfl
  | _ => rfl

theorem weightAll_texts (args : List String) : weightAll (args.map text) = 0 := by
  induction args with
  | nil => rfl
  | cons arg args ih =>
    rw [List.map_cons, weightAll, ih]
    rfl

theorem weight_raising (className : String) (args : List String) : weight (raising className args) = 2 := by
  simp [raising, callOf, emptyGenerator, noParameters, loadName, make, weight, weightAll, load, base, pending, sole, face,
    Face.isPresent, weightAll_texts]

end Tree

open Tree

/-! ## Lighter trees -/

namespace Pass
variable {s m s' : Session} {t : Tree} {tag : Tag} {kind : Kind} {parts parts' ts : List Tree}
  {visited : Work (List Tree)}

/-- A visit adds no weight; what looks different or disappears has lost some, and so has what is reported. -/
structure Sheds (t : Tree) (s : Session) (ts : List Tree) (s' : Session) : Prop where
  plain : refsAll ts = []
  le : weightAll ts ≤ weight t
  vanishes : ts = [] → 3 ≤ weight t
  face : (single ts).face = t.face ∨ weightAll ts + 3 ≤ weight t
  changed : s'.changed = true → s.changed = true ∨ weightAll ts < weight t

structure PartsShed (parts : List Tree) (s : Session) (parts' : List Tree) (s' : Session) : Prop where
  plain : refsAll parts' = []
  le : weightAll parts' ≤ weightAll parts
  length : parts'.length = parts.length
  face : parts'.map Tree.face = parts.map Tree.face ∨ weightAll parts' + 3 ≤ weightAll parts
  changed : s'.changed = true → s.changed = true ∨ weightAll parts' < weightAll parts

theorem PartsTo.shed (h : PartsTo Sheds parts s parts' s') : PartsShed parts s parts' s' := by
  induction h with
  | nil => exact ⟨rfl, Nat.le_refl _, rfl, .inl rfl, .inl⟩
  | @cons p ps results rest s m s' head tail ih =>
    have hweight := weight_single results
    have hle := head.le
    have hle' := ih.le
    constructor
    case plain => rw [refsAll, refs_single head.plain, ih.plain, List.nil_append]
    case le =>
      simp only [weightAll]
      omega
    case length => simp [ih.length]
    case face =>
      rcases head.face with hface | hless
      · rcases ih.face with hfaces | hless
        · exact .inl (by simp [hface, hfaces])
        · right
          simp only [weightAll]
          omega
      · right
        simp only [weightAll]
        omega
    case changed =>
      intro hchanged
      simp only [weightAll]
      rcases ih.changed hchanged with hm | hless
      · exact (head.changed hm).imp_right fun hless => by omega
      · exact .inr (by omega)

theorem ItemsTo.shed {items items' : List Tree} (h : ItemsTo Sheds items s items' s') : Sheds (.seq items) s [.seq items'] s' := by
  have hweight (us : List Tree) : weightAll [.seq us] = weightAll us := Nat.add_zero _
  have hplain (us : List Tree) : refsAll [.seq us] = refsAll us := List.append_nil _
  induction h with
  | nil => exact ⟨rfl, Nat.le_refl _, by simp, .inl rfl, .inl⟩
  | @cons t ts results rest s m s' head tail ih =>
    have hle := head.le
    have hle' := ih.le
    constructor
    case plain =>
      have hrest := ih.plain
      rw [hplain] at hrest ⊢
      rw [refsAll_append, head.plain, hrest, List.nil_append]
    case le =>
      rw [hweight, weightAll_append]
      simp only [weight, weightAll] at hle' ⊢
      omega
    case vanishes => simp
    case face =>
      -- the list is empty afterwards only if its first item has disappeared
      cases hresults : results ++ rest with
      | nil =>
        have hthree := head.vanishes (List.append_eq_nil_iff.mp hresults).1
        right
        simp only [weight, weightAll]
        omega
      | cons u us => exact .inl rfl
    case changed =>
      intro hchanged
      rw [hweight, weightAll_append]
      simp only [weight, weightAll] at hle' ⊢
      rcases ih.changed hchanged with hm | hless
      · exact (head.changed hm).imp_right fun hless => by omega
      · rw [hweight] at hless
        simp only [weight] at hless
        exact .inr (by omega)

theorem PartsShed.node (h : PartsShed parts s parts' s') (tag tag' : Tag) (kind : Kind) :
    weight (.node tag kind parts') ≤ weight (.node tag' kind parts) ∧
      (weightAll parts' < weightAll parts → weight (.node tag kind parts') < weight (.node tag' kind parts)) := by
  simp only [weight]
  rcases h.face with hfaces | hless
  · have hle := h.le
    rw [hfaces]
    omega
  · have hload := load_le kind (parts.map Tree.face) (parts'.map Tree.face) (by simp [h.length])
    omega

theorem face_node (tag tag' : Tag) (kind : Kind) (parts parts' : List Tree) :
    Tree.face (.node tag kind parts') = Tree.face (.node tag' kind parts) := by
  cases kind <;> rfl

theorem sheds_node {tag tag' : Tag} (hplain : refsAll parts' = [])
    (hle : weight (.node tag' kind parts') ≤ weight (.node tag kind parts))
    (hchanged : s'.changed = true → s.changed = true ∨ weight (.node tag' kind parts') < weight (.node tag kind parts)) :
    Sheds (.node tag kind parts) s [.node tag' kind parts'] s' where
  plain := by simpa [refsAll, refs] using hplain
  le := hle
  vanishes := by simp
  face := .inl (face_node _ _ _ _ _)
  changed := hchanged

theorem sheds_descend (hs : s.store.Empty) (hvisited : PlainlyVisits Sheds parts visited)
    (h : Returns (descend tag kind visited) s ts s') : s'.store.Empty ∧ Sheds (.node tag kind parts) s ts s' := by
  obtain ⟨parts', rfl, hs', hto⟩ := returns_descend_plain hs hvisited h
  have hshed := hto.shed
  obtain ⟨hle, hless⟩ := hshed.node tag tag kind
  exact ⟨hs', sheds_node hshed.plain hle fun hchanged => (hshed.changed hchanged).imp_right hless⟩

theorem sheds_absent (s : Session) : Sheds .absent s [.absent] s :=
  ⟨rfl, Nat.le_refl _, by simp, .inl rfl, .inl⟩

/-! ## Folding -/

namespace Fold

/-- A node that folding leaves: no operation on two constants, no condition that is a constant other than a truth
value. -/
def calm : Kind → List Tree → Bool
  | .binOp _, [left, right] => !(left.literal?.isSome && right.literal?.isSome)
  | .compare [_], [left, .seq [right]] => !(left.literal?.isSome && right.literal?.isSome)
  | .ifStmt, test :: _ => !test.face.isUnsettled
  | .whileStmt, test :: _ => !test.face.isUnsettled
  | _, _ => true

def Folded (s : Session) (v : Value) (ts : List Tree) (s' : Session) : Prop :=
  ts = [(s.store.adopt (.constant v)).1] ∧ s' = { s with changed := true, store := (s.store.adopt (.constant v)).2 }

def Failed (node : Tree) (s : Session) (e : Fault) (ts : List Tree) (s' : Session) : Prop :=
  ∃ m, Returns (flagFault e [node]) s () m ∧ ts = [(m.store.adopt (raisingFault e)).1] ∧
    s' = { m with store := (m.store.adopt (raisingFault e)).2 }

theorem returns_replace {node : Tree} {result : Except Fault Value} (h : Returns (replace node result) s ts s') :
    (∃ v, result = .ok v ∧ Folded s v ts s') ∨ ∃ e, result = .error e ∧ Failed node s e ts s' := by
  cases result with
  | ok v =>
    have hpure := returns_adopt_bind.mp (returns_modify_bind.mp h)
    cases hpure
    exact .inl ⟨v, rfl, rfl, rfl⟩
  | error e =>
    obtain ⟨_, m, hflag, hrest⟩ := returns_bind.mp h
    have hpure := returns_adopt_bind.mp hrest
    cases hpure
    exact .inr ⟨e, rfl, m, hflag, rfl, rfl⟩

theorem isUnsettled_of_literal {l : Literal} (h : t.literal? = some l) :
    t.face.isUnsettled = true ↔ ∀ b, l.value ≠ .bool b := by
  obtain ⟨_, _, rfl⟩ := literal?_eq_some.mp h
  simp only [face]
  cases l.value <;> simp [Face.isUnsettled]

theorem isUnsettled_of_none (h : t.literal? = none) : t.face.isUnsettled = false := by
  cases t with
  | node tag kind parts =>
    cases kind with
    | constant l => cases h
    | _ => rfl
  | seq items => cases items <;> rfl
  | _ => rfl

theorem returns_condition_plain {c : Option Tree} (ht : refs test = []) (h : Returns (condition? test) s c s') :
    (c = none ∧ s' = s ∧ test.face.isUnsettled = false) ∨
      ∃ l, test.literal? = some l ∧ test.face.isUnsettled = true ∧
        c = some (s.store.adopt (.constant (.bool l.value.truth))).1 ∧
        s' = { s with changed := true, store := (s.store.adopt (.constant (.bool l.value.truth))).2 } := by
  have hcondition := returns_condition h
  rw [Store.Empty.look ht] at hcondition
  rcases hcondition with ⟨rfl, rfl, hbool⟩ | ⟨l, hl, hbool, rfl, rfl⟩
  · refine .inl ⟨rfl, rfl, ?_⟩
    cases hl : test.literal? with
    | none => exact isUnsettled_of_none hl
    | some l =>
      obtain ⟨b, hb⟩ := hbool l hl
      exact Bool.eq_false_iff.mpr fun hunsettled => (isUnsettled_of_literal hl).mp hunsettled b hb
  · exact .inr ⟨l, hl, (isUnsettled_of_literal hl).mpr hbool, rfl, rfl⟩

/-- A condition that becomes its truth value while the other parts are visited. -/
def Decides (tag : Tag) (kind : Kind) (parts : List Tree) (visited : Work (List Tree)) (s : Session) (ts : List Tree)
    (s' : Session) : Prop :=
  ∃ test rest l parts' m, (kind = .ifStmt ∨ kind = .whileStmt) ∧ parts = test :: rest ∧ test.literal? = some l ∧
    test.face.isUnsettled = true ∧
    Returns visited { s with changed := true, store := (s.store.adopt (.constant (.bool l.value.truth))).2 } parts' m ∧
    ts = [.node tag kind ((s.store.adopt (.constant (.bool l.value.truth))).1 :: parts'.tail)] ∧
    s' = { m with store := m.store.keep (.node tag kind ((s.store.adopt (.constant (.bool l.value.truth))).1 :: parts'.tail)) }

theorem returns_foldCondition (hkind : kind = .ifStmt ∨ kind = .whileStmt)
    (ht : refs test = []) (h : Returns (foldCondition tag kind test visited) s ts s') :
    (test.face.isUnsettled = false ∧ Returns (descend tag kind visited) s ts s') ∨
      Decides tag kind (test :: rest) visited s ts s' := by
  obtain ⟨c, m, hcondition, hrest⟩ := returns_bind.mp h
  rcases returns_condition_plain ht hcondition with ⟨rfl, rfl, hsettled⟩ | ⟨l, hl, hunsettled, rfl, rfl⟩
  · exact .inl ⟨hsettled, hrest⟩
  · obtain ⟨_, _, hparts, rfl, rfl⟩ := returns_descend.mp hrest
    obtain ⟨parts', m, hvisit, hpure⟩ := returns_bind.mp hparts
    obtain ⟨rfl, rfl⟩ := returns_pure.mp hpure
    exact .inr ⟨test, rest, l, parts', m, hkind, rfl, hl, hunsettled, hvisit, rfl, rfl⟩

inductive Operation : Kind → List Tree → Except Fault Value → Prop
  | binary {op : BinaryOp} {left right : Tree} {a b : Literal} (hleft : left.literal? = some a) (hright : right.literal? = some b) :
      Operation (.binOp op) [left, right] (binaryValue op a b)
  | comparison {op : CompareOp} {left right : Tree} {a b : Literal} (hleft : left.literal? = some a)
      (hright : right.literal? = some b) : Operation (.compare [op]) [left, .seq [right]] (compareValue op a b)

theorem step_results (hplain : refsAll parts = []) (h : Returns (step tag kind parts visited) s ts s') :
    (calm kind parts = true ∧ Returns (descend tag kind visited) s ts s') ∨ Decides tag kind parts visited s ts s' ∨
      ∃ result, Operation kind parts result ∧
        ((∃ v, result = .ok v ∧ Folded s v ts s') ∨ ∃ e, result = .error e ∧ Failed (.node tag kind parts) s e ts s') := by
  unfold step at h
  split at h
  next test rest =>
    refine (returns_foldCondition (.inl rfl) (refs_of_mem hplain (by simp)) h).imp (fun h => ?_) .inl
    exact ⟨by simp [calm, h.1], h.2⟩
  next test rest =>
    refine (returns_foldCondition (.inr rfl) (refs_of_mem hplain (by simp)) h).imp (fun h => ?_) .inl
    exact ⟨by simp [calm, h.1], h.2⟩
  next op left right =>
    have hright : refs right = [] := by
      have hseq : refsAll [right] = [] := refs_of_mem hplain (t := .seq [right]) (by simp)
      exact refs_of_mem hseq (by simp)
    have hoperands := returns_operands h
    rw [Store.Empty.look (refs_of_mem hplain (by simp)), Store.Empty.look hright] at hoperands
    rcases hoperands with hleave | ⟨a, b, ha, hb, hfold⟩
    · exact .inl ⟨by simp only [calm, hleave.1, Bool.not_false], hleave.2⟩
    · exact .inr (.inr ⟨_, .comparison ha hb, returns_replace hfold⟩)
  next op left right =>
    have hoperands := returns_operands h
    rw [Store.Empty.look (refs_of_mem hplain (by simp)), Store.Empty.look (refs_of_mem hplain (by simp))] at hoperands
    rcases hoperands with hleave | ⟨a, b, ha, hb, hfold⟩
    · exact .inl ⟨by simp only [calm, hleave.1, Bool.not_false], hleave.2⟩
    · exact .inr (.inr ⟨_, .binary ha hb, returns_replace hfold⟩)
  next hif hwhile hcompare hbin =>
    refine .inl ⟨?_, h⟩
    unfold calm
    split
    · exact absurd rfl (hbin _ _ _ rfl)
    · exact absurd rfl (hcompare _ _ _ rfl)
    · exact absurd rfl (hif _ _ rfl)
    · exact absurd rfl (hwhile _ _ rfl)
    · rfl

theorem refs_adopt_constant (r : Store) (v : Value) : refs (r.adopt (.constant v)).1 = [] := rfl

theorem weight_adopt (r : Store) (t : Tree) : weight (r.adopt t).1 = weight t := weight_number t r.next

theorem fixes_flag_changed (e : Fault) (nodes : List Tree) : Fixes Session.changed (flagFault e nodes) :=
  fixes_flag (fun _ _ _ => rfl) _ _

theorem weight_settled (tag : Tag) {rest' : List Tree} (r : Store) (b : Bool) (hkind : kind = .ifStmt ∨ kind = .whileStmt)
    (hunsettled : test.face.isUnsettled = true) (hrest : PartsShed rest m rest' s') :
    weight (.node tag kind ((r.adopt (.constant (.bool b))).1 :: rest')) < weight (.node tag kind (test :: rest)) := by
  have hzero : weight (r.adopt (.constant (.bool b))).1 = 0 := weight_adopt _ _
  have hface : (r.adopt (.constant (.bool b))).1.face = .literal (.bool b) := rfl
  have hbool : (Face.literal (.bool b)).isUnsettled = false := rfl
  have hle := hrest.le
  have hlength := hrest.length
  have hsole : sole (Face.literal (.bool b) :: rest'.map face) ≤ sole (test.face :: rest.map face) := by
    cases rest with
    | nil =>
      obtain rfl := List.length_eq_zero_iff.mp hlength
      have hpresent : test.face.isPresent = true := by
        cases hf : test.face <;> simp_all [Face.isUnsettled, Face.isPresent]
      simp only [List.map_nil, sole, hpresent]
      exact Nat.le_refl _
    | cons _ _ =>
      cases rest' with
      | nil => cases hlength
      | cons _ _ => exact Nat.zero_le _
  simp only [weight, weightAll, List.map_cons, hzero, hface, load]
  rcases hkind with rfl | rfl
  · simp only [pending, hunsettled, hbool, Bool.toNat_true, Bool.toNat_false]
    omega
  · simp only [pending, hunsettled, hbool, Bool.toNat_true, Bool.toNat_false]
    omega

theorem sheds_decides (hs : s.store.Empty) (hvisited : PlainlyVisits Sheds parts visited)
    (h : Decides tag kind parts visited s ts s') : s'.store.Empty ∧ Sheds (.node tag kind parts) s ts s' := by
  obtain ⟨test, rest, l, parts', m, hkind, rfl, -, hunsettled, hvisit, rfl, rfl⟩ := h
  obtain ⟨hm, hto⟩ := hvisited (by exact hs.adopt (.constant (.bool l.value.truth))) hvisit
  rw [hm.keep]
  cases hto with
  | @cons _ _ results rest' _ m' _ head tail =>
    have htail := tail.shed
    have hlight := weight_settled tag s.store l.value.truth hkind hunsettled htail
    refine ⟨hm, sheds_node ?_ (Nat.le_of_lt hlight) fun _ => .inr hlight⟩
    rw [List.tail_cons, refsAll, refs_adopt_constant, htail.plain, List.nil_append]

theorem sheds_folded {v : Value} (hs : s.store.Empty) (hthree : 3 ≤ weight t) (h : Folded s v ts s') :
    s'.store.Empty ∧ Sheds t s ts s' := by
  obtain ⟨rfl, rfl⟩ := h
  have hzero : weightAll [(s.store.adopt (.constant v)).1] = 0 := by
    rfl
  refine ⟨hs.adopt (.constant v), ?_, by omega, by simp, .inr (by omega), fun _ => .inr (by omega)⟩
  simp [refsAll, refs_adopt_constant]

theorem sheds_failed {node : Tree} {e : Fault} (hs : s.store.Empty) (hthree : 3 ≤ weight t) (hface : t.face = .other)
    (h : Failed node s e ts s') : s'.store.Empty ∧ Sheds t s ts s' := by
  obtain ⟨m, hflag, rfl, rfl⟩ := h
  have hstore : m.store = s.store := fixes_flag (fun _ _ _ => rfl) _ _ _ _ _ hflag
  have hchanged : m.changed = s.changed := fixes_flag_changed e _ _ _ _ hflag
  have htwo : weightAll [(m.store.adopt (raisingFault e)).1] = 2 := by
    rw [weightAll, weight_adopt, raisingFault, weight_raising]
    rfl
  have hrefs : refs (m.store.adopt (raisingFault e)).1 = [] := by
    rw [Store.adopt_eq, number_refs]
    exact refs_raising e
  refine ⟨?_, by simp [refsAll, hrefs], by omega, by simp, .inl ?_, fun h => .inl (hchanged ▸ h)⟩
  · rw [← hstore] at hs
    exact hs.adopt (raisingFault e)
  · rw [single, Store.adopt_eq, face_number, hface]
    rfl

theorem plainSound : PlainSound Sheds step where
  node := by
    intro s s' tag kind parts visited ts hs hplain hvisited h
    rcases step_results hplain h with ⟨_, hleave⟩ | hdecides | ⟨result, hoperation, hreplace⟩
    · exact sheds_descend hs hvisited hleave
    · exact sheds_decides hs hvisited hdecides
    · have hbase : base kind = 3 := by cases hoperation <;> rfl
      have hface : Tree.face (.node tag kind parts) = .other := by cases hoperation <;> rfl
      have hthree : 3 ≤ weight (.node tag kind parts) := by
        have hle := base_le_weight tag kind parts
        omega
      rcases hreplace with ⟨v, -, hfolded⟩ | ⟨e, -, hfailed⟩
      · exact sheds_folded hs hthree hfolded
      · exact sheds_failed hs hthree hface hfailed
  seq := fun _ => ItemsTo.shed
  absent := sheds_absent

end Fold

/-! ## Branches -/

namespace DeadBranch

/-- A node that is left: no condition is a constant, except that of a loop that may run. -/
def calm : Kind → List Tree → Bool
  | .ifStmt, [test, _, _] => test.literal?.isNone
  | .whileStmt, test :: _ => test.literal?.all (·.value.truth)
  | .ifExp, [test, _, _] => test.literal?.isNone
  | _, _ => true

theorem calm_iff (r : Store) (hplain : refsAll parts = []) : calm kind parts = true ↔ ∀ ts, ¬ Takes r kind parts ts := by
  have hliteral {test : Tree} (h : test ∈ parts) : (r.look test).literal? = test.literal? := by
    rw [Store.Empty.look (refs_of_mem hplain h)]
  constructor
  · intro hcalm ts htakes
    cases htakes with
    | branch hl | choice hl =>
      rw [hliteral (by simp)] at hl
      simp [calm, hl] at hcalm
    | nothing hl hfalse =>
      rw [hliteral (by simp)] at hl
      simp [calm, hl, hfalse] at hcalm
  · intro hnone
    unfold calm
    split
    · exact Option.isNone_iff_eq_none.mpr (Option.eq_none_iff_forall_ne_some.mpr fun l hl =>
        hnone _ (.branch ((hliteral (by simp)).trans hl)))
    · rw [Option.all_eq_true]
      intro l hl
      by_contra hfalse
      exact hnone _ (.nothing ((hliteral (by simp)).trans hl) (by simpa using hfalse))
    · exact Option.isNone_iff_eq_none.mpr (Option.eq_none_iff_forall_ne_some.mpr fun l hl =>
        hnone _ (.choice ((hliteral (by simp)).trans hl)))
    · rfl

theorem choose_results (hplain : refsAll parts = []) (h : Returns (choose tag kind parts) s ts s') :
    (calm kind parts = true ∧ ts = [.node tag kind parts] ∧ s' = s) ∨
      (Takes s.store kind parts ts ∧ s' = { s with changed := true }) :=
  (returns_choose h).imp_left (.imp_left (calm_iff s.store hplain).mpr)

theorem returns_step_plain {R : Outcome} (hs : s.store.Empty) (hvisited : PlainlyVisits R parts visited)
    (h : Returns (step tag kind parts visited) s ts s') :
    ∃ parts' m, m.store.Empty ∧ PartsTo R parts s parts' m ∧ Returns (choose tag kind parts') m ts s' := by
  obtain ⟨parts', m, hvisit, h⟩ := returns_bind.mp h
  obtain ⟨hm, hto⟩ := hvisited hs hvisit
  replace h := returns_keep_bind.mp h
  rw [hm.keep] at h
  exact ⟨parts', m, hm, hto, h⟩

theorem weight_le_weightAll {p : Tree} (h : p ∈ parts) : weight p ≤ weightAll parts := by
  induction h with
  | head => exact Nat.le_add_right _ _
  | tail _ _ ih => exact Nat.le_trans ih (Nat.le_add_left _ _)

theorem Takes.light {r : Store} (h : Takes r kind parts ts) (hplain : refsAll parts = []) :
    refsAll ts = [] ∧ weightAll ts ≤ weightAll parts := by
  obtain rfl | ⟨p, hp, rfl | rfl⟩ := h.part
  · exact ⟨rfl, Nat.zero_le _⟩
  · exact ⟨refs_items (refs_of_mem hplain hp), Nat.le_trans (weightAll_items_le p) (weight_le_weightAll hp)⟩
  · exact ⟨by simp [refsAll, refs_of_mem hplain hp], weight_le_weightAll hp⟩

theorem plainSound : PlainSound Sheds step where
  node := by
    intro s s' tag kind parts visited ts hs _ hvisited h
    obtain ⟨parts', m, hm, hto, hchoose⟩ := returns_step_plain hs hvisited h
    have hshed := hto.shed
    rcases choose_results hshed.plain hchoose with ⟨_, rfl, rfl⟩ | ⟨htakes, rfl⟩
    · obtain ⟨hle, hless⟩ := hshed.node tag tag kind
      exact ⟨hm, sheds_node hshed.plain hle fun hchanged => (hshed.changed hchanged).imp_right hless⟩
    · obtain ⟨hplain, hlight⟩ := htakes.light hshed.plain
      have hbase := base_le_weight tag kind parts
      have hthree : base kind = 3 := by cases htakes <;> rfl
      have hle := hshed.le
      exact ⟨hm, hplain, by omega, fun _ => by omega, .inr (by omega), fun _ => .inr (by omega)⟩
  seq := fun _ => ItemsTo.shed
  absent := sheds_absent

end DeadBranch

/-! ## Documentation -/

namespace Documentation

structure Lightens (calm : Bool) (ts us : List Tree) : Prop where
  faces : us.map face = ts.map face
  plain : refsAll us = []
  le : weightAll us + (!calm).toNat ≤ weightAll ts

variable {c d : Bool}

theorem lightens_self (h : refs t = []) : Lightens true [t] [t] := ⟨rfl, by simp [refsAll, h], Nat.le_refl _⟩

theorem toNat_not_and (c d : Bool) : (!(c && d)).toNat ≤ (!c).toNat + (!d).toNat := by
  cases c <;> cases d <;> decide

theorem Lightens.append (h : Lightens c ts us) (h' : Lightens d ts' us') : Lightens (c && d) (ts ++ ts') (us ++ us') := by
  have hle := h.le
  have hle' := h'.le
  have hand := toNat_not_and c d
  refine ⟨by simp [h.faces, h'.faces], by simp [refsAll_append, h.plain, h'.plain], ?_⟩
  simp only [weightAll_append]
  omega

theorem Lightens.seq (h : Lightens c ts us) : Lightens c [.seq ts] [.seq us] := by
  refine ⟨?_, by simpa [refsAll, refs] using h.plain, h.le⟩
  have hlength := congrArg List.length h.faces
  simp only [List.length_map] at hlength
  cases ts with
  | nil => rw [List.length_eq_zero_iff.mp hlength]
  | cons t ts =>
    cases us with
    | nil => cases hlength
    | cons u us => rfl

theorem Lightens.node (h : Lightens c ts us) (tag : Tag) (kind : Kind) :
    Lightens c [.node tag kind ts] [.node tag kind us] := by
  have hle := h.le
  refine ⟨by simp [face_node tag tag kind ts us], by simpa [refsAll, refs] using h.plain, ?_⟩
  simp only [weightAll, weight, h.faces]
  omega

theorem untyped_lightens (ht : refs t = []) : Lightens (typeless t) [t] [untyped t] := by
  cases h : typeless t with
  | true =>
    rw [untyped_typeless h]
    exact lightens_self ht
  | false =>
    unfold typeless at h
    split at h
    next tag kind type =>
      have hone : type.face.isPresent = true := by simp [isPresent_face, h]
      have hpending : pending kind [.absent] ≤ pending kind [type.face] := by
        cases kind <;> simp [pending, Face.isUnsettled, Face.isEmpty]
      refine ⟨by simp [untyped, face_node tag tag kind [type] [.absent]], rfl, ?_⟩
      have hnone : Tree.face .absent = .absent := rfl
      have hzero : Face.absent.isPresent = false := rfl
      simp only [untyped, weightAll, weight, load, List.map_cons, List.map_nil, sole, hone, hnone, hzero, Bool.not_false,
        Bool.toNat_true, Bool.toNat_false]
      omega
    · cases h

theorem map_lightens (hts : refsAll ts = []) : Lightens (ts.all typeless) ts (ts.map untyped) := by
  induction ts with
  | nil => exact ⟨rfl, rfl, Nat.le_refl _⟩
  | cons t ts ih =>
    simp only [refsAll, List.append_eq_nil_iff] at hts
    exact (untyped_lightens hts.1).append (ih hts.2)

theorem untypedParameters_lightens (haccepted : accepted t = true) (ht : refs t = []) :
    Lightens (calmParameters t) [t] [untypedParameters t] := by
  obtain ⟨tag, kind, positional, plain, variadic, keywordOnly, keywordDefaults, keywordVariadic, defaults, rfl⟩ |
    ⟨-, hcalm, huntyped, -⟩ := parameters_cases t
  · simp only [refs, refsAll, List.append_eq_nil_iff] at ht
    obtain ⟨hpositional, hplain, hvariadic, hkeywordOnly, hkeywordDefaults, hkeywordVariadic, hdefaults, -⟩ := ht
    have hall := (lightens_self hpositional).append ((map_lightens hplain).seq.append ((untyped_lightens hvariadic).append
      ((map_lightens hkeywordOnly).seq.append ((lightens_self hkeywordDefaults).append ((lightens_self hkeywordVariadic).append
        (lightens_self hdefaults))))))
    simp only [accepted] at haccepted
    have hcalm : calmParameters (.node tag kind
        [positional, .seq plain, variadic, .seq keywordOnly, keywordDefaults, keywordVariadic, defaults]) =
        (true && (plain.all typeless && (typeless variadic && (keywordOnly.all typeless && (true && (true && true)))))) := by
      rw [calmParameters, haccepted]
      simp only [Bool.and_true, Bool.true_and, Bool.and_assoc, Bool.and_comm (typeless variadic)]
    rw [hcalm]
    exact hall.node tag kind
  · rw [hcalm, huntyped]
    exact lightens_self ht

theorem weight_isMereText (h : isMereText t = true) : 0 < weight t := by
  unfold isMereText at h
  split at h
  next v =>
    have hpresent : v.face.isPresent = true := by
      cases v with
      | absent => cases h
      | _ => rw [isPresent_face]; rfl
    simp only [weight, load, List.map_cons, List.map_nil, sole, hpresent, Bool.toNat_true]
    omega
  · cases h

theorem weightAll_filter_le (body : List Tree) :
    weightAll (body.filter (!isMereText ·)) + (body.any isMereText).toNat ≤ weightAll body := by
  induction body with
  | nil => exact Nat.le_refl _
  | cons t ts ih =>
    cases ht : isMereText t with
    | true =>
      have hpos := weight_isMereText ht
      simp only [List.filter_cons, List.any_cons, ht, Bool.not_true, Bool.false_eq_true, if_false, weightAll, Bool.true_or,
        Bool.toNat_true]
      omega
    | false =>
      simp only [List.filter_cons, List.any_cons, ht, Bool.not_false, if_true, weightAll, Bool.false_or]
      omega

def bodyWeight (body : List Tree) : Nat := weightAll body + body.isEmpty.toNat

theorem isEmpty_face (body : List Tree) : (Tree.face (.seq body)).isEmpty = body.isEmpty := by cases body <;> rfl

theorem refilled_light (r : Store) (hplain : refsAll body = []) :
    refsAll (refilled r body).1 = [] ∧ bodyWeight (refilled r body).1 + (!calmBody body).toNat ≤ bodyWeight body := by
  have hsub : refsAll (body.filter (!isMereText ·)) = [] := refsAll_of_sublist List.filter_sublist hplain
  have hle : weightAll (body.filter (!isMereText ·)) + (!calmBody body).toNat ≤ bodyWeight body := by
    have hfilter := weightAll_filter_le body
    have hand := toNat_not_and (!body.isEmpty) (!body.any isMereText)
    simp only [Bool.not_not] at hand
    unfold calmBody bodyWeight
    omega
  unfold refilled
  cases h : body.filter (!isMereText ·) with
  | nil =>
    rw [h] at hle
    exact ⟨rfl, hle⟩
  | cons t ts =>
    rw [h] at hsub hle
    exact ⟨hsub, hle⟩

theorem stripped_light (r : Store) (tag : Tag) (hplain : refsAll parts = []) (haccepted : acceptedParts kind parts = true) :
    refsAll (stripped r kind parts).1 = [] ∧
      weight (.node tag kind (stripped r kind parts).1) + (!calm kind parts).toNat ≤ weight (.node tag kind parts) := by
  unfold stripped
  split
  next name parameters body decorators result =>
    simp only [refsAll, refs, List.append_eq_nil_iff] at hplain
    obtain ⟨-, hrefs, hle⟩ := untypedParameters_lightens haccepted hplain.1
    obtain ⟨hrefs', hle'⟩ := refilled_light r hplain.2.1
    refine ⟨by simpa [refsAll, refs, hplain.2.2.1, hrefs'] using hrefs, ?_⟩
    have hweight (parameters result : Tree) (body : List Tree) :
        weight (.node tag (.functionDef name) [parameters, .seq body, decorators, result]) =
          weight parameters + (weight result + (!result.isAbsent).toNat) + bodyWeight body + weight decorators := by
      simp only [weight, weightAll, load, List.map_cons, List.map_nil, base, pending, sole, isEmpty_face, isPresent_face,
        bodyWeight]
      omega
    have hand := toNat_not_and (calmParameters parameters && result.isAbsent) (calmBody body)
    have hand' := toNat_not_and (calmParameters parameters) result.isAbsent
    have hzero : weight .absent + (!isAbsent .absent).toNat = 0 := rfl
    rw [hweight, hweight, hzero, calm]
    simp only [weightAll] at hle
    omega
  next name bases keywords body decorators =>
    simp only [refsAll, refs, List.append_eq_nil_iff] at hplain
    obtain ⟨hrefs, hle⟩ := refilled_light r hplain.2.2.1
    refine ⟨by simp [refsAll, refs, hplain, hrefs], ?_⟩
    simp only [weight, weightAll, load, List.map_cons, List.map_nil, base, pending, sole, isEmpty_face, bodyWeight, calm] at hle ⊢
    omega
  next body =>
    obtain ⟨hrefs, hle⟩ := refilled_light r (by simpa [refsAll, refs] using hplain)
    refine ⟨by simp [refsAll, refs, hrefs], ?_⟩
    simp only [weight, weightAll, load, List.map_cons, List.map_nil, base, pending, sole, isEmpty_face, isPresent_face, isAbsent,
      bodyWeight, calm] at hle ⊢
    omega
  next hfunction hclass hmodule =>
    rw [calm_of_other hfunction hclass hmodule]
    exact ⟨hplain, Nat.le_refl _⟩

theorem step_cases {R : Outcome} (hs : s.store.Empty) (hvisited : PlainlyVisits R parts visited)
    (hplain : ∀ {parts' m}, PartsTo R parts s parts' m → refsAll parts' = []) (h : Returns (step tag kind parts visited) s ts s') :
    ∃ parts' m parts'', PartsTo R parts s parts' m ∧ ts = [.node tag kind parts''] ∧ refsAll parts'' = [] ∧ s'.store.Empty ∧
      (calm kind parts' = true ∧ parts'' = parts' ∧ s' = m ∨
        s'.changed = true ∧ weight (.node tag kind parts'') < weight (.node tag kind parts')) := by
  obtain ⟨parts', m, hm, hto, haccepted, rfl, rfl⟩ := returns_step_plain hs hvisited hplain h
  obtain ⟨hplain', hle⟩ := stripped_light m.store tag (hplain hto) haccepted
  refine ⟨parts', m, _, hto, rfl, hplain', empty_stripped hm kind parts', ?_⟩
  cases hcalm : calm kind parts' with
  | true =>
    rw [stripped_calm m.store hcalm, Bool.not_true, told_false]
    exact .inl ⟨rfl, rfl, rfl⟩
  | false =>
    rw [hcalm] at hle
    exact .inr ⟨Bool.or_true _, hle⟩

theorem plainSound : PlainSound Sheds step where
  node := by
    intro s s' tag kind parts visited ts hs _ hvisited h
    obtain ⟨parts', m, parts'', hto, rfl, hplain, hs', hlowers⟩ := step_cases hs hvisited (fun hto => hto.shed.plain) h
    have hshed := hto.shed
    obtain ⟨hle, hless⟩ := hshed.node tag tag kind
    refine ⟨hs', ?_⟩
    rcases hlowers with ⟨-, rfl, rfl⟩ | ⟨-, hlower⟩
    · exact sheds_node hplain hle fun hchanged => (hshed.changed hchanged).imp_right hless
    · have hlt := Nat.lt_of_lt_of_le hlower hle
      exact sheds_node hplain (Nat.le_of_lt hlt) fun _ => .inr hlt
  seq := fun _ => ItemsTo.shed
  absent := sheds_absent

end Documentation

/-! ## Identities and lines are not looked at -/

theorem Fold.calm_bare (kind : Kind) (parts : List Tree) : Fold.calm kind.bare (bareAll parts) = Fold.calm kind parts := by
  cases kind with
  | binOp op =>
    rcases parts with _ | ⟨a, _ | ⟨b, _ | ⟨c, d⟩⟩⟩
    case cons.cons.nil => simp only [bareAll, Kind.bare, calm, isSome_literal_bare]
    all_goals rfl
  | compare ops =>
    rcases ops with _ | ⟨op, _ | _⟩
    case cons.nil =>
      rcases parts with _ | ⟨a, _ | ⟨b, rest⟩⟩
      · rfl
      · rfl
      cases b with
      | seq items =>
        rcases items with _ | ⟨x, _ | ⟨y, z⟩⟩ <;> rcases rest with _ | ⟨c, d⟩
        case cons.nil.nil => simp only [bareAll, bare, Kind.bare, calm, isSome_literal_bare]
        all_goals rfl
      | _ => rfl
    all_goals rfl
  | ifStmt | whileStmt => cases parts <;> simp only [bareAll, Kind.bare, calm, face_bare]
  | _ => rfl

theorem DeadBranch.calm_bare (kind : Kind) (parts : List Tree) :
    DeadBranch.calm kind.bare (bareAll parts) = DeadBranch.calm kind parts := by
  have hall (t : Tree) : (bare t).literal?.all (·.value.truth) = t.literal?.all (·.value.truth) := by
    rw [literal?_bare, Option.all_map]
  cases kind with
  | ifStmt | ifExp =>
    rcases parts with _ | ⟨a, _ | ⟨b, _ | ⟨c, _ | ⟨d, e⟩⟩⟩⟩
    case cons.cons.cons.nil => simp only [bareAll, Kind.bare, calm, literal?_bare, Option.isNone_map]
    all_goals rfl
  | whileStmt => cases parts <;> simp only [bareAll, Kind.bare, calm, hall]
  | _ => rfl

namespace Documentation

theorem typeless_bare (t : Tree) : typeless (bare t) = typeless t := by
  cases t with
  | node tag kind parts =>
    rcases parts with _ | ⟨_, _ | ⟨_, _⟩⟩
    · rfl
    · simp only [bare, bareAll, typeless, isAbsent_bare]
    · rfl
  | _ => rfl

theorem isMereText_bare (t : Tree) : isMereText (bare t) = isMereText t := by
  cases t with
  | node tag kind parts =>
    cases kind with
    | exprStmt =>
      rcases parts with _ | ⟨v, _ | ⟨_, _⟩⟩
      · rfl
      · simp only [bare, bareAll, Kind.bare, isMereText, literal?_bare]
        cases v.literal? with
        | none => rfl
        | some l =>
          obtain ⟨value, origin, marked⟩ := l
          cases value <;> rfl
      · rfl
    | _ => rfl
  | _ => rfl

theorem calmBody_bare (body : List Tree) : calmBody (bareAll body) = calmBody body := by
  have hany : (isMereText ∘ bare) = isMereText := funext isMereText_bare
  rw [bareAll_eq_map, calmBody, calmBody, List.isEmpty_map, List.any_map, hany]

theorem calmParameters_bare (t : Tree) : calmParameters (bare t) = calmParameters t := by
  have hall : (typeless ∘ bare) = typeless := funext typeless_bare
  cases t with
  | node tag kind parts =>
    rcases parts with _ | ⟨p, _ | ⟨plain, _ | ⟨variadic, _ | ⟨keywordOnly, _ | ⟨q, _ | ⟨keywordVariadic, _ | ⟨r, _ | ⟨_, _⟩⟩⟩⟩⟩⟩⟩⟩
    case cons.cons.cons.cons.cons.cons.cons.nil =>
      cases plain with
      | seq plain =>
        cases keywordOnly with
        | seq keywordOnly =>
          simp only [bare, bareAll, calmParameters, bareAll_eq_map, List.all_map, hall, typeless_bare, isAbsent_bare]
        | _ => rfl
      | _ => rfl
    all_goals first | rfl | (cases plain <;> first | rfl | (cases keywordOnly <;> rfl))
  | _ => rfl

theorem calm_bare (kind : Kind) (parts : List Tree) : calm kind.bare (bareAll parts) = calm kind parts := by
  cases kind with
  | functionDef name =>
    rcases parts with _ | ⟨parameters, _ | ⟨body, _ | ⟨decorators, _ | ⟨result, _ | ⟨_, _⟩⟩⟩⟩⟩
    case cons.cons.cons.cons.nil =>
      cases body with
      | seq body => simp only [bare, bareAll, Kind.bare, calm, calmParameters_bare, calmBody_bare, isAbsent_bare]
      | _ => rfl
    all_goals first | rfl | (cases body <;> rfl)
  | classDef name =>
    rcases parts with _ | ⟨bases, _ | ⟨keywords, _ | ⟨body, _ | ⟨decorators, _ | ⟨_, _⟩⟩⟩⟩⟩
    case cons.cons.cons.cons.nil =>
      cases body with
      | seq body => simp only [bare, bareAll, Kind.bare, calm, calmBody_bare]
      | _ => rfl
    all_goals first | rfl | (cases body <;> rfl)
  | moduleDef =>
    rcases parts with _ | ⟨body, _ | ⟨_, _⟩⟩
    case cons.nil =>
      cases body with
      | seq body => simp only [bare, bareAll, Kind.bare, calm, calmBody_bare]
      | _ => rfl
    all_goals first | rfl | (cases body <;> rfl)
  | _ => rfl

end Documentation

end Pass
end SourceOptimizer
