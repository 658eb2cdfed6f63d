import SourceOptimizer.Proofs.Evolution
import SourceOptimizer.Proofs.NewNames
import SourceOptimizer.Proofs.Returns

/-! The renaming pass on trees without references. Such a tree is gone through without any use of the store, so the pass
is a function of the naming and the tree, and it changes nothing but the names of name nodes. -/
namespace SourceOptimizer

namespace Tree

mutual

/-- A tree with the names in its name nodes replaced. -/
def mapNames (f : String → String) : Tree → Tree
  | .node tag (.name id ctx) parts => .node tag (.name (f id) ctx) parts
  | .node tag kind parts => .node tag kind (mapNamesAll f parts)
  | .seq items => .seq (mapNamesAll f items)
  | .absent => .absent
  | .shared slot => .shared slot

def mapNamesAll (f : String → String) : List Tree → List Tree
  | [] => []
  | t :: ts => mapNames f t :: mapNamesAll f ts

end

mutual

/-- A tree without the names in its name nodes. -/
def shape : Tree → Tree
  | .node tag kind parts => .node tag (unnamed kind) (shapes parts)
  | .seq items => .seq (shapes items)
  | .absent => .absent
  | .shared slot => .shared slot
where
  unnamed : Kind → Kind
    | .name _ ctx => .name "" ctx
    | kind => kind

def shapes : List Tree → List Tree
  | [] => []
  | t :: ts => shape t :: shapes ts

end

mutual

def height : Tree → Nat
  | .node _ _ parts => heightAll parts + 1
  | .seq items => heightAll items + 1
  | .absent => 1
  | .shared _ => 1

def heightAll : List Tree → Nat
  | [] => 0
  | t :: ts => max (height t) (heightAll ts)

end

mutual

@[simp] theorem ids_shape : (t : Tree) → ids (shape t) = ids t
  | .node _ _ parts => by simp only [shape, ids, idsAll_shapes parts]
  | .seq items => by simp only [shape, ids, idsAll_shapes items]
  | .absent => rfl
  | .shared _ => rfl

@[simp] theorem idsAll_shapes : (ts : List Tree) → idsAll (shapes ts) = idsAll ts
  | [] => rfl
  | t :: ts => by simp only [shapes, idsAll, ids_shape t, idsAll_shapes ts]

end

mutual

@[simp] theorem refs_shape : (t : Tree) → refs (shape t) = refs t
  | .node _ _ parts => by simp only [shape, refs, refsAll_shapes parts]
  | .seq items => by simp only [shape, refs, refsAll_shapes items]
  | .absent => rfl
  | .shared _ => rfl

@[simp] theorem refsAll_shapes : (ts : List Tree) → refsAll (shapes ts) = refsAll ts
  | [] => rfl
  | t :: ts => by simp only [shapes, refsAll, refs_shape t, refsAll_shapes ts]

end

mutual

@[simp] theorem height_shape : (t : Tree) → height (shape t) = height t
  | .node _ _ parts => by simp only [shape, height, heightAll_shapes parts]
  | .seq items => by simp only [shape, height, heightAll_shapes items]
  | .absent => rfl
  | .shared _ => rfl

@[simp] theorem heightAll_shapes : (ts : List Tree) → heightAll (shapes ts) = heightAll ts
  | [] => rfl
  | t :: ts => by simp only [shapes, heightAll, height_shape t, heightAll_shapes ts]

end

end Tree

namespace Pass.Rename
open Store Tree Work

/-! ## The pass as a function -/

def walkAll (walk : Naming → Tree → Tree × Naming) : Naming → List Tree → List Tree × Naming
  | n, [] => ([], n)
  | n, t :: ts =>
    let (t, n) := walk n t
    let (ts, n) := walkAll walk n ts
    (t :: ts, n)

def walkInside (walk : Naming → Tree → Tree × Naming) (n : Naming) : Tree → Tree × Naming
  | .node tag kind parts =>
    let (parts, n) := walkAll walk n parts
    (.node tag kind parts, n)
  | t => (t, n)

def walkSearch (walk : Naming → Tree → Tree × Naming) (n : Naming) (t : Tree) : Tree × Naming :=
  match declared? {} t with
  | some names => (t, { n with bypassed := n.bypassed ++ names })
  | none => if isFunction {} t then (t, n) else walkInside walk n t

def enter (n : Naming) (parameters : Tree) : Naming :=
  { (plainParameters {} parameters).foldl (fun n a => n.map a a) n with phase := .search }

def leave (outer n : Naming) : Naming :=
  { n with bypassed := outer.bypassed, mapping := outer.mapping, phase := outer.phase }

def walkFunction (walk : Naming → Tree → Tree × Naming) (n : Naming) (tag : Tag) (kind : Kind) (parts : List Tree) :
    Tree × Naming :=
  match parts with
  | [parameters, .seq body, decorators, result] =>
    let (body, m) := walkAll (walkSearch walk) (enter n parameters) body
    let (body, m) := walkAll (walkInside walk) { m with phase := .replace } body
    walkInside walk (leave n m) (.node tag kind [parameters, .seq body, decorators, result])
  | _ => (.node tag kind parts, n)

def walkName (n : Naming) (id : String) (ctx : Context) : String × Naming :=
  match n.phase with
  | .idle => (id, n)
  | .search => (id, if ctx == .store then n.noteStore id else n)
  | .replace => (n.replace id, n)

def walk : Nat → Naming → Tree → Tree × Naming
  | 0, n, t => (t, n)
  | _ + 1, n, .absent => (.absent, n)
  | _ + 1, n, .shared slot => (.shared slot, n)
  | depth + 1, n, .seq items =>
    let (items, n) := walkAll (walk depth) n items
    (.seq items, n)
  | depth + 1, n, .node tag kind parts =>
    match kind with
    | .name id ctx =>
      let (id, n) := walkName n id ctx
      (.node tag (.name id ctx) parts, n)
    | .functionDef _ => walkFunction (walk depth) n tag kind parts
    | .listComp | .setComp | .dictComp =>
      let (t, n) := walkInside (walk depth) { n with ignoring := true } (.node tag kind parts)
      (t, { n with ignoring := false })
    | .lambda => (.node tag kind parts, n)
    | _ => walkInside (walk depth) n (.node tag kind parts)

/-! ## Only names change -/

def KeepsShape (walk : Naming → Tree → Tree × Naming) : Prop := ∀ n t, (walk n t).1.shape = t.shape

section
variable {walk : Naming → Tree → Tree × Naming}

theorem KeepsShape.all (h : KeepsShape walk) (n : Naming) (ts : List Tree) :
    shapes (walkAll walk n ts).1 = shapes ts := by
  induction ts generalizing n with
  | nil => rfl
  | cons t ts ih => simp only [walkAll, shapes, h n t, ih]

theorem KeepsShape.inside (h : KeepsShape walk) : KeepsShape (walkInside walk) := by
  intro n t
  cases t with
  | node tag kind parts => simp only [walkInside, shape, h.all n parts]
  | _ => rfl

theorem KeepsShape.search (h : KeepsShape walk) : KeepsShape (walkSearch walk) := by
  intro n t
  unfold walkSearch
  split
  · rfl
  · split
    · rfl
    · exact h.inside n t

theorem KeepsShape.function (h : KeepsShape walk) (n : Naming) (tag : Tag) (kind : Kind) (parts : List Tree) :
    (walkFunction walk n tag kind parts).1.shape = shape (.node tag kind parts) := by
  unfold walkFunction
  split
  next parameters body decorators result =>
    rw [h.inside]
    simp only [shape, shapes, h.inside.all, h.search.all]
  next => rfl

end

theorem keepsShape_walk (depth : Nat) : KeepsShape (walk depth) := by
  induction depth with
  | zero => exact fun _ _ => rfl
  | succ depth ih =>
    intro n t
    cases t with
    | node tag kind parts =>
      unfold walk
      split
      next => simp only [shape, shape.unnamed]
      next => exact ih.function n tag _ parts
      next => exact ih.inside _ _
      next => exact ih.inside _ _
      next => exact ih.inside _ _
      next => rfl
      next => exact ih.inside n _
    | seq items => simp only [walk, shape, ih.all n items]
    | absent => rfl
    | shared slot => rfl

/-! ## The pass computes the function -/

variable {α β : Type} {s : Session} {n m k : Naming} {a : α} {b : β} {t u : Tree}

def Makes (s : Session) (x : Renaming α) (n : Naming) (a : α) (m : Naming) : Prop := Returns (x.run n) s (a, m) s

theorem Makes.pure (a : α) (n : Naming) : Makes s (pure a) n a n := rfl

theorem Makes.bind {x : Renaming α} {f : α → Renaming β} (hx : Makes s x n a m) (hf : Makes s (f a) m b k) :
    Makes s (x >>= f) n b k := returns_bind.mpr ⟨(a, m), s, hx, hf⟩

theorem makes_get (n : Naming) : Makes s get n n n := rfl

theorem makes_set (n m : Naming) : Makes s (set m) n ⟨⟩ m := rfl

theorem makes_modify (f : Naming → Naming) (n : Naming) : Makes s (modify f) n ⟨⟩ (f n) := rfl

theorem makes_lift {x : Work α} (h : Returns x s a s) (n : Naming) : Makes s (liftM x : Renaming α) n a n :=
  returns_bind.mpr ⟨a, s, h, rfl⟩

theorem makes_session (n : Naming) : Makes s (getThe Session : Renaming Session) n s n :=
  makes_lift (x := get) rfl n

/-- A tree without references, none of whose nodes is a shared one. -/
structure Plain (s : Store) (t : Tree) : Prop where
  refs_eq : refs t = []
  outside : ∀ id ∈ ids t, s.view id = none

theorem Plain.of_shape {s : Store} (h : Plain s t) (hshape : u.shape = t.shape) : Plain s u := by
  constructor
  · rw [← refs_shape, hshape, refs_shape, h.refs_eq]
  · rw [← ids_shape, hshape, ids_shape]
    exact h.outside

theorem plain_of_mem {s : Store} {ts : List Tree} (hrefs : refsAll ts = []) (hout : ∀ id ∈ idsAll ts, s.view id = none) :
    ∀ t ∈ ts, Plain s t := by
  induction ts with
  | nil => simp
  | cons u ts ih =>
    simp only [refsAll, List.append_eq_nil_iff] at hrefs
    simp only [idsAll, List.mem_append] at hout
    intro t ht
    rcases List.mem_cons.mp ht with rfl | ht
    · exact ⟨hrefs.1, fun id hid => hout id (.inl hid)⟩
    · exact ih hrefs.2 (fun id hid => hout id (.inr hid)) t ht

theorem Plain.parts {s : Store} {tag : Tag} {kind : Kind} {parts : List Tree} (h : Plain s (.node tag kind parts)) :
    ∀ p ∈ parts, Plain s p :=
  plain_of_mem h.refs_eq fun id hid => h.outside id (List.mem_cons_of_mem _ hid)

theorem Plain.items {s : Store} {items : List Tree} (h : Plain s (.seq items)) : ∀ t ∈ items, Plain s t :=
  plain_of_mem h.refs_eq h.outside

theorem Plain.look {s : Store} (h : Plain s t) (other : Store) : other.look t = t := by
  have hrefs := h.refs_eq
  cases t with
  | shared slot => simp [refs] at hrefs
  | _ => rfl

theorem Plain.keep {tag : Tag} {kind : Kind} {parts : List Tree} (h : Plain s.store (.node tag kind parts)) (n : Naming) :
    Makes s (liftM (Work.keep (.node tag kind parts)) : Renaming Unit) n () n := by
  refine makes_lift (returns_keep.mpr ?_) n
  rw [keep_of_unstored (h.outside tag.id (by simp [ids]))]

section
variable {visit : Tree → Renaming (List Tree)} {walk : Naming → Tree → Tree × Naming}

def Computes (s : Session) (visit : Tree → Renaming (List Tree)) (walk : Naming → Tree → Tree × Naming) : Prop :=
  KeepsShape walk ∧ ∀ n t, Plain s.store t → Makes s (visit t) n [(walk n t).1] (walk n t).2

theorem makes_mapM {f : Tree → Renaming β} {g : Tree → β} {ts : List Tree}
    (h : ∀ n, ∀ t ∈ ts, Makes s (f t) n (g (walk n t).1) (walk n t).2) (n : Naming) :
    Makes s (ts.mapM f) n ((walkAll walk n ts).1.map g) (walkAll walk n ts).2 := by
  induction ts generalizing n with
  | nil => exact .pure [] n
  | cons t ts ih =>
    rw [List.mapM_cons]
    refine .bind (h n t (by simp)) (.bind (ih (fun n u hu => h n u (by simp [hu])) _) ?_)
    exact .pure _ _

theorem Computes.makes_parts (h : Computes s visit walk) {ts : List Tree} (hplain : ∀ t ∈ ts, Plain s.store t) (n : Naming) :
    Makes s (ts.mapM fun t => return single (← visit t)) n (walkAll walk n ts).1 (walkAll walk n ts).2 := by
  have hpart (n : Naming) (t : Tree) (ht : t ∈ ts) :
      Makes s (return single (← visit t) : Renaming Tree) n (id (walk n t).1) (walk n t).2 :=
    .bind (h.2 n t (hplain t ht)) (.pure _ _)
  have hmap := makes_mapM hpart n
  rwa [List.map_id] at hmap

theorem Computes.makes_inside (h : Computes s visit walk) (hplain : Plain s.store t) (n : Naming) :
    Makes s (inside visit t) n (walkInside walk n t).1 (walkInside walk n t).2 := by
  have hlook : Makes s (liftM (Work.look t) : Renaming Tree) n t n :=
    makes_lift (returns_look.mpr ⟨hplain.look _, rfl⟩) n
  refine .bind hlook ?_
  cases t with
  | node tag kind parts =>
    have hafter : Plain s.store (.node tag kind (walkAll walk n parts).1) :=
      hplain.of_shape (h.1.inside n (.node tag kind parts))
    exact .bind (h.makes_parts hplain.parts n) (.bind (hafter.keep _) (.pure _ _))
  | _ => exact .pure _ n

theorem Computes.makes_search (h : Computes s visit walk) (hplain : Plain s.store t) (n : Naming) :
    Makes s (search visit t) n (walkSearch walk n t).1 (walkSearch walk n t).2 := by
  have hdeclared : declared? s.store t = declared? {} t := by simp only [declared?, hplain.look]
  have hfunction : isFunction s.store t = isFunction {} t := by simp only [isFunction, hplain.look]
  refine .bind (makes_session n) ?_
  simp only [walkSearch, hdeclared, hfunction]
  cases declared? {} t with
  | some names => exact .bind (makes_modify _ n) (.pure t _)
  | none =>
    cases isFunction {} t with
    | true => exact .pure t n
    | false => exact h.makes_inside hplain n

theorem plainParameters_eq {s : Store} (h : Plain s t) : plainParameters s t = plainParameters {} t := by
  simp only [plainParameters, h.look]
  split
  next tag first plain rest =>
    refine List.filterMap_congr fun a ha => ?_
    have hplain : Plain s plain := h.parts plain (by simp)
    have ha : Plain s a := by
      cases plain with
      | seq items => exact hplain.items a ha
      | _ => simp [Tree.items] at ha
    simp only [ha.look]
  next => rfl

theorem Computes.makes_function (h : Computes s visit walk) {tag : Tag} {kind : Kind} {parts : List Tree}
    (hplain : Plain s.store (.node tag kind parts)) (n : Naming) :
    Makes s (function visit tag kind parts) n (walkFunction walk n tag kind parts).1
      (walkFunction walk n tag kind parts).2 := by
  unfold function walkFunction
  split
  next parameters body decorators result =>
    have hbody : ∀ t ∈ body, Plain s.store t := (hplain.parts (.seq body) (by simp)).items
    have hsearch := makes_mapM (f := search visit) (g := id) (fun n t ht => h.makes_search (hbody t ht) n) (enter n parameters)
    rw [List.map_id] at hsearch
    set body₁ := (walkAll (walkSearch walk) (enter n parameters) body).1
    set n₁ := (walkAll (walkSearch walk) (enter n parameters) body).2
    have hshape₁ : shapes body₁ = shapes body := h.1.search.all _ body
    have hnode₁ : Plain s.store (.node tag kind [parameters, .seq body₁, decorators, result]) :=
      hplain.of_shape (by simp only [shape, shapes, hshape₁])
    have hbody₁ : ∀ t ∈ body₁, Plain s.store t := (hnode₁.parts (.seq body₁) (by simp)).items
    have hreplace := makes_mapM (f := inside visit) (g := id) (fun n t ht => h.makes_inside (hbody₁ t ht) n)
      { n₁ with phase := .replace }
    rw [List.map_id] at hreplace
    set body₂ := (walkAll (walkInside walk) { n₁ with phase := .replace } body₁).1
    set n₂ := (walkAll (walkInside walk) { n₁ with phase := .replace } body₁).2
    have hshape₂ : shapes body₂ = shapes body₁ := h.1.inside.all _ body₁
    have hnode₂ : Plain s.store (.node tag kind [parameters, .seq body₂, decorators, result]) :=
      hnode₁.of_shape (by simp only [shape, shapes, hshape₂])
    refine .bind (makes_get n) (.bind (makes_session n) ?_)
    rw [plainParameters_eq (hplain.parts parameters (by simp))]
    refine .bind (makes_set n (enter n parameters)) (.bind hsearch (.bind (makes_modify _ n₁) (.bind hreplace ?_)))
    exact .bind (makes_modify _ n₂) (.bind (hnode₂.keep (leave n n₂)) (h.makes_inside hnode₂ (leave n n₂)))
  next hother =>
    (try split) <;> first | exact .pure _ n | exact absurd rfl (hother _ _ _ _)

end

theorem makes_renameName (id : String) (ctx : Context) (n : Naming) :
    Makes s (renameName id ctx) n (walkName n id ctx).1 (walkName n id ctx).2 := by
  refine .bind (makes_get n) ?_
  unfold walkName
  cases n.phase with
  | idle => exact .pure id n
  | search =>
    cases ctx with
    | store => exact .bind (makes_set n _) (.pure id _)
    | _ => exact .bind (.pure _ n) (.pure id _)
  | replace => exact .pure _ n

theorem computes_walk (s : Session) (depth : Nat) : Computes s (visitDeep rule depth) (walk depth) := by
  refine ⟨keepsShape_walk depth, ?_⟩
  induction depth with
  | zero => exact fun n t _ => .pure [t] n
  | succ depth ih =>
    have hcomputes : Computes s (visitDeep rule depth) (walk depth) := ⟨keepsShape_walk depth, ih⟩
    intro n t hplain
    cases t with
    | absent => exact .pure _ n
    | shared slot =>
      have hrefs := hplain.refs_eq
      simp [refs] at hrefs
    | seq items =>
      refine .bind (makes_mapM (g := fun t => [t]) (fun n t ht => ih n t (hplain.items t ht)) n) ?_
      rw [← List.flatMap_def, List.flatMap_singleton']
      exact .pure _ _
    | node tag kind parts =>
      have hinside := fun n => hcomputes.makes_inside hplain n
      cases kind with
      | name id ctx =>
        refine .bind (makes_renameName id ctx n) (.bind (Plain.keep ?_ _) (.pure _ _))
        exact hplain.of_shape rfl
      | functionDef name => exact .bind (hcomputes.makes_function hplain n) (.pure _ _)
      | listComp | setComp | dictComp => exact .bind (makes_modify _ n) (.bind (hinside _) (.bind (makes_modify _ _) (.pure _ _)))
      | lambda => exact .pure _ n
      | _ => exact .bind (hinside n) (.pure _ _)

/-- On a tree without references the pass returns, and leaves the session as it is. -/
theorem returns_run (naming : Naming) (h : Plain s.store t) :
    Returns (run naming t) s (walk (3 * s.store.next + 100) { naming with assigned := firstNumber } t) s := by
  have hvisit := (computes_walk s (3 * s.store.next + 100)).2 { naming with assigned := firstNumber } t h
  exact (makes_session _).bind (hvisit.bind (.pure _ _))

/-! ## What a visit leaves of the naming -/

structure Advances (n m : Naming) : Prop where
  attentive : n.ignoring = false → m.ignoring = false
  assigned_le : n.assigned ≤ m.assigned

/-- The naming after a visit. Only the first time through a function new names are noted. -/
structure Settles (n m : Naming) : Prop extends Advances n m where
  phase_eq : m.phase = n.phase
  bypassed_eq : m.bypassed = n.bypassed
  mapping_eq : n.phase ≠ .search → m.mapping = n.mapping

theorem Advances.refl (n : Naming) : Advances n n := ⟨id, Int.le_refl _⟩

theorem Advances.trans (h : Advances n m) (h' : Advances m k) : Advances n k :=
  ⟨fun hn => h'.attentive (h.attentive hn), Int.le_trans h.assigned_le h'.assigned_le⟩

theorem Settles.refl (n : Naming) : Settles n n := ⟨.refl n, rfl, rfl, fun _ => rfl⟩

theorem Settles.trans (h : Settles n m) (h' : Settles m k) : Settles n k :=
  ⟨h.toAdvances.trans h'.toAdvances, h'.phase_eq.trans h.phase_eq, h'.bypassed_eq.trans h.bypassed_eq,
    fun hphase => (h'.mapping_eq (h.phase_eq ▸ hphase)).trans (h.mapping_eq hphase)⟩

theorem Settles.replace_eq (h : Settles n m) (hphase : n.phase ≠ .search) (id : String) : m.replace id = n.replace id := by
  simp only [Naming.replace, Naming.newName?, h.mapping_eq hphase]

section
variable {walk : Naming → Tree → Tree × Naming}

def Keeping (R : Naming → Naming → Prop) (walk : Naming → Tree → Tree × Naming) : Prop :=
  ∀ n t, 0 < n.assigned → R n (walk n t).2

theorem Keeping.advances (h : Keeping Advances walk) (n : Naming) (ts : List Tree) (hn : 0 < n.assigned) :
    Advances n (walkAll walk n ts).2 := by
  induction ts generalizing n with
  | nil => exact .refl n
  | cons t ts ih =>
    have ht := h n t hn
    exact ht.trans (ih _ (Int.lt_of_lt_of_le hn ht.assigned_le))

theorem Keeping.settles (h : Keeping Settles walk) (n : Naming) (ts : List Tree) (hn : 0 < n.assigned) :
    Settles n (walkAll walk n ts).2 := by
  induction ts generalizing n with
  | nil => exact .refl n
  | cons t ts ih =>
    have ht := h n t hn
    exact ht.trans (ih _ (Int.lt_of_lt_of_le hn ht.assigned_le))

theorem Keeping.inside (h : Keeping Settles walk) : Keeping Settles (walkInside walk) := by
  intro n t hn
  cases t with
  | node tag kind parts => exact h.settles n parts hn
  | _ => exact .refl n

theorem Keeping.search (h : Keeping Settles walk) : Keeping Advances (walkSearch walk) := by
  intro n t hn
  unfold walkSearch
  split
  · exact ⟨id, Int.le_refl _⟩
  · split
    · exact .refl n
    · exact (h.inside n t hn).toAdvances

theorem foldl_map_eq (names : List String) (n : Naming) :
    (names.foldl (fun n a => n.map a a) n).bypassed = n.bypassed ∧
      (names.foldl (fun n a => n.map a a) n).ignoring = n.ignoring ∧
      (names.foldl (fun n a => n.map a a) n).assigned = n.assigned := by
  induction names generalizing n with
  | nil => exact ⟨rfl, rfl, rfl⟩
  | cons a rest ih =>
    obtain ⟨hbypassed, hignoring, hassigned⟩ := ih (n.map a a)
    obtain ⟨-, hbypassed', hignoring', hassigned'⟩ := Naming.map_eq n a a
    exact ⟨hbypassed.trans hbypassed', hignoring.trans hignoring', hassigned.trans hassigned'⟩

theorem enter_eq (n : Naming) (parameters : Tree) :
    (enter n parameters).phase = .search ∧ (enter n parameters).bypassed = n.bypassed ∧
      (enter n parameters).ignoring = n.ignoring ∧ (enter n parameters).assigned = n.assigned :=
  ⟨rfl, foldl_map_eq _ n⟩

theorem Keeping.function (h : Keeping Settles walk) (n : Naming) (tag : Tag) (kind : Kind) (parts : List Tree)
    (hn : 0 < n.assigned) : Settles n (walkFunction walk n tag kind parts).2 := by
  unfold walkFunction
  split
  next parameters body decorators result =>
    obtain ⟨_, _, hignoring, hassigned⟩ := enter_eq n parameters
    have hsearch := h.search.advances (enter n parameters) body (hassigned ▸ hn)
    set m := walkAll (walkSearch walk) (enter n parameters) body
    have hm : 0 < m.2.assigned := Int.lt_of_lt_of_le (hassigned ▸ hn) hsearch.assigned_le
    have hreplace := h.inside.settles { m.2 with phase := .replace } m.1 hm
    set k := walkAll (walkInside walk) { m.2 with phase := .replace } m.1
    have hleave : Settles n (leave n k.2) := by
      refine ⟨⟨fun hi => ?_, ?_⟩, rfl, rfl, fun _ => rfl⟩
      · exact hreplace.attentive (hsearch.attentive (hignoring.trans hi))
      · exact hassigned ▸ Int.le_trans hsearch.assigned_le hreplace.assigned_le
    exact hleave.trans (h.inside (leave n k.2) _ (Int.lt_of_lt_of_le hn hleave.assigned_le))
  next => exact .refl n

end

theorem settles_walkName (n : Naming) (id : String) (ctx : Context) (hn : 0 < n.assigned) :
    Settles n (walkName n id ctx).2 := by
  unfold walkName
  split
  next => exact .refl n
  next hphase =>
    split
    · have hnotes := Naming.Notes.noteStore n id hn
      exact ⟨⟨hnotes.attentive, hnotes.assigned_le⟩, hnotes.phase_eq, Naming.bypassed_noteStore n id, (absurd hphase ·)⟩
    · exact .refl n
  next => exact .refl n

theorem keeping_walk (depth : Nat) : Keeping Settles (walk depth) := by
  induction depth with
  | zero => exact fun n _ _ => .refl n
  | succ depth ih =>
    intro n t hn
    -- a comprehension is left attentive, whatever was before
    have hignored (kind : Kind) (tag : Tag) (parts : List Tree) :
        Settles n { (walkInside (walk depth) { n with ignoring := true } (.node tag kind parts)).2 with ignoring := false } := by
      have h := ih.inside { n with ignoring := true } (.node tag kind parts) hn
      exact ⟨⟨fun _ => rfl, h.assigned_le⟩, h.phase_eq, h.bypassed_eq, h.mapping_eq⟩
    cases t with
    | absent => exact .refl n
    | shared slot => exact .refl n
    | seq items => exact ih.settles n items hn
    | node tag kind parts =>
      cases kind with
      | name id ctx => exact settles_walkName n id ctx hn
      | functionDef name => exact ih.function n tag _ parts hn
      | listComp => exact hignored .listComp tag parts
      | setComp => exact hignored .setComp tag parts
      | dictComp => exact hignored .dictComp tag parts
      | lambda => exact .refl n
      | _ => exact ih.settles n parts hn

end Pass.Rename
end SourceOptimizer
