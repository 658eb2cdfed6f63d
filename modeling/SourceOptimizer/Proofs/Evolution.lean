import SourceOptimizer.Proofs.Placement

/-! How a store changes while trees are visited. Every tree that has a value keeps it, and a shared node
changes only if the visited trees come to it. -/
namespace SourceOptimizer.Store
open Tree
open View (hide_eq_some hide_hide)

variable {hidden : List Nat}
universe u
variable {X : Type u} {A : Reading X} {s m s' : Store} {us vs ts ws : List Tree}

/-- What has a value in `s` has one in `s'` that may take its place, whatever shared nodes of `s` are hidden. -/
def Keeps (A : Reading X) (s s' : Store) : Prop :=
  ∀ hidden, s.Stores hidden → ∀ {ts xs}, Reads A (s.view.hide hidden) ts xs →
    ∃ ys, Reads A (s'.view.hide hidden) ts ys ∧ List.Forall₂ A.yields xs ys

/-- A shared node that differs in `s'` is one that the trees `us` come to. -/
def Frames (A : Reading X) (s : Store) (us : List Tree) (s' : Store) : Prop :=
  ∀ hidden, s.Stores hidden → ∀ {xs}, Reads A (s.view.hide hidden) us xs →
    ∀ {id x}, Reads A s.view [.shared id] [x] →
      s'.view id = s.view id ∨ Reads A (s.view.hide hidden) [.shared id] [x]

/-- Visiting the trees `us` beside `s` leads to the trees `ts` beside `s'`. -/
structure Evolves (A : Reading X) (s : Store) (us : List Tree) (s' : Store) (ts : List Tree) : Prop where
  sound : s'.Sound
  places : s'.Places ts
  next_le : s.next ≤ s'.next
  old : ∀ {id}, s.view id ≠ none → s'.view id ≠ none
  ids : ∀ id ∈ idsAll ts, id ∈ idsAll us ∨ s.next ≤ id
  grown : ∀ {id}, s'.view id ≠ none → s.view id ≠ none ∨ id ∈ idsAll us ∨ s.next ≤ id
  keeps : Keeps A s s'
  frame : Frames A s us s'

theorem Keeps.live {xs : List X} (h : Keeps A s s') (hreads : Reads A s.view ts xs) :
    ∃ ys, Reads A s'.view ts ys ∧ List.Forall₂ A.yields xs ys := by
  exact h [] (by simp [Stores]) hreads

theorem Keeps.sole {t : Tree} {x : X} (h : Keeps A s s') (hhidden : s.Stores hidden)
    (hreads : Reads A (s.view.hide hidden) [t] [x]) :
    ∃ y, Reads A (s'.view.hide hidden) [t] [y] ∧ A.yields x y := by
  obtain ⟨_, hreads', _ | ⟨hyields, _ | _⟩⟩ := h hidden hhidden hreads
  exact ⟨_, hreads', hyields⟩

/-- What can be read afterwards without the hidden nodes could be read so before. -/
theorem Frames.reflect {xs ys zs : List X} (h : Frames A s us s') (hhidden : s.Stores hidden)
    (hus : Reads A (s.view.hide hidden) us xs) (hlive : Reads A s.view ts zs)
    (hafter : Reads A (s'.view.hide hidden) ts ys) : Reads A (s.view.hide hidden) ts zs := by
  induction hafter generalizing zs with
  | nil =>
    cases hlive
    exact .nil
  | node _ _ _ ihparts ihrest =>
    cases hlive with
    | node hparts hadmits hrest => exact .node (ihparts hparts) hadmits (ihrest hrest)
  | seq _ _ ihitems ihrest =>
    cases hlive with
    | seq hitems hrest => exact .seq (ihitems hitems) (ihrest hrest)
  | absent _ ihrest =>
    cases hlive with
    | absent hrest => exact .absent (ihrest hrest)
  | @shared id t _ _ _ hview _ _ ihnode ihrest =>
    obtain ⟨hid, hview⟩ := hide_eq_some.mp hview
    cases hlive with
    | shared hview' hnode hrest =>
      rcases h hidden hhidden hus (.shared hview' hnode .nil) with hsame | hread
      · cases (hsame ▸ hview').symm.trans hview
        exact .shared (hide_eq_some.mpr ⟨hid, hview'⟩) (ihnode hnode) (ihrest hrest)
      · exact hread.cons (ihrest hrest)

namespace Evolves

theorem stores (h : Evolves A s us s' ts) (hhidden : s.Stores hidden) : s'.Stores hidden :=
  fun id hid => h.old (hhidden id hid)

theorem refl (hs : s.Sound) (hplaces : s.Places us) : Evolves A s us s us where
  sound := hs
  places := hplaces
  next_le := Nat.le_refl _
  old := id
  ids := fun _ => .inl
  grown := .inl
  keeps := fun _ _ _ xs h => ⟨xs, h, A.yields_self xs⟩
  frame := fun _ _ _ _ _ _ _ => .inl rfl

theorem append (h : Evolves A s us m ts) (h' : Evolves A m vs s' ws) (hplaces : s.Places (us ++ vs)) :
    Evolves A s (us ++ vs) s' (ts ++ ws) := by
  have hbelow := hplaces.below
  simp only [idsAll_append, List.mem_append] at hbelow
  have hfresh : ∀ i ∈ idsAll ts, i ∉ idsAll vs := by
    intro i hi hi'
    rcases h.ids i hi with hold | hnew
    · exact hplaces.disjoint i hold hi'
    · exact absurd (hbelow i (.inr hi')) (by omega)
  constructor
  case sound => exact h'.sound
  case next_le => exact Nat.le_trans h.next_le h'.next_le
  case old => exact fun hid => h'.old (h.old hid)
  case keeps =>
    intro hidden hhidden _ _ hreads
    obtain ⟨ys, hys, hyields⟩ := h.keeps hidden hhidden hreads
    obtain ⟨zs, hzs, hyields'⟩ := h'.keeps hidden (h.stores hhidden) hys
    exact ⟨zs, hzs, Reading.yields_all_trans hyields hyields'⟩
  case ids =>
    intro i hi
    simp only [idsAll_append, List.mem_append] at hi ⊢
    rcases hi with hi | hi
    · exact (h.ids i hi).imp_left .inl
    · exact (h'.ids i hi).imp .inr (Nat.le_trans h.next_le)
  case grown =>
    intro i hi
    simp only [idsAll_append, List.mem_append]
    rcases h'.grown hi with hold | hid | hnew
    · exact (h.grown hold).imp_right (.imp_left .inl)
    · exact .inr (.inl (.inr hid))
    · exact .inr (.inr (Nat.le_trans h.next_le hnew))
  case frame =>
    intro hidden hhidden xs hreads id x hlive
    obtain ⟨xs, ys, rfl, hus, hvs⟩ := hreads.unappend
    rcases h.frame hidden hhidden hus hlive with hsame | hread
    · obtain ⟨_, hvs', -⟩ := h.keeps hidden hhidden hvs
      obtain ⟨_, hlive', _ | ⟨-, _ | _⟩⟩ := h.keeps.live hlive
      rcases h'.frame hidden (h.stores hhidden) hvs' hlive' with hsame' | hread
      · exact .inl (hsame'.trans hsame)
      · -- the second visit comes to the node in `m`, and on that way the first has changed nothing out of its reach
        exact .inr (h.frame.reflect hhidden hus hlive hread)
    · exact .inr hread
  case places =>
    refine ⟨?_, ?_, ?_, ?_⟩
    · rw [idsAll_append, List.nodup_append]
      refine ⟨h.places.nodup, h'.places.nodup, ?_⟩
      rintro i hi j hj rfl
      rcases h'.ids i hj with hold | hnew
      · exact hfresh i hi hold
      · exact absurd (h.places.below i hi) (by omega)
    · intro i hi
      simp only [idsAll_append, List.mem_append] at hi
      rcases hi with hi | hi
      · refine Classical.byContradiction fun hview => ?_
        rcases h'.grown hview with hold | hid | hnew
        · exact hold (h.places.outside i hi)
        · exact hfresh i hi hid
        · exact absurd (h.places.below i hi) (by omega)
      · exact h'.places.outside i hi
    · intro i hi
      simp only [idsAll_append, List.mem_append] at hi
      exact hi.elim (fun hi => Nat.lt_of_lt_of_le (h.places.below i hi) h'.next_le) (h'.places.below i)
    · intro o ho
      simp only [originsAll_append, List.mem_append] at ho
      exact ho.elim (fun ho => Nat.lt_of_lt_of_le (h.places.originBelow o ho) h'.next_le)
        (h'.places.originBelow o)

theorem places_rest {t : Tree} (h : Evolves A s [t] m us) (hplaces : s.Places (t :: ts)) : m.Places ts := by
  have hts := hplaces.tail
  refine ⟨hts.nodup, ?_, fun i hi => Nat.lt_of_lt_of_le (hts.below i hi) h.next_le,
    fun o ho => Nat.lt_of_lt_of_le (hts.originBelow o ho) h.next_le⟩
  intro i hi
  refine Classical.byContradiction fun hview => ?_
  rcases h.grown hview with hold | hid | hnew
  · exact hold (hts.outside i hi)
  · exact hplaces.head_disjoint i hid hi
  · exact absurd (hts.below i hi) (by omega)

theorem of_view_eq (hview : s'.view = s.view) (hnext : s.next ≤ s'.next) (hs : s'.Sound) (hplaces : s'.Places ts)
    (hids : ∀ id ∈ idsAll ts, id ∈ idsAll us ∨ s.next ≤ id) : Evolves A s us s' ts where
  sound := hs
  places := hplaces
  next_le := hnext
  old := by simp [hview]
  ids := hids
  grown := by
    intro id hid
    exact .inl (hview ▸ hid)
  keeps := by
    intro hidden _ ts xs hreads
    exact ⟨xs, by rwa [hview], A.yields_self xs⟩
  frame := by
    intro hidden _ xs _ id x _
    exact .inl (by rw [hview])

theorem adopt {t : Tree} (us : List Tree) (hs : s.Sound) (hnew : Unnumbered [t]) :
    Evolves A s us (s.adopt t).2 [(s.adopt t).1] :=
  of_view_eq rfl (next_le_adopt hnew) (hs.grow (next_le_adopt hnew)) (adopt_places hs hnew)
    fun i hi => .inr (adopt_ids hnew i hi).1

theorem widen (h : Evolves A s us s' ts) (hids : ∀ id ∈ idsAll us, id ∈ idsAll vs)
    (hreads : ∀ {hidden xs}, Reads A (s.view.hide hidden) vs xs → ∃ ys, Reads A (s.view.hide hidden) us ys) :
    Evolves A s vs s' ts where
  sound := h.sound
  places := h.places
  next_le := h.next_le
  old := h.old
  ids := fun id hid => (h.ids id hid).imp_left (hids id)
  grown := fun hid => (h.grown hid).imp_right (.imp_left (hids _))
  keeps := h.keeps
  frame := by
    intro hidden hhidden xs hvs id x hlive
    obtain ⟨ys, hus⟩ := hreads hvs
    exact h.frame hidden hhidden hus hlive

theorem select (h : Evolves A s us s' ts) (hids : (idsAll ws).Sublist (idsAll ts))
    (horigins : ∀ o ∈ originsAll ws, o ∈ originsAll ts) : Evolves A s us s' ws where
  sound := h.sound
  places := h.places.sublist hids horigins
  next_le := h.next_le
  old := h.old
  ids := fun id hid => h.ids id (hids.subset hid)
  grown := h.grown
  keeps := h.keeps
  frame := h.frame

end Evolves

/-! ## Writing a node back -/

section
variable {tag : Tag} {kind : Kind} {parts parts' : List Tree}

theorem keep_of_unstored (h : m.view tag.id = none) : m.keep (.node tag kind parts) = m := by
  have hcontains : ¬ m.nodes.contains tag.id = true := by
    rw [contains_iff]
    simp [h]
  simp only [keep, if_neg hcontains]

theorem keep_of_stored (h : m.view tag.id ≠ none) :
    m.keep (.node tag kind parts) =
      { (m.shareAll parts).2 with
        nodes := (m.shareAll parts).2.nodes.insert tag.id (.node tag kind (m.shareAll parts).1) } := by
  have hcontains : m.nodes.contains tag.id = true := (contains_iff m tag.id).mpr h
  simp only [keep, if_pos hcontains]

/-- What the parts of a node have become gives the node a value that may take the place of the one it had. -/
def Revalues (A : Reading X) (s : Store) (tag : Tag) (kind : Kind) (parts : List Tree) (m : Store)
    (parts' : List Tree) : Prop :=
  ∀ hidden, s.Stores hidden → ∀ {xs}, Reads A (s.view.hide hidden) parts xs → A.admits kind xs →
    ∃ ys, Reads A (m.view.hide hidden) parts' ys ∧ A.admits kind ys ∧ A.yields (A.node tag kind xs) (A.node tag kind ys)

/-- The shared nodes after one of them is written back. -/
structure WritesBack (m : Store) (tag : Tag) (kind : Kind) (parts' : List Tree) (r : Store) (kept : List Tree) :
    Prop where
  sound : r.Sound
  next_eq : r.next = m.next
  here : r.view tag.id = some (.node tag kind kept)
  other : ∀ {id t}, id ≠ tag.id → m.view id = some t → r.view id = some t
  grown : ∀ {id}, r.view id ≠ none → m.view id ≠ none ∨ id ∈ idsAll parts'
  reads : ∀ {hidden xs}, m.Stores hidden → Reads A (m.view.hide (tag.id :: hidden)) parts' xs →
    Reads A (r.view.hide hidden) kept xs

theorem keep_writesBack (hm : m.Sound) (hplaces : m.Places parts') (hstored : m.view tag.id ≠ none)
    (hkind : ∀ o ∈ kind.origin?, o < m.next) :
    WritesBack (A := A) m tag kind parts' (m.keep (.node tag kind parts')) (m.shareAll parts').1 := by
  obtain ⟨hshares, hvalues⟩ := shareAll_shares m hm parts' hplaces
  have hlt : tag.id < m.next := by
    cases hview : m.view tag.id with
    | none => exact absurd hview hstored
    | some t => exact hm.below hview
  rw [keep_of_stored hstored]
  constructor
  case sound =>
    exact hshares.sound.insert (hshares.next_eq ▸ hlt) (hshares.next_eq ▸ hkind) hshares.bare hshares.bareOrigins
  case next_eq => exact hshares.next_eq
  case here => rw [view_insert, if_pos rfl]
  case other =>
    intro id t hid hview
    rw [view_insert, if_neg hid]
    exact hshares.kept hview
  case grown =>
    intro id hid
    rw [view_insert] at hid
    split at hid
    · subst id
      exact .inl hstored
    · cases hview : (m.shareAll parts').2.view id with
      | none => exact absurd hview hid
      | some t => exact (hshares.grown hview).imp_left fun hold => by simp [hold]
  case reads =>
    intro hidden xs hhidden hreads
    have hids : ∀ i ∈ idsAll parts', i ∉ tag.id :: hidden := by
      intro i hi hmem
      rcases List.mem_cons.mp hmem with rfl | hmem
      · exact hstored (hplaces.outside _ hi)
      · exact hhidden i hmem (hplaces.outside i hi)
    refine (hvalues A _ _ hids hreads).mono fun id t hview => ?_
    obtain ⟨hid, hview⟩ := hide_eq_some.mp hview
    rw [List.mem_cons, not_or] at hid
    rw [hide_eq_some, view_insert, if_neg hid.1]
    exact ⟨hid.2, hview⟩

theorem WritesBack.apart {r : Store} {kept : List Tree} (h : WritesBack (A := A) m tag kind parts' r kept)
    {xs : List X} (hreads : Reads A (m.view.hide (tag.id :: hidden)) ts xs) :
    Reads A (r.view.hide hidden) ts xs := by
  refine hreads.mono fun id t hid => ?_
  obtain ⟨hid, hm⟩ := hide_eq_some.mp hid
  rw [List.mem_cons, not_or] at hid
  exact hide_eq_some.mpr ⟨hid.2, h.other hid.1 hm⟩

theorem Stores.cons {id : Nat} (h : s.Stores hidden) (hid : s.view id ≠ none) :
    s.Stores (id :: hidden) := by
  intro i hi
  rcases List.mem_cons.mp hi with rfl | hi
  · exact hid
  · exact h i hi

theorem reads_inside {x : X} (hview : s.view tag.id = some (.node tag kind parts))
    (hreads : Reads A (s.view.hide hidden) [.shared tag.id] [x]) :
    tag.id ∉ hidden ∧
      ∃ xs, Reads A (s.view.hide (tag.id :: hidden)) parts xs ∧ A.admits kind xs ∧ x = A.node tag kind xs := by
  cases hreads with
  | shared hkept hnode _ =>
    have hself := hnode.hide_self hkept
    obtain ⟨hid, hkept⟩ := hide_eq_some.mp hkept
    cases hview.symm.trans hkept
    rw [hide_hide] at hself
    cases hself with
    | node hparts hadmits _ => exact ⟨hid, _, hparts, hadmits, rfl⟩

namespace Evolves

theorem writesBack (hs : s.Sound) (hview : s.view tag.id = some (.node tag kind parts)) (h : Evolves A s parts m parts') :
    WritesBack (A := A) m tag kind parts' (m.keep (.node tag kind parts')) (m.shareAll parts').1 := by
  have hold : m.view tag.id ≠ none := h.old (by simp [hview])
  exact keep_writesBack h.sound h.places hold fun o ho => Nat.lt_of_lt_of_le (hs.originBelow hview o ho) h.next_le

theorem writeBack (hs : s.Sound) (hview : s.view tag.id = some (.node tag kind parts))
    (h : Evolves A s parts m parts') (hvalue : Revalues A s tag kind parts m parts') :
    Evolves A s [.shared tag.id] (m.keep (.node tag kind parts')) [.shared tag.id] := by
  have hbare : idsAll parts = [] := by
    obtain ⟨_, _, _, heq, _, hids, _⟩ := hs.stored hview
    cases heq
    exact hids
  have hback := h.writesBack hs hview
  -- how the node is kept no longer matters, only what has become of the shared nodes
  generalize m.keep (.node tag kind parts') = r at hback ⊢
  generalize (m.shareAll parts').1 = kept at hback
  have hstores {hidden : List Nat} (hhidden : s.Stores hidden) : s.Stores (tag.id :: hidden) :=
    hhidden.cons (by simp [hview])
  have hnode {hidden : List Nat} {x : X} (hhidden : s.Stores hidden)
      (hreads : Reads A (s.view.hide hidden) [.shared tag.id] [x]) :
      ∃ y, Reads A (r.view.hide hidden) [.shared tag.id] [y] ∧ A.yields x y := by
    obtain ⟨hid, xs, hparts, hadmits, rfl⟩ := reads_inside hview hreads
    obtain ⟨ys, hread, hadmits', hyields⟩ := hvalue _ (hstores hhidden) hparts hadmits
    refine ⟨_, .shared (hide_eq_some.mpr ⟨hid, hback.here⟩) (.node ?_ hadmits' .nil) .nil, hyields⟩
    exact hback.reads (h.stores hhidden) hread
  constructor
  case sound => exact hback.sound
  case places => exact places_of_bare rfl rfl
  case next_le => exact hback.next_eq ▸ h.next_le
  case ids => simp [idsAll, Tree.ids]
  case old =>
    intro id hid
    by_cases heq : id = tag.id
    · simp [heq, hback.here]
    · cases hm : m.view id with
      | none => exact absurd hm (h.old hid)
      | some t => simp [hback.other heq hm]
  case grown =>
    intro id hid
    rcases hback.grown hid with hm | hnew
    · rcases h.grown hm with hold | hmem | hnext
      · exact .inl hold
      · simp [hbare] at hmem
      · exact .inr (.inr hnext)
    · rcases h.ids id hnew with hmem | hnext
      · simp [hbare] at hmem
      · exact .inr (.inr hnext)
  case keeps =>
    intro hidden hhidden ts xs hreads
    rcases hreads.hide_or tag.id with hapart | ⟨t, x, hkept, hread⟩
    · rw [hide_hide] at hapart
      obtain ⟨ys, hys, hyields⟩ := h.keeps _ (hstores hhidden) hapart
      exact ⟨ys, hback.apart hys, hyields⟩
    · obtain ⟨hid, hkept⟩ := hide_eq_some.mp hkept
      cases hview.symm.trans hkept
      rw [hide_hide] at hread
      cases hread with
      | node hpartsRead _ _ =>
        -- the trees may come to the node: they are read again, and a shared node on the way is as it was or is
        -- below the parts, where it cannot come to the node
        induction hreads with
        | nil => exact ⟨[], .nil, .nil⟩
        | node _ hadmits _ ihparts ihrest =>
          obtain ⟨ps, hps, hparts⟩ := ihparts
          obtain ⟨ys, hys, hrest⟩ := ihrest
          obtain ⟨hadmits', hyields⟩ := A.node_yields hparts hadmits
          exact ⟨_, .node hps hadmits' hys, .cons hyields hrest⟩
        | seq _ _ ihitems ihrest =>
          obtain ⟨ps, hps, hitems⟩ := ihitems
          obtain ⟨ys, hys, hrest⟩ := ihrest
          exact ⟨_, .seq hps hys, .cons (A.seq_yields hitems) hrest⟩
        | absent _ ihrest =>
          obtain ⟨ys, hys, hrest⟩ := ihrest
          exact ⟨_, .absent hys, .cons (A.yields_refl _) hrest⟩
        | @shared id t x _ _ hview' hread _ ihnode ihrest =>
          obtain ⟨ys, hys, hrest⟩ := ihrest
          by_cases heq : id = tag.id
          · subst id
            obtain ⟨y, hy, hyields⟩ := hnode hhidden (.shared hview' hread .nil)
            exact ⟨_, hy.cons hys, .cons hyields hrest⟩
          · obtain ⟨hid', hview'⟩ := hide_eq_some.mp hview'
            rcases h.frame _ (hstores hhidden) hpartsRead (.shared hview' hread.of_hide .nil) with hsame | hread
            · obtain ⟨_, hx, _ | ⟨hyields, _ | _⟩⟩ := ihnode
              exact ⟨_, .shared (hide_eq_some.mpr ⟨hid', hback.other heq (hsame.trans hview')⟩) hx hys,
                .cons hyields hrest⟩
            · obtain ⟨y, hy, hyields⟩ := h.keeps.sole (hstores hhidden) hread
              exact ⟨_, (hback.apart hy).cons hys, .cons hyields hrest⟩
  case frame =>
    intro hidden hhidden xs hreads id x hlive
    by_cases heq : id = tag.id
    · subst id
      obtain ⟨y, _, rfl, hread, hnil⟩ := hreads.uncons
      cases hnil
      cases hlive.unique hread.of_hide
      exact .inr hread
    · obtain ⟨y, _, rfl, hreads, _⟩ := hreads.uncons
      obtain ⟨_, xs, hparts, _, _⟩ := reads_inside hview hreads
      rcases h.frame _ (hstores hhidden) hparts hlive with hsame | hread
      · left
        cases hlive with
        | shared hlive' _ _ => rw [hback.other heq (hsame.trans hlive'), hlive']
      · right
        rw [← hide_hide] at hread
        exact hread.of_hide

end Evolves

end
end SourceOptimizer.Store
