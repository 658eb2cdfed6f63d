import SourceOptimizer.Proofs.Reading

/-! Where nodes stand. A node stands in a tree or is kept in the store, never both. Sharing moves the nodes of
trees into the store and leaves every value as it is. -/
namespace SourceOptimizer

def Kind.origin? : Kind → Option Nat
  | .constant l => some l.origin
  | _ => none

namespace Tree

mutual

/-- The identities of the nodes that stand in a tree; shared nodes do not. -/
def ids : Tree → List Nat
  | .node tag _ parts => tag.id :: idsAll parts
  | .seq items => idsAll items
  | .absent => []
  | .shared _ => []

def idsAll : List Tree → List Nat
  | [] => []
  | t :: ts => ids t ++ idsAll ts

end

mutual

def origins : Tree → List Nat
  | .node _ kind parts => kind.origin?.toList ++ originsAll parts
  | .seq items => originsAll items
  | .absent => []
  | .shared _ => []

def originsAll : List Tree → List Nat
  | [] => []
  | t :: ts => origins t ++ originsAll ts

end

@[simp] theorem idsAll_append (ts us : List Tree) : idsAll (ts ++ us) = idsAll ts ++ idsAll us := by
  induction ts with
  | nil => rfl
  | cons t ts ih => simp [idsAll, ih]

@[simp] theorem originsAll_append (ts us : List Tree) :
    originsAll (ts ++ us) = originsAll ts ++ originsAll us := by
  induction ts with
  | nil => rfl
  | cons t ts ih => simp [originsAll, ih]

theorem ids_sublist_idsAll {t : Tree} {ts : List Tree} (h : t ∈ ts) : (ids t).Sublist (idsAll ts) := by
  induction h with
  | head ts => exact List.sublist_append_left _ _
  | tail u _ ih => exact ih.trans (List.sublist_append_right _ _)

theorem origins_subset_originsAll {t : Tree} {ts : List Tree} (h : t ∈ ts) : ∀ o ∈ origins t, o ∈ originsAll ts := by
  induction h with
  | head ts => exact fun o ho => List.mem_append_left _ ho
  | tail u _ ih => exact fun o ho => List.mem_append_right _ (ih o ho)

theorem idsAll_items_sublist (t : Tree) : (idsAll t.items).Sublist (ids t) := by
  cases t with
  | seq items => exact List.Sublist.refl _
  | _ => exact List.nil_sublist _

theorem originsAll_items_subset (t : Tree) : ∀ o ∈ originsAll t.items, o ∈ origins t := by
  cases t with
  | seq items => exact fun _ => id
  | _ => simp [items, originsAll]

mutual

theorem origins_of_bare : (t : Tree) → ids t = [] → origins t = []
  | .node _ _ _, h => by simp [ids] at h
  | .seq items, h => originsAll_of_bare items h
  | .absent, _ => rfl
  | .shared _, _ => rfl

theorem originsAll_of_bare : (ts : List Tree) → idsAll ts = [] → originsAll ts = []
  | [], _ => rfl
  | t :: ts, h => by
    simp only [idsAll, List.append_eq_nil_iff] at h
    simp only [originsAll, origins_of_bare t h.1, originsAll_of_bare ts h.2, List.append_nil]

end

theorem literal?_eq_some {t : Tree} {l : Literal} : t.literal? = some l ↔ ∃ tag parts, t = .node tag (.constant l) parts := by
  constructor
  · intro h
    cases t with
    | node tag kind parts =>
      cases kind with
      | constant l' =>
        cases h
        exact ⟨tag, parts, rfl⟩
      | _ => cases h
    | _ => cases h
  · rintro ⟨_, _, rfl⟩
    rfl

end Tree

namespace Store
open Tree
variable {s : Store} {ts us : List Tree} {id : Nat} {t : Tree}

/-- Nodes are kept under their identity, with all their parts shared. -/
structure Sound (s : Store) : Prop where
  stored : ∀ {id t}, s.view id = some t →
    ∃ tag kind parts, t = .node tag kind parts ∧ tag.id = id ∧ idsAll parts = [] ∧ originsAll parts = []
  below : ∀ {id t}, s.view id = some t → id < s.next
  originBelow : ∀ {id tag kind parts}, s.view id = some (.node tag kind parts) →
    ∀ o ∈ kind.origin?, o < s.next

/-- Trees that stand beside a store. -/
structure Places (s : Store) (ts : List Tree) : Prop where
  nodup : (idsAll ts).Nodup
  outside : ∀ id ∈ idsAll ts, s.view id = none
  below : ∀ id ∈ idsAll ts, id < s.next
  originBelow : ∀ o ∈ originsAll ts, o < s.next

/-- A program: its nodes stand in one place each or are shared, and all references resolve. -/
structure Carries (s : Store) (t : Tree) : Prop where
  sound : s.Sound
  places : s.Places [t]
  resolves : ∃ u, Reads .itself s.view [t] [u]

def Stores (s : Store) (hidden : List Nat) : Prop := ∀ id ∈ hidden, s.view id ≠ none

theorem Places.nil (s : Store) : s.Places [] := by
  constructor <;> simp [idsAll, originsAll]

theorem Places.left (h : s.Places (ts ++ us)) : s.Places ts := by
  obtain ⟨hnodup, houtside, hbelow, horigin⟩ := h
  simp only [idsAll_append, originsAll_append, List.mem_append] at hnodup houtside hbelow horigin
  exact ⟨(List.nodup_append.mp hnodup).1, fun i hi => houtside i (.inl hi),
    fun i hi => hbelow i (.inl hi), fun o ho => horigin o (.inl ho)⟩

theorem Places.right (h : s.Places (ts ++ us)) : s.Places us := by
  obtain ⟨hnodup, houtside, hbelow, horigin⟩ := h
  simp only [idsAll_append, originsAll_append, List.mem_append] at hnodup houtside hbelow horigin
  exact ⟨(List.nodup_append.mp hnodup).2.1, fun i hi => houtside i (.inr hi),
    fun i hi => hbelow i (.inr hi), fun o ho => horigin o (.inr ho)⟩

theorem Places.disjoint (h : s.Places (ts ++ us)) : ∀ i ∈ idsAll ts, i ∉ idsAll us := by
  have hnodup := h.nodup
  rw [idsAll_append] at hnodup
  intro i hi hi'
  exact (List.nodup_append.mp hnodup).2.2 i hi i hi' rfl

theorem Places.head (h : s.Places (t :: ts)) : s.Places [t] := by
  exact h.left

theorem Places.tail (h : s.Places (t :: ts)) : s.Places ts := by
  rw [← List.singleton_append] at h
  exact h.right

theorem Places.head_disjoint (h : s.Places (t :: ts)) : ∀ i ∈ idsAll [t], i ∉ idsAll ts := by
  exact h.disjoint

theorem Places.sublist (h : s.Places ts) (hids : (idsAll us).Sublist (idsAll ts))
    (horigins : ∀ o ∈ originsAll us, o ∈ originsAll ts) : s.Places us :=
  ⟨h.nodup.sublist hids, fun i hi => h.outside i (hids.subset hi), fun i hi => h.below i (hids.subset hi),
    fun o ho => h.originBelow o (horigins o ho)⟩

theorem places_node {tag : Tag} {kind : Kind} {parts : List Tree} :
    s.Places [.node tag kind parts] ↔
      s.Places parts ∧ tag.id ∉ idsAll parts ∧ s.view tag.id = none ∧ tag.id < s.next ∧
        ∀ o ∈ kind.origin?, o < s.next := by
  constructor
  · rintro ⟨hnodup, houtside, hbelow, horigin⟩
    simp only [idsAll, ids, originsAll, origins, List.append_nil, List.nodup_cons, List.mem_cons,
      List.mem_append, Option.mem_toList] at hnodup houtside hbelow horigin
    exact ⟨⟨hnodup.2, fun i hi => houtside i (.inr hi), fun i hi => hbelow i (.inr hi),
      fun o ho => horigin o (.inr ho)⟩, hnodup.1, houtside _ (.inl rfl), hbelow _ (.inl rfl),
      fun o ho => horigin o (.inl ho)⟩
  · rintro ⟨⟨hnodup, houtside, hbelow, horigin⟩, htag, hout, hlt, hkind⟩
    constructor <;>
      simp only [idsAll, ids, originsAll, origins, List.append_nil, List.nodup_cons, List.mem_cons,
        List.mem_append, Option.mem_toList]
    · exact ⟨htag, hnodup⟩
    · rintro i (rfl | hi)
      · exact hout
      · exact houtside i hi
    · rintro i (rfl | hi)
      · exact hlt
      · exact hbelow i hi
    · rintro o (ho | ho)
      · exact hkind o ho
      · exact horigin o ho

theorem Places.congr (h : s.Places ts) (hids : idsAll us = idsAll ts) (horigins : originsAll us = originsAll ts) :
    s.Places us := by
  obtain ⟨hnodup, houtside, hbelow, horigin⟩ := h
  rw [← hids] at hnodup houtside hbelow
  rw [← horigins] at horigin
  exact ⟨hnodup, houtside, hbelow, horigin⟩

theorem places_seq {items : List Tree} : s.Places [.seq items] ↔ s.Places items := by
  have hids : idsAll [.seq items] = idsAll items := by simp [idsAll, ids]
  have horigins : originsAll [.seq items] = originsAll items := by simp [originsAll, origins]
  exact ⟨fun h => h.congr hids.symm horigins.symm, fun h => h.congr hids horigins⟩

theorem places_of_bare (hids : idsAll ts = []) (horigins : originsAll ts = []) : s.Places ts :=
  (Places.nil s).congr hids horigins

theorem view_insert (s : Store) (id other : Nat) (t : Tree) :
    Store.view { s with nodes := s.nodes.insert id t } other =
      if other = id then some t else s.view other := by
  simp only [view, Std.HashMap.getElem?_insert, beq_iff_eq]
  by_cases h : id = other
  · simp [h]
  · simp [h, Ne.symm h]

theorem contains_iff (s : Store) (id : Nat) : s.nodes.contains id = true ↔ s.view id ≠ none := by
  rw [Std.HashMap.contains_iff_mem, ← Std.HashMap.isSome_getElem?_iff_mem, Option.isSome_iff_ne_none]
  rfl

theorem Sound.insert {tag : Tag} {kind : Kind} {parts : List Tree} (hs : s.Sound) (hlt : tag.id < s.next)
    (hkind : ∀ o ∈ kind.origin?, o < s.next) (hids : idsAll parts = []) (horigins : originsAll parts = []) :
    Sound { s with nodes := s.nodes.insert tag.id (.node tag kind parts) } := by
  constructor
  · intro id t hview
    rw [view_insert] at hview
    split at hview
    · cases hview
      exact ⟨tag, kind, parts, rfl, Eq.symm (by assumption), hids, horigins⟩
    · exact hs.stored hview
  · intro id t hview
    rw [view_insert] at hview
    split at hview
    · simp_all
    · exact hs.below hview
  · intro id tag' kind' parts' hview
    rw [view_insert] at hview
    split at hview
    · cases hview
      exact hkind
    · exact hs.originBelow hview

@[simp] theorem look_seq (items : List Tree) : s.look (.seq items) = .seq items := rfl

@[simp] theorem look_absent : s.look .absent = .absent := rfl

theorem reads_look.{u} {X : Type u} {A : Reading X} {hidden : List Nat} {x : X} (hs : s.Sound)
    (h : Reads A (s.view.hide hidden) [t] [x]) :
    (∃ tag kind parts xs, s.look t = .node tag kind parts ∧ Reads A (s.view.hide hidden) parts xs ∧
      x = A.node tag kind xs) ∨
    (∃ items xs, t = .seq items ∧ Reads A (s.view.hide hidden) items xs ∧ x = A.seq xs) ∨
    (t = .absent ∧ x = A.absent) := by
  cases h with
  | node hparts _ _ => exact .inl ⟨_, _, _, _, rfl, hparts, rfl⟩
  | seq hitems _ => exact .inr (.inl ⟨_, _, rfl, hitems, rfl⟩)
  | absent _ => exact .inr (.inr ⟨rfl, rfl⟩)
  | @shared id _ _ _ _ hview hnode _ =>
    obtain ⟨_, hview⟩ := View.hide_eq_some.mp hview
    obtain ⟨tag, kind, parts, rfl, _⟩ := hs.stored hview
    have hlook : s.look (.shared id) = .node tag kind parts := by
      simp only [look, show s.nodes[id]? = some (.node tag kind parts) from hview, Option.getD_some]
    cases hnode with
    | node hparts _ _ => exact .inl ⟨_, _, _, _, hlook, hparts, rfl⟩

theorem reads_of_literal.{u} {X : Type u} {A : Reading X} {hidden : List Nat} {x : X} {l : Literal} (hs : s.Sound)
    (hl : (s.look t).literal? = some l) (h : Reads A (s.view.hide hidden) [t] [x]) : ∃ tag xs, x = A.node tag (.constant l) xs := by
  obtain ⟨_, _, hlook⟩ := literal?_eq_some.mp hl
  rcases reads_look hs h with ⟨_, _, _, xs, heq, _, rfl⟩ | ⟨items, xs, rfl, _⟩ | ⟨rfl, _⟩
  · cases heq.symm.trans hlook
    exact ⟨_, xs, rfl⟩
  · cases hlook
  · cases hlook

/-! ## Sharing -/

/-- `ts'` beside `s'` is what sharing makes of `ts` beside `s`. -/
structure Shares (s : Store) (ts : List Tree) (s' : Store) (ts' : List Tree) : Prop where
  sound : s'.Sound
  next_eq : s'.next = s.next
  bare : idsAll ts' = []
  bareOrigins : originsAll ts' = []
  kept : ∀ {id t}, s.view id = some t → s'.view id = some t
  grown : ∀ {id t}, s'.view id = some t → s.view id = some t ∨ id ∈ idsAll ts

/-- Sharing keeps the values that do not depend on what is hidden. -/
def SharesValues.{u} (s : Store) (ts : List Tree) (s' : Store) (ts' : List Tree) : Prop :=
  ∀ {X : Type u} (A : Reading X) (hidden : List Nat) (xs : List X), (∀ id ∈ idsAll ts, id ∉ hidden) →
    Reads A (s.view.hide hidden) ts xs → Reads A (s'.view.hide hidden) ts' xs

theorem SharesValues.mono.{u} {r s' : Store} {ts' : List Tree} (h : SharesValues.{u} s ts r ts')
    (hkept : ∀ {id t}, r.view id = some t → s'.view id = some t) : SharesValues.{u} s ts s' ts' := by
  intro X A hidden xs hids hreads
  refine (h A hidden xs hids hreads).mono fun i t hview => ?_
  obtain ⟨hi, hview⟩ := View.hide_eq_some.mp hview
  exact View.hide_eq_some.mpr ⟨hi, hkept hview⟩

mutual

theorem share_shares.{u} (s : Store) (hs : s.Sound) :
    (t : Tree) → s.Places [t] →
      Shares s [t] (s.share t).2 [(s.share t).1] ∧ SharesValues.{u} s [t] (s.share t).2 [(s.share t).1]
  | .node tag kind parts, h => by
    obtain ⟨hparts, htag, hout, hlt, hkind⟩ := places_node.mp h
    obtain ⟨hsh, hval⟩ := shareAll_shares s hs parts hparts
    -- the parts go into the store first, and the node is none of them
    have hfresh : (s.shareAll parts).2.view tag.id = none := by
      cases hview : (s.shareAll parts).2.view tag.id with
      | none => rfl
      | some t => exact (hsh.grown hview).elim (fun hold => by simp [hout] at hold) (absurd · htag)
    have hkept : ∀ {id t}, (s.shareAll parts).2.view id = some t →
        (s.share (.node tag kind parts)).2.view id = some t := by
      intro id t hview
      rw [share, view_insert, if_neg]
      · exact hview
      · rintro rfl
        simp [hfresh] at hview
    refine ⟨⟨?_, hsh.next_eq, rfl, rfl, fun hview => hkept (hsh.kept hview), ?_⟩, ?_⟩
    · rw [share]
      exact hsh.sound.insert (hsh.next_eq ▸ hlt) (hsh.next_eq ▸ hkind) hsh.bare hsh.bareOrigins
    · intro id t hview
      rw [share, view_insert] at hview
      split at hview
      · exact .inr (by simp [idsAll, ids, *])
      · exact (hsh.grown hview).imp_right fun hid => by simp [idsAll, ids, hid]
    · intro X A hidden xs hids hreads
      have htagHidden : tag.id ∉ hidden := hids _ (by simp [idsAll, ids])
      cases hreads with
      | node hpartsRead hadmits hrest =>
        cases hrest
        have hread := hval.mono hkept A hidden _ (fun i hi => hids i (by simp [idsAll, ids, hi])) hpartsRead
        refine .shared (View.hide_eq_some.mpr ⟨htagHidden, ?_⟩) (.node hread hadmits .nil) .nil
        rw [share, view_insert, if_pos rfl]
  | .seq items, h => by
    obtain ⟨hsh, hval⟩ := shareAll_shares s hs items (places_seq.mp h)
    refine ⟨⟨hsh.sound, hsh.next_eq, ?_, ?_, hsh.kept, ?_⟩, ?_⟩
    · simpa [share, idsAll, ids] using hsh.bare
    · simpa [share, originsAll, origins] using hsh.bareOrigins
    · intro id t hview
      simpa [idsAll, ids] using hsh.grown hview
    · intro X A hidden xs hids hreads
      cases hreads with
      | seq hitems hrest =>
        cases hrest
        exact .seq (hval A hidden _ (by simpa [idsAll, ids] using hids) hitems) .nil
  | .absent, _ =>
    ⟨⟨hs, rfl, rfl, rfl, id, .inl⟩, fun _ _ _ _ hreads => hreads⟩
  | .shared _, _ =>
    ⟨⟨hs, rfl, rfl, rfl, id, .inl⟩, fun _ _ _ _ hreads => hreads⟩

theorem shareAll_shares.{u} (s : Store) (hs : s.Sound) :
    (ts : List Tree) → s.Places ts →
      Shares s ts (s.shareAll ts).2 (s.shareAll ts).1 ∧ SharesValues.{u} s ts (s.shareAll ts).2 (s.shareAll ts).1
  | [], _ => ⟨⟨hs, rfl, rfl, rfl, id, .inl⟩, fun _ _ _ _ hreads => hreads⟩
  | t :: ts, h => by
    have hdisjoint := h.head_disjoint
    have hts := h.tail
    obtain ⟨hsh, hval⟩ := share_shares s hs t h.head
    -- the other trees stand outside as long as their identities are not those of the first
    have hrest : (s.share t).2.Places ts := by
      refine ⟨hts.nodup, ?_, hsh.next_eq ▸ hts.below, hsh.next_eq ▸ hts.originBelow⟩
      intro i hi
      cases hview : (s.share t).2.view i with
      | none => rfl
      | some u =>
        rcases hsh.grown hview with hold | hnew
        · simp [hts.outside i hi] at hold
        · exact absurd hi (hdisjoint i hnew)
    obtain ⟨hsh', hval'⟩ := shareAll_shares (s.share t).2 hsh.sound ts hrest
    refine ⟨⟨hsh'.sound, hsh'.next_eq.trans hsh.next_eq, ?_, ?_, fun hview => hsh'.kept (hsh.kept hview), ?_⟩, ?_⟩
    · simpa [shareAll, idsAll, hsh'.bare] using hsh.bare
    · simpa [shareAll, originsAll, hsh'.bareOrigins] using hsh.bareOrigins
    · intro id u hview
      rcases hsh'.grown hview with hold | hnew
      · exact (hsh.grown hold).imp_right fun hid => by simpa [idsAll] using .inl (by simpa [idsAll] using hid)
      · exact .inr (by simp [idsAll, hnew])
    · intro X A hidden xs hids hreads
      obtain ⟨x, rest, rfl, hread, hreads⟩ := hreads.uncons
      have hhead := hval.mono hsh'.kept A hidden _ (fun i hi => hids i (by simp_all [idsAll])) hread
      have hmid : Reads A ((s.share t).2.view.hide hidden) ts rest := by
        refine hreads.mono fun i u hview => ?_
        obtain ⟨hi, hview⟩ := View.hide_eq_some.mp hview
        exact View.hide_eq_some.mpr ⟨hi, hsh.kept hview⟩
      exact hhead.cons (hval' A hidden _ (fun i hi => hids i (by simp [idsAll, hi])) hmid)

end

mutual

theorem share_of_bare (s : Store) : (t : Tree) → ids t = [] → s.share t = (t, s)
  | .node _ _ _, h => by simp [ids] at h
  | .seq items, h => by rw [share, shareAll_of_bare s items h]
  | .absent, _ => rfl
  | .shared _, _ => rfl

theorem shareAll_of_bare (s : Store) : (ts : List Tree) → idsAll ts = [] → s.shareAll ts = (ts, s)
  | [], _ => rfl
  | t :: ts, h => by
    simp only [idsAll, List.append_eq_nil_iff] at h
    rw [shareAll, share_of_bare s t h.1]
    simp only [shareAll_of_bare s ts h.2]

end

mutual

theorem share_next : (s : Store) → (t : Tree) → (s.share t).2.next = s.next
  | s, .node _ _ parts => shareAll_next s parts
  | s, .seq items => shareAll_next s items
  | _, .absent => rfl
  | _, .shared _ => rfl

theorem shareAll_next : (s : Store) → (ts : List Tree) → (s.shareAll ts).2.next = s.next
  | _, [] => rfl
  | s, t :: ts => by rw [shareAll, shareAll_next (s.share t).2 ts, share_next s t]

end

theorem keep_next (s : Store) (t : Tree) : (s.keep t).next = s.next := by
  cases t with
  | node tag kind parts =>
    rw [keep]
    split
    · exact shareAll_next s parts
    · rfl
  | _ => rfl

theorem Sound.grow {n : Nat} (hs : s.Sound) (hn : s.next ≤ n) : Sound { s with next := n } :=
  ⟨hs.stored, fun hview => Nat.lt_of_lt_of_le (hs.below hview) hn,
    fun hview o ho => Nat.lt_of_lt_of_le (hs.originBelow hview o ho) hn⟩

theorem Places.grow {n : Nat} (h : s.Places ts) (hn : s.next ≤ n) : Places { s with next := n } ts :=
  ⟨h.nodup, h.outside, fun i hi => Nat.lt_of_lt_of_le (h.below i hi) hn,
    fun o ho => Nat.lt_of_lt_of_le (h.originBelow o ho) hn⟩

end Store

/-! ## New trees -/

namespace Tree
variable {t : Tree} {ts : List Tree} {n : Nat}

def Unnumbered (ts : List Tree) : Prop := (∀ i ∈ idsAll ts, i = 0) ∧ ∀ o ∈ originsAll ts, o = 0

theorem Unnumbered.append {us : List Tree} (h : Unnumbered ts) (h' : Unnumbered us) : Unnumbered (ts ++ us) := by
  simp only [Unnumbered, idsAll_append, originsAll_append, List.mem_append]
  exact ⟨fun i hi => hi.elim (h.1 i) (h'.1 i), fun o ho => ho.elim (h.2 o) (h'.2 o)⟩

theorem unnumbered_of_bare (hids : idsAll ts = []) (horigins : originsAll ts = []) : Unnumbered ts := by
  simp [Unnumbered, hids, horigins]

theorem Unnumbered.head (h : Unnumbered (t :: ts)) : Unnumbered [t] :=
  ⟨fun i hi => h.1 i (by simp_all [idsAll]), fun o ho => h.2 o (by simp_all [originsAll])⟩

theorem Unnumbered.tail (h : Unnumbered (t :: ts)) : Unnumbered ts :=
  ⟨fun i hi => h.1 i (by simp [idsAll, hi]), fun o ho => h.2 o (by simp [originsAll, ho])⟩

theorem Unnumbered.parts {tag : Tag} {kind : Kind} {parts : List Tree}
    (h : Unnumbered [.node tag kind parts]) : Unnumbered parts :=
  ⟨fun i hi => h.1 i (by simp [idsAll, ids, hi]), fun o ho => h.2 o (by simp [originsAll, origins, ho])⟩

theorem Unnumbered.items {items : List Tree} (h : Unnumbered [.seq items]) : Unnumbered items :=
  ⟨fun i hi => h.1 i (by simp [idsAll, ids, hi]), fun o ho => h.2 o (by simp [originsAll, origins, ho])⟩

mutual

theorem number_of_bare : (t : Tree) → (n : Nat) → ids t = [] → t.number n = (t, n)
  | .node _ _ _, _, h => by simp [ids] at h
  | .seq items, n, h => by simp only [number, numberAll_of_bare items n h]
  | .absent, _, _ => rfl
  | .shared _, _, _ => rfl

theorem numberAll_of_bare : (ts : List Tree) → (n : Nat) → idsAll ts = [] → numberAll n ts = (ts, n)
  | [], _, _ => rfl
  | t :: ts, n, h => by
    simp only [idsAll, List.append_eq_nil_iff] at h
    simp only [numberAll, number_of_bare t n h.1, numberAll_of_bare ts n h.2]

end

theorem numberAll_append (n : Nat) (ts us : List Tree) :
    numberAll n (ts ++ us) =
      ((numberAll n ts).1 ++ (numberAll (numberAll n ts).2 us).1, (numberAll (numberAll n ts).2 us).2) := by
  induction ts generalizing n with
  | nil => rfl
  | cons t ts ih => simp only [List.cons_append, numberAll, ih]

mutual

theorem number_ids : (t : Tree) → (n : Nat) → Unnumbered [t] →
    ids (t.number n).1 = List.range' n (ids t).length ∧ (t.number n).2 = n + (ids t).length
  | .node tag kind parts, n, h => by
    have htag : tag.id = 0 := h.1 _ (by simp [idsAll, ids])
    obtain ⟨hids, hnext⟩ := numberAll_ids parts (n + 1) h.parts
    simp only [number, htag, beq_self_eq_true, if_true, ids, hids, hnext, List.length_cons,
      List.range'_succ, true_and]
    omega
  | .seq items, n, h => numberAll_ids items n h.items
  | .absent, _, _ => ⟨rfl, rfl⟩
  | .shared _, _, _ => ⟨rfl, rfl⟩

theorem numberAll_ids : (ts : List Tree) → (n : Nat) → Unnumbered ts →
    idsAll (numberAll n ts).1 = List.range' n (idsAll ts).length ∧
      (numberAll n ts).2 = n + (idsAll ts).length
  | [], _, _ => ⟨rfl, rfl⟩
  | t :: ts, n, h => by
    obtain ⟨hids, hnext⟩ := number_ids t n h.head
    obtain ⟨hrest, hend⟩ := numberAll_ids ts (t.number n).2 h.tail
    simp only [numberAll, idsAll, hids, hrest, hend, List.length_append]
    rw [hnext, List.range'_append_1]
    exact ⟨rfl, Nat.add_assoc _ _ _⟩

end

mutual

theorem number_origins : (t : Tree) → (n : Nat) → Unnumbered [t] →
    ∀ o ∈ origins (t.number n).1, o ∈ ids (t.number n).1
  | .node tag kind parts, n, h => by
    intro o ho
    simp only [number, origins, ids, List.mem_append, List.mem_cons, Option.mem_toList] at ho ⊢
    rcases ho with hown | hparts
    · left
      cases kind with
      | constant l =>
        have horigin : l.origin = 0 := h.2 _ (by simp [originsAll, origins, Kind.origin?])
        simp only [Kind.origin?, horigin, beq_self_eq_true, if_true, Option.some.injEq] at hown
        exact hown.symm
      | _ => simp [Kind.origin?] at hown
    · exact .inr (numberAll_origins parts _ h.parts o hparts)
  | .seq items, n, h => numberAll_origins items n h.items
  | .absent, _, _ => by simp [number, origins]
  | .shared _, _, _ => by simp [number, origins]

theorem numberAll_origins : (ts : List Tree) → (n : Nat) → Unnumbered ts →
    ∀ o ∈ originsAll (numberAll n ts).1, o ∈ idsAll (numberAll n ts).1
  | [], _, _ => by simp [numberAll, originsAll]
  | t :: ts, n, h => by
    intro o ho
    simp only [numberAll, originsAll, idsAll, List.mem_append] at ho ⊢
    exact ho.imp (number_origins t n h.head o) (numberAll_origins ts _ h.tail o)

end
end Tree

namespace Store
open Tree
variable {s : Store} {t : Tree}

theorem adopt_eq (s : Store) (t : Tree) :
    s.adopt t = ((t.number s.next).1, { s with next := (t.number s.next).2 }) := rfl

theorem next_le_adopt (h : Unnumbered [t]) : s.next ≤ (s.adopt t).2.next := by
  rw [adopt_eq, (number_ids t s.next h).2]
  exact Nat.le_add_right _ _

theorem adopt_ids (h : Unnumbered [t]) : ∀ i ∈ idsAll [(s.adopt t).1], s.next ≤ i ∧ i < (s.adopt t).2.next := by
  intro i hi
  have hids : i ∈ ids (t.number s.next).1 := by simpa [idsAll, adopt_eq] using hi
  rw [(number_ids t s.next h).1, List.mem_range'_1] at hids
  rw [adopt_eq, (number_ids t s.next h).2]
  exact hids

theorem adopt_places (hs : s.Sound) (h : Unnumbered [t]) : (s.adopt t).2.Places [(s.adopt t).1] := by
  refine ⟨?_, ?_, fun i hi => (adopt_ids h i hi).2, ?_⟩
  · simp only [adopt_eq, idsAll, List.append_nil, (number_ids t s.next h).1]
    exact List.nodup_range'
  · intro i hi
    cases hview : (s.adopt t).2.view i with
    | none => rfl
    | some u =>
      have hlt : i < s.next := hs.below (t := u) hview
      have hge := (adopt_ids h i hi).1
      omega
  · intro o ho
    have hmem := number_origins t s.next h o (by simpa [originsAll, adopt_eq] using ho)
    exact (adopt_ids h o (by simpa [idsAll, adopt_eq] using hmem)).2

theorem Sound.empty : Sound {} := by
  constructor <;> simp [view]

theorem adopt_carries (hs : s.Sound) (h : Unnumbered [t]) (hrefs : refs t = []) :
    (s.adopt t).2.Carries (s.adopt t).1 where
  sound := hs.grow (next_le_adopt h)
  places := adopt_places hs h
  resolves := by
    refine ⟨_, reads_plain _ ?_ (Reading.fits_of_admits (fun _ _ => trivial) _)⟩
    rw [adopt_eq, number_refs, hrefs]

end Store
end SourceOptimizer
