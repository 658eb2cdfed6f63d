import SourceOptimizer.Proofs.Repetition

/-! The search for lines. Every visit of a module ends with a search for nodes without a line, which get that of the node
they stand in. What is found has a line from then on, so that the next search finds nothing. -/
namespace SourceOptimizer
open Store Tree

variable {t : Tree}

namespace Tree

mutual

/-- The nodes that stand in a tree and can have a line have one. -/
def Lined : Tree → Prop
  | .node tag kind parts => (kind.hasLine = true → tag.line.isSome = true) ∧ LinedAll parts
  | .seq items => LinedAll items
  | .absent => True
  | .shared _ => True

def LinedAll : List Tree → Prop
  | [] => True
  | t :: ts => Lined t ∧ LinedAll ts

end
end Tree

namespace Store
variable {s m s' : Store}

/-- Shared nodes have kept what they refer to, and lines where they had them. -/
structure GainsLines (s s' : Store) : Prop where
  next : s'.next = s.next
  size : s'.nodes.size = s.nodes.size
  missing : ∀ {id}, s.view id = none → s'.view id = none
  stored : ∀ {id t}, s.view id = some t → ∃ t', s'.view id = some t' ∧ refs t' = refs t ∧ (Lined t → Lined t')

theorem GainsLines.refl (s : Store) : GainsLines s s := ⟨rfl, rfl, id, fun h => ⟨_, h, rfl, id⟩⟩

theorem GainsLines.trans (h : GainsLines s m) (h' : GainsLines m s') : GainsLines s s' where
  next := h'.next.trans h.next
  size := h'.size.trans h.size
  missing hid := h'.missing (h.missing hid)
  stored hid := by
    obtain ⟨t₁, hview₁, hrefs₁, hlined₁⟩ := h.stored hid
    obtain ⟨t₂, hview₂, hrefs₂, hlined₂⟩ := h'.stored hview₁
    exact ⟨t₂, hview₂, hrefs₂.trans hrefs₁, fun hl => hlined₂ (hlined₁ hl)⟩

def LinedWithin (v : View) : Nat → Tree → Prop
  | 0, _ => True
  | depth + 1, t => Lined t ∧ ∀ id ∈ refs t, ∀ u, v id = some u → LinedWithin v depth u

theorem GainsLines.within (h : GainsLines s s') (depth : Nat) {t' : Tree} (hrefs : refs t' = refs t)
    (hlined : Lined t → Lined t') (ht : LinedWithin s.view depth t) : LinedWithin s'.view depth t' := by
  induction depth generalizing t t' with
  | zero => trivial
  | succ depth ih =>
    refine ⟨hlined ht.1, fun id hid u' hu' => ?_⟩
    cases hview : s.view id with
    | none => simp [h.missing hview] at hu'
    | some u =>
      obtain ⟨u'', hview', hrefs', hlined'⟩ := h.stored hview
      cases hview'.symm.trans hu'
      exact ih hrefs' hlined' (ht.2 id (hrefs ▸ hid) u hview)

section
set_option linter.unusedSectionVars false
variable {again : Nat → Nat → Store → Store} (hagain : ∀ line id s, GainsLines s (again line id s))
include hagain

mutual

theorem locateWith_gains :
    (line : Nat) → (t : Tree) → (s : Store) → refs (locateWith again line t s).1 = refs t ∧
      Lined (locateWith again line t s).1 ∧ GainsLines s (locateWith again line t s).2
  | line, .node tag kind parts, s => by
    obtain ⟨hrefs, hlined, hgains⟩ := locateAll_gains (if kind.hasLine then
      (if kind.hasLine && tag.line.isNone then { tag with line := some line } else tag).line.getD line else line) parts s
    refine ⟨hrefs, ⟨fun hkind => ?_, hlined⟩, hgains⟩
    cases hline : tag.line <;> simp [hkind, hline]
  | line, .seq items, s => locateAll_gains line items s
  | _, .absent, s => ⟨rfl, trivial, .refl s⟩
  | line, .shared id, s => ⟨rfl, trivial, hagain line id s⟩

theorem locateAll_gains :
    (line : Nat) → (ts : List Tree) → (s : Store) → refsAll (locateAll again line ts s).1 = refsAll ts ∧
      LinedAll (locateAll again line ts s).1 ∧ GainsLines s (locateAll again line ts s).2
  | _, [], s => ⟨rfl, trivial, .refl s⟩
  | line, t :: ts, s => by
    obtain ⟨hrefs, hlined, hgains⟩ := locateWith_gains line t s
    obtain ⟨hrefs', hlined', hgains'⟩ := locateAll_gains line ts (locateWith again line t s).2
    refine ⟨?_, ⟨hlined, hlined'⟩, hgains.trans hgains'⟩
    simp only [locateAll, refsAll, hrefs, hrefs']

end

variable {depth : Nat}
  (hreach : ∀ line id s u, (again line id s).view id = some u → LinedWithin (again line id s).view depth u)
include hreach

mutual

theorem locateWith_reaches :
    (line : Nat) → (t : Tree) → (s : Store) → ∀ id ∈ refs t, ∀ u, (locateWith again line t s).2.view id = some u →
      LinedWithin (locateWith again line t s).2.view depth u
  | _, .node _ _ parts, s => locateAll_reaches _ parts s
  | line, .seq items, s => locateAll_reaches line items s
  | _, .absent, _ => by simp [refs]
  | line, .shared other, s => by
    intro id hid u hview
    obtain rfl : id = other := by simpa [refs] using hid
    exact hreach line id s u hview

theorem locateAll_reaches :
    (line : Nat) → (ts : List Tree) → (s : Store) → ∀ id ∈ refsAll ts, ∀ u, (locateAll again line ts s).2.view id = some u →
      LinedWithin (locateAll again line ts s).2.view depth u
  | _, [], _ => by simp [refsAll]
  | line, t :: ts, s => by
    intro id hid u hview
    have hgains := (locateAll_gains hagain line ts (locateWith again line t s).2).2.2
    rcases List.mem_append.mp hid with hid | hid
    · cases hfirst : (locateWith again line t s).2.view id with
      | none => cases (hgains.missing hfirst).symm.trans hview
      | some w =>
        obtain ⟨w', hview', hrefs, hlined⟩ := hgains.stored hfirst
        cases hview'.symm.trans hview
        exact hgains.within depth hrefs hlined (locateWith_reaches line t s id hid w hfirst)
    · exact locateAll_reaches line ts _ id hid u hview

end

end

theorem GainsLines.insert {id : Nat} {u : Tree} (hview : s.view id = some u) (hrefs : refs t = refs u)
    (hlined : Lined u → Lined t) : GainsLines s { s with nodes := s.nodes.insert id t } where
  next := rfl
  size := by
    have hmem : id ∈ s.nodes := by
      rw [← Std.HashMap.isSome_getElem?_iff_mem, show s.nodes[id]? = some u from hview]
      rfl
    simp [Std.HashMap.size_insert, hmem]
  missing {other} hother := by
    rw [view_insert]
    split
    next heq =>
      cases hview.symm.trans (heq ▸ hother)
    next => exact hother
  stored {other w} hother := by
    rw [view_insert]
    split
    next heq =>
      subst heq
      cases hview.symm.trans hother
      exact ⟨t, rfl, hrefs, hlined⟩
    next => exact ⟨w, hother, rfl, fun h => h⟩

def locateShared (depth line id : Nat) (s : Store) : Store :=
  match s.nodes[id]? with
  | some t =>
    let (t, s) := locateWithin depth line t s
    { s with nodes := s.nodes.insert id t }
  | none => s

theorem locateWithin_succ (depth line : Nat) (t : Tree) (s : Store) :
    locateWithin (depth + 1) line t s = locateWith (locateShared depth) line t s := rfl

theorem locateWithin_gains (depth line : Nat) (t : Tree) (s : Store) :
    refs (locateWithin depth line t s).1 = refs t ∧ (Lined t → Lined (locateWithin depth line t s).1) ∧
      GainsLines s (locateWithin depth line t s).2 ∧ ∀ line id s, GainsLines s (locateShared depth line id s) := by
  induction depth generalizing line t s with
  | zero =>
    refine ⟨rfl, id, .refl s, fun line id s => ?_⟩
    unfold locateShared
    split
    next u hview => exact .insert hview rfl fun h => h
    next => exact .refl s
  | succ depth ih =>
    have hagain := (ih 0 .absent s).2.2.2
    have hsearch (line : Nat) (t : Tree) (s : Store) := locateWith_gains hagain line t s
    refine ⟨(hsearch line t s).1, fun _ => (hsearch line t s).2.1, (hsearch line t s).2.2, fun line id s => ?_⟩
    unfold locateShared
    split
    next u hview =>
      obtain ⟨hrefs, hlined, hgains⟩ := hsearch line u s
      obtain ⟨u', hview', hrefs', _⟩ := hgains.stored hview
      exact hgains.trans (.insert hview' (hrefs.trans hrefs'.symm) fun _ => hlined)
    next => exact .refl s

theorem locateWithin_lined (depth line : Nat) (t : Tree) (s : Store) :
    LinedWithin (locateWithin depth line t s).2.view depth (locateWithin depth line t s).1 := by
  induction depth generalizing line t s with
  | zero => trivial
  | succ depth ih =>
    have hagain := (locateWithin_gains depth 0 .absent s).2.2.2
    rw [locateWithin_succ]
    obtain ⟨hrefs, hlined, _⟩ := locateWith_gains hagain line t s
    refine ⟨hlined, fun id hid => ?_⟩
    rw [hrefs] at hid
    refine locateWith_reaches hagain (fun line id s u hview => ?_) line t s id hid
    unfold locateShared at hview ⊢
    split at hview
    next w hstored =>
      rw [view_insert, if_pos rfl] at hview
      cases hview
      cases depth with
      | zero => trivial
      | succ depth =>
        -- the node that is put back has its lines, so that nothing is lost
        obtain ⟨hrefs, _, hgains, _⟩ := locateWithin_gains (depth + 1) line w s
        obtain ⟨w', hview', hrefs', _⟩ := hgains.stored hstored
        have hsearched := ih line w s
        exact (GainsLines.insert hview' (hrefs.trans hrefs'.symm) fun _ => hsearched.1).within _ rfl (fun h => h) hsearched
    next hnone => cases hnone.symm.trans hview

mutual

theorem locateWith_same {again : Nat → Nat → Store → Store} {q : Store} : (line : Nat) → (t : Tree) → (s : Store) →
    (∀ line s, ∀ id ∈ refs t, q.Alike s → q.Alike (again line id s)) → Lined t → q.Alike s →
    (locateWith again line t s).1 = t ∧ q.Alike (locateWith again line t s).2
  | line, .node tag kind parts, s, hagain, hlined, hs => by
    have htag : (if kind.hasLine && tag.line.isNone then { tag with line := some line } else tag) = tag := by
      rw [if_neg]
      intro h
      simp only [Bool.and_eq_true] at h
      have hsome := hlined.1 h.1
      cases hline : tag.line <;> simp_all
    obtain ⟨hparts, hstore⟩ := locateAll_same (if kind.hasLine then tag.line.getD line else line) parts s hagain hlined.2 hs
    simp only [locateWith, htag, hparts]
    exact ⟨trivial, hstore⟩
  | line, .seq items, s, hagain, hlined, hs => by
    obtain ⟨hitems, hstore⟩ := locateAll_same line items s hagain hlined hs
    simp only [locateWith, hitems]
    exact ⟨trivial, hstore⟩
  | _, .absent, _, _, _, hs => ⟨rfl, hs⟩
  | line, .shared id, s, hagain, _, hs => ⟨rfl, hagain line s id (by simp [refs]) hs⟩

theorem locateAll_same {again : Nat → Nat → Store → Store} {q : Store} : (line : Nat) → (ts : List Tree) → (s : Store) →
    (∀ line s, ∀ id ∈ refsAll ts, q.Alike s → q.Alike (again line id s)) → LinedAll ts → q.Alike s →
    (locateAll again line ts s).1 = ts ∧ q.Alike (locateAll again line ts s).2
  | _, [], _, _, _, hs => ⟨rfl, hs⟩
  | line, t :: ts, s, hagain, hlined, hs => by
    obtain ⟨ht, hstore⟩ := locateWith_same line t s (fun line s id hid => hagain line s id (List.mem_append_left _ hid))
      hlined.1 hs
    obtain ⟨hts, hstore⟩ := locateAll_same line ts _ (fun line s id hid => hagain line s id (List.mem_append_right _ hid))
      hlined.2 hstore
    simp only [locateAll, ht, hts]
    exact ⟨trivial, hstore⟩

end

theorem locateWithin_same (depth line : Nat) {q : Store} (h : LinedWithin q.view depth t) (hs : q.Alike s) :
    (locateWithin depth line t s).1 = t ∧ q.Alike (locateWithin depth line t s).2 := by
  induction depth generalizing line t s with
  | zero => exact ⟨rfl, hs⟩
  | succ depth ih =>
    refine locateWith_same line t s (fun line s id hid hs => ?_) h.1 hs
    split
    next u hview =>
      have hu : q.view id = some u := hs.view ▸ hview
      obtain ⟨ht, hstore⟩ := ih line (h.2 id hid u hu) hs
      simp only [ht]
      refine hstore.trans ⟨?_, rfl⟩
      funext other
      rw [view_insert]
      split
      next heq => rw [heq, hstore.view, hu]
      next => rfl
    next => exact hs

def Located (s : Store) (t : Tree) : Prop := (s.locate t).1 = t ∧ s.Alike (s.locate t).2

theorem located_locate (s : Store) (t : Tree) : Located (s.locate t).2 (s.locate t).1 := by
  have hsize : (s.locate t).2.nodes.size = s.nodes.size := (locateWithin_gains _ 1 t s).2.2.1.size
  have hlined : LinedWithin (s.locate t).2.view ((s.locate t).2.nodes.size + 1) (s.locate t).1 := by
    rw [hsize]
    exact locateWithin_lined _ 1 t s
  exact locateWithin_same _ 1 hlined (.refl _)

theorem Located.of_alike (h : Located s t) (hsame : s.Alike m) : Located m t := by
  obtain ⟨ht, hstore⟩ := hsame.locate t
  exact ⟨ht.trans h.1, hsame.symm.trans (h.2.trans hstore)⟩

end Store

end SourceOptimizer
