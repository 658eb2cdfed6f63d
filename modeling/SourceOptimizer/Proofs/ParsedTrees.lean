import SourceOptimizer.Proofs.Phrases
import SourceOptimizer.Proofs.Standing

/-! Trees as the rules build them. Nothing in a new tree is shared or has an identity, a branch or a loop
stands only in a list of statements, and the parameters of a function are parameters. -/
namespace SourceOptimizer

namespace Grammar
open Tree

variable {tag : Tag} {a b c acc test body other : Tree} {marked : Bool} {p : Parameters} {operand : Rule Tree}
  {decorators : List Tree}

variable {α β : Type} {P Q : α → Prop}

/-! ## Rules and what they yield -/

def Yields (P : α → Prop) (r : Rule α) : Prop := ∀ ts a ts', r ts = .ok (a, ts') → P a

namespace Yields

theorem pure {a : α} (h : P a) : Yields P (pure a : Rule α) := by
  intro ts b ts' hb
  cases hb
  exact h

theorem bind {P : β → Prop} {r : Rule α} {f : α → Rule β} (hr : Yields Q r) (hf : ∀ {a}, Q a → Yields P (f a)) :
    Yields P (r >>= f) := by
  intro ts b ts' hb
  obtain ⟨a, m, ha, hb⟩ := bind_ok.mp hb
  exact hf (hr ts a m ha) m b ts' hb

theorem after {P : β → Prop} {r : Rule α} {f : α → Rule β} (hf : ∀ {a}, Yields P (f a)) : Yields P (r >>= f) :=
  bind (Q := fun _ => True) (fun _ _ _ _ => trivial) fun _ => hf

theorem throw {e : SyntaxCause} : Yields P (throw e : Rule α) := by
  intro ts a ts' h
  cases h

theorem refuse : Yields P (refuse : Rule α) := after throw

theorem refuseMissing : Yields P (refuseMissing : Rule α) := by
  refine after fun {_} => ?_
  split <;> exact throw

theorem refuseWord : Yields P (refuseWord : Rule α) := by
  refine after fun {_} => ?_
  split <;> exact throw

theorem stop {P : β → Prop} {r : Rule α} {f : α → Rule β} (hr : Yields (fun _ => False) r) : Yields P (r >>= f) :=
  bind hr fun ha => ha.elim

theorem ite {c : Prop} [Decidable c] {a b : Rule α} (ha : Yields P a) (hb : Yields P b) :
    Yields P (if c then a else b) := by
  split
  · exact ha
  · exact hb

theorem fork {P : β → Prop} {r : Rule α} {c : α → Prop} [∀ a, Decidable (c a)] {x y : Rule β} (hx : Yields P x)
    (hy : Yields P y) : Yields P (r >>= fun a => if c a then x else y) := after <| ite hx hy

theorem found {r : Rule α} (hr : Yields P r) : Yields (fun o => ∀ a ∈ o, P a) (do return some (← r)) :=
  bind hr fun ha => pure (by simpa using ha)

theorem nothing : Yields (fun o => ∀ a ∈ o, P a) (Pure.pure none) := pure (by simp)

theorem either {P : β → Prop} {c : Prop} [Decidable c] {a b : Rule α} {f : α → Rule β} (ha : Yields Q a) (hb : Yields Q b)
    (hf : ∀ {x}, Q x → Yields P (f x)) : Yields P (if c then a >>= f else b >>= f) := ite (bind ha hf) (bind hb hf)

theorem orElse {a b : Rule α} (ha : Yields P a) (hb : Yields P b) : Yields P (orElse a b) := by
  intro ts x ts' h
  unfold Grammar.orElse at h
  split at h
  next heq =>
    cases h
    exact ha ts x ts' heq
  · exact hb ts x ts' h

theorem optionally {r : Rule α} (hr : Yields P r) : Yields (fun o => ∀ a ∈ o, P a) (optionally r) :=
  orElse (found hr) nothing

theorem repeatUpTo {r : Rule (Option α)} (hr : Yields (fun o => ∀ a ∈ o, P a) r) (n : Nat) :
    Yields (fun as => ∀ a ∈ as, P a) (repeatUpTo n r) := by
  induction n with
  | zero => exact pure (by simp)
  | succ n ih =>
    refine bind hr fun {o} ho => ?_
    cases o with
    | none => exact pure (by simp)
    | some a => exact bind ih fun has => pure (by simpa using ⟨ho a rfl, has⟩)

theorem many {r : Rule (Option α)} (hr : Yields (fun o => ∀ a ∈ o, P a) r) :
    Yields (fun as => ∀ a ∈ as, P a) (many r) := by
  refine bind hr fun {o} ho => ?_
  cases o with
  | none => exact pure (by simp)
  | some a => exact after <| bind (repeatUpTo hr _) fun has => pure (by simpa using ⟨ho a rfl, has⟩)

theorem whenever {b : Rule Bool} {r : Rule α} (hr : Yields P r) :
    Yields (fun o => ∀ a ∈ o, P a) (do if ← b then return some (← r) else return none) :=
  fork (found hr) nothing

theorem moreItems {closes : Rule Bool} {item : Rule α} (h : Yields P item) :
    Yields (fun as => ∀ a ∈ as, P a) (moreItems closes item) :=
  many (fork (after <| fork nothing (found h)) nothing)

theorem commaItems {closes : Rule Bool} {item : Rule α} (h : Yields P item) :
    Yields (fun p => ∀ a ∈ p.1, P a) (commaItems closes item) :=
  bind h fun ha => after <| bind (moreItems h) fun has => after <| pure (by simpa using ⟨ha, has⟩)

theorem mapM {P : β → Prop} {f : α → Rule β} {as : List α} (h : ∀ a ∈ as, Yields P (f a)) :
    Yields (fun bs => ∀ b ∈ bs, P b) (as.mapM f) := by
  induction as with
  | nil =>
    exact pure (by simp)
  | cons a as ih =>
    rw [List.mapM_cons]
    refine bind (h a (by simp)) fun hb => bind (ih fun a ha => h a (by simp [ha])) fun hbs => pure ?_
    simpa using ⟨hb, hbs⟩

end Yields

/-! ## New trees -/

structure New (t : Tree) : Prop where
  plain : refs t = []
  unnumbered : Unnumbered [t]
  fits : every fits t = true

/-- A new tree that can stand anywhere. -/
structure Part (t : Tree) : Prop extends New t where
  single : t.isBranch = false

def Suite (t : Tree) : Prop := Part t ∧ ∃ items, t = .seq items

def plainKind : Kind → Bool
  | .ifStmt | .whileStmt | .functionDef _ | .classDef _ | .arguments => false
  | .constant l => l.origin == 0
  | _ => true

variable {t : Tree} {ts us : List Tree} {line : Nat} {kind : Kind}

theorem forall_snoc {a : α} {as : List α} (has : ∀ x ∈ as, P x) (ha : P a) : ∀ x ∈ as ++ [a], P x :=
  List.forall_mem_append.mpr ⟨has, by simpa using ha⟩

theorem new_lists (h : ∀ t ∈ ts, New t) : refsAll ts = [] ∧ Unnumbered ts ∧ everyAll fits ts = true := by
  induction ts with
  | nil => exact ⟨rfl, unnumbered_of_bare rfl rfl, rfl⟩
  | cons t ts ih =>
    obtain ⟨hplain, hunnumbered, hfits⟩ := ih fun t ht => h t (by simp [ht])
    have ht := h t (by simp)
    exact ⟨by rw [refsAll, ht.plain, hplain, List.append_nil], ht.unnumbered.append hunnumbered,
      by rw [everyAll, ht.fits, hfits, Bool.and_self]⟩

theorem part_absent : Part .absent := ⟨⟨rfl, unnumbered_of_bare rfl rfl, rfl⟩, rfl⟩

theorem part_seq (h : ∀ t ∈ ts, New t) : Part (.seq ts) := by
  obtain ⟨hplain, hunnumbered, hfits⟩ := new_lists h
  refine ⟨⟨hplain, ?_, hfits⟩, rfl⟩
  simpa [Unnumbered, idsAll, ids, originsAll, origins] using hunnumbered

theorem part_optional {o : Option Tree} (h : ∀ t ∈ o, Part t) : Part (optional o) := by
  cases o with
  | none => exact part_absent
  | some t => exact h t rfl

theorem new_node (htag : tag.id = 0) (horigin : ∀ o ∈ kind.origin?, o = 0) (hparts : ∀ p ∈ ts, Part p)
    (hshape : hasShape kind ts = true) : New (.node tag kind ts) := by
  obtain ⟨hplain, hunnumbered, hfits⟩ := new_lists fun p hp => (hparts p hp).toNew
  refine ⟨hplain, ⟨?_, ?_⟩, every_node.mpr ⟨?_, hfits⟩⟩
  · simpa [idsAll, ids, htag] using hunnumbered.1
  · simpa [originsAll, origins, or_imp, forall_and] using ⟨horigin, hunnumbered.2⟩
  · simpa [Tree.fits, hshape] using fun p hp => (hparts p hp).single

theorem part_of_parts (htag : tag.id = 0) (hkind : plainKind kind = true) (hparts : ∀ p ∈ ts, Part p) :
    Part (.node tag kind ts) := by
  have hsingle : isBranch (.node tag kind ts) = false := by
    cases kind <;> first | rfl | cases hkind
  have hshape : hasShape kind ts = true := by
    cases kind <;> first | rfl | cases hkind
  have horigin : ∀ o ∈ kind.origin?, o = 0 := by
    intro o ho
    cases kind with
    | constant l =>
      cases ho
      simpa [plainKind] using hkind
    | _ => cases ho
  exact ⟨new_node htag horigin hparts hshape, hsingle⟩

theorem part_node (hkind : plainKind kind = true) (hparts : ∀ p ∈ ts, Part p) : Part (node line kind ts) :=
  part_of_parts rfl hkind hparts

theorem part_leaf (hkind : plainKind kind = true) : Part (node line kind []) := part_node hkind (by simp)

theorem part_one (hkind : plainKind kind = true) (ha : Part a) : Part (node line kind [a]) :=
  part_node hkind (by simpa using ha)

theorem part_two (hkind : plainKind kind = true) (ha : Part a) (hb : Part b) : Part (node line kind [a, b]) :=
  part_node hkind (by simp [ha, hb])

theorem part_three (hkind : plainKind kind = true) (ha : Part a) (hb : Part b) (hc : Part c) :
    Part (node line kind [a, b, c]) :=
  part_node hkind (by simp [ha, hb, hc])

theorem parts_one (ha : Part a) : ∀ p ∈ [a], Part p := by simpa using ha

theorem parts_two (ha : Part a) (hb : Part b) : ∀ p ∈ [a, b], Part p := by simp [ha, hb]

theorem parts_three (ha : Part a) (hb : Part b) (hc : Part c) : ∀ p ∈ [a, b, c], Part p := by
  simp [ha, hb, hc]

theorem parts_four {d : Tree} (ha : Part a) (hb : Part b) (hc : Part c) (hd : Part d) :
    ∀ p ∈ [a, b, c, d], Part p := by
  simp [ha, hb, hc, hd]

theorem part_list (h : ∀ t ∈ ts, Part t) : Part (.seq ts) := part_seq fun t ht => (h t ht).toNew

theorem parts_cons (ht : Part t) (hts : ∀ t ∈ ts, Part t) : ∀ u ∈ t :: ts, Part u := by simpa using ⟨ht, hts⟩

theorem part_row (hkind : plainKind kind = true) (h : ∀ t ∈ ts, Part t) : Part (node line kind [.seq ts]) :=
  part_one hkind (part_list h)

theorem part_tuple (h : ∀ t ∈ ts, Part t) : Part (node line (.tuple .load) [.seq ts]) := part_row rfl h

theorem Yields.wrap {r : Rule Tree} (hkind : plainKind kind = true) (hr : Yields Part r) :
    Yields Part (do return node line kind [← r]) := bind hr fun ht => pure (part_one hkind ht)

/-! ## Texts -/

def NewPiece : Piece → Prop
  | .codes _ => True
  | .value t => Part t

theorem part_text {codes : List Nat} : Part (textNode line marked codes) := part_leaf rfl

theorem parts_joinPieces (ps : List Piece) (acc : List Nat) (h : ∀ p ∈ ps, NewPiece p) :
    ∀ t ∈ joinPieces line marked acc ps, Part t := by
  induction ps generalizing acc with
  | nil =>
    rw [joinPieces]
    split
    · simp
    · exact parts_one part_text
  | cons p ps ih =>
    have hps : ∀ p ∈ ps, NewPiece p := fun p hp => h p (by simp [hp])
    cases p with
    | codes codes => exact ih _ hps
    | value t =>
      have ht : Part t := h (.value t) (by simp)
      rw [joinPieces]
      split
      · exact parts_cons ht (ih _ hps)
      · exact parts_cons part_text (parts_cons ht (ih _ hps))

theorem Yields.codesOf (raw : Bool) (cs : List Char) : Yields NewPiece (codesOf raw cs) := by
  unfold Grammar.codesOf
  split
  · exact pure trivial
  · exact throw

section Rules
variable {rules : Rules} (h : ∀ goal, Yields Part (rules goal))
include h

namespace Yields

theorem readEmbedded (line : Nat) (cs : List Char) : Yields Part (readEmbedded rules line cs) := by
  refine ite throw (after <| after <| bind (h _) fun ht => after fun {_} => ?_)
  split
  · exact after <| pure ht
  · exact throw

theorem formattedPieces (raw : Bool) (ls : Lines) (fuel depth : Nat) (cs : List Char) :
    Yields (fun p => ∀ q ∈ p.1, NewPiece q) (formattedPieces rules raw ls fuel depth cs) := by
  induction fuel generalizing depth cs with
  | zero => exact throw
  | succ fuel ih =>
    unfold Grammar.formattedPieces
    split
    · exact throw
    refine bind (codesOf raw _) fun htext => ite (bind (ih _ _) fun {p} hp => ?_) ?_
    · obtain ⟨ps, rest⟩ := p
      exact pure (by simpa using ⟨htext, hp⟩)
    split
    next inner _ =>
      refine ite (stop throw) ?_
      split
      · exact throw
      refine bind (readEmbedded h _ _) fun {value} hvalue => ?_
      split
      next shown rest _ =>
      extract_lets -underBinder close
      -- after the expression stand a conversion, a format and the closing brace
      have hclose {x : Option Char × List Char} : Yields (fun p => ∀ q ∈ p.1, NewPiece q) (close x) := by
        obtain ⟨conversion, rest⟩ := x
        unfold close
        dsimp -zeta only
        extract_lets -underBinder field
        have hfield {x : Option Tree × List Char} (hformat : ∀ t ∈ x.1, Part t) :
            Yields (fun p => ∀ q ∈ p.1, NewPiece q) (field x) := by
          unfold field
          split
          · refine bind (ih _ _) fun {p} hp => pure ?_
            have hvalue (c : Option Char) : NewPiece (.value (node ls.first (.formattedValue c) [value, optional x.1])) :=
              part_two rfl hvalue (part_optional hformat)
            simpa using ⟨htext, trivial, hvalue _, hp⟩
          · exact throw
        split
        · refine ite (stop throw) (bind (ih _ _) fun hp => bind (Q := fun x => ∀ t ∈ x.1, Part t) (pure ?_) hfield)
          simpa using part_row rfl (parts_joinPieces _ _ hp)
        · exact bind (pure (by simp)) hfield
      split
      · exact ite (after hclose) (stop throw)
      · exact stop throw
      · exact after hclose
    · exact pure (by simpa using htext)

theorem literalPieces (first : Nat) (marked : Bool) (line : Nat) (t : StringToken) :
    Yields (fun ps => ∀ p ∈ ps, NewPiece p) (literalPieces rules first marked line t) := by
  refine ite (bind (formattedPieces h _ _ _ _ _) fun hp => ite (pure hp) throw) ?_
  exact bind (codesOf _ _) fun hq => pure (by simpa using hq)

theorem strings : Yields Part (strings rules) := by
  refine after fun {line} => after fun {row} => ite (ite ?_ throw) ?_
  · split
    · exact pure (part_leaf rfl)
    · exact throw
  · refine bind (mapM fun p _ => literalPieces h _ _ _ _) fun {pieces} hpieces => ?_
    have hparts : ∀ t ∈ joinPieces line ((row.head?.map (·.2.marked)).getD false) [] pieces.flatten, Part t :=
      parts_joinPieces _ _ fun p hp => by
        obtain ⟨ps, hps, hp⟩ := List.mem_flatten.mp hp
        exact hpieces ps hps p hp
    refine ite (pure (part_row rfl hparts)) ?_
    split
    next t heq =>
      rw [heq] at hparts
      exact pure (hparts t (by simp))
    · exact pure part_text

end Yields
end Rules

/-! ## Targets and parameters -/

theorem parts_of_node (h : New (.node tag kind ts)) : tag.id = 0 ∧ ∀ p ∈ ts, Part p := by
  obtain ⟨hfits, hevery⟩ := every_node.mp h.fits
  simp only [fits, Bool.and_eq_true, List.all_eq_true, Bool.not_eq_true'] at hfits
  refine ⟨h.unnumbered.1 _ (by simp [idsAll, ids]), fun p hp => ⟨⟨refs_of_mem h.plain hp, ⟨fun i hi => ?_, fun o ho => ?_⟩, ?_⟩,
    hfits.1 p hp⟩⟩
  · exact h.unnumbered.parts.1 i ((ids_sublist_idsAll hp).subset (by simpa [idsAll] using hi))
  · exact h.unnumbered.parts.2 o (origins_subset_originsAll hp o (by simpa [originsAll] using ho))
  · exact every_of_mem hevery hp

theorem new_of_seq (h : New (.seq ts)) : ∀ t ∈ ts, New t := by
  intro t ht
  refine ⟨refs_of_mem h.plain ht, ⟨fun i hi => ?_, fun o ho => ?_⟩, every_of_mem h.fits ht⟩
  · exact h.unnumbered.items.1 i ((ids_sublist_idsAll ht).subset (by simpa [idsAll] using hi))
  · exact h.unnumbered.items.2 o (origins_subset_originsAll ht o (by simpa [originsAll] using ho))

mutual

theorem part_asTarget {ctx : Context} {u : Tree} : (t : Tree) → New t → asTarget ctx t = some u → Part u
  | .node tag kind ps, hnew, htarget => by
    obtain ⟨htag, hps⟩ := parts_of_node hnew
    unfold asTarget at htarget
    split at htarget
    next heq =>
      cases heq
      cases htarget
      exact part_of_parts htag rfl hps
    next heq =>
      cases heq
      cases htarget
      exact part_of_parts htag rfl hps
    next heq =>
      cases heq
      cases htarget
      exact part_of_parts htag rfl hps
    next v heq =>
      cases heq
      split at htarget
      · cases htarget
      · split at htarget
        · cases htarget
        · obtain ⟨w, hw, rfl⟩ := Option.map_eq_some_iff.mp htarget
          exact part_of_parts htag rfl (parts_one (part_asTarget v (hps v (by simp)).toNew hw))
    next items heq =>
      cases heq
      obtain ⟨us, hus, rfl⟩ := Option.map_eq_some_iff.mp htarget
      exact part_of_parts htag rfl (parts_one (part_list
        (parts_asTargets items (new_of_seq (hps (.seq items) (by simp)).toNew) hus)))
    next items heq =>
      cases heq
      obtain ⟨us, hus, rfl⟩ := Option.map_eq_some_iff.mp htarget
      exact part_of_parts htag rfl (parts_one (part_list
        (parts_asTargets items (new_of_seq (hps (.seq items) (by simp)).toNew) hus)))
    · cases htarget
  | .seq _, _, htarget => by cases htarget
  | .absent, _, htarget => by cases htarget
  | .shared _, _, htarget => by cases htarget

theorem parts_asTargets {ctx : Context} {us : List Tree} :
    (ts : List Tree) → (∀ t ∈ ts, New t) → asTargets ctx ts = some us → ∀ u ∈ us, Part u
  | [], _, htargets => by
    cases htargets
    simp
  | t :: ts, hnew, htargets => by
    simp only [asTargets, Option.bind_eq_bind, Option.bind_eq_some_iff, Option.pure_def, Option.some.injEq] at htargets
    obtain ⟨u, hu, us', hus, rfl⟩ := htargets
    exact parts_cons (part_asTarget t (hnew t (by simp)) hu) (parts_asTargets ts (fun t ht => hnew t (by simp [ht])) hus)

end

theorem Yields.target {ctx : Context} (ht : New t) : Yields Part (target ctx t) := by
  unfold Grammar.target
  split
  next htarget => exact pure (part_asTarget _ ht htarget)
  · exact refuse

theorem part_asSingleTarget (ht : New t) {u : Tree} (h : asSingleTarget t = some u) : Part u := by
  unfold asSingleTarget at h
  split at h
  · exact part_asTarget t ht h
  · exact part_asTarget t ht h
  · exact part_asTarget t ht h
  · cases h

/-- Parameters that are new and stand where they belong. -/
structure NewParameters (p : Parameters) : Prop where
  positionalOnly : ∀ t ∈ p.positionalOnly, Part t
  plain : ∀ t ∈ p.plain, Part t ∧ isParameter t = true
  variadic : ∀ t ∈ p.variadic, Part t ∧ isParameter t = true
  keywordOnly : ∀ t ∈ p.keywordOnly, Part t ∧ isParameter t = true
  keywordDefaults : ∀ t ∈ p.keywordDefaults, Part t
  keywordVariadic : ∀ t ∈ p.keywordVariadic, Part t
  defaults : ∀ t ∈ p.defaults, Part t

theorem NewParameters.empty : NewParameters {} := by constructor <;> simp

theorem NewParameters.tree (h : NewParameters p) : Part p.tree := by
  refine ⟨new_node rfl (by simp [Kind.origin?]) ?_ ?_, rfl⟩
  · simp only [List.mem_cons, List.not_mem_nil, or_false, forall_eq_or_imp, forall_eq]
    exact ⟨part_list h.positionalOnly, part_list fun t ht => (h.plain t ht).1, part_optional fun t ht => (h.variadic t ht).1,
      part_list fun t ht => (h.keywordOnly t ht).1, part_list h.keywordDefaults, part_optional h.keywordVariadic,
      part_list h.defaults⟩
  · have hvariadic : ((optional p.variadic).isAbsent || isParameter (optional p.variadic)) = true := by
      cases hp : p.variadic with
      | none => rfl
      | some t => simp [optional, (h.variadic t hp).2]
    simp only [hasShape, hvariadic, Bool.and_true, Bool.and_eq_true, List.all_eq_true]
    exact ⟨fun t ht => (h.plain t ht).2, fun t ht => (h.keywordOnly t ht).2⟩

section Rules
variable {rules : Rules} (h : ∀ goal, Yields Part (rules goal))
include h

namespace Yields

theorem parameterType (typed star : Bool) : Yields Part (parameterType rules typed star) := by
  refine ite (fork (fork ?_ (h _)) (pure part_absent)) (pure part_absent)
  exact after <| after <| wrap rfl (h _)

theorem parameterName (typed star : Bool) :
    Yields (fun t => Part t ∧ isParameter t = true) (parameterName rules typed star) :=
  after <| after <| bind (parameterType h typed star) fun ht => pure ⟨part_one rfl ht, rfl⟩

theorem parameter (typed : Bool) (hp : NewParameters p) :
    Yields NewParameters (parameter rules typed p) := by
  refine ite refuse (fork (ite refuse (pure ?_)) (fork (ite refuse ?_)
    (fork (ite refuse (fork (pure ?_) ?_)) ?_)))
  · exact { hp with positionalOnly := fun t ht => (hp.plain t ht).1, plain := by simp }
  · refine bind (parameterName h typed false) fun ha => pure { hp with keywordVariadic := ?_ }
    simpa using ha.1
  · exact { hp with }
  · refine bind (parameterName h typed true) fun ha => fork refuse (pure { hp with variadic := ?_ })
    simpa using ha
  · refine bind (parameterName h typed false) fun ha => after fun {_} => ?_
    extract_lets -underBinder add
    have hadd {d : Option Tree} (hd : ∀ t ∈ d, Part t) : Yields NewParameters (add d) := by
      refine ite (pure ?_) ?_
      · exact { hp with
          keywordOnly := forall_snoc hp.keywordOnly ha
          keywordDefaults := forall_snoc hp.keywordDefaults (part_optional hd) }
      · split
        · exact pure { hp with plain := forall_snoc hp.plain ha, defaults := forall_snoc hp.defaults (hd _ rfl) }
        · exact ite (pure { hp with plain := forall_snoc hp.plain ha }) refuse
    exact either (found (h _)) nothing hadd

theorem parametersUpTo (typed : Bool) (close : String) (n : Nat) (hp : NewParameters p) :
    Yields NewParameters (parametersUpTo rules typed close n p) := by
  induction n generalizing p with
  | zero => exact refuse
  | succ n ih =>
    exact fork (pure hp) (bind (parameter h typed hp) fun hq => fork (ih hq)
      (fork (pure hq) refuse))

theorem parameters (typed : Bool) (close : String) :
    Yields (fun t => Part t ∧ isParameters t = true) (parameters rules typed close) :=
  after <| bind (parametersUpTo h typed close _ .empty) fun hp => ite refuse (pure ⟨hp.tree, rfl⟩)

/-! ## Atoms -/

theorem clause : Yields (fun o => ∀ t ∈ o, Part t) (clause rules) := by
  refine after fun {_} => ?_
  extract_lets -underBinder rest
  have hrest {isAsync : Bool} : Yields (fun o => ∀ t ∈ o, Part t) (rest isAsync) := by
    refine fork ?_ (ite refuse nothing)
    refine bind (h _) fun ht => after <| bind (h _) fun hiter => bind (many (whenever (h _))) fun hconds => ?_
    exact pure (by simpa using part_of_parts rfl rfl (parts_three ht hiter (part_list hconds)))
  refine ite (after fun {_} => ?_) (after hrest)
  split
  · exact ite (after <| after hrest) (after hrest)
  · exact after hrest

theorem clauses : Yields Part (clauses rules) := bind (many (clause h)) fun hcs => pure (part_list hcs)

theorem namedExpression : Yields Part (namedExpression rules) := by
  refine fork ?_ (bind (h _) fun ht => fork refuse (pure ht))
  exact after <| after <| after <| bind (h _) fun hv => pure (part_two rfl (part_leaf rfl) hv)

theorem starredNamed : Yields Part (starredNamed rules) :=
  fork (after <| after <| wrap rfl (h _)) (h _)

theorem yieldExpression : Yields Part (yieldExpression rules) := by
  refine after <| after <| fork ?_ (fork ?_ ?_)
  · exact wrap rfl (h _)
  · exact pure (part_one rfl part_absent)
  · exact wrap rfl (h _)

theorem roundAtom : Yields Part (roundAtom rules) := by
  refine after <| after <| fork (pure (part_tuple (by simp))) (fork ?_ ?_)
  · exact bind (yieldExpression h) fun hy => after <| pure hy
  refine bind (starredNamed h) fun hfirst => fork (fork ?_ ?_)
    (ite refuse (fork ?_ (after <| pure hfirst)))
  · exact pure (part_tuple (parts_one hfirst))
  · exact bind (commaItems (starredNamed h)) fun hp => after <| pure (part_tuple (parts_cons hfirst hp))
  · exact bind (clauses h) fun hcs => after <| pure (part_two rfl hfirst hcs)

theorem squareAtom : Yields Part (squareAtom rules) := by
  refine after <| after <| fork (pure (part_row rfl (by simp))) ?_
  refine bind (starredNamed h) fun hfirst => fork ?_ ?_
  · exact bind (clauses h) fun hcs => after <| pure (part_two rfl hfirst hcs)
  · exact bind (moreItems (starredNamed h)) fun hrest => after <| pure (part_row rfl (parts_cons hfirst hrest))

theorem dictItem : Yields (fun p => Part p.1 ∧ Part p.2) (dictItem rules) := by
  refine fork (bind (h _) fun hv => pure ⟨part_absent, hv⟩) ?_
  exact bind (h _) fun hk => after <| bind (h _) fun hv => pure ⟨hk, hv⟩

omit h in
theorem part_dict {items : List (Tree × Tree)} (hitems : ∀ p ∈ items, Part p.1 ∧ Part p.2) : Part (dictNode line items) := by
  refine part_two rfl (part_list ?_) (part_list ?_)
  · simpa using fun k v hp => (hitems (k, v) hp).1
  · simpa using fun k v hp => (hitems (v, k) hp).2

theorem curlyAtom : Yields Part (curlyAtom rules) := by
  refine after <| after <| fork (pure (part_dict (by simp))) (fork ?_ ?_)
  · exact bind (commaItems (dictItem h)) fun hp => after <| pure (part_dict hp)
  refine after <| bind (starredNamed h) fun hfirst => fork ?_ (fork ?_ ?_)
  · refine after <| bind (h _) fun hvalue => fork ?_ ?_
    · exact bind (clauses h) fun hcs => after <| pure (part_three rfl hfirst hvalue hcs)
    · exact bind (moreItems (dictItem h)) fun hrest => after <|
        pure (part_dict (List.forall_mem_cons.mpr ⟨⟨hfirst, hvalue⟩, hrest⟩))
  · exact bind (clauses h) fun hcs => after <| pure (part_two rfl hfirst hcs)
  · exact bind (moreItems (starredNamed h)) fun hrest => after <| pure (part_row rfl (parts_cons hfirst hrest))

theorem atom : Yields Part (atom rules) := by
  refine after fun {_} => ?_
  split
  · split
    · exact after <| pure (part_leaf rfl)
    · exact ite (after <| pure (part_leaf rfl)) (ite (after <| pure (part_leaf rfl))
        (ite (after <| pure (part_leaf rfl)) refuse))
  · exact after <| pure (part_leaf rfl)
  · exact after <| pure (part_leaf rfl)
  · exact strings h
  · exact ite (roundAtom h) (ite (squareAtom h) (ite (curlyAtom h) (ite (after <| pure (part_leaf rfl)) refuse)))
  · exact refuse

/-! ## Calls, attributes, subscripts -/

structure NewArguments (a : Arguments) : Prop where
  positional : ∀ t ∈ a.positional, Part t
  keywords : ∀ t ∈ a.keywords, Part t

omit h in
theorem newArguments_empty : NewArguments {} := by constructor <;> simp

theorem argument {a : Arguments} (ha : NewArguments a) : Yields NewArguments (argument rules a) := by
  refine after <| fork ?_ (fork ?_ (fork ?_ ?_))
  · exact bind (h _) fun hv => pure { ha with keywords := forall_snoc ha.keywords (part_one rfl hv) }
  · exact bind (h _) fun hv => ite refuse (pure { ha with positional := forall_snoc ha.positional (part_one rfl hv) })
  · exact after <| after <| bind (h _) fun hv =>
      pure { ha with keywords := forall_snoc ha.keywords (part_one rfl hv) }
  · exact bind (h _) fun hv => ite refuse (pure { ha with positional := forall_snoc ha.positional hv })

theorem argumentsUpTo (n : Nat) {a : Arguments} (ha : NewArguments a) : Yields NewArguments (argumentsUpTo rules n a) := by
  induction n generalizing a with
  | zero => exact refuse
  | succ n ih =>
    exact fork (pure ha) (bind (argument h ha) fun hb => fork (ih hb)
      (fork (pure hb) refuse))

theorem callArguments {a : Arguments} (ha : NewArguments a) : Yields NewArguments (callArguments rules a) :=
  after <| bind (argumentsUpTo h _ ha) fun hb => after <| pure hb

theorem callBrackets : Yields NewArguments (callBrackets rules) := by
  refine after <| after <| fork (pure newArguments_empty) ?_
  refine bind (argument h newArguments_empty) fun ha => ?_
  extract_lets -underBinder rest
  have hrest (u : Unit) : Yields NewArguments (rest u) :=
    fork (callArguments h ha) (after <| pure ha)
  split
  next hpositional _ =>
    refine fork (bind (clauses h) fun hcs => after <| pure ⟨?_, by simp⟩) (hrest ())
    exact parts_one (part_two rfl (ha.positional _ (by simp [hpositional])) hcs)
  · exact hrest ()

theorem sliceItem : Yields Part (sliceItem rules) := by
  refine after <| fork (starredNamed h) (after <| after fun {_} => ?_)
  extract_lets -underBinder withLower
  have hlower {lower : Tree} (hl : Part lower) : Yields Part (withLower lower) := by
    refine fork (after fun {_} => ?_) (pure hl)
    extract_lets -underBinder withUpper
    have hupper {upper : Tree} (hu : Part upper) : Yields Part (withUpper upper) := by
      refine after fun {_} => ?_
      extract_lets -underBinder withStep
      have hstep {step : Tree} (hs : Part step) : Yields Part (withStep step) := pure (part_three rfl hl hu hs)
      exact ite (after <| either (pure part_absent) (h _) hstep) (bind (pure part_absent) hstep)
    exact either (pure part_absent) (h _) hupper
  exact either (pure part_absent) (h _) hlower

theorem subscriptIndex : Yields Part (subscriptIndex rules) := by
  refine after <| bind (commaItems (sliceItem h)) fun hp => after fun {_} => ?_
  split
  next t heq =>
    have ht : Part t := hp t (by simp [heq])
    exact ite (pure (part_tuple (parts_one ht))) (pure ht)
  · exact pure (part_tuple hp)

theorem trailers (line n : Nat) (hacc : Part acc) : Yields Part (trailers rules line n acc) := by
  induction n generalizing acc with
  | zero => exact pure hacc
  | succ n ih =>
    refine fork ?_ (fork ?_ (fork ?_ (pure hacc)))
    · exact after <| ih (part_one rfl hacc)
    · exact bind (callBrackets h) fun ha =>
        ih (part_three rfl hacc (part_list ha.positional) (part_list ha.keywords))
    · exact bind (subscriptIndex h) fun hi => ih (part_two rfl hacc hi)

theorem primary : Yields Part (primary rules) :=
  after <| bind (atom h) fun ha => fork (after <| trailers h _ _ ha) (pure ha)

omit h in
theorem targetItem (hoperand : Yields Part operand) : Yields Part (targetItem operand) := by
  refine fork (after <| after <| fork (stop refuse) ?_) hoperand
  exact wrap rfl hoperand

theorem loopTargets : Yields Part (loopTargets rules) := by
  refine after <| bind (commaItems (targetItem (primary h))) fun {p} hp => ?_
  obtain ⟨items, comma⟩ := p
  dsimp only
  split
  next t =>
    have ht : Part t := hp t (by simp)
    exact ite (target (part_tuple (parts_one ht)).toNew) (target ht.toNew)
  · exact target (part_tuple hp).toNew

/-! ## Operators -/

omit h in
theorem joinLeft (hoperand : Yields Part operand) (line : Nat) (signs : List BinaryOp) (n : Nat)
    (hacc : Part acc) : Yields Part (joinLeft line signs operand n acc) := by
  induction n generalizing acc with
  | zero => exact pure hacc
  | succ n ih =>
    refine after fun {_} => ?_
    split
    · exact pure hacc
    · exact after <| bind hoperand fun hright => ih (part_two rfl hacc hright)

omit h in
theorem binaryLevel (hoperand : Yields Part operand) (signs : List BinaryOp) :
    Yields Part (binaryLevel signs operand) :=
  after <| bind hoperand fun hfirst => fork (after <| joinLeft hoperand _ _ _ hfirst) (pure hfirst)

theorem power : Yields Part (power rules) := by
  refine after <| after fun {_} => ?_
  extract_lets -underBinder rest
  have hrest {base : Tree} (hbase : Part base) : Yields Part (rest base) :=
    fork (bind (h _) fun he => pure (part_two rfl hbase he)) (pure hbase)
  exact ite (bind (primary h) fun hv => bind (pure (part_one rfl hv)) hrest) (bind (primary h) hrest)

theorem factor : Yields Part (factor rules) := by
  refine after fun {_} => ?_
  dsimp only
  split
  · exact after <| wrap rfl (h _)
  · exact power h

theorem bitOr : Yields Part (bitOr rules) :=
  binaryLevel (binaryLevel (binaryLevel (binaryLevel (binaryLevel (binaryLevel (factor h) _) _) _) _) _) _

theorem comparison : Yields Part (comparison rules) := by
  refine after <| bind (bitOr h) fun hleft =>
    bind (many (P := fun p : CompareOp × Tree => Part p.2) (after fun {_} => ?_)) fun hrest => ite (pure hleft) (pure ?_)
  · split
    · exact bind (bitOr h) fun ht => pure (by simpa using ht)
    · exact nothing
  · exact part_two rfl hleft (part_list (by simpa using fun t op hp => hrest (op, t) hp))

theorem inversion : Yields Part (inversion rules) :=
  after <| fork (wrap rfl (h _)) (comparison h)

omit h in
theorem joinWords (op : BoolOp) (hoperand : Yields Part operand) : Yields Part (joinWords op operand) :=
  after <| bind hoperand fun hfirst => bind (many (whenever hoperand)) fun hrest =>
    ite (pure hfirst) (pure (part_row rfl (parts_cons hfirst hrest)))

theorem disjunction : Yields Part (disjunction rules) := joinWords _ (joinWords _ (inversion h))

theorem lambdaExpression : Yields Part (lambdaExpression rules) :=
  after <| after <| bind (parameters h _ _) fun hps => after <| bind (h _) fun hbody =>
    pure (part_two rfl hps.1 hbody)

theorem expression : Yields Part (expression rules) := by
  refine fork (lambdaExpression h) (after <| bind (disjunction h) fun hbody =>
    fork (bind (disjunction h) fun htest => after <| bind (h _) fun hother => pure ?_) (pure hbody))
  exact part_three rfl htest hbody hother

theorem starredExpression : Yields Part (starredExpression rules) :=
  after <| fork (wrap rfl (h _)) (h _)

theorem sequence : Yields Part (sequence rules) := by
  refine after <| bind (commaItems (starredExpression h)) fun {p} hp => ?_
  obtain ⟨items, comma⟩ := p
  dsimp only
  split
  next t =>
    have ht : Part t := hp t (by simp)
    exact ite (pure (part_tuple (parts_one ht))) (pure ht)
  · exact pure (part_tuple hp)

/-! ## Patterns -/

omit h in
theorem signedNumber : Yields Part signedNumber := by
  refine after <| after fun {minus} => after fun {_} => ?_
  split
  · refine after fun {_} => ?_
    cases minus
    · exact pure (part_leaf rfl)
    · exact pure (part_one rfl (part_leaf rfl))
  · exact refuse

omit h in
theorem patternNumber : Yields Part patternNumber := by
  refine after <| bind signedNumber fun hleft => ?_
  extract_lets -underBinder join
  have hjoin (op : BinaryOp) : Yields Part (join op) := by
    refine after <| after fun {_} => ?_
    split
    · exact ite (stop refuse) (bind signedNumber fun hright => pure (part_two rfl hleft hright))
    · exact refuse
  exact fork (hjoin _) (fork (hjoin _) (pure hleft))

omit h in
theorem dottedName (line n : Nat) (hacc : Part acc) : Yields Part (dottedName line n acc) := by
  induction n generalizing acc with
  | zero => exact pure hacc
  | succ n ih => exact fork (after <| ih (part_one rfl hacc)) (pure hacc)

theorem patternLiteral : Yields (fun o => ∀ t ∈ o, Part t) (patternLiteral? rules) := by
  refine after fun {_} => ?_
  split
  · exact found patternNumber
  · exact found patternNumber
  · exact found (strings h)
  · exact nothing

theorem sequenceItem : Yields Part (sequenceItem rules) :=
  after <| fork (fork (pure (part_leaf rfl)) (after <| pure (part_leaf rfl))) (h _)

omit h in
theorem part_matchSequence (hts : ∀ t ∈ ts, Part t) : Part (node line .matchSequence [.seq ts]) :=
  part_row rfl hts

theorem bracketPattern (line : Nat) (close : String) : Yields Part (bracketPattern rules line close) := by
  refine fork (pure (part_matchSequence (by simp))) (bind (commaItems (sequenceItem h)) fun {p} hp => ?_)
  obtain ⟨items, comma⟩ := p
  refine after fun {_} => ?_
  split
  next t =>
    have ht : Part t := hp t (by simp)
    exact ite (ite refuse (pure ht)) (pure (part_matchSequence (parts_one ht)))
  · exact pure (part_matchSequence hp)

def NewItem : (Tree × Tree) ⊕ String → Prop
  | .inl p => Part p.1 ∧ Part p.2
  | .inr _ => True

theorem mappingItem : Yields NewItem (mappingItem rules) := by
  refine fork (after <| pure trivial) (after <| bind (patternLiteral h) fun ho => ?_)
  extract_lets -underBinder rest
  have hrest {k : Tree} (hk : Part k) : Yields NewItem (rest k) :=
    after <| bind (h _) fun hp => pure ⟨hk, hp⟩
  split
  · exact bind (pure (ho _ rfl)) hrest
  · split
    · exact after <| bind (pure (part_leaf rfl)) hrest
    · exact after <| fork (stop refuse) (after <| bind (dottedName _ _ (part_leaf rfl)) hrest)

theorem mappingPattern (line : Nat) : Yields Part (mappingPattern rules line) := by
  refine fork (pure (part_two rfl (part_list (by simp)) (part_list (by simp)))) ?_
  refine bind (commaItems (mappingItem h)) fun {p} hp => fork (pure ?_) refuse
  obtain ⟨items, comma⟩ := p
  have hpairs : ∀ q ∈ items.filterMap Sum.getLeft?, Part q.1 ∧ Part q.2 := by
    intro q hq
    obtain ⟨item, hitem, heq⟩ := List.mem_filterMap.mp hq
    obtain rfl := Sum.getLeft?_eq_some_iff.mp heq
    exact hp _ hitem
  refine part_two rfl (part_list ?_) (part_list ?_)
  · intro t ht
    obtain ⟨q, hq, rfl⟩ := List.mem_map.mp ht
    exact (hpairs q hq).1
  · intro t ht
    obtain ⟨q, hq, rfl⟩ := List.mem_map.mp ht
    exact (hpairs q hq).2

theorem classItem : Yields (fun p => Part p.2) (classItem rules) :=
  fork (after <| after <| bind (h _) fun ht => pure ht) (bind (h _) fun ht => pure ht)

theorem classPattern (line : Nat) {cls : Tree} (hcls : Part cls) : Yields Part (classPattern rules line cls) := by
  refine after <| after fun {_} => ?_
  extract_lets -underBinder rest
  have hrest {items : List (Option String × Tree)} (hitems : ∀ p ∈ items, Part p.2) : Yields Part (rest items) := by
    refine fork (pure ?_) refuse
    refine part_three rfl hcls (part_list ?_) (part_list ?_)
    · intro t ht
      obtain ⟨p, hp, rfl⟩ := List.mem_map.mp ht
      exact hitems p ((List.takeWhile_sublist _).subset hp)
    · intro t ht
      obtain ⟨p, hp, rfl⟩ := List.mem_map.mp ht
      exact hitems p ((List.dropWhile_sublist _).subset hp)
  exact ite (bind (pure (by simp)) hrest) (bind (commaItems (classItem h)) fun hp => bind (pure hp) hrest)

theorem closedPattern : Yields Part (closedPattern rules) := by
  refine after <| bind (patternLiteral h) fun ho => ?_
  split
  · exact pure (part_one rfl (ho _ rfl))
  · split
    · exact after <| pure (part_leaf rfl)
    · refine fork (bracketPattern h _ _)
        (fork (bracketPattern h _ _) (fork (mappingPattern h _) (fork (pure (part_one rfl part_absent)) ?_)))
      refine after <| fork (after <| bind (dottedName _ _ (part_leaf rfl)) fun hv => ?_) ?_
      · exact fork (classPattern h _ hv) (fork refuse (pure (part_one rfl hv)))
      · exact fork (classPattern h _ (part_leaf rfl)) (fork refuse (pure (part_one rfl part_absent)))

theorem pattern : Yields Part (pattern rules) := by
  refine after fun {line} => bind (closedPattern h) fun {first} hfirst => bind (many (whenever (closedPattern h))) fun {rest} hrest => ?_
  have hp : Part (if rest.isEmpty then first else node line .matchOr [.seq (first :: rest)]) := by
    split
    · exact hfirst
    · exact part_row rfl (parts_cons hfirst hrest)
  exact fork (after <| pure (part_one rfl hp)) (pure hp)

theorem casePattern : Yields Part (casePattern rules) := by
  refine after <| bind (commaItems (sequenceItem h)) fun {p} hp => ?_
  obtain ⟨items, comma⟩ := p
  dsimp only
  split
  next t =>
    have ht : Part t := hp t (by simp)
    exact ite (pure (part_matchSequence (parts_one ht))) (ite refuse (pure ht))
  · exact pure (part_matchSequence hp)

/-! ## Simple statements -/

theorem assigned : Yields Part (assigned rules) := fork (yieldExpression h) (h _)

theorem assignChain (n : Nat) {targets : List Tree} (htargets : ∀ t ∈ targets, Part t) :
    Yields (fun p => (∀ t ∈ p.1, Part t) ∧ Part p.2) (assignChain rules n targets) := by
  induction n generalizing targets with
  | zero => exact refuse
  | succ n ih =>
    refine after <| bind (assigned h) fun {v} hv => fork (ite (stop refuse) ?_) (pure ⟨htargets, hv⟩)
    split
    next t ht => exact after <| ih (forall_snoc htargets (part_asTarget v hv.toNew ht))
    · exact refuse

theorem expressionStatement : Yields Part (expressionStatement rules) := by
  refine after <| bind (assigned h) fun {v} hv => ite (fork refuse (pure (part_one rfl hv))) ?_
  refine fork ?_ (fork ?_ ?_)
  · split
    next t ht =>
      refine after <| bind (assignChain h _ (parts_one (part_asTarget v hv.toNew ht))) fun hp => ?_
      exact pure (part_two rfl (part_list hp.1) hp.2)
    · exact refuse
  · split
    next t ht =>
      refine after <| bind (h _) fun htype => after fun {_} => ?_
      extract_lets -underBinder rest
      have hrest {value : Tree} (hvalue : Part value) : Yields Part (rest value) :=
        pure (part_three rfl (part_asSingleTarget hv.toNew ht) htype hvalue)
      exact either (assigned h) (pure part_absent) hrest
    · exact refuse
  · refine after fun {_} => ?_
    split
    · split
      next t ht => exact bind (assigned h) fun hvalue => pure (part_two rfl (part_asSingleTarget hv.toNew ht) hvalue)
      · exact refuse
    · exact pure (part_one rfl hv)

omit h in
theorem importStatement (line : Nat) : Yields Part (importStatement line) :=
  bind (commaItems (P := Part) (after <| after <| after <| pure (part_leaf rfl))) fun hp =>
    ite refuse (pure (part_row rfl hp))

omit h in
theorem importedName : Yields Part importedName := after <| after <| after <| pure (part_leaf rfl)

omit h in
theorem importFromStatement (line : Nat) : Yields Part (importFromStatement line) := by
  refine after <| after fun {_} => ?_
  extract_lets -underBinder rest
  have hrest {source : Option String} : Yields Part (rest source) := by
    refine after <| after <| after <| after fun {_} => ?_
    extract_lets -underBinder withNames
    have hnames {names : List Tree} (hn : ∀ t ∈ names, Part t) : Yields Part (withNames names) :=
      pure (part_row rfl hn)
    refine ite (bind (pure (parts_one (part_leaf rfl))) hnames) (ite ?_ ?_)
    · exact bind (commaItems importedName) fun hp => after <| bind (pure hp) hnames
    · exact bind (commaItems importedName) fun hp => ite (stop refuse) (bind (pure hp) hnames)
  exact ite (after hrest) (after hrest)

theorem deleteStatement (line : Nat) : Yields Part (deleteStatement rules line) := by
  refine bind (commaItems (primary h)) fun {p} hp => ?_
  obtain ⟨items, comma⟩ := p
  refine bind (mapM fun t ht => target (hp t ht).toNew) fun htargets => fork (pure ?_) refuse
  exact part_row rfl htargets

theorem simpleStatement : Yields Part (simpleStatement rules) := by
  refine after fun {_} => ?_
  split
  · exact after <| pure (part_leaf rfl)
  · exact after <| pure (part_leaf rfl)
  · exact after <| pure (part_leaf rfl)
  · exact after <| fork (pure (part_one rfl part_absent))
      (wrap rfl (h _))
  · refine after <| fork (pure (part_two rfl part_absent part_absent))
      (bind (h _) fun he => after fun {_} => ?_)
    extract_lets -underBinder rest
    have hrest {cause : Tree} (hc : Part cause) : Yields Part (rest cause) := pure (part_two rfl he hc)
    exact either (h _) (pure part_absent) hrest
  · refine after <| bind (h _) fun htest => after fun {_} => ?_
    extract_lets -underBinder rest
    have hrest {message : Tree} (hm : Part message) : Yields Part (rest message) := pure (part_two rfl htest hm)
    exact either (h _) (pure part_absent) hrest
  · exact after <| after <| pure (part_leaf rfl)
  · exact after <| after <| pure (part_leaf rfl)
  · exact after <| deleteStatement h _
  · exact after <| importStatement _
  · exact after <| importFromStatement _
  · exact expressionStatement h

theorem simpleStatements : Yields (fun ts => ∀ t ∈ ts, Part t) (simpleStatements rules) := by
  refine bind (simpleStatement h) fun hfirst =>
    bind (many (P := Part) (fork (fork nothing ?_) nothing)) fun hrest =>
      after <| pure (parts_cons hfirst hrest)
  exact found (simpleStatement h)

/-! ## Compound statements -/

theorem colonBlock : Yields Part (colonBlock rules) := after <| h _

theorem elseBlock : Yields Part (elseBlock rules) := fork (colonBlock h) (pure (part_list (by simp)))

omit h in
theorem new_conditional (htest : Part test) (hbody : Suite body) (hother : Suite other) :
    New (node line .ifStmt [test, body, other]) := by
  obtain ⟨hbody, _, rfl⟩ := hbody
  obtain ⟨hother, _, rfl⟩ := hother
  exact new_node rfl (by simp [Kind.origin?]) (parts_three htest hbody hother) rfl

theorem whileStatement (line : Nat) : Yields New (whileStatement rules line) :=
  bind (h _) fun htest => bind (colonBlock h) fun hbody => bind (elseBlock h) fun hother =>
    pure (new_node rfl (by simp [Kind.origin?]) (parts_three htest hbody hother) rfl)

theorem forStatement (line : Nat) (hkind : plainKind kind = true) : Yields Part (forStatement rules line kind) :=
  bind (h _) fun ht => after <| bind (h _) fun hiter => bind (colonBlock h) fun hbody =>
    bind (elseBlock h) fun hother => pure (part_node hkind (parts_four ht hiter hbody hother))

theorem withItem : Yields Part (withItem rules) := by
  refine bind (h _) fun hcontext => fork (bind (targetItem (primary h)) fun ht => ?_) ?_
  · exact bind (target ht.toNew) fun ht => fork (pure (part_of_parts rfl rfl (parts_two hcontext ht))) refuse
  · exact pure (part_of_parts rfl rfl (parts_two hcontext part_absent))

theorem withItems : Yields (fun ts => ∀ t ∈ ts, Part t) (withItems rules) := by
  refine orElse ?_ ?_
  · exact after <| bind (commaItems (withItem h)) fun hp => after <| after <| pure hp
  · exact bind (commaItems (withItem h)) fun hp => ite (stop refuse) (after <| pure hp)

theorem withStatement (line : Nat) (hkind : plainKind kind = true) : Yields Part (withStatement rules line kind) :=
  bind (withItems h) fun hitems => bind (h _) fun hbody => pure (part_node hkind (parts_two (part_list hitems) hbody))

theorem handler (star : Bool) : Yields (fun o => ∀ t ∈ o, Part t) (handler? rules star) := by
  refine after <| fork (after <| ite (stop refuse) (fork ?_ ?_)) nothing
  · refine bind (colonBlock h) fun hbody => pure ?_
    simpa using part_two rfl part_absent hbody
  · refine bind (h _) fun htype => after <| bind (colonBlock h) fun hbody => pure ?_
    simpa using part_two rfl htype hbody

theorem tryStatement (line : Nat) : Yields Part (tryStatement rules line) := by
  refine bind (colonBlock h) fun hbody => after <| after <| bind (many (handler h _)) fun hhandlers => ?_
  extract_lets -underBinder withOther
  have hother {other : Tree} (ho : Part other) : Yields Part (withOther other) := by
    refine after fun {_} => ?_
    extract_lets -underBinder withFinal
    have hfinal {final : Option Tree} (hf : ∀ t ∈ final, Part t) : Yields Part (withFinal final) := by
      have hlast : Part (final.getD (.seq [])) := by
        cases final with
        | none => exact part_list (by simp)
        | some t => exact hf t rfl
      refine ite refuseWord (pure (part_node ?_ (parts_four hbody (part_list hhandlers) ho hlast)))
      split <;> rfl
    exact either (found (colonBlock h)) nothing hfinal
  exact ite (bind (pure (part_list (by simp))) hother) (bind (elseBlock h) hother)

theorem matchHead : Yields Part (matchHead rules) := by
  refine after <| after <| bind (commaItems (starredNamed h)) fun {p} hp => ?_
  obtain ⟨items, comma⟩ := p
  refine after <| after fun {_} => ?_
  split
  next t =>
    have ht : Part t := hp t (by simp)
    exact ite (pure (part_tuple (parts_one ht))) (ite refuse (pure ht))
  · exact pure (part_tuple hp)

theorem caseBlock : Yields (fun o => ∀ t ∈ o, Part t) (caseBlock rules) := by
  refine fork (bind (casePattern h) fun hp => after fun {_} => ?_) nothing
  extract_lets -underBinder rest
  have hrest {guard : Tree} (hguard : Part guard) : Yields (fun o => ∀ t ∈ o, Part t) (rest guard) := by
    refine bind (colonBlock h) fun hbody => pure ?_
    simpa using part_of_parts rfl rfl (parts_three hp hguard hbody)
  exact either (h _) (pure part_absent) hrest

theorem matchCases (line : Nat) {subject : Tree} (hsubject : Part subject) :
    Yields Part (matchCases rules line subject) := by
  refine after fun {_} => ?_
  extract_lets -underBinder rest
  have hrest (u : Unit) : Yields Part (rest u) := by
    refine bind (many (caseBlock h)) fun hcases => after fun {_} => ?_
    split
    · exact ite (stop refuse) (after <| pure (part_two rfl hsubject (part_list hcases)))
    · exact refuse
  split
  · exact after (hrest ())
  · exact stop refuseMissing

section Blocks
variable (hblock : Yields Suite (rules .block))
include hblock

theorem ifRest (n : Nat) : Yields Suite (ifRest rules n) := by
  have hcolon : Yields Suite (Grammar.colonBlock rules) := after <| hblock
  induction n with
  | zero => exact refuse
  | succ n ih =>
    refine after <| fork (bind (h _) fun htest => bind hcolon fun hbody =>
      bind ih fun hother => pure ⟨part_seq ?_, _, rfl⟩) (fork hcolon (pure ⟨part_list (by simp), _, rfl⟩))
    simpa using new_conditional htest hbody hother

theorem ifStatement (line : Nat) : Yields New (ifStatement rules line) :=
  bind (h _) fun htest => bind (after <| hblock) fun hbody => after <| bind (ifRest h hblock _) fun hother =>
    pure (new_conditional htest hbody hother)

theorem functionStatement (line : Nat) (isAsync : Bool) (hdecorators : ∀ t ∈ decorators, Part t) :
    Yields Part (functionStatement rules line isAsync decorators) := by
  refine after <| after <| bind (parameters h _ _) fun hps => after <| after fun {_} => ?_
  extract_lets -underBinder rest
  have hrest {result : Tree} (hresult : Part result) : Yields Part (rest result) := by
    refine bind (after <| hblock) fun hbody => pure ?_
    obtain ⟨hbody, _, rfl⟩ := hbody
    have hparts := parts_four hps.1 hbody (part_list hdecorators) hresult
    cases isAsync with
    | true => exact part_node rfl hparts
    | false => exact ⟨new_node rfl (by simp [Kind.origin?]) hparts hps.2, rfl⟩
  exact either (h _) (pure part_absent) hrest

theorem classStatement (line : Nat) (hdecorators : ∀ t ∈ decorators, Part t) :
    Yields Part (classStatement rules line decorators) := by
  refine after <| after fun {_} => ?_
  extract_lets -underBinder rest
  have hrest {a : Arguments} (ha : NewArguments a) : Yields Part (rest a) := by
    refine bind (after <| hblock) fun hbody => pure ?_
    obtain ⟨hbody, _, rfl⟩ := hbody
    have hparts := parts_four (part_list ha.positional) (part_list ha.keywords) hbody (part_list hdecorators)
    exact ⟨new_node rfl (by simp [Kind.origin?]) hparts rfl, rfl⟩
  exact either (callArguments h newArguments_empty) (pure newArguments_empty) hrest

theorem definition (hdecorators : ∀ t ∈ decorators, Part t) :
    Yields Part (definition rules decorators) :=
  after <| fork (functionStatement h hblock _ _ hdecorators)
    (fork (classStatement h hblock _ hdecorators) (fork (after <| functionStatement h hblock _ _ hdecorators) refuse))

theorem decorated : Yields Part (decorated rules) :=
  bind (many (P := Part) (fork (bind (h _) fun he => after <| pure (by simpa using he)) (pure (by simp))))
    fun hdecorators => definition h hblock hdecorators

theorem statement : Yields (fun ts => ∀ t ∈ ts, New t) (statement rules) := by
  have hone {r : Rule Tree} (hr : Yields New r) : Yields (fun ts => ∀ t ∈ ts, New t) (do return [← r]) :=
    bind hr fun ht => pure (by simpa using ht)
  have hpart {r : Rule Tree} (hr : Yields Part r) : Yields New r := fun ts t ts' heq => (hr ts t ts' heq).toNew
  have hsimple : Yields (fun ts => ∀ t ∈ ts, New t) (Grammar.simpleStatements rules) :=
    fun ts us ts' heq t ht => (simpleStatements h ts us ts' heq t ht).toNew
  refine after fun {_} => ?_
  split
  · exact after <| hone (ifStatement h hblock _)
  · exact after <| hone (whileStatement h _)
  · exact after <| hone (hpart (forStatement h _ rfl))
  · exact after <| hone (hpart (withStatement h _ rfl))
  · exact after <| hone (hpart (tryStatement h _))
  · exact hone (hpart (decorated h hblock))
  · exact hone (hpart (decorated h hblock))
  · exact hone (hpart (decorated h hblock))
  · refine after fun {o} => ?_
    split
    · exact ite (after <| after <| hone (hpart (forStatement h _ rfl)))
        (ite (after <| after <| hone (hpart (withStatement h _ rfl))) (hone (hpart (decorated h hblock))))
    · exact refuse
  · refine bind (optionally (matchHead h)) fun ho => ?_
    split
    · exact hone (hpart (matchCases h _ (ho _ rfl)))
    · exact hsimple
  · exact hsimple

theorem statements : Yields (fun ts => ∀ t ∈ ts, New t) (statements rules) := by
  refine bind (many (P := fun ts => ∀ t ∈ ts, New t) (after fun {t} => ?_)) fun hgroups => pure ?_
  · split
    · exact nothing
    · exact nothing
    · exact found (statement h hblock)
  · intro t ht
    obtain ⟨ts, hts, ht⟩ := List.mem_flatten.mp ht
    exact hgroups ts hts t ht

theorem blockBody : Yields Suite (blockBody rules) := by
  refine fork (after <| after fun {t} => ?_)
    (bind (simpleStatements h) fun hts => pure ⟨part_list hts, _, rfl⟩)
  split
  · refine after <| bind (statements h hblock) fun hts => after fun {_} => ?_
    split
    · exact after <| pure ⟨part_seq hts, _, rfl⟩
    · exact refuse
  · exact refuseMissing

theorem ruleOf (goal : Goal) : Yields Part (ruleOf rules goal) := by
  cases goal with
  | expression => exact expression h
  | named => exact namedExpression h
  | sequence => exact sequence h
  | disjunction => exact disjunction h
  | inversion => exact inversion h
  | bitOr => exact bitOr h
  | factor => exact factor h
  | loopTargets => exact loopTargets h
  | block => exact fun ts t ts' heq => (blockBody h hblock ts t ts' heq).1
  | pattern => exact pattern h

theorem program : Yields Part (program rules) := by
  refine bind (statements h hblock) fun hts => after fun {_} => ?_
  split
  · exact pure (part_of_parts rfl rfl (parts_one (part_seq hts)))
  · exact refuse

end Blocks

end Yields
end Rules

theorem Yields.rulesWithin (depth : Nat) :
    (∀ goal, Yields Part (rulesWithin depth goal)) ∧ Yields Suite (rulesWithin depth .block) := by
  induction depth with
  | zero => exact ⟨fun _ => throw, throw⟩
  | succ depth ih => exact ⟨ruleOf ih.1 ih.2, blockBody ih.1 ih.2⟩

theorem part_parseSource {source : List Char} (h : parseSource source = .ok t) : Part t := by
  have hmap : (·.1) <$> program (rulesWithin (4 * source.length + 16)) (Token.scanFrom 1 source) = .ok t := h
  cases hp : program (rulesWithin (4 * source.length + 16)) (Token.scanFrom 1 source) with
  | error e =>
    rw [hp] at hmap
    cases hmap
  | ok p =>
    rw [hp] at hmap
    cases hmap
    obtain ⟨hrules, hblock⟩ := Yields.rulesWithin (4 * source.length + 16)
    exact Yields.program hrules hblock _ p.1 p.2 hp

end Grammar

namespace Tree
variable {t : Tree} {source : String} {n next : Nat}

/-- What a source text is read as stands by itself, above all that stood before. -/
theorem parse_standing (h : Tree.parse n source = .ok (t, next)) :
    Standing next [t] ∧ t.isBranch = false ∧ n ≤ next ∧ ∀ i ∈ ids t, n ≤ i := by
  unfold Tree.parse at h
  split at h
  next u hu =>
    have hpart := Grammar.part_parseSource hu
    obtain ⟨hstanding, hle, hids⟩ := number_standing hpart.plain hpart.unnumbered hpart.fits n
    have hsingle := (isBranch_number u n).trans hpart.single
    rw [Except.ok.inj h] at hstanding hle hids hsingle
    exact ⟨hstanding, hsingle, hle, hids⟩
  · cases h

def readsAs (text : String) (test : Tree → Bool) : Bool :=
  match Tree.parse 1 text with
  | .ok (t, _) => test t
  | .error _ => false

theorem of_readsAs {text : String} {test : Tree → Bool} (h : readsAs text test = true) :
    ∃ t n, Tree.parse 1 text = .ok (t, n) ∧ test t = true := by
  unfold readsAs at h
  split at h
  next t n hparse => exact ⟨t, n, hparse, h⟩
  · cases h

end Tree
end SourceOptimizer
