import SourceOptimizer.Proofs.Evaluation
import SourceOptimizer.Proofs.Placement
import SourceOptimizer.Tree.Printer.Statement

/-! The text of a tree does not depend on the identities of its nodes, as long as they are different: they only tell
how tightly the place of a node binds. Nor does it depend on the lines, as long as they are known. -/
namespace SourceOptimizer.Printer

variable {γ : Type} {c : Prop} {ys : List γ} {x y : Writing Unit} {left right : String} {xs : List (Writing Unit)}
  {ps' qs' : List Piece} {k' : Kind}

/-! ## Actions that differ in identities -/

def Pairs (R : Nat → Nat → Prop) : Prop := ∀ ⦃i j i' j'⦄, R i j → R i' j' → (i = i' ↔ j = j')

variable {R : Nat → Nat → Prop} {α β : Type}

structure State.Mirrors (R : Nat → Nat → Prop) (st st' : State) : Prop where
  out : st'.out = st.out
  started : st'.started = st.started
  indent : st'.indent = st.indent
  bindings : ∀ ⦃i j⦄, R i j → st'.bindings[j]? = st.bindings[i]?
  groups : st'.groups = st.groups
  continues : st'.continues = st.continues
  plain : st'.plain = st.plain

inductive Agree (R : Nat → Nat → Prop) : Except Fault (α × State) → Except Fault (α × State) → Prop
  | ok (a : α) {st st' : State} (h : st.Mirrors R st') : Agree R (.ok (a, st)) (.ok (a, st'))
  | error (e : Fault) : Agree R (.error e) (.error e)

def Mirrors (R : Nat → Nat → Prop) (x y : Writing α) : Prop := ∀ ⦃st st' : State⦄, st.Mirrors R st' → Agree R (x st) (y st')

namespace Mirrors

theorem pure (a : α) : Mirrors R (Pure.pure a) (Pure.pure a) := fun _ _ h => .ok a h

theorem throw (e : Fault) : Mirrors R (throw e : Writing α) (throw e) := fun _ _ _ => .error e

theorem bind {x y : Writing α} {f g : α → Writing β} (h : Mirrors R x y) (hf : ∀ a, Mirrors R (f a) (g a)) :
    Mirrors R (x >>= f) (y >>= g) := by
  intro st st' hst
  change Agree R (x st >>= fun p => f p.1 p.2) (y st' >>= fun p => g p.1 p.2)
  generalize x st = rx, y st' = ry, h hst = hagree
  cases hagree with
  | ok a hst => exact hf a hst
  | error e => exact .error e

theorem seq {x y : Writing α} {z w : Writing β} (h : Mirrors R x y) (h' : Mirrors R z w) :
    Mirrors R (x >>= fun _ => z) (y >>= fun _ => w) := .bind h fun _ => h'

theorem get {f g : State → Writing β} (h : ∀ ⦃st st' : State⦄, st.Mirrors R st' → Mirrors R (f st) (g st')) :
    Mirrors R (MonadState.get >>= f) (MonadState.get >>= g) := fun _ _ hst => h hst hst

theorem set {st st' : State} (h : st.Mirrors R st') : Mirrors R (MonadStateOf.set st : Writing PUnit) (MonadStateOf.set st') :=
  fun _ _ _ => .ok _ h

theorem modify {f g : State → State} (h : ∀ ⦃st st' : State⦄, st.Mirrors R st' → (f st).Mirrors R (g st')) :
    Mirrors R (modify f : Writing PUnit) (modify g) := fun _ _ hst => .ok _ (h hst)

theorem ite [Decidable c] {x y x' y' : Writing α} (h : Mirrors R x x') (h' : Mirrors R y y') :
    Mirrors R (if c then x else y) (if c then x' else y') := by
  split
  · exact h
  · exact h'

theorem after [Decidable c] {x y : Writing PUnit} {z w : Writing α} (h : Mirrors R x y) (h' : Mirrors R z w) :
    Mirrors R (if c then x >>= fun _ => z else z) (if c then y >>= fun _ => w else w) := .ite (.seq h <| h') h'

theorem forM {f : γ → Writing PUnit} {xs : List γ} (h : List.Forall₂ (fun x y => Mirrors R (f x) (f y)) xs ys) :
    Mirrors R (xs.forM f) (ys.forM f) := by
  induction h with
  | nil => exact .pure _
  | cons head _ ih => exact .seq head <| ih

theorem mapM {f : γ → Writing α} {xs : List γ} (h : List.Forall₂ (fun x y => Mirrors R (f x) (f y)) xs ys) :
    Mirrors R (xs.mapM f) (ys.mapM f) := by
  induction h with
  | nil => exact .pure _
  | cons head _ ih =>
    rw [List.mapM_cons, List.mapM_cons]
    exact .bind head fun a => .bind ih fun as => .pure _

/-! ## Writing -/

theorem write (s : String) : Mirrors R (write s) (write s) :=
  .modify fun _ _ h => ⟨congrArg (· ++ s) h.out, rfl, h.indent, h.bindings, h.groups, h.continues, h.plain⟩

theorem wrote {s : String} {z w : Writing α} (h : Mirrors R z w) :
    Mirrors R (Printer.write s >>= fun _ => z) (Printer.write s >>= fun _ => w) := .seq (.write s) h

theorem newlineUnlessFirst : Mirrors R newlineUnlessFirst newlineUnlessFirst := by
  refine .get fun st st' h => ?_
  rw [h.started]
  exact .ite (.write _) (.pure _)

theorem fill (s : String) : Mirrors R (fill s) (fill s) := by
  refine .seq .newlineUnlessFirst <| .get fun st st' h => ?_
  rw [h.indent]
  exact .write _

theorem block (h : Mirrors R x y) : Mirrors R (block x) (block y) := by
  have hindent (f : Nat → Nat) : Mirrors R
    (MonadStateOf.modifyGet fun st : State => (PUnit.unit, { st with indent := f st.indent }) : Writing PUnit)
      (MonadStateOf.modifyGet fun st : State => (PUnit.unit, { st with indent := f st.indent })) :=
    .modify fun _ _ h => ⟨h.out, h.started, congrArg f h.indent, h.bindings, h.groups, h.continues, h.plain⟩
  exact .wrote <| .seq (hindent (· + 1)) <| .seq h <| hindent (· - 1)

theorem between (h : Mirrors R x y) :
    Mirrors R (between left right x) (between left right y) := .wrote <| .seq h <| .write _

theorem betweenIf {c c' : Bool} (hc : c' = c) (h : Mirrors R x y) :
    Mirrors R (betweenIf c left right x) (betweenIf c' left right y) := by
  subst hc
  exact .ite h.between h

theorem captured (h : Mirrors R x y) : Mirrors R (captured x) (captured y) := by
  refine .get fun st st' hst => .seq (.set ?_) <| .seq h <| .get fun r r' hr => .seq (.set ?_) <| ?_
  · exact ⟨rfl, rfl, hst.indent, hst.bindings, hst.groups, hst.continues, hst.plain⟩
  · exact ⟨hst.out, hst.started, hr.indent, hr.bindings, hr.groups, hr.continues, hr.plain⟩
  · rw [hr.out, hr.started]
    exact .pure _

theorem aside (h : Mirrors R x y) : Mirrors R (aside x) (aside y) := by
  refine .get fun st st' hst => .seq (.set ?_) <| .seq h <| .get fun r r' hr => .seq (.set hst) <| ?_
  · exact ⟨rfl, rfl, rfl, fun _ _ _ => by simp, rfl, rfl, rfl⟩
  · rw [hr.out]
    exact .pure _

end Mirrors

/-! ## Pieces -/

/-- Pieces that differ in identities and lines only. -/
inductive Twins (R : Nat → Nat → Prop) : Piece → Piece → Prop
  | one {tag tag' : Tag} {kind kind' : Kind} {ps ps' : List Piece} {put put' inner inner' : Writing Unit} (hid : R tag.id tag'.id)
      (hline : kind.hasLine = true → tag'.line.isNone = tag.line.isNone) (hkind : kind'.bare = kind.bare)
      (hparts : List.Forall₂ (Twins R) ps ps')
      (hput : Mirrors R put put') (hinner : Mirrors R inner inner') :
      Twins R (.one tag kind ps put inner) (.one tag' kind' ps' put' inner')
  | many {ps ps' : List Piece} (hparts : List.Forall₂ (Twins R) ps ps') (hput : Mirrors R (Piece.putAll ps) (Piece.putAll ps')) :
      Twins R (.many ps) (.many ps')
  | absent : Twins R .absent .absent

theorem eq_or_literals {kind kind' : Kind} (h : kind'.bare = kind.bare) :
    kind' = kind ∨ ∃ l l' : Literal, kind = .constant l ∧ kind' = .constant l' ∧ l'.value = l.value ∧ l'.marked = l.marked := by
  unfold Kind.bare at h
  split at h
  · split at h
    · simp only [Kind.constant.injEq, Literal.mk.injEq, true_and] at h
      exact .inr ⟨_, _, rfl, rfl, h.1, h.2⟩
    next hne => exact (hne _ h.symm).elim
  next hne =>
    split at h
    · exact (hne _ h).elim
    · exact .inl h

variable {p q : Piece} {ps qs : List Piece} {tag tag' : Tag} {k : Kind}

theorem Twins.isAbsent (h : Twins R p q) : q.isAbsent = p.isAbsent := by cases h <;> rfl

theorem Twins.items (h : Twins R p q) : List.Forall₂ (Twins R) p.items q.items := by
  cases h with
  | one _ _ _ _ _ _ => exact .nil
  | many h => exact h
  | absent => exact .nil

theorem Twins.isEmpty (h : List.Forall₂ (Twins R) ps qs) : qs.isEmpty = ps.isEmpty := by cases h <;> rfl

theorem Twins.put (h : Twins R p q) : Mirrors R p.put q.put := by
  cases h with
  | one _ _ _ _ hput _ => exact hput
  | many _ hput => exact hput
  | absent => exact .throw _

theorem Mirrors.putAll (h : List.Forall₂ (Twins R) ps qs) : Mirrors R (Piece.putAll ps) (Piece.putAll qs) := by
  induction h with
  | nil => exact .pure _
  | cons head _ ih => exact .seq head.put <| ih

theorem Twins.putInner (h : Twins R p q) : Mirrors R p.putInner q.putInner := by
  cases h with
  | one _ _ _ _ _ hinner => exact hinner
  | many _ _ => exact .throw _
  | absent => exact .throw _

theorem Twins.bind (hR : Pairs R) (h : Twins R p q) (b : Binding) : Mirrors R (p.bind b) (q.bind b) := by
  cases h with
  | @one tag tag' _ _ _ _ _ _ _ _ hid _ _ _ _ _ =>
    refine .modify fun st st' h => ⟨h.out, h.started, h.indent, fun i j hij => ?_, h.groups, h.continues, h.plain⟩
    rw [Std.HashMap.getElem?_insert, Std.HashMap.getElem?_insert, h.bindings hij]
    simp only [beq_iff_eq, hR hid hij]
  | many _ _ => exact .pure _
  | absent => exact .pure _

theorem Twins.putAt (hR : Pairs R) (h : Twins R p q) (b : Binding) : Mirrors R (p.putAt b) (q.putAt b) :=
  .seq (h.bind hR b) <| h.put

theorem Twins.map {f : Piece → γ} {S : γ → γ → Prop} (hf : ∀ ⦃p q⦄, Twins R p q → S (f p) (f q))
    (h : List.Forall₂ (Twins R) ps qs) : List.Forall₂ S (ps.map f) (qs.map f) := by
  rw [List.forall₂_map_left_iff, List.forall₂_map_right_iff]
  exact h.imp fun _ _ hpq => hf hpq

namespace Mirrors

theorem separated (sep : String) {ys : List (Writing Unit)} (h : List.Forall₂ (Mirrors R) xs ys) :
    Mirrors R (separated sep xs) (separated sep ys) := by
  induction h with
  | nil => exact .pure _
  | cons head tail ih =>
    cases tail with
    | nil => exact head
    | cons _ _ => exact .seq head <| .wrote <| ih

theorem commas (h : List.Forall₂ (Twins R) ps qs) : Mirrors R (commas ps) (commas qs) :=
  .separated _ (Twins.map (fun _ _ hpq => hpq.put) h)

theorem tupleItems {ys : List (Writing Unit)} (h : List.Forall₂ (Mirrors R) xs ys) : Mirrors R (tupleItems xs) (tupleItems ys) := by
  cases h with
  | nil => exact .separated _ .nil
  | cons head tail =>
    cases tail with
    | nil => exact .seq head <| .write _
    | cons next rest => exact .separated _ (.cons head (.cons next rest))

theorem bindingOf (hid : R tag.id tag'.id) : Mirrors R (bindingOf tag) (bindingOf tag') := by
  refine .get fun st st' h => ?_
  rw [h.bindings hid]
  exact .pure _

theorem guarded {b : Binding} (hid : R tag.id tag'.id) (h : Mirrors R x y) :
    Mirrors R (guarded b tag x) (guarded b tag' y) := .bind (.bindingOf hid) fun _ => .betweenIf rfl h

theorem need (k : Kind) (field : String) (h : Twins R p q) : Mirrors R (need k field p) (need k field q) := by
  rw [Printer.need, Printer.need, h.isAbsent]
  exact .ite (.throw _) (.pure _)

theorem needed {k : Kind} {field : String} {z w : Writing α} (h : Twins R p q) (h' : Mirrors R z w) :
    Mirrors R (Printer.need k field p >>= fun _ => z) (Printer.need k field q >>= fun _ => w) := .seq (.need k field h) h'

theorem needLine (k : Kind) (h : tag'.line.isNone = tag.line.isNone) : Mirrors R (needLine tag k) (needLine tag' k) := by
  rw [Printer.needLine, Printer.needLine, h]
  exact .ite (.throw _) (.pure _)

/-! ## Expressions -/

theorem writeValue (v : Value) : Mirrors R (writeValue v) (writeValue v) := by
  unfold Printer.writeValue
  split
  · split
    · exact .write _
    · exact .throw _
  · split
    · exact .write _
    · exact .throw _
  · refine .get fun st st' h => ?_
    rw [h.plain]
    exact .ite (.write _) (.write _)
  · split
    · exact .write _
    · exact .throw _

theorem writeConstant {l l' : Literal} (hvalue : l'.value = l.value) (hmarked : l'.marked = l.marked) :
    Mirrors R (writeConstant l) (writeConstant l') := by
  unfold Printer.writeConstant
  rw [hvalue, hmarked]
  split
  next vs =>
    refine .between (.tupleItems ?_)
    rw [List.forall₂_map_left_iff, List.forall₂_map_right_iff, List.forall₂_same]
    exact fun v _ => .writeValue v
  · exact .write _
  · exact .after (.write _) (.writeValue _)

theorem comprehensionIn (h : Mirrors R x y) (hgenerators : Twins R p q) :
    Mirrors R (comprehensionIn left right x p) (comprehensionIn left right y q) := .between (.seq h <| hgenerators.put)

theorem wordOperands (hR : Pairs R) (sign : String) (b : Binding) (h : List.Forall₂ (Twins R) ps qs) :
    Mirrors R (wordOperands sign b ps) (wordOperands sign b qs) := by
  induction h generalizing b with
  | nil => exact .pure _
  | cons head tail ih =>
    refine .seq (head.putAt hR _) <| ?_
    rw [Twins.isEmpty tail]
    exact .after (.write _) (ih _)

theorem comparisons (ops : List CompareOp) (h : List.Forall₂ (Twins R) ps qs) :
    Mirrors R (comparisons (ops.zip ps)) (comparisons (ops.zip qs)) := by
  induction h generalizing ops with
  | nil =>
    rw [List.zip_nil_right]
    exact .pure _
  | cons head _ ih =>
    cases ops with
    | nil => exact .pure _
    | cons op ops => exact .wrote <| .seq head.put <| ih ops

theorem dictItem (hR : Pairs R) {p' q' : Piece} (h : Twins R p q) (h' : Twins R p' q') :
    Mirrors R (dictItem (p, p')) (dictItem (q, q')) := by
  cases h with
  | one hid hline hkind hparts hput hinner =>
    exact .bind (Twins.one hid hline hkind hparts hput hinner).put fun _ => .wrote <| h'.put
  | many hparts hput => exact .bind (Twins.many hparts hput).put fun _ => .wrote <| h'.put
  | absent => exact .wrote <| h'.putAt hR _

theorem dictItems (hR : Pairs R) (h : List.Forall₂ (Twins R) ps qs) (h' : List.Forall₂ (Twins R) ps' qs') :
    List.Forall₂ (Mirrors R) ((ps.zip ps').map Printer.dictItem) ((qs.zip qs').map Printer.dictItem) := by
  induction h generalizing ps' qs' with
  | nil => exact .nil
  | cons head _ ih =>
    cases h' with
    | nil => exact .nil
    | cons head' tail' => exact .cons (.dictItem hR head head') (ih tail')

theorem marked (mark : String) (h : Twins R p q) : Mirrors R (marked mark p) (marked mark q) := by
  rw [Printer.marked, Printer.marked, h.isAbsent]
  exact .ite (.wrote <| h.put) (.pure _)

theorem plainParameters {positional : Nat} (i : Nat) {ds es : List (Option Piece)} (h : List.Forall₂ (Twins R) ps qs)
    (h' : List.Forall₂ (Option.Rel (Twins R)) ds es) :
    Mirrors R (plainParameters positional i (ps.zip ds)) (plainParameters positional i (qs.zip es)) := by
  induction h generalizing i ds es with
  | nil => exact .pure _
  | cons head _ ih =>
    cases h' with
    | nil => exact .pure _
    | cons head' tail' =>
      refine .after (.write _) (.seq head.put <| ?_)
      cases head' with
      | some h => exact .wrote <| .seq h.put <| .after (.write _) (ih _ tail')
      | none => exact .after (.write _) (ih _ tail')

theorem keywordParameters (h : List.Forall₂ (Twins R) ps qs) (h' : List.Forall₂ (Twins R) ps' qs') :
    Mirrors R (keywordParameters (ps.zip ps')) (keywordParameters (qs.zip qs')) := by
  induction h generalizing ps' qs' with
  | nil => exact .pure _
  | cons head _ ih =>
    cases h' with
    | nil => exact .pure _
    | cons head' tail' =>
      exact .wrote <| .seq head.put <| .seq (.marked _ head') <| ih tail'

theorem writeParameters {positional plain keywordOnly keywordDefaults defaults positional' plain' keywordOnly' keywordDefaults'
      defaults' : List Piece} {variadic keywordVariadic variadic' keywordVariadic' : Piece}
    (hpositional : List.Forall₂ (Twins R) positional positional') (hplain : List.Forall₂ (Twins R) plain plain')
    (hvariadic : Twins R variadic variadic') (hkeywordOnly : List.Forall₂ (Twins R) keywordOnly keywordOnly')
    (hkeywordDefaults : List.Forall₂ (Twins R) keywordDefaults keywordDefaults')
    (hkeywordVariadic : Twins R keywordVariadic keywordVariadic') (hdefaults : List.Forall₂ (Twins R) defaults defaults') :
    Mirrors R (writeParameters positional plain variadic keywordOnly keywordDefaults keywordVariadic defaults)
      (writeParameters positional' plain' variadic' keywordOnly' keywordDefaults' keywordVariadic' defaults') := by
  have hall : List.Forall₂ (Twins R) (positional ++ plain) (positional' ++ plain') := List.rel_append hpositional hplain
  have hpadded : List.Forall₂ (Option.Rel (Twins R)) (List.replicate ((positional ++ plain).length - defaults.length) none ++
      defaults.map some) (List.replicate ((positional' ++ plain').length - defaults'.length) none ++ defaults'.map some) := by
    rw [hall.length_eq, hdefaults.length_eq]
    refine List.rel_append ?_ (Twins.map (fun _ _ h => .some h) hdefaults)
    exact List.forall₂_same.mpr fun d hd => by rw [(List.mem_replicate.mp hd).2]; exact .none
  refine .seq ?_ <| ?_
  · rw [hpositional.length_eq]
    exact .plainParameters 0 hall hpadded
  have hrest (c : Bool) : Mirrors R
      (do
        Printer.keywordParameters (keywordOnly.zip keywordDefaults)
        if !keywordVariadic.isAbsent then
          if c then Printer.write ", "
          Printer.write "**"
          keywordVariadic.put)
      (do
        Printer.keywordParameters (keywordOnly'.zip keywordDefaults')
        if !keywordVariadic.isAbsent then
          if c then Printer.write ", "
          Printer.write "**"
          keywordVariadic'.put) :=
    .seq (.keywordParameters hkeywordOnly hkeywordDefaults) <|
      .ite (.after (.write _) (.wrote <| hkeywordVariadic.put)) (.pure _)
  rw [Twins.isEmpty hall, hvariadic.isAbsent, Twins.isEmpty hkeywordOnly, hkeywordVariadic.isAbsent]
  exact .ite (.after (.write _) (.wrote <| .after hvariadic.put (hrest _))) (hrest _)

theorem writeField (hR : Pairs R) (k : Kind) (conversion : Option Char) {format format' : Piece} (h : Twins R p q)
    (hformat : Twins R format format') : Mirrors R (writeField k conversion p format) (writeField k conversion q format') := by
  refine .between (.seq (.need k _ h) <| .bind (.aside (h.putAt hR _)) fun expr => ?_)
  rw [hformat.isAbsent]
  have hend : Mirrors R (if !format.isAbsent then Printer.write ":" >>= fun _ => format.putInner else Pure.pure ())
      (if !format.isAbsent then Printer.write ":" >>= fun _ => format'.putInner else Pure.pure ()) :=
    .ite (.wrote <| hformat.putInner) (.pure _)
  refine .ite (.seq (.throw _) <| ?_) ?_
  all_goals
    refine .after (.write _) (.wrote <| ?_)
    cases conversion with
    | none => exact hend
    | some c => exact .wrote <| hend

theorem captureInner (h : Twins R p q) : Mirrors R (captureInner p) (captureInner q) := by
  refine .bind (.captured h.putInner) fun r => ?_
  cases h with
  | one _ _ hkind _ _ _ =>
    rcases eq_or_literals hkind with rfl | ⟨l, l', rfl, rfl, -, -⟩
    · exact .pure _
    · exact .pure _
  | many _ _ => exact .pure _
  | absent => exact .pure _

theorem writeFormatted (hinner : Mirrors R x y) (h : List.Forall₂ (Twins R) ps qs) :
    Mirrors R (writeFormatted x ps) (writeFormatted y qs) := by
  refine .wrote <| .get fun st st' hst => ?_
  rw [hst.plain]
  exact .ite (.bind (.captured hinner) fun _ => .write _)
    (.bind (.mapM (h.imp fun _ _ hpq => .captureInner hpq)) fun _ => .write _)

end Mirrors

def isLeaf : Kind → Bool
  | .globalStmt _ | .nonlocalStmt _ | .passStmt | .breakStmt | .continueStmt | .importName _ _ | .constant _ | .name _ _
  | .matchSingleton _ | .matchStar _ => true
  | _ => false

inductive Spine (R : Nat → Nat → Prop) : List Piece → List Piece → Prop
  | zero : Spine R [] []
  | one {a a'} (ha : Twins R a a') : Spine R [a] [a']
  | two {a b a' b'} (ha : Twins R a a') (hb : Twins R b b') : Spine R [a, b] [a', b']
  | three {a b c a' b' c'} (ha : Twins R a a') (hb : Twins R b b') (hc : Twins R c c') : Spine R [a, b, c] [a', b', c']
  | four {a b c d a' b' c' d'} (ha : Twins R a a') (hb : Twins R b b') (hc : Twins R c c') (hd : Twins R d d') :
      Spine R [a, b, c, d] [a', b', c', d']
  | seven {a b c d e f g a' b' c' d' e' f' g'} (ha : Twins R a a') (hb : Twins R b b') (hc : Twins R c c') (hd : Twins R d d')
      (he : Twins R e e') (hf : Twins R f f') (hg : Twins R g g') : Spine R [a, b, c, d, e, f, g] [a', b', c', d', e', f', g']
  | five {a b c d e a' b' c' d' e'} : Spine R [a, b, c, d, e] [a', b', c', d', e']
  | six {a b c d e f a' b' c' d' e' f'} : Spine R [a, b, c, d, e, f] [a', b', c', d', e', f']
  | more {a b c d e f g h rest a' b' c' d' e' f' g' h' rest'} :
      Spine R (a :: b :: c :: d :: e :: f :: g :: h :: rest) (a' :: b' :: c' :: d' :: e' :: f' :: g' :: h' :: rest')

theorem spine (h : List.Forall₂ (Twins R) ps qs) : Spine R ps qs := by
  rcases h with _ | ⟨ha, _ | ⟨hb, _ | ⟨hc, _ | ⟨hd, _ | ⟨he, _ | ⟨hf, _ | ⟨hg, _ | _⟩⟩⟩⟩⟩⟩⟩
  · exact .zero
  · exact .one ha
  · exact .two ha hb
  · exact .three ha hb hc
  · exact .four ha hb hc hd
  · exact .five
  · exact .six
  · exact .seven ha hb hc hd he hf hg
  · exact .more

variable {a b c d e f g a' b' c' d' e' f' g' : Piece}

theorem Twins.isWhole (h : Twins R p q) : isWhole q = isWhole p := by
  cases h with
  | @one _ _ _ kind _ _ _ _ _ _ _ _ hkind _ _ _ =>
    rcases eq_or_literals hkind with rfl | ⟨l, l', rfl, rfl, hvalue, -⟩
    · cases kind <;> rfl
    · simp only [Printer.isWhole, hvalue]
  | many _ _ => rfl
  | absent => rfl

theorem Twins.indexItems (h : Twins R p q) : Option.Rel (List.Forall₂ (Twins R)) (indexItems? p) (indexItems? q) := by
  cases h with
  | @one _ _ _ kind _ _ _ _ _ _ _ _ hkind hparts _ _ =>
    rcases eq_or_literals hkind with rfl | ⟨l, l', rfl, rfl, -, -⟩
    · cases kind with
      | tuple ctx =>
        rcases hparts with _ | ⟨head, tail⟩
        · exact .none
        rcases head with _ | ⟨_ | ⟨first, rest⟩, _⟩ | _
        · exact .none
        · rcases tail with _ | _ <;> exact .none
        · rcases tail with _ | _
          · exact .some (.cons first rest)
          · exact .none
        · exact .none
      | _ => exact .none
    · exact .none
  | many _ _ => exact .none
  | absent => exact .none

namespace Mirrors

theorem innerLayout (hR : Pairs R) (hkind : k'.bare = k.bare) (h : List.Forall₂ (Twins R) ps qs) :
    Mirrors R (innerLayout k ps) (innerLayout k' qs) := by
  rcases eq_or_literals hkind with rfl | ⟨l, l', rfl, rfl, hvalue, -⟩
  · cases k' with
    | constant l =>
      simp only [Printer.innerLayout]
      split
      · exact .write _
      · exact .throw _
    | joinedStr =>
      rcases h with _ | ⟨hvalues, _ | _⟩
      · exact .throw _
      · exact .forM (hvalues.items.imp fun _ _ hpq => hpq.putInner)
      · exact .throw _
    | formattedValue conversion =>
      rcases h with _ | ⟨hvalue, _ | ⟨hformat, _ | _⟩⟩
      · exact .throw _
      · exact .throw _
      · exact .writeField hR _ conversion hvalue hformat
      · exact .throw _
    | _ => exact .throw _
  · simp only [Printer.innerLayout, hvalue]
    split
    · exact .write _
    · exact .throw _

theorem namedPatterns (names : List String) (h : List.Forall₂ (Twins R) ps qs) :
    List.Forall₂ (Mirrors R) (namedPatterns names ps) (namedPatterns names qs) := by
  induction h generalizing names with
  | nil =>
    rw [Printer.namedPatterns, List.zip_nil_right]
    exact .nil
  | cons head _ ih =>
    cases names with
    | nil => exact .nil
    | cons name names => exact .cons (.wrote <| head.put) (ih names)

end Mirrors

/-! ## Statements -/

theorem Twins.isContinuation (h : List.Forall₂ (Twins R) ps qs) : isContinuation qs = isContinuation ps := by
  rcases h with _ | ⟨head, _ | _⟩
  · rfl
  · cases head with
    | @one _ _ _ kind _ _ _ _ _ _ _ _ hkind _ _ _ =>
      rcases eq_or_literals hkind with rfl | ⟨l, l', rfl, rfl, -, -⟩
      · cases kind <;> rfl
      · rfl
    | many _ _ => rfl
    | absent => rfl
  · simp [Printer.isContinuation]

theorem Twins.isName (h : Twins R p q) :
    (match q.kind? with
      | some (.name _ _) => true
      | _ => false) =
    match p.kind? with
      | some (.name _ _) => true
      | _ => false := by
  cases h with
  | one _ _ hkind _ _ _ =>
    rcases eq_or_literals hkind with rfl | ⟨l, l', rfl, rfl, -, -⟩
    · rfl
    · rfl
  | many _ _ => rfl
  | absent => rfl

theorem Twins.documentation (h : List.Forall₂ (Twins R) ps qs) :
    Option.Rel (fun l l' : Literal => l'.value = l.value ∧ l'.marked = l.marked) (documentation? ps) (documentation? qs) := by
  rcases h with _ | ⟨head, _⟩
  · exact .none
  cases head with
  | @one _ _ _ kind _ _ _ _ _ _ _ _ hkind hparts _ _ =>
    rcases eq_or_literals hkind with rfl | ⟨l, l', rfl, rfl, -, -⟩
    · cases kind with
      | exprStmt =>
        rcases hparts with _ | ⟨hvalue, htail⟩
        · exact .none
        cases hvalue with
        | @one _ _ _ kind _ _ _ _ _ _ _ _ hkind _ _ _ =>
          rcases htail with _ | _
          · rcases eq_or_literals hkind with rfl | ⟨l, l', rfl, rfl, hvalue, hmarked⟩
            · cases kind with
              | constant l =>
                simp only [documentation?]
                split
                · exact .some ⟨rfl, rfl⟩
                · exact .none
              | _ => exact .none
            · simp only [documentation?, hvalue]
              split
              · exact .some ⟨hvalue, hmarked⟩
              · exact .none
          · simp [documentation?]
        | many _ _ => exact .none
        | absent => exact .none
      | _ => exact .none
    · exact .none
  | many _ _ => exact .none
  | absent => exact .none

namespace Mirrors

theorem documentedBody (h : List.Forall₂ (Twins R) ps qs) : Mirrors R (documentedBody ps) (documentedBody qs) := by
  have htail : List.Forall₂ (Twins R) ps.tail qs.tail := by
    cases h with
    | nil => exact .nil
    | cons _ htail => exact htail
  have hdocumentation := Twins.documentation h
  unfold Printer.documentedBody
  generalize documentation? ps = l, documentation? qs = l' at hdocumentation ⊢
  cases hdocumentation with
  | none => exact .putAll h
  | some heq =>
    simp only [heq.1, heq.2]
    refine .seq (.fill _) <| .after (.write _) ?_
    split
    · exact .wrote <| .putAll htail
    · exact .putAll htail

theorem decorators (h : Twins R p q) : Mirrors R (decorators p) (decorators q) :=
  .forM (h.items.imp fun _ _ h => .seq (.fill _) <| h.put)

theorem elseBlock (word : String) (h : Twins R p q) : Mirrors R (elseBlock word p) (elseBlock word q) := by
  rw [Printer.elseBlock, Printer.elseBlock, Twins.isEmpty h.items]
  exact .ite (.seq (.fill _) <| .block h.put) (.pure _)

theorem writeFunction (words name : String) (hline : tag'.line.isNone = tag.line.isNone) (ha : Twins R a a') (hb : Twins R b b')
    (hc : Twins R c c') (hd : Twins R d d') :
    Mirrors R (writeFunction tag k words name a b c d) (writeFunction tag' k words name a' b' c' d') :=
  .seq .newlineUnlessFirst <| .seq (.decorators hc) <| .seq (.fill _) <|
    .seq (.between (.bind (.need _ _ ha) fun _ => ha.put)) <| .seq (.marked _ hd) <|
    .seq (.needLine k hline) <| .block (.documentedBody hb.items)

theorem writeFor (hR : Pairs R) (words : String) (hline : tag'.line.isNone = tag.line.isNone) (ha : Twins R a a')
    (hb : Twins R b b') (hc : Twins R c c') (hd : Twins R d d') :
    Mirrors R (writeFor tag k words a b c d) (writeFor tag' k words a' b' c' d') :=
  .seq (.fill _) <| .needed ha <| .seq (ha.putAt hR _) <| .wrote <|
    .needed hb <| .seq hb.put <| .seq (.needLine k hline) <| .seq (.block hc.put) <|
    .elseBlock _ hd

theorem writeWith (words : String) (hline : tag'.line.isNone = tag.line.isNone) (ha : Twins R a a') (hb : Twins R b b') :
    Mirrors R (writeWith tag k words a b) (writeWith tag' k words a' b') :=
  .seq (.fill _) <| .seq (.commas ha.items) <| .seq (.needLine k hline) <| .block hb.put

theorem writeTry (groups : Bool) (ha : Twins R a a') (hb : Twins R b b') (hc : Twins R c c') (hd : Twins R d d') :
    Mirrors R (insideTry groups (writeTry a b c d)) (insideTry groups (writeTry a' b' c' d')) := by
  refine .get fun st st' hst => .seq (.modify fun _ _ h => ?_) <| .seq ?_ <| .modify fun _ _ h => ?_
  · exact ⟨h.out, h.started, h.indent, h.bindings, rfl, h.continues, h.plain⟩
  · exact .seq (.fill _) <| .seq (.block ha.put) <| .seq hb.put <| .seq (.elseBlock _ hc) <|
      .elseBlock _ hd
  · exact ⟨h.out, h.started, h.indent, h.bindings, hst.groups, h.continues, h.plain⟩

theorem continues (b : Bool) : Mirrors R
    (MonadStateOf.modifyGet fun st : State => (PUnit.unit, { st with continues := b }) : Writing PUnit)
    (MonadStateOf.modifyGet fun st : State => (PUnit.unit, { st with continues := b })) :=
  .modify fun _ _ h => ⟨h.out, h.started, h.indent, h.bindings, h.groups, rfl, h.plain⟩

theorem writeIf (ha : Twins R a a') (hb : Twins R b b') (hc : Twins R c c') : Mirrors R (writeIf k a b c) (writeIf k a' b' c') := by
  refine .get fun st st' hst => ?_
  rw [hst.continues, Twins.isContinuation hc.items]
  exact .seq (.continues false) <| .seq (.fill _) <| .needed ha <| .seq ha.put <|
    .seq (.block hb.put) <| .ite (.seq (.continues true) <| hc.put) (.elseBlock _ hc)

/-! ## Nodes with as many parts as their kind has -/

section Parts
variable (hR : Pairs R) (hid : R tag.id tag'.id) (hk : isLeaf k = false)
include hR hid hk

section Few
variable (ha : Twins R a a')
include ha

theorem pattern_one : Mirrors R (patternLayout tag k [a]) (patternLayout tag' k [a']) := by
  cases k with
  | matchValue => exact ha.put
  | matchSequence => exact .between (.commas ha.items)
  | matchAs name =>
    cases name with
    | none => exact .write _
    | some n =>
      change Mirrors R (if a.isAbsent then Printer.write n else _) (if a'.isAbsent then Printer.write n else _)
      rw [ha.isAbsent]
      exact .ite (.write _) (.guarded hid (.seq (ha.putAt hR _) <| .write _))
  | matchOr =>
    exact .guarded hid (.seq (.forM (ha.items.imp fun _ _ h => h.bind hR _)) <|
      .separated _ (Twins.map (fun _ _ h => h.put) ha.items))
  | matchSingleton | matchStar => cases hk
  | _ => exact .pure _

theorem expression_one : Mirrors R (expressionLayout tag k [a]) (expressionLayout tag' k [a']) := by
  cases k with
  | boolOp op => exact .guarded hid (.wordOperands hR _ _ ha.items)
  | unaryOp op =>
    exact .guarded hid (.wrote <| .after (.write _) (.needed ha <| ha.putAt hR _))
  | setDisplay =>
    change Mirrors R (if a.items.isEmpty then _ else _) (if a'.items.isEmpty then _ else _)
    rw [Twins.isEmpty ha.items]
    exact .ite (.write _) (.between (.commas ha.items))
  | await =>
    exact .guarded hid (.wrote <| .needed ha <| .wrote <| ha.putAt hR _)
  | yield =>
    refine .guarded hid (.wrote <| ?_)
    rw [ha.isAbsent]
    exact .ite (.wrote <| ha.putAt hR _) (.pure _)
  | yieldFrom => exact .guarded hid (.wrote <| .needed ha <| ha.putAt hR _)
  | joinedStr => exact .writeFormatted (.innerLayout hR rfl (.cons ha .nil)) ha.items
  | attr name ctx =>
    refine .needed ha <| .seq (ha.putAt hR _) <| ?_
    rw [ha.isWhole]
    exact .after (.write _) (.wrote <| .write _)
  | starred ctx => exact .wrote <| .needed ha <| ha.putAt hR _
  | list ctx => exact .between (.commas ha.items)
  | tuple ctx =>
    refine .bind (.bindingOf hid) fun binding => ?_
    refine .betweenIf ?_ (.tupleItems (Twins.map (fun _ _ h => h.put) ha.items))
    rw [Twins.isEmpty ha.items]
  | arg name => exact .wrote <| .marked _ ha
  | keyword name =>
    cases name with
    | none => exact .wrote <| .needed ha <| ha.put
    | some n => exact .wrote <| .wrote <| .needed ha <| ha.put
  | constant | name => cases hk
  | _ => exact .pattern_one hR hid hk ha

theorem layout_one : Mirrors R (layout tag k [a]) (layout tag' k [a']) := by
  cases k with
  | moduleDef => exact .documentedBody ha.items
  | returnStmt => exact .seq (.fill _) <| .marked _ ha
  | deleteStmt | importStmt => exact .seq (.fill _) <| .commas ha.items
  | importFrom source level =>
    refine .seq (.fill _) <| .wrote <| ?_
    cases source with
    | none => exact .wrote <| .commas ha.items
    | some m => exact .after (.write _) (.wrote <| .commas ha.items)
  | exprStmt => exact .seq (.fill _) <| .needed ha <| ha.putAt hR _
  | globalStmt | nonlocalStmt | passStmt | breakStmt | continueStmt | importName => cases hk
  | _ => exact .expression_one hR hid hk ha

variable (hb : Twins R b b')
include hb

omit hid in
theorem pattern_two (tag tag' : Tag) : Mirrors R (patternLayout tag k [a, b]) (patternLayout tag' k [a', b']) := by
  cases k with
  | matchMapping rest =>
    refine .between (.seq (.separated _ (dictItems hR ha.items hb.items)) <| ?_)
    cases rest with
    | none => exact .pure _
    | some r =>
      rw [Twins.isEmpty ha.items]
      exact .after (.write _) (.write _)
  | matchSingleton | matchStar => cases hk
  | _ => exact .pure _

theorem expression_two : Mirrors R (expressionLayout tag k [a, b]) (expressionLayout tag' k [a', b']) := by
  cases k with
  | namedExpr =>
    exact .guarded hid (.needed ha <| .needed hb <| .seq (ha.bind hR _) <|
      .seq (hb.bind hR _) <| .seq ha.put <| .wrote <| hb.put)
  | binOp op =>
    exact .guarded hid (.needed ha <| .seq (ha.putAt hR _) <| .wrote <|
      .needed hb <| hb.putAt hR _)
  | lambda =>
    refine .guarded hid (.wrote <| .needed ha <| .bind (.captured ha.put) fun r => ?_)
    exact .after (.write _) (.wrote <| .needed hb <| hb.putAt hR _)
  | dict => exact .between (.separated _ (dictItems hR ha.items hb.items))
  | listComp | generatorExp | setComp => exact .comprehensionIn (.needed ha <| ha.put) hb
  | compare ops =>
    exact .guarded hid (.needed ha <| .seq (ha.bind hR _) <|
      .seq (.forM (hb.items.imp fun _ _ h => h.bind hR _)) <| .seq ha.put <| .comparisons ops hb.items)
  | formattedValue conversion => exact .writeField hR _ conversion ha hb
  | subscript ctx =>
    refine .needed ha <| .seq (ha.putAt hR _) <| .between (.needed hb <| ?_)
    have hitems := hb.indexItems
    generalize indexItems? b = items, indexItems? b' = items' at hitems ⊢
    cases hitems with
    | some h => exact .tupleItems (Twins.map (fun _ _ h => h.put) h)
    | none => exact hb.put
  | constant | name => cases hk
  | _ => exact .pattern_two hR hk ha hb tag tag'

theorem layout_two (hline : k.hasLine = true → tag'.line.isNone = tag.line.isNone) :
    Mirrors R (layout tag k [a, b]) (layout tag' k [a', b']) := by
  cases k with
  | assign =>
    exact .seq (.fill _) <| .seq (.forM (ha.items.imp fun _ _ h => .bind (h.putAt hR _) fun _ => .write _)) <|
      .needed hb <| .seq hb.put <| .needLine _ (hline rfl)
  | augAssign op =>
    exact .seq (.fill _) <| .needed ha <| .seq ha.put <| .wrote <|
      .needed hb <| hb.put
  | withStmt | asyncWith => exact .writeWith _ (hline rfl) ha hb
  | matchStmt => exact .seq (.fill _) <| .needed ha <| .seq ha.put <| .block hb.put
  | raiseStmt =>
    refine .seq (.fill _) <| ?_
    rw [ha.isAbsent]
    exact .ite (.wrote <| .seq ha.put <| .marked _ hb) (.pure _)
  | assertStmt => exact .seq (.fill _) <| .needed ha <| .seq ha.put <| .marked _ hb
  | exceptHandler name =>
    refine .get fun st st' hst => ?_
    rw [hst.groups]
    refine .seq (.fill _) <| .seq (.marked _ ha) <| ?_
    cases name with
    | none => exact .block hb.put
    | some n => exact .wrote <| .wrote <| .block hb.put
  | withItem => exact .needed ha <| .seq ha.put <| .marked _ hb
  | globalStmt | nonlocalStmt | passStmt | breakStmt | continueStmt | importName => cases hk
  | _ => exact .expression_two hR hid hk ha hb

variable (hc : Twins R c c')
include hc

omit hid in
theorem pattern_three (tag tag' : Tag) : Mirrors R (patternLayout tag k [a, b, c]) (patternLayout tag' k [a', b', c']) := by
  cases k with
  | matchClass names =>
    refine .seq (ha.putAt hR _) <| .between (.seq (.commas hb.items) <| ?_)
    rw [Twins.isEmpty hb.items]
    exact .ite (.after (.write _) (.separated _ (namedPatterns names hc.items))) (.pure _)
  | matchSingleton | matchStar => cases hk
  | _ => exact .pure _

theorem expression_three : Mirrors R (expressionLayout tag k [a, b, c]) (expressionLayout tag' k [a', b', c']) := by
  cases k with
  | ifExp =>
    exact .guarded hid (.needed hb <| .needed ha <| .seq (hb.bind hR _) <|
      .seq (ha.bind hR _) <| .seq hb.put <| .wrote <| .seq ha.put <|
      .wrote <| .needed hc <| hc.putAt hR _)
  | dictComp =>
    exact .comprehensionIn (.needed ha <| .seq ha.put <| .wrote <|
      .needed hb <| hb.put) hc
  | comprehension isAsync =>
    exact .wrote <| .needed ha <| .seq (ha.putAt hR _) <| .wrote <|
      .needed hb <| .seq (hb.bind hR _) <|
      .seq (.forM (hc.items.imp fun _ _ h => h.bind hR _)) <| .seq hb.put <|
      .forM (hc.items.imp fun _ _ h => .wrote <| h.put)
  | call =>
    exact .needed ha <| .seq (ha.putAt hR _) <| .between (.commas (List.rel_append hb.items hc.items))
  | slice =>
    change Mirrors R (if (!a.isAbsent) = true then _ else _) (if (!a'.isAbsent) = true then _ else _)
    rw [ha.isAbsent]
    refine .after ha.put (.wrote <| ?_)
    rw [hb.isAbsent]
    exact .after hb.put (.marked _ hc)
  | constant | name => cases hk
  | _ => exact .pattern_three hR hk ha hb hc tag tag'

theorem layout_three : Mirrors R (layout tag k [a, b, c]) (layout tag' k [a', b', c']) := by
  cases k with
  | annAssign simple =>
    exact .seq (.fill _) <| .needed ha <| .seq (.betweenIf (congrArg (!simple && ·) ha.isName) ha.put) <|
      .wrote <| .needed hb <| .seq hb.put <| .marked _ hc
  | whileStmt =>
    exact .seq (.fill _) <| .needed ha <| .seq ha.put <| .seq (.block hb.put) <|
      .elseBlock _ hc
  | ifStmt => exact .writeIf ha hb hc
  | matchCase =>
    exact .seq (.fill _) <| .needed ha <| .seq ha.put <| .seq (.marked _ hb) <|
      .block hc.put
  | globalStmt | nonlocalStmt | passStmt | breakStmt | continueStmt | importName => cases hk
  | _ => exact .expression_three hR hid hk ha hb hc

end Few

theorem expression (h : Spine R ps qs) : Mirrors R (expressionLayout tag k ps) (expressionLayout tag' k qs) := by
  cases h with
  | one ha => exact .expression_one hR hid hk ha
  | two ha hb => exact .expression_two hR hid hk ha hb
  | three ha hb hc => exact .expression_three hR hid hk ha hb hc
  | seven ha hb hc hd he hf hg =>
    cases k with
    | arguments => exact .writeParameters ha.items hb.items hc hd.items he.items hf hg.items
    | _ => first | exact .pure _ | cases hk
  | _ => cases k <;> first | exact .pure _ | cases hk

theorem layout_four (hline : k.hasLine = true → tag'.line.isNone = tag.line.isNone) (ha : Twins R a a') (hb : Twins R b b')
    (hc : Twins R c c') (hd : Twins R d d') : Mirrors R (layout tag k [a, b, c, d]) (layout tag' k [a', b', c', d']) := by
  cases k with
  | functionDef name | asyncFunctionDef name => exact .writeFunction _ name (hline rfl) ha hb hc hd
  | classDef name =>
    have hall : List.Forall₂ (Twins R) (a.items ++ b.items) (a'.items ++ b'.items) := List.rel_append ha.items hb.items
    exact .seq .newlineUnlessFirst <| .seq (.decorators hd) <| .seq (.fill _) <|
      .seq (.betweenIf (congrArg not (Twins.isEmpty hall)) (.commas hall)) <| .block (.documentedBody hc.items)
  | forStmt | asyncFor => exact .writeFor hR _ (hline rfl) ha hb hc hd
  | tryStmt => exact .writeTry false ha hb hc hd
  | tryStar => exact .writeTry true ha hb hc hd
  | globalStmt | nonlocalStmt | passStmt | breakStmt | continueStmt | importName => cases hk
  | _ => exact .expression hR hid hk (.four ha hb hc hd)

end Parts

theorem words (names : List String) : List.Forall₂ (Mirrors R) (names.map Printer.write) (names.map Printer.write) := by
  rw [List.forall₂_map_left_iff, List.forall₂_map_right_iff, List.forall₂_same]
  exact fun name _ => .write name

theorem leaf (hk : isLeaf k = true) (hkind : k'.bare = k.bare) : Mirrors R (layout tag k ps) (layout tag' k' qs) := by
  rcases eq_or_literals hkind with rfl | ⟨l, l', rfl, rfl, hvalue, hmarked⟩
  · cases k' with
    | globalStmt names | nonlocalStmt names => exact .seq (.fill _) <| .separated _ (words names)
    | passStmt | breakStmt | continueStmt => exact .fill _
    | importName name asName =>
      refine .wrote <| ?_
      cases asName with
      | none => exact .pure _
      | some n => exact .write _
    | constant l => exact .writeConstant rfl rfl
    | name id ctx => exact .write _
    | matchSingleton v => exact .writeValue v
    | matchStar name => exact .write _
    | _ => cases hk
  · exact .writeConstant hvalue hmarked

theorem layout (hR : Pairs R) (hid : R tag.id tag'.id) (hline : k.hasLine = true → tag'.line.isNone = tag.line.isNone)
    (hkind : k'.bare = k.bare) (h : List.Forall₂ (Twins R) ps qs) : Mirrors R (layout tag k ps) (layout tag' k' qs) := by
  cases hk : isLeaf k with
  | true => exact .leaf hk hkind
  | false =>
    obtain rfl : k' = k := by
      rcases eq_or_literals hkind with heq | ⟨l, l', rfl, rfl, -, -⟩
      · exact heq
      · cases hk
    have hexpression : Mirrors R (expressionLayout tag k' ps) (expressionLayout tag' k' qs) := .expression hR hid hk (spine h)
    cases spine h with
    | one ha => exact .layout_one hR hid hk ha
    | two ha hb => exact .layout_two hR hid hk ha hb hline
    | three ha hb hc => exact .layout_three hR hid hk ha hb hc
    | four ha hb hc hd => exact .layout_four hR hid hk hline ha hb hc hd
    | _ => cases k' <;> first | exact hexpression | cases hk

end Mirrors

/-! ## Trees -/

open Tree (ids idsAll)

mutual

/-- What of a tree is written: identities are left out, and of a line whether it is known. -/
def imprint : Tree → Tree
  | .node tag kind parts =>
    .node { line := if kind.hasLine && tag.line.isSome then some 0 else none } kind.bare (imprintAll parts)
  | .seq items => .seq (imprintAll items)
  | .absent => .absent
  | .shared id => .shared id

def imprintAll : List Tree → List Tree
  | [] => []
  | t :: ts => imprint t :: imprintAll ts

end

theorem hasLine_bare (kind : Kind) : kind.bare.hasLine = kind.hasLine := by cases kind <;> rfl

mutual

theorem length_ids : (t u : Tree) → imprint t = imprint u → (ids t).length = (ids u).length
  | .node _ _ parts, u, h => by
    cases u with
    | node _ _ parts' =>
      simp only [imprint, Tree.node.injEq] at h
      simp [ids, lengthAll_ids parts parts' h.2.2]
    | _ => simp [imprint] at h
  | .seq items, u, h => by
    cases u with
    | seq items' => exact lengthAll_ids items items' (by simpa [imprint] using h)
    | _ => simp [imprint] at h
  | .absent, u, h => by cases u <;> simp [imprint] at h; rfl
  | .shared _, u, h => by cases u <;> simp [imprint] at h; rfl

theorem lengthAll_ids : (ts us : List Tree) → imprintAll ts = imprintAll us → (idsAll ts).length = (idsAll us).length
  | [], us, h => by cases us <;> simp [imprintAll] at h; rfl
  | t :: ts, us, h => by
    cases us with
    | nil => simp [imprintAll] at h
    | cons u us =>
      simp only [imprintAll, List.cons.injEq] at h
      simp [idsAll, length_ids t u h.1, lengthAll_ids ts us h.2]

end

mutual

theorem twins (hR : Pairs R) : (t u : Tree) → imprint t = imprint u → (∀ x ∈ (ids t).zip (ids u), R x.1 x.2) →
    Twins R (pieceOf t) (pieceOf u)
  | .node tag kind parts, u, h, hids => by
    cases u with
    | node tag' kind' parts' =>
      simp only [imprint, Tree.node.injEq, Tag.mk.injEq, true_and] at h
      obtain ⟨hline, hkind, hparts⟩ := h
      simp only [ids, List.zip_cons_cons, List.forall_mem_cons] at hids
      have hall := twinsAll hR parts parts' hparts hids.2
      have hknown : kind.hasLine = true → tag'.line.isNone = tag.line.isNone := by
        intro hkind'
        rw [← hasLine_bare kind', ← hkind, hasLine_bare, hkind'] at hline
        cases hl : tag.line <;> cases hl' : tag'.line <;> simp [hl, hl'] at hline ⊢
      exact .one hids.1 hknown hkind.symm hall (.layout hR hids.1 hknown hkind.symm hall) (.innerLayout hR hkind.symm hall)
    | _ => simp [imprint] at h
  | .seq items, u, h, hids => by
    cases u with
    | seq items' =>
      have hall := twinsAll hR items items' (by simpa [imprint] using h) hids
      exact .many hall (.putAll hall)
    | _ => simp [imprint] at h
  | .absent, u, h, _ => by cases u <;> simp [imprint] at h; exact .absent
  | .shared _, u, h, _ => by cases u <;> simp [imprint] at h; exact .absent

theorem twinsAll (hR : Pairs R) : (ts us : List Tree) → imprintAll ts = imprintAll us → (∀ x ∈ (idsAll ts).zip (idsAll us), R x.1 x.2) →
    List.Forall₂ (Twins R) (piecesOf ts) (piecesOf us)
  | [], us, h, _ => by cases us <;> simp [imprintAll] at h; exact .nil
  | t :: ts, us, h, hids => by
    cases us with
    | nil => simp [imprintAll] at h
    | cons u us =>
      simp only [imprintAll, List.cons.injEq] at h
      rw [idsAll, idsAll, List.zip_append (length_ids t u h.1), List.forall_mem_append] at hids
      exact .cons (twins hR t u h.1 hids.1) (twinsAll hR ts us h.2 hids.2)

end

theorem pairs_zip {is js : List Nat} (his : is.Nodup) (hjs : js.Nodup) : Pairs fun i j => (i, j) ∈ is.zip js := by
  intro i j i' j' h h'
  obtain ⟨n, hn⟩ := List.mem_iff_getElem?.mp h
  obtain ⟨m, hm⟩ := List.mem_iff_getElem?.mp h'
  obtain ⟨hi, hj⟩ := List.getElem?_zip_eq_some.mp hn
  obtain ⟨hi', hj'⟩ := List.getElem?_zip_eq_some.mp hm
  obtain ⟨hlt, -⟩ := List.getElem?_eq_some_iff.mp hi
  obtain ⟨hlt', -⟩ := List.getElem?_eq_some_iff.mp hj
  constructor
  · rintro rfl
    obtain rfl := (List.getElem?_inj hlt his).mp (hi.trans hi'.symm)
    exact Option.some.inj (hj.symm.trans hj')
  · rintro rfl
    obtain rfl := (List.getElem?_inj hlt' hjs).mp (hj.trans hj'.symm)
    exact Option.some.inj (hi.symm.trans hi')

end SourceOptimizer.Printer

namespace SourceOptimizer.Tree
open Printer

/-- Trees that differ in identities and lines have the same text. -/
theorem print_congr {t u : Tree} (ht : (ids t).Nodup) (hu : (ids u).Nodup) (h : imprint t = imprint u) : t.print = u.print := by
  have hput := (twins (pairs_zip ht hu) t u h fun _ hx => hx).put
  have hagree : Agree _ ((pieceOf t).put {}) ((pieceOf u).put {}) := hput ⟨rfl, rfl, rfl, fun _ _ _ => by simp, rfl, rfl, rfl⟩
  change ((pieceOf t).put {} >>= fun r => pure r.2.out) = ((pieceOf u).put {} >>= fun r => pure r.2.out)
  generalize (pieceOf t).put {} = x, (pieceOf u).put {} = y at hagree ⊢
  cases hagree with
  | ok a h => exact congrArg Except.ok h.out.symm
  | error e => rfl

end SourceOptimizer.Tree
