import SourceOptimizer.Proofs.CallArguments
import SourceOptimizer.Proofs.Standing

/-! Normal forms. What folding, removing dead branches and removing documentation make of a tree, over and
over and in whatever order, can be said at once. Each of the passes keeps the normal form of a tree, and a
tree that they all leave is its own. -/
namespace SourceOptimizer
open Work

namespace Tree

variable {t u : Tree} {body : List Tree}

/-- What is to be done to a tree: all, with the documentation or without it, or the documentation alone. -/
inductive Aim where
  | all (docs : Bool)
  | documentation

instance : Coe Bool Aim := ⟨.all⟩

variable {ts us parts : List Tree} {tag : Tag} {kind : Kind} {docs : Bool} {aim : Aim}

def ofResult : Except Fault Value → Tree
  | .ok v => .constant v
  | .error e => .raisingFault e

def asTruth (test : Tree) : Tree := if test.face.isUnsettled then .constant (.bool true) else test

def textless (body : List Tree) : List Tree :=
  match body.filter (!Pass.Documentation.isMereText ·) with
  | [] => [.pass]
  | t :: ts => t :: ts

def undocumented : Kind → List Tree → List Tree
  | .functionDef _, [parameters, .seq body, decorators, _] =>
    [untypedParameters parameters, .seq (textless body), decorators, .absent]
  | .classDef _, [bases, keywords, .seq body, decorators] => [bases, keywords, .seq (textless body), decorators]
  | .moduleDef, [.seq body] => [.seq (textless body)]
  | _, parts => parts

/-- What a node becomes in the end, told what its parts become. -/
def finish (docs : Bool) : Kind → List Tree → List Tree
  | .binOp op, [left, right] =>
    match left.literal?, right.literal? with
    | some a, some b => [ofResult (Pass.Fold.binaryValue op a b)]
    | _, _ => [make (.binOp op) [left, right]]
  | .compare [op], [left, .seq [right]] =>
    match left.literal?, right.literal? with
    | some a, some b => [ofResult (Pass.Fold.compareValue op a b)]
    | _, _ => [make (.compare [op]) [left, .seq [right]]]
  | .ifStmt, [test, body, other] =>
    match test.literal? with
    | some l => if l.value.truth then body.items else other.items
    | none => [make .ifStmt [test, body, other]]
  | .whileStmt, test :: rest =>
    match test.literal? with
    | some l => if l.value.truth then [make .whileStmt (asTruth test :: rest)] else []
    | none => [make .whileStmt (test :: rest)]
  | .ifExp, [test, body, other] =>
    match test.literal? with
    | some l => [if l.value.truth then body else other]
    | none => [make .ifExp [test, body, other]]
  | kind, parts => [make kind (if docs then undocumented kind parts else parts)]

def Aim.finish : Aim → Kind → List Tree → List Tree
  | .all docs, kind, parts => Tree.finish docs kind parts
  | .documentation, kind, parts => [make kind (undocumented kind parts)]

mutual

/-- The normal form of a tree: what stands in its place in the end, without identities and lines. -/
def normal (aim : Aim) : Tree → List Tree
  | .node _ kind parts => aim.finish kind.bare (normalParts aim parts)
  | .seq items => [.seq (normalAll aim items)]
  | .absent => [.absent]
  | .shared id => [.shared id]

def normalParts (aim : Aim) : List Tree → List Tree
  | [] => []
  | p :: ps => Pass.single (normal aim p) :: normalParts aim ps

def normalAll (aim : Aim) : List Tree → List Tree
  | [] => []
  | t :: ts => normal aim t ++ normalAll aim ts

end

theorem normalAll_append (ts us : List Tree) : normalAll aim (ts ++ us) = normalAll aim ts ++ normalAll aim us := by
  induction ts with
  | nil => rfl
  | cons t ts ih => simp [normalAll, ih]

theorem normalAll_one (t : Tree) : normalAll aim [t] = normal aim t := List.append_nil _

theorem finish_single (h : isBranch (.node {} kind parts) = false) (us : List Tree) :
    ∃ u, aim.finish kind us = [u] := by
  cases aim with
  | documentation => exact ⟨_, rfl⟩
  | all docs =>
    rw [Aim.finish]
    unfold finish
    split
    · split <;> exact ⟨_, rfl⟩
    · split <;> exact ⟨_, rfl⟩
    · cases h
    · cases h
    · split <;> exact ⟨_, rfl⟩
    · exact ⟨_, rfl⟩

theorem normal_single (aim : Aim) (h : t.isBranch = false) : ∃ u, normal aim t = [u] := by
  cases t with
  | node tag kind parts =>
    have hkind : isBranch (.node {} kind.bare parts) = false := by
      cases kind <;> first | rfl | cases h
    exact finish_single hkind _
  | _ => exact ⟨_, rfl⟩

theorem normal_literal (aim : Aim) {l : Literal} (h : t.literal? = some l) :
    ∃ u, normal aim t = [u] ∧ u.literal? = some { l with origin := 0 } ∧ u.face = t.face := by
  obtain ⟨tag, parts, rfl⟩ := literal?_eq_some.mp h
  cases aim <;> exact ⟨_, rfl, rfl, rfl⟩

mutual

theorem normal_bare : (t : Tree) → normal aim (bare t) = normal aim t
  | .node tag kind parts => by cases kind <;> simp only [bare, normal, Kind.bare, normalParts_bare parts]
  | .seq items => by simp only [bare, normal, normalAll_bare items]
  | .absent => rfl
  | .shared _ => rfl

theorem normalParts_bare : (ps : List Tree) → normalParts aim (bareAll ps) = normalParts aim ps
  | [] => rfl
  | p :: ps => by simp only [bareAll, normalParts, normal_bare p, normalParts_bare ps]

theorem normalAll_bare : (ts : List Tree) → normalAll aim (bareAll ts) = normalAll aim ts
  | [] => rfl
  | t :: ts => by simp only [bareAll, normalAll, normal_bare t, normalAll_bare ts]

end

theorem normal_number (t : Tree) (n : Nat) : normal aim (t.number n).1 = normal aim t := by
  rw [← normal_bare, bare_number, normal_bare]

theorem normal_lined (t : Tree) (line : Nat) : normal aim (lined line t) = normal aim t := by
  rw [← normal_bare, bare_lined, normal_bare]

theorem normalAll_texts (args : List String) : normalAll aim (args.map text) = args.map text := by
  induction args with
  | nil => rfl
  | cons arg args ih =>
    rw [List.map_cons, normalAll, ih]
    rcases aim with (_ | _) | _ <;> rfl

theorem normal_ofResult (result : Except Fault Value) : normal docs (ofResult result) = [ofResult result] := by
  cases result with
  | ok v => cases docs <;> rfl
  | error e =>
    cases docs <;>
      simp [ofResult, raisingFault, raising, callOf, emptyGenerator, noParameters, loadName, make, normal, normalParts,
        normalAll, normalAll_texts, Aim.finish, finish, undocumented, Kind.bare, Pass.single]

theorem finish_decided {x y : Tree} {a b : Literal} {rest : List Tree} (hx : x.literal? = some a) (hy : y.literal? = some b)
    (htruth : a.value.truth = b.value.truth) (hloop : kind = .whileStmt ∧ (a.value.truth = true → asTruth x = asTruth y) ∨
      kind = .ifStmt ∧ rest.length = 2) :
    finish docs kind (x :: rest) = finish docs kind (y :: rest) := by
  rcases hloop with ⟨rfl, hsame⟩ | ⟨rfl, hlength⟩
  · simp only [finish, hx, hy, htruth]
    split
    next hb => rw [hsame (htruth.trans hb)]
    · rfl
  · obtain ⟨body, other, rfl⟩ := List.length_eq_two.mp hlength
    simp only [finish, hx, hy, htruth]

end Tree

open Tree

/-! ## Visits keep the normal form -/

namespace Pass
variable {s m s' : Session} {t : Tree} {tag : Tag} {kind : Kind} {parts parts' ts : List Tree} {visited : Work (List Tree)}
  {docs : Bool} {aim : Aim}

def Keeps (aim : Aim) : Outcome := fun t s ts _ => Standing s.store.next [t] → normalAll aim ts = normal aim t

abbrev Preserves (aim : Aim) : Outcome := Both (Both Sheds Grows) (Keeps aim)

theorem PartsTo.keep (h : PartsTo (Preserves aim) parts s parts' s') (hs : Standing s.store.next parts)
    (hsingle : ∀ p ∈ parts, p.isBranch = false) : normalParts aim parts' = normalParts aim parts := by
  induction h with
  | nil => rfl
  | @cons p ps results rest s m s' head tail ih =>
    obtain ⟨⟨-, hgrows⟩, hkeeps⟩ := head
    obtain ⟨hp, hps, -⟩ := Standing.cons_iff.mp hs
    obtain ⟨u, rfl, -⟩ := hgrows.single (by simpa [everyAll] using hp.fits) (hsingle p (by simp))
    have hhead := hkeeps hp
    have htail := ih (hps.mono hgrows.next) fun q hq => hsingle q (by simp [hq])
    rw [normalAll_one] at hhead
    simp only [single, normalParts, hhead, htail]

theorem ItemsTo.keep {items items' : List Tree} (h : ItemsTo (Preserves aim) items s items' s') :
    Keeps aim (.seq items) s [.seq items'] s' := by
  intro hs
  suffices hsame : normalAll aim items' = normalAll aim items by
    rw [normalAll_one, normal, normal, hsame]
  replace hs := Standing.seq_iff.mp hs
  induction h with
  | nil => rfl
  | @cons t ts results rest s m s' head tail ih =>
    obtain ⟨⟨-, hgrows⟩, hkeeps⟩ := head
    obtain ⟨ht, hts, -⟩ := Standing.cons_iff.mp hs
    rw [normalAll_append, normalAll, hkeeps ht, ih (hts.mono hgrows.next)]

theorem keeps_absent (s : Session) : Keeps aim .absent s [.absent] s := fun _ => rfl

theorem normal_node {tag' : Tag} (h : normalParts aim parts' = normalParts aim parts) :
    normalAll aim [.node tag' kind parts'] = normal aim (.node tag kind parts) := by
  rw [normalAll_one, normal, normal, h]

namespace Fold

theorem normalAll_adopt (r : Store) (result : Except Fault Value) :
    normalAll docs [(r.adopt (ofResult result)).1] = [ofResult result] := by
  rw [normalAll_one, Store.adopt_eq, normal_number, normal_ofResult]

theorem Operation.normal {result : Except Fault Value} (h : Operation kind parts result) {n : Nat} (hs : Standing n parts)
    (tag : Tag) : normal docs (.node tag kind parts) = [ofResult result] := by
  cases h with
  | @binary op left right a b hleft hright =>
    obtain ⟨x, hx, hxa, -⟩ := normal_literal docs hleft
    obtain ⟨y, hy, hyb, -⟩ := normal_literal docs hright
    simp only [Tree.normal, normalParts, hx, hy, single, Kind.bare, Aim.finish, finish, hxa, hyb]
    rfl
  | @comparison op left right a b hleft hright =>
    obtain ⟨x, hx, hxa, -⟩ := normal_literal docs hleft
    obtain ⟨y, hy, hyb, -⟩ := normal_literal docs hright
    have hpair : Standing n [left, right] := by
      obtain ⟨hl, hr, hapart⟩ := Standing.cons_iff.mp hs
      exact Standing.cons_iff.mpr ⟨hl, Standing.seq_iff.mp hr, by simpa [idsAll, ids] using hapart⟩
    -- the literals come from different nodes, and without origins they are compared alike
    have hsame : Literal.same { a with origin := 0 } { b with origin := 0 } = a.same b := by
      rw [Literal.same_of_origin_ne (hpair.origin_ne hleft hright), Literal.same_of_apart (.inl rfl)]
    simp only [Tree.normal, normalParts, normalAll, hx, hy, single, Kind.bare, Aim.finish, finish, List.append_nil,
      hxa, hyb, compareValue,
      hsame]

theorem plainKeeps : PlainSound (Preserves docs) step := by
  refine plainGrows.also ?_ ItemsTo.keep keeps_absent
  intro s s' tag kind parts visited ts hs hplain hvisited h _ hstanding
  obtain ⟨hparts, -, -, -, hfits⟩ := Standing.node_iff.mp hstanding
  have hsingle : ∀ p ∈ parts, p.isBranch = false := fun _ => fits_branch hfits
  rcases step_results hplain h with ⟨_, hleave⟩ | hdecides | ⟨result, hoperation, hreplace⟩
  · obtain ⟨parts', rfl, _, hto⟩ := returns_descend_plain hs hvisited hleave
    exact normal_node (hto.keep hparts hsingle)
  · obtain ⟨test, rest, l, parts', m, hkind, rfl, hliteral, hunsettled, hvisit, rfl, rfl⟩ := hdecides
    obtain ⟨hm, hto⟩ := hvisited
      (m := { s with changed := true, store := (s.store.adopt (.constant (.bool l.value.truth))).2 })
      (hs.adopt (.constant (.bool l.value.truth))) hvisit
    cases hto with
    | @cons _ _ results rest' _ m' _ head tail =>
      obtain ⟨-, hrest, -⟩ := Standing.cons_iff.mp hparts
      have hnext : s.store.next ≤ m'.store.next := Nat.le_trans (Nat.le_succ _) head.1.2.next
      have htail : normalParts docs rest' = normalParts docs rest :=
        tail.keep (hrest.mono hnext) fun p hp => hsingle p (by simp [hp])
      obtain ⟨x, hx, hxl, hface⟩ := normal_literal docs hliteral
      have hnew : normal docs (s.store.adopt (.constant (.bool l.value.truth))).1 = [.constant (.bool l.value.truth)] := by
        exact normalAll_adopt s.store (.ok _)
      rw [normalAll_one]
      simp only [Tree.normal, Aim.finish, List.tail_cons, normalParts, hnew, hx, single, htail]
      have htruth : (Literal.mk (.bool l.value.truth) 0 false).value.truth = l.value.truth := rfl
      rcases hkind with rfl | rfl
      · refine finish_decided rfl hxl htruth (.inr ⟨rfl, ?_⟩)
        obtain ⟨_, _, _, hlist⟩ := fits_ifStmt hfits
        cases hlist
        rfl
      · refine finish_decided rfl hxl htruth (.inl ⟨rfl, fun htrue => ?_⟩)
        rw [asTruth, asTruth, hface, hunsettled, show l.value.truth = true from htrue]
        rfl
  · rw [hoperation.normal hparts]
    rcases hreplace with ⟨v, rfl, rfl, rfl⟩ | ⟨e, rfl, m, hflag, rfl, rfl⟩
    · exact normalAll_adopt s.store (.ok v)
    · exact normalAll_adopt m.store (.error e)

end Fold
namespace DeadBranch

theorem Takes.normal {r : Store} (h : Takes r kind parts ts) (hplain : refsAll parts = []) (hfits : Tree.fits kind parts = true)
    (tag : Tag) : normalAll docs ts = normal docs (.node tag kind parts) := by
  have hlook {test : Tree} (h : test ∈ parts) : r.look test = test := Store.Empty.look (refs_of_mem hplain h)
  cases h with
  | @branch test body other l htest =>
    rw [hlook (by simp)] at htest
    obtain ⟨x, hx, hxl, -⟩ := normal_literal docs htest
    obtain ⟨_, body, other, hlist⟩ := fits_ifStmt hfits
    cases hlist
    simp only [Tree.normal, normalParts, hx, single, Kind.bare, Aim.finish, finish, hxl, Tree.items]
    cases l.value.truth <;> rfl
  | @nothing test rest l htest hfalse =>
    rw [hlook (by simp)] at htest
    obtain ⟨x, hx, hxl, -⟩ := normal_literal docs htest
    simp [Tree.normal, normalParts, normalAll, hx, single, Kind.bare, Aim.finish, finish, hxl, hfalse]
  | @choice test body other l htest =>
    rw [hlook (by simp)] at htest
    obtain ⟨x, hx, hxl, -⟩ := normal_literal docs htest
    obtain ⟨y, hy⟩ := normal_single docs (fits_branch hfits (p := body) (by simp))
    obtain ⟨z, hz⟩ := normal_single docs (fits_branch hfits (p := other) (by simp))
    simp only [Tree.normal, normalParts, normalAll_one, hx, hy, hz, single, Kind.bare, Aim.finish, finish, hxl]
    split
    · exact hy
    · exact hz

theorem plainKeeps : PlainSound (Preserves docs) step := by
  refine plainGrows.also ?_ ItemsTo.keep keeps_absent
  intro s s' tag kind parts visited ts hs _ hvisited h _ hstanding
  obtain ⟨hparts, -, -, -, hfits⟩ := Standing.node_iff.mp hstanding
  obtain ⟨parts', m, -, hto, hchoose⟩ := returns_step_plain hs hvisited h
  have hsame : normalParts docs parts' = normalParts docs parts := hto.keep hparts fun _ => fits_branch hfits
  have hfits' : Tree.fits kind parts' = true := (hto.imp fun h => h.1.2).fits hfits hparts.fits
  have hplain := (hto.imp fun h => h.1.1).shed.plain
  rcases choose_results hplain hchoose with ⟨_, rfl, rfl⟩ | ⟨htakes, rfl⟩
  · exact normal_node hsame
  · rw [htakes.normal hplain hfits' tag, ← normalAll_one]
    exact normal_node hsame

end DeadBranch

namespace Documentation

theorem isMereText_normal (aim : Aim) (h : isMereText t = true) : ∃ u, normal aim t = [u] ∧ isMereText u = true := by
  unfold isMereText at h
  split at h
  next tag v =>
    split at h
    next value origin marked hv =>
      obtain ⟨x, hx, hxl, -⟩ := normal_literal aim hv
      refine ⟨make .exprStmt [x], ?_, ?_⟩
      · rcases aim with (_ | _) | _ <;> simp only [normal, normalParts, hx, single, Kind.bare, Aim.finish, finish] <;> rfl
      · simp only [make, isMereText, hxl]
    · cases h
  · cases h

theorem textless_filter (body : List Tree) :
    textless (normalAll aim (body.filter (!isMereText ·))) = textless (normalAll aim body) := by
  suffices hfilter : (normalAll aim (body.filter (!isMereText ·))).filter (!isMereText ·) =
      (normalAll aim body).filter (!isMereText ·) by rw [textless, textless, hfilter]
  induction body with
  | nil => rfl
  | cons t ts ih =>
    cases ht : isMereText t with
    | true =>
      obtain ⟨u, hu, hmere⟩ := isMereText_normal aim ht
      simp [ht, normalAll, hu, hmere, ih]
    | false => simp [ht, normalAll, ih]

theorem textless_refilled (aim : Aim) (r : Store) (body : List Tree) :
    textless (normalAll aim (refilled r body).1) = textless (normalAll aim body) := by
  rw [← textless_filter body, refilled]
  cases body.filter (!isMereText ·) with
  | nil => rcases aim with (_ | _) | _ <;> rfl
  | cons t ts => rfl

theorem normal_parameter (aim : Aim) (h : t.isParameter = true) : ∃ name parts, normal aim t = [make (.arg name) parts] := by
  cases t with
  | node tag kind parts =>
    cases kind with
    | arg name => rcases aim with (_ | _) | _ <;> exact ⟨name, normalParts _ parts, rfl⟩
    | _ => cases h
  | _ => cases h

theorem untyped_normal (aim : Aim) (h : t.isParameter = true) :
    (normal aim (untyped t)).map untyped = (normal aim t).map untyped := by
  cases t with
  | node tag kind parts =>
    cases kind with
    | arg name => rcases parts with _ | ⟨_, _ | ⟨_, _⟩⟩ <;> rcases aim with (_ | _) | _ <;> rfl
    | _ => cases h
  | _ => cases h

theorem untyped_normalAll (aim : Aim) (h : ts.all isParameter = true) :
    (normalAll aim (ts.map untyped)).map untyped = (normalAll aim ts).map untyped := by
  induction ts with
  | nil => rfl
  | cons t ts ih =>
    simp only [List.all_cons, Bool.and_eq_true] at h
    rw [List.map_cons, normalAll, normalAll, List.map_append, List.map_append, ih h.2, untyped_normal aim h.1]

theorem untyped_variadic (aim : Aim) (h : (t.isAbsent || t.isParameter) = true) :
    untyped (single (normal aim (untyped t))) = untyped (single (normal aim t)) := by
  cases hparameter : t.isParameter with
  | true =>
    have huntyped := untyped_normal aim hparameter
    obtain ⟨name, parts, ht⟩ := normal_parameter aim hparameter
    rw [ht] at huntyped ⊢
    obtain ⟨x, hx, hux⟩ := List.map_eq_singleton_iff.mp huntyped
    rw [hx]
    exact hux
  | false =>
    cases t with
    | absent => rfl
    | _ => simp [hparameter, isAbsent] at h

theorem normal_arguments {positional variadic keywordDefaults keywordVariadic defaults : Tree} {plain keywordOnly : List Tree} :
    single (normal aim (.node tag .arguments
      [positional, .seq plain, variadic, .seq keywordOnly, keywordDefaults, keywordVariadic, defaults])) =
      make .arguments [single (normal aim positional), .seq (normalAll aim plain), single (normal aim variadic),
        .seq (normalAll aim keywordOnly), single (normal aim keywordDefaults), single (normal aim keywordVariadic),
        single (normal aim defaults)] := by
  rcases aim with (_ | _) | _ <;> rfl

theorem untypedParameters_normal (aim : Aim) (hparameters : t.isParameters = true) (hfits : every Tree.fits t = true) :
    untypedParameters (single (normal aim (untypedParameters t))) = untypedParameters (single (normal aim t)) := by
  obtain ⟨tag, positional, plain, variadic, keywordOnly, keywordDefaults, keywordVariadic, defaults, rfl, hall⟩ :=
    arguments_of_fits hparameters hfits
  simp only [Bool.and_eq_true] at hall
  rw [untypedParameters, normal_arguments, normal_arguments]
  simp only [make, untypedParameters, untyped_normalAll aim hall.1.1, untyped_normalAll aim hall.2, untyped_variadic aim hall.1.2]

theorem finish_strips (haim : aim ≠ .all false) :
    (∀ name, aim.finish (.functionDef name) parts = [make (.functionDef name) (undocumented (.functionDef name) parts)]) ∧
    (∀ name, aim.finish (.classDef name) parts = [make (.classDef name) (undocumented (.classDef name) parts)]) ∧
    aim.finish .moduleDef parts = [make .moduleDef (undocumented .moduleDef parts)] := by
  rcases aim with (_ | _) | _
  · exact absurd rfl haim
  · exact ⟨fun _ => rfl, fun _ => rfl, rfl⟩
  · exact ⟨fun _ => rfl, fun _ => rfl, rfl⟩

theorem stripped_keeps (haim : aim ≠ .all false) (r : Store) (hfits : Tree.fits kind parts = true)
    (hall : everyAll Tree.fits parts = true) :
    aim.finish kind.bare (normalParts aim (stripped r kind parts).1) = aim.finish kind.bare (normalParts aim parts) := by
  unfold stripped
  split
  next name parameters body decorators result =>
    simp only [Tree.fits, Bool.and_eq_true] at hfits
    have hparameters := untypedParameters_normal aim hfits.2 (every_of_mem hall (by simp))
    simp only [normalParts, normal, single, Kind.bare, finish_strips haim, undocumented] at hparameters ⊢
    rw [hparameters, textless_refilled]
  · simp only [normalParts, normal, single, Kind.bare, finish_strips haim, undocumented, textless_refilled]
  · simp only [normalParts, normal, single, Kind.bare, finish_strips haim, undocumented, textless_refilled]
  · rfl

theorem plainKeeps (haim : aim ≠ .all false) : PlainSound (Preserves aim) step := by
  refine plainGrows.also ?_ ItemsTo.keep keeps_absent
  intro s s' tag kind parts visited ts hs _ hvisited h _ hstanding
  obtain ⟨hparts, -, -, -, hfits⟩ := Standing.node_iff.mp hstanding
  obtain ⟨parts', m, -, hto, -, rfl, -⟩ := returns_step_plain hs hvisited (fun hto => (hto.imp fun h => h.1.1).shed.plain) h
  have hgrows := hto.imp fun h => h.1.2
  rw [normalAll_one, normal, normal, ← hto.keep hparts fun _ => fits_branch hfits]
  exact stripped_keeps haim _ (hgrows.fits hfits hparts.fits) (hgrows.grow.fits hparts.fits)

end Documentation
end Pass

/-! ## Trees that are left -/

namespace Tree
variable {t u : Tree} {ts us parts : List Tree} {tag : Tag} {kind : Kind} {docs : Bool}

end Tree

namespace Pass
variable {kind : Kind} {parts : List Tree} {docs : Bool}

namespace Documentation

theorem textless_calm (h : calmBody body = true) : textless body = body := by
  obtain ⟨hfilter, hne⟩ := filter_calm h
  rw [textless, hfilter]
  cases body with
  | nil => exact absurd rfl hne
  | cons t ts => rfl

theorem undocumented_calm (h : calm kind parts = true) : undocumented kind parts = parts := by
  unfold undocumented
  split
  next parameters body decorators result =>
    simp only [calm, Bool.and_eq_true] at h
    rw [untypedParameters_calm h.1.1, textless_calm h.2]
    cases result with
    | absent => rfl
    | _ => cases h.1.2
  · rw [textless_calm h]
  · rw [textless_calm h]
  · rfl

end Documentation

theorem finish_calm (hfold : Fold.calm kind parts = true) (hdead : DeadBranch.calm kind parts = true)
    (hdocs : docs = true → Documentation.calm kind parts = true) : finish docs kind parts = [make kind parts] := by
  unfold finish
  split
  · split
    next ha hb => simp [Fold.calm, ha, hb] at hfold
    · rfl
  · split
    next ha hb => simp [Fold.calm, ha, hb] at hfold
    · rfl
  · split
    next hl => simp [DeadBranch.calm, hl] at hdead
    · rfl
  next test rest =>
    split
    next l hl =>
      have htruth : l.value.truth = true := by simpa [DeadBranch.calm, hl] using hdead
      have hsettled : test.face.isUnsettled = false := by simpa [Fold.calm] using hfold
      rw [if_pos htruth, asTruth, hsettled]
      rfl
    · rfl
  · split
    next hl => simp [DeadBranch.calm, hl] at hdead
    · rfl
  · cases docs with
    | false => rfl
    | true => rw [if_pos rfl, Documentation.undocumented_calm (hdocs rfl)]

theorem finish_aim {aim : Aim} (hfold : aim ≠ .documentation → Fold.calm kind parts = true)
    (hdead : aim ≠ .documentation → DeadBranch.calm kind parts = true)
    (hdocs : aim ≠ .all false → Documentation.calm kind parts = true) : aim.finish kind parts = [make kind parts] := by
  cases aim with
  | all docs => exact finish_calm (hfold (by simp)) (hdead (by simp)) fun hd => hdocs (by simp [hd])
  | documentation => rw [Aim.finish, Documentation.undocumented_calm (hdocs (by simp))]

end Pass

namespace Tree
variable {aim : Aim}

structure Calm (aim : Aim) (t : Tree) : Prop where
  fold : aim ≠ .documentation → every Pass.Fold.calm t = true
  branch : aim ≠ .documentation → every Pass.DeadBranch.calm t = true
  documentation : aim ≠ .all false → every Pass.Documentation.calm t = true

theorem Calm.of_mem {ts : List Tree} (h : Calm aim (.seq ts)) (ht : t ∈ ts) : Calm aim t :=
  ⟨fun ha => every_of_mem (h.fold ha) ht, fun ha => every_of_mem (h.branch ha) ht, fun ha => every_of_mem (h.documentation ha) ht⟩

mutual

theorem normal_calm : (t : Tree) → Calm aim t → normal aim t = [bare t]
  | .node tag kind parts, h => by
    have hparts : Calm aim (.seq parts) :=
      ⟨fun ha => (every_node.mp (h.fold ha)).2, fun ha => (every_node.mp (h.branch ha)).2,
        fun ha => (every_node.mp (h.documentation ha)).2⟩
    rw [normal, normalParts_calm parts fun _ => hparts.of_mem]
    refine Pass.finish_aim (fun ha => ?_) (fun ha => ?_) fun ha => ?_
    · rw [Pass.Fold.calm_bare, (every_node.mp (h.fold ha)).1]
    · rw [Pass.DeadBranch.calm_bare, (every_node.mp (h.branch ha)).1]
    · rw [Pass.Documentation.calm_bare, (every_node.mp (h.documentation ha)).1]
  | .seq items, h => by rw [normal, normalAll_calm items fun _ => h.of_mem, bare]
  | .absent, _ => rfl
  | .shared _, _ => rfl

theorem normalParts_calm : (ps : List Tree) → (∀ p ∈ ps, Calm aim p) → normalParts aim ps = bareAll ps
  | [], _ => rfl
  | p :: ps, h => by
    rw [normalParts, normal_calm p (h p (by simp)), normalParts_calm ps fun q hq => h q (by simp [hq])]
    rfl

theorem normalAll_calm : (ts : List Tree) → (∀ t ∈ ts, Calm aim t) → normalAll aim ts = bareAll ts
  | [], _ => rfl
  | t :: ts, h => by
    rw [normalAll, normal_calm t (h t (by simp)), normalAll_calm ts fun u hu => h u (by simp [hu])]
    rfl

end
end Tree

/-! ## Workers -/

namespace Worker
variable {w w' : Worker} {s s' : Session} {t t' : Tree} {step : Pass.Step Work} {aim : Aim}

theorem run_normal (hkind : (w.kind = .fold ∨ w.kind = .deadBranch) ∧ aim ≠ .documentation ∨ w.kind = .documentation ∧ aim ≠ .all false)
    (hs : s.store.Empty) (ht : Standing s.store.next [t]) (hsingle : t.isBranch = false) (h : Returns (w.run t) s (t', w') s') :
    normal aim t' = normal aim t := by
  obtain ⟨step, hstep, hkeeps⟩ : ∃ step, w.step? = some step ∧ Pass.PlainSound (Pass.Preserves aim) step := by
    rcases hkind with ⟨hk, haim⟩ | ⟨hk, haim⟩
    · cases aim with
      | documentation => exact absurd rfl haim
      | all docs =>
        rcases hk with hk | hk
        · exact ⟨_, step_iff.mpr (.inl ⟨hk, rfl⟩), Pass.Fold.plainKeeps⟩
        · exact ⟨_, step_iff.mpr (.inr (.inl ⟨hk, rfl⟩)), Pass.DeadBranch.plainKeeps⟩
    · exact ⟨_, step_iff.mpr (.inr (.inr ⟨hk, rfl⟩)), Pass.Documentation.plainKeeps haim⟩
  obtain ⟨u, m, hrun, hlocate, rfl⟩ := (returns_run (pass_of_step hstep)).mp h
  have hplain : refs t = [] := refs_of_mem ht.plain (by simp)
  obtain ⟨_, ts, rfl, ⟨hsheds, hgrows⟩, hnormal⟩ :=
    Pass.run_plain (s := { s with changed := false, notices := w.notices }) hkeeps hplain hs hrun
  obtain ⟨rfl, rfl⟩ := (returns_locate (refs_single hsheds.plain)).mp hlocate
  obtain ⟨u, rfl, -⟩ := hgrows.single (by simpa [everyAll] using ht.fits) hsingle
  rw [normal_lined, ← hnormal ht, normalAll_one]
  rfl

end Worker
end SourceOptimizer
