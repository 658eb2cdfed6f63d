import SourceOptimizer.Pass.DeadBranch
import SourceOptimizer.Proofs.Execution
import SourceOptimizer.Proofs.Traversal

/-! Removal of dead branches keeps what a program does, except that the else clause of a loop is lost together
with the loop. -/
namespace SourceOptimizer
open Pass
universe u v w

def Kind.isStmt : Kind → Bool
  | moduleDef | functionDef _ | asyncFunctionDef _ | classDef _ | returnStmt | deleteStmt | assign | augAssign _
  | annAssign _ | forStmt | asyncFor | whileStmt | ifStmt | withStmt | asyncWith | matchStmt | raiseStmt | tryStmt
  | tryStar | assertStmt | importStmt | importFrom _ _ | globalStmt _ | nonlocalStmt _ | exprStmt | passStmt
  | breakStmt | continueStmt => true
  | _ => false

/-- What a part of a program stands for, given what statements do and what expressions mean. -/
inductive Phrase (C : Type u) (E : Type v) where
  | command (c : C)
  | expression (e : E)
  /-- a part of a statement or of an expression -/
  | piece (kind : Kind) (parts : List (Phrase C E))
  /-- a list: what its statements do up to the first other part, and after each of the other parts -/
  | list (first : C) (rest : List (Phrase C E × C))
  | absent

structure Semantics (C : Type u) (E : Type v) where
  skip : C
  seq : C → C → C
  stmt : Kind → List (Phrase C E) → C
  expr : Kind → List (Phrase C E) → E
  returns : Value → E

namespace Semantics
variable {C : Type u} {E : Type v} (S : Semantics C E)

/-- Statements run one after the other, and a constant condition decides what is run or evaluated. -/
structure Lawful : Prop where
  skip_seq : ∀ c, S.seq S.skip c = c
  seq_skip : ∀ c, S.seq c S.skip = c
  seq_assoc : ∀ a b c, S.seq (S.seq a b) c = S.seq a (S.seq b c)
  branch : ∀ v a b, S.stmt .ifStmt [.expression (S.returns v), .list a [], .list b []] = if v.truth then a else b
  loop : ∀ v a b, v.truth = false → S.stmt .whileStmt [.expression (S.returns v), .list a [], .list b []] = b
  conditional : ∀ v a b,
    S.expr .ifExp [.expression (S.returns v), .expression a, .expression b] = if v.truth then a else b

def compose : List C → C
  | [] => S.skip
  | c :: cs => S.seq c (compose cs)

def gather : List (Phrase C E) → C × List (Phrase C E × C)
  | [] => (S.skip, [])
  | .command c :: ps => (S.seq c (gather ps).1, (gather ps).2)
  | p :: ps => (S.skip, (p, (gather ps).1) :: (gather ps).2)

def phrase (kind : Kind) (parts : List (Phrase C E)) : Phrase C E :=
  match kind with
  | .constant l => .expression (S.returns l.value)
  | kind =>
    if kind.isStmt then .command (S.stmt kind parts)
    else if kind.isExpr then .expression (S.expr kind parts)
    else .piece kind parts

def run : Phrase C E → C
  | .command c => c
  | .list c _ => c
  | _ => S.skip

end Semantics

/-- What a part stands for, and the constant that it comes down to when conditional expressions are decided. -/
structure Sense (C : Type u) (E : Type v) where
  phrase : Phrase C E
  known : Option Value := none

namespace Sense
variable {C : Type u} {E : Type v}

def comesTo (kind : Kind) (parts : List (Sense C E)) : Option Value :=
  match kind, parts with
  | .constant l, _ => some l.value
  | .ifExp, [test, body, other] => test.known.bind fun v => if v.truth then body.known else other.known
  | _, _ => none

/-- Statements stand in lists only, and branches, loops and conditional expressions have the parts they need. -/
def Shaped (kind : Kind) (parts : List (Sense C E)) : Prop :=
  (∀ x ∈ parts, ∀ c, x.phrase ≠ .command c) ∧
    match kind with
    | .ifStmt | .whileStmt => ∃ e a b, parts.map phrase = [.expression e, .list a [], .list b []]
    | .ifExp => ∃ e a b, parts.map phrase = [.expression e, .expression a, .expression b]
    | _ => True

/-- A loop whose condition comes down to a false constant has an else clause that does nothing. -/
def Spared (S : Semantics C E) (kind : Kind) (parts : List (Sense C E)) : Prop :=
  ∀ test body other, kind = .whileStmt → parts = [test, body, other] → ∀ v ∈ test.known, v.truth = false →
    other.phrase = .list S.skip []

end Sense

namespace Semantics
variable {C : Type u} {E : Type v}

def reading (S : Semantics C E) : Reading (Sense C E) where
  node := fun _ kind xs => { phrase := S.phrase kind (xs.map Sense.phrase), known := Sense.comesTo kind xs }
  seq := fun xs => { phrase := .list (S.gather (xs.map Sense.phrase)).1 (S.gather (xs.map Sense.phrase)).2 }
  absent := { phrase := .absent }
  admits := fun kind xs => Sense.Shaped kind xs ∧ Sense.Spared S kind xs

def meaning (S : Semantics C E) (t : Tree) : C := S.run (S.reading.eval t).phrase

def keeps (S : Semantics C E) (n m : Nat) (x : Sense C E) (ys : List (Sense C E)) : Prop :=
  n = m ∧ (ys = [x] ∨ ∃ cs, x.phrase = .command (S.compose cs) ∧ ys.map Sense.phrase = cs.map .command)

/-! ## Lists of statements -/

variable {S : Semantics C E} {n m : Nat} {xs : List (Sense C E)} {yss : List (List (Sense C E))}

theorem gather_commands (hS : S.Lawful) (cs : List C) (ps : List (Phrase C E)) :
    S.gather (cs.map .command ++ ps) = (S.seq (S.compose cs) (S.gather ps).1, (S.gather ps).2) := by
  induction cs with
  | nil => simp [compose, hS.skip_seq]
  | cons c cs ih => simp [gather, compose, ih, hS.seq_assoc]

theorem gather_congr {ps qs : List (Phrase C E)} (p : Phrase C E) (h : S.gather ps = S.gather qs) :
    S.gather (p :: ps) = S.gather (p :: qs) := by
  cases p <;> simp [gather, h]

theorem commands_of_gather {ps : List (Phrase C E)} {c : C} (h : S.gather ps = (c, [])) :
    ∃ cs, ps = cs.map .command ∧ c = S.compose cs := by
  induction ps generalizing c with
  | nil =>
    cases h
    exact ⟨[], rfl, rfl⟩
  | cons p ps ih =>
    cases p with
    | command d =>
      simp only [gather, Prod.mk.injEq] at h
      obtain ⟨cs, rfl, hcs⟩ := ih (Prod.ext rfl h.2)
      exact ⟨d :: cs, rfl, h.1.symm.trans (congrArg (S.seq d) hcs)⟩
    | _ => simp [gather] at h

theorem chain_gather (hS : S.Lawful) (h : Chain S.keeps n m xs yss) :
    n = m ∧ S.gather (yss.flatten.map Sense.phrase) = S.gather (xs.map Sense.phrase) := by
  induction h with
  | nil => exact ⟨rfl, rfl⟩
  | cons head _ ih =>
    obtain ⟨rfl, hhead⟩ := head
    obtain ⟨rfl, ih⟩ := ih
    refine ⟨rfl, ?_⟩
    rw [List.flatten_cons, List.map_append, List.map_cons]
    rcases hhead with rfl | ⟨cs, hcs, hys⟩
    · exact gather_congr _ ih
    · -- the statements that one has become are spliced in: composed they are that one
      rw [hys, hcs, gather_commands hS, gather, ih]

theorem chain_parts (h : Chain S.keeps n m xs yss) (hparts : ∀ x ∈ xs, ∀ c, x.phrase ≠ .command c) :
    n = m ∧ yss.map S.reading.single = xs := by
  induction h with
  | nil => exact ⟨rfl, rfl⟩
  | @cons n k m x ys xs yss head _ ih =>
    obtain ⟨rfl, hhead⟩ := head
    obtain ⟨rfl, htail⟩ := ih fun y hy => hparts y (List.mem_cons_of_mem x hy)
    refine ⟨rfl, ?_⟩
    rcases hhead with rfl | ⟨cs, hcs, _⟩
    · rw [List.map_cons, htail]
      rfl
    · exact absurd hcs (hparts x (by simp) _)

theorem respects (hS : S.Lawful) : Respects S.reading fun _ => Numbered S.keeps := by
  refine .numbered rfl (fun n x => ⟨rfl, .inl rfl⟩) fun {n m xs yss} h => ?_
  obtain ⟨hnext, hgather⟩ := chain_gather hS h
  refine ⟨hnext, .inl ?_⟩
  simp only [reading, hgather]

end Semantics

/-! ## The step -/

namespace Pass.DeadBranch
open Store Tree Work Semantics

inductive Takes (r : Store) : Kind → List Tree → List Tree → Prop
  | branch {test body other : Tree} {l : Literal} (hl : (r.look test).literal? = some l) :
      Takes r .ifStmt [test, body, other] (if l.value.truth then body else other).items
  | nothing {test : Tree} {rest : List Tree} {l : Literal} (hl : (r.look test).literal? = some l)
      (hfalse : l.value.truth = false) : Takes r .whileStmt (test :: rest) []
  | choice {test body other : Tree} {l : Literal} (hl : (r.look test).literal? = some l) :
      Takes r .ifExp [test, body, other] [if l.value.truth then body else other]

theorem Takes.part {r : Store} {kind : Kind} {parts ts : List Tree} (h : Takes r kind parts ts) :
    ts = [] ∨ ∃ p ∈ parts, ts = p.items ∨ ts = [p] := by
  cases h with
  | branch _ => exact .inr ⟨_, by split <;> simp, .inl rfl⟩
  | nothing _ _ => exact .inl rfl
  | choice _ => exact .inr ⟨_, by split <;> simp, .inr rfl⟩

section
variable {s s' : Session} {tag : Tag} {kind : Kind} {parts ts : List Tree} {test : Tree}

theorem decided_returns (s : Session) (test : Tree) :
    Returns (decided? test) s ((s.store.look test).literal?.map (·.value.truth)) s := rfl

theorem returns_either {a b c : List Tree}
    (h : Returns (do match ← decided? test with
      | some true => done; return a
      | some false => done; return b
      | none => return c) s ts s') :
    ((s.store.look test).literal? = none ∧ ts = c ∧ s' = s) ∨
      ∃ l, (s.store.look test).literal? = some l ∧ ts = (if l.value.truth then a else b) ∧ s' = { s with changed := true } := by
  rw [returns_bind_of (decided_returns s test)] at h
  cases hl : (s.store.look test).literal? with
  | none =>
    rw [hl] at h
    cases h
    exact .inl ⟨rfl, rfl, rfl⟩
  | some l =>
    rw [hl, Option.map_some] at h
    refine .inr ⟨l, rfl, ?_⟩
    cases htruth : l.value.truth <;>
    · rw [htruth] at h
      cases h
      exact ⟨rfl, rfl⟩

theorem returns_choose (h : Returns (choose tag kind parts) s ts s') :
    ((∀ us, ¬ Takes s.store kind parts us) ∧ ts = [.node tag kind parts] ∧ s' = s) ∨
      (Takes s.store kind parts ts ∧ s' = { s with changed := true }) := by
  unfold choose at h
  split at h
  next test body other =>
    obtain ⟨hl, rfl, rfl⟩ | ⟨l, hl, rfl, rfl⟩ := returns_either h
    · refine .inl ⟨fun us htakes => ?_, rfl, rfl⟩
      cases htakes with
      | branch hl' => cases hl.symm.trans hl'
    · rw [← apply_ite Tree.items]
      exact .inr ⟨.branch hl, rfl⟩
  next test rest =>
    rw [returns_bind_of (decided_returns s test)] at h
    split at h
    next hfalse =>
      obtain ⟨l, hl, hfalse⟩ := Option.map_eq_some_iff.mp hfalse
      cases h
      exact .inr ⟨.nothing hl hfalse, rfl⟩
    next htrue =>
      cases h
      refine .inl ⟨fun us htakes => ?_, rfl, rfl⟩
      cases htakes with
      | nothing hl hfalse => exact htrue (Option.map_eq_some_iff.mpr ⟨_, hl, hfalse⟩)
  next test body other =>
    obtain ⟨hl, rfl, rfl⟩ | ⟨l, hl, rfl, rfl⟩ := returns_either h
    · refine .inl ⟨fun us htakes => ?_, rfl, rfl⟩
      cases htakes with
      | choice hl' => cases hl.symm.trans hl'
    · rw [← apply_ite fun t => [t]]
      exact .inr ⟨.choice hl, rfl⟩
  next hif hwhile hifExp =>
    cases h
    refine .inl ⟨fun us htakes => ?_, rfl, rfl⟩
    cases htakes with
    | branch _ => exact hif _ _ _ rfl rfl
    | nothing _ _ => exact hwhile _ _ rfl rfl
    | choice _ => exact hifExp _ _ _ rfl rfl

end

section
variable {C : Type u} {E : Type v} {S : Semantics C E} {s : Store} {hidden : List Nat} {t : Tree} {x : Sense C E}

theorem phrase_ne_list (kind : Kind) (ps : List (Phrase C E)) (c : C) (rest : List (Phrase C E × C)) :
    S.phrase kind ps ≠ .list c rest := by
  unfold Semantics.phrase
  split
  · simp
  · split
    · simp
    · split <;> simp

theorem reads_constant (hs : s.Sound) {l : Literal} (hl : (s.look t).literal? = some l)
    (h : Reads S.reading (s.view.hide hidden) [t] [x]) :
    x.phrase = .expression (S.returns l.value) ∧ x.known = some l.value := by
  obtain ⟨_, _, rfl⟩ := reads_of_literal hs hl h
  exact ⟨rfl, rfl⟩

theorem reads_items (hs : s.Sound) (h : Reads S.reading (s.view.hide hidden) [t] [x]) {c : C}
    (hx : x.phrase = .list c []) :
    ∃ ys cs, Reads S.reading (s.view.hide hidden) t.items ys ∧ ys.map Sense.phrase = cs.map .command ∧
      c = S.compose cs := by
  rcases reads_look hs h with ⟨tag, kind, parts, xs, heq, _, rfl⟩ | ⟨items, xs, rfl, hitems, rfl⟩ | ⟨rfl, rfl⟩
  · exact absurd hx (phrase_ne_list _ _ _ _)
  · simp only [reading, Phrase.list.injEq] at hx
    obtain ⟨cs, hcs, hc⟩ := commands_of_gather (Prod.ext hx.1 hx.2)
    exact ⟨xs, cs, hitems, hcs, hc⟩
  · cases hx

theorem reads_triple {a b c : Tree} {xs : List (Sense C E)} (h : Reads S.reading (s.view.hide hidden) [a, b, c] xs) :
    ∃ x y z, xs = [x, y, z] ∧ Reads S.reading (s.view.hide hidden) [a] [x] ∧
      Reads S.reading (s.view.hide hidden) [b] [y] ∧ Reads S.reading (s.view.hide hidden) [c] [z] := by
  obtain ⟨x, _, rfl, hx, h⟩ := h.uncons
  obtain ⟨y, _, rfl, hy, h⟩ := h.uncons
  obtain ⟨z, _, rfl, hz, hnil⟩ := h.uncons
  cases hnil
  exact ⟨x, y, z, rfl, hx, hy, hz⟩

section
variable {tag : Tag} {test body other : Tree} {rest : List Tree} {l : Literal} {xs : List (Sense C E)}
variable (hS : S.Lawful) (hs : s.Sound) (hl : (s.look test).literal? = some l)
include hS hs hl

theorem branch_value (hreads : Reads S.reading (s.view.hide hidden) [test, body, other] xs) (hshape : Sense.Shaped .ifStmt xs) :
    ∃ ys cs, Reads S.reading (s.view.hide hidden) (if l.value.truth then body else other).items ys ∧
      (S.reading.node tag .ifStmt xs).phrase = .command (S.compose cs) ∧ ys.map Sense.phrase = cs.map .command := by
  obtain ⟨x, y, z, rfl, hx, hy, hz⟩ := reads_triple hreads
  obtain ⟨hphrase, _⟩ := reads_constant hs hl hx
  obtain ⟨_, e, a, b, hshape⟩ := hshape
  simp only [List.map_cons, List.map_nil, List.cons.injEq, and_true] at hshape
  obtain ⟨_, ha, hb⟩ := hshape
  have hnode : (S.reading.node tag .ifStmt [x, y, z]).phrase = .command (if l.value.truth then a else b) := by
    rw [← hS.branch]
    simp only [reading, List.map_cons, List.map_nil, hphrase, ha, hb]
    rfl
  rw [hnode]
  cases l.value.truth with
  | true =>
    obtain ⟨ys, cs, hys, hcs, rfl⟩ := reads_items hs hy ha
    exact ⟨ys, cs, hys, rfl, hcs⟩
  | false =>
    obtain ⟨ys, cs, hys, hcs, rfl⟩ := reads_items hs hz hb
    exact ⟨ys, cs, hys, rfl, hcs⟩

theorem loop_value (hfalse : l.value.truth = false)
    (hreads : Reads S.reading (s.view.hide hidden) (test :: rest) xs) (hshape : Sense.Shaped .whileStmt xs) :
    ∃ x y z c, xs = [x, y, z] ∧ x.known = some l.value ∧ z.phrase = .list c [] ∧
      (S.reading.node tag .whileStmt xs).phrase = .command c := by
  obtain ⟨x, xs, rfl, hx, _⟩ := hreads.uncons
  obtain ⟨hphrase, hknown⟩ := reads_constant hs hl hx
  obtain ⟨_, e, a, b, hshape⟩ := hshape
  have hlength : xs.length = 2 := by simpa using congrArg List.length hshape
  match xs, hlength with
  | [y, z], _ =>
    simp only [List.map_cons, List.map_nil, List.cons.injEq, and_true] at hshape
    obtain ⟨_, ha, hb⟩ := hshape
    refine ⟨x, y, z, b, rfl, hknown, hb, ?_⟩
    rw [← hS.loop l.value a b hfalse]
    simp only [reading, List.map_cons, List.map_nil, hphrase, ha, hb]
    rfl

theorem conditional_value (hreads : Reads S.reading (s.view.hide hidden) [test, body, other] xs) (hshape : Sense.Shaped .ifExp xs) :
    Reads S.reading (s.view.hide hidden) [if l.value.truth then body else other] [S.reading.node tag .ifExp xs] := by
  obtain ⟨x, y, z, rfl, hx, hy, hz⟩ := reads_triple hreads
  obtain ⟨hphrase, hknown⟩ := reads_constant hs hl hx
  obtain ⟨_, e, a, b, hshape⟩ := hshape
  simp only [List.map_cons, List.map_nil, List.cons.injEq, and_true] at hshape
  obtain ⟨_, ha, hb⟩ := hshape
  have hnode : S.reading.node tag .ifExp [x, y, z] = if l.value.truth then y else z := by
    have hexpr : S.phrase .ifExp [.expression (S.returns l.value), .expression a, .expression b] =
        .expression (if l.value.truth then a else b) := by
      rw [← hS.conditional]
      rfl
    simp only [reading, List.map_cons, List.map_nil, hphrase, ha, hb, Sense.comesTo, hknown, Option.bind_some, hexpr]
    cases l.value.truth with
    | true =>
      cases y
      cases ha
      rfl
    | false =>
      cases z
      cases hb
      rfl
  rw [hnode]
  split
  · exact hy
  · exact hz

end

theorem Takes.value (hS : S.Lawful) (hs : s.Sound) {tag : Tag} {kind : Kind} {parts ts : List Tree}
    {xs : List (Sense C E)} (h : Takes s kind parts ts) (hreads : Reads S.reading (s.view.hide hidden) parts xs)
    (hadmits : S.reading.admits kind xs) :
    ∃ ys, Reads S.reading (s.view.hide hidden) ts ys ∧ (ys = [S.reading.node tag kind xs] ∨
      ∃ cs, (S.reading.node tag kind xs).phrase = .command (S.compose cs) ∧ ys.map Sense.phrase = cs.map .command) := by
  cases h with
  | branch hl =>
    obtain ⟨ys, cs, hys, hcommand, hcs⟩ := branch_value hS hs hl hreads hadmits.1
    exact ⟨ys, hys, .inr ⟨cs, hcommand, hcs⟩⟩
  | nothing hl hfalse =>
    obtain ⟨x, y, z, c, rfl, hknown, hz, hcommand⟩ := loop_value hS hs hl hfalse hreads hadmits.1
    rw [hadmits.2 x y z rfl rfl _ hknown hfalse] at hz
    cases hz
    exact ⟨[], .nil, .inr ⟨[], hcommand, rfl⟩⟩
  | choice hl => exact ⟨_, conditional_value hS hs hl hreads hadmits.1, .inl rfl⟩

theorem Takes.sublist {kind : Kind} {parts ts : List Tree} (h : Takes s kind parts ts) :
    (idsAll ts).Sublist (idsAll parts) ∧ ∀ o ∈ originsAll ts, o ∈ originsAll parts := by
  obtain rfl | ⟨p, hp, rfl | rfl⟩ := h.part
  · exact ⟨List.nil_sublist _, by simp [originsAll]⟩
  · exact ⟨(idsAll_items_sublist _).trans (ids_sublist_idsAll hp),
      fun o ho => origins_subset_originsAll hp o (originsAll_items_subset _ o ho)⟩
  · simp only [idsAll, originsAll, List.append_nil]
    exact ⟨ids_sublist_idsAll hp, origins_subset_originsAll hp⟩

theorem step_sound (hS : S.Lawful) : StepSound S.reading (fun _ => Numbered S.keeps) step := by
  intro d s s' tag kind parts seat put visited ts hs hseat hread hvisited h
  obtain ⟨parts', m, hparts, hrest⟩ := returns_bind.mp h
  have hchoose := returns_keep_bind.mp hrest
  have hreadable := hseat.readable hread
  obtain ⟨xs, yss, hchain, halters⟩ := (hvisited hs (hseat.places hs) hreadable hparts).alters hreadable
  have hadmits := hseat.admits hread halters.before
  -- parts are no statements, so each of them has become itself and the node has the value it had
  obtain ⟨hnext, hsame⟩ := chain_parts (hchain.at fun s : Session => s.store.next) hadmits.1.1
  rw [hsame] at halters
  have hkept := hnext.trans (keep_next m.store (.node tag kind parts')).symm
  obtain ⟨-, rfl, rfl⟩ | ⟨htakes, rfl⟩ := returns_choose hchoose
  · exact Alters.becomes (hseat.stays hs halters hadmits hadmits rfl) ⟨hkept, .inl rfl⟩
  · obtain ⟨hids, horigins⟩ := htakes.sublist
    have hsound := (hseat.stays hs halters hadmits hadmits rfl).sound
    obtain ⟨hput, ys, hvalue, hpicks⟩ := hseat.picks hs halters hadmits hadmits rfl hnext hids horigins
      fun hidden hreads => htakes.value hS hsound hreads hadmits
    rw [hput]
    exact Alters.becomes hpicks ⟨hkept, hvalue⟩

theorem run_single (hS : S.Lawful) {n m : Nat} {ys : List (Sense C E)} (h : S.keeps n m x ys) :
    S.run (S.reading.single ys).phrase = S.run x.phrase := by
  obtain ⟨_, rfl | ⟨cs, hx, hys⟩⟩ := h
  · rfl
  · have hgather : (S.gather (ys.map Sense.phrase)).1 = S.compose cs := by
      have hcommands := gather_commands hS cs []
      rw [List.append_nil, ← hys, gather, hS.seq_skip] at hcommands
      rw [hcommands]
    rw [hx, Semantics.run, ← hgather]
    match ys with
    | [] => rfl
    | [y] =>
      cases cs with
      | nil => cases hys
      | cons c cs =>
        have hy : y.phrase = .command c := (List.cons.inj hys).1
        rw [Reading.single, List.map_singleton, hy, gather, gather, hS.seq_skip, Semantics.run]
    | _ :: _ :: _ => rfl

theorem keeps_meaning (hS : S.Lawful) {s s' : Session} {t t' : Tree} (hcarries : s.store.Carries t)
    (hfits : S.reading.Fits (s.store.expand t)) (h : Returns (run step t) s t' s') :
    s'.store.Carries t' ∧ S.meaning (s'.store.expand t') = S.meaning (s.store.expand t) := by
  obtain ⟨hcarries', _, ys, hkeeps, heval⟩ := run_carries (respects hS) (step_sound hS) hcarries hfits h
  refine ⟨hcarries', ?_⟩
  rw [meaning, heval, run_single hS hkeeps, meaning]

end

/-! ## Removed loops -/

theorem step_completes : StepCompletes step := sequential_completes.deadBranch

section
variable {s s' : Session} {tag : Tag} {l : Literal} {rest ts : List Tree}

theorem visit_constant {again : Nat → Work (List Tree)}
    (h : Returns (visit step again (.node tag (.constant l) [])) s ts s') : ts = [.node tag (.constant l) []] := by
  obtain ⟨_, _, hparts, hrest⟩ := returns_bind.mp h
  cases hparts
  obtain ⟨_, _, _, hchoose⟩ := returns_bind.mp hrest
  exact (returns_pure.mp hchoose).1.symm

theorem choose_loop {test : Tree} (hl : (s.store.look test).literal? = some l) (hfalse : l.value.truth = false)
    (h : Returns (choose tag .whileStmt (test :: rest)) s ts s') : ts = [] := by
  obtain ⟨hnone, -⟩ | ⟨⟨⟩, -⟩ := returns_choose h
  · exact absurd (.nothing hl hfalse) (hnone [])
  · rfl

theorem removes_loop {ttag : Tag} {t' : Tree} (hfalse : l.value.truth = false)
    (h : Returns (run step (.node tag .whileStmt (.node ttag (.constant l) [] :: rest))) s t' s') : t' = .absent := by
  have hrest := returns_get_bind.mp h
  obtain ⟨ts, hvisit, rfl⟩ := returns_bind_pure.mp hrest
  obtain ⟨_, _, hparts, hstep⟩ := returns_bind.mp hvisit
  obtain ⟨_, _, htest, hothers⟩ := returns_bind.mp hparts
  obtain ⟨_, _, rfl⟩ := returns_bind_pure.mp hothers
  obtain rfl := visit_constant htest
  obtain ⟨_, _, _, hchoose⟩ := returns_bind.mp hstep
  rw [choose_loop rfl hfalse hchoose]
  rfl

end

end Pass.DeadBranch

/-! ## Programs that run -/

/-- What programs do: branches, loops and conditional expressions are fixed, all other statements and expressions do
what they do. A constant is as true as its value. -/
structure Language (S : Type u) (R : Type v) (V : Type w) where
  value : Value → V
  truth : V → Eval S R Bool
  stmt : Kind → List (Phrase (Run S R) (Eval S R V)) → Run S R
  expr : Kind → List (Phrase (Run S R) (Eval S R V)) → Eval S R V
  truth_value : ∀ v, truth (value v) = .pure v.truth

namespace Language
variable {S : Type u} {R : Type v} {V : Type w}

noncomputable def semantics (L : Language S R V) : Semantics (Run S R) (Eval S R V) where
  skip := .skip
  seq := .seq
  stmt := fun kind parts =>
    match kind, parts with
    | .ifStmt, [.expression e, .list a [], .list b []] => .branch (e.bind L.truth) a b
    | .whileStmt, [.expression e, .list a [], .list b []] => .loop (e.bind L.truth) a b
    | kind, parts => L.stmt kind parts
  expr := fun kind parts =>
    match kind, parts with
    | .ifExp, [.expression e, .expression a, .expression b] => (e.bind L.truth).bind fun c => if c then a else b
    | kind, parts => L.expr kind parts
  returns := fun v => .pure (L.value v)

theorem lawful (L : Language S R V) : L.semantics.Lawful where
  skip_seq := Run.skip_seq
  seq_skip := Run.seq_skip
  seq_assoc := Run.seq_assoc
  branch := by
    intro v a b
    rw [← Run.branch_pure, ← L.truth_value]
    rfl
  loop := by
    intro v a b hfalse
    have htest : (Eval.pure (L.value v)).bind L.truth = .pure false := by rw [Eval.pure_bind, L.truth_value, hfalse]
    simp only [semantics, htest, Run.loop_false]
  conditional := by
    intro v a b
    simp only [semantics, Eval.pure_bind, L.truth_value]

/-- What a program does, from any state. -/
noncomputable def exec (L : Language S R V) (t : Tree) : Run S R := L.semantics.meaning t

def IsBlock (L : Language S R V) (t : Tree) : Prop := ∃ c, (L.semantics.reading.eval t).phrase = .list c []

theorem exec_loop (L : Language S R V) {tag ttag : Tag} {l : Literal} {body other : Tree}
    (hfalse : l.value.truth = false) (hbody : L.IsBlock body) (hother : L.IsBlock other) :
    L.exec (.node tag .whileStmt [.node ttag (.constant l) [], body, other]) = L.exec other := by
  obtain ⟨a, ha⟩ := hbody
  obtain ⟨b, hb⟩ := hother
  have hloop := L.lawful.loop l.value a b hfalse
  rw [← ha, ← hb] at hloop
  rw [exec, exec, Semantics.meaning, Semantics.meaning, hb]
  exact hloop

end Language

namespace Pass.DeadBranch
open Store Work Tree
variable {S : Type u} {R : Type v} {V : Type w}

/-- The pass returns a program that does what the program did, if no loop with an else clause that does something is
removed. A removed loop did what its else clause does, and now does nothing. -/
theorem run_keeps_execution (L : Language S R V) (s : Session) :
    (∀ t, s.store.Carries t → L.semantics.reading.Fits (s.store.expand t) →
      ∃ t' s', Returns (run step t) s t' s' ∧ s'.store.Carries t' ∧
        L.exec (s'.store.expand t') = L.exec (s.store.expand t)) ∧
    ∀ tag ttag l body other, l.value.truth = false →
      L.IsBlock (s.store.expand (.seq body)) → L.IsBlock (s.store.expand (.seq other)) →
      ∃ t' s', Returns (run step (.node tag .whileStmt [.node ttag (.constant l) [], .seq body, .seq other])) s t' s' ∧
        L.exec (s.store.expand (.node tag .whileStmt [.node ttag (.constant l) [], .seq body, .seq other])) =
          L.exec (s.store.expand (.seq other)) ∧
        L.exec (s'.store.expand t') = .skip := by
  constructor
  · intro t hcarries hfits
    obtain ⟨t', s', hreturns⟩ := completes_run step_completes t s
    exact ⟨t', s', hreturns, keeps_meaning L.lawful hcarries hfits hreturns⟩
  · intro tag ttag l body other hfalse hbody hother
    obtain ⟨t', s', hreturns⟩ :=
      completes_run step_completes (.node tag .whileStmt [.node ttag (.constant l) [], .seq body, .seq other]) s
    obtain rfl := removes_loop hfalse hreturns
    exact ⟨.absent, s', hreturns, L.exec_loop hfalse hbody hother, rfl⟩

def recording : Language (List Kind) Unit Value where
  value := id
  truth := fun v => .pure v.truth
  stmt := fun kind parts s =>
    match kind, parts with
    | .moduleDef, .list c _ :: _ => c s
    | kind, _ => some (s ++ [kind], .normal)
  expr := fun _ _ => .pure .none
  truth_value := fun _ => rfl

def deciding : Tree :=
  .node { id := 1 } .moduleDef [.seq
    [.node { id := 2 } .ifStmt
      [.node { id := 3 } .ifExp
        [.node { id := 4 } (.constant { value := .bool true, origin := 4 }) [],
         .node { id := 5 } (.constant { value := .int 1, origin := 5 }) [], .node { id := 6 } (.name "a" .load) []],
       .seq [.node { id := 7 } .exprStmt [.node { id := 8 } (.name "b" .load) []],
        .node { id := 9 } .returnStmt [.absent]],
       .seq [.node { id := 10 } .passStmt []]],
     .node { id := 11 } .whileStmt
      [.node { id := 12 } (.constant { value := .int 0, origin := 12 }) [],
       .seq [.node { id := 13 } .breakStmt []], .seq []]]]

theorem fits_deciding : recording.semantics.reading.Fits deciding := by
  simp [deciding, Reading.Fits, Reading.FitsAll, Reading.eval, Reading.evalAll, Semantics.reading, Sense.Shaped,
    Sense.Spared, Semantics.phrase, Kind.isStmt, Kind.isExpr, Semantics.gather, Sense.comesTo]

theorem carries_deciding : Carries { next := 14 } deciding where
  sound := Sound.empty.grow (by decide)
  places := ⟨by decide, fun _ _ => by simp [Store.view], by decide, by decide⟩
  resolves := ⟨_, reads_plain _ rfl (Reading.fits_of_admits (fun _ _ => trivial) _)⟩

def assignment : Tree :=
  .node { id := 4 } .assign [.seq [.node { id := 5 } (.name "x" .store) []],
    .node { id := 6 } (.constant { value := .int 1, origin := 6 }) []]

def leaving : Tree :=
  .node { id := 1 } .whileStmt
    [.node { id := 2 } (.constant { value := .bool false, origin := 2 }) [], .seq [.node { id := 3 } .passStmt []],
     .seq [assignment]]

theorem run_keeps_execution_deciding :
    (∃ t' s', Returns (run step deciding) { store := { next := 14 } } t' s' ∧ s'.store.Carries t' ∧
      recording.exec (s'.store.expand t') = recording.exec deciding) ∧
    ∃ t' s', Returns (run step leaving) { store := { next := 7 } } t' s' ∧
      recording.exec leaving = recording.exec (.seq [assignment]) ∧ recording.exec (s'.store.expand t') = .skip :=
  ⟨(run_keeps_execution recording { store := { next := 14 } }).1 deciding carries_deciding fits_deciding,
    (run_keeps_execution recording { store := { next := 7 } }).2 _ _ _ _ _ rfl ⟨_, rfl⟩ ⟨_, rfl⟩⟩

/-- The else clause of a loop that never runs is lost. -/
theorem leaving_loses_assignment :
    ∃ t' s', Returns (run step (.node { id := 7 } .moduleDef [.seq [leaving]])) { store := { next := 8 } } t' s' ∧
      recording.exec (.node { id := 7 } .moduleDef [.seq [leaving]]) [] = some ([.assign], .normal) ∧
      recording.exec (s'.store.expand t') [] = some ([], .normal) := by
  have hreturns : Returns (run step (.node { id := 7 } .moduleDef [.seq [leaving]])) { store := { next := 8 } }
      (.node { id := 7 } .moduleDef [.seq []]) _ := returns_of_ok rfl
  have hmodule : recording.exec (.node { id := 7 } .moduleDef [.seq [leaving]]) =
      (recording.exec leaving).seq .skip := rfl
  have hloop : recording.exec leaving = recording.exec (.seq [assignment]) :=
    recording.exec_loop rfl ⟨_, rfl⟩ ⟨_, rfl⟩
  refine ⟨_, _, hreturns, ?_, rfl⟩
  rw [hmodule, Run.seq_skip, hloop]
  rfl

end Pass.DeadBranch

end SourceOptimizer
