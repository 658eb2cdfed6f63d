import SourceOptimizer.Pass.Fold
import SourceOptimizer.Proofs.Traversal

/-! Folding keeps the meaning of a program, for every compositional interpretation. A comparison can tell one
constant from an equal one, so a constant is seen with its literal and only what is computed is seen by its
meaning alone. -/
namespace SourceOptimizer
open Pass

variable {a b l : Literal} {n : Nat} {kind : Kind} {test : Tree} {rest : List Tree}
universe u

/-- The meanings in one part of a node. -/
inductive Part (D : Type u) where
  | one (meaning : D)
  | list (items : List (Part D))
  | absent

/-- A part of a node before its constants are taken for their values. -/
inductive Seen (D : Type u) where
  | constant (literal : Literal)
  | computed (meaning : D)
  | list (items : List (Seen D))
  | absent

/-- A compositional interpretation. Meanings are of any kind, so those that depend on an environment and have
effects are among them. -/
structure Interpretation (D : Type u) where
  node : Kind → List (Part D) → D
  returns : Value → D
  /-- what raises an exception of this class and does nothing else -/
  raises : String → D

namespace Seen
variable {D : Type u}

def literal? : Seen D → Option Literal
  | .constant l => some l
  | _ => none

def sole? : Seen D → Option Literal
  | .list [x] => x.literal?
  | _ => none

end Seen

namespace Interpretation
variable {D : Type u} (I : Interpretation D)

def outcome : Except Fault Value → D
  | .ok v => I.returns v
  | .error e => I.raises e.className

mutual

def erase : Seen D → Part D
  | .constant l => .one (I.returns l.value)
  | .computed d => .one d
  | .list items => .list (eraseAll items)
  | .absent => .absent

def eraseAll : List (Seen D) → List (Part D)
  | [] => []
  | x :: xs => erase x :: eraseAll xs

end

/-- A comparison of two constants knows which objects they are; all else is made from meanings. -/
def apply (kind : Kind) (xs : List (Seen D)) : D :=
  match kind, xs with
  | .compare [op], [x, y] =>
    match x.literal?, y.sole? with
    | some a, some b => I.outcome (Fold.compareValue op a b)
    | _, _ => I.node kind (I.eraseAll xs)
  | _, _ => I.node kind (I.eraseAll xs)

def reading : Reading (Seen D) where
  node := fun _ kind xs =>
    match kind with
    | .constant l => .constant l
    | kind => .computed (I.apply kind xs)
  seq := .list
  absent := .absent

def meaning (t : Tree) : Part D := I.erase (I.reading.eval t)

/-- The faults that an operator on two values can end with. -/
def IsOperatorFault (e : Fault) : Prop :=
  (∃ op v w, Value.binary op v w = .error e) ∨ ∃ op same v w, Value.compareBy op same v w = .error e

/-- What is asked of an interpretation: operators have their values, conditions count by their truth, and the
expression that is made to raise the exception of an operator raises it. -/
structure Lawful : Prop where
  binary : ∀ op v w, I.node (.binOp op) [.one (I.returns v), .one (I.returns w)] = I.outcome (Value.binary op v w)
  compare : ∀ op v w, I.node (.compare [op]) [.one (I.returns v), .list [.one (I.returns w)]] =
    I.outcome (Value.bool <$> Value.compareBy op (Value.interned v w) v w)
  branch : ∀ v w parts, v.truth = w.truth →
    I.node .ifStmt (.one (I.returns v) :: parts) = I.node .ifStmt (.one (I.returns w) :: parts)
  loop : ∀ v w parts, v.truth = w.truth →
    I.node .whileStmt (.one (I.returns v) :: parts) = I.node .whileStmt (.one (I.returns w) :: parts)
  raising : ∀ e n, IsOperatorFault e →
    I.meaning ((Tree.raisingFault e).number n).1 = .one (I.raises e.className)

end Interpretation

/-! ## Terms

The interpretation that computes nothing but what is asked of every interpretation. -/

inductive Term where
  | value (v : Value)
  | raised (className : String)
  | made (kind : Kind) (parts : List (Part Term))

namespace Term
open Interpretation

def ofResult : Except Fault Value → Term
  | .ok v => .value v
  | .error e => .raised e.className

def ofNode : Kind → List (Part Term) → Term
  | .binOp op, [.one (.value v), .one (.value w)] => ofResult (Value.binary op v w)
  | .compare [op], [.one (.value v), .list [.one (.value w)]] =>
    ofResult (Value.bool <$> Value.compareBy op (Value.interned v w) v w)
  | .ifStmt, .one (.value v) :: parts => .made .ifStmt (.one (.value (.bool v.truth)) :: parts)
  | .whileStmt, .one (.value v) :: parts => .made .whileStmt (.one (.value (.bool v.truth)) :: parts)
  | .call, [.one (.made (.attr "throw" .load) _), .list [.one (.made .call (.one (.made (.name c .load) _) :: _))], _] =>
    .raised c
  | .call, [.one (.made .lambda [_, .one (.raised c)]), _, _] => .raised c
  | kind, parts => .made kind parts

def interpretation : Interpretation Term where
  node := ofNode
  returns := .value
  raises := .raised

theorem outcome_eq (r : Except Fault Value) : interpretation.outcome r = ofResult r := by
  cases r <;> rfl

theorem lawful : interpretation.Lawful where
  binary := fun op v w => (outcome_eq _).symm
  compare := fun op v w => (outcome_eq _).symm
  branch := by
    intro v w parts h
    simp only [interpretation, ofNode, h]
  loop := by
    intro v w parts h
    simp only [interpretation, ofNode, h]
  raising := by
    intro e n _
    simp only [meaning, Tree.raisingFault, Tree.raising, Tree.callOf, Tree.emptyGenerator, Tree.noParameters, Tree.loadName, Tree.make,
      Tree.number, Tree.numberAll, Reading.eval, Reading.evalAll, reading, apply, erase, eraseAll, interpretation,
      ofNode]

end Term

/-! ## Constants that were not there before -/

theorem Literal.same_of_apart (h : a.origin = 0 ∨ a.origin ≠ b.origin) :
    a.same b = Value.interned a.value b.value := by
  unfold Literal.same
  split
  next ha =>
    rw [ha]
    cases b.value <;> rfl
  next hb _ =>
    rw [hb]
    cases a.value <;> simp [Value.interned]
  next => rcases h with h | h <;> simp [h]

theorem Literal.same_of_origin_ne (h : a.origin ≠ b.origin) : a.same b = Value.interned a.value b.value :=
  same_of_apart (.inr h)

def Grown (n m : Nat) (a b : Option Literal) : Prop :=
  a = b ∨ a = none ∧ ∃ l, b = some l ∧ n ≤ l.origin ∧ l.origin < m

theorem Grown.cases {m : Nat} {a b : Option Literal} (h : Grown n m a b) (hold : ∀ l ∈ a, l.origin < n) :
    ∀ l ∈ b, l ∈ a ∧ l.origin < n ∨ n ≤ l.origin ∧ l.origin < m := by
  intro l hl
  rcases h with rfl | ⟨_, l', rfl, hnew⟩
  · exact .inl ⟨hl, hold l hl⟩
  · cases hl
    exact .inr hnew

namespace Interpretation
variable {D : Type u} {I : Interpretation D} {k m : Nat} {x y : Seen D} {xs : List (Seen D)}

/-- The meaning of a part stays, and all constants that are not the old ones are new. -/
def stays (I : Interpretation D) (n m : Nat) (x : Seen D) (ys : List (Seen D)) : Prop :=
  n ≤ m ∧ ∃ y, ys = [y] ∧ I.erase y = I.erase x ∧ Grown n m x.literal? y.literal? ∧ Grown n m x.sole? y.sole?

theorem chain_le {yss : List (List (Seen D))} (h : Chain I.stays n m xs yss) : n ≤ m := by
  induction h with
  | nil => exact Nat.le_refl _
  | cons head _ ih => exact Nat.le_trans head.1 ih

theorem chain_erase {yss : List (List (Seen D))} (h : Chain I.stays n m xs yss) :
    yss.map I.reading.single = yss.flatten ∧ I.eraseAll yss.flatten = I.eraseAll xs := by
  induction h with
  | nil => exact ⟨rfl, rfl⟩
  | cons head _ ih =>
    obtain ⟨_, y, rfl, herase, _, _⟩ := head
    simp only [List.map_cons, List.flatten_cons, List.singleton_append, eraseAll, herase, ih.1, ih.2]
    exact ⟨rfl, trivial⟩

theorem respects (I : Interpretation D) : Respects I.reading fun _ => Numbered I.stays := by
  refine .numbered rfl (fun n x => ⟨Nat.le_refl n, x, rfl, rfl, .inl rfl, .inl rfl⟩) fun {n m xs yss} h => ?_
  refine ⟨chain_le h, _, rfl, ?_, .inl rfl, ?_⟩
  · simp only [reading, erase, (chain_erase h).2]
  · cases h with
    | nil => exact .inl rfl
    | cons head tail =>
      obtain ⟨_, y, rfl, _, hliteral, _⟩ := head
      cases tail with
      | nil => exact hliteral
      | cons head' tail' =>
        obtain ⟨_, y', rfl, _⟩ := head'
        exact .inl rfl

/-- The two constants of a comparison come from different places. -/
def Apart (kind : Kind) (xs : List (Seen D)) : Prop :=
  ∀ op x y, kind = .compare [op] → xs = [x, y] → ∀ a ∈ x.literal?, ∀ b ∈ y.sole?, a.origin ≠ b.origin

theorem erase_of_literal (h : x.literal? = some l) : I.erase x = .one (I.returns l.value) := by
  cases x with
  | constant l =>
    cases h
    rfl
  | _ => simp [Seen.literal?] at h

theorem erase_of_sole (h : x.sole? = some l) : I.erase x = .list [.one (I.returns l.value)] := by
  unfold Seen.sole? at h
  split at h
  next y => simp only [erase, eraseAll, erase_of_literal h]
  next => simp at h

theorem apply_of_apart (hI : I.Lawful) (h : Apart kind xs) :
    I.apply kind xs = I.node kind (I.eraseAll xs) := by
  unfold apply
  split
  next op x y =>
    split
    next a b ha hb =>
      rw [Fold.compareValue, Literal.same_of_origin_ne (h op x y rfl rfl a ha b hb), ← hI.compare]
      simp only [eraseAll, erase_of_literal ha, erase_of_sole hb]
    next => rfl
  next => rfl

theorem chain_length {yss : List (List (Seen D))} (h : Chain I.stays n m xs yss) :
    xs.length = yss.flatten.length := by
  induction h with
  | nil => rfl
  | cons head _ ih =>
    obtain ⟨_, y, rfl, _⟩ := head
    simp [ih]

theorem chain_pair {z : Seen D} {yss : List (List (Seen D))} (h : Chain I.stays n m [x, z] yss) :
    ∃ k y w, yss.flatten = [y, w] ∧ n ≤ k ∧ Grown n k x.literal? y.literal? ∧ Grown k m z.sole? w.sole? := by
  obtain ⟨k, _, _, rfl, ⟨hle, y, rfl, _, hliteral, _⟩, htail⟩ := h.uncons
  obtain ⟨_, _, _, rfl, ⟨_, w, rfl, _, _, hsole⟩, hnil⟩ := htail.uncons
  cases hnil
  exact ⟨k, y, w, rfl, hle, hliteral, hsole⟩

theorem Apart.stays {yss : List (List (Seen D))} (h : Apart kind xs) (hchain : Chain I.stays n m xs yss)
    (hold : ∀ x ∈ xs, (∀ l ∈ x.literal?, l.origin < n) ∧ ∀ l ∈ x.sole?, l.origin < n) : Apart kind yss.flatten := by
  intro op y w hkind hyw a ha b hb
  obtain ⟨x, z, rfl⟩ : ∃ x z, xs = [x, z] := by
    have hlength := chain_length hchain
    rw [hyw] at hlength
    match xs, hlength with
    | [x, z], _ => exact ⟨x, z, rfl⟩
  obtain ⟨k, _, _, heq, hle, hliteral, hsole⟩ := chain_pair hchain
  cases hyw.symm.trans heq
  obtain ⟨hx, _⟩ := hold x (by simp)
  obtain ⟨_, hz⟩ := hold z (by simp)
  rcases hliteral.cases hx a ha with ⟨hax, _⟩ | hnew <;>
    rcases hsole.cases (fun l hl => Nat.lt_of_lt_of_le (hz l hl) hle) b hb with ⟨hbz, _⟩ | hnew'
  · exact h op x z hkind rfl a hax b hbz
  · omega
  · have hlt := hz b hbz
    omega
  · omega

theorem apply_stays (hI : I.Lawful) {yss : List (List (Seen D))} (h : Chain I.stays n m xs yss)
    (hold : ∀ x ∈ xs, (∀ l ∈ x.literal?, l.origin < n) ∧ ∀ l ∈ x.sole?, l.origin < n) (kind : Kind) :
    I.apply kind (yss.map I.reading.single) = I.apply kind xs := by
  obtain ⟨hsingle, herase⟩ := chain_erase h
  rw [hsingle]
  by_cases hapart : Apart kind xs
  · rw [apply_of_apart hI hapart, apply_of_apart hI (hapart.stays h hold), herase]
  · -- two constants that are one object: both were there before
    simp only [Apart, Classical.not_forall] at hapart
    obtain ⟨op, x, z, rfl, rfl, a, ha, b, hb, _⟩ := hapart
    obtain ⟨k, y, w, heq, _, hliteral, hsole⟩ := chain_pair h
    rw [heq]
    rcases hliteral with hsame | ⟨hnone, _⟩
    · rcases hsole with hsame' | ⟨hnone, _⟩
      · simp only [apply, ← hsame, ← hsame', Option.mem_def.mp ha, Option.mem_def.mp hb]
      · simp [hnone] at hb
    · simp [hnone] at ha

end Interpretation

/-! ## The step -/

namespace Pass.Fold
open Store Tree Work Interpretation
variable {D : Type u} {I : Interpretation D} {hidden : List Nat}

theorem reads_origin_lt {s : Store} {ts : List Tree} {xs : List (Seen D)} (hs : s.Sound)
    (horigins : ∀ o ∈ originsAll ts, o < s.next) (h : Reads I.reading (s.view.hide hidden) ts xs) :
    ∀ x ∈ xs, (∀ l ∈ x.literal?, l.origin < s.next) ∧ ∀ l ∈ x.sole?, l.origin < s.next := by
  induction h with
  | nil => simp
  | @node tag kind parts _ ts _ _ _ _ _ ihrest =>
    simp only [originsAll, origins, List.mem_append] at horigins
    intro x hx
    rcases List.mem_cons.mp hx with rfl | hx
    · cases kind with
      | constant l => simpa [reading, Seen.literal?, Seen.sole?] using horigins _ (.inl (.inl (by simp [Kind.origin?])))
      | _ => simp [reading, Seen.literal?, Seen.sole?]
    · exact ihrest (fun o ho => horigins o (.inr ho)) x hx
  | @seq items ys ts _ _ _ ihitems ihrest =>
    simp only [originsAll, origins, List.mem_append] at horigins
    intro x hx
    rcases List.mem_cons.mp hx with rfl | hx
    · have hitems := ihitems fun o ho => horigins o (.inl ho)
      refine ⟨by simp [reading, Seen.literal?], fun l hl => ?_⟩
      simp only [reading, Seen.sole?] at hl
      split at hl
      next y heq =>
        cases heq
        exact (hitems y (by simp)).1 l hl
      next => simp at hl
    · exact ihrest (fun o ho => horigins o (.inr ho)) x hx
  | absent _ ihrest =>
    intro x hx
    rcases List.mem_cons.mp hx with rfl | hx
    · simp [reading, Seen.literal?, Seen.sole?]
    · exact ihrest horigins x hx
  | @shared id t _ _ _ hview _ _ ihnode ihrest =>
    obtain ⟨_, hview⟩ := View.hide_eq_some.mp hview
    obtain ⟨tag, kind, parts, rfl, _, _, hbare⟩ := hs.stored hview
    intro x hx
    rcases List.mem_cons.mp hx with rfl | hx
    · refine ihnode ?_ _ (by simp)
      simpa [originsAll, origins, hbare] using hs.originBelow hview
    · exact ihrest horigins x hx

theorem adopt_constant (s : Store) (v : Value) :
    s.adopt (.constant v) =
      (.node { id := s.next } (.constant { value := v, origin := s.next }) [], { s with next := s.next + 1 }) := by
  simp [Store.adopt, Tree.constant, make, number, numberAll]

theorem unnumbered_constant (v : Value) : Unnumbered [.constant v] := by
  simp [Unnumbered, Tree.constant, make, idsAll, ids, originsAll, origins, Kind.origin?]

theorem unnumbered_texts (args : List String) : Unnumbered (args.map text) := by
  induction args with
  | nil => simp [Unnumbered, idsAll, originsAll]
  | cons arg args ih =>
    constructor
    · simpa [idsAll, ids, text, Tree.constant, make] using ih.1
    · simpa [originsAll, origins, text, Tree.constant, make, Kind.origin?] using ih.2

theorem unnumbered_raising (e : Fault) : Unnumbered [raisingFault e] := by
  obtain ⟨hids, horigins⟩ := unnumbered_texts e.args
  constructor
  · simpa [raisingFault, raising, callOf, emptyGenerator, noParameters, loadName, make, idsAll, ids] using hids
  · simpa [raisingFault, raising, callOf, emptyGenerator, noParameters, loadName, make, originsAll, origins, Kind.origin?]
      using horigins

theorem refs_raising (e : Fault) : refs (raisingFault e) = [] := by
  have htexts : refsAll (e.args.map text) = [] := by
    induction e.args with
    | nil => rfl
    | cons arg args ih => simpa [refsAll, refs, text, Tree.constant, make] using ih
  simp [raisingFault, raising, callOf, emptyGenerator, noParameters, loadName, make, refs, refsAll, htexts]

section
variable {s s' : Session} {tag : Tag} {parts : List Tree} {seat : Tree} {put : Tree → Tree}
  {visited : Work (List Tree)} {ts : List Tree}

theorem revalues {m : Session} {parts' : List Tree} (hI : I.Lawful) (hs : s.store.Sound) (hplaces : s.store.Places parts)
    (h : PartsBecome I.reading (Numbered I.stays) s parts m parts') :
    Revalues I.reading s.store tag kind parts m.store parts' := by
  intro hidden hhidden xs hreads _
  obtain ⟨yss, hchain, hreads'⟩ := h.value hidden hhidden hreads
  refine ⟨_, hreads', trivial, ?_⟩
  have hchain := hchain.at fun s : Session => s.store.next
  have happly := apply_stays hI hchain (reads_origin_lt hs hplaces.originBelow hreads) kind
  simp only [reading] at happly ⊢
  split
  · rfl
  · rw [happly]

theorem stays_self {m : Nat} (x : Seen D) (h : n ≤ m) : I.stays n m x [x] :=
  ⟨h, x, rfl, rfl, .inl rfl, .inl rfl⟩

theorem descend_becomes (hI : I.Lawful) (hs : s.store.Sound) (hseat : Seat s.store tag kind parts seat put)
    (hread : Readable I.reading s.store [seat]) (hvisited : Visits I.reading (Numbered I.stays) parts visited)
    (h : Returns (descend tag kind visited) s ts s') :
    Becomes I.reading (Numbered I.stays) s seat s' (ts.map put) := by
  obtain ⟨parts', m, hparts, rfl, rfl⟩ := returns_descend.mp h
  have hplaces := hseat.places hs
  have hbecome := hvisited hs hplaces (hseat.readable hread) hparts
  refine hseat.descend_becomes hs hbecome.toEvolves (revalues hI hs hplaces hbecome) ?_
  rintro x _ rfl
  exact stays_self x (by simpa [keep_next] using hbecome.next_le)

theorem raising_stays (hI : I.Lawful) (s : Store) {e : Fault} (he : IsOperatorFault e) :
    I.stays s.next (s.adopt (raisingFault e)).2.next (.computed (I.outcome (.error e)))
      [I.reading.eval (s.adopt (raisingFault e)).1] := by
  have hmeaning : I.meaning (s.adopt (raisingFault e)).1 = .one (I.raises e.className) := by
    rw [adopt_eq]
    dsimp only
    exact hI.raising e s.next he
  obtain ⟨d, hcall⟩ : ∃ d, I.reading.eval (s.adopt (raisingFault e)).1 = .computed d := by
    simp only [adopt_eq, raisingFault, raising, callOf, make, number, Reading.eval, reading]
    exact ⟨_, rfl⟩
  rw [meaning, hcall] at hmeaning
  rw [hcall]
  exact ⟨next_le_adopt (unnumbered_raising e), _, rfl, hmeaning, .inl rfl, .inl rfl⟩

theorem replace_becomes (hI : I.Lawful) (hs : s.store.Sound) (hseat : Seat s.store tag kind parts seat put)
    {result : Except Fault Value} (hkind : ∀ l, kind ≠ .constant l)
    (hfault : ∀ e, result = .error e → IsOperatorFault e)
    (hvalue : ∀ hidden xs, Reads I.reading (s.store.view.hide hidden) parts xs →
      I.apply kind xs = I.outcome result)
    (h : Returns (replace (.node tag kind parts) result) s ts s') :
    Becomes I.reading (Numbered I.stays) s seat s' (ts.map put) := by
  have hnode (xs : List (Seen D)) : I.reading.node tag kind xs = .computed (I.apply kind xs) := by
    cases kind with
    | constant l => exact absurd rfl (hkind l)
    | _ => rfl
  cases result with
  | ok v =>
    have hpure := returns_adopt_bind.mp (returns_modify_bind.mp h)
    cases hpure
    refine hseat.adopt_becomes hs (unnumbered_constant v) rfl (Reading.fits_of_admits (fun _ _ => trivial) _) rfl ?_
    intro hidden xs hreads _
    rw [hnode, hvalue hidden xs hreads]
    show I.stays _ (s.store.adopt (.constant v)).2.next _ _
    rw [adopt_constant]
    refine ⟨Nat.le_succ _, _, rfl, rfl, .inr ⟨rfl, _, rfl, Nat.le_refl _, Nat.lt_succ_self _⟩, .inl rfl⟩
  | error e =>
    obtain ⟨_, m, hflag, hrest⟩ := returns_bind.mp h
    have hstore : m.store = s.store := fixes_flag (fun _ _ _ => rfl) _ _ _ _ _ hflag
    have hpure := returns_adopt_bind.mp hrest
    cases hpure
    rw [hstore]
    have hstays := raising_stays hI s.store (hfault e rfl)
    refine hseat.adopt_becomes hs (unnumbered_raising e) (refs_raising e)
      (Reading.fits_of_admits (fun _ _ => trivial) _) (by dsimp only) fun hidden xs hreads _ => ?_
    rw [hnode, hvalue hidden xs hreads]
    simpa only [Numbered] using hstays

theorem returns_condition {c : Option Tree} (h : Returns (condition? test) s c s') :
    (c = none ∧ s' = s ∧ ∀ l, (s.store.look test).literal? = some l → ∃ b, l.value = .bool b) ∨
      ∃ l, (s.store.look test).literal? = some l ∧ (∀ b, l.value ≠ .bool b) ∧
        c = some (s.store.adopt (.constant (.bool l.value.truth))).1 ∧
        s' = { s with changed := true, store := (s.store.adopt (.constant (.bool l.value.truth))).2 } := by
  obtain ⟨_, _, hliteral, hrest⟩ := returns_bind.mp h
  obtain ⟨hlook, rfl⟩ := returns_literal.mp hliteral
  split at hrest
  · cases hrest
    refine .inl ⟨rfl, rfl, fun l hl => ?_⟩
    cases hlook.symm.trans hl
    exact ⟨_, rfl⟩
  next _ l hbool =>
    have hpure := returns_adopt_bind.mp (returns_modify_bind.mp hrest)
    cases hpure
    refine .inr ⟨l, hlook, fun b hb => ?_, rfl, rfl⟩
    obtain ⟨value, origin, marked⟩ := l
    cases hb
    exact hbool _ _ _ rfl
  · cases hrest
    exact .inl ⟨rfl, rfl, fun l hl => by cases hlook.symm.trans hl⟩

theorem condition_revalues (hI : I.Lawful) (hkind : kind = .ifStmt ∨ kind = .whileStmt) {s : Store} {n m : Session}
    (hs : s.Sound) {c : Tree} {parts' : List Tree} (hlook : (s.look test).literal? = some l)
    (hc : c = (s.adopt (.constant (.bool l.value.truth))).1) (hn : n.store = (s.adopt (.constant (.bool l.value.truth))).2)
    (h : PartsBecome I.reading (Numbered I.stays) n (test :: rest) m parts') :
    Revalues I.reading s tag kind (test :: rest) m.store (c :: parts'.tail) := by
  intro hidden hhidden xs hreads _
  have hview : n.store.view = s.view := by
    rw [hn]
    rfl
  obtain ⟨yss, hchain, hreads'⟩ := h.value hidden (by rwa [Stores, hview]) (by rwa [hview])
  have hchain := hchain.at fun s : Session => s.store.next
  obtain ⟨x, xs, rfl, htest, _⟩ := hreads.uncons
  obtain ⟨_, _, rfl⟩ := reads_of_literal hs hlook htest
  subst hc
  obtain ⟨_, _, yss, rfl, _, htail⟩ := hchain.uncons
  obtain ⟨hsingle, herase⟩ := chain_erase htail
  -- the condition is visited with the other parts, but what has become of it is dropped for the new constant
  have hrest : Reads I.reading (m.store.view.hide hidden) parts'.tail (yss.map I.reading.single) := by
    cases parts' with
    | nil => simpa using hreads'.length_eq
    | cons p ps =>
      obtain ⟨_, _, heq, _, hps⟩ := hreads'.uncons
      cases heq
      exact hps
  refine ⟨_, .node .nil trivial hrest, trivial, ?_⟩
  rw [hsingle]
  rcases hkind with rfl | rfl
  · simp only [reading, apply, eraseAll, erase, herase]
    rw [hI.branch (.bool l.value.truth) l.value _ rfl]
  · simp only [reading, apply, eraseAll, erase, herase]
    rw [hI.loop (.bool l.value.truth) l.value _ rfl]

theorem foldCondition_becomes (hI : I.Lawful) (hkind : kind = .ifStmt ∨ kind = .whileStmt) (hs : s.store.Sound)
    (hseat : Seat s.store tag kind (test :: rest) seat put)
    (hread : Readable I.reading s.store [seat]) (hvisited : Visits I.reading (Numbered I.stays) (test :: rest) visited)
    (h : Returns (foldCondition tag kind test visited) s ts s') :
    Becomes I.reading (Numbered I.stays) s seat s' (ts.map put) := by
  obtain ⟨c, m, hcondition, hrest⟩ := returns_bind.mp h
  rcases returns_condition hcondition with ⟨rfl, rfl, -⟩ | ⟨l, hlook, -, rfl, rfl⟩
  · exact descend_becomes hI hs hseat hread hvisited hrest
  · have hnew := unnumbered_constant (.bool l.value.truth)
    have hplaces := hseat.places hs
    obtain ⟨_, _, hparts, rfl, rfl⟩ := returns_descend.mp hrest
    obtain ⟨parts', m', hvisit, hpure⟩ := returns_bind.mp hparts
    obtain ⟨rfl, rfl⟩ := returns_pure.mp hpure
    have hbecome := by
      refine hvisited ?_ ?_ ?_ hvisit
      · exact hs.grow (next_le_adopt hnew)
      · exact hplaces.grow (next_le_adopt hnew)
      · exact hseat.readable hread
    have htail : Evolves I.reading (s.store.adopt (.constant (.bool l.value.truth))).2 (test :: rest) m'.store
        parts'.tail := by
      refine hbecome.toEvolves.select ?_ ?_
      · cases parts' with
        | nil => exact List.Sublist.refl _
        | cons p ps => exact List.sublist_append_right _ _
      · cases parts' with
        | nil => exact fun _ => id
        | cons p ps => exact fun o ho => List.mem_append_right _ ho
    have hevolves := (Evolves.adopt [] hs hnew).append htail hplaces
    refine hseat.descend_becomes hs hevolves (condition_revalues hI hkind hs hlook rfl rfl hbecome) ?_
    rintro x _ rfl
    exact stays_self x (by simpa [keep_next] using hevolves.next_le)

theorem returns_operands {left right : Tree} {fold : Literal → Literal → Work (List Tree)} {leave : Work (List Tree)}
    (h : Returns (do
      match ← literal? left, ← literal? right with
      | some a, some b => fold a b
      | _, _ => leave) s ts s') :
    (((s.store.look left).literal?.isSome && (s.store.look right).literal?.isSome) = false ∧ Returns leave s ts s') ∨
      ∃ a b, (s.store.look left).literal? = some a ∧ (s.store.look right).literal? = some b ∧
        Returns (fold a b) s ts s' := by
  obtain ⟨_, _, hliteral, hrest⟩ := returns_bind.mp h
  cases hliteral
  obtain ⟨_, _, hliteral, hmatch⟩ := returns_bind.mp hrest
  cases hliteral
  split at hmatch
  next hleft hright => exact .inr ⟨_, _, hleft, hright, hmatch⟩
  next hnone =>
    refine .inl ⟨?_, hmatch⟩
    cases ha : (s.store.look left).literal? with
    | none => rfl
    | some a => simpa [Option.isSome_iff_exists, ← Bool.not_eq_true] using (hnone a · ha)

theorem error_of_map {α β : Type} {f : α → β} {r : Except Fault α} {e : Fault} (h : f <$> r = .error e) :
    r = .error e := by
  cases r with
  | error e' => exact congrArg Except.error (Except.error.inj h)
  | ok a => cases h

theorem step_sound (hI : I.Lawful) : StepSound I.reading (fun _ => Numbered I.stays) step := by
  intro d s s' tag kind parts seat put visited ts hs hseat hread hvisited h
  unfold step at h
  split at h
  next => exact foldCondition_becomes hI (.inl rfl) hs hseat hread hvisited h
  next => exact foldCondition_becomes hI (.inr rfl) hs hseat hread hvisited h
  next op left right =>
    rcases returns_operands h with ⟨-, hleave⟩ | ⟨a, b, hleft, hright, hfold⟩
    · exact descend_becomes hI hs hseat hread hvisited hleave
    · refine replace_becomes hI hs hseat (by simp) (fun e he => .inr ⟨op, _, _, _, error_of_map he⟩) ?_ hfold
      intro hidden xs hreads
      obtain ⟨x, _, rfl, hx, hreads⟩ := hreads.uncons
      obtain ⟨y, _, rfl, hy, hnil⟩ := hreads.uncons
      cases hnil
      cases hy with
      | seq hitems _ =>
        obtain ⟨z, _, rfl, hz, hnil⟩ := hitems.uncons
        cases hnil
        obtain ⟨_, _, rfl⟩ := reads_of_literal hs hleft hx
        obtain ⟨_, _, rfl⟩ := reads_of_literal hs hright hz
        rfl
  next op left right =>
    rcases returns_operands h with ⟨-, hleave⟩ | ⟨a, b, hleft, hright, hfold⟩
    · exact descend_becomes hI hs hseat hread hvisited hleave
    · refine replace_becomes hI hs hseat (by simp) (fun e he => .inl ⟨op, _, _, he⟩) ?_ hfold
      intro hidden xs hreads
      obtain ⟨x, _, rfl, hx, hreads⟩ := hreads.uncons
      obtain ⟨y, _, rfl, hy, hnil⟩ := hreads.uncons
      cases hnil
      obtain ⟨_, _, rfl⟩ := reads_of_literal hs hleft hx
      obtain ⟨_, _, rfl⟩ := reads_of_literal hs hright hy
      exact hI.binary op a.value b.value
  next => exact descend_becomes hI hs hseat hread hvisited h

end

/-- A folded program is a program, and it means what it meant. -/
theorem run_keeps_meaning (hI : I.Lawful) {s s' : Session} {t t' : Tree} (hcarries : s.store.Carries t)
    (h : Returns (run step t) s t' s') :
    s'.store.Carries t' ∧ I.meaning (s'.store.expand t') = I.meaning (s.store.expand t) := by
  obtain ⟨hcarries', _, ys, ⟨_, y, rfl, herase, _⟩, heval⟩ :=
    run_carries I.respects (step_sound hI) hcarries (Reading.fits_of_admits (fun _ _ => trivial) _) h
  refine ⟨hcarries', ?_⟩
  rw [meaning, heval]
  exact herase

def branching : Tree :=
  .make .moduleDef [.seq [.make .ifStmt [.constant (.int 7),
    .seq [.make .exprStmt [.make (.compare [.is])
      [.make (.binOp .add) [.constant (.int 1), .constant (.int 2)], .seq [.constant (.int 3)]]]],
    .seq []]]]

theorem run_keeps_meaning_branching :
    ∃ t' s', Returns (run step (Store.adopt {} branching).1) { store := (Store.adopt {} branching).2 } t' s' ∧
      s'.changed = true ∧ s'.store.Carries t' ∧
      Term.interpretation.meaning (s'.store.expand t') =
        Term.interpretation.meaning ((Store.adopt {} branching).2.expand (Store.adopt {} branching).1) := by
  have hreturns : ∃ t', (outcome (run step (Store.adopt {} branching).1)
      { store := (Store.adopt {} branching).2 }).1 = .ok t' := ⟨_, rfl⟩
  obtain ⟨t', hok⟩ := hreturns
  have hreturns := returns_of_ok hok
  have hcarries : (Store.adopt {} branching).2.Carries (Store.adopt {} branching).1 :=
    adopt_carries .empty ⟨by decide, by decide⟩ rfl
  exact ⟨t', _, hreturns, rfl, run_keeps_meaning Term.lawful hcarries hreturns⟩

end Pass.Fold

end SourceOptimizer
