import SourceOptimizer.Pass.Unroll
import SourceOptimizer.Proofs.Traversal

/-! What unrolling makes of a loop, and of which loops. The else clause of the loop, the keywords of its call
and the jumps in its body are not looked at. -/
namespace SourceOptimizer

variable {target target' iterable other seat : Tree} {body body' : List Tree} {s : Store} {tag : Tag}
  {put : Tree → Tree}

def Tree.Integral (t : Tree) (n : Int) : Prop := ∃ l, t.literal? = some l ∧ l.value.asInt? = some n

namespace Pass.Unroll
open Store Tree Work

/-- The bounds that the arguments of a call give. -/
inductive Arguments : List Tree → Bounds → Prop
  | stop {t n} (h : t.Integral n) : Arguments [t] ⟨0, n, 1⟩
  | startStop {t u m n} (ht : t.Integral m) (hu : u.Integral n) : Arguments [t, u] ⟨m, n, 1⟩
  | startStopStep {t u v m n k} (ht : t.Integral m) (hu : u.Integral n) (hv : v.Integral k) :
      Arguments [t, u, v] ⟨m, n, k⟩

/-- A call of `range` by its name with constant bounds, and its keywords. -/
inductive RangeCall : Tree → Bounds → Tree → Prop
  | mk {tag ftag ctx names args b keywords} (h : Arguments args b) :
      RangeCall (.node tag .call [.node ftag (.name "range" ctx) names, .seq args, keywords]) b keywords

/-! ## Reading the call -/

section
variable {hidden : List Nat} {t u : Tree} {b : Bounds}

theorem literal_look (hs : s.Sound) (h : Reads .itself (s.view.hide hidden) [t] [u]) :
    (s.look t).literal? = u.literal? := by
  rcases reads_look hs h with ⟨tag, kind, parts, us, heq, _, rfl⟩ | ⟨items, us, rfl, _, rfl⟩ | ⟨rfl, rfl⟩
  · rw [heq]
    cases kind <;> rfl
  · rfl
  · rfl

theorem integer_asInt (hs : s.Sound) (h : Reads .itself (s.view.hide hidden) [t] [u]) (n : Int) :
    (∃ v, integer? s t = some v ∧ v.asInt? = some n) ↔ u.Integral n := by
  unfold integer? Integral
  rw [literal_look hs h]
  cases u.literal? with
  | none => simp
  | some l =>
    constructor
    · rintro ⟨v, hv, hn⟩
      simp at hv
      exact ⟨l, rfl, hv.2 ▸ hn⟩
    · rintro ⟨_, ⟨⟩, hn⟩
      exact ⟨l.value, by simp [hn], hn⟩

theorem isRange_iff (hs : s.Sound) (h : Reads .itself (s.view.hide hidden) [t] [u]) :
    isRange s t = true ↔
      ∃ tag ftag ctx names rest, u = .node tag .call (.node ftag (.name "range" ctx) names :: rest) := by
  rcases reads_look hs h with ⟨tag, kind, parts, us, heq, hparts, rfl⟩ | ⟨items, us, rfl, _, rfl⟩ | ⟨rfl, rfl⟩
  · cases kind with
    | call =>
      cases parts with
      | nil =>
        cases hparts
        simp [isRange, heq, Reading.itself]
      | cons f rest =>
        obtain ⟨v, vs, rfl, hf, _⟩ := hparts.uncons
        rcases reads_look hs hf with ⟨ftag, fkind, fparts, fs, hfeq, _, rfl⟩ | ⟨_, _, rfl, _, rfl⟩ | ⟨rfl, rfl⟩
        · cases fkind <;> simp [isRange, heq, hfeq, Reading.itself]
        · simp [isRange, heq, Reading.itself]
        · simp [isRange, heq, Reading.itself]
    | _ => simp [isRange, heq, Reading.itself]
  · simp [isRange, Reading.itself]
  · simp [isRange, Reading.itself]

theorem arguments_iff {args us : List Tree} (hs : s.Sound) (h : Reads .itself (s.view.hide hidden) args us)
    (hlook : ∃ tag f keywords, s.look t = .node tag .call [f, .seq args, keywords]) :
    bounds? s t = some b ↔ Arguments us b := by
  obtain ⟨tag, f, keywords, hlook⟩ := hlook
  simp only [bounds?, arguments?, hlook, Option.bind_eq_bind, Option.bind_eq_some_iff, Option.pure_def,
    Option.some.injEq]
  rcases args with _ | ⟨a, _ | ⟨c, _ | ⟨d, _ | ⟨_, _⟩⟩⟩⟩
  · cases h
    constructor
    · simp
    · rintro ⟨⟩
  · obtain ⟨u, _, rfl, ha, hnil⟩ := h.uncons
    cases hnil
    simp only [Option.bind_eq_some_iff, Option.some.injEq]
    constructor
    · rintro ⟨_, ⟨v, hv, rfl⟩, _, ⟨⟩, n, hn, _, ⟨⟩, rfl⟩
      exact .stop ((integer_asInt hs ha n).mp ⟨v, hv, hn⟩)
    · rintro ⟨hn⟩
      obtain ⟨v, hv, hn⟩ := (integer_asInt hs ha _).mpr hn
      exact ⟨_, ⟨v, hv, rfl⟩, _, rfl, _, hn, _, rfl, rfl⟩
  · obtain ⟨u, _, rfl, ha, h⟩ := h.uncons
    obtain ⟨w, _, rfl, hc, hnil⟩ := h.uncons
    cases hnil
    simp only [Option.bind_eq_some_iff, Option.some.injEq]
    constructor
    · rintro ⟨_, ⟨v, hv, v', hv', rfl⟩, m, hm, n, hn, _, ⟨⟩, rfl⟩
      exact .startStop ((integer_asInt hs ha m).mp ⟨v, hv, hm⟩) ((integer_asInt hs hc n).mp ⟨v', hv', hn⟩)
    · rintro (_ | ⟨hm, hn⟩)
      obtain ⟨v, hv, hm⟩ := (integer_asInt hs ha _).mpr hm
      obtain ⟨v', hv', hn⟩ := (integer_asInt hs hc _).mpr hn
      exact ⟨_, ⟨v, hv, v', hv', rfl⟩, _, hm, _, hn, _, rfl, rfl⟩
  · obtain ⟨u, _, rfl, ha, h⟩ := h.uncons
    obtain ⟨w, _, rfl, hc, h⟩ := h.uncons
    obtain ⟨z, _, rfl, hd, hnil⟩ := h.uncons
    cases hnil
    simp only [Option.bind_eq_some_iff, Option.some.injEq]
    constructor
    · rintro ⟨_, ⟨v, hv, v', hv', w', hw', rfl⟩, m, hm, n, hn, k, hk, rfl⟩
      exact .startStopStep ((integer_asInt hs ha m).mp ⟨v, hv, hm⟩) ((integer_asInt hs hc n).mp ⟨v', hv', hn⟩)
        ((integer_asInt hs hd k).mp ⟨w', hw', hk⟩)
    · rintro (_ | _ | ⟨hm, hn, hk⟩)
      obtain ⟨v, hv, hm⟩ := (integer_asInt hs ha _).mpr hm
      obtain ⟨v', hv', hn⟩ := (integer_asInt hs hc _).mpr hn
      obtain ⟨w', hw', hk⟩ := (integer_asInt hs hd _).mpr hk
      exact ⟨_, ⟨v, hv, v', hv', w', hw', rfl⟩, _, hm, _, hn, _, hk, rfl⟩
  · constructor
    · simp
    · intro harguments
      have hlength := h.length_eq
      cases harguments <;> simp at hlength

theorem look_of_bounds (h : bounds? s t = some b) :
    ∃ tag f args keywords, s.look t = .node tag .call [f, .seq args, keywords] := by
  simp only [bounds?, arguments?, Option.bind_eq_bind, Option.bind_eq_some_iff] at h
  obtain ⟨_, h, _⟩ := h
  split at h
  next tag f args keywords heq => exact ⟨tag, f, args, keywords, heq⟩
  next => simp at h

theorem rangeCall_iff (hs : s.Sound) (h : Reads .itself (s.view.hide hidden) [t] [u]) :
    (isRange s t = true ∧ bounds? s t = some b) ↔ ∃ keywords, RangeCall u b keywords := by
  constructor
  · rintro ⟨hrange, hbounds⟩
    obtain ⟨_, f, args, keywords, hlook⟩ := look_of_bounds hbounds
    obtain ⟨tag, ftag, ctx, names, rest, rfl⟩ := (isRange_iff hs h).mp hrange
    rcases reads_look hs h with ⟨_, _, _, us, heq, hparts, hu⟩ | ⟨_, _, rfl, _⟩ | ⟨rfl, _⟩
    · cases heq.symm.trans hlook
      cases hu
      obtain ⟨_, _, heq', _, hparts⟩ := hparts.uncons
      cases heq'
      cases hparts with
      | seq hargs hrest =>
        obtain ⟨k, _, rfl, _, hnil⟩ := hrest.uncons
        cases hnil
        exact ⟨k, .mk ((arguments_iff hs hargs ⟨_, _, _, hlook⟩).mp hbounds)⟩
    · simp at hlook
    · simp at hlook
  · rintro ⟨keywords, ⟨harguments⟩⟩
    refine ⟨(isRange_iff hs h).mpr ⟨_, _, _, _, _, rfl⟩, ?_⟩
    rcases reads_look hs h with ⟨_, _, parts, us, hlook, hparts, hu⟩ | ⟨_, _, _, _, hu⟩ | ⟨_, hu⟩
    · cases hu
      match parts, hparts with
      | [f, a, k], hparts =>
        obtain ⟨_, _, heq', _, hparts⟩ := hparts.uncons
        cases heq'
        obtain ⟨_, _, heq', ha, _⟩ := hparts.uncons
        cases heq'
        rcases reads_look hs ha with ⟨_, _, _, _, _, _, hseq⟩ | ⟨args, us, rfl, hargs, hseq⟩ | ⟨_, hseq⟩
        · cases hseq
        · cases hseq
          exact (arguments_iff hs hargs ⟨_, _, _, hlook⟩).mpr harguments
        · cases hseq
      | [], hparts => simpa using hparts.length_eq
      | [_], hparts => simpa using hparts.length_eq
      | [_, _], hparts => simpa using hparts.length_eq
      | _ :: _ :: _ :: _ :: _, hparts => simpa using hparts.length_eq
    · cases hu
    · cases hu

end

/-! ## The step -/

section
variable {s s' : Session} {visited : Work (List Tree)}
  {ts : List Tree}

structure Replaced (s : Store) (iterable : Tree) (body : List Tree) (b : Bounds) : Prop where
  range : isRange s iterable = true
  bounds : bounds? s iterable = some b
  step_ne : b.step ≠ 0
  estimate_le : b.estimate body.length ≤ maxLines

/-- The unrolled loop beside the store that its parts are shared in. -/
def unrolled (s : Store) (target : Tree) (body : List Tree) (b : Bounds) : Tree × Store :=
  (s.shareAll (target :: body)).2.adopt (unroll (s.share target).1 ((s.share target).2.shareAll body).1 b)

theorem returns_of_replaced (h : Replaced s.store iterable body b) :
    Returns (step tag .forStmt [target, iterable, .seq body, other] visited) s [(unrolled s.store target body b).1]
      { s with changed := true, store := (unrolled s.store target body b).2 } := by
  refine .bind rfl ?_
  have hstep : ¬ (b.step == 0) = true := by simpa using h.step_ne
  have hshort : ¬ maxLines < b.estimate body.length := by
    have := h.estimate_le
    omega
  simp only [if_pos h.range, h.bounds, if_neg hstep, if_neg hshort]
  refine .bind (rfl) ?_
  refine .bind (returns_shareAll.mpr ⟨rfl, rfl⟩) ?_
  refine returns_bind.mpr ⟨(), _, rfl, ?_⟩
  exact .bind (rfl) rfl

/-- A loop is replaced by the rounds of its shared parts, or it stays a loop. -/
theorem returns_step (h : Returns (step tag .forStmt [target, iterable, .seq body, other] visited) s ts s') :
    (∃ b, Replaced s.store iterable body b ∧ ts = [(unrolled s.store target body b).1] ∧
      s' = { s with changed := true, store := (unrolled s.store target body b).2 }) ∨
    ((∀ b, ¬ Replaced s.store iterable body b) ∧ ∃ parts, ts = [.node tag .forStmt parts]) := by
  have hrest := returns_get_bind.mp h
  dsimp only at hrest
  split at hrest
  next hrange =>
    split at hrest
    next hnone =>
      cases hrest
      exact .inr ⟨fun b hb => by simp [hb.bounds] at hnone, _, rfl⟩
    next b hsome =>
      split at hrest
      next hzero =>
        obtain ⟨_, _, _, hrest⟩ := returns_bind.mp hrest
        obtain ⟨_, _, _, rfl, _⟩ := returns_descend.mp hrest
        refine .inr ⟨fun b' hb => hb.step_ne ?_, _, rfl⟩
        cases hb.bounds.symm.trans hsome
        simpa using hzero
      next hstep =>
        split at hrest
        next hlong =>
          obtain ⟨_, _, _, rfl, _⟩ := returns_descend.mp hrest
          refine .inr ⟨fun b' hb => ?_, _, rfl⟩
          cases hb.bounds.symm.trans hsome
          exact absurd hb.estimate_le (by omega)
        next hshort =>
          obtain ⟨_, _, hshare, hrest⟩ := returns_bind.mp hrest
          cases hshare
          obtain ⟨_, _, hshare, hrest⟩ := returns_bind.mp hrest
          obtain ⟨rfl, rfl⟩ := returns_shareAll.mp hshare
          have hpure := returns_adopt_bind.mp (returns_modify_bind.mp hrest)
          cases hpure
          exact .inl ⟨b, ⟨hrange, hsome, by simpa using hstep, by omega⟩, rfl, rfl⟩
  next hrange =>
    obtain ⟨_, _, _, rfl, _⟩ := returns_descend.mp hrest
    exact .inr ⟨fun b hb => hrange hb.range, _, rfl⟩

end

/-! ## The rounds -/

inductive Rounds (target : Tree) (body : List Tree) : List Int → List Tree → Prop
  | nil : Rounds target body [] []
  | cons {n ns tag ctag l stmts} (hvalue : l.value = .int n) (hrest : Rounds target body ns stmts) :
      Rounds target body (n :: ns)
        (.node tag .assign [.seq [target], .node ctag (.constant l) []] :: (body ++ stmts))

theorem number_assign (htarget : ids target = []) (value : Value) (next : Nat) :
    (make .assign [.seq [target], .constant value]).number next =
      (.node { id := next } .assign
        [.seq [target], .node { id := next + 1 } (.constant { value, origin := next + 1 }) []], next + 2) := by
  simp only [make, constant, number, numberAll, number_of_bare target _ htarget, beq_self_eq_true, if_true]

theorem reads_rounds {v : View} (htarget : ids target = [])
    (hbody : idsAll body = []) (hreads : Reads .itself v [target] [target']) (hreads' : Reads .itself v body body')
    (ns : List Int) (next : Nat) :
    ∃ stmts, Reads .itself v (numberAll next (ns.flatMap (round target body))).1 stmts ∧
      Rounds target' body' ns stmts := by
  induction ns generalizing next with
  | nil => exact ⟨[], .nil, .nil⟩
  | cons n ns ih =>
    obtain ⟨stmts, hstmts, hrounds⟩ := ih (next + 2)
    simp only [List.flatMap_cons, round, List.cons_append, numberAll, number_assign htarget, numberAll_append,
      numberAll_of_bare body _ hbody]
    exact ⟨_, .node (.seq hreads (.node .nil trivial .nil)) trivial (hreads'.append hstmts), .cons rfl hrounds⟩

theorem unnumbered_rounds (htarget : Unnumbered [target]) (hbody : Unnumbered body)
    (ns : List Int) : Unnumbered (ns.flatMap (round target body)) := by
  induction ns with
  | nil => simp [Unnumbered, idsAll, originsAll]
  | cons n ns ih =>
    have hassign : Unnumbered [make .assign [.seq [target], .constant (.int n)]] := by
      simp only [Unnumbered, idsAll, originsAll, List.append_nil] at htarget
      simp only [Unnumbered, make, constant, idsAll, ids, originsAll, origins, Kind.origin?, List.append_nil,
        List.mem_cons, List.mem_append, List.not_mem_nil, or_false, Option.toList_some, Option.toList_none, false_or]
      exact ⟨fun i hi => hi.elim id fun hi => hi.elim (htarget.1 i) id, fun o ho => ho.elim (htarget.2 o) id⟩
    exact (hassign.append hbody).append ih

theorem adopt_unroll
    (hids : idsAll (target :: body) = []) (horigins : originsAll (target :: body) = [])
    (hreads : Reads .itself s.view (target :: body) (target' :: body')) (b : Bounds) :
    (∀ i ∈ idsAll [(s.adopt (unroll target body b)).1], s.next ≤ i) ∧
      ∃ mtag stmts, (s.adopt (unroll target body b)).2.expand (s.adopt (unroll target body b)).1 =
        .node mtag .moduleDef [.seq stmts] ∧ Rounds target' body' b.numbers stmts := by
  simp only [idsAll, originsAll, List.append_eq_nil_iff] at hids horigins
  constructor
  · have hunroll : Unnumbered [unroll target body b] := by
      have htarget : Unnumbered [target] := unnumbered_of_bare (by simp [idsAll, hids]) (by simp [originsAll, horigins])
      have hrounds := unnumbered_rounds htarget (unnumbered_of_bare hids.2 horigins.2) b.numbers
      simpa [Unnumbered, unroll, make, idsAll, ids, originsAll, origins, Kind.origin?] using hrounds
    exact fun i hi => (adopt_ids hunroll i hi).1
  · obtain ⟨_, _, heq, htarget, hbody⟩ := hreads.uncons
    cases heq
    obtain ⟨stmts, hstmts, hrounds⟩ := reads_rounds hids.1 hids.2 htarget hbody b.numbers (s.next + 1)
    refine ⟨{ id := s.next }, stmts, expand_eq_of_reads ?_, hrounds⟩
    exact .node (.seq hstmts .nil) trivial .nil

theorem expand_unrolled (hs : s.Sound) (hseat : Seat s tag .forStmt [target, iterable, .seq body, other] seat put)
    (hread : Readable .itself s [seat]) (b : Bounds) :
    ∃ mtag stmts, (unrolled s target body b).2.expand (put (unrolled s target body b).1) =
      .node mtag .moduleDef [.seq stmts] ∧ Rounds (s.expand target) (body.map s.expand) b.numbers stmts := by
  have hplaces : s.Places (target :: body) := by
    refine (hseat.places hs).sublist ?_ ?_
    · simp [idsAll, ids]
    · intro o ho
      simp only [originsAll, origins, List.append_nil, List.mem_append] at ho ⊢
      exact ho.imp_right fun ho => .inr (.inl ho)
  obtain ⟨hshares, hvalues⟩ := shareAll_shares s hs (target :: body) hplaces
  obtain ⟨xs, hparts⟩ := hseat.readable hread
  obtain ⟨target', _, rfl, htarget, hparts⟩ := hparts.uncons
  obtain ⟨_, _, rfl, _, hparts⟩ := hparts.uncons
  cases hparts with
  | seq hbody _ =>
    have hreads := hvalues .itself [] _ (by simp) ((View.hide_nil s.view).symm ▸ htarget.cons hbody)
    obtain ⟨hnew, mtag, stmts, hexpand, hrounds⟩ := adopt_unroll hshares.bare hshares.bareOrigins hreads b
    -- target and body are shared by all rounds, and a round reads them as they were read before
    rw [expand_eq_of_reads htarget, map_expand_eq_of_reads hbody, unrolled,
      hseat.put_eq hs fun i hi => hshares.next_eq ▸ hnew i hi]
    exact ⟨mtag, stmts, hexpand, hrounds⟩

theorem rangeCall_expand (hs : s.Sound) (hseat : Seat s tag .forStmt [target, iterable, .seq body, other] seat put)
    (hread : Readable .itself s [seat]) (b : Bounds) :
    (isRange s iterable = true ∧ bounds? s iterable = some b) ↔
      ∃ keywords, RangeCall (s.expand iterable) b keywords := by
  obtain ⟨xs, hparts⟩ := hseat.readable hread
  obtain ⟨_, _, rfl, _, hparts⟩ := hparts.uncons
  obtain ⟨u, _, rfl, hu, _⟩ := hparts.uncons
  rw [expand_eq_of_reads hu]
  rw [← View.hide_nil s.view] at hu
  exact rangeCall_iff hs hu

end Pass.Unroll

/-! ## Jumps -/

namespace Kind

def isJump : Kind → Bool
  | breakStmt | continueStmt => true
  | _ => false

/-- The first of the parts whose jumps belong to the loop around the node. The body of a loop keeps its jumps,
its else clause does not; the jumps in a function or a class are none of the loop around it. -/
def openFrom? : Kind → Option Nat
  | moduleDef | ifStmt | withStmt | asyncWith | matchStmt | matchCase | tryStmt | tryStar | exceptHandler _ => some 0
  | whileStmt => some 2
  | forStmt | asyncFor => some 3
  | _ => none

end Kind

namespace Tree

mutual

/-- How many jumps of a tree belong to the loop around it. -/
def jumps : Tree → Nat
  | .node _ kind parts =>
    (if kind.isJump then 1 else 0) +
      match kind.openFrom? with
      | some first => jumpsFrom first parts
      | none => 0
  | .seq items => jumpsFrom 0 items
  | .absent => 0
  | .shared _ => 0

def jumpsFrom : Nat → List Tree → Nat
  | _, [] => 0
  | 0, t :: ts => jumps t + jumpsFrom 0 ts
  | first + 1, _ :: ts => jumpsFrom first ts

end

theorem jumpsFrom_append (ts us : List Tree) : jumpsFrom 0 (ts ++ us) = jumpsFrom 0 ts + jumpsFrom 0 us := by
  induction ts with
  | nil => simp [jumpsFrom]
  | cons t ts ih => simp only [List.cons_append, jumpsFrom, ih, Nat.add_assoc]

theorem jumps_module (tag : Tag) (stmts : List Tree) :
    jumps (.node tag .moduleDef [.seq stmts]) = jumpsFrom 0 stmts := by
  simp [jumps, jumpsFrom, Kind.isJump, Kind.openFrom?]

end Tree

namespace Pass.Unroll
open Store Tree Work

theorem Rounds.jumps {stmts : List Tree} {ns : List Int} (h : Rounds target body ns stmts) :
    jumpsFrom 0 stmts = ns.length * jumpsFrom 0 body := by
  induction h with
  | nil => simp [jumpsFrom]
  | cons _ _ ih =>
    simp only [jumpsFrom, Tree.jumps, Kind.isJump, Kind.openFrom?, jumpsFrom_append, ih, List.length_cons, Nat.add_mul,
      Bool.false_eq_true, if_false]
    omega

/-- The loops that are replaced, and what becomes of the rest of them. The jumps of the body are left without
their loop, once in each round, and the loop might as well have any else clause. -/
theorem replaced_iff_counted {s s' : Session} {tag : Tag} {target iterable other seat : Tree} {body ts : List Tree}
    {put : Tree → Tree} {visited : Work (List Tree)} (hs : s.store.Sound)
    (hseat : Seat s.store tag .forStmt [target, iterable, .seq body, other] seat put)
    (hread : Readable .itself s.store [seat])
    (h : Returns (step tag .forStmt [target, iterable, .seq body, other] visited) s ts s') :
    ((∃ mtag parts, ts = [.node mtag .moduleDef parts]) ↔
      ∃ b keywords, RangeCall (s.store.expand iterable) b keywords ∧ b.step ≠ 0 ∧
        b.estimate body.length ≤ maxLines) ∧
    ∀ mtag parts, ts = [.node mtag .moduleDef parts] →
      (∃ b keywords, RangeCall (s.store.expand iterable) b keywords ∧
        jumps (s'.store.expand (put (.node mtag .moduleDef parts))) =
          b.numbers.length * jumpsFrom 0 (body.map s.store.expand)) ∧
      ∀ other' visited', Returns (step tag .forStmt [target, iterable, .seq body, other'] visited') s ts s' := by
  have hcall := rangeCall_expand hs hseat hread
  rcases returns_step h with ⟨b, hb, rfl, rfl⟩ | ⟨hno, parts, rfl⟩
  · obtain ⟨keywords, hb'⟩ := (hcall b).mp ⟨hb.range, hb.bounds⟩
    refine ⟨⟨fun _ => ⟨b, keywords, hb', hb.step_ne, hb.estimate_le⟩, fun _ => ⟨_, _, rfl⟩⟩, ?_⟩
    intro mtag parts heq
    obtain ⟨mtag', stmts, hexpand, hrounds⟩ := expand_unrolled hs hseat hread b
    refine ⟨⟨b, keywords, hb', ?_⟩, fun _ _ => returns_of_replaced hb⟩
    rw [← List.singleton_inj.mp heq, hexpand, jumps_module, hrounds.jumps]
  · refine ⟨⟨?_, ?_⟩, ?_⟩
    · rintro ⟨_, _, heq⟩
      cases heq
    · rintro ⟨b, keywords, hb, hstep, hestimate⟩
      obtain ⟨hrange, hbounds⟩ := (hcall b).mpr ⟨keywords, hb⟩
      exact absurd ⟨hrange, hbounds, hstep, hestimate⟩ (hno b)
    · intro _ _ heq
      cases heq

def threeRounds : Tree :=
  .node { id := 2 } .call [.node { id := 3 } (.name "range" .load) [],
    .seq [.node { id := 4 } (.constant { value := .int 3, origin := 4 }) []], .seq []]

def breaking (other : List Tree) : List Tree :=
  [.node { id := 1 } (.name "i" .store) [], threeRounds, .seq [.node { id := 5 } .breakStmt []], .seq other]

theorem replaced_threeRounds : Replaced { next := 8 } threeRounds [.node { id := 5 } .breakStmt []] ⟨0, 3, 1⟩ :=
  ⟨rfl, rfl, by decide, by decide⟩

theorem seat_breaking (other : List Tree) (hids : (idsAll [.node { id := 6 } .forStmt (breaking other)]).Nodup)
    (hbelow : ∀ i ∈ idsAll [.node { id := 6 } .forStmt (breaking other)], i < 8)
    (horigins : ∀ o ∈ originsAll [.node { id := 6 } .forStmt (breaking other)], o < 8) :
    Seat { next := 8 } { id := 6 } .forStmt (breaking other) (.node { id := 6 } .forStmt (breaking other)) id :=
  .beside ⟨hids, fun _ _ => by simp [Store.view], hbelow, horigins⟩

theorem readable_plain (h : refs t = []) : Readable .itself s [t] :=
  ⟨_, reads_plain t h (Reading.fits_of_admits (fun _ _ => trivial) t)⟩

theorem replaced_iff_counted_breaking :
    ∃ mtag parts s', Returns (step { id := 6 } .forStmt (breaking [.node { id := 7 } .passStmt []]) (pure []))
        { store := { next := 8 } } [.node mtag .moduleDef parts] s' ∧
      ∀ other visited, Returns (step { id := 6 } .forStmt (breaking other) visited)
        { store := { next := 8 } } [.node mtag .moduleDef parts] s' := by
  have hs : Sound { next := 8 } := Sound.empty.grow (by decide)
  have hreturns (other : List Tree) (visited : Work (List Tree)) :
      Returns (step { id := 6 } .forStmt (breaking other) visited) { store := { next := 8 } } _ _ :=
    returns_of_replaced replaced_threeRounds
  have hseat := seat_breaking [.node { id := 7 } .passStmt []] (by decide) (by decide) (by decide)
  obtain ⟨_, hloses⟩ := replaced_iff_counted hs hseat (readable_plain rfl) (hreturns _ (pure []))
  exact ⟨_, _, _, hreturns _ _, fun other visited => (hloses _ _ rfl).2 (.seq other) visited⟩

/-- A jump in the body is left without its loop: this loop has none that belong to a loop around it, its rounds have three. -/
theorem breaking_strays :
    ∃ u s', Returns (step { id := 6 } .forStmt (breaking []) (pure [])) { store := { next := 8 } } [u] s' ∧
      u.kind? = some .moduleDef ∧ jumps (.node { id := 6 } .forStmt (breaking [])) = 0 ∧
      jumps (s'.store.expand u) = 3 := by
  have hs : Sound { next := 8 } := Sound.empty.grow (by decide)
  have hseat := seat_breaking [] (by decide) (by decide) (by decide)
  refine ⟨_, _, returns_of_replaced replaced_threeRounds, rfl, rfl, ?_⟩
  obtain ⟨mtag, stmts, hexpand, hrounds⟩ := expand_unrolled hs hseat (readable_plain rfl) ⟨0, 3, 1⟩
  calc jumps _ = jumps (.node mtag .moduleDef [.seq stmts]) := congrArg jumps hexpand
    _ = jumpsFrom 0 stmts := jumps_module mtag stmts
    _ = 3 * jumpsFrom 0 [.node { id := 5 } .breakStmt []] := hrounds.jumps
    _ = 3 := rfl

end Pass.Unroll
end SourceOptimizer
