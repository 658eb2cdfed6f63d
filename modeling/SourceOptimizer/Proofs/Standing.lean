import SourceOptimizer.Proofs.Fixpoint

/-! Trees that stand by themselves: no node is shared, every node has an identity of its own, a literal comes
from the node it stands in, and branches and parameters stand where there is room for them. A tree as it is
read stands so, and the passes of the first two levels keep it standing. -/
namespace SourceOptimizer
open Work

variable {items items' : List Tree}

namespace Tree

variable {name : String} {test : Kind → List Tree → Bool} {p u t : Tree} {us : List Tree} {n : Nat}
variable {ts : List Tree} {tag : Tag} {kind : Kind} {parts parts' : List Tree} {m : Nat}

def isBranch : Tree → Bool
  | .node _ .ifStmt _ => true
  | .node _ .whileStmt _ => true
  | _ => false

theorem isBranch_seq (items : List Tree) : isBranch (.seq items) = false := rfl

def isParameter : Tree → Bool
  | .node _ (.arg _) _ => true
  | _ => false

def isParameters : Tree → Bool
  | .node _ .arguments _ => true
  | _ => false

/-- Conditionals have two lists of statements, functions and classes one, and the parameters of a function are
parameters. -/
def hasShape : Kind → List Tree → Bool
  | .functionDef _, [parameters, .seq _, _, _] => parameters.isParameters
  | .functionDef _, _ => false
  | .classDef _, [_, _, .seq _, _] => true
  | .classDef _, _ => false
  | .arguments, [_, .seq plain, variadic, .seq keywordOnly, _, _, _] =>
    plain.all isParameter && (variadic.isAbsent || isParameter variadic) && keywordOnly.all isParameter
  | .arguments, _ => false
  | .ifStmt, [_, .seq _, .seq _] => true
  | .ifStmt, _ => false
  | _, _ => true

/-- Parts that a node may have: where there is room for one part only, no branch stands. -/
def fits (kind : Kind) (parts : List Tree) : Bool := parts.all (!·.isBranch) && hasShape kind parts

theorem fits_functionDef (h : fits (.functionDef name) parts = true) :
    ∃ parameters body decorators result, parts = [parameters, .seq body, decorators, result] ∧ parameters.isParameters = true := by
  replace h := ((Bool.and_eq_true _ _).mp h).2
  unfold hasShape at h
  split at h
  case h_1 => exact ⟨_, _, _, _, rfl, h⟩
  case h_9 => simp_all
  all_goals contradiction

theorem fits_classDef (h : fits (.classDef name) parts = true) :
    ∃ bases keywords body decorators, parts = [bases, keywords, .seq body, decorators] := by
  replace h := ((Bool.and_eq_true _ _).mp h).2
  unfold hasShape at h
  split at h
  case h_3 => exact ⟨_, _, _, _, rfl⟩
  case h_9 => simp_all
  all_goals contradiction

theorem fits_arguments (h : fits .arguments parts = true) :
    ∃ positional plain variadic keywordOnly keywordDefaults keywordVariadic defaults,
      parts = [positional, .seq plain, variadic, .seq keywordOnly, keywordDefaults, keywordVariadic, defaults] ∧
      (plain.all isParameter && (variadic.isAbsent || isParameter variadic) && keywordOnly.all isParameter) = true := by
  replace h := ((Bool.and_eq_true _ _).mp h).2
  unfold hasShape at h
  split at h
  case h_5 => exact ⟨_, _, _, _, _, _, _, rfl, h⟩
  case h_9 => simp_all
  all_goals contradiction

theorem fits_ifStmt (h : fits .ifStmt parts = true) : ∃ test body other, parts = [test, .seq body, .seq other] := by
  replace h := ((Bool.and_eq_true _ _).mp h).2
  unfold hasShape at h
  split at h
  case h_7 => exact ⟨_, _, _, rfl⟩
  case h_9 => simp_all
  all_goals contradiction

theorem arguments_of_fits (hparameters : t.isParameters = true) (hfits : every fits t = true) :
    ∃ tag positional plain variadic keywordOnly keywordDefaults keywordVariadic defaults, t = .node tag .arguments
        [positional, .seq plain, variadic, .seq keywordOnly, keywordDefaults, keywordVariadic, defaults] ∧
      (plain.all isParameter && (variadic.isAbsent || isParameter variadic) && keywordOnly.all isParameter) = true := by
  cases t with
  | node tag kind parts =>
    cases kind with
    | arguments =>
      obtain ⟨_, _, _, _, _, _, _, rfl, hall⟩ := fits_arguments (every_node.mp hfits).1
      exact ⟨_, _, _, _, _, _, _, _, rfl, hall⟩
    | _ => cases hparameters
  | _ => cases hparameters

mutual

def seated : Tree → Bool
  | .node tag kind parts => kind.origin?.all (· == tag.id) && seatedAll parts
  | .seq items => seatedAll items
  | .absent => true
  | .shared _ => true

def seatedAll : List Tree → Bool
  | [] => true
  | t :: ts => seated t && seatedAll ts

end

structure Standing (n : Nat) (ts : List Tree) : Prop where
  plain : refsAll ts = []
  nodup : (idsAll ts).Nodup
  below : ∀ i ∈ idsAll ts, i < n
  seated : seatedAll ts = true
  fits : everyAll fits ts = true

theorem isBranch_of_isParameter (h : t.isParameter = true) : t.isBranch = false := by
  cases t with
  | node tag kind parts => cases kind <;> first | rfl | cases h
  | _ => rfl

theorem seatedAll_append (ts us : List Tree) : seatedAll (ts ++ us) = (seatedAll ts && seatedAll us) := by
  induction ts with
  | nil => rfl
  | cons t ts ih => simp [seatedAll, ih, Bool.and_assoc]

theorem seated_of_mem (h : seatedAll ts = true) (ht : t ∈ ts) : seated t = true := by
  induction ht with
  | head => exact (Bool.and_eq_true_iff.mp h).1
  | tail _ _ ih => exact ih (Bool.and_eq_true_iff.mp h).2

theorem ids_single (ts : List Tree) : ids (Pass.single ts) = idsAll ts := by
  rcases ts with _ | ⟨t, _ | ⟨u, us⟩⟩
  · rfl
  · exact (List.append_nil _).symm
  · rfl

theorem seated_single (ts : List Tree) : seated (Pass.single ts) = seatedAll ts := by
  rcases ts with _ | ⟨t, _ | ⟨u, us⟩⟩
  · rfl
  · exact (Bool.and_true _).symm
  · rfl

theorem seatedAll_items (h : seated t = true) : seatedAll t.items = true := by
  cases t with
  | seq items => exact h
  | _ => rfl

namespace Standing

theorem mono (h : Standing n ts) (hnm : n ≤ m) : Standing m ts :=
  { h with below := fun i hi => Nat.lt_of_lt_of_le (h.below i hi) hnm }

theorem append_iff : Standing n (ts ++ us) ↔ Standing n ts ∧ Standing n us ∧ ∀ i ∈ idsAll ts, i ∉ idsAll us := by
  have hdisjoint : (∀ a ∈ idsAll ts, ∀ b ∈ idsAll us, a ≠ b) ↔ ∀ i ∈ idsAll ts, i ∉ idsAll us := by
    constructor
    · exact fun h i hi hi' => h i hi i hi' rfl
    · rintro h a ha b hb rfl
      exact h a ha hb
  constructor
  · rintro ⟨hplain, hnodup, hbelow, hseated, hfits⟩
    simp only [refsAll_append, idsAll_append, seatedAll_append, everyAll_append, List.append_eq_nil_iff, List.nodup_append,
      List.mem_append, Bool.and_eq_true, hdisjoint] at hplain hnodup hbelow hseated hfits
    exact ⟨⟨hplain.1, hnodup.1, fun i hi => hbelow i (.inl hi), hseated.1, hfits.1⟩,
      ⟨hplain.2, hnodup.2.1, fun i hi => hbelow i (.inr hi), hseated.2, hfits.2⟩, hnodup.2.2⟩
  · rintro ⟨hts, hus, hapart⟩
    constructor
    · rw [refsAll_append, hts.plain, hus.plain, List.append_nil]
    · rw [idsAll_append, List.nodup_append, hdisjoint]
      exact ⟨hts.nodup, hus.nodup, hapart⟩
    · rw [idsAll_append]
      exact fun i hi => (List.mem_append.mp hi).elim (hts.below i) (hus.below i)
    · rw [seatedAll_append, hts.seated, hus.seated, Bool.and_self]
    · rw [everyAll_append, hts.fits, hus.fits, Bool.and_self]

theorem cons_iff : Standing n (t :: ts) ↔ Standing n [t] ∧ Standing n ts ∧ ∀ i ∈ ids t, i ∉ idsAll ts := by
  rw [← List.singleton_append, append_iff]
  simp [idsAll]

theorem node_iff : Standing n [.node tag kind parts] ↔
    Standing n parts ∧ tag.id ∉ idsAll parts ∧ tag.id < n ∧ kind.origin?.all (· == tag.id) = true ∧ Tree.fits kind parts = true := by
  constructor
  · rintro ⟨hplain, hnodup, hbelow, hseated, hfits⟩
    simp only [refsAll, refs, idsAll, ids, seatedAll, Tree.seated, everyAll, every, List.append_nil, List.nodup_cons,
      List.mem_cons, Bool.and_eq_true, and_true] at hplain hnodup hbelow hseated hfits
    exact ⟨⟨hplain, hnodup.2, fun i hi => hbelow i (.inr hi), hseated.2, hfits.2⟩, hnodup.1, hbelow _ (.inl rfl), hseated.1,
      hfits.1⟩
  · rintro ⟨⟨hplain, hnodup, hbelow, hseated, hfits⟩, htag, hlt, horigin, hnode⟩
    constructor <;>
      simp only [refsAll, refs, idsAll, ids, seatedAll, Tree.seated, everyAll, every, List.append_nil, List.nodup_cons,
        List.mem_cons, Bool.and_eq_true, and_true]
    · exact hplain
    · exact ⟨htag, hnodup⟩
    · rintro i (rfl | hi)
      · exact hlt
      · exact hbelow i hi
    · exact ⟨horigin, hseated⟩
    · exact ⟨hnode, hfits⟩

theorem seq_iff : Standing n [.seq items] ↔ Standing n items := by
  constructor
  · rintro ⟨hplain, hnodup, hbelow, hseated, hfits⟩
    simp only [refsAll, refs, idsAll, ids, seatedAll, Tree.seated, everyAll, every, List.append_nil, Bool.and_true]
      at hplain hnodup hbelow hseated hfits
    exact ⟨hplain, hnodup, hbelow, hseated, hfits⟩
  · rintro ⟨hplain, hnodup, hbelow, hseated, hfits⟩
    constructor <;>
      simpa only [refsAll, refs, idsAll, ids, seatedAll, Tree.seated, everyAll, every, List.append_nil, Bool.and_true]

theorem origin_ne {a b : Literal} (h : Standing n [t, u]) (ha : t.literal? = some a) (hb : u.literal? = some b) :
    a.origin ≠ b.origin := by
  obtain ⟨ht, hu, hapart⟩ := cons_iff.mp h
  -- a literal is where its node is
  have hown {t : Tree} {l : Literal} (ht : Standing n [t]) (hl : t.literal? = some l) : l.origin ∈ ids t := by
    obtain ⟨_, _, rfl⟩ := literal?_eq_some.mp hl
    have horigin := (node_iff.mp ht).2.2.2.1
    simp only [Kind.origin?, Option.all_some, beq_iff_eq] at horigin
    rw [horigin]
    exact List.mem_cons_self
  intro heq
  refine hapart _ (hown ht ha) ?_
  simpa [idsAll, heq] using hown hu hb

end Standing

/-! ## New trees -/

theorem fits_branch (h : Tree.fits kind parts = true) (hp : p ∈ parts) : p.isBranch = false := by
  simp only [Tree.fits, Bool.and_eq_true, List.all_eq_true, Bool.not_eq_true'] at h
  exact h.1 p hp

theorem isBranch_bare (t : Tree) : (bare t).isBranch = t.isBranch := by
  cases t with
  | node tag kind parts => cases kind <;> rfl
  | _ => rfl

theorem isParameter_bare (t : Tree) : (bare t).isParameter = t.isParameter := by
  cases t with
  | node tag kind parts => cases kind <;> rfl
  | _ => rfl

theorem isParameters_bare (t : Tree) : (bare t).isParameters = t.isParameters := by
  cases t with
  | node tag kind parts => cases kind <;> rfl
  | _ => rfl

theorem all_bareAll {p : Tree → Bool} (hp : ∀ t, p (bare t) = p t) (ts : List Tree) : (bareAll ts).all p = ts.all p := by
  rw [bareAll_eq_map, List.all_map, show p ∘ bare = p from funext hp]

theorem hasShape_bare (kind : Kind) (parts : List Tree) : hasShape kind.bare (bareAll parts) = hasShape kind parts := by
  cases kind with
  | functionDef name =>
    rcases parts with _ | ⟨parameters, _ | ⟨body, _ | ⟨_, _ | ⟨_, _ | _⟩⟩⟩⟩ <;> try rfl
    all_goals cases body <;> first | rfl | exact isParameters_bare parameters
  | classDef name =>
    rcases parts with _ | ⟨_, _ | ⟨_, _ | ⟨body, _ | ⟨_, _ | _⟩⟩⟩⟩ <;> try rfl
    all_goals cases body <;> rfl
  | arguments =>
    rcases parts with _ | ⟨_, _ | ⟨plain, _ | ⟨variadic, _ | ⟨keywordOnly, _ | ⟨_, _ | ⟨_, _ | ⟨_, _ | _⟩⟩⟩⟩⟩⟩⟩ <;> try rfl
    all_goals cases plain <;> try rfl
    all_goals cases keywordOnly <;> try rfl
    simp only [bareAll, bare, Kind.bare, hasShape, all_bareAll isParameter_bare, isParameter_bare, isAbsent_bare]
  | ifStmt =>
    rcases parts with _ | ⟨_, _ | ⟨body, _ | ⟨other, _ | _⟩⟩⟩ <;> try rfl
    all_goals cases body <;> try rfl
    all_goals cases other <;> rfl
  | _ => rfl

theorem fits_bare (kind : Kind) (parts : List Tree) : fits kind.bare (bareAll parts) = fits kind parts := by
  rw [fits, fits, hasShape_bare, all_bareAll fun t => by rw [isBranch_bare]]

theorem isBranch_number (t : Tree) (n : Nat) : (t.number n).1.isBranch = t.isBranch := by
  rw [← isBranch_bare, bare_number, isBranch_bare]

mutual

theorem number_seated : (t : Tree) → (n : Nat) → Unnumbered [t] → seated (t.number n).1 = true
  | .node tag kind parts, n, h => by
    have hparts := numberAll_seated parts (if tag.id == 0 then n + 1 else n) h.parts
    cases kind with
    | constant l =>
      have horigin : l.origin = 0 := h.2 _ (by simp [originsAll, origins, Kind.origin?])
      simp only [number, seated, hparts, Kind.origin?, horigin, Option.all_some, beq_self_eq_true, if_true, Bool.and_self]
    | _ => simp only [number, seated, hparts, Kind.origin?, Option.all_none, Bool.and_self]
  | .seq items, n, h => numberAll_seated items n h.items
  | .absent, _, _ => rfl
  | .shared _, _, _ => rfl

theorem numberAll_seated : (ts : List Tree) → (n : Nat) → Unnumbered ts → seatedAll (numberAll n ts).1 = true
  | [], _, _ => rfl
  | t :: ts, n, h => by
    simp only [numberAll, seatedAll, number_seated t n h.head, numberAll_seated ts _ h.tail, Bool.and_self]

end

theorem number_standing (hplain : refs t = []) (hnew : Unnumbered [t]) (hfits : every Tree.fits t = true) (n : Nat) :
    Standing (t.number n).2 [(t.number n).1] ∧ n ≤ (t.number n).2 ∧ ∀ i ∈ ids (t.number n).1, n ≤ i := by
  obtain ⟨hids, hnext⟩ := number_ids t n hnew
  have hrange : ∀ i ∈ ids (t.number n).1, n ≤ i ∧ i < (t.number n).2 := by
    intro i hi
    rw [hids, List.mem_range'_1] at hi
    rw [hnext]
    exact hi
  refine ⟨⟨?_, ?_, ?_, ?_, ?_⟩, by omega, fun i hi => (hrange i hi).1⟩
  · rw [refsAll, number_refs, hplain]
    rfl
  · simp only [idsAll, List.append_nil, hids]
    exact List.nodup_range'
  · simpa [idsAll] using fun i hi => (hrange i hi).2
  · simp [seatedAll, number_seated t n hnew]
  · rw [everyAll, ← every_bare fits_bare, bare_number, every_bare fits_bare, hfits]
    rfl

end Tree

open Tree

/-! ## Visits -/

namespace Pass
variable {s m s' : Session} {t : Tree} {tag : Tag} {kind : Kind} {parts parts' ts : List Tree} {visited : Work (List Tree)}

structure Resembles (t u : Tree) : Prop where
  single : u.isBranch = false
  absent : t.isAbsent = true → u.isAbsent = true
  parameter : t.isParameter = true → u.isParameter = true
  parameters : t.isParameters = true → u.isParameters = true
  list : ∀ items, t = .seq items → ∃ items', u = .seq items' ∧ (items.all isParameter = true → items'.all isParameter = true)

theorem Resembles.of_node (hsingle : u.isBranch = false) (hkind : base kind = 3 ∨ kind.origin? ≠ none) :
    Resembles (.node tag kind parts) u where
  single := hsingle
  absent := nofun
  parameter := by cases kind <;> simp_all [isParameter, base, Kind.origin?]
  parameters := by cases kind <;> simp_all [isParameters, base, Kind.origin?]
  list := nofun

theorem Resembles.of_seq (h : items.all isParameter = true → items'.all isParameter = true) :
    Resembles (.seq items) (.seq items') where
  single := rfl
  absent := nofun
  parameter := nofun
  parameters := nofun
  list := by
    rintro items ⟨⟩
    exact ⟨items', rfl, h⟩

def fresh (s s' : Session) (i : Nat) : Nat := if s.store.next ≤ i ∧ i < s'.store.next then 1 else 0

structure Grows (t : Tree) (s : Session) (ts : List Tree) (s' : Session) : Prop where
  next : s.store.next ≤ s'.store.next
  count : ∀ i, (idsAll ts).count i ≤ (ids t).count i + fresh s s' i
  seated : seated t = true → seatedAll ts = true
  fits : every Tree.fits t = true → everyAll Tree.fits ts = true
  single : every Tree.fits t = true → t.isBranch = false → ∃ u, ts = [u] ∧ Resembles t u

theorem fresh_add (i : Nat) (h : s.store.next ≤ m.store.next) (h' : m.store.next ≤ s'.store.next) :
    fresh s m i + fresh m s' i ≤ fresh s s' i := by
  unfold fresh
  split_ifs <;> omega

structure PartsGrow (parts : List Tree) (s : Session) (parts' : List Tree) (s' : Session) : Prop where
  next : s.store.next ≤ s'.store.next
  count : ∀ i, (idsAll parts').count i ≤ (idsAll parts).count i + fresh s s' i
  seated : seatedAll parts = true → seatedAll parts' = true
  fits : everyAll Tree.fits parts = true → everyAll Tree.fits parts' = true

theorem PartsGrow.nil : PartsGrow [] s [] s := ⟨Nat.le_refl _, fun _ => Nat.le_add_right _ _, id, id⟩

theorem PartsGrow.trans {parts'' : List Tree} (h : PartsGrow parts s parts' m) (h' : PartsGrow parts' m parts'' s') :
    PartsGrow parts s parts'' s' where
  next := Nat.le_trans h.next h'.next
  count := by
    intro i
    have hfirst := h.count i
    have hthen := h'.count i
    have hfresh := fresh_add i h.next h'.next
    omega
  seated := fun hparts => h'.seated (h.seated hparts)
  fits := fun hparts => h'.fits (h.fits hparts)

theorem PartsGrow.within {r r' : Session} (h : PartsGrow parts m parts' r') (hnext : r.store.next ≤ m.store.next)
    (hnext' : r'.store.next ≤ s'.store.next) : PartsGrow parts r parts' s' :=
  { h with
    next := Nat.le_trans hnext (Nat.le_trans h.next hnext')
    count := by
      intro i
      have hcount := h.count i
      have hbefore := fresh_add i hnext h.next
      have hafter := fresh_add i (Nat.le_trans hnext h.next) hnext'
      omega }

theorem PartsGrow.append {us' : List Tree} (h : PartsGrow parts s parts' m) (h' : PartsGrow us m us' s') :
    PartsGrow (parts ++ us) s (parts' ++ us') s' where
  next := Nat.le_trans h.next h'.next
  count := by
    intro i
    have hfirst := h.count i
    have hthen := h'.count i
    have hfresh := fresh_add i h.next h'.next
    simp only [idsAll_append, List.count_append]
    omega
  seated := by
    simp only [seatedAll_append, Bool.and_eq_true]
    exact fun hall => ⟨h.seated hall.1, h'.seated hall.2⟩
  fits := by
    simp only [everyAll_append, Bool.and_eq_true]
    exact fun hall => ⟨h.fits hall.1, h'.fits hall.2⟩

theorem Grows.alone (h : Grows t s ts s') : PartsGrow [t] s ts s' where
  next := h.next
  count := by simpa [idsAll] using h.count
  seated := by simpa [seatedAll] using h.seated
  fits := by simpa [everyAll] using h.fits

theorem PartsGrow.cons {results : List Tree} (head : Grows t s results m) (tail : PartsGrow parts m parts' s') :
    PartsGrow (t :: parts) s (single results :: parts') s' where
  next := (head.alone.append tail).next
  count := by simpa [idsAll, ids_single, idsAll_append] using (head.alone.append tail).count
  seated := by simpa [seatedAll, seated_single, seatedAll_append] using (head.alone.append tail).seated
  fits := by simpa [everyAll, every_single, everyAll_append] using (head.alone.append tail).fits

theorem PartsGrow.seq (h : PartsGrow parts s parts' s') : PartsGrow [.seq parts] s [.seq parts'] s' where
  next := h.next
  count := by simpa [idsAll, ids] using h.count
  seated := by simpa [seatedAll, Tree.seated] using h.seated
  fits := by simpa [everyAll, every] using h.fits

theorem PartsTo.grow (h : PartsTo Grows parts s parts' s') : PartsGrow parts s parts' s' := by
  induction h with
  | nil => exact .nil
  | cons head _ ih => exact .cons head ih

theorem PartsTo.resemble (h : PartsTo Grows parts s parts' s') (hfits : everyAll Tree.fits parts = true)
    (hsingle : ∀ p ∈ parts, p.isBranch = false) : List.Forall₂ Resembles parts parts' := by
  induction h with
  | nil => exact .nil
  | @cons p ps results rest s m s' head tail ih =>
    simp only [everyAll, Bool.and_eq_true] at hfits
    obtain ⟨u, rfl, hu⟩ := head.single hfits.1 (hsingle p (by simp))
    exact .cons hu (ih hfits.2 fun q hq => hsingle q (by simp [hq]))

theorem grows_seq (h : PartsGrow items s items' s')
    (hparameters : everyAll Tree.fits items = true → items.all isParameter = true → items'.all isParameter = true) :
    Grows (.seq items) s [.seq items'] s' where
  next := h.next
  count := by simpa [idsAll, ids] using h.count
  seated := by simpa [seatedAll, Tree.seated] using h.seated
  fits := by simpa [everyAll, every] using h.fits
  single := fun hfits _ => ⟨_, rfl, .of_seq (hparameters hfits)⟩

theorem ItemsTo.grow (h : ItemsTo Grows items s items' s') : Grows (.seq items) s [.seq items'] s' := by
  suffices hall : PartsGrow items s items' s' ∧
      (everyAll Tree.fits items = true → items.all isParameter = true → items'.all isParameter = true) from grows_seq hall.1 hall.2
  induction h with
  | nil => exact ⟨.nil, fun _ => id⟩
  | cons head _ ih =>
    refine ⟨head.alone.append ih.1, ?_⟩
    simp only [everyAll, Bool.and_eq_true, List.all_cons, List.all_append]
    refine fun h hp => ⟨?_, ih.2 h.2 hp.2⟩
    -- a parameter gives way to one parameter
    obtain ⟨u, rfl, hu⟩ := head.single h.1 (isBranch_of_isParameter hp.1)
    simp [hu.parameter hp.1]

theorem grows_absent (s : Session) : Grows .absent s [.absent] s :=
  ⟨Nat.le_refl _, fun _ => Nat.le_add_right _ _, id, id, fun _ _ => ⟨_, rfl, rfl, id, id, id, nofun⟩⟩

theorem fits_of_resemble (h : List.Forall₂ Resembles parts parts') (hfits : Tree.fits kind parts = true) :
    Tree.fits kind parts' = true := by
  have hsingle : parts'.all (!·.isBranch) = true := by
    clear hfits
    induction h with
    | nil => rfl
    | cons hu _ ih => simp [hu.single, ih]
  have hshape : hasShape kind parts' = true := by
    cases kind with
    | functionDef name =>
      obtain ⟨_, _, _, _, rfl, hparameters⟩ := fits_functionDef hfits
      rcases h with _ | ⟨hparameters', _ | ⟨hbody, _ | ⟨_, _ | ⟨_, _ | _⟩⟩⟩⟩
      obtain ⟨body', rfl, _⟩ := hbody.list _ rfl
      exact hparameters'.parameters hparameters
    | classDef name =>
      obtain ⟨_, _, _, _, rfl⟩ := fits_classDef hfits
      rcases h with _ | ⟨_, _ | ⟨_, _ | ⟨hbody, _ | ⟨_, _ | _⟩⟩⟩⟩
      obtain ⟨body', rfl, _⟩ := hbody.list _ rfl
      rfl
    | arguments =>
      obtain ⟨_, plain, variadic, keywordOnly, _, _, _, rfl, hparameters⟩ := fits_arguments hfits
      rcases h with _ | ⟨_, _ | ⟨hplain, _ | ⟨hvariadic, _ | ⟨hkeywordOnly, _ | ⟨_, _ | ⟨_, _ | ⟨_, _ | _⟩⟩⟩⟩⟩⟩⟩
      obtain ⟨plain', rfl, hplain'⟩ := hplain.list _ rfl
      obtain ⟨keywordOnly', rfl, hkeywordOnly'⟩ := hkeywordOnly.list _ rfl
      simp only [Bool.and_eq_true, Bool.or_eq_true] at hparameters
      simp only [hasShape, hplain' hparameters.1.1, hkeywordOnly' hparameters.2, Bool.true_and, Bool.and_true, Bool.or_eq_true]
      exact hparameters.1.2.imp hvariadic.absent hvariadic.parameter
    | ifStmt =>
      obtain ⟨_, _, _, rfl⟩ := fits_ifStmt hfits
      rcases h with _ | ⟨_, _ | ⟨hbody, _ | ⟨hother, _ | _⟩⟩⟩
      obtain ⟨body', rfl, _⟩ := hbody.list _ rfl
      obtain ⟨other', rfl, _⟩ := hother.list _ rfl
      rfl
    | _ => rfl
  rw [Tree.fits, hsingle, hshape, Bool.and_self]

theorem resembles_node {tag' : Tag} (h : isBranch (.node tag kind parts) = false) :
    Resembles (.node tag kind parts) (.node tag' kind parts') where
  single := by cases kind <;> first | rfl | cases h
  absent := nofun
  parameter := by cases kind <;> simp [isParameter]
  parameters := by cases kind <;> simp [isParameters]
  list := nofun

theorem grows_node (h : PartsGrow parts s parts' s') (htest : Tree.fits kind parts = true → everyAll Tree.fits parts = true →
    Tree.fits kind parts' = true) : Grows (.node tag kind parts) s [.node tag kind parts'] s' where
  next := h.next
  count := by
    intro i
    have hcount := h.count i
    simp only [idsAll, ids, List.append_nil, List.count_cons]
    omega
  seated := by
    simp only [Tree.seated, seatedAll, Bool.and_eq_true, and_true]
    exact fun hnode => ⟨hnode.1, h.seated hnode.2⟩
  fits := by
    simp only [every, everyAll, Bool.and_eq_true, and_true]
    exact fun hnode => ⟨htest hnode.1 hnode.2, h.fits hnode.2⟩
  single := fun _ hsingle => ⟨_, rfl, resembles_node hsingle⟩

theorem PartsTo.fits (h : PartsTo Grows parts s parts' s') (hnode : Tree.fits kind parts = true)
    (hparts : everyAll Tree.fits parts = true) : Tree.fits kind parts' = true :=
  fits_of_resemble (h.resemble hparts fun _ => fits_branch hnode) hnode

theorem count_adopt (hplain : refs u = []) (hnew : Unnumbered [u]) (hfits : every Tree.fits u = true)
    (hstore : m.store = s.store) (i : Nat) :
    (ids (m.store.adopt u).1).count i ≤ fresh s { m with store := (m.store.adopt u).2 } i := by
  obtain ⟨hstanding, hle, hbelow⟩ := number_standing hplain hnew hfits m.store.next
  have hids : idsAll [(m.store.adopt u).1] = ids (m.store.adopt u).1 := List.append_nil _
  by_cases hi : i ∈ ids (m.store.adopt u).1
  · have hrange : s.store.next ≤ i ∧ i < (m.store.adopt u).2.next := ⟨hstore ▸ hbelow i hi, hstanding.below i (hids ▸ hi)⟩
    rw [fresh, if_pos hrange, ← hids]
    exact List.nodup_iff_count_le_one.mp hstanding.nodup i
  · rw [List.count_eq_zero.mpr hi]
    exact Nat.zero_le _

theorem grows_adopt (hplain : refs u = []) (hnew : Unnumbered [u]) (hfits : every Tree.fits u = true)
    (hsingle : u.isBranch = false) (hstore : m.store = s.store) (hkind : base kind = 3 ∨ kind.origin? ≠ none) :
    Grows (.node tag kind parts) s [(m.store.adopt u).1] { m with store := (m.store.adopt u).2 } := by
  obtain ⟨hstanding, hle, -⟩ := number_standing hplain hnew hfits m.store.next
  refine ⟨hstore ▸ hle, fun i => ?_, fun _ => hstanding.seated, fun _ => hstanding.fits,
    fun _ _ => ⟨_, rfl, .of_node ?_ hkind⟩⟩
  · have hcount := count_adopt hplain hnew hfits hstore i
    simp only [idsAll, List.append_nil]
    exact Nat.le_trans hcount (Nat.le_add_left _ _)
  · rw [Store.adopt_eq, isBranch_number, hsingle]

/-! ## Folding -/

namespace Fold

theorem every_fits_texts (args : List String) : everyAll Tree.fits (args.map text) = true := by
  induction args with
  | nil => rfl
  | cons arg args ih =>
    rw [List.map_cons, everyAll, ih]
    rfl

theorem every_fits_raising (e : Fault) : every Tree.fits (raisingFault e) = true := by
  simp [raisingFault, raising, callOf, emptyGenerator, noParameters, loadName, make, every, everyAll, Tree.fits, hasShape, isBranch,
    isAbsent, every_fits_texts]

theorem grows_failed {node : Tree} {e : Fault} (hkind : base kind = 3)
    (h : Failed node s e ts s') : Grows (.node tag kind parts) s ts s' := by
  obtain ⟨m, hflag, rfl, rfl⟩ := h
  have hstore : m.store = s.store := fixes_flag (fun _ _ _ => rfl) _ _ _ _ _ hflag
  exact grows_adopt (refs_raising e) (unnumbered_raising e) (every_fits_raising e) rfl hstore (.inl hkind)

theorem plainGrows : PlainSound (Both Sheds Grows) step := by
  refine plainSound.also ?_ (fun hto => ItemsTo.grow (hto.imp And.right)) grows_absent
  intro s s' tag kind parts visited ts hs hplain hvisited h _
  rcases step_results hplain h with ⟨_, hleave⟩ | hdecides | ⟨result, hoperation, hreplace⟩
  · obtain ⟨parts', rfl, _, hto⟩ := returns_descend_plain hs hvisited hleave
    have hto := hto.imp And.right
    exact grows_node hto.grow hto.fits
  · obtain ⟨test, rest, l, parts', m, hkind, rfl, hliteral, _, hvisit, rfl, rfl⟩ := hdecides
    obtain ⟨hm, hto⟩ := hvisited
      (m := { s with changed := true, store := (s.store.adopt (.constant (.bool l.value.truth))).2 })
      (hs.adopt (.constant (.bool l.value.truth))) hvisit
    rw [hm.keep]
    -- the truth value stands where the condition did, which was visited in vain
    cases hto with
    | @cons _ _ results rest' _ m' _ head tail =>
      have htail := tail.imp And.right
      obtain ⟨tag, parts, rfl⟩ := literal?_eq_some.mp hliteral
      have hhead : Grows (.node tag (.constant l) parts) s [(s.store.adopt (.constant (.bool l.value.truth))).1]
          { s with changed := true, store := (s.store.adopt (.constant (.bool l.value.truth))).2 } :=
        grows_adopt (m := { s with changed := true }) rfl (unnumbered_constant _) rfl rfl rfl (.inr (by simp [Kind.origin?]))
      refine grows_node (PartsGrow.cons hhead (htail.grow.within head.2.next (Nat.le_refl _))) fun hnode hparts => ?_
      rw [everyAll, Bool.and_eq_true] at hparts
      obtain ⟨u, hu, hresembles⟩ := hhead.single hparts.1 rfl
      obtain rfl : _ = u := List.singleton_inj.mp hu
      exact fits_of_resemble (.cons hresembles (htail.resemble hparts.2 fun p hp => fits_branch hnode (by simp [hp]))) hnode
  · have hkind : base kind = 3 := by cases hoperation <;> rfl
    rcases hreplace with ⟨v, _, rfl, rfl⟩ | ⟨e, _, hfailed⟩
    · exact grows_adopt (m := { s with changed := true }) rfl (unnumbered_constant v) rfl rfl rfl (.inl hkind)
    · exact grows_failed hkind hfailed

end Fold

/-! ## Branches -/

namespace DeadBranch

theorem plainGrows : PlainSound (Both Sheds Grows) step := by
  refine plainSound.also ?_ (fun hto => ItemsTo.grow (hto.imp And.right)) grows_absent
  intro s s' tag kind parts visited ts hs _ hvisited h _
  obtain ⟨parts', m, -, hto, hchoose⟩ := returns_step_plain hs hvisited h
  have hplain := (hto.imp And.left).shed.plain
  replace hto := hto.imp And.right
  have hgrow := hto.grow
  rcases choose_results hplain hchoose with ⟨_, rfl, rfl⟩ | ⟨htakes, rfl⟩
  · exact grows_node hgrow hto.fits
  have hcount (i : Nat) (us : List Tree) (hus : (idsAll us).count i ≤ (idsAll parts').count i) :
      (idsAll us).count i ≤ (ids (.node tag kind parts)).count i + fresh s { m with changed := true } i := by
    have hle := hgrow.count i
    simp only [ids, List.count_cons]
    exact Nat.le_trans (Nat.le_trans hus hle) (Nat.add_le_add_right (Nat.le_add_right _ _) _)
  have hseated (h : seated (.node tag kind parts) = true) : seatedAll parts' = true :=
    hgrow.seated (Bool.and_eq_true_iff.mp h).2
  have hfits (h : every Tree.fits (.node tag kind parts) = true) : everyAll Tree.fits parts' = true :=
    hgrow.fits (every_node.mp h).2
  refine ⟨hgrow.next, fun i => hcount i _ (htakes.sublist.1.count_le i), fun hall => ?_, fun hall => ?_, fun hall hbranch => ?_⟩
  · obtain rfl | ⟨p, hp, rfl | rfl⟩ := htakes.part
    · rfl
    · exact seatedAll_items (seated_of_mem (hseated hall) hp)
    · simp [seatedAll, seated_of_mem (hseated hall) hp]
  · obtain rfl | ⟨p, hp, rfl | rfl⟩ := htakes.part
    · rfl
    · exact everyAll_items (every_of_mem (hfits hall) hp)
    · simp [everyAll, every_of_mem (hfits hall) hp]
  · cases htakes with
    | choice _ =>
      obtain ⟨hnode, hparts⟩ := every_node.mp hall
      exact ⟨_, rfl, .of_node (fits_branch (hto.fits hnode hparts) (by split <;> simp)) (.inl rfl)⟩
    | _ => cases hbranch

end DeadBranch

/-! ## Documentation -/

namespace Documentation

theorem resembles_refl (h : t.isBranch = false) : Resembles t t := ⟨h, id, id, id, fun items heq => ⟨items, heq, id⟩⟩

theorem grows_refl (t : Tree) (s : Session) : Grows t s [t] s where
  next := Nat.le_refl _
  count := by simp [idsAll]
  seated := by simp [seatedAll]
  fits := by simp [everyAll]
  single := fun _ h => ⟨t, rfl, resembles_refl h⟩

theorem partsGrow_absent (t : Tree) (s : Session) : PartsGrow [t] s [.absent] s where
  next := Nat.le_refl _
  count := fun _ => Nat.zero_le _
  seated := fun _ => rfl
  fits := fun _ => rfl

theorem untyped_grows (t : Tree) (s : Session) : Grows t s [untyped t] s := by
  unfold untyped
  split
  next tag kind type =>
    refine grows_node (partsGrow_absent type s) fun hnode _ => ?_
    -- no node with one part has a shape of its own
    simp only [Tree.fits, Bool.and_eq_true] at hnode
    cases kind <;> first | rfl | cases hnode.2
  · exact grows_refl t s

theorem map_grows (ts : List Tree) (s : Session) : Grows (.seq ts) s [.seq (ts.map untyped)] s := by
  suffices hall : PartsGrow ts s (ts.map untyped) s ∧
      (everyAll Tree.fits ts = true → ts.all isParameter = true → (ts.map untyped).all isParameter = true) from
    grows_seq hall.1 hall.2
  induction ts with
  | nil => exact ⟨.nil, fun _ => id⟩
  | cons t ts ih =>
    refine ⟨.cons (untyped_grows t s) ih.1, ?_⟩
    simp only [everyAll, List.map_cons, List.all_cons, Bool.and_eq_true]
    refine fun hfits hp => ⟨?_, ih.2 hfits.2 hp.2⟩
    obtain ⟨u, ⟨⟩, hu⟩ := (untyped_grows t s).single hfits.1 (isBranch_of_isParameter hp.1)
    exact hu.parameter hp.1

theorem untypedParameters_grows (t : Tree) (s : Session) : Grows t s [untypedParameters t] s := by
  unfold untypedParameters
  split
  next positional plain variadic keywordOnly keywordDefaults keywordVariadic defaults =>
    have hto : PartsTo Grows
        [positional, .seq plain, variadic, .seq keywordOnly, keywordDefaults, keywordVariadic, defaults] s
        [positional, .seq (plain.map untyped), untyped variadic, .seq (keywordOnly.map untyped), keywordDefaults,
          keywordVariadic, defaults] s :=
      .cons (grows_refl _ s) (.cons (map_grows _ s) (.cons (untyped_grows _ s) (.cons (map_grows _ s) (.cons (grows_refl _ s)
        (.cons (grows_refl _ s) (.cons (grows_refl _ s) .nil))))))
    exact grows_node hto.grow hto.fits
  · exact grows_refl t s

theorem partsGrow_sublist (h : ts.Sublist parts) (s : Session) : PartsGrow parts s ts s := by
  induction h with
  | slnil => exact .nil
  | cons t _ ih =>
    refine ⟨Nat.le_refl _, fun i => ?_, fun h => ih.seated (Bool.and_eq_true_iff.mp h).2,
      fun h => ih.fits (Bool.and_eq_true_iff.mp h).2⟩
    have hcount := ih.count i
    simp only [idsAll, List.count_append]
    omega
  | cons_cons t _ ih => exact .cons (grows_refl t s) ih

theorem refilled_grows (s m : Session) (body : List Tree) :
    PartsGrow [.seq body] s [.seq (refilled s.store body).1] { m with store := (refilled s.store body).2 } := by
  unfold refilled
  cases h : body.filter (!isMereText ·) with
  | nil =>
    have hnew : Unnumbered [.pass] := by simp [Unnumbered, Tree.pass, make, idsAll, ids, originsAll, origins, Kind.origin?]
    refine ⟨Store.next_le_adopt hnew, fun i => ?_, fun _ => rfl, fun _ => rfl⟩
    have hcount := count_adopt (s := s) (m := { m with store := s.store }) (u := .pass) rfl hnew rfl rfl i
    exact Nat.le_trans hcount (Nat.le_add_left _ _)
  | cons t ts =>
    have hgrow := partsGrow_sublist (h ▸ List.filter_sublist : (t :: ts).Sublist body) s
    exact hgrow.seq.within (Nat.le_refl _) (Nat.le_refl _)

theorem stripped_grows (s m : Session) (kind : Kind) (parts : List Tree) :
    PartsGrow parts s (stripped s.store kind parts).1 { m with store := (stripped s.store kind parts).2 } ∧
      (Tree.fits kind parts = true → everyAll Tree.fits parts = true → Tree.fits kind (stripped s.store kind parts).1 = true) := by
  unfold stripped
  split
  next name parameters body decorators result =>
    have hparameters := untypedParameters_grows parameters s
    refine ⟨.cons hparameters ((refilled_grows s m body).append (.cons (grows_refl decorators _) (partsGrow_absent result _))), ?_⟩
    intro hfits hall
    have hsingle : ∀ p ∈ [parameters, .seq body, decorators, result], p.isBranch = false := fun p => fits_branch hfits
    obtain ⟨u, ⟨⟩, hu⟩ := hparameters.single (every_of_mem hall (by simp)) (hsingle parameters (by simp))
    simp only [Tree.fits, Bool.and_eq_true] at hfits
    simp [Tree.fits, hasShape, hu.single, hu.parameters hfits.2, isBranch_seq,
      show isBranch .absent = false from rfl, hsingle decorators (by simp)]
  next name bases keywords body decorators =>
    refine ⟨.cons (grows_refl bases s) (.cons (grows_refl keywords s) ((refilled_grows s m body).append
      (.cons (grows_refl decorators _) .nil))), ?_⟩
    intro hfits _
    have hsingle : ∀ p ∈ [bases, keywords, .seq body, decorators], p.isBranch = false := fun p => fits_branch hfits
    simp [Tree.fits, hasShape, isBranch_seq, hsingle bases (by simp), hsingle keywords (by simp), hsingle decorators (by simp)]
  next body => exact ⟨refilled_grows s m body, fun _ _ => by simp [Tree.fits, hasShape, isBranch]⟩
  · exact ⟨(partsGrow_sublist (List.Sublist.refl _) s).within (Nat.le_refl _) (Nat.le_refl _), fun hfits _ => hfits⟩

theorem plainGrows : PlainSound (Both Sheds Grows) step := by
  refine plainSound.also ?_ (fun hto => ItemsTo.grow (hto.imp And.right)) grows_absent
  intro s s' tag kind parts visited ts hs _ hvisited h _
  obtain ⟨parts', m, -, hto, -, rfl, rfl⟩ := returns_step_plain hs hvisited (fun hto => (hto.imp And.left).shed.plain) h
  obtain ⟨hgrow, hfits⟩ := stripped_grows m (told m (!calm kind parts')) kind parts'
  replace hto := hto.imp And.right
  exact grows_node (hto.grow.trans hgrow) fun hnode hparts => hfits (hto.fits hnode hparts) (hto.grow.fits hparts)

end Documentation

theorem Grows.standing (h : Grows t s ts s') (hplain : refsAll ts = []) (ht : Standing s.store.next [t]) :
    Standing s'.store.next ts := by
  have hids : idsAll [t] = ids t := List.append_nil _
  -- an identity is an old one, and then not new, or a new one, and then not old
  have hcount (i : Nat) : (idsAll ts).count i ≤ 1 ∧ (0 < (idsAll ts).count i → i < s'.store.next) := by
    have hle := h.count i
    have hnext := h.next
    by_cases hi : i ∈ ids t
    · have hlt := ht.below i (hids ▸ hi)
      have hone := List.nodup_iff_count_le_one.mp ht.nodup i
      rw [hids] at hone
      unfold fresh at hle
      split at hle <;> omega
    · rw [List.count_eq_zero.mpr hi] at hle
      unfold fresh at hle
      split at hle <;> omega
  exact ⟨hplain, List.nodup_iff_count_le_one.mpr fun i => (hcount i).1, fun i hi => (hcount i).2 (List.count_pos_iff.mpr hi),
    h.seated (by simpa [seatedAll] using ht.seated), h.fits (by simpa [everyAll] using ht.fits)⟩

theorem Grows.mem_ids (h : Grows t s ts s') {i : Nat} (hi : i ∈ idsAll ts) :
    i ∈ ids t ∨ s.store.next ≤ i ∧ i < s'.store.next := by
  by_contra hnone
  obtain ⟨hold, hnew⟩ := not_or.mp hnone
  have hle := h.count i
  rw [List.count_eq_zero.mpr hold, fresh, if_neg hnew] at hle
  have hpos := List.count_pos_iff.mpr hi
  omega

end Pass

/-! ## Workers -/

namespace Tree

theorem isBranch_lined (t : Tree) (line : Nat) : (lined line t).isBranch = t.isBranch := by
  rw [← isBranch_bare, bare_lined, isBranch_bare]

mutual

theorem ids_lined : (t : Tree) → (line : Nat) → ids (lined line t) = ids t
  | .node tag kind parts, line => by
    simp only [lined, ids, idsAll_lined parts]
    split <;> rfl
  | .seq items, line => idsAll_lined items line
  | .absent, _ => rfl
  | .shared _, _ => rfl

theorem idsAll_lined : (ts : List Tree) → (line : Nat) → idsAll (linedAll line ts) = idsAll ts
  | [], _ => rfl
  | t :: ts, line => by simp only [linedAll, idsAll, ids_lined t, idsAll_lined ts]

end

mutual

theorem seated_lined : (t : Tree) → (line : Nat) → seated (lined line t) = seated t
  | .node tag kind parts, line => by
    simp only [lined, seated, seatedAll_lined parts]
    split <;> rfl
  | .seq items, line => seatedAll_lined items line
  | .absent, _ => rfl
  | .shared _, _ => rfl

theorem seatedAll_lined : (ts : List Tree) → (line : Nat) → seatedAll (linedAll line ts) = seatedAll ts
  | [], _ => rfl
  | t :: ts, line => by simp only [linedAll, seatedAll, seated_lined t, seatedAll_lined ts]

end

theorem Standing.lined (h : Standing n [t]) (line : Nat) : Standing n [t.lined line] := by
  obtain ⟨hplain, hnodup, hbelow, hseated, hfits⟩ := h
  have hall : everyAll Tree.fits [t.lined line] = true := by simpa [everyAll, every_lined fits_bare] using hfits
  rw [← idsAll_lined [t] line] at hnodup hbelow
  rw [← seatedAll_lined [t] line] at hseated
  rw [← refsAll_lined [t] line] at hplain
  exact ⟨hplain, hnodup, hbelow, hseated, hall⟩

theorem Standing.single (h : Standing n ts) : Standing n [Pass.single ts] := by
  obtain ⟨hplain, hnodup, hbelow, hseated, hfits⟩ := h
  constructor
  · simp [refsAll, refs_single hplain]
  · simpa [idsAll, ids_single] using hnodup
  · simpa [idsAll, ids_single] using hbelow
  · simpa [seatedAll, seated_single] using hseated
  · simpa [everyAll, every_single] using hfits

end Tree

namespace Worker
variable {w w' : Worker} {s s' : Session} {t t' : Tree} {step : Pass.Step Work}

theorem plainGrows_of_step (hstep : w.step? = some step) : Pass.PlainSound (Pass.Both Pass.Sheds Pass.Grows) step := by
  rcases step_iff.mp hstep with ⟨_, rfl⟩ | ⟨_, rfl⟩ | ⟨_, rfl⟩
  · exact Pass.Fold.plainGrows
  · exact Pass.DeadBranch.plainGrows
  · exact Pass.Documentation.plainGrows

/-- A worker keeps a tree standing; the identities that it adds are new. -/
theorem run_standing (hstep : w.step? = some step) (hs : s.store.Empty) (ht : Standing s.store.next [t])
    (h : Returns (w.run t) s (t', w') s') :
    Standing s'.store.next [t'] ∧ s.store.next ≤ s'.store.next ∧
      (t.isBranch = false → t'.isBranch = false) ∧ ∀ i ∈ ids t', i ∈ ids t ∨ s.store.next ≤ i ∧ i < s'.store.next := by
  obtain ⟨u, m, hrun, hlocate, rfl⟩ := (returns_run (pass_of_step hstep)).mp h
  have hplain : refs t = [] := refs_of_mem ht.plain (by simp)
  obtain ⟨_, ts, rfl, hsheds, hgrows⟩ :=
    Pass.run_plain (s := { s with changed := false, notices := w.notices }) (plainGrows_of_step hstep) hplain hs hrun
  obtain ⟨rfl, rfl⟩ := (returns_locate (refs_single hsheds.plain)).mp hlocate
  refine ⟨(hgrows.standing hsheds.plain ht).single.lined 1, hgrows.next, fun hsingle => ?_, fun i hi => ?_⟩
  · obtain ⟨u, rfl, hu⟩ := hgrows.single (by simpa [everyAll] using ht.fits) hsingle
    rw [isBranch_lined]
    exact hu.single
  · rw [ids_lined, ids_single] at hi
    exact hgrows.mem_ids hi

end Worker
end SourceOptimizer
