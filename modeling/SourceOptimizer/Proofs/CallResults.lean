import SourceOptimizer.Proofs.BuiltinResults
import SourceOptimizer.Proofs.Readback
import SourceOptimizer.Proofs.Returns

/-! The expression that a call is replaced by comes to the result of the call. A result is written out and read
back; doubles of the constructor of doubles are constants, or one of the two nodes that a session remembers. -/
namespace SourceOptimizer

variable {function : String}

variable {t : Tree} {v w : Value} {text name : String} {s s' : Session} {slot : Option Nat} {x : Float}
  {put : Session → Nat → Session}

/-! ## Texts that are read back -/

namespace Store

mutual

theorem le_number : (t : Tree) → (n : Nat) → n ≤ (t.number n).2
  | .node tag _ parts, n => by
    have hfirst : n ≤ if tag.id == 0 then n + 1 else n := by
      split <;> omega
    exact hfirst.trans (leAll_number parts _)
  | .seq items, n => leAll_number items n
  | .absent, n => Nat.le_refl n
  | .shared _, n => Nat.le_refl n

theorem leAll_number : (ts : List Tree) → (n : Nat) → n ≤ (Tree.numberAll n ts).2
  | [], n => Nat.le_refl n
  | t :: ts, n => (le_number t n).trans (leAll_number ts _)

end

end Store

namespace Grammar
open SourceOptimizer.Tree (refs evaluateWith bare)

theorem Denotes.number (h : Denotes v t) (n : Nat) :
    refs (t.number n).1 = [] ∧ ∃ w, evaluateWith builtinValue? (t.number n).1 = .ok w ∧ w.unsigned = v.unsigned := by
  obtain ⟨w, hw, hsame⟩ := h.value
  refine ⟨by rw [Tree.number_refs, h.plain], w, ?_, hsame⟩
  rw [← Tree.evaluateWith_bare, Tree.bare_number, Tree.evaluateWith_bare, hw]

theorem parseSource_repr (hp : v.proper = true) (hf : v.finite = true)
    (ht : v.repr = .ok text) (hparse : Tree.parseSource text.toList = .ok t) :
    ∃ l u rest, Denotes v u ∧ t = .node {} .moduleDef [.seq (node l .exprStmt [u] :: rest)] := by
  have hread := rereads_value v hp hf
  obtain ⟨st, hst, hafter⟩ := follows_scan hp ht
  have hend : ∀ r, st = some r → Ends [] r := by
    intro r hr
    obtain ⟨k, l, ts', rfl, hk⟩ := hafter r hr
    refine ⟨_, _, rfl, ?_⟩
    rcases hk with rfl | ⟨cause, rfl⟩ <;> trivial
  have hsequence (depth : Nat) : Reads (rulesWithin depth .sequence) v.lexemes (Denotes v) [] :=
    @reads_within _ _ _ .sequence
      (fun depth => reads_sequence hread.opens ((hread.expression depth).mono (by simp))) depth
  obtain ⟨r, hprogram⟩ : ∃ r, program (rulesWithin (4 * text.toList.length + 16)) (Token.scanFrom 1 text.toList) = .ok (t, r) := by
    simp only [Tree.parseSource, StateT.run', Functor.map, Except.map] at hparse
    split at hparse
    · cases hparse
    · rename_i p hp
      cases hparse
      exact ⟨p.2, hp⟩
  exact program_ok hread.opens (hsequence _) hst hend hprogram

end Grammar

/-! ## What an expression comes to -/

namespace Pass.PureCall
open Grammar Work
open SourceOptimizer.Tree (refs evaluateWith)

def mathNumber? : String → Option Float
  | "inf" => some Number.infinity
  | "nan" => some Number.notANumber
  | _ => none

def importsMath : Tree → Bool
  | .node _ .call [.node _ (.name "__import__" _) _, .seq [.node _ (.constant l) _], .seq []] =>
    match l.value with
    | .str s => s == Text.ofString "math"
    | _ => false
  | _ => false

/-- The value of an expression where nothing but the predefined names is known. -/
def meaning : Tree → Except Fault Value
  | .node _ (.attr name _) [object] =>
    match importsMath object, mathNumber? name with
    | true, some x => .ok (.float x)
    | _, _ => .error .unknown
  | t => evaluateWith builtinValue? t

theorem meaning_of_evaluate (h : evaluateWith builtinValue? t = .ok w) : meaning t = .ok w := by
  rw [meaning]
  · exact h
  · rintro tag name ctx object rfl
    cases h

def numberTree (name : String) : Tree :=
  node 1 (.attr name .load) [node 1 .call [nameNode 1 "__import__", .seq [constantNode 1 (Value.text "math")], .seq []]]

set_option maxRecDepth 20000 in
theorem parseSource_number (h : name ∈ ["inf", "nan"]) :
    Tree.parseSource ("__import__('math')." ++ name).toList =
      .ok (.node {} .moduleDef [.seq [node 1 .exprStmt [numberTree name]]]) := by
  simp only [List.mem_cons, List.not_mem_nil, or_false] at h
  rcases h with rfl | rfl
  · rfl
  · rfl

def StandsFor (s : Session) (slot : Option Nat) (x : Float) : Prop :=
  ∀ id, slot = some id → ∃ u, Reads .itself s.store.view [.shared id] [u] ∧ meaning u = .ok (.float x)

/-- The nodes that a session remembers stand for the numbers that are not finite. -/
structure Remembers (s : Session) : Prop where
  sound : s.store.Sound
  infinity : StandsFor s s.infinity Number.infinity
  notANumber : StandsFor s s.notANumber Number.notANumber

theorem StandsFor.mono (h : StandsFor s slot x)
    (hview : ∀ id t, s.store.view id = some t → s'.store.view id = some t) : StandsFor s' slot x := by
  intro id hid
  obtain ⟨u, hu, hx⟩ := h id hid
  exact ⟨u, hu.mono hview, hx⟩

theorem returns_parse {source : String} (h : Returns (Work.parse source) s t s') :
    ∃ u, Tree.parseSource source.toList = .ok u ∧ t = (s.store.adopt u).1 ∧
      s' = { s with store := (s.store.adopt u).2 } := by
  have hrest := returns_get_bind.mp h
  unfold Tree.parse at hrest
  generalize Tree.parseSource source.toList = parsed at hrest ⊢
  cases parsed with
  | error cause => exact absurd hrest returns_throw
  | ok u =>
    obtain ⟨_, _, hset, hpure⟩ := returns_bind.mp hrest
    cases hset
    cases hpure
    exact ⟨u, rfl, rfl, rfl⟩

theorem adopt_program (s : Store) (l : Nat) (u : Tree) (rest : List Tree) :
    (s.adopt (.node {} .moduleDef [.seq (node l .exprStmt [u] :: rest)])).1 =
      .node { id := s.next } .moduleDef [.seq (.node { id := s.next + 1, line := some l } .exprStmt
        [(u.number (s.next + 2)).1] :: (Tree.numberAll (u.number (s.next + 2)).2 rest).1)] := rfl

theorem meaning_numberTree (hx : mathNumber? name = some x) (n : Nat) :
    meaning ((numberTree name).number n).1 = .ok (.float x) := by
  simp [numberTree, node, nameNode, constantNode, Tree.number, Tree.numberAll, meaning, importsMath, hx, Value.text]

theorem remember_stands (hname : name ∈ ["inf", "nan"]) (hx : mathNumber? name = some x) (hs : s.store.Sound)
    (hr : Returns (infinite.remember name put) s t s') :
    ∃ store id, t = .shared id ∧ s' = put { s with store } id ∧ store.Sound ∧
      (∀ id t, s.store.view id = some t → store.view id = some t) ∧
      ∃ u, Reads .itself store.view [.shared id] [u] ∧ meaning u = .ok (.float x) := by
  obtain ⟨_, m, hparse, hrest⟩ := returns_bind.mp hr
  obtain ⟨u, hu, rfl, rfl⟩ := returns_parse hparse
  rw [parseSource_number hname] at hu
  cases hu
  have hnew : Tree.Unnumbered [.node {} .moduleDef [.seq [node 1 .exprStmt [numberTree name]]]] := by
    constructor <;> simp [Tree.idsAll, Tree.ids, Tree.originsAll, Tree.origins, node, numberTree, nameNode, constantNode,
      Kind.origin?]
  have hplaces := Store.adopt_places hs hnew
  have hsound := hs.grow (Store.next_le_adopt hnew)
  rw [adopt_program] at hrest hplaces
  -- the value stands by itself beside the new store
  have hvalue := (Store.places_node.mp (Store.places_seq.mp (Store.places_node.mp hplaces).1)).1
  have hmeaning := meaning_numberTree hx (s.store.next + 2)
  have hrefs : refs ((numberTree name).number (s.store.next + 2)).1 = [] := by
    rfl
  obtain ⟨tag, kind, parts, hnode⟩ : ∃ tag kind parts,
      ((numberTree name).number (s.store.next + 2)).1 = .node tag kind parts := ⟨_, _, _, rfl⟩
  rw [hnode] at hrest hvalue hmeaning hrefs
  obtain ⟨t', m, hshare, hrest⟩ := returns_bind.mp hrest
  cases hshare
  obtain ⟨_, hput, rfl⟩ := returns_bind_pure.mp hrest
  cases hput
  obtain ⟨hshares, hvalues⟩ := Store.share_shares _ hsound _ hvalue
  refine ⟨_, tag.id, rfl, rfl, hshares.sound, fun id t hview => hshares.kept hview, _, ?_, hmeaning⟩
  have hreads := hvalues .itself [] _ (by simp) (Store.reads_itself hrefs _)
  rwa [View.hide_nil] at hreads

theorem recall_stands (hname : name ∈ ["inf", "nan"]) (hx : mathNumber? name = some x) (hs : Remembers s)
    (hslot : StandsFor s slot x) (hstore : ∀ store id, (put { s with store } id).store = store)
    (hput : ∀ (store : Store) id, store.Sound → (∀ id t, s.store.view id = some t → store.view id = some t) →
      StandsFor { s with store } (some id) x → Remembers (put { s with store } id))
    (hr : Returns (match slot with | some id => pure (.shared id) | none => infinite.remember name put) s t s') :
    Remembers s' ∧ meaning (s'.store.expand t) = .ok (.float x) := by
  cases slot with
  | some id =>
    cases hr
    obtain ⟨u, hu, hmeaning⟩ := hslot id rfl
    exact ⟨hs, by rw [Store.expand_eq_of_reads hu, hmeaning]⟩
  | none =>
    obtain ⟨store, id, rfl, rfl, hsound, hkept, u, hu, hmeaning⟩ := remember_stands hname hx hs.sound hr
    refine ⟨hput store id hsound hkept ?_, by rw [hstore, Store.expand_eq_of_reads hu, hmeaning]⟩
    rintro _ ⟨⟩
    exact ⟨u, hu, hmeaning⟩

theorem infinite_stands (hs : Remembers s) (hr : Returns infinite s t s') :
    Remembers s' ∧ meaning (s'.store.expand t) = .ok (.float Number.infinity) :=
  recall_stands (by simp) rfl hs hs.infinity (fun _ _ => rfl)
    (fun _ _ hsound hkept hnew => ⟨hsound, hnew, hs.notANumber.mono hkept⟩) (returns_get_bind.mp hr)

theorem undefined_stands (hs : Remembers s) (hr : Returns undefined s t s') :
    Remembers s' ∧ meaning (s'.store.expand t) = .ok (.float Number.notANumber) :=
  recall_stands (by simp) rfl hs hs.notANumber (fun _ _ => rfl)
    (fun _ _ hsound hkept hnew => ⟨hsound, hs.infinity.mono hkept, hnew⟩) (returns_get_bind.mp hr)

/-! ## Results -/

theorem Remembers.grow (hs : Remembers s) {n : Nat} (hn : s.store.next ≤ n) :
    Remembers { s with store := { s.store with next := n } } :=
  ⟨hs.sound.grow hn, hs.infinity.mono fun _ _ => id, hs.notANumber.mono fun _ _ => id⟩

theorem meaning_of_plain {s : Store} (hrefs : refs t = [])
    (h : evaluateWith builtinValue? t = .ok w) : meaning (s.expand t) = .ok w := by
  rw [Store.expand_eq_of_reads (Store.reads_itself hrefs _), meaning_of_evaluate h]

theorem readBack_denotes (hp : v.proper = true) (hf : v.finite = true)
    (ht : v.repr = .ok text) (hs : Remembers s) (hr : Returns (readBack text) s (some t) s') :
    Remembers s' ∧ ∃ w, meaning (s'.store.expand t) = .ok w ∧ w.unsigned = v.unsigned := by
  have hrest := returns_get_bind.mp hr
  unfold Tree.parse at hrest
  cases hparse : Tree.parseSource text.toList with
  | error cause =>
    rw [hparse] at hrest
    cases (returns_pure.mp hrest).1
  | ok program =>
    obtain ⟨l, u, rest, hu, rfl⟩ := parseSource_repr hp hf ht hparse
    obtain ⟨hrefs, w, hw, hsame⟩ := hu.number (s.store.next + 2)
    have hnext := Store.le_number (.node {} .moduleDef [.seq (node l .exprStmt [u] :: rest)]) s.store.next
    rw [hparse] at hrest
    obtain ⟨_, _, hset, hpure⟩ := returns_bind.mp hrest
    cases hset
    obtain ⟨heq, rfl⟩ := returns_pure.mp hpure
    cases heq
    exact ⟨hs.grow hnext, w, meaning_of_plain hrefs hw, hsame⟩

theorem toString_ofString (t : String) : Text.toString? (Text.ofString t) = some t := by
  have hplain : (Text.ofString t).any Text.isSurrogate = false := by
    rw [List.any_eq_false]
    intro c hc
    obtain ⟨d, -, rfl⟩ := List.mem_map.mp hc
    have hvalid : d.toNat < 0xd800 ∨ 0xdfff < d.toNat ∧ d.toNat < 0x110000 := d.valid
    simp only [Text.isSurrogate, Bool.and_eq_true, decide_eq_true_eq]
    omega
  have hmap : (Text.ofString t).map Char.ofNat = t.toList := by
    simp [Text.ofString, Function.comp_def]
  rw [Text.toString?, hplain, hmap]
  simp

def Alike (v w : Value) : Prop :=
  v.typeName = w.typeName ∧ (Value.equal v w = true ∨
    ∃ x y, v = .float x ∧ w = .float y ∧ Number.isNaN x = true ∧ Number.isNaN y = true)

/-- Results that have an expression: all but texts and numbers that are not finite; of these, the constructor of
doubles can give the positive infinity and what is no number. -/
def Expressible (function : String) (v : Value) : Prop :=
  ((∀ s, v ≠ .str s) ∧ v.finite = true) ∨
    function = "float" ∧ ∃ x, v = .float x ∧ (Number.isInf x = true → Number.isNegative x = false)

theorem alike_of_unsigned (h : w.unsigned = v.unsigned) (hv : v.finite = true) : Alike w v :=
  (Value.equal_of_unsigned h hv).imp_right .inl

theorem eq_infinity (hx : Number.isInf x = true) (hs : Number.isNegative x = false) : x = Number.infinity := by
  refine Number.ext_sign (hs.trans rfl) ?_
  rw [(Number.isInf_iff x).mp hx]
  rfl

theorem express_float (hx : Number.isInf x = true → Number.isNegative x = false)
    (hs : Remembers s) (hr : Returns (express "float" (.float x)) s (some t) s') :
    Remembers s' ∧ ∃ w, meaning (s'.store.expand t) = .ok w ∧ Alike w (.float x) := by
  rw [express] at hr
  split at hr
  · rename_i hinf
    obtain ⟨u, hu, ⟨⟩⟩ := returns_bind_pure.mp hr
    obtain ⟨hm, hmeaning⟩ := infinite_stands hs hu
    refine ⟨hm, _, hmeaning, rfl, .inl ?_⟩
    rw [eq_infinity hinf (hx hinf)]
    decide +kernel
  · split at hr
    · rename_i hnan
      obtain ⟨u, hu, ⟨⟩⟩ := returns_bind_pure.mp hr
      obtain ⟨hm, hmeaning⟩ := undefined_stands hs hu
      exact ⟨hm, _, hmeaning, rfl, .inr ⟨_, _, rfl, rfl, by decide +kernel, hnan⟩⟩
    · rename_i hinf hnan
      obtain ⟨u, hu, ⟨⟩⟩ := returns_bind_pure.mp hr
      obtain ⟨rfl, rfl⟩ := returns_adopt.mp hu
      have hfinite : (Value.float x).finite = true :=
        isFinite_of_not (Bool.eq_false_iff.mpr hnan) (Bool.eq_false_iff.mpr hinf)
      have hnext := Store.le_number (.constant (.float x)) s.store.next
      refine ⟨hs.grow hnext, .float x, meaning_of_plain ?_ ?_, alike_of_unsigned rfl hfinite⟩
      · rw [Store.adopt_eq, Tree.number_refs]
        rfl
      · rfl

theorem toText_eq (hv : ∀ s, v ≠ .str s) {text : Text} (h : v.toText = .ok text) :
    ∃ t, v.repr = .ok t ∧ text = Text.ofString t := by
  rw [Value.toText] at h
  · obtain ⟨t, ht, heq⟩ := bind_eq_ok.mp h
    exact ⟨t, ht, (Except.ok.inj heq).symm⟩
  · exact hv

theorem express_text (hp : v.proper = true) (hv : ∀ s, v ≠ .str s)
    (hf : v.finite = true) (hfunction : ∀ x, function = "float" → v ≠ .float x)
    (hs : Remembers s) (hr : Returns (express function v) s (some t) s') :
    Remembers s' ∧ ∃ w, meaning (s'.store.expand t) = .ok w ∧ Alike w v := by
  rw [express] at hr
  · cases htext : v.toText with
    | error e =>
      rw [htext] at hr
      cases (returns_pure.mp hr).1
    | ok text =>
      obtain ⟨u, hu, rfl⟩ := toText_eq hv htext
      rw [htext] at hr
      dsimp only at hr
      rw [toString_ofString] at hr
      obtain ⟨hm, w, hw, hsame⟩ := readBack_denotes hp hf hu hs hr
      exact ⟨hm, w, hw, alike_of_unsigned hsame hf⟩
  · exact hfunction

/-- The expression that a call of a function without effect is replaced by comes to its result, a value of the same
type that is equal to it, whatever values the function was called with; texts and some numbers that are not finite
are no such results. -/
theorem call_denotes_result {function : String} {args : List Value} {kws : Builtin.Keywords} {v : Value}
    (hargs : ∀ a ∈ args, a.proper = true) (hkws : ∀ p ∈ kws, p.2.proper = true)
    (hv : Builtin.call? noInvoke function args kws = some (.ok v)) (hexpressible : Expressible function v)
    {s s' : Session} {t : Tree} (hs : Remembers s) (hr : Returns (call function args kws) s (some t) s') :
    Remembers s' ∧ ∃ w, meaning (s'.store.expand t) = .ok w ∧ Alike w v := by
  rw [call, hv] at hr
  by_cases hfloat : function = "float" ∧ ∃ x, v = .float x
  · obtain ⟨rfl, x, rfl⟩ := hfloat
    refine express_float ?_ hs hr
    intro hinf
    rcases hexpressible with ⟨-, hfinite⟩ | ⟨-, y, heq, hsign⟩
    · rw [Value.finite, Number.isFinite_iff, (Number.isInf_iff x).mp hinf] at hfinite
      exact absurd hfinite (Nat.lt_irrefl _)
    · cases heq
      exact hsign hinf
  · have hnot (x : Float) (hf : function = "float") : v ≠ .float x := fun heq => hfloat ⟨hf, x, heq⟩
    rcases hexpressible with ⟨htext, hfinite⟩ | ⟨hf, x, heq, -⟩
    · have hproper : v.proper = true :=
        (Builtin.proper_call hargs hkws hv).resolve_right (by rintro ⟨s, heq⟩; exact htext s heq)
      exact express_text hproper htext hfinite hnot hs hr
    · exact absurd heq (hnot x hf)

theorem Remembers.empty : Remembers {} := ⟨Store.Sound.empty, fun _ h => (by cases h), fun _ h => (by cases h)⟩

def mixed : List Value :=
  [.int (-3), .complex 1.5 (-2.0), .bytes [0, 39], .list [.setOf [.bool true, .none], .frozen []],
    .dict [(.tuple [.int 7], .text "it's")]]

theorem call_mixed_gives : (match (outcome (call "list" [.tuple mixed] []) {}).1 with
    | .ok (some _) => true
    | _ => false) = true := by decide +kernel

theorem call_denotes_result_mixed : ∃ t s', Returns (call "list" [.tuple mixed] []) {} (some t) s' ∧
    Remembers s' ∧ ∃ w, meaning (s'.store.expand t) = .ok w ∧ Alike w (.list mixed) := by
  have hrun := call_mixed_gives
  split at hrun
  · rename_i t ht
    have hreturns := returns_of_ok ht
    have hproper : (Value.tuple mixed).proper = true := by decide +kernel
    have hfinite : (Value.list mixed).finite = true := by decide +kernel
    exact ⟨t, _, hreturns, call_denotes_result (by simpa using hproper) (by simp) rfl (.inl ⟨by simp, hfinite⟩)
      .empty hreturns⟩
  · cases hrun

theorem call_text_gives : (match outcome (call "str" [.text "a"] []) {} with
    | (.ok (some t), s') =>
      match meaning (s'.store.expand t) with
      | .ok _ => false
      | .error _ => true
    | _ => false) = true := by decide +kernel

/-- The text of one letter is replaced by a name that means nothing. -/
theorem text_result_strays : Builtin.call? noInvoke "str" [.text "a"] [] = some (.ok (.text "a")) ∧
    ∃ t s', Returns (call "str" [.text "a"] []) {} (some t) s' ∧ ∀ w, meaning (s'.store.expand t) ≠ .ok w := by
  have hrun := call_text_gives
  refine ⟨rfl, ?_⟩
  split at hrun
  · rename_i t s' hr
    refine ⟨t, s', hr, fun w hw => ?_⟩
    rw [hw] at hrun
    cases hrun
  · cases hrun

end Pass.PureCall
end SourceOptimizer
