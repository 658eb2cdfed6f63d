import SourceOptimizer.Proofs.PlainVisits

/-! What is left of a node without its documentation. As long as nothing is shared this is a function of its parts, and
whether a change is reported can be told from them. -/
namespace SourceOptimizer
open Tree Work

variable {f : List Tree → Work (List Tree)}

namespace Tree

def untyped : Tree → Tree
  | .node tag kind [_] => .node tag kind [.absent]
  | t => t

def untypedParameters : Tree → Tree
  | .node tag kind [positional, .seq plain, variadic, .seq keywordOnly, keywordDefaults, keywordVariadic, defaults] =>
    .node tag kind [positional, .seq (plain.map untyped), untyped variadic, .seq (keywordOnly.map untyped), keywordDefaults,
      keywordVariadic, defaults]
  | t => t

end Tree

namespace Pass.Documentation

variable {s m s' : Session} {t u : Tree} {ts body parts parts' : List Tree} {tag : Tag} {kind : Kind}

/-! ## What is left alone -/

def typeless : Tree → Bool
  | .node _ _ [type] => type.isAbsent
  | _ => true

/-- Parameters that are left. The one for keywords is looked at when there is one for positions, which must be there. -/
def calmParameters : Tree → Bool
  | .node _ _ [_, .seq plain, variadic, .seq keywordOnly, _, keywordVariadic, _] =>
    plain.all typeless && keywordOnly.all typeless && typeless variadic &&
      (keywordVariadic.isAbsent || !variadic.isAbsent)
  | _ => true

def isMereText : Tree → Bool
  | .node _ .exprStmt [v] =>
    match v.literal? with
    | some { value := .str _, .. } => true
    | _ => false
  | _ => false

def calmBody (body : List Tree) : Bool := !body.isEmpty && !body.any isMereText

def calm : Kind → List Tree → Bool
  | .functionDef _, [parameters, .seq body, _, result] => calmParameters parameters && result.isAbsent && calmBody body
  | .classDef _, [_, _, .seq body, _] => calmBody body
  | .moduleDef, [.seq body] => calmBody body
  | _, _ => true

/-! ## What is left over -/

/-- A body without its mere texts, or with one statement if there is no other, and the store afterwards. -/
def refilled (r : Store) (body : List Tree) : List Tree × Store :=
  match body.filter (!isMereText ·) with
  | [] => ([(r.adopt .pass).1], (r.adopt .pass).2)
  | t :: ts => (t :: ts, r)

def stripped (r : Store) : Kind → List Tree → List Tree × Store
  | .functionDef _, [parameters, .seq body, decorators, _] =>
    ([untypedParameters parameters, .seq (refilled r body).1, decorators, .absent], (refilled r body).2)
  | .classDef _, [bases, keywords, .seq body, decorators] =>
    ([bases, keywords, .seq (refilled r body).1, decorators], (refilled r body).2)
  | .moduleDef, [.seq body] => ([.seq (refilled r body).1], (refilled r body).2)
  | _, parts => (parts, r)

def told (s : Session) (change : Bool) : Session := { s with changed := s.changed || change }

@[simp] theorem told_false (s : Session) : told s false = s := by simp [told]

@[simp] theorem told_true (s : Session) : told s true = { s with changed := true } := by simp [told]

@[simp] theorem told_told (s : Session) (c d : Bool) : told (told s c) d = told s (c || d) := by simp [told, Bool.or_assoc]

theorem returns_revise {c : Prop} (hm : m.store.Empty)
    (h : ∀ {ps r}, Returns (f parts) s ps r ↔ c ∧ parts' = ps ∧ m = r) :
    Returns (revise (.node tag kind parts) f) s u s' ↔ c ∧ .node tag kind parts' = u ∧ m = s' := by
  have hkeep : Returns (keep (.node tag kind parts')) m ⟨⟩ m := returns_keep.mpr (by rw [hm.keep])
  refine (returns_bind_iff h).trans (and_congr_right fun _ => ?_)
  rw [returns_bind_of hkeep]
  exact returns_pure

theorem revise_returns (hm : m.store.Empty) (h : Returns (f parts) s parts' m) :
    Returns (revise (.node tag kind parts) f) s (.node tag kind parts') m :=
  (returns_revise (c := True) hm ((returns_eq h).trans (iff_of_eq (true_and _)).symm)).mpr ⟨trivial, rfl, rfl⟩

theorem stripParameter_returns (hs : s.store.Empty) (ht : refs t = []) :
    Returns (stripParameter t) s (untyped t) (told s !(typeless t)) := by
  cases t with
  | node tag kind parts =>
    rcases parts with _ | ⟨type, _ | ⟨_, _⟩⟩
    · exact revise_returns hs ((told_false s).symm ▸ rfl)
    · cases type with
      | absent => exact revise_returns hs ((told_false s).symm ▸ rfl)
      | _ => exact revise_returns hs ((told_true s).symm ▸ rfl)
    · exact revise_returns hs ((told_false s).symm ▸ rfl)
  | shared id => cases ht
  | _ => exact (told_false s).symm ▸ rfl

theorem mapM_returns (hs : s.store.Empty) (hts : refsAll ts = []) :
    Returns (ts.mapM stripParameter) s (ts.map untyped) (told s !(ts.all typeless)) := by
  induction ts generalizing s with
  | nil => exact (told_false s).symm ▸ rfl
  | cons t ts ih =>
    simp only [refsAll, List.append_eq_nil_iff] at hts
    have hrest := ih (s := told s !(typeless t)) hs hts.2
    rw [told_told, ← Bool.not_and] at hrest
    rw [List.mapM_cons, returns_bind_of (stripParameter_returns hs hts.1), returns_bind_of hrest]
    rfl

theorem stripVariadic_returns (hs : s.store.Empty) (ht : refs t = []) :
    Returns (stripVariadic t) s (untyped t) (told s !(typeless t)) := by
  cases t with
  | absent => exact (told_false s).symm ▸ rfl
  | _ => exact stripParameter_returns hs ht

/-- The parameter for keywords is never changed: the one for positions has lost its type before. -/
theorem returns_stripKeywordVariadic {v : Tree} (hv : refs v = []) (htypeless : typeless v = true) :
    Returns (stripKeywordVariadic v t) s u s' ↔ (t.isAbsent || !v.isAbsent) = true ∧ t = u ∧ s = s' := by
  have htype : Returns (hasType v) s false s := by
    rw [hasType, returns_bind_of (returns_look.mpr ⟨Store.Empty.look hv, rfl⟩)]
    split
    next type => rw [show type.isAbsent = true from htypeless]; rfl
    · rfl
  unfold stripKeywordVariadic
  split
  next h => simp [h, returns_pure]
  next h =>
    split
    next h' => simp [h, h', returns_throw]
    next h' => simp [h, h', returns_bind_of htype, returns_pure]

theorem typeless_untyped (t : Tree) : typeless (untyped t) = true := by
  unfold untyped
  split
  · rfl
  next h =>
    unfold typeless
    split
    · exact (h _ _ _ rfl).elim
    · rfl

theorem refs_untyped (ht : refs t = []) : refs (untyped t) = [] := by
  unfold untyped
  split
  · rfl
  · exact ht

def accepted : Tree → Bool
  | .node _ _ [_, .seq _, variadic, .seq _, _, keywordVariadic, _] => keywordVariadic.isAbsent || !variadic.isAbsent
  | _ => true

theorem isAbsent_untyped (t : Tree) : (untyped t).isAbsent = t.isAbsent := by
  unfold untyped
  split <;> rfl

def acceptedParts : Kind → List Tree → Bool
  | .functionDef _, [parameters, .seq _, _, _] => accepted parameters
  | _, _ => true

theorem parameters_cases (t : Tree) :
    (∃ tag kind positional plain variadic keywordOnly keywordDefaults keywordVariadic defaults,
      t = .node tag kind [positional, .seq plain, variadic, .seq keywordOnly, keywordDefaults, keywordVariadic, defaults]) ∨
    accepted t = true ∧ calmParameters t = true ∧ untypedParameters t = t ∧
      ∀ s : Session, refs t = [] → s.store.Empty → Returns (stripParameters t) s t s := by
  by_cases h : ∃ tag kind positional plain variadic keywordOnly keywordDefaults keywordVariadic defaults,
      t = .node tag kind [positional, .seq plain, variadic, .seq keywordOnly, keywordDefaults, keywordVariadic, defaults]
  · exact .inl h
  simp only [not_exists] at h
  refine .inr ⟨?_, ?_, ?_, fun s ht hs => ?_⟩
  · unfold accepted
    split
    · exact (h _ _ _ _ _ _ _ _ _ rfl).elim
    · rfl
  · unfold calmParameters
    split
    · exact (h _ _ _ _ _ _ _ _ _ rfl).elim
    · rfl
  · unfold untypedParameters
    split
    · exact (h _ _ _ _ _ _ _ _ _ rfl).elim
    · rfl
  · cases t with
    | node tag kind parts =>
      refine revise_returns hs ?_
      split
      · exact (h _ _ _ _ _ _ _ _ _ rfl).elim
      · rfl
    | shared id => cases ht
    | _ => rfl

theorem returns_stripParameters (hs : s.store.Empty) (ht : refs t = []) :
    Returns (stripParameters t) s u s' ↔
      accepted t = true ∧ untypedParameters t = u ∧ told s (!calmParameters t) = s' := by
  obtain ⟨tag, kind, positional, plain, variadic, keywordOnly, keywordDefaults, keywordVariadic, defaults, rfl⟩ |
    ⟨haccepted, hcalm, huntyped, hrest⟩ := parameters_cases t
  · simp only [refs, refsAll, List.append_eq_nil_iff] at ht
    refine returns_revise hs fun {ps r} => ?_
    rw [returns_bind_of (mapM_returns hs ht.2.1), returns_bind_of (mapM_returns (s := told s _) hs ht.2.2.2.1),
      returns_bind_of (stripVariadic_returns (s := told (told s _) _) hs ht.2.2.1),
      returns_bind_iff (returns_stripKeywordVariadic (refs_untyped ht.2.2.1) (typeless_untyped _)), returns_pure]
    simp only [isAbsent_untyped, told_told, ← Bool.not_and, accepted, calmParameters]
    exact and_congr_right fun haccepted => by rw [haccepted, Bool.and_true]
  · rw [returns_eq (hrest s ht hs), haccepted, hcalm, huntyped, Bool.not_true, told_false, eq_self, true_and]

theorem isText_returns (ht : refs t = []) : Returns (isText t) s (isMereText t) s := by
  rw [isText, returns_bind_of (returns_look.mpr ⟨Store.Empty.look ht, rfl⟩)]
  split
  next tag v =>
    rw [returns_bind_of (returns_literal.mpr ⟨congrArg _ (Store.Empty.look (by simpa [refs, refsAll] using ht)), rfl⟩), isMereText]
    rcases v.literal? with _ | ⟨value, _, _⟩
    · rfl
    · cases value <;> rfl
  next h =>
    unfold isMereText
    split
    · exact (h _ _ rfl).elim
    · rfl

theorem stripBody_returns (hplain : refsAll body = []) :
    Returns (stripBody body) s (body.filter (!isMereText ·)) (told s (body.any isMereText)) := by
  induction body generalizing s with
  | nil => exact (told_false s).symm ▸ rfl
  | cons t ts ih =>
    simp only [refsAll, List.append_eq_nil_iff] at hplain
    rw [stripBody, returns_bind_of (isText_returns hplain.1)]
    cases ht : isMereText t with
    | true =>
      refine returns_modify_bind.mpr ?_
      have hrest := ih (s := told s true) hplain.2
      rw [told_told, Bool.true_or, told_true] at hrest
      simpa [ht] using hrest
    | false => simpa [ht] using returns_bind_pure.mpr ⟨_, ih hplain.2, rfl⟩

theorem documentedBody_returns (hplain : refsAll body = []) :
    Returns (documentedBody body) s (.seq (refilled s.store body).1)
      { told s (!calmBody body) with store := (refilled s.store body).2 } := by
  rw [documentedBody, returns_bind_of (stripBody_returns hplain), refilled]
  cases h : body.filter (!isMereText ·) with
  | nil =>
    have hcalm : calmBody body = false := by
      cases body with
      | nil => rfl
      | cons t ts =>
        simp only [List.filter_eq_nil_iff] at h
        simp_all [calmBody]
    rw [hcalm, Bool.not_false, told_true]
    rfl
  | cons t ts =>
    have hne : body.isEmpty = false := by cases body <;> simp at h ⊢
    rw [calmBody, hne, Bool.not_false, Bool.true_and, Bool.not_not]
    rfl

theorem dropResult_returns (t : Tree) : Returns (dropResult t) s .absent (told s !(t.isAbsent)) := by
  cases t with
  | absent => exact (told_false s).symm ▸ rfl
  | _ => exact (told_true s).symm ▸ rfl

/-! ## What is left alone stays -/

theorem untyped_typeless (h : typeless t = true) : untyped t = t := by
  cases t with
  | node tag kind parts =>
    rcases parts with _ | ⟨type, _ | ⟨_, _⟩⟩
    · rfl
    · cases type with
      | absent => rfl
      | _ => cases h
    · rfl
  | _ => rfl

theorem map_untyped (h : ts.all typeless = true) : ts.map untyped = ts := by
  simp only [List.all_eq_true] at h
  exact (List.map_congr_left fun t ht => untyped_typeless (h t ht)).trans (List.map_id ts)

theorem untypedParameters_calm (h : calmParameters t = true) : untypedParameters t = t := by
  unfold untypedParameters
  split
  · simp only [calmParameters, Bool.and_eq_true] at h
    rw [map_untyped h.1.1.1, map_untyped h.1.1.2, untyped_typeless h.1.2]
  · rfl

theorem accepted_of_calm (h : calmParameters t = true) : accepted t = true := by
  unfold accepted
  split
  · simp only [calmParameters, Bool.and_eq_true] at h
    exact h.2
  · rfl

theorem acceptedParts_of_calm (h : calm kind parts = true) : acceptedParts kind parts = true := by
  unfold acceptedParts
  split
  next parameters body decorators result =>
    simp only [calm, Bool.and_eq_true] at h
    exact accepted_of_calm h.1.1
  · rfl

theorem filter_calm (h : calmBody body = true) : body.filter (!isMereText ·) = body ∧ body ≠ [] := by
  simp only [calmBody, Bool.and_eq_true, Bool.not_eq_true', List.any_eq_false, List.isEmpty_eq_false_iff] at h
  exact ⟨List.filter_eq_self.mpr fun t ht => by simp [h.2 t ht], h.1⟩

theorem refilled_calm (r : Store) (h : calmBody body = true) : refilled r body = (body, r) := by
  obtain ⟨hfilter, hne⟩ := filter_calm h
  rw [refilled, hfilter]
  cases body with
  | nil => exact absurd rfl hne
  | cons t ts => rfl

theorem stripped_calm (r : Store) (h : calm kind parts = true) : stripped r kind parts = (parts, r) := by
  unfold stripped
  split
  next parameters body decorators result =>
    simp only [calm, Bool.and_eq_true] at h
    rw [untypedParameters_calm h.1.1, refilled_calm r h.2]
    cases result with
    | absent => rfl
    | _ => cases h.1.2
  · rw [refilled_calm r h]
  · rw [refilled_calm r h]
  · rfl

theorem calm_of_other (hfunction : ∀ name parameters body decorators result, kind = .functionDef name →
      parts = [parameters, .seq body, decorators, result] → False)
    (hclass : ∀ name bases keywords body decorators, kind = .classDef name →
      parts = [bases, keywords, .seq body, decorators] → False)
    (hmodule : ∀ body, kind = .moduleDef → parts = [.seq body] → False) : calm kind parts = true := by
  unfold calm
  split
  · exact (hfunction _ _ _ _ _ rfl rfl).elim
  · exact (hclass _ _ _ _ _ rfl rfl).elim
  · exact (hmodule _ rfl rfl).elim
  · rfl

theorem returns_strip (hs : s.store.Empty) (hplain : refsAll parts = []) :
    Returns (strip kind parts) s parts' s' ↔
      acceptedParts kind parts = true ∧ (stripped s.store kind parts).1 = parts' ∧
        { told s (!calm kind parts) with store := (stripped s.store kind parts).2 } = s' := by
  unfold strip
  split
  next name parameters body decorators result =>
    simp only [refsAll, refs, List.append_eq_nil_iff] at hplain
    rw [returns_bind_iff (returns_stripParameters hs hplain.1), returns_bind_of (dropResult_returns result),
      returns_bind_of (documentedBody_returns hplain.2.1), returns_pure]
    simp only [told_told, ← Bool.not_and]
    rfl
  next name bases keywords body decorators =>
    simp only [refsAll, refs, List.append_eq_nil_iff] at hplain
    rw [returns_bind_of (documentedBody_returns hplain.2.2.1), returns_pure]
    simp [acceptedParts, stripped, calm]
  next body =>
    rw [returns_bind_of (documentedBody_returns (by simpa [refsAll, refs] using hplain)), returns_pure]
    simp [acceptedParts, stripped, calm]
  next hfunction hclass hmodule =>
    have hcalm := calm_of_other hfunction hclass hmodule
    rw [returns_pure, acceptedParts_of_calm hcalm, hcalm, stripped_calm _ hcalm, Bool.not_true, told_false, eq_self, true_and]

theorem empty_stripped {r : Store} (hr : r.Empty) (kind : Kind) (parts : List Tree) : (stripped r kind parts).2.Empty := by
  have hbody (body : List Tree) : (refilled r body).2.Empty := by
    unfold refilled
    split
    · exact hr.adopt .pass
    · exact hr
  unfold stripped
  split
  · exact hbody _
  · exact hbody _
  · exact hbody _
  · exact hr

theorem returns_step_plain {R : Outcome} {visited : Work (List Tree)} (hs : s.store.Empty) (hvisited : PlainlyVisits R parts visited)
    (hplain : ∀ {parts' m}, PartsTo R parts s parts' m → refsAll parts' = []) (h : Returns (step tag kind parts visited) s ts s') :
    ∃ parts' m, m.store.Empty ∧ PartsTo R parts s parts' m ∧ acceptedParts kind parts' = true ∧
      ts = [.node tag kind (stripped m.store kind parts').1] ∧
      s' = { told m (!calm kind parts') with store := (stripped m.store kind parts').2 } := by
  obtain ⟨parts'', m', hinside, rfl, rfl⟩ := returns_descend.mp h
  obtain ⟨parts', m, hvisit, hstrip⟩ := returns_bind.mp hinside
  obtain ⟨hm, hto⟩ := hvisited hs hvisit
  obtain ⟨haccepted, rfl, rfl⟩ := (returns_strip hm (hplain hto)).mp hstrip
  exact ⟨parts', m, hm, hto, haccepted, rfl, by rw [Store.Empty.keep (empty_stripped hm kind parts')]⟩

/-! ## Nothing more is to be removed -/

theorem calmParameters_untyped (h : accepted t = true) : calmParameters (untypedParameters t) = true := by
  obtain ⟨tag, kind, positional, plain, variadic, keywordOnly, keywordDefaults, keywordVariadic, defaults, rfl⟩ |
    ⟨-, hcalm, huntyped, -⟩ := parameters_cases t
  · simpa [accepted, untypedParameters, calmParameters, typeless_untyped, isAbsent_untyped] using h
  · rw [huntyped, hcalm]

theorem calmBody_refilled (r : Store) (body : List Tree) : calmBody (refilled r body).1 = true := by
  unfold refilled
  split
  · rfl
  next t ts hfilter =>
    have hkept (u : Tree) (hu : u ∈ t :: ts) : isMereText u = false := by
      rw [← hfilter] at hu
      simpa using (List.mem_filter.mp hu).2
    simpa [calmBody] using hkept

theorem calm_stripped (r : Store) (h : acceptedParts kind parts = true) : calm kind (stripped r kind parts).1 = true := by
  unfold stripped
  split
  · rw [calm, calmParameters_untyped h, calmBody_refilled]
    rfl
  · exact calmBody_refilled r _
  · exact calmBody_refilled r _
  next hfunction hclass hmodule => exact calm_of_other hfunction hclass hmodule

/-- A test that parameters pass without types if they pass it with them. -/
structure Untypes (test : Kind → List Tree → Bool) : Prop where
  parameter : ∀ {kind type}, test kind [type] = true → test kind [.absent] = true
  parameters : ∀ {kind a plain b keywordOnly c d e}, test kind [a, .seq plain, b, .seq keywordOnly, c, d, e] = true →
    test kind [a, .seq (plain.map untyped), untyped b, .seq (keywordOnly.map untyped), c, d, e] = true

namespace Untypes
variable {test : Kind → List Tree → Bool} (htest : Untypes test)
include htest

theorem every_untyped (h : every test t = true) : every test (untyped t) = true := by
  unfold untyped
  split
  · exact every_node.mpr ⟨htest.parameter (every_node.mp h).1, rfl⟩
  · exact h

theorem everyAll_untyped (h : everyAll test ts = true) : everyAll test (ts.map untyped) = true := by
  rw [everyAll_eq_true] at h ⊢
  intro u hu
  obtain ⟨t, ht, rfl⟩ := List.mem_map.mp hu
  exact htest.every_untyped (h t ht)

theorem every_untypedParameters (h : every test t = true) : every test (untypedParameters t) = true := by
  unfold untypedParameters
  split
  · obtain ⟨hnode, hparts⟩ := every_node.mp h
    refine every_node.mpr ⟨htest.parameters hnode, ?_⟩
    simp only [everyAll, every, Bool.and_eq_true] at hparts ⊢
    obtain ⟨hpositional, hplain, hvariadic, hkeywordOnly, hkept⟩ := hparts
    exact ⟨hpositional, htest.everyAll_untyped hplain, htest.every_untyped hvariadic, htest.everyAll_untyped hkeywordOnly, hkept⟩
  · exact h

end Untypes

theorem untypes_calm : Untypes calm where
  parameter _ := calm_of_other (by simp) (by simp) (by simp)
  parameters _ := calm_of_other (by simp) (by simp) (by simp)

theorem everyAll_refilled (r : Store) (h : everyAll calm body = true) : everyAll calm (refilled r body).1 = true := by
  unfold refilled
  split
  · rfl
  next hfilter =>
    rw [← hfilter, everyAll_eq_true]
    exact fun u hu => every_of_mem h (List.mem_of_mem_filter hu)

theorem everyAll_stripped (r : Store) (h : everyAll calm parts = true) : everyAll calm (stripped r kind parts).1 = true := by
  unfold stripped
  split
  · simp only [everyAll, every, Bool.and_eq_true] at h ⊢
    exact ⟨untypes_calm.every_untypedParameters h.1, everyAll_refilled r h.2.1, h.2.2.1, trivial, trivial⟩
  · simp only [everyAll, every, Bool.and_eq_true] at h ⊢
    exact ⟨h.1, h.2.1, everyAll_refilled r h.2.2.1, h.2.2.2⟩
  · simp only [everyAll, every, Bool.and_eq_true] at h ⊢
    exact ⟨everyAll_refilled r h.1, trivial⟩
  · exact h

end Pass.Documentation
end SourceOptimizer
