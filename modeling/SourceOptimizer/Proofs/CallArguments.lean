import SourceOptimizer.Proofs.PlainVisits

/-! What a call is evaluated on. A run passes the values of the arguments, one by one and by name; the pass hands
over the constants that the arguments consist of. The two agree where no argument is a display. -/
namespace SourceOptimizer

variable {visited : Work (List Tree)}

variable {test : Kind → List Tree → Bool} {v : Value} {named : Builtin.Keywords} {function : String} {tag : Tag}
  {values : List Value} {arg : Tree}

def Kind.takesStarred : Kind → Bool
  | .call | .list _ | .tuple _ | .setDisplay | .classDef _ | .exprStmt | .returnStmt | .yield | .assign | .augAssign _
  | .annAssign _ | .forStmt | .asyncFor | .comprehension _ | .withItem | .arg _ | .formattedValue _ => true
  | _ => false

namespace Tree

/-! ## What a run passes

A run knows the values of names. -/

section
variable (names : String → Option Value)

def positionals : List Tree → Except Fault (List Value)
  | [] => .ok []
  | .node _ (.starred _) [t] :: ts => do
    let items ← Value.items (← evaluateWith names t)
    return items ++ (← positionals ts)
  | t :: ts => do
    let v ← evaluateWith names t
    return v :: (← positionals ts)

def entryName : Value → Except Fault String
  | .str s =>
    match Text.toString? s with
    | some name => .ok name
    | none => .error .unknown
  | _ => .error (.type .keywordsNotText)

def entries : Tree → Except Fault Builtin.Keywords
  | .node _ (.keyword (some name)) [t] => do return [(name, ← evaluateWith names t)]
  | .node _ (.keyword none) [t] => do
    match ← evaluateWith names t with
    | .dict kvs => kvs.mapM fun (k, v) => do return (← entryName k, v)
    | _ => .error .unknown
  | _ => .error .unknown

def entriesAll : List Tree → Except Fault Builtin.Keywords
  | [] => .ok []
  | t :: ts => do
    let own ← entries names t
    return own ++ (← entriesAll ts)

def nameds (ts : List Tree) : Except Fault Builtin.Keywords := do
  let kws ← entriesAll names ts
  if (kws.map (·.1)).Nodup then return kws else .error .unknown

end

/-! ## Displays and constants -/

def isDisplay : Tree → Bool
  | .node _ (.list _) _ | .node _ (.tuple _) _ | .node _ .setDisplay _ => true
  | _ => false

def isStarred : Tree → Bool
  | .node _ (.starred _) _ => true
  | _ => false

def starless (t : Tree) : Bool := !(isStarred t || t.items.any isStarred)

def starsPlaced (kind : Kind) (parts : List Tree) : Bool := kind.takesStarred || parts.all starless

def simple : Kind → List Tree → Bool
  | .constant l, _ => !l.value.isContainer
  | _, _ => true

theorem isStarred_bare (t : Tree) : isStarred (bare t) = isStarred t := by
  cases t with
  | node tag kind parts => cases kind <;> rfl
  | _ => rfl

theorem starless_bare (t : Tree) : starless (bare t) = starless t := by
  have hitems : (bare t).items.any isStarred = t.items.any isStarred := by
    cases t with
    | seq items => simp [bare, Tree.items, bareAll_eq_map, Function.comp_def, isStarred_bare]
    | _ => rfl
  rw [starless, starless, isStarred_bare, hitems]

theorem starsPlaced_bare (kind : Kind) (parts : List Tree) :
    starsPlaced kind.bare (bareAll parts) = starsPlaced kind parts := by
  have hkind : kind.bare.takesStarred = kind.takesStarred := by cases kind <;> rfl
  simp [starsPlaced, hkind, bareAll_eq_map, Function.comp_def, starless_bare]

theorem resolveAll_eq_map (again : Nat → Tree) (ts : List Tree) : Store.resolveAll again ts = ts.map (Store.resolve again) := by
  induction ts with
  | nil => rfl
  | cons t ts ih => rw [Store.resolveAll, ih, List.map_cons]

theorem expand_node (s : Store) (tag : Tag) (kind : Kind) (parts : List Tree) :
    s.expand (.node tag kind parts) = .node tag kind (parts.map s.expand) := by
  rw [Store.expand, Store.expandWithin, Store.resolve, resolveAll_eq_map]
  rfl

theorem expand_seq (s : Store) (items : List Tree) : s.expand (.seq items) = .seq (items.map s.expand) := by
  rw [Store.expand, Store.expandWithin, Store.resolve, resolveAll_eq_map]
  rfl

end Tree

namespace Pass.PureCall
open Tree Work
variable {t : Tree} {ts : List Tree} {ls : List Literal} {names : String → Option Value}

theorem constantsAll_cons :
    constantsAll (t :: ts) = .ok (some ls) ↔
      ∃ own rest, constants t = .ok (some own) ∧ constantsAll ts = .ok (some rest) ∧ ls = own ++ rest := by
  rw [constantsAll, bind_eq_ok]
  constructor
  · rintro ⟨own, hown, h⟩
    match own, h with
    | some own, h =>
      obtain ⟨rest, hrest, h⟩ := bind_eq_ok.mp h
      match rest, h with
      | some rest, h =>
        simp only [Except.ok.injEq, Option.some.injEq] at h
        exact ⟨own, rest, hown, hrest, h.symm⟩
  · rintro ⟨own, rest, hown, hrest, rfl⟩
    exact ⟨some own, hown, bind_eq_ok.mpr ⟨some rest, hrest, rfl⟩⟩

theorem constants_cases (h : constants t = .ok (some ls)) :
    (∃ tag l parts, t = .node tag (.constant l) parts ∧ ls = [l]) ∨ t.isDisplay = true := by
  unfold constants at h
  split at h
  · exact .inr rfl
  · exact .inr rfl
  · exact .inr rfl
  · cases h
  · simp only [Except.ok.injEq, Option.some.injEq] at h
    exact .inl ⟨_, _, _, rfl, h.symm⟩
  · cases h

mutual

theorem simple_constants : (t : Tree) → every simple t = true → ∀ {ls}, constants t = .ok (some ls) →
    ∀ l ∈ ls, l.value.isContainer = false
  | t, hall, ls, h => by
    unfold constants at h
    split at h
    · exact simple_constantItems _ (by simpa [every, everyAll, simple] using hall) h
    · exact simple_constantItems _ (by simpa [every, everyAll, simple] using hall) h
    · exact simple_constantItems _ (by simpa [every, everyAll, simple] using hall) h
    · cases h
    · simp only [Except.ok.injEq, Option.some.injEq] at h
      subst h
      simp only [every, simple, Bool.and_eq_true, Bool.not_eq_true'] at hall
      simpa using hall.1
    · cases h

theorem simple_constantItems : (t : Tree) → every simple t = true → ∀ {ls}, constantItems t = .ok (some ls) →
    ∀ l ∈ ls, l.value.isContainer = false
  | .seq items, hall, _, h => simple_constantsAll items hall h
  | .node _ _ _, _, _, h | .absent, _, _, h | .shared _, _, _, h => by
    cases h
    simp

theorem simple_constantsAll : (ts : List Tree) → everyAll simple ts = true → ∀ {ls}, constantsAll ts = .ok (some ls) →
    ∀ l ∈ ls, l.value.isContainer = false
  | [], _, _, h => by
    cases h
    simp
  | t :: ts, hall, _, h => by
    simp only [everyAll, Bool.and_eq_true] at hall
    obtain ⟨own, rest, hown, hrest, rfl⟩ := constantsAll_cons.mp h
    intro l hl
    obtain hl | hl := List.mem_append.mp hl
    · exact simple_constants t hall.1 hown l hl
    · exact simple_constantsAll ts hall.2 hrest l hl

end

theorem display_cases (ht : t.isDisplay = true) (h : evaluateWith names t = .ok v) :
    ∃ xs, v = .list xs ∨ v = .tuple xs ∨ v = .setOf xs := by
  unfold isDisplay at ht
  split at ht
  case h_4 => cases ht
  all_goals
    unfold evaluateWith at h
    split at h <;> try contradiction
  · obtain ⟨xs, _, hxs⟩ := bind_eq_ok.mp h
    cases hxs
    exact ⟨xs, .inl rfl⟩
  · obtain ⟨xs, _, hxs⟩ := bind_eq_ok.mp h
    cases hxs
    exact ⟨xs, .inr (.inl rfl)⟩
  · obtain ⟨_, _, h⟩ := bind_eq_ok.mp h
    obtain ⟨xs, _, hxs⟩ := bind_eq_ok.mp h
    cases hxs
    exact ⟨xs, .inr (.inr rfl)⟩

theorem not_display (h : evaluateWith names t = .ok v) (hv : v.isContainer = false) : t.isDisplay = false := by
  rw [Bool.eq_false_iff]
  intro hdisplay
  obtain ⟨xs, rfl | rfl | rfl⟩ := display_cases hdisplay h <;> cases hv

/-! ## Arguments by position -/

theorem positionals_cons (ht : ∀ tag ctx u, t ≠ .node tag (.starred ctx) [u]) :
    positionals names (t :: ts) = (do
      let v ← evaluateWith names t
      return v :: (← positionals names ts)) := by
  rw [positionals]
  exact ht

theorem not_starred (h : constants t = .ok (some ls)) : ∀ tag ctx u, t ≠ .node tag (.starred ctx) [u] := by
  rintro tag ctx u rfl
  cases h

theorem positionals_constants (h : constantsAll ts = .ok (some ls)) (hts : ∀ t ∈ ts, t.isDisplay = false) :
    positionals names ts = .ok (ls.map (·.value)) := by
  induction ts generalizing ls with
  | nil =>
    cases h
    rfl
  | cons t ts ih =>
    obtain ⟨own, rest, hown, hrest, rfl⟩ := constantsAll_cons.mp h
    rw [positionals_cons (not_starred hown), ih hrest fun t ht => hts t (.tail _ ht)]
    obtain ⟨tag, l, parts, rfl, rfl⟩ | hdisplay := constants_cases hown
    · rfl
    · simp [hts t (.head _)] at hdisplay

theorem not_display_of_positionals {vs : List Value} (h : constantsAll ts = .ok (some ls)) (hvs : positionals names ts = .ok vs)
    (hsimple : ∀ v ∈ vs, v.isContainer = false) : ∀ t ∈ ts, t.isDisplay = false := by
  induction ts generalizing ls vs with
  | nil => simp
  | cons t ts ih =>
    obtain ⟨own, rest, hown, hrest, rfl⟩ := constantsAll_cons.mp h
    rw [positionals_cons (not_starred hown)] at hvs
    obtain ⟨v, hv, hrun⟩ := bind_eq_ok.mp hvs
    obtain ⟨others, hothers, hcons⟩ := bind_eq_ok.mp hrun
    cases hcons
    intro u hu
    obtain rfl | hu := List.mem_cons.mp hu
    · exact not_display hv (hsimple v (.head _))
    · exact ih hrest hothers (fun w hw => hsimple w (.tail _ hw)) u hu

/-! ## Arguments by name -/

variable {labels : List (Option String)} {kws : List (Option String × Value)}

def note (acc : List (Option String × Value)) (e : Option String × Value) : List (Option String × Value) :=
  if acc.any (·.1 == e.1) then acc.map fun f => if f.1 == e.1 then e else f else acc ++ [e]

theorem keywordValues_eq :
    keywordValues labels values = .ok kws ↔ values.length ≤ labels.length ∧ (labels.zip values).foldl note [] = kws := by
  unfold keywordValues
  split
  · simp; omega
  · simp only [Except.ok.injEq]
    exact ⟨fun h => ⟨by omega, h⟩, And.right⟩

theorem foldl_note_values (acc : List (Option String × Value)) (es : List (Option String × Value)) :
    ∀ e ∈ es.foldl note acc, e.2 ∈ (acc ++ es).map (·.2) := by
  induction es generalizing acc with
  | nil =>
    intro e he
    exact List.mem_map_of_mem (by simpa using he)
  | cons e es ih =>
    intro f hf
    have hmem := ih (note acc e) f hf
    simp only [List.map_append, List.map_cons, List.mem_append, List.mem_cons] at hmem ⊢
    obtain hmem | hmem := hmem
    · unfold note at hmem
      split at hmem
      · simp only [List.map_map, List.mem_map, Function.comp] at hmem
        obtain ⟨g, hg, heq⟩ := hmem
        split at heq
        · exact .inr (.inl heq.symm)
        · exact .inl (heq ▸ List.mem_map_of_mem hg)
      · simp only [List.map_append, List.mem_append, List.map_cons, List.map_nil, List.mem_singleton] at hmem
        exact hmem.imp id .inl
    · exact .inr (.inr hmem)

theorem foldl_note_nodup (acc es : List (Option String × Value)) (h : ((acc ++ es).map (·.1)).Nodup) :
    es.foldl note acc = acc ++ es := by
  induction es generalizing acc with
  | nil => simp
  | cons e es ih =>
    have hnew : acc.any (·.1 == e.1) = false := by
      rw [List.any_eq_false]
      intro f hf heq
      rw [List.map_append, List.nodup_append] at h
      exact h.2.2 f.1 (List.mem_map_of_mem hf) e.1 (by simp) (beq_iff_eq.mp heq)
    have hstep : note acc e = acc ++ [e] := by simp [note, hnew]
    rw [List.foldl_cons, hstep, ih _ (by simpa using h)]
    simp

theorem mapM_named
    (h : kws.mapM (fun (k, v) => match k with
      | some k => (Except.ok (k, v) : Except Fault (String × Value))
      | none => .error (.type .keywordsNotText)) = .ok named) :
    kws = named.map fun e => (some e.1, e.2) := by
  induction kws generalizing named with
  | nil =>
    cases h
    rfl
  | cons e kws ih =>
    rw [List.mapM_cons] at h
    obtain ⟨f, hf, hrun⟩ := bind_eq_ok.mp h
    obtain ⟨rest, hrest, hcons⟩ := bind_eq_ok.mp hrun
    cases hcons
    obtain ⟨_ | k, v⟩ := e
    · cases hf
    · cases hf
      rw [ih hrest]
      rfl

theorem passKeywords_ok (h : passKeywords function kws = .ok named) :
    kws = named.map fun e => (some e.1, e.2) := by
  obtain ⟨all, hall, h⟩ := bind_eq_ok.mp h
  have hnamed : all = named := by
    split at h
    · cases h
    · split at h
      · cases h
      · cases h
        rfl
  exact mapM_named (hnamed ▸ hall)

theorem keyword_of_constants (h : constants (keywordParts t).2 = .ok (some ls)) :
    ∃ tag name value, t = .node tag (.keyword name) [value] := by
  unfold keywordParts at h
  split at h
  · exact ⟨_, _, _, rfl⟩
  · cases h

theorem entriesAll_constants
    (h : constantsAll (ts.map fun t => (keywordParts t).2) = .ok (some ls))
    (hts : ∀ t ∈ ts, (keywordParts t).2.isDisplay = false)
    (hnamed : (ts.map fun t => (keywordParts t).1).zip (ls.map (·.value)) = named.map fun e => (some e.1, e.2)) :
    entriesAll names ts = .ok named := by
  induction ts generalizing ls named with
  | nil =>
    obtain rfl : named = [] := by simpa using hnamed
    rfl
  | cons t ts ih =>
    obtain ⟨own, rest, hown, hrest, rfl⟩ := constantsAll_cons.mp h
    obtain ⟨tag, name, value, rfl⟩ := keyword_of_constants hown
    obtain ⟨_, l, parts, hvalue, rfl⟩ | hdisplay := constants_cases hown
    · simp only [keywordParts] at hvalue
      subst hvalue
      match named, hnamed with
      | e :: named, hnamed =>
        simp only [List.map_cons, keywordParts, List.singleton_append, List.zip_cons_cons, List.cons.injEq,
          Prod.mk.injEq] at hnamed
        obtain ⟨⟨rfl, hl⟩, hzip⟩ := hnamed
        have hothers := ih hrest (fun t ht => hts t (.tail _ ht)) hzip
        rw [entriesAll, hothers, entries, evaluateWith, hl]
        rfl
    · simp [hts _ (.head _)] at hdisplay

theorem evaluate_of_unpacked {first : Builtin.Keywords} (h : entries names (.node tag (.keyword none) [t]) = .ok first) :
    ∃ kvs, evaluateWith names t = .ok (.dict kvs) := by
  obtain ⟨v, hv, hentries⟩ := bind_eq_ok.mp h
  split at hentries
  · exact ⟨_, hv⟩
  · cases hentries

theorem not_display_of_entries
    (h : constantsAll (ts.map fun t => (keywordParts t).2) = .ok (some ls)) (hls : ∀ l ∈ ls, l.value.isContainer = false)
    (hrun : entriesAll names ts = .ok named) (hsimple : ∀ e ∈ named, e.2.isContainer = false) :
    (∀ t ∈ ts, (keywordParts t).2.isDisplay = false) ∧
      (ts.map fun t => (keywordParts t).1) = named.map fun e => some e.1 := by
  induction ts generalizing ls named with
  | nil =>
    cases hrun
    simp
  | cons t ts ih =>
    obtain ⟨own, rest, hown, hrest, rfl⟩ := constantsAll_cons.mp h
    obtain ⟨tag, name, value, rfl⟩ := keyword_of_constants hown
    obtain ⟨first, hfirst, hrun⟩ := bind_eq_ok.mp hrun
    obtain ⟨others, hothers, hcons⟩ := bind_eq_ok.mp hrun
    cases hcons
    obtain ⟨hdisplays, hnames⟩ := ih hrest (fun l hl => hls l (by simp [hl])) hothers
      fun e he => hsimple e (List.mem_append_right _ he)
    cases name with
    | none =>
      -- neither a constant nor a display comes to a mapping
      obtain ⟨kvs, hv⟩ := evaluate_of_unpacked hfirst
      obtain ⟨_, l, parts, rfl, rfl⟩ | hdisplay := constants_cases hown
      · have hl := hls l (by simp)
        simp only [evaluateWith, Except.ok.injEq] at hv
        rw [hv] at hl
        cases hl
      · obtain ⟨xs, hxs | hxs | hxs⟩ := display_cases hdisplay hv <;> cases hxs
    | some name =>
      obtain ⟨v, hv, hentries⟩ := bind_eq_ok.mp hfirst
      cases hentries
      refine ⟨?_, by rw [List.map_cons, hnames]; rfl⟩
      intro u hu
      obtain rfl | hu := List.mem_cons.mp hu
      · exact not_display hv (hsimple (name, v) (by simp))
      · exact hdisplays u hu

/-! ## What is handed over -/

theorem simple_keywordParts (h : every simple t = true) : every simple (keywordParts t).2 = true := by
  unfold keywordParts
  split
  · simpa [every, everyAll, simple] using h
  · rfl

theorem positionals_iff (names : String → Option Value) (hsimple : everyAll simple ts = true) (h : constantsAll ts = .ok (some ls)) :
    positionals names ts = .ok (ls.map (·.value)) ↔ ∀ t ∈ ts, t.isDisplay = false := by
  refine ⟨fun hrun => not_display_of_positionals h hrun ?_, positionals_constants h⟩
  intro v hv
  obtain ⟨l, hl, rfl⟩ := List.mem_map.mp hv
  exact simple_constantsAll ts hsimple h l hl

theorem length_constants (h : constantsAll ts = .ok (some ls)) (hts : ∀ t ∈ ts, t.isDisplay = false) :
    ls.length = ts.length := by
  induction ts generalizing ls with
  | nil =>
    cases h
    rfl
  | cons t ts ih =>
    obtain ⟨own, rest, hown, hrest, rfl⟩ := constantsAll_cons.mp h
    obtain ⟨_, l, _, _, rfl⟩ | hdisplay := constants_cases hown
    · simp [ih hrest fun t ht => hts t (.tail _ ht)]
    · simp [hts _ (.head _)] at hdisplay

theorem nameds_iff (names : String → Option Value)
    (hsimple : everyAll simple (ts.map fun t => (keywordParts t).2) = true)
    (h : constantsAll (ts.map fun t => (keywordParts t).2) = .ok (some ls))
    (hkws : keywordValues (ts.map fun t => (keywordParts t).1) (ls.map (·.value)) = .ok kws)
    (hpass : passKeywords function kws = .ok named) :
    nameds names ts = .ok named ↔
      (∀ t ∈ ts, (keywordParts t).2.isDisplay = false) ∧ (ts.map fun t => (keywordParts t).1).Nodup := by
  obtain ⟨hlength, hfold⟩ := keywordValues_eq.mp hkws
  have hnamed := passKeywords_ok hpass
  constructor
  · intro hrun
    obtain ⟨entries, hentries, hdistinct⟩ := bind_eq_ok.mp hrun
    split at hdistinct
    · rename_i hnodup
      cases hdistinct
      have hls := simple_constantsAll _ hsimple h
      have hvalues : ∀ e ∈ named, e.2.isContainer = false := by
        intro e he
        have hmem := foldl_note_values [] _ (some e.1, e.2) (hfold ▸ hnamed ▸ List.mem_map_of_mem he)
        obtain ⟨f, hf, hvalue⟩ := List.mem_map.mp hmem
        obtain ⟨l, hl, hlvalue⟩ := List.mem_map.mp (List.of_mem_zip hf).2
        have heq : e.2 = l.value := hvalue.symm.trans hlvalue.symm
        exact heq ▸ hls l hl
      obtain ⟨hdisplays, hnames⟩ := not_display_of_entries h hls hentries hvalues
      refine ⟨hdisplays, ?_⟩
      have hcomp : (fun e : String × Value => some e.1) = some ∘ (·.1) := rfl
      rw [hnames, hcomp, ← List.map_map]
      exact hnodup.map fun _ _ => Option.some.inj
    · cases hdistinct
  · rintro ⟨hdisplays, hnodup⟩
    have hcount : ls.length = ts.length := by
      simpa using length_constants h (by simpa using hdisplays)
    have hfirsts : ((ts.map fun t => (keywordParts t).1).zip (ls.map (·.value))).map (·.1) =
        ts.map fun t => (keywordParts t).1 := List.map_fst_zip (by simp [hcount])
    rw [foldl_note_nodup [] _ (by simpa [hfirsts] using hnodup), List.nil_append] at hfold
    have hentries : entriesAll names ts = .ok named := entriesAll_constants h hdisplays (hfold.trans hnamed)
    have hnames : (named.map (·.1)).map some = ts.map fun t => (keywordParts t).1 := by
      rw [← hfirsts, hfold, hnamed, List.map_map, List.map_map]
      rfl
    refine bind_eq_ok.mpr ⟨named, hentries, ?_⟩
    rw [if_pos (List.Nodup.of_map some (hnames ▸ hnodup))]
    rfl

theorem arguments_ok {store : Store} (h : arguments? store function args keywords = .ok (some (values, named))) :
    ∃ ls ks kws, constantsAll (args.map store.expand) = .ok (some ls) ∧ values = ls.map (·.value) ∧
      constantsAll ((keywords.map store.expand).map fun t => (keywordParts t).2) = .ok (some ks) ∧
      keywordValues ((keywords.map store.expand).map fun t => (keywordParts t).1) (ks.map (·.value)) = .ok kws ∧
      passKeywords function kws = .ok named := by
  obtain ⟨ls, hls, h⟩ := bind_eq_ok.mp h
  obtain ⟨ks, hks, h⟩ := bind_eq_ok.mp h
  match ls, ks, h with
  | some ls, some ks, h =>
    obtain ⟨kws, hkws, h⟩ := bind_eq_ok.mp h
    obtain ⟨_, hpass, h⟩ := bind_eq_ok.mp h
    cases h
    simp only [List.map_map] at hks hkws ⊢
    exact ⟨ls, ks, kws, hls, rfl, hks, hkws, hpass⟩

/-! ## Calls that are replaced -/

section
variable {s s' : Session} {args keywords : List Tree}

theorem call_cases
    (h : Returns (call function values named) s (some t) s') :
    ∃ v, Builtin.call? noInvoke function values named = some (.ok v) ∧ Returns (express function v) s (some t) s' := by
  unfold call at h
  split at h
  · cases (returns_pure.mp h).1
  · exact absurd h returns_throw
  · exact ⟨_, by assumption, h⟩

theorem replacement_cases (h : Returns (replacement function args keywords) s (some t) s') :
    (∃ values named, arguments? s.store function args keywords = .ok (some (values, named)) ∧
      Returns (call function values named) s (some t) s') ∨
    ∃ u, other function args keywords = .ok (some u) ∧ Returns (adopt u) s t s' := by
  replace h := returns_get_bind.mp h
  obtain ⟨found, _, hfound, h⟩ := returns_bind.mp h
  obtain ⟨hargs, rfl⟩ := returns_ofExcept.mp hfound
  cases found with
  | some found => exact .inl ⟨found.1, found.2, hargs, h⟩
  | none =>
    obtain ⟨rest, _, hrest, h⟩ := returns_bind.mp h
    obtain ⟨hother, rfl⟩ := returns_ofExcept.mp hrest
    cases rest with
    | none => cases (returns_pure.mp h).1
    | some u =>
      obtain ⟨_, _, hadopt, hpure⟩ := returns_bind.mp h
      obtain ⟨hsome, rfl⟩ := returns_pure.mp hpure
      cases hsome
      exact .inr ⟨u, hother, hadopt⟩

theorem other_cases {u : Tree} (h : other function args keywords = .ok (some u)) :
    function = "bool" ∧ keywords = [] ∧
      ∃ arg, args = [arg] ∧ u = .make (.unaryOp .not) [.make (.unaryOp .not) [arg]] := by
  unfold other at h
  split at h
  · cases h
  · rename_i hname
    split at h
    · cases h
    · rename_i hkeywords
      split at h
      · cases h
      · cases h
        exact ⟨by simpa using hname, by simpa using hkeywords, _, rfl, rfl⟩
      · cases h

theorem step_cases {kind : Kind} {parts : List Tree}
    (h : Returns (step tag kind parts visited) s ts s') :
    (∃ m, Returns (descend tag kind visited) m ts s') ∨
    ∃ callee args keywords at_ id rest t, kind = .call ∧ parts = [callee, .seq args, .seq keywords] ∧
      s.store.look callee = .node at_ (.name id .load) rest ∧ ts = [t] ∧
      Returns (replacement id args keywords) s (some t) s' := by
  unfold step at h
  split at h
  · obtain ⟨_, _, hlook, h⟩ := returns_bind.mp h
    obtain ⟨hcallee, rfl⟩ := returns_look.mp hlook
    split at h
    · obtain ⟨result, m, hresult, h⟩ := returns_bind.mp h
      cases result with
      | none => exact .inl ⟨m, h⟩
      | some t =>
        cases h
        obtain hdone | ⟨_, _, _, hflag⟩ := returns_tryCatch.mp hresult
        · exact .inr ⟨_, _, _, _, _, _, t, rfl, rfl, hcallee, rfl, hdone⟩
        · obtain ⟨_, _, _, hnone⟩ := returns_bind.mp hflag
          cases (returns_pure.mp hnone).1
    · exact .inl ⟨_, h⟩
  · exact .inl ⟨_, h⟩

/-- A call that is replaced by its result: what the function is handed and when that is what a run passes. -/
structure Evaluated (s : Session) (function : String) (args keywords : List Tree) (t : Tree) (s' : Session) : Prop where
  handed : ∃ values named v, arguments? s.store function args keywords = .ok (some (values, named)) ∧
    Builtin.call? noInvoke function values named = some (.ok v) ∧
    Returns (express function v) s (some t) s' ∧
    (∀ names, positionals names (args.map s.store.expand) = .ok values ↔
      ∀ arg ∈ args, (s.store.expand arg).isDisplay = false) ∧
    (∀ names, nameds names (keywords.map s.store.expand) = .ok named ↔
      (∀ k ∈ keywords, (keywordParts (s.store.expand k)).2.isDisplay = false) ∧
        (keywords.map fun k => (keywordParts (s.store.expand k)).1).Nodup)

/-- A truth test that is replaced by a double negation: what that comes to and when it can be written. -/
structure Rewritten (s : Session) (function : String) (args keywords : List Tree) (t : Tree) (s' : Session) : Prop where
  test : function = "bool" ∧ keywords = []
  operand : ∃ arg, args = [arg] ∧
    (∀ names v, evaluateWith names (s.store.expand arg) = .ok v →
      evaluateWith names (s'.store.expand t) = .ok (.bool v.truth)) ∧
    (every starsPlaced (s'.store.expand t) = true ↔ starless (s.store.expand arg) = true)

theorem bare_doubleNegation (h : Returns (adopt (.make (.unaryOp .not) [.make (.unaryOp .not) [arg]])) s t s') :
    bare (s'.store.expand t) =
      .node {} (.unaryOp .not) [.node {} (.unaryOp .not) [bare (s.store.expand arg)]] := by
  obtain ⟨rfl, rfl⟩ := returns_adopt.mp h
  rw [bare_expand_adopt, Tree.make, Tree.make, expand_node, List.map_singleton, expand_node]
  rfl

theorem rewritten (hstars : every starsPlaced (s.store.expand arg) = true)
    (h : Returns (adopt (.make (.unaryOp .not) [.make (.unaryOp .not) [arg]])) s t s') :
    Rewritten s "bool" [arg] [] t s' where
  test := ⟨rfl, rfl⟩
  operand := by
    have hbare := bare_doubleNegation h
    refine ⟨arg, rfl, ?_, ?_⟩
    · intro names v hv
      rw [← evaluateWith_bare, hbare, evaluateWith, evaluateWith, evaluateWith_bare, hv]
      simp [bind, Except.bind, unaryValue, Value.truth]
    · rw [← every_bare starsPlaced_bare, hbare]
      simp [every, everyAll, starsPlaced, Kind.takesStarred, every_bare starsPlaced_bare, hstars, starless_bare,
        show starless (.node {} (.unaryOp .not) [bare (s.store.expand arg)]) = true from rfl]

theorem evaluated
    (hargs : everyAll simple (args.map s.store.expand) = true)
    (hkeywords : everyAll simple (keywords.map s.store.expand) = true)
    (h : arguments? s.store function args keywords = .ok (some (values, named)))
    (hcall : Returns (call function values named) s (some t) s') : Evaluated s function args keywords t s' where
  handed := by
    obtain ⟨v, hv, hexpress⟩ := call_cases hcall
    obtain ⟨ls, ks, kws, hls, rfl, hks, hkws, hpass⟩ := arguments_ok h
    have hvalues : everyAll simple ((keywords.map s.store.expand).map fun t => (keywordParts t).2) = true := by
      rw [everyAll_eq_true] at hkeywords ⊢
      simpa using fun k hk => simple_keywordParts (hkeywords _ (List.mem_map_of_mem hk))
    refine ⟨_, named, v, h, hv, hexpress, fun names => ?_, fun names => ?_⟩
    · simpa using positionals_iff names hargs hls
    · simpa [Function.comp_def] using nameds_iff names hvalues hks hkws hpass

/-- Every call of a named function that is replaced is evaluated on the values that a run passes, unless one of its
arguments is a display, or is a truth test whose double negation can be written, unless its argument is starred. -/
theorem step_hands_over_arguments {tag : Tag} {callee : Tree} {visited : Work (List Tree)} {ts : List Tree}
    (hsimple : every simple (s.store.expand (.node tag .call [callee, .seq args, .seq keywords])) = true)
    (hstars : every starsPlaced (s.store.expand (.node tag .call [callee, .seq args, .seq keywords])) = true)
    (h : Returns (step tag .call [callee, .seq args, .seq keywords] visited) s ts s') :
    (∃ m, Returns (descend tag .call visited) m ts s') ∨
    ∃ own id rest t, s.store.look callee = .node own (.name id .load) rest ∧ ts = [t] ∧
      (Evaluated s id args keywords t s' ∨ Rewritten s id args keywords t s') := by
  obtain hleft | ⟨_, _, _, own, id, rest, t, _, hparts, hcallee, hts, hreplaced⟩ := step_cases h
  · exact .inl hleft
  · cases hparts
    refine .inr ⟨own, id, rest, t, hcallee, hts, ?_⟩
    simp only [expand_node, expand_seq, List.map_cons, List.map_nil, every, everyAll, Bool.and_eq_true, and_true]
      at hsimple hstars
    obtain ⟨values, named, harguments, hcall⟩ | ⟨u, hother, hadopt⟩ := replacement_cases hreplaced
    · exact .inl (evaluated hsimple.2.2.1 hsimple.2.2.2 harguments hcall)
    · obtain ⟨rfl, rfl, arg, rfl, rfl⟩ := other_cases hother
      exact .inr (rewritten (everyAll_eq_true.mp hstars.2.2.1 _ (by simp)) hadopt)

end

def based : List Tree :=
  [.make (.name "int" .load) [], .seq [.make (.constant { value := .text "ff" }) []],
    .seq [.make (.keyword (some "base")) [.make (.constant { value := .int 16 }) []]]]

theorem step_hands_over_arguments_based : ∃ t s',
    Returns (step {} .call based (throw .unknown)) {} [t] s' ∧
    Evaluated {} "int" [.make (.constant { value := .text "ff" }) []]
      [.make (.keyword (some "base")) [.make (.constant { value := .int 16 }) []]] t s' := by
  have hrun : (match (outcome (step {} .call based (throw .unknown)) {}).1 with
      | .ok _ => true
      | .error _ => false) = true := by decide +kernel
  split at hrun
  · rename_i ts hts
    have hreturns := returns_of_ok hts
    obtain ⟨m, hm⟩ | ⟨_, _, _, t, hcallee, rfl, hdone⟩ :=
      step_hands_over_arguments (by decide +kernel) (by decide +kernel) hreturns
    · obtain ⟨_, _, hthrow, _⟩ := returns_descend.mp hm
      exact absurd hthrow returns_throw
    · cases hcallee
      obtain hdone | hdone := hdone
      · exact ⟨t, _, hreturns, hdone⟩
      · exact absurd hdone.test.1 (by decide)
  · cases hrun

theorem bool_display_gives : (match (outcome (step {} .call [.make (.name "bool" .load) [],
    .seq [.make (.list .load) [.seq [.make (.constant { value := .int 0 }) []]]], .seq []] (throw .unknown)) {}).1 with
    | .ok [t] =>
      match evaluateWith (fun _ => none) t with
      | .ok (.bool b) => !b
      | _ => false
    | _ => false) = true := by decide +kernel

/-- A truth test of the list that holds zero comes out true in a run, and is replaced by false. -/
theorem display_argument_strays : ∃ t s',
    Returns (step {} .call [.make (.name "bool" .load) [],
      .seq [.make (.list .load) [.seq [.make (.constant { value := .int 0 }) []]]], .seq []] (throw .unknown)) {} [t] s' ∧
    evaluateWith (fun _ => none) t = .ok (.bool false) ∧
    positionals (fun _ => none) [.make (.list .load) [.seq [.make (.constant { value := .int 0 }) []]]] = .ok [.list [.int 0]] ∧
    Builtin.call? noInvoke "bool" [.list [.int 0]] [] = some (.ok (.bool true)) := by
  have hrun := bool_display_gives
  split at hrun
  · rename_i t ht
    split at hrun
    · rename_i b hb
      obtain rfl : b = false := by simpa using hrun
      exact ⟨t, _, returns_of_ok ht, hb, rfl, rfl⟩
    · cases hrun
  · cases hrun

end Pass.PureCall
end SourceOptimizer
