import SourceOptimizer.Proofs.Scopes

/-! What the renaming pass does to a function. The first time through its body notes the names that it stores, the second
time and the visit after it replace them; all three together give the function names of its own. -/
namespace SourceOptimizer.Pass.Rename
open Tree Naming

variable {depth : Nat} {D : String → Prop} {b : Int} {tag : Tag}
variable {n m : Naming} {t : Tree} {ts : List Tree}

theorem height_le_of_mem (h : t ∈ ts) : height t ≤ heightAll ts := by
  induction h with
  | head => exact Nat.le_max_left _ _
  | tail _ _ ih => exact Nat.le_trans ih (Nat.le_max_right _ _)

theorem functionFree_of_mem (h : functionFreeAll ts = true) (ht : t ∈ ts) : functionFree t = true := by
  induction ht with
  | head => exact (Bool.and_eq_true _ _ ▸ h).1
  | tail _ _ ih => exact ih (Bool.and_eq_true _ _ ▸ h).2

/-! ## The first time -/

section
variable {walk : Naming → Tree → Tree × Naming}

def Searches (walk : Naming → Tree → Tree × Naming) (t : Tree) : Prop :=
  ∀ n : Naming, n.phase = .search → 0 < n.assigned →
    (walk n t).1 = t ∧ Notes (stores false t) (stores true t) n (walk n t).2

theorem Searches.all (h : ∀ t ∈ ts, Searches walk t) (n : Naming) (hphase : n.phase = .search) (hn : 0 < n.assigned) :
    (walkAll walk n ts).1 = ts ∧ Notes (storesAll false ts) (storesAll true ts) n (walkAll walk n ts).2 := by
  induction ts generalizing n with
  | nil => exact ⟨rfl, .refl hn []⟩
  | cons t ts ih =>
    obtain ⟨ht, hnotes⟩ := h t (by simp) n hphase hn
    obtain ⟨hts, hnotes'⟩ := ih (fun u hu => h u (by simp [hu])) _ (hnotes.phase_eq.trans hphase)
      (Int.lt_of_lt_of_le hn hnotes.assigned_le)
    exact ⟨congrArg₂ List.cons ht hts, hnotes.trans hnotes'⟩

end

theorem searches_walk (hfree : functionFree t = true) (hheight : height t ≤ depth) :
    Searches (walk depth) t := by
  induction depth generalizing t with
  | zero => cases t <;> simp [height] at hheight
  | succ depth ih =>
    intro n hphase hn
    cases t with
    | absent => exact ⟨rfl, .refl hn []⟩
    | shared slot => exact ⟨rfl, .refl hn []⟩
    | seq items =>
      have hall := Searches.all (fun t ht => ih (functionFree_of_mem hfree ht)
        (Nat.le_trans (height_le_of_mem ht) (Nat.le_of_succ_le_succ hheight))) n hphase hn
      exact ⟨congrArg Tree.seq hall.1, hall.2⟩
    | node tag kind parts =>
      simp only [functionFree, Bool.and_eq_true] at hfree
      have hall (n : Naming) (hphase : n.phase = .search) (hn : 0 < n.assigned) :
          (walkInside (walk depth) n (.node tag kind parts)).1 = .node tag kind parts ∧
            Notes (storesAll false parts) (storesAll true parts) n
              (walkInside (walk depth) n (.node tag kind parts)).2 := by
        have hall := Searches.all (fun t ht => ih (functionFree_of_mem hfree.2 ht)
          (Nat.le_trans (height_le_of_mem ht) (Nat.le_of_succ_le_succ hheight))) n hphase hn
        exact ⟨congrArg (Tree.node tag kind) hall.1, hall.2⟩
      have hignored := hall { n with ignoring := true } hphase hn
      cases kind with
      | name id ctx =>
        simp only [walk, walkName, hphase, true_and]
        cases ctx with
        | store => exact .noteStore n id hn
        | _ => exact .refl hn []
      | functionDef name => simp [Kind.isFunction] at hfree
      | lambda => exact ⟨rfl, .refl hn []⟩
      | listComp | setComp | dictComp => exact ⟨hignored.1, hignored.2.ignore⟩
      | globalStmt names | nonlocalStmt names =>
        exact ⟨(hall n hphase hn).1, (hall n hphase hn).2.weaken (List.nil_subset _) (List.Subset.refl _)⟩
      | _ => exact hall n hphase hn

theorem walk_statement (hstatement : isStatement t = true) (hfunction : isFunction {} t = false) (n : Naming) :
    walk (depth + 1) n t = walkInside (walk depth) n t := by
  cases t with
  | node tag kind parts => cases kind <;> first | rfl | simp_all [isStatement, Kind.isExpr, isFunction, Store.look]
  | _ => simp [isStatement] at hstatement

theorem functionFree_of_nested (h : Nested t) (hstatement : isStatement t = true)
    (hfunction : isFunction {} t = false) : functionFree t = true := by
  cases h with
  | free h => exact h
  | seq => simp [isStatement] at hstatement
  | function => simp [isFunction, Store.look] at hfunction

theorem searches_walkSearch (hnested : Nested t) (hstatement : isStatement t = true)
    (hheight : height t ≤ depth + 1) : Searches (walkSearch (walk depth)) t := by
  intro n hphase hn
  unfold walkSearch
  split
  next names hnames =>
    have hstores : stores false t = [] := by
      cases t with
      | node tag kind parts => cases kind <;> first | rfl | simp [declared?, Store.look] at hnames
      | _ => simp [isStatement] at hstatement
    exact ⟨rfl, hstores ▸ (Notes.declare hn names).weaken (List.Subset.refl _) (List.nil_subset _)⟩
  next =>
    split
    next hfunction =>
      have hstores (all : Bool) : stores all t = [] := by
        cases t with
        | node tag kind parts => cases kind <;> first | rfl | simp [isFunction, Store.look] at hfunction
        | _ => simp [isStatement] at hstatement
      exact ⟨rfl, hstores false ▸ hstores true ▸ .refl hn []⟩
    next hfunction =>
      have hfunction : isFunction {} t = false := by simpa using hfunction
      rw [← walk_statement hstatement hfunction]
      exact searches_walk (functionFree_of_nested hnested hstatement hfunction) hheight n hphase hn

/-! ## The second time -/

/-- Names are replaced as the naming says; where nothing is replaced it knows no names. -/
structure Calm (n : Naming) : Prop where
  positive : 0 < n.assigned
  phase_ne : n.phase ≠ .search
  idle : n.phase = .idle → n.mapping = []

theorem Calm.settles (h : Calm n) (hs : Settles n m) : Calm m where
  positive := Int.lt_of_lt_of_le h.positive hs.assigned_le
  phase_ne := hs.phase_eq ▸ h.phase_ne
  idle := fun hidle => (hs.mapping_eq h.phase_ne).trans (h.idle (hs.phase_eq ▸ hidle))

theorem Calm.replace_eq (h : Calm n) (hs : Settles n m) : m.replace = n.replace :=
  funext (hs.replace_eq h.phase_ne)

theorem Calm.walkName_eq (h : Calm n) (id : String) (ctx : Context) : walkName n id ctx = (n.replace id, n) := by
  unfold walkName
  cases hphase : n.phase with
  | idle => simp [Naming.replace, Naming.newName?, h.idle hphase]
  | search => exact absurd hphase h.phase_ne
  | replace => rfl

/-- The names that a naming leaves alone, among those that have been there or are generated up to number `b`. -/
def Stable (n : Naming) (b : Int) (x : String) : Prop := Old b x ∧ n.replace x = x

theorem Calm.stable_eq (h : Calm n) (hs : Settles n m) : Stable m = Stable n := by
  funext b x
  simp only [Stable, h.replace_eq hs]

/-- A naming that replaces the names of `D` by different ones, once and for all. -/
structure Ready (D : String → Prop) (n : Naming) : Prop extends Calm n where
  old : ∀ {x}, D x → Old n.assigned x
  stable : ∀ {x}, D x → Stable n n.assigned (n.replace x)
  injective : ∀ {x y}, D x → D y → n.replace x = n.replace y → x = y
  unborn : ∀ {x}, ¬ Old n.assigned x → n.replace x = x

theorem Ready.settles (h : Ready D n) (hs : Settles n m) : Ready D m where
  toCalm := h.toCalm.settles hs
  old hx := (h.old hx).mono hs.assigned_le
  stable hx := by
    rw [h.stable_eq hs, h.replace_eq hs]
    exact ⟨(h.stable hx).1.mono hs.assigned_le, (h.stable hx).2⟩
  injective := by
    rw [h.replace_eq hs]
    exact h.injective
  unborn hx := by
    rw [h.replace_eq hs]
    exact h.unborn fun hold => hx (hold.mono hs.assigned_le)

theorem Ready.own (h : Ready D n) {plain : List String} (hplain : ∀ x ∈ plain, n.replace x = x)
    (bound : List String) (hb : n.assigned ≤ b) : Own D (Stable n b) plain bound n.replace n.replace :=
  ⟨hplain, fun _ _ => rfl, h.injective, fun hx => ⟨(h.stable hx).1.mono hb, (h.stable hx).2⟩⟩

section
variable {walk : Naming → Tree → Tree × Naming}

def Rewriting (walk : Naming → Tree → Tree × Naming) (t : Tree) : Prop :=
  ∀ (D : String → Prop) (n : Naming), Ready D n → Fits D n.replace (names t) (fixed t) →
    Rewrites D (Stable n (walk n t).2.assigned) n.replace t (walk n t).1

theorem Rewriting.all (hkeeping : Keeping Settles walk) (h : ∀ t ∈ ts, Rewriting walk t) (D : String → Prop) (n : Naming)
    (hn : Ready D n) (hfits : Fits D n.replace (namesAll ts) (fixedAll ts)) :
    RewritesAll D (Stable n (walkAll walk n ts).2.assigned) n.replace ts (walkAll walk n ts).1 := by
  induction ts generalizing n with
  | nil => rfl
  | cons t ts ih =>
    have hsettles := hkeeping n t hn.positive
    have hsettles' := hkeeping.settles _ ts (hn.settles hsettles).positive
    have ht := h t (by simp) D n hn (hfits.subset (List.subset_append_left _ _) (List.subset_append_left _ _))
    have hts := ih (fun u hu => h u (by simp [hu])) _ (hn.settles hsettles)
      (hn.replace_eq hsettles ▸ hfits.subset (List.subset_append_right _ _) (List.subset_append_right _ _))
    rw [hn.replace_eq hsettles, hn.stable_eq hsettles] at hts
    exact ⟨_, _, rfl, ht.widen fun x hx => ⟨hx.1.mono hsettles'.assigned_le, hx.2⟩, hts⟩

theorem Rewriting.inside (hkeeping : Keeping Settles walk) {kind : Kind} {parts : List Tree}
    (hkind : kind.isExpr = false) (h : ∀ t ∈ parts, Rewriting walk t) : Rewriting (walkInside walk) (.node tag kind parts) := by
  intro D n hn hfits
  have hparts := fun hfits => Rewriting.all hkeeping h D n hn hfits
  have hle := (hkeeping.settles n parts hn.positive).assigned_le
  cases kind with
  | functionDef name =>
    have hplain : ∀ x ∈ plainParameters {} (parts.headD .absent), n.replace x = x := fun x hx =>
      (hfits.fixed x (List.mem_append_left _ hx)).2
    refine ⟨n.replace, _, hn.own hplain _ hle, rfl, ?_⟩
    simp only [ite_self]
    exact hparts (hfits.subset (List.Subset.refl _) (List.subset_append_right _ _))
  | name id ctx => simp [Kind.isExpr] at hkind
  | lambda => simp [Kind.isExpr] at hkind
  | _ => exact ⟨_, rfl, hparts hfits⟩

end

/-! ## A function -/

theorem newName_enter (n : Naming) (parameters : Tree) (x : String) :
    (enter n parameters).newName? x = if x ∈ plainParameters {} parameters then some x else n.newName? x := by
  have hfold : ∀ (ps : List String) (n : Naming),
      (ps.foldl (fun n p => n.map p p) n).newName? x = if x ∈ ps then some x else n.newName? x := by
    intro ps
    induction ps with
    | nil => simp
    | cons p ps ih =>
      intro n
      rw [List.foldl_cons, ih, newName_map]
      by_cases hp : x = p <;> by_cases hps : x ∈ ps <;> simp [hp, hps]
  exact hfold _ n

theorem Naming.Notes.replace_cases {least most : List String} (h : Notes least most n m) (x : String) :
    m.replace x = n.replace x ∨
      n.newName? x = none ∧ x ∈ most ∧ x ∉ n.bypassed ∧
        ∃ k, n.assigned < k ∧ k ≤ m.assigned ∧ m.newName? x = some (spell k.toNat) := by
  cases hn : n.newName? x with
  | some new => exact .inl (by simp [Naming.replace, hn, h.kept hn])
  | none =>
    cases hm : m.newName? x with
    | none => exact .inl (by simp [Naming.replace, hn, hm])
    | some new =>
      rcases h.added hm with hold | ⟨hmost, hbypassed, k, hlt, hle, rfl⟩
      · simp [hn] at hold
      · exact .inr ⟨rfl, hmost, hbypassed, k, hlt, hle, rfl⟩

def noted (depth : Nat) (n : Naming) (parameters : Tree) (body : List Tree) : Naming :=
  (walkAll (walkSearch (walk depth)) (enter n parameters) body).2

section
variable {parameters : Tree} {body : List Tree}

structure Enters (D : String → Prop) (n : Naming) (parameters : Tree) (body : List Tree) (m : Naming) : Prop where
  ready : Ready D n
  names : ∀ x ∈ storesAll true body, D x
  keeps : ∀ x ∈ plainParameters {} parameters, n.replace x = x
  notes : Notes (storesAll false body) (storesAll true body) (enter n parameters) m

namespace Enters

theorem replace_cases (h : Enters D n parameters body m) (x : String) :
    m.replace x = n.replace x ∨
      n.replace x = x ∧ (enter n parameters).newName? x = none ∧ x ∈ storesAll true body ∧
        ∃ k, n.assigned < k ∧ k ≤ m.assigned ∧ m.newName? x = some (spell k.toNat) := by
  have henter : (enter n parameters).replace x = n.replace x := by
    simp only [Naming.replace, newName_enter]
    split
    · exact (h.keeps x ‹_›).symm
    · rfl
  rcases h.notes.replace_cases x with heq | ⟨hnone, hmost, _, k, hlt, hle, hnew⟩
  · exact .inl (heq.trans henter)
  · refine .inr ⟨?_, hnone, hmost, k, (enter_eq n parameters).2.2.2 ▸ hlt, hle, hnew⟩
    rw [← henter, Naming.replace, hnone, Option.getD_none]

theorem assigned_le (h : Enters D n parameters body m) : n.assigned ≤ m.assigned :=
  (enter_eq n parameters).2.2.2 ▸ h.notes.assigned_le

theorem stable (h : Enters D n parameters body m) {x : String} (hx : Stable m b x) : Stable n b x := by
  refine ⟨hx.1, ?_⟩
  rcases h.replace_cases x with heq | ⟨hsame, _⟩
  · exact heq ▸ hx.2
  · exact hsame

theorem ready_replace (h : Enters D n parameters body m) : Ready D { m with phase := .replace } where
  positive := Int.lt_of_lt_of_le h.ready.positive h.assigned_le
  phase_ne := by simp
  idle := by simp
  old hx := (h.ready.old hx).mono h.assigned_le
  stable := by
    intro x hx
    change Old m.assigned (m.replace x) ∧ m.replace (m.replace x) = m.replace x
    rcases h.replace_cases x with heq | ⟨_, _, _, k, hlt, hle, hnew⟩
    · refine ⟨heq ▸ (h.ready.stable hx).1.mono h.assigned_le, ?_⟩
      rcases h.replace_cases (m.replace x) with heq' | ⟨_, _, hmem, _⟩
      · rw [heq', heq, (h.ready.stable hx).2]
      · -- a name of the tree is not the new name of another one
        have hsame : n.replace (m.replace x) = n.replace x := by rw [heq, (h.ready.stable hx).2]
        have hself : m.replace x = x := h.ready.injective (h.names _ hmem) hx hsame
        rw [hself, hself]
    · have hval : m.replace x = spell k.toNat := by simp [Naming.replace, hnew]
      have hpos := h.ready.positive
      refine ⟨hval ▸ old_spell (by omega) hle, ?_⟩
      rcases h.replace_cases (m.replace x) with heq' | ⟨_, _, hmem, _⟩
      · rw [heq', hval]
        exact h.ready.unborn (not_old_spell hlt)
      · exact absurd (hval ▸ h.ready.old (h.names _ hmem)) (not_old_spell hlt)
  injective := by
    intro x y hx hy heq
    change m.replace x = m.replace y at heq
    rcases h.replace_cases x with hxe | ⟨_, hxn, _, k, hk, _, hxk⟩ <;>
      rcases h.replace_cases y with hye | ⟨_, hyn, _, j, hj, _, hyj⟩
    · exact h.ready.injective hx hy (hxe ▸ hye ▸ heq)
    · have hval : m.replace y = spell j.toNat := by simp [Naming.replace, hyj]
      exact absurd (hval ▸ heq ▸ hxe ▸ (h.ready.stable hx).1) (not_old_spell hj)
    · have hval : m.replace x = spell k.toNat := by simp [Naming.replace, hxk]
      exact absurd (hval ▸ heq ▸ hye ▸ (h.ready.stable hy).1) (not_old_spell hk)
    · have hxy : m.newName? x = m.newName? y := by
        simpa [Naming.replace, hxk, hyj] using heq
      exact h.notes.apart hxn hyn hxk (hxy ▸ hxk)
  unborn := by
    intro x hx
    change m.replace x = x
    have hx : ¬ Old n.assigned x := fun hold => hx (hold.mono h.assigned_le)
    rcases h.replace_cases x with heq | ⟨_, _, hmem, _⟩
    · rw [heq, h.ready.unborn hx]
    · exact absurd (h.ready.old (h.names x hmem)) hx

theorem own (h : Enters D n parameters body m) (hb : m.assigned ≤ b) :
    Own D (Stable n b) (plainParameters {} parameters) (storesAll true body) n.replace (n.replace ∘ m.replace) := by
  have hstable {x : String} (hx : D x) : Stable n b (m.replace x) :=
    h.stable ⟨(h.ready_replace.stable hx).1.mono hb, (h.ready_replace.stable hx).2⟩
  refine ⟨fun x hx => ?_, fun {x} hx hout => ?_, fun {x y} hx hy heq => ?_, fun {x} hx => ?_⟩
  · rcases h.replace_cases x with heq | ⟨_, hnone, _⟩
    · rw [Function.comp, heq, h.keeps x hx, h.keeps x hx]
    · simp [newName_enter, hx] at hnone
  · rcases h.replace_cases x with heq | ⟨_, _, hmem, _⟩
    · rw [Function.comp, heq, (h.ready.stable hx).2]
    · exact absurd hmem hout
  · simp only [Function.comp, (hstable hx).2, (hstable hy).2] at heq
    exact h.ready_replace.injective hx hy heq
  · rw [Function.comp, (hstable hx).2]
    exact hstable hx

end Enters
theorem enters_noted (hn : Ready D n) (hnames : ∀ x ∈ namesAll body, D x)
    (hparameters : ∀ x ∈ plainParameters {} parameters, n.replace x = x) (hbody : ∀ t ∈ body, Nested t)
    (hstatement : ∀ t ∈ body, isStatement t = true) (hheight : heightAll body ≤ depth + 1) :
    (walkAll (walkSearch (walk depth)) (enter n parameters) body).1 = body ∧
      Enters D n parameters body (noted depth n parameters body) := by
  obtain ⟨hphase, _, _, hassigned⟩ := enter_eq n parameters
  have hsearch := Searches.all
    (fun t ht => searches_walkSearch (hbody t ht) (hstatement t ht) (Nat.le_trans (height_le_of_mem ht) hheight))
    (enter n parameters) hphase (hassigned ▸ hn.positive)
  exact ⟨hsearch.1, hn, fun x hx => hnames x (storesAll_subset_names body hx), hparameters, hsearch.2⟩

theorem ready_stable (hn : Ready D n) (hs : Settles n m) : Ready (Stable n m.assigned) m where
  toCalm := hn.toCalm.settles hs
  old hx := hx.1
  stable := by
    intro x hx
    rw [hn.replace_eq hs, hn.stable_eq hs, hx.2]
    exact hx
  injective := by
    intro x y hx hy heq
    rwa [hn.replace_eq hs, hx.2, hy.2] at heq
  unborn := (hn.settles hs).unborn

theorem rewriting_inside (ih : ∀ t, Nested t → height t ≤ depth → Rewriting (walk depth) t) (hnested : Nested t)
    (hstatement : isStatement t = true) (hheight : height t ≤ depth + 1) : Rewriting (walkInside (walk depth)) t := by
  have hparts {tag : Tag} {kind : Kind} {parts : List Tree} (hheight : height (.node tag kind parts) ≤ depth + 1) :
      ∀ p ∈ parts, height p ≤ depth := fun p hp =>
    Nat.le_trans (height_le_of_mem hp) (Nat.le_of_succ_le_succ hheight)
  cases hnested with
  | free hfree =>
    cases t with
    | node tag kind parts =>
      have hkind : kind.isExpr = false := by simpa [isStatement] using hstatement
      simp only [functionFree, Bool.and_eq_true] at hfree
      exact .inside (keeping_walk depth) hkind fun p hp => ih p (.free (functionFree_of_mem hfree.2 hp)) (hparts hheight p hp)
    | _ => simp [isStatement] at hstatement
  | seq => simp [isStatement] at hstatement
  | function hp hd hr hbody =>
    refine .inside (keeping_walk depth) rfl fun p hp => ih p ?_ (hparts hheight p hp)
    simp only [List.mem_cons, List.not_mem_nil, or_false] at hp
    rcases hp with rfl | rfl | rfl | rfl
    exacts [.free ‹_›, .seq hbody, .free hd, .free hr]

theorem Enters.fits (h : Enters D n parameters body m) (hfits : Fits D n.replace (namesAll body) (fixedAll body))
    (hfixed : ∀ x ∈ fixedAll body, x ∉ storesAll true body) : Fits D m.replace (namesAll body) (fixedAll body) := by
  refine ⟨hfits.names, fun x hx => ⟨(hfits.fixed x hx).1, ?_⟩⟩
  rcases h.replace_cases x with heq | ⟨_, _, hmem, _⟩
  · exact heq.trans (hfits.fixed x hx).2
  · exact absurd hmem (hfixed x hx)

theorem rewrites_again {k : Naming} {body' : List Tree} (ih : ∀ t, Nested t → height t ≤ depth → Rewriting (walk depth) t)
    (h : Enters D n parameters body m) (hfits : Fits D n.replace (namesAll body) (fixedAll body))
    (hfixed : ∀ x ∈ fixedAll body, x ∉ storesAll true body) (hbody : ∀ t ∈ body, Nested t)
    (hheight : heightAll body + 1 ≤ depth) (hs : Settles n k) (hk : m.assigned ≤ k.assigned)
    (hreplace : RewritesAll D (Stable m k.assigned) m.replace body body') :
    ∃ body'', (walk depth k (.seq body')).1 = .seq body'' ∧
      RewritesAll D (Stable n (walk depth k (.seq body')).2.assigned) (n.replace ∘ m.replace) body body'' := by
  have hfirst : RewritesAll D (Stable n k.assigned) m.replace body body' := hreplace.widen fun x hx => h.stable hx
  obtain ⟨hnested, hnames⟩ := (Nested.seq hbody).rewrites ⟨body', rfl, hfirst⟩ (h.fits hfits hfixed) fun x hx =>
    h.stable ⟨(h.ready_replace.stable hx).1.mono hk, (h.ready_replace.stable hx).2⟩
  have hheight' : height (.seq body') ≤ depth := by
    have hsame : heightAll body' = heightAll body := by rw [← heightAll_shapes, (allAlike_of_rewrites hfirst).1, heightAll_shapes]
    simpa only [height, hsame] using hheight
  have hfits' : Fits (Stable n k.assigned) k.replace (names (.seq body')) (fixed (.seq body')) := by
    refine ⟨hnames, fun x hx => ?_⟩
    rw [fixed, (allAlike_of_rewrites hfirst).2.1] at hx
    obtain ⟨hD, hsame⟩ := hfits.fixed x hx
    rw [h.ready.replace_eq hs]
    exact ⟨⟨(h.ready.old hD).mono hs.assigned_le, hsame⟩, hsame⟩
  have hsecond := ih (.seq body') hnested hheight' _ k (ready_stable h.ready hs) hfits'
  rw [h.ready.replace_eq hs, h.ready.stable_eq hs] at hsecond
  obtain ⟨body'', heq, hsecond⟩ := hsecond
  exact ⟨body'', heq, hfirst.comp hsecond hfits.names⟩

/-- A function gets names of its own: those that the first time through its body has given it. -/
theorem walkFunction_rewrites {name : String} {decorators result : Tree}
    (ih : ∀ t, Nested t → height t ≤ depth → Rewriting (walk depth) t) (hn : Ready D n)
    (hfits : Fits D n.replace (names (.node tag (.functionDef name) [parameters, .seq body, decorators, result]))
      (fixed (.node tag (.functionDef name) [parameters, .seq body, decorators, result])))
    (hnested : Nested (.node tag (.functionDef name) [parameters, .seq body, decorators, result]))
    (hheight : height (.node tag (.functionDef name) [parameters, .seq body, decorators, result]) ≤ depth + 1) :
    ∃ parameters' body' decorators' result' b, b = (walkFunction (walk depth) n tag (.functionDef name)
        [parameters, .seq body, decorators, result]).2.assigned ∧
      (walkFunction (walk depth) n tag (.functionDef name) [parameters, .seq body, decorators, result]).1 =
        .node tag (.functionDef name) [parameters', .seq body', decorators', result'] ∧
      Enters D n parameters body (noted depth n parameters body) ∧ (noted depth n parameters body).assigned ≤ b ∧
      Rewrites D (Stable n b) n.replace parameters parameters' ∧
      RewritesAll D (Stable n b) (n.replace ∘ (noted depth n parameters body).replace) body body' ∧
      Rewrites D (Stable n b) n.replace decorators decorators' ∧ Rewrites D (Stable n b) n.replace result result' := by
  obtain ⟨hparameters, hpfits, hbodyFits, hdfits, hrfits⟩ := hfits.function
  cases hnested with
  | free hfree => simp [functionFree, Kind.isFunction] at hfree
  | function hp hd hr hbody hstatement hfixed =>
  have hheights : height parameters ≤ depth ∧ heightAll body + 1 ≤ depth ∧ height decorators ≤ depth ∧ height result ≤ depth := by
    simp only [height, heightAll, Nat.max_zero] at hheight
    omega
  obtain ⟨hpheight, hbheight, hdheight, hrheight⟩ := hheights
  have hkeeping := keeping_walk depth
  -- the first time
  obtain ⟨hsame, henters⟩ := enters_noted hn hbodyFits.names hparameters hbody hstatement
    (Nat.le_succ_of_le (Nat.le_of_succ_le hbheight))
  set m := noted depth n parameters body with hm
  -- the second time
  have hinside : ∀ t ∈ body, Rewriting (walkInside (walk depth)) t := fun t ht =>
    rewriting_inside ih (hbody t ht) (hstatement t ht) (Nat.le_trans (height_le_of_mem ht) (by omega))
  have hreplace := Rewriting.all hkeeping.inside hinside D { m with phase := .replace } henters.ready_replace
    (henters.fits hbodyFits hfixed)
  have hsettles := hkeeping.inside.settles { m with phase := .replace } body henters.ready_replace.positive
  set k := walkAll (walkInside (walk depth)) { m with phase := .replace } body with hk
  have hleave : Settles n (leave n k.2) := by
    refine ⟨⟨fun hi => hsettles.attentive (henters.notes.attentive ?_), ?_⟩, rfl, rfl, fun _ => rfl⟩
    · exact (enter_eq n parameters).2.2.1.trans hi
    · exact Int.le_trans henters.assigned_le hsettles.assigned_le
  have heq : walkFunction (walk depth) n tag (.functionDef name) [parameters, .seq body, decorators, result] =
      walkInside (walk depth) (leave n k.2) (.node tag (.functionDef name) [parameters, .seq k.1, decorators, result]) := by
    simp only [walkFunction, hsame]
    rfl
  -- the visit after it, part by part
  have hpart {n' : Naming} (hs : Settles n n') {t : Tree} (hfree : functionFree t = true) (hheight : height t ≤ depth)
      (hfits : Fits D n.replace (names t) (fixed t)) :
      Rewrites D (Stable n (walk depth n' t).2.assigned) n.replace t (walk depth n' t).1 := by
    have hr := ih t (.free hfree) hheight D n' (hn.settles hs) (hn.replace_eq hs ▸ hfits)
    rwa [hn.replace_eq hs, hn.stable_eq hs] at hr
  have hstep {n' : Naming} (hs : Settles n n') (t : Tree) : Settles n' (walk depth n' t).2 :=
    hkeeping n' t (hn.settles hs).positive
  have hrp := hpart hleave hp hpheight hpfits
  have hsp := hstep hleave parameters
  set p := walk depth (leave n k.2) parameters
  obtain ⟨body', hbody', hrb⟩ := rewrites_again ih henters hbodyFits hfixed hbody hbheight (hleave.trans hsp)
    (Int.le_trans hsettles.assigned_le hsp.assigned_le)
    (hreplace.widen fun x hx => ⟨hx.1.mono hsp.assigned_le, hx.2⟩)
  have hsb := hstep (hleave.trans hsp) (.seq k.1)
  set q := walk depth p.2 (.seq k.1)
  have hrd := hpart ((hleave.trans hsp).trans hsb) hd hdheight hdfits
  have hsd := hstep ((hleave.trans hsp).trans hsb) decorators
  set d := walk depth q.2 decorators
  have hrr := hpart (((hleave.trans hsp).trans hsb).trans hsd) hr hrheight hrfits
  have hsr := hstep (((hleave.trans hsp).trans hsb).trans hsd) result
  set r := walk depth d.2 result
  have hwiden {b c : Int} (hle : b ≤ c) : ∀ x, Stable n b x → Stable n c x := fun x hx => ⟨hx.1.mono hle, hx.2⟩
  refine ⟨p.1, body', d.1, r.1, r.2.assigned, by rw [heq]; rfl, ?_, henters, ?_, ?_, ?_, ?_, hrr⟩
  · rw [heq, ← hbody']
    rfl
  · exact Int.le_trans hsettles.assigned_le (((hsp.trans hsb).trans hsd).trans hsr).assigned_le
  · exact hrp.widen (hwiden (((hsb.trans hsd).trans hsr).assigned_le))
  · exact hrb.widen (hwiden ((hsd.trans hsr).assigned_le))
  · exact hrd.widen (hwiden hsr.assigned_le)

end

theorem nested_items {items : List Tree} (h : Nested (.seq items)) : ∀ t ∈ items, Nested t := by
  cases h with
  | free h => exact fun t ht => .free (functionFree_of_mem h ht)
  | seq h => exact h

theorem rewriting_walk (depth : Nat) : ∀ t, Nested t → height t ≤ depth → Rewriting (walk depth) t := by
  induction depth with
  | zero =>
    intro t _ hheight
    cases t <;> simp [height] at hheight
  | succ depth ih =>
    intro t hnested hheight D n hn hfits
    have hkeeping := keeping_walk depth
    cases t with
    | absent => rfl
    | shared slot => rfl
    | seq items =>
      refine ⟨_, rfl, Rewriting.all hkeeping (fun t ht => ?_) D n hn hfits⟩
      exact ih t (nested_items hnested t ht) (Nat.le_trans (height_le_of_mem ht) (Nat.le_of_succ_le_succ hheight))
    | node tag kind parts =>
      cases hnested with
      | function hp hd hr hbody hstatement hfixed =>
        obtain ⟨p', body', d', r', b, rfl, heq, henters, hle, hparts⟩ :=
          walkFunction_rewrites ih hn hfits (.function hp hd hr hbody hstatement hfixed) hheight
        exact rewrites_function.mpr ⟨_, p', body', d', r', henters.own hle, heq, hparts⟩
      | free hfree =>
        simp only [functionFree, Bool.and_eq_true] at hfree
        have hparts (n : Naming) (hn : Ready D n) (hfits : Fits D n.replace (namesAll parts) (fixedAll parts)) :=
          Rewriting.all hkeeping (fun t ht => ih t (.free (functionFree_of_mem hfree.2 ht))
            (Nat.le_trans (height_le_of_mem ht) (Nat.le_of_succ_le_succ hheight))) D n hn hfits
        have hignoring : Ready D { n with ignoring := true } := { hn with }
        cases kind with
        | name id ctx =>
          simp only [Rewrites, walk, hn.walkName_eq]
        | functionDef name => simp [Kind.isFunction] at hfree
        | lambda => rfl
        | listComp | setComp | dictComp => exact ⟨_, rfl, hparts _ hignoring hfits⟩
        | _ => exact ⟨_, rfl, hparts n hn hfits⟩

end SourceOptimizer.Pass.Rename
