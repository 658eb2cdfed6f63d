import SourceOptimizer.Proofs.Coupling
import SourceOptimizer.Proofs.SourceHistory

/-! Files that are no programs. They are left out of all work and passed on as they were read; but where no
file is a program the modules cannot be written back. -/
namespace SourceOptimizer
open Work

variable {s s' r : Session} {codes faulty : List Code} {paths : List String} {ss : List Source} {ws ws' : List Worker}

/-! ## Reading -/

def programPaths (paths : List String) (codes : List Code) : List String :=
  ((paths.zip codes).filter (·.2.isProgram)).map (·.1)

/-- Sessions that differ in log and sources at most. -/
def Session.Besides (s r : Session) : Prop := r = { s with log := r.log, sources := r.sources }

theorem read_besides (hread : List.Forall₂ s.Reads paths codes) (h : s.Besides r) : ∃ s' r',
    Returns (paths.forM parseFile) s () s' ∧ Returns ((programPaths paths codes).forM parseFile) r () r' ∧ s'.Besides r' ∧
      s'.current = s.current := by
  induction paths generalizing s r codes with
  | nil => exact ⟨s, r, rfl, rfl, h, rfl⟩
  | cons path paths ih =>
    obtain _ | @⟨_, _, _, codes, ⟨text, htext, rfl⟩, tail⟩ := hread
    have hfiles : r.files = s.files := by rw [h]
    have hnext : r.store = s.store := by rw [h]
    cases hparse : Tree.parse s.store.next text with
    | ok result =>
      obtain ⟨t, n⟩ := result
      have hprogram : (fileCode path text).isProgram = true := isProgram_iff.mpr ⟨t, n, hparse⟩
      have hpaths : programPaths (path :: paths) (fileCode path text :: codes) = path :: programPaths paths codes := by
        simp [programPaths, hprogram]
      have hs := parseFile_returns htext hparse
      have hr := parseFile_returns (readText_congr htext hfiles) (hnext ▸ hparse)
      have hbesides : (s.withModule (fileCode path text) t n).Besides (r.withModule (fileCode path text) t n) := by
        have hmodules : r.modules = s.modules := by rw [h]
        unfold Session.Besides Session.withModule
        rw [h]
      obtain ⟨s', r', hs', hr', hend, hcurrent⟩ := ih (tail.imp fun _ _ h => h.congr rfl) hbesides
      rw [hpaths]
      exact ⟨s', r', .bind hs hs', .bind hr hr', hend, hcurrent⟩
    | error e =>
      obtain ⟨cause, rfl⟩ := source_of_parse hparse
      have hprogram : (fileCode path text).isProgram = false := by
        rw [Bool.eq_false_iff, Ne, isProgram_iff (n := s.store.next)]
        rintro ⟨t, k, hok⟩
        cases hparse.symm.trans hok
      have hpaths : programPaths (path :: paths) (fileCode path text :: codes) = programPaths paths codes := by
        simp [programPaths, hprogram]
      have hs := parseFile_skips htext hparse
      have hbesides : (s.withSkipped path (fileCode path text) cause).Besides r := by
        exact h
      obtain ⟨s', r', hs', hr', hend, hcurrent⟩ := ih (tail.imp fun _ _ h => h.congr rfl) hbesides
      rw [hpaths]
      exact ⟨s', r', .bind hs hs', hr', hend, hcurrent⟩

/-! ## Passing on -/

/-- Under the paths of these files they come first. -/
def Leads (faulty : List Code) (ss : List Source) : Prop := ∀ c ∈ faulty, ss.find? (·.path == c.path) = some (.code c)

theorem Leads.append (h : Leads faulty ss) (more : List Source) : Leads faulty (ss ++ more) := by
  intro c hc
  rw [List.find?_append, h c hc, Option.some_or]

theorem Leads.rewrite (h : Leads faulty ss) (hcodes : codes.map (·.path) = paths) (hapart : ∀ c ∈ faulty, c.path ∉ paths) :
    Leads faulty (codes.map .code ++ otherSources paths ss) := by
  intro c hc
  rw [← hcodes] at hapart ⊢
  have hnone : (codes.map Source.code).find? (·.path == c.path) = none := by
    rw [List.find?_eq_none]
    rintro _ hx heq
    obtain ⟨d, hd, rfl⟩ := List.mem_map.mp hx
    exact hapart c hc (List.mem_map.mpr ⟨d, hd, by simpa [Source.path] using heq⟩)
  rw [List.find?_append, hnone, Option.none_or, find?_otherSources (hapart c hc)]
  exact h c hc

theorem preserved_leads (hapart : ∀ c ∈ faulty, c.path ∉ paths) : Preserved paths (Leads faulty) where
  library hss _ _ := hss.append _
  rewrite hss hcodes := hss.rewrite hcodes hapart

theorem leads_of_consistent (hcodes : Consistent codes) (hfaulty : ∀ c ∈ faulty, c ∈ codes) : Leads faulty (codes.map .code) := by
  intro c hc
  cases hfind : (codes.map Source.code).find? (·.path == c.path) with
  | none => exact absurd (by simp [Source.path]) (List.find?_eq_none.mp hfind (.code c) (List.mem_map_of_mem (hfaulty c hc)))
  | some x =>
    obtain ⟨d, hd, rfl⟩ := List.mem_map.mp (List.mem_of_find?_eq_some hfind)
    rw [hcodes.eq hd (hfaulty c hc) (by simpa [Source.path] using List.find?_some hfind)]

/-! ## Without programs -/

theorem transform_without_modules (hmodules : s.modules = []) (hsources : s.sources ≠ []) (hcurrent : s.current = none)
    (ws : List Worker) : (outcome (Pipeline.transform ws) s).1 = .error (.attribute (.ofObject "NoneType" "getFilepath")) := by
  obtain ⟨x, xs, hsources⟩ := List.exists_cons_of_ne_nil hsources
  cases s
  cases hmodules
  cases hsources
  cases hcurrent
  rfl

theorem transform_without_sources (hmodules : s.modules = []) (hsources : s.sources = []) (ws : List Worker) :
    (outcome (Pipeline.transform ws) s).2.sources = [] := by
  cases s
  cases hmodules
  cases hsources
  rfl

/-! ## Main statement -/

/-- Files that are no programs are passed on, if there is a program. Let files be read of which those with the same path have
the same text. If none of them is a program, the pipeline fails for want of a current source. Otherwise it ends like one over the
programs alone, with the same fault if there is one, and with the same modules; and if it returns, each file that is no program is
there exactly once, with its text. -/
theorem transform_passes_on {s₀ : Session} (hsources : s₀.sources = []) (hmodules : s₀.modules = []) (hcurrent : s₀.current = none)
    (hread : List.Forall₂ s₀.Reads paths codes) (hcodes : Consistent codes) (hws : ∀ w ∈ ws, w.kind ∈ PassKind.registered) :
    ∃ s r, Returns (paths.forM parseFile) s₀ () s ∧ Returns ((programPaths paths codes).forM parseFile) s₀ () r ∧
      (codes ≠ [] → (∀ c ∈ codes, c.isProgram = false) →
        (outcome (Pipeline.transform ws) s).1 = .error (.attribute (.ofObject "NoneType" "getFilepath"))) ∧
      ((codes ≠ [] → ∃ c ∈ codes, c.isProgram = true) →
        (outcome (Pipeline.transform ws) s).1 = (outcome (Pipeline.transform ws) r).1 ∧
        (outcome (Pipeline.transform ws) s).2.modules = (outcome (Pipeline.transform ws) r).2.modules ∧
        ∀ ws' s', Returns (Pipeline.transform ws) s ws' s' → ∀ c ∈ codes, c.isProgram = false →
          s'.sources.filter (·.path == c.path) = [.code c]) := by
  obtain ⟨s, r, hs, hr, hbesides, hcurrent'⟩ := read_besides hread (show s₀.Besides s₀ from rfl)
  obtain ⟨s', hs', hopens⟩ := opens_files (.start hsources hmodules) hread
  obtain rfl : s' = s := by simpa using hs'.symm.trans hs
  have hlisted := hopens.listed
  refine ⟨s', r, hs, hr, fun hsome hnone => ?_, fun hprogram => ?_⟩
  · have hempty : s'.modules.map (·.code) = [] := by
      rw [hlisted.2.1, List.filter_eq_nil_iff.mpr fun c hc => by simp [hnone c hc]]
      rfl
    exact transform_without_modules (List.map_eq_nil_iff.mp hempty) (by simpa [hlisted.1] using hsome) (hcurrent'.trans hcurrent) ws
  by_cases hsome : codes = []
  · subst hsome
    cases hread
    obtain rfl : s₀ = s' := (returns_pure.mp hs).2
    obtain rfl : s₀ = r := (returns_pure.mp hr).2
    simp
  have hholds := hopens.holds hcodes
  have hne : s'.modules.map (·.code.path) ≠ [] := by
    obtain ⟨c, hc, hprogram⟩ := hprogram hsome
    exact List.ne_nil_of_mem ((hholds.mem_modules _).mpr ⟨c, hc, hprogram, rfl⟩)
  obtain ⟨faulty, hfaulty⟩ : ∃ faulty : List Code, ∀ c, c ∈ faulty ↔ c ∈ codes ∧ c.isProgram = false :=
    ⟨codes.filter (!·.isProgram), by simp⟩
  have hapart : ∀ c ∈ faulty, c.path ∉ s'.modules.map (·.code.path) := by
    intro c hc hpath
    obtain ⟨hc, hnone⟩ := (hfaulty c).mp hc
    obtain ⟨d, hd, hprogram, heq⟩ := (hholds.mem_modules _).mp hpath
    rw [hcodes.eq hd hc heq, hnone] at hprogram
    cases hprogram
  have hJ := preserved_leads hapart
  have htends : Tends (s'.modules.map (·.code.path)) (Leads faulty) s' := by
    refine ⟨rfl, fun c hc => ?_, ?_⟩
    · rw [hcurrent', hcurrent] at hc
      cases hc
    · rw [hlisted.1]
      exact leads_of_consistent hcodes fun c hc => ((hfaulty c).mp hc).1
  obtain ⟨log, sources, hagain⟩ := ((steady_tends hJ hne).transform hws).again s' r.log r.sources htends
  rw [← show r = _ from hbesides] at hagain
  refine ⟨by rw [hagain], by rw [hagain], fun ws' s'' htransform c hc hnone => ?_⟩
  obtain ⟨ds, ss, hds, hss, heq⟩ := htends.transform hJ hne hws htransform
  have hnodup : (s''.sources.map Source.path).Nodup := by
    rw [heq, ← hds]
    exact nodup_of_paths (hds ▸ hholds.orderly.nodup)
  exact filter_of_mem hnodup (List.mem_of_find?_eq_some (heq ▸ hss.rewrite hds hapart c ((hfaulty c).mpr ⟨hc, hnone⟩)))

theorem transform_fails_on_brokenSession : ∃ s, Returns (["b.py"].forM parseFile) brokenSession () s ∧
    ∀ ws, (outcome (Pipeline.transform ws) s).1 = .error (.attribute (.ofObject "NoneType" "getFilepath")) := by
  obtain ⟨hfaulty, -⟩ := parse_brokenSession
  split at hfaulty
  · cases hfaulty
  next e hskip =>
    obtain ⟨cause, rfl⟩ := source_of_parse hskip
    refine ⟨_, .bind (parseFile_skips read_brokenSession.1 hskip) rfl, ?_⟩
    exact transform_without_modules rfl (by simp [Session.withSkipped]) rfl

set_option maxRecDepth 100000 in
theorem transform_brokenSession :
    (match Tree.parse 1 "x" with
      | .ok (t, n) =>
        (outcome (Pipeline.transform (PassKind.registered.map fun kind => { kind })) (brokenSession.withModule ⟨"a.py", "x"⟩ t n)).1.isOk
      | .error _ => false) = true := by
  decide +kernel

theorem transform_passes_on_brokenSession : ∃ s r ws' s',
    Returns (["b.py", "b.py", "a.py"].forM parseFile) brokenSession () s ∧ Returns (["a.py"].forM parseFile) brokenSession () r ∧
      Returns (Pipeline.transform (PassKind.registered.map fun kind => { kind })) s ws' s' ∧
      s'.modules = (outcome (Pipeline.transform (PassKind.registered.map fun kind => { kind })) r).2.modules ∧
      s'.sources.filter (·.path == "b.py") = [.code ⟨"b.py", "("⟩] := by
  have hread : List.Forall₂ brokenSession.Reads ["b.py", "b.py", "a.py"] [⟨"b.py", "("⟩, ⟨"b.py", "("⟩, ⟨"a.py", "x"⟩] :=
    .cons ⟨_, read_brokenSession.1, rfl⟩ (.cons ⟨_, read_brokenSession.1, rfl⟩ (.cons ⟨_, read_brokenSession.2, rfl⟩ .nil))
  have hkinds : Code.isProgram ⟨"b.py", "("⟩ = false ∧ Code.isProgram ⟨"a.py", "x"⟩ = true := by decide +kernel
  obtain ⟨s, r, hs, hr, -, hpasses⟩ := @transform_passes_on _ _ (PassKind.registered.map fun kind => { kind }) _ rfl rfl rfl
    hread (by simp [Consistent]) (by simp)
  obtain ⟨hsame, hmodules, hpassed⟩ := hpasses fun _ => ⟨⟨"a.py", "x"⟩, by simp, hkinds.2⟩
  have hpaths : programPaths ["b.py", "b.py", "a.py"] [⟨"b.py", "("⟩, ⟨"b.py", "("⟩, ⟨"a.py", "x"⟩] = ["a.py"] := by
    simp [programPaths, hkinds]
  rw [hpaths] at hr
  have hreturns := transform_brokenSession
  split at hreturns
  next t n hparse =>
    have hprogram : Returns (["a.py"].forM parseFile) brokenSession () (brokenSession.withModule ⟨"a.py", "x"⟩ t n) :=
      .bind (parseFile_returns read_brokenSession.2 hparse) rfl
    obtain rfl : r = brokenSession.withModule ⟨"a.py", "x"⟩ t n := by simpa using hr.symm.trans hprogram
    rw [← hsame] at hreturns
    cases hend : (outcome (Pipeline.transform (PassKind.registered.map fun kind => { kind })) s).1 with
    | error e => simp [hend, Except.isOk, Except.toBool] at hreturns
    | ok ws' =>
      have htransform := returns_of_ok hend
      exact ⟨s, _, ws', _, hs, hr, htransform, hmodules, hpassed _ _ htransform ⟨"b.py", "("⟩ (by simp) hkinds.1⟩
  · cases hreturns

end SourceOptimizer
