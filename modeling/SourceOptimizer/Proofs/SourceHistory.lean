import SourceOptimizer.Proofs.NormalRounds
import SourceOptimizer.Proofs.PathParts
import SourceOptimizer.Proofs.SourceUpdates

/-! What becomes of the files that were read. However the modules are worked on, whatever libraries come to them, and
however often they are written back: the sources stay in order, and none of them is lost or taken twice. -/
namespace SourceOptimizer
open Tree Work

variable {d : Code}

variable {c : Code} {n : Nat} {path text : String} {bytes : List Nat}

variable {s m s' : Session} {codes : List Code} {natives : List Source} {x : Source}

/-! ## Reading -/

def Code.isProgram (c : Code) : Bool := (parseSource c.text.toList).isOk

theorem isProgram_iff : c.isProgram = true ↔ ∃ t k, Tree.parse n c.text = .ok (t, k) := by
  unfold Code.isProgram Tree.parse
  cases parseSource c.text.toList with
  | ok t => simpa [Except.isOk, Except.toBool] using ⟨_, _, rfl⟩
  | error e => simp [Except.isOk, Except.toBool]

/-- Files are read one after the other, and nothing else is done to the sources and modules. -/
inductive Opens : List Code → Session → Prop
  | start {s : Session} (hsources : s.sources = []) (hmodules : s.modules = []) : Opens [] s
  | other {codes : List Code} {s m : Session} (before : Opens codes s) (hsources : m.sources = s.sources)
      (hmodules : m.modules = s.modules) : Opens codes m
  | file {codes : List Code} {s m : Session} {path text : String} (before : Opens codes s)
      (htext : Returns (readText path) s text s) (hfile : Returns (parseFile path) s () m) :
      Opens (codes ++ [fileCode path text]) m

theorem codes_addProgram (programs : List Program) (code : Code) (t : Tree) :
    (addProgram programs code t).map (·.code) =
      if code ∈ programs.map (·.code) then programs.map (·.code) else programs.map (·.code) ++ [code] := by
  have hany : programs.any (·.code == code) = true ↔ code ∈ programs.map (·.code) := by simp
  unfold addProgram
  by_cases hmem : code ∈ programs.map (·.code)
  · rw [if_pos (hany.mpr hmem), if_pos hmem, List.map_map]
    refine List.map_congr_left fun p _ => ?_
    rw [Function.comp_apply]
    split <;> rfl
  · rw [if_neg (fun h => hmem (hany.mp h)), if_neg hmem, List.map_append, List.map_singleton]

theorem parseFile_adds (htext : Returns (readText path) s text s) (h : Returns (parseFile path) s () m) :
    m.sources = s.sources ++ [.code (fileCode path text)] ∧
      m.modules.map (·.code) = if (fileCode path text).isProgram ∧ fileCode path text ∉ s.modules.map (·.code)
        then s.modules.map (·.code) ++ [fileCode path text] else s.modules.map (·.code) := by
  obtain ⟨text', log, htext', hcase⟩ := returns_parseFile h
  obtain rfl : text' = text := by simpa using htext'.symm.trans htext
  rcases hcase with ⟨t, n, hparse, rfl⟩ | ⟨⟨e, hparse⟩, rfl⟩
  · have hprogram : (fileCode path text').isProgram = true := isProgram_iff.mpr ⟨t, n, hparse⟩
    refine ⟨rfl, (codes_addProgram _ _ _).trans ?_⟩
    by_cases hmem : fileCode path text' ∈ s.modules.map (·.code) <;> simp only [hmem, hprogram] <;> simp
  · have hprogram : ¬(fileCode path text').isProgram = true := by
      rw [isProgram_iff (n := s.store.next)]
      rintro ⟨t, k, hok⟩
      cases hparse.symm.trans hok
    exact ⟨rfl, by simp [hprogram]⟩

theorem eraseDups_concat (codes : List Code) (c : Code) :
    (codes ++ [c]).eraseDups = if c ∈ codes then codes.eraseDups else codes.eraseDups ++ [c] := by
  rw [List.eraseDups_append]
  by_cases hc : c ∈ codes
  · simp [hc, List.removeAll]
  · simp [hc, List.removeAll, List.eraseDups_cons]

/-- The files are the sources, and those that are programs are the modules, each once and in the order they were read. -/
theorem Opens.listed (h : Opens codes s) :
    s.sources = codes.map .code ∧ s.modules.map (·.code) = (codes.filter Code.isProgram).eraseDups ∧ (s.modules.map (·.code)).Nodup := by
  induction h with
  | start hsources hmodules => simp [hsources, hmodules]
  | other before hsources hmodules ih => rwa [hsources, hmodules]
  | @file codes s m path text before htext hfile ih =>
    obtain ⟨hsources, hmodules, hnodup⟩ := ih
    obtain ⟨hsources', hmodules'⟩ := parseFile_adds htext hfile
    refine ⟨by rw [hsources', hsources, List.map_append, List.map_singleton], ?_, ?_⟩
    · rw [hmodules', List.filter_append]
      by_cases hprogram : (fileCode path text).isProgram = true
      · simp only [hprogram, List.filter_cons_of_pos, List.filter_nil, eraseDups_concat, hmodules, List.mem_eraseDups,
          true_and, ite_not]
      · simp [hprogram, hmodules]
    · rw [hmodules']
      split
      next hnew => exact hnodup.append (List.nodup_singleton _) (by simpa using hnew.2)
      · exact hnodup

theorem source_of_parse {e : Fault} (h : Tree.parse n text = .error e) : ∃ cause, e = .source cause := by
  unfold Tree.parse at h
  split at h <;> cases h
  exact ⟨_, rfl⟩

def Session.withSkipped (s : Session) (path : String) (code : Code) (cause : SyntaxCause) : Session where
  __ := s
  sources := s.sources ++ [.code code]
  log := (s.log.write .warn ["Failed to parse " ++ path ++ ". skipped."]).write .debug
    [cause.className, ": ", "invalid syntax (<unknown>, line 1)"]

theorem parseFile_skips {cause : SyntaxCause} (htext : Returns (readText path) s text s)
    (hparse : Tree.parse s.store.next text = .error (.source cause)) :
    Returns (parseFile path) s () (s.withSkipped path (fileCode path text) cause) := by
  have hfault (m : Session) (hnext : m.store.next = s.store.next) : outcome (Work.parse text) m = (.error (.source cause), m) := by
    have hget : outcome (get : Work Session) m = (.ok m, m) := rfl
    rw [Work.parse, outcome_bind, hget]
    simp only [hnext, hparse]
    rfl
  refine .bind htext (.bind rfl (returns_tryCatch.mpr
    (.inr ⟨.source cause, { s with sources := s.sources ++ [.code (fileCode path text)] }, ?_, ?_⟩)))
  · rw [outcome_bind]
    have hparse' := hfault { s with sources := s.sources ++ [.code (fileCode path text)] } rfl
    simp only [fileCode] at hparse' ⊢
    rw [hparse']
  · exact .bind rfl rfl

theorem parseFile_completes (htext : Returns (readText path) s text s) :
    ∃ s', Returns (parseFile path) s () s' ∧ s'.files = s.files := by
  cases hparse : Tree.parse s.store.next text with
  | ok r => exact ⟨_, parseFile_returns htext hparse, rfl⟩
  | error e =>
    obtain ⟨cause, rfl⟩ := source_of_parse hparse
    exact ⟨_, parseFile_skips htext hparse, rfl⟩

def Session.Reads (s : Session) (path : String) (c : Code) : Prop := ∃ text, Returns (readText path) s text s ∧ c = fileCode path text

theorem readText_of_bytes {text : Text} (hread : s.files.read path = .ok bytes)
    (hdecode : Text.decodeUtf8 bytes = .ok text) : Returns (readText path) s (Text.display (unifyLines text)) s := by
  refine .bind rfl ?_
  simp only [hread, hdecode]
  exact rfl

theorem readText_congr (htext : Returns (readText path) s text s) (hfiles : m.files = s.files) :
    Returns (readText path) m text m := by
  have hrest := returns_get_bind.mp htext
  refine .bind rfl ?_
  rw [hfiles]
  split at hrest
  · exact absurd hrest returns_throw
  · exact absurd hrest returns_throw
  next bytes hbytes =>
    split at hrest
    next decoded hdecoded =>
      cases hrest
      exact rfl
    · exact absurd hrest returns_throw

theorem Session.Reads.congr (h : s.Reads path c) (hfiles : m.files = s.files) : m.Reads path c := by
  obtain ⟨text, htext, rfl⟩ := h
  exact ⟨text, readText_congr htext hfiles, rfl⟩

theorem opens_files {paths : List String} {more : List Code} (hopens : Opens codes s) (hread : List.Forall₂ s.Reads paths more) :
    ∃ s', Returns (paths.forM parseFile) s () s' ∧ Opens (codes ++ more) s' := by
  induction paths generalizing codes s more with
  | nil =>
    cases hread
    exact ⟨s, rfl, by rwa [List.append_nil]⟩
  | cons path paths ih =>
    obtain _ | ⟨⟨text, htext, rfl⟩, tail⟩ := hread
    obtain ⟨m, hfile, hfiles⟩ := parseFile_completes htext
    have htail := tail.imp fun _ _ h => Session.Reads.congr (m := m) h hfiles
    obtain ⟨s', hrest, hopens'⟩ := ih (.file hopens htext hfile) htail
    rw [List.append_assoc, List.singleton_append] at hopens'
    exact ⟨s', .bind hfile hrest, hopens'⟩

/-! ## Working on what was read -/

/-- What a session can go through after its files were read: its modules are worked on, libraries are added, and the
modules are written back. -/
inductive Develops (s : Session) : List Source → Session → Prop
  | refl : Develops s [] s
  | work {natives : List Source} {m m' : Session} (before : Develops s natives m) (hsources : m'.sources = m.sources)
      (hmodules : m'.modules.map (·.code) = m.modules.map (·.code)) : Develops s natives m'
  | library {natives : List Source} {m : Session} {path : String} {bytes : List Nat} (before : Develops s natives m)
      (hnew : path ∉ m.sources.map Source.path) :
      Develops s (natives ++ [.native path bytes]) { m with sources := m.sources ++ [.native path bytes] }
  | update {natives : List Source} {m m' : Session} (before : Develops s natives m) (hupdate : Returns updateSources m () m') :
      Develops s natives m'

theorem Session.Orderly.congr (h : s.Orderly) (hsources : m.sources = s.sources)
    (hmodules : m.modules.map (·.code) = s.modules.map (·.code)) : m.Orderly where
  nodup := by
    have hpaths : m.modules.map (·.code.path) = s.modules.map (·.code.path) := by
      simpa [Function.comp_def] using congrArg (List.map Code.path) hmodules
    exact hpaths ▸ h.nodup
  listed := by
    intro p hp
    have hcode : p.code ∈ s.modules.map (·.code) := hmodules ▸ List.mem_map_of_mem hp
    obtain ⟨q, hq, heq⟩ := List.mem_map.mp hcode
    rw [hsources, ← heq]
    exact h.listed q hq
  agreeing := hsources ▸ h.agreeing

theorem Session.Orderly.library (h : s.Orderly) (hnew : path ∉ s.sources.map Source.path) :
    Session.Orderly { s with sources := s.sources ++ [.native path bytes] } where
  nodup := h.nodup
  listed := fun p hp => List.mem_append_left _ (h.listed p hp)
  agreeing := by
    have hother (y : Source) (hy : y ∈ s.sources) : y.path ≠ path := fun heq => hnew (List.mem_map.mpr ⟨y, hy, heq⟩)
    intro x hx y hy heq
    rcases List.mem_append.mp hx with hx | hx <;> rcases List.mem_append.mp hy with hy | hy
    · exact h.agreeing x hx y hy heq
    · obtain rfl := List.mem_singleton.mp hy
      exact absurd heq (hother x hx)
    · obtain rfl := List.mem_singleton.mp hx
      exact absurd heq.symm (hother y hy)
    · rw [List.mem_singleton.mp hx, List.mem_singleton.mp hy]

/-- The files that were read and the libraries that were added are there, each under its path: programs as modules and
in the order they were read, all others as they came. -/
structure Session.Holds (s : Session) (codes : List Code) (natives : List Source) : Prop where
  orderly : s.Orderly
  modules : s.modules.map (·.code.path) = (codes.filter Code.isProgram).eraseDups.map (·.path)
  paths : ∀ path, path ∈ s.sources.map Source.path ↔ path ∈ codes.map (·.path) ∨ path ∈ natives.map Source.path
  faulty : ∀ c ∈ codes, c.isProgram = false → .code c ∈ s.sources
  libraries : ∀ x ∈ natives, x ∈ s.sources
  apart : ∀ x ∈ natives, x.path ∉ codes.map (·.path)

def Consistent (codes : List Code) : Prop := ∀ c ∈ codes, ∀ d ∈ codes, c.path = d.path → c.text = d.text

theorem Consistent.eq (h : Consistent codes) (hc : c ∈ codes) (hd : d ∈ codes) (hpath : c.path = d.path) : c = d := by
  have htext := h c hc d hd hpath
  obtain ⟨path, text⟩ := c
  cases hpath
  cases htext
  rfl

theorem Session.Holds.mem_modules (h : s.Holds codes natives) (path : String) :
    path ∈ s.modules.map (·.code.path) ↔ ∃ c ∈ codes, c.isProgram = true ∧ c.path = path := by
  rw [h.modules]
  simp [List.mem_eraseDups, and_assoc]

theorem Opens.holds (h : Opens codes s) (hcodes : Consistent codes) : s.Holds codes [] := by
  obtain ⟨hsources, hmodules, hnodup⟩ := h.listed
  have hpaths : s.modules.map (·.code.path) = (codes.filter Code.isProgram).eraseDups.map (·.path) := by
    rw [← hmodules, List.map_map]
    rfl
  have hmem (c : Code) (hc : c ∈ s.modules.map (·.code)) : c ∈ codes := by
    rw [hmodules, List.mem_eraseDups] at hc
    exact (List.mem_filter.mp hc).1
  refine ⟨⟨?_, fun p hp => ?_, ?_⟩, hpaths, fun path => ?_, fun c hc _ => ?_, by simp, by simp⟩
  · have hinj : ∀ c ∈ s.modules.map (·.code), ∀ d ∈ s.modules.map (·.code), c.path = d.path → c = d :=
      fun c hc d hd => hcodes.eq (hmem c hc) (hmem d hd)
    simpa [Function.comp_def] using hnodup.map_on hinj
  · rw [hsources]
    exact List.mem_map_of_mem (hmem _ (List.mem_map_of_mem hp))
  · rw [hsources]
    rintro _ hx _ hy heq
    obtain ⟨c, hc, rfl⟩ := List.mem_map.mp hx
    obtain ⟨d, hd, rfl⟩ := List.mem_map.mp hy
    rw [hcodes.eq hc hd heq]
  · simp [hsources, Source.path]
  · rw [hsources]
    exact List.mem_map_of_mem hc

/-- Writing the modules back loses nothing of what was read or added. -/
theorem Session.Holds.update (h : s.Holds codes natives) (hcodes : Consistent codes) (hupdate : Returns updateSources s () s') :
    s'.Holds codes natives := by
  obtain ⟨hrewrites, horderly⟩ := updateSources_rewrites h.orderly hupdate
  have hmodules : s'.modules.map (·.code.path) = s.modules.map (·.code.path) := by
    simpa [Function.comp_def] using congrArg (List.map Prod.fst) hrewrites.modules
  refine ⟨horderly, hmodules.trans h.modules, fun path => (hrewrites.paths path).trans (h.paths path), fun c hc hfaulty => ?_,
    fun x hx => ?_, h.apart⟩
  · refine hrewrites.others _ (h.faulty c hc hfaulty) fun hpath => ?_
    -- a program under this path would be the same text
    obtain ⟨d, hd, hprogram, heq⟩ := (h.mem_modules _).mp hpath
    rw [hcodes.eq hd hc heq] at hprogram
    exact Bool.false_ne_true (hfaulty.symm.trans hprogram)
  · refine hrewrites.others x (h.libraries x hx) fun hpath => ?_
    obtain ⟨d, hd, -, heq⟩ := (h.mem_modules _).mp hpath
    exact h.apart x hx (List.mem_map.mpr ⟨d, hd, heq⟩)

theorem Develops.holds (h : Develops s natives m) (hs : s.Holds codes []) (hcodes : Consistent codes) : m.Holds codes natives := by
  induction h with
  | refl => exact hs
  | @work natives m m' before hsources hmodules ih =>
    have hpaths : m'.modules.map (·.code.path) = m.modules.map (·.code.path) := by
      simpa [Function.comp_def] using congrArg (List.map Code.path) hmodules
    exact ⟨ih.orderly.congr hsources hmodules, hpaths.trans ih.modules, hsources ▸ ih.paths, hsources ▸ ih.faulty,
      hsources ▸ ih.libraries, ih.apart⟩
  | @library natives m path bytes before hnew ih =>
    refine ⟨ih.orderly.library hnew, ih.modules, fun other => ?_, fun c hc hfaulty => ?_, fun x hx => ?_, fun x hx => ?_⟩
    · rw [List.map_append, List.map_append, List.mem_append, List.mem_append, ih.paths, or_assoc]
    · exact List.mem_append_left _ (ih.faulty c hc hfaulty)
    · exact (List.mem_append.mp hx).elim (fun hx => List.mem_append_left _ (ih.libraries x hx)) (List.mem_append_right _)
    · rcases List.mem_append.mp hx with hx | hx
      · exact ih.apart x hx
      · rw [List.mem_singleton.mp hx]
        exact fun hpath => hnew ((ih.paths path).mpr (.inl hpath))
  | update before hupdate ih => exact ih.update hcodes hupdate

/-! ## Main statement -/

/-- Writing the modules back neither loses nor doubles a source. Let files be read of which those with the same path have
the same text, and let the modules be worked on, libraries be added under new paths and modules be written back any number
of times. With a current source among the sources, writing back then returns if and only if all modules can be printed.
Afterwards the paths are the same and each is there once. A module and its source carry the text of its tree. All
other sources, so files that are no programs and libraries, are as they were, and modules come first, in the order they
were read. -/
theorem updateSources_keeps_sources {c d : Code} (hread : Opens codes s) (hcodes : Consistent codes) (hm : Develops s natives m)
    (hcurrent : m.current = some c) (hd : .code d ∈ m.sources) (hpath : d.path = c.path) :
    ((∃ m', Returns updateSources m () m') ↔ ∀ p ∈ m.modules, ∃ text, (m.store.expand p.tree).print = .ok text) ∧
      ∀ m', Returns updateSources m () m' → m.Rewrites m' ∧ m'.Holds codes natives := by
  have hholds := hm.holds (hread.holds hcodes) hcodes
  refine ⟨updateSources_returns_iff hholds.orderly hcurrent hd hpath, fun m' hupdate => ?_⟩
  exact ⟨(updateSources_rewrites hholds.orderly hupdate).1, hholds.update hcodes hupdate⟩

def brokenSession : Session :=
  { files := { files := [(["a.py"], Code.bytes ⟨"a.py", "x"⟩), (["b.py"], Code.bytes ⟨"b.py", "("⟩)] } }

theorem parse_brokenSession :
    (match Tree.parse 1 "(" with
      | .ok _ => false
      | .error _ => true) = true ∧
    (match Tree.parse 1 "x" with
      | .ok (t, _) => t.print.isOk
      | .error _ => false) = true := by
  decide +kernel

theorem read_brokenSession : Returns (readText "b.py") brokenSession "(" brokenSession ∧ Returns (readText "a.py") brokenSession "x" brokenSession := by
  have hb : brokenSession.files.read "b.py" = .ok [40] := by
    simp only [Files.read, Path.ofString_eq]
    rfl
  have ha : brokenSession.files.read "a.py" = .ok [120] := by
    simp only [Files.read, Path.ofString_eq]
    rfl
  exact ⟨readText_of_bytes hb rfl, readText_of_bytes ha rfl⟩

theorem opens_brokenSession : ∃ (s : Session) (t : Tree) (text : String),
    Opens [⟨"b.py", "("⟩, ⟨"b.py", "("⟩, ⟨"a.py", "x"⟩] s ∧ s.modules = [⟨⟨"a.py", "x"⟩, t⟩] ∧ refs t = [] ∧ t.print = .ok text := by
  obtain ⟨hfaulty, hprogram⟩ := parse_brokenSession
  split at hfaulty
  · cases hfaulty
  next e hskip =>
    split at hprogram
    next t n hparse =>
      obtain ⟨cause, rfl⟩ := source_of_parse hskip
      obtain ⟨text, hprint⟩ : ∃ text, t.print = .ok text := by
        cases hprint : t.print with
        | ok text => exact ⟨text, rfl⟩
        | error e => simp [hprint, Except.isOk, Except.toBool] at hprogram
      have hb {m : Session} (hfiles : m.files = brokenSession.files) : Returns (readText "b.py") m "(" m :=
        readText_congr read_brokenSession.1 hfiles
      have ha {m : Session} (hfiles : m.files = brokenSession.files) : Returns (readText "a.py") m "x" m :=
        readText_congr read_brokenSession.2 hfiles
      have hopens := Opens.start (s := brokenSession) rfl rfl
      have hopens := hopens.file (hb rfl) (parseFile_skips (hb rfl) hskip)
      have hopens := hopens.file (hb rfl) (parseFile_skips (hb rfl) hskip)
      have hopens := hopens.file (ha rfl) (parseFile_returns (ha rfl) hparse)
      have hcodes : fileCode "a.py" "x" = ⟨"a.py", "x"⟩ ∧ fileCode "b.py" "(" = ⟨"b.py", "("⟩ := by
        constructor <;> rfl
      exact ⟨_, t, text, hopens, rfl, refs_of_mem (parse_standing hparse).1.plain (by simp), hprint⟩
    · cases hprogram

theorem updateSources_keeps_sources_brokenSession : ∃ s m m' : Session,
    Opens [⟨"b.py", "("⟩, ⟨"b.py", "("⟩, ⟨"a.py", "x"⟩] s ∧ Develops s [.native "lib.so" [1]] m ∧ m.current = some ⟨"a.py", "x"⟩ ∧
      Returns updateSources m () m' ∧ m.Rewrites m' ∧ m'.Holds [⟨"b.py", "("⟩, ⟨"b.py", "("⟩, ⟨"a.py", "x"⟩] [.native "lib.so" [1]] := by
  obtain ⟨s, t, text, hopens, hmodules, hplain, hprint⟩ := opens_brokenSession
  have hsources := hopens.listed.1
  have hnew : "lib.so" ∉ s.sources.map Source.path := by
    rw [hsources]
    decide
  have hm : Develops s [.native "lib.so" [1]]
      { s with sources := s.sources ++ [.native "lib.so" [1]], current := some ⟨"a.py", "x"⟩ } :=
    .work (.library .refl hnew) rfl rfl
  have hmain := updateSources_keeps_sources (d := ⟨"a.py", "x"⟩) hopens (by simp [Consistent]) hm rfl (by simp [hsources]) rfl
  obtain ⟨m', hupdate⟩ := hmain.1.mpr fun p hp => by
    obtain rfl : p = ⟨⟨"a.py", "x"⟩, t⟩ := by simpa [hmodules] using hp
    exact ⟨text, by rwa [Store.expand_plain _ hplain]⟩
  exact ⟨s, _, m', hopens, hm, rfl, hupdate, hmain.2 m' hupdate⟩

end SourceOptimizer
