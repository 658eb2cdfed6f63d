import SourceOptimizer.Proofs.Confluence
import SourceOptimizer.Proofs.SkippedFiles

/-! Files are worked on independently at the first two levels: all modules take part in every round, but where
the rounds end is the normal form of what was read. -/
namespace SourceOptimizer
open Tree Work

variable {paths : List String}

variable {s s' m : Session} {codes : List Code} {c : Code} {p : Program} {ws ws' vs : List Worker} {raw : Tree}

def Program.IsRead (p : Program) : Prop := ∃ n k, Tree.parse n p.code.text = .ok (p.tree, k)

theorem Opens.isRead (h : Opens codes s) : ∀ p ∈ s.modules, p.IsRead := by
  induction h with
  | start _ hmodules => simp [hmodules]
  | other _ _ hmodules ih => rwa [hmodules]
  | file _ _ hfile ih =>
    obtain ⟨text, log, -, ⟨t, n, hparse, rfl⟩ | ⟨-, rfl⟩⟩ := returns_parseFile hfile
    · intro p hp
      rcases mem_addProgram hp with hp | rfl
      · exact ih p hp
      · exact ⟨_, n, hparse⟩
    · exact ih

theorem Program.IsRead.normal (h : p.IsRead) (aim : Aim) :
    ∃ raw, parseSource p.code.text.toList = .ok raw ∧ Tree.normal aim p.tree = Tree.normal aim raw := by
  obtain ⟨n, k, hparse⟩ := h
  unfold Tree.parse at hparse
  split at hparse
  next raw hraw =>
    have hnumber : raw.number n = (p.tree, k) := Except.ok.inj hparse
    exact ⟨raw, hraw, by rw [← normal_number raw n, hnumber]⟩
  · cases hparse

theorem exists_of_forall₂ {α β : Type} {R : α → β → Prop} {xs : List α} {ys : List β} (h : List.Forall₂ R xs ys) {x : α}
    (hx : x ∈ xs) : ∃ y ∈ ys, R x y := by
  induction h with
  | nil => cases hx
  | cons head _ ih =>
    rcases List.mem_cons.mp hx with rfl | hx
    · exact ⟨_, by simp, head⟩
    · obtain ⟨y, hy, hxy⟩ := ih hx
      exact ⟨y, by simp [hy], hxy⟩

namespace Pipeline

theorem updateSources_filter (hs : s.Plain) (hnodup : (s.modules.map (·.code.path)).Nodup) (h : Returns updateSources s () s')
    (hp : p ∈ s.modules) : ∃ text, p.tree.print = .ok text ∧
      s'.sources.filter (·.path == p.code.path) = [.code ⟨p.code.path, text⟩] := by
  rcases returns_updateSources.mp h with ⟨hmodules, -, -⟩ | ⟨-, qs, c, x, hqs, -, -, rfl⟩
  · simp [hmodules] at hp
  · obtain ⟨⟨⟨path, text⟩, tree⟩, hq, htext, hpath, -⟩ := exists_of_forall₂ ((forall₂_writes hs).mp hqs) hp
    obtain rfl : path = p.code.path := hpath
    exact ⟨text, htext, filter_of_mem (nodup_rewritten hnodup hqs) (mem_rewritten.mpr (.inl ⟨_, hq, rfl⟩))⟩

theorem Transforms.text (hs : s.Stands) (hnodup : (s.modules.map (·.code.path)).Nodup) (hlevel : s.level = 0 ∨ s.level = 1)
    (hws : ws.map (·.kind) = PassKind.registered) (h : Transforms ws s s') (hp : p ∈ s.modules) : ∃ n t text,
      Standing n [t] ∧ t.lined 1 = t ∧ t.bare = Pass.single (Tree.normal s.aim p.tree) ∧ t.print = .ok text ∧
        s'.sources.filter (·.path == p.code.path) = [.code ⟨p.code.path, text⟩] := by
  have hle : s.level ≤ 1 := by omega
  obtain ⟨n, ws₁, ws', m, hends, hconclude⟩ := h
  have hupholds := ends_upholds hs hle hends
  obtain ⟨houtline, hlined⟩ := results_of_ends hlevel (.inl hws) hs hends
  obtain ⟨-, hupdate⟩ := (returns_conclude (by rw [hupholds.level]; exact hle)).mp hconclude
  have hmem : (p.code, Pass.single (Tree.normal s.aim p.tree)) ∈ m.outline := by
    rw [houtline]
    exact List.mem_map_of_mem hp
  obtain ⟨q, hq, heq⟩ := List.mem_map.mp hmem
  obtain ⟨hcode, hbare⟩ := Prod.ext_iff.mp heq
  have hpaths : (closing n m).modules.map (·.code.path) = s.modules.map (·.code.path) := by
    have hcodes := congrArg (List.map (·.1.path)) houtline
    simpa [closing, Session.outline, Function.comp_def] using hcodes
  obtain ⟨text, hprint, hfilter⟩ := updateSources_filter (s := closing n m)
    ⟨hupholds.stands.plain.store, hupholds.stands.plain.modules⟩ (hpaths ▸ hnodup) hupdate hq
  have hcode : q.code = p.code := hcode
  rw [hcode] at hfilter
  exact ⟨_, q.tree, text, (hupholds.stands.modules q hq).1, hlined q hq, hbare, hprint, hfilter⟩

end Pipeline

theorem Opens.text (hopens : Opens codes s) (hs : s.Stands) (hnodup : (codes.map (·.path)).Nodup) (hlevel : s.level = 0 ∨ s.level = 1)
    (hws : ws.map (·.kind) = PassKind.registered) (h : Pipeline.Transforms ws s s') (hc : c ∈ codes) (hprogram : c.isProgram = true) :
    ∃ raw n t text, parseSource c.text.toList = .ok raw ∧ Standing n [t] ∧ t.lined 1 = t ∧ t.bare = Pass.single (Tree.normal s.aim raw) ∧
      t.print = .ok text ∧ s'.sources.filter (·.path == c.path) = [.code ⟨c.path, text⟩] := by
  obtain ⟨-, hmodules, hcodes⟩ := hopens.listed
  have hmem (d : Code) : d ∈ s.modules.map (·.code) ↔ d ∈ codes ∧ d.isProgram = true := by
    rw [hmodules, List.mem_eraseDups, List.mem_filter]
  obtain ⟨p, hp, rfl⟩ := List.mem_map.mp ((hmem c).mpr ⟨hc, hprogram⟩)
  have hpaths : (s.modules.map (·.code.path)).Nodup := by
    have hnodup' := hcodes.map_on fun d hd e he => List.inj_on_of_nodup_map hnodup ((hmem d).mp hd).1 ((hmem e).mp he).1
    rwa [List.map_map] at hnodup'
  obtain ⟨raw, hraw, hnormal⟩ := (hopens.isRead p hp).normal s.aim
  obtain ⟨n, t, text, ht⟩ := h.text hs hpaths hlevel hws hp
  exact ⟨raw, n, t, text, hraw, hnormal ▸ ht⟩

/-- At the first two levels each file comes out as it does when it is the only one, whatever the others contain and
in whatever order they are read. -/
theorem files_independent {s₀ : Session} {paths : List String} (hstore : s₀.store.Empty) (hsources : s₀.sources = [])
    (hmodules : s₀.modules = []) (hlevel : s₀.level = 0 ∨ s₀.level = 1) (hread : List.Forall₂ s₀.Reads paths codes)
    (hprograms : ∀ c ∈ codes, c.isProgram = true) (hnodup : (codes.map (·.path)).Nodup)
    (hws : ws.map (·.kind) = PassKind.registered) (hvs : vs.map (·.kind) = PassKind.registered) :
    ∃ s, Returns (paths.forM parseFile) s₀ () s ∧ ∀ s', Pipeline.Transforms ws s s' →
      ∀ path c, (path, c) ∈ paths.zip codes → ∃ r, Returns ([path].forM parseFile) s₀ () r ∧
        ∀ r', Pipeline.Transforms vs r r' → ∃ text, s'.sources.filter (·.path == c.path) = [.code ⟨c.path, text⟩] ∧
          r'.sources.filter (·.path == c.path) = [.code ⟨c.path, text⟩] := by
  have hstands₀ : s₀.Stands := ⟨hstore, by simp [hmodules]⟩
  obtain ⟨s, hs, hopens⟩ := opens_files (.start hsources hmodules) hread
  refine ⟨s, hs, fun s' h path c hmem => ?_⟩
  have hc : c ∈ codes := (List.of_mem_zip hmem).2
  obtain ⟨r, hr, hopens'⟩ := opens_files (.start hsources hmodules) (.cons (List.forall₂_zip hread hmem) .nil)
  refine ⟨r, hr, fun r' h' => ?_⟩
  obtain ⟨hstands, hat⟩ := parseFiles_stands hstands₀ hs
  obtain ⟨hstands', hat'⟩ := parseFiles_stands hstands₀ hr
  obtain ⟨raw, n, t, text, hraw, ht, hlined, hbare, hprint, hfilter⟩ :=
    hopens.text hstands hnodup (hat ▸ hlevel) hws h hc (hprograms c hc)
  obtain ⟨raw', n', u, text', hraw', hu, hlined', hbare', hprint', hfilter'⟩ :=
    hopens'.text hstands' (by simp) (hat' ▸ hlevel) hvs h' (by simp) (hprograms c hc)
  obtain rfl : raw = raw' := Except.ok.inj (hraw.symm.trans hraw')
  have haim : s.aim = r.aim := by rw [Session.aim, hat, Session.aim, hat']
  have hsame := print_of_bare ht hu hlined hlined' (by rw [hbare, hbare', haim])
  obtain rfl : text = text' := Except.ok.inj (hprint.symm.trans (hsame.trans hprint'))
  exact ⟨text, hfilter, hfilter'⟩

def readAll (s : Session) : List Code → Option Session
  | [] => some s
  | c :: codes => (Tree.parse s.store.next c.text).toOption.bind fun (t, n) => readAll (s.withModule c t n) codes

def Session.settles (s : Session) (codes : List Code) : Bool :=
  (readAll s codes).any fun s =>
    (outcome (Pipeline.transform (PassKind.registered.map fun kind => { kind })) s).1.isOk && s.weight < Pipeline.maxCycles

theorem returns_readAll (hread : List.Forall₂ s.Reads paths codes) (h : readAll s codes = some m) :
    Returns (paths.forM parseFile) s () m := by
  induction paths generalizing s codes with
  | nil =>
    cases hread
    exact returns_pure.mpr ⟨rfl, Option.some.inj h⟩
  | cons path paths ih =>
    obtain _ | @⟨_, _, _, codes, ⟨text, htext, rfl⟩, tail⟩ := hread
    obtain ⟨⟨t, n⟩, hparse, h⟩ := Option.bind_eq_some_iff.mp h
    have hparse : Tree.parse s.store.next text = .ok (t, n) := by
      change (Tree.parse s.store.next text).toOption = _ at hparse
      cases hread : Tree.parse s.store.next text <;> simp_all [Except.toOption]
    exact .bind (parseFile_returns htext hparse) (ih (tail.imp fun _ _ h => h.congr rfl) h)

theorem transforms_of_settles (hs : s.Stands) (hlevel : s.level ≤ 1) (hread : List.Forall₂ s.Reads paths codes)
    (h : s.settles codes = true) : ∃ m s', Returns (paths.forM parseFile) s () m ∧
      Pipeline.Transforms (PassKind.registered.map fun kind => { kind }) m s' := by
  obtain ⟨m, hm, hrests⟩ := (Option.any_eq_true _ _).mp h
  obtain ⟨hok, hweight⟩ := (Bool.and_eq_true _ _).mp hrests
  have hreturns := returns_readAll hread hm
  obtain ⟨hstands, hat⟩ := parseFiles_stands hs hreturns
  cases hend : (outcome (Pipeline.transform (PassKind.registered.map fun kind => { kind })) m).1 with
  | error e => simp [hend, Except.isOk, Except.toBool] at hok
  | ok ws' => exact ⟨m, _, hreturns, (Pipeline.transforms_iff hstands.plain (hat ▸ hlevel) (of_decide_eq_true hweight)).mpr
      ⟨ws', returns_of_ok hend⟩⟩

def summing : Code := ⟨"n.py", "y = 1 + (2 + 3)"⟩

def twoFiles : Session := { level := 1, files := { files := [(["m.py"], branching.bytes), (["n.py"], summing.bytes)] } }

set_option maxRecDepth 100000 in
theorem settles_twoFiles : twoFiles.settles [branching, summing] = true ∧ twoFiles.settles [summing] = true := by decide +kernel

theorem files_independent_twoFiles : ∃ s s' r r', Returns (["m.py", "n.py"].forM parseFile) twoFiles () s ∧
    Pipeline.Transforms (PassKind.registered.map fun kind => { kind }) s s' ∧ Returns (["n.py"].forM parseFile) twoFiles () r ∧
    Pipeline.Transforms (PassKind.registered.map fun kind => { kind }) r r' ∧
    ∃ text, s'.sources.filter (·.path == "n.py") = [.code ⟨"n.py", text⟩] ∧
      r'.sources.filter (·.path == "n.py") = [.code ⟨"n.py", text⟩] := by
  have hstore : twoFiles.store.Empty := fun id => by simp [twoFiles, Store.view]
  have hstands : twoFiles.Stands := ⟨hstore, by simp [twoFiles]⟩
  have hbytes : twoFiles.files.read "m.py" = .ok branching.bytes ∧ twoFiles.files.read "n.py" = .ok summing.bytes := by
    simp only [Files.read, Path.ofString_eq]
    exact ⟨rfl, rfl⟩
  have hone : twoFiles.Reads "n.py" summing := ⟨_, readText_of_bytes hbytes.2 rfl, rfl⟩
  have hread : List.Forall₂ twoFiles.Reads ["m.py", "n.py"] [branching, summing] :=
    .cons ⟨_, readText_of_bytes hbytes.1 rfl, rfl⟩ (.cons hone .nil)
  obtain ⟨s, s', hs, hs'⟩ := transforms_of_settles hstands (by decide) hread settles_twoFiles.1
  obtain ⟨r, r', hr, hr'⟩ := transforms_of_settles hstands (by decide) (.cons hone .nil) settles_twoFiles.2
  have hprograms : ∀ c ∈ [branching, summing], c.isProgram = true := by decide +kernel
  have hkinds : (PassKind.registered.map fun kind => ({ kind } : Worker)).map (·.kind) = PassKind.registered := rfl
  obtain ⟨m, hm, hsame⟩ := files_independent hstore rfl rfl (.inr rfl) hread hprograms (by decide) hkinds hkinds
  obtain rfl : s = m := by simpa using hs.symm.trans hm
  obtain ⟨q, hq, hsame⟩ := hsame s' hs' "n.py" summing (by simp)
  obtain rfl : r = q := by simpa using hr.symm.trans hq
  exact ⟨s, s', r, r', hs, hs', hr, hr', hsame r' hr'⟩

end SourceOptimizer
