import SourceOptimizer.Proofs.Independence

/-! Modules that ask to be skipped, by an import at their beginning. The request is not heard: the check of
the leading imports compares a text with nodes. -/
namespace SourceOptimizer
open SourceOptimizer.Tree Work

namespace Tree

def namesRequest : Tree → Bool
  | .node _ (.importName "skip_module" _) _ => true
  | _ => false

def isRequest : Tree → Bool
  | .node _ (.importFrom (some "pylang_annotations") _) [.seq names] => names.any namesRequest
  | _ => false

end Tree

def Code.asksToBeSkipped (c : Code) : Bool :=
  match parseSource c.text.toList with
  | .ok (.node _ _ [.seq body]) => (body.takeWhile isImport).any isRequest
  | _ => false

variable {s₀ : Session} {paths : List String} {codes : List Code} {c : Code} {ws : List Worker}

theorem Code.body_of_asks (h : c.asksToBeSkipped = true) :
    ∃ tag kind body, parseSource c.text.toList = .ok (.node tag kind [.seq body]) := by
  unfold Code.asksToBeSkipped at h
  split at h
  next hparse => exact ⟨_, _, _, hparse⟩
  · cases h

/-- A file that asks to be skipped passes the check of its leading imports and is a module at every level. At the first two
levels the source that comes of it is the text of its normal form, whatever the other files are. -/
theorem skip_requests_unheard (hstore : s₀.store.Empty) (hsources : s₀.sources = []) (hmodules : s₀.modules = [])
    (hread : List.Forall₂ s₀.Reads paths codes) (hnodup : (codes.map (·.path)).Nodup)
    (hws : ws.map (·.kind) = PassKind.registered) (hc : c ∈ codes) (hasks : c.asksToBeSkipped = true) :
    (∃ tag kind body, parseSource c.text.toList = .ok (.node tag kind [.seq body]) ∧ checkModule body = true) ∧
    ∃ s, Returns (paths.forM parseFile) s₀ () s ∧ c ∈ s.modules.map (·.code) ∧
      (s₀.level = 0 ∨ s₀.level = 1 → ∀ s', Pipeline.Transforms ws s s' → ∃ raw n t text,
        parseSource c.text.toList = .ok raw ∧ Standing n [t] ∧ t.bare = Pass.single (Tree.normal s₀.aim raw) ∧
          t.print = .ok text ∧ s'.sources.filter (·.path == c.path) = [.code ⟨c.path, text⟩]) := by
  obtain ⟨tag, kind, body, hbody⟩ := Code.body_of_asks hasks
  have hprogram : c.isProgram = true := by
    rw [Code.isProgram, hbody]
    rfl
  refine ⟨⟨tag, kind, body, hbody, checkModule_eq_true body⟩, ?_⟩
  obtain ⟨s, hs, hopens⟩ := opens_files (.start hsources hmodules) hread
  obtain ⟨hstands, hat⟩ := parseFiles_stands ⟨hstore, by simp [hmodules]⟩ hs
  refine ⟨s, hs, ?_, fun hlevel s' h => ?_⟩
  · rw [hopens.listed.2.1, List.mem_eraseDups, List.mem_filter]
    exact ⟨hc, hprogram⟩
  · obtain ⟨raw, n, t, text, hraw, ht, -, hbare, hprint, hfilter⟩ := hopens.text hstands hnodup (hat ▸ hlevel) hws h hc hprogram
    have haim : s.aim = s₀.aim := by rw [Session.aim, hat, Session.aim]
    exact ⟨raw, n, t, text, hraw, ht, haim ▸ hbare, hprint, hfilter⟩

def askingModule : Code := ⟨"b.py", "import os\nfrom pylang_annotations import skip_module\nx = 1 + 2"⟩

def askingSession : Session := { level := 1, files := { files := [(["b.py"], askingModule.bytes), (["n.py"], summing.bytes)] } }

set_option maxRecDepth 100000 in
theorem settles_asking : askingSession.settles [summing, askingModule] = true ∧ askingModule.asksToBeSkipped = true := by decide +kernel

theorem skip_requests_unheard_asking : askingModule.asksToBeSkipped = true ∧ ∃ s s' text,
    Returns (["n.py", "b.py"].forM parseFile) askingSession () s ∧ askingModule ∈ s.modules.map (·.code) ∧
      Pipeline.Transforms (PassKind.registered.map fun kind => { kind }) s s' ∧
      s'.sources.filter (·.path == "b.py") = [.code ⟨"b.py", text⟩] := by
  have hstore : askingSession.store.Empty := fun id => by simp [askingSession, Store.view]
  have hbytes : askingSession.files.read "b.py" = .ok askingModule.bytes ∧ askingSession.files.read "n.py" = .ok summing.bytes := by
    simp only [Files.read, Path.ofString_eq]
    exact ⟨rfl, rfl⟩
  have hread : List.Forall₂ askingSession.Reads ["n.py", "b.py"] [summing, askingModule] :=
    .cons ⟨_, readText_of_bytes hbytes.2 rfl, rfl⟩ (.cons ⟨_, readText_of_bytes hbytes.1 rfl, rfl⟩ .nil)
  obtain ⟨s, s', hs, hs'⟩ := transforms_of_settles ⟨hstore, by simp [askingSession]⟩ (by decide) hread settles_asking.1
  have hkinds : (PassKind.registered.map fun kind => ({ kind } : Worker)).map (·.kind) = PassKind.registered := rfl
  obtain ⟨-, m, hm, hmem, htext⟩ := skip_requests_unheard hstore rfl rfl hread (by decide) hkinds (by simp) settles_asking.2
  obtain rfl : s = m := by simpa using hs.symm.trans hm
  obtain ⟨raw, n, t, text, -, -, -, -, hfilter⟩ := htext (.inr rfl) s' hs'
  exact ⟨settles_asking.2, s, s', text, hs, hmem, hs', hfilter⟩

set_option maxRecDepth 100000 in
theorem asking_module_rewritten : askingModule.asksToBeSkipped = true ∧ ((readAll askingSession [askingModule]).map fun s =>
    (outcome (Pipeline.transform (PassKind.registered.map fun kind => { kind })) s).2.modules.map (·.code.text)) =
      some ["import os\nfrom pylang_annotations import skip_module\nx = 3"] := by
  decide +kernel

end SourceOptimizer
