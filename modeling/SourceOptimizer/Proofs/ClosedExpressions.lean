import SourceOptimizer.Proofs.Confluence
import SourceOptimizer.Proofs.SourceHistory

/-! Closed expressions come down to their values. An expression of constants, operations, single comparisons
and conditionals has a value of its own; where it has one, its normal form is that constant, whatever stands
in the branches that are not taken. -/
namespace SourceOptimizer
open Tree Work
open Pass.Documentation (isMereText)

namespace Tree

variable {t : Tree} {us : List Tree}

end Tree

/-! ## The value in the end -/

def fileSession (text : String) : Session := { level := 1, files := { files := [(["m.py"], Code.bytes ⟨"m.py", text⟩)] } }

def moduleSession (text : String) (t : Tree) (n : Nat) : Session := (fileSession text).withModule ⟨"m.py", text⟩ t n

def rests (text : String) (test : Tree → Session → Bool) : Bool :=
  match Tree.parse 1 text with
  | .error _ => false
  | .ok (t, n) => (moduleSession text t n).weight < 100 &&
    match outcome (Pipeline.cycle 100 0 (PassKind.registered.map fun kind => { kind })) (moduleSession text t n) with
    | (.ok _, s') => test t s'
    | (.error _, _) => false

theorem files_fileSession (text : String) : (fileSession text).files.read "m.py" = .ok (Code.bytes ⟨"m.py", text⟩) := by
  simp only [Files.read, Path.ofString_eq]
  rfl

theorem of_rests {text : String} {test : Tree → Session → Bool} (htext : Returns (readText "m.py") (fileSession text) text (fileSession text))
    (h : rests text test = true) :
    ∃ t n s' k ws', Returns (["m.py"].forM parseFile) (fileSession text) () (moduleSession text t n) ∧
      Pipeline.Ends 0 (PassKind.registered.map fun kind => { kind }) (moduleSession text t n) (.ok (k, ws'), s') ∧ test t s' = true := by
  unfold rests at h
  split at h
  · cases h
  next t n hparse =>
    obtain ⟨hweight, htest⟩ := (Bool.and_eq_true _ _).mp h
    have hread : Returns (["m.py"].forM parseFile) (fileSession text) () (moduleSession text t n) :=
      .bind (parseFile_returns htext hparse) rfl
    have hstore : (fileSession text).store.Empty := fun id => by simp [fileSession, Store.view]
    have hstands := (parseFiles_stands ⟨hstore, by simp [fileSession]⟩ hread).1
    obtain ⟨⟨result, s'⟩, hends, hcycle, -⟩ := Pipeline.ends_within (PassKind.registered.map fun kind => { kind }) hstands.plain
      (show (1 : Int) ≤ 1 from le_rfl) 0 100 (of_decide_eq_true hweight)
    rw [hcycle] at htest
    cases result with
    | error e => cases htest
    | ok result => exact ⟨t, n, s', result.1, result.2, hread, hends, htest⟩

def guarded : String := "x = 3 * 2 + 1 if 1 else 1 % (0 * 1)"

end SourceOptimizer
