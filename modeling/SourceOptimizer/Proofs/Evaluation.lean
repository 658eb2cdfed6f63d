import Mathlib
import SourceOptimizer.Tree.Evaluate
import SourceOptimizer.Tree.Store

/-! What an expression says does not depend on the identities and lines of its nodes. -/
namespace SourceOptimizer
open Store (resolve resolveAll)

theorem bind_eq_ok {ε α β : Type} {x : Except ε α} {f : α → Except ε β} {b : β} :
    x >>= f = .ok b ↔ ∃ a, x = .ok a ∧ f a = .ok b := by
  cases x with
  | error e =>
    constructor
    · intro h
      cases h
    · rintro ⟨_, h, -⟩
      cases h
  | ok a =>
    constructor
    · exact fun h => ⟨a, rfl, h⟩
    · rintro ⟨_, h, hf⟩
      cases h
      exact hf

def Value.isContainer : Value → Bool
  | .tuple _ | .list _ | .setOf _ | .frozen _ | .dict _ => true
  | _ => false

def Kind.bare : Kind → Kind
  | .constant l => .constant { l with origin := 0 }
  | k => k

namespace Tree

mutual

/-- A tree without identities and lines. -/
def bare : Tree → Tree
  | .node _ kind parts => .node {} kind.bare (bareAll parts)
  | .seq items => .seq (bareAll items)
  | .absent => .absent
  | .shared id => .shared id

def bareAll : List Tree → List Tree
  | [] => []
  | t :: ts => bare t :: bareAll ts

end

theorem bareAll_eq_map (ts : List Tree) : bareAll ts = ts.map bare := by
  induction ts with
  | nil => rfl
  | cons t ts ih => rw [bareAll, ih, List.map_cons]

mutual

theorem bare_resolve_number (again : Nat → Tree) :
    (t : Tree) → (n : Nat) → bare (resolve again (t.number n).1) = bare (resolve again t)
  | .node tag kind parts, n => by
    simp only [number, resolve, bare, bareAll_resolve_number again parts]
    cases kind <;> rfl
  | .seq items, n => by simp only [number, resolve, bare, bareAll_resolve_number again items]
  | .absent, _ => rfl
  | .shared _, _ => rfl

theorem bareAll_resolve_number (again : Nat → Tree) : (ts : List Tree) → (n : Nat) →
    bareAll (resolveAll again (numberAll n ts).1) = bareAll (resolveAll again ts)
  | [], _ => rfl
  | t :: ts, n => by
    simp only [numberAll, resolveAll, bareAll, bare_resolve_number again t, bareAll_resolve_number again ts]

end

mutual

theorem resolve_shared : (t : Tree) → resolve .shared t = t
  | .node _ _ parts => by rw [resolve, resolveAll_shared parts]
  | .seq items => by rw [resolve, resolveAll_shared items]
  | .absent => rfl
  | .shared _ => rfl

theorem resolveAll_shared : (ts : List Tree) → resolveAll .shared ts = ts
  | [] => rfl
  | t :: ts => by rw [resolveAll, resolve_shared t, resolveAll_shared ts]

end

theorem bare_number (t : Tree) (n : Nat) : bare (t.number n).1 = bare t := by
  simpa only [resolve_shared] using bare_resolve_number .shared t n

theorem expandWithin_adopt (s : Store) (t : Tree) (depth : Nat) :
    (s.adopt t).2.expandWithin depth = s.expandWithin depth := by
  induction depth with
  | zero => rfl
  | succ depth ih =>
    funext u
    simp only [Store.expandWithin, ih]
    rfl

theorem bare_expand_adopt (s : Store) (t : Tree) :
    bare ((s.adopt t).2.expand (s.adopt t).1) = bare (s.expand t) := by
  change bare ((s.adopt t).2.expandWithin (s.nodes.size + 1) (t.number s.next).1) = _
  rw [expandWithin_adopt]
  exact bare_resolve_number _ t s.next

mutual

theorem evaluateWith_bare (names : String → Option Value) : (t : Tree) → evaluateWith names (bare t) = evaluateWith names t
  | .node tag kind parts => by
    cases kind
    case unaryOp op =>
      match parts with
      | [t] => simp only [bare, bareAll, evaluateWith, Kind.bare, evaluateWith_bare names t]
      | [] | _ :: _ :: _ => rfl
    case binOp op =>
      match parts with
      | [a, b] => simp only [bare, bareAll, evaluateWith, Kind.bare, evaluateWith_bare names a, evaluateWith_bare names b]
      | [] | [_] | _ :: _ :: _ :: _ => rfl
    case list ctx | tuple ctx | setDisplay =>
      match parts with
      | [] => rfl
      | t :: _ :: _ => cases t <;> rfl
      | [t] =>
        cases t with
        | seq items => simp only [bare, bareAll, evaluateWith, Kind.bare, evaluateAllWith_bare names items]
        | _ => rfl
    case dict =>
      match parts with
      | [] => rfl
      | [t] => cases t <;> rfl
      | t :: u :: _ :: _ => cases t <;> cases u <;> rfl
      | [t, u] =>
        cases t with
        | seq keys =>
          cases u with
          | seq values => simp only [bare, bareAll, evaluateWith, Kind.bare, evaluateAllWith_bare names keys,
            evaluateAllWith_bare names values]
          | _ => rfl
        | _ => cases u <;> rfl
    case call =>
      match parts with
      | [] | [_] => rfl
      | [_, u] => cases u <;> rfl
      | _ :: u :: _ :: _ :: _ => cases u <;> rfl
      | [t, u, _] =>
        cases u with
        | seq args => simp only [bare, bareAll, evaluateWith, Kind.bare, evaluateWith_bare names t, evaluateAllWith_bare names args]
        | _ => rfl
    all_goals rfl
  | .seq _ => rfl
  | .absent => rfl
  | .shared _ => rfl

theorem evaluateAllWith_bare (names : String → Option Value) :
    (ts : List Tree) → evaluateAllWith names (bareAll ts) = evaluateAllWith names ts
  | [] => rfl
  | t :: ts => by simp only [bareAll, evaluateAllWith, evaluateWith_bare names t, evaluateAllWith_bare names ts]

end
end Tree
end SourceOptimizer
