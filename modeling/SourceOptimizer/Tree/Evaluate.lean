import SourceOptimizer.Tree.Basic
import SourceOptimizer.Value.Sequence

/-! Values of closed expressions: constants, displays, operators, and a few names. -/
namespace SourceOptimizer.Tree

def knownName? : String → Option Value
  | "inf" => some (.float Number.infinity)
  | "nan" => some (.float Number.notANumber)
  | "NotImplemented" => some .notImplemented
  | "Ellipsis" => some .ellipsis
  | "set" => some (.builtin "set")
  | "frozenset" => some (.builtin "frozenset")
  | _ => none

def negated : Value → Except Fault Value
  | .float x => .ok (.float (Number.negate x))
  | .complex re im => .ok (.complex (Number.negate re) (Number.negate im))
  | v => match v.asInt? with
    | some n => .ok (.int (-n))
    | none => .error .unknown

def unaryValue (op : UnaryOp) (v : Value) : Except Fault Value :=
  match op with
  | .not => .ok (.bool (!v.truth))
  | .minus => negated v
  | .plus =>
    match v with
    | .bool b => .ok (.int (if b then 1 else 0))
    | .int _ | .float _ | .complex _ _ => .ok v
    | _ => .error .unknown
  | .invert =>
    match v.asInt? with
    | some n => .ok (.int (-n - 1))
    | none => .error .unknown

def callValue (function : Value) (args : List Value) : Except Fault Value := do
  let items ← match args with
    | [] => .ok []
    | [v] => do Value.distinct [] (← Value.items v)
    | _ => .error .unknown
  match function with
  | .builtin "set" => .ok (.setOf items)
  | .builtin "frozenset" => .ok (.frozen items)
  | _ => .error .unknown

def dictValue : List (Value × Value) → Except Fault (List (Value × Value))
  | kvs => kvs.foldlM (fun acc (k, v) => do
    Value.checkKey k
    return Value.setKey acc k v) []

mutual

def evaluateWith (names : String → Option Value) : Tree → Except Fault Value
  | .node _ kind parts =>
    match kind, parts with
    | .constant l, _ => .ok l.value
    | .name id _, _ =>
      match names id with
      | some v => .ok v
      | none => .error .unknown
    | .unaryOp op, [t] => do unaryValue op (← evaluateWith names t)
    | .binOp op, [a, b] => do
      let x ← evaluateWith names a
      let y ← evaluateWith names b
      Value.binary op x y
    | .list _, [.seq items] => do return .list (← evaluateAllWith names items)
    | .tuple _, [.seq items] => do return .tuple (← evaluateAllWith names items)
    | .setDisplay, [.seq items] => do return .setOf (← Value.distinct [] (← evaluateAllWith names items))
    | .dict, [.seq keys, .seq values] => do
      let ks ← evaluateAllWith names keys
      let vs ← evaluateAllWith names values
      return .dict (← dictValue (ks.zip vs))
    | .call, [function, .seq args, _] => do
      let f ← evaluateWith names function
      callValue f (← evaluateAllWith names args)
    | _, _ => .error .unknown
  | _ => .error .unknown

def evaluateAllWith (names : String → Option Value) : List Tree → Except Fault (List Value)
  | [] => .ok []
  | t :: ts => do
    let v ← evaluateWith names t
    return v :: (← evaluateAllWith names ts)

end

def evaluate (t : Tree) : Except Fault Value := evaluateWith knownName? t

mutual

/-- A value as an expression: whole and floating point numbers, texts, the missing value, and lists, tuples,
sets and mappings of such. -/
def ofValue? : Value → Option Tree
  | .int n => some (constantOf (.int n))
  | .float x => some (constantOf (.float x))
  | .str s => some (constantOf (.str s))
  | .none => some (constantOf .none)
  | .list items => do return .node {} (.list .load) [.seq (← ofValues? items)]
  | .tuple items => do return .node {} (.tuple .load) [.seq (← ofValues? items)]
  | .setOf items => do return .node {} .setDisplay [.seq (← ofValues? items)]
  | .dict items => do
    let (keys, values) ← ofPairs? items
    return .node {} .dict [.seq keys, .seq values]
  | _ => none
where
  constantOf (v : Value) : Tree := .node {} (.constant { value := v }) []

def ofValues? : List Value → Option (List Tree)
  | [] => some []
  | v :: vs => do
    let t ← ofValue? v
    return t :: (← ofValues? vs)

def ofPairs? : List (Value × Value) → Option (List Tree × List Tree)
  | [] => some ([], [])
  | (k, v) :: rest => do
    let k ← ofValue? k
    let v ← ofValue? v
    let (ks, vs) ← ofPairs? rest
    return (k :: ks, v :: vs)

end
end SourceOptimizer.Tree
