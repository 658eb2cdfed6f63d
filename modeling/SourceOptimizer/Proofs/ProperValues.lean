import SourceOptimizer.Simulation.Predefined
import SourceOptimizer.Proofs.Doubles

/-! Values as a run has them: code points and bytes in their ranges, keys that can be keys and differ from one
another, choices between different classes. -/
namespace SourceOptimizer.Value

def apart (related : Value → Value → Bool) : List Value → Bool
  | [] => true
  | x :: xs => xs.all (fun y => !related x y) && apart related xs

def choiceNames : List String := "None" :: (classNames ++ Simulation.faultNames)

mutual

/-- A value that a run can have. -/
def proper : Value → Bool
  | .str s => s.all (· < 0x110000)
  | .bytes bs => bs.all (· < 0x100)
  | .tuple xs => properAll xs
  | .list xs => properAll xs
  | .setOf xs => properAll xs && xs.all (fun x => x.unhashable?.isNone) && apart (fun a b => equal b a) xs
  | .frozen xs => properAll xs && xs.all (fun x => x.unhashable?.isNone) && apart (fun a b => equal b a) xs
  | .dict kvs => properPairs kvs && (kvs.map (·.1)).all (fun x => x.unhashable?.isNone) && apart equal (kvs.map (·.1))
  | .builtin name => name.toList.all (0x20 ≤ ·.toNat)
  | .union names => 2 ≤ names.length && decide names.Nodup && names.all choiceNames.contains
  | _ => true

def properAll : List Value → Bool
  | [] => true
  | x :: xs => proper x && properAll xs

def properPairs : List (Value × Value) → Bool
  | [] => true
  | (k, v) :: kvs => proper k && proper v && properPairs kvs

end

mutual

def finite : Value → Bool
  | .float x => Number.isFinite x
  | .complex re im => Number.isFinite re && Number.isFinite im
  | .tuple xs => finiteAll xs
  | .list xs => finiteAll xs
  | .setOf xs => finiteAll xs
  | .frozen xs => finiteAll xs
  | .dict kvs => finitePairs kvs
  | _ => true

def finiteAll : List Value → Bool
  | [] => true
  | x :: xs => finite x && finiteAll xs

def finitePairs : List (Value × Value) → Bool
  | [] => true
  | (k, v) :: kvs => finite k && finite v && finitePairs kvs

end

end SourceOptimizer.Value
