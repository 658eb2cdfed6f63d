import SourceOptimizer.Text.Ranges

/-! Combining classes. A mark that combines with the character before it has a class above zero; marks of different
classes do not meet, so that their order does not matter. -/
namespace SourceOptimizer.Text

def classRuns : Array Nat := List.toArray <| mapOfSteps 0 [
  768,20,230,1,0,232,1,3,220,1,0,232,1,0,216,1,4,220,1,1,202,1,3,220,1,1,202,1,10,220,1,4,1,1,3,220,1,7,230,1,0,240,1,
  0,230,1,2,220,1,2,230,1,1,220,2,2,230,1,3,220,1,0,230,1,0,232,1,1,220,1,0,230,1,0,233,1,1,234,1,0,233,1,1,234,1,0,
  233,1,12,230,276,4,230,266,0,220,1,3,230,1,0,220,1,2,230,1,0,222,1,0,220,1,5,230,1,5,220,1,1,230,1,0,220,1,1,230,1,
  0,222,1,0,228,1,0,230,1,0,10,1,0,11,1,0,12,1,0,13,1,0,14,1,0,15,1,0,16,1,0,17,1,0,18,1,1,19,1,0,20,1,0,21,1,0,22,2,
  0,23,2,0,24,1,0,25,2,0,230,1,0,220,2,0,18,73,7,230,1,0,30,1,0,31,1,0,32,49,0,27,1,0,28,1,0,29,1,0,30,1,0,31,1,0,32,
  1,0,33,1,0,34,1,1,230,1,1,220,1,4,230,1,0,220,1,1,230,1,0,220,17,0,35,102,6,230,3,3,230,1,0,220,1,0,230,3,1,230,2,0,
  220,1,1,230,1,0,220,36,0,36,31,0,230,1,0,220,1,1,230,1,0,220,1,1,230,1,2,220,1,0,230,1,1,220,1,0,230,1,0,220,1,2,
  230,1,0,220,1,0,230,1,0,220,1,0,230,1,0,220,1,0,230,1,0,220,1,1,230,161,6,230,1,0,220,1,0,230,10,0,220,25,3,230,2,8,
  230,2,2,230,2,4,230,44,2,220,61,0,230,1,2,220,1,3,230,43,4,230,1,4,220,1,13,230,2,0,220,1,1,230,1,0,220,1,1,230,1,0,
  220,1,2,230,1,2,220,1,0,27,1,0,28,1,0,29,1,2,230,1,0,220,1,1,230,1,1,220,1,4,230,61,0,7,17,0,9,4,0,230,1,0,220,1,1,
  230,104,0,7,17,0,9,49,0,230,62,0,7,17,0,9,111,0,7,17,0,9,111,0,7,17,0,9,128,0,9,111,0,7,17,0,9,8,0,84,1,0,91,102,0,
  7,17,0,9,110,1,9,17,0,9,125,0,9,110,1,103,1,0,9,14,3,107,109,1,118,1,0,9,14,3,122,77,1,220,28,0,220,2,0,220,2,0,216,
  56,0,129,1,0,130,2,0,132,6,3,130,3,0,130,2,1,230,1,0,9,2,1,230,63,0,220,113,0,7,2,1,9,83,0,220,720,2,230,949,1,9,31,
  0,9,158,0,9,11,0,230,204,0,228,144,0,222,1,0,230,1,0,220,220,0,230,1,0,220,72,0,9,21,7,230,3,0,220,49,4,230,1,5,220,
  1,1,230,1,0,220,2,1,220,1,1,230,1,1,220,1,4,230,1,0,220,1,3,230,102,0,7,16,0,9,39,0,230,1,0,220,1,6,230,55,1,9,59,0,
  7,12,1,9,68,0,7,153,2,230,2,0,1,1,4,220,1,1,230,1,3,220,1,0,230,2,6,1,5,0,220,7,0,230,4,1,230,199,1,230,1,0,220,1,6,
  230,1,0,220,1,1,230,1,0,234,1,0,214,1,0,220,1,0,202,1,36,230,1,0,232,1,1,228,1,0,220,1,0,218,1,0,230,1,0,233,1,0,
  220,1,0,230,1,0,220,721,1,230,1,1,1,1,3,230,1,2,1,1,1,230,5,0,230,4,1,1,1,0,230,1,0,220,1,0,230,1,1,1,1,3,220,1,0,
  230,3071,2,230,142,0,9,97,31,230,555,0,218,1,0,228,1,0,232,1,0,222,1,1,224,106,1,8,30165,0,230,5,9,230,33,1,230,81,
  1,230,277,0,9,38,0,9,152,0,9,28,17,230,58,2,220,38,0,9,96,0,7,13,0,9,240,0,230,2,1,230,1,0,220,3,1,230,6,1,230,2,0,
  230,53,0,9,247,0,9,20273,0,26,770,6,230,1,6,220,1,1,230,974,0,220,227,0,220,150,4,230,1683,0,220,2,0,230,41,0,230,1,
  0,1,1,0,220,5,0,9,166,0,230,1,0,220,574,3,230,388,1,230,154,1,220,1,2,230,1,0,220,1,0,230,1,3,220,50,0,230,1,0,220,
  1,0,230,1,0,220,193,0,9,42,0,9,15,0,9,58,0,9,1,0,7,70,2,230,49,1,9,63,0,7,77,0,9,10,0,7,107,0,9,1,0,7,179,0,7,1,0,9,
  81,1,7,17,0,9,25,6,230,4,4,230,206,0,9,4,0,7,24,0,230,100,0,9,1,0,7,252,0,9,1,0,7,127,0,9,119,0,9,1,0,7,116,0,9,270,
  0,9,1,0,7,259,1,9,5,0,7,157,0,9,84,0,9,19,0,9,82,0,9,422,0,9,259,0,7,2,1,9,82,0,9,19801,4,1,60,6,230,1210,1,6,19629,
  0,1,5319,1,216,1,2,1,4,0,226,1,4,216,9,7,220,3,4,230,1,1,220,31,3,230,149,2,230,3516,6,230,2,16,230,3,6,230,2,1,230,
  2,4,230,262,6,230,376,0,230,62,3,230,1505,6,220,110,5,230,1,0,7]

def combiningClass (c : Nat) : Nat :=
  match findRun classRuns c with
  | some (_, k) => k
  | none => 0

end SourceOptimizer.Text
