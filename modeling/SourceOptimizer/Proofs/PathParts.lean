import SourceOptimizer.Pipeline.CommandLine
import Mathlib.Data.String.Basic

/-! Written paths by their parts. Where a path goes on below a folder, its place is the place of the folder
and the parts after it, whatever is written in front of the folder. -/
namespace SourceOptimizer

variable {xs ending : List Char} {n : Nat}

/-! ## Splitting -/

section
open String

theorem splitOnAux_single (sep : Char) (l m r : List Char) (acc : List String) :
    splitOnAux (ofList (l ++ m ++ r)) (ofList [sep]) ⟨utf8Len l⟩ ⟨utf8Len l + utf8Len m⟩ 0 acc =
      acc.reverse ++ (List.splitOnPPrepend (· == sep) r m.reverse).map ofList := by
  induction r generalizing l m acc with
  | nil =>
    unfold splitOnAux
    rw [if_pos (by simpa using atEnd_of_valid (l ++ m) [])]
    simpa using extract_of_valid l m []
  | cons c r ih =>
    have hget := get_of_valid (l ++ m) (c :: r)
    have hnext := next_of_valid (l ++ m) c r
    have hextract := extract_of_valid l m (c :: r)
    have hend := atEnd_of_valid (l ++ m) (c :: r)
    simp only [utf8Len_append, List.headD_cons] at hget hnext hend
    have hsep : Pos.Raw.get (ofList [sep]) 0 = sep := by simpa using get_of_valid [] [sep]
    have hsep' : Pos.Raw.next (ofList [sep]) 0 = ⟨sep.utf8Size⟩ := by simpa using next_of_valid [] sep []
    have hsep'' : Pos.Raw.atEnd (ofList [sep]) ⟨sep.utf8Size⟩ = true := by simpa using atEnd_of_valid [sep] []
    unfold splitOnAux
    rw [if_neg (by simpa using hend), hget, hsep, hsep', hnext]
    by_cases hc : c = sep
    · subst hc
      have hback : Pos.Raw.unoffsetBy ⟨utf8Len l + utf8Len m + c.utf8Size⟩ ⟨c.utf8Size⟩ = ⟨utf8Len l + utf8Len m⟩ := by
        simp [Pos.Raw.unoffsetBy]
      rw [if_pos (beq_self_eq_true c), if_pos hsep'', hback, hextract]
      have hrest := ih (l ++ m ++ [c]) [] (ofList m :: acc)
      simp only [utf8Len_append, List.append_assoc, utf8Len_nil, utf8Len_cons, List.singleton_append, Nat.add_zero,
        Nat.zero_add, ← Nat.add_assoc] at hrest ⊢
      rw [hrest]
      simp [List.splitOnPPrepend_cons_eq_if]
    · have hstay : Pos.Raw.unoffsetBy ⟨utf8Len l + utf8Len m⟩ 0 = ⟨utf8Len l + utf8Len m⟩ := by
        simp [Pos.Raw.unoffsetBy]
      rw [if_neg (by simpa using hc), hstay, hnext]
      have hrest := ih l (m ++ [c]) acc
      simp only [utf8Len_append, List.append_assoc, utf8Len_nil, utf8Len_cons, List.singleton_append, Nat.zero_add,
        ← Nat.add_assoc] at hrest ⊢
      rw [hrest]
      simp [List.splitOnPPrepend_cons_eq_if, hc]

theorem splitOn_single (s : String) (sep : Char) : s.splitOn (ofList [sep]) = (s.toList.splitOn sep).map ofList := by
  have hne : (ofList [sep] == "") = false := by simp
  have haux := splitOnAux_single sep [] [] s.toList []
  rw [List.nil_append, List.nil_append, ofList_toList, List.reverse_nil, List.nil_append] at haux
  rw [String.splitOn, hne]
  exact haux

end

namespace Path

def extended (acc : Path) (part : String) : Path :=
  if part == "" || part == "." then acc else if part == ".." then acc.dropLast else acc ++ [part]

def parts (s : String) : List (List Char) := s.toList.splitOn '/'

theorem ofString_eq (s : String) : ofString s = ((parts s).map String.ofList).foldl extended [] := by
  unfold ofString
  rw [show "/" = String.ofList ['/'] from rfl, splitOn_single]
  rfl

theorem lastName_eq (s : String) : lastName s = String.ofList ((parts s).getLast (List.splitOn_ne_nil _ _)) := by
  unfold lastName
  rw [show "/" = String.ofList ['/'] from rfl, splitOn_single, List.getLast?_map,
    List.getLast?_eq_getLast_of_ne_nil (List.splitOn_ne_nil _ _)]
  rfl

def IsPlain (part : List Char) : Prop := part ≠ [] ∧ part ≠ ['.'] ∧ part ≠ ['.', '.']

instance (part : List Char) : Decidable (IsPlain part) := inferInstanceAs (Decidable (_ ∧ _))

theorem isPlain_of_length {part : List Char} (h : 3 ≤ part.length) : IsPlain part := by
  refine ⟨?_, ?_, ?_⟩ <;> rintro rfl <;> simp at h

theorem foldl_extended (acc : Path) {ps : List (List Char)} (h : ∀ p ∈ ps, IsPlain p) :
    (ps.map String.ofList).foldl extended acc = acc ++ ps.map String.ofList := by
  induction ps generalizing acc with
  | nil => simp
  | cons p ps ih =>
    obtain ⟨hempty, hdot, hup⟩ := h p (by simp)
    have hstep : extended acc (String.ofList p) = acc ++ [String.ofList p] := by
      have hne : ∀ q : List Char, p ≠ q → (String.ofList p == String.ofList q) = false := fun q hq => by
        rw [beq_eq_false_iff_ne, Ne, String.ofList_inj]
        exact hq
      simp only [extended, show "" = String.ofList [] from rfl, show "." = String.ofList ['.'] from rfl,
        show ".." = String.ofList ['.', '.'] from rfl, hne _ hempty, hne _ hdot, hne _ hup]
      rfl
    rw [List.map_cons, List.foldl_cons, hstep, ih _ fun q hq => h q (by simp [hq])]
    simp

/-- A path goes on with plain parts below a folder, as the folder is written. -/
def Below (folder path : String) : Prop :=
  ∃ rest, path.toList = folder.toList ++ '/' :: rest ∧ '\\' ∉ path.toList ∧ ∀ p ∈ rest.splitOn '/', IsPlain p

end Path

/-! ## Replacing -/

section
variable {old new : List Char}

/-- Where a backslash is replaced by a slash, each character is for itself. -/
def slashed (c : Char) : Char := if c = '\\' then '/' else c

theorem replaceRuns_backslash (xs : List Char) : replaceRuns ['\\'] ['/'] 0 xs = xs.map slashed := by
  induction xs with
  | nil => rfl
  | cons c cs ih =>
    rw [replaceRuns, List.map_cons, slashed]
    by_cases hc : c = '\\'
    · simp [hc, ih]
    · have hc' : ('\\' == c) = false := by simpa using Ne.symm hc
      simp [hc, hc', List.isPrefixOf, ih]

theorem replaceAll_backslash (s : String) : replaceAll s "\\" "/" = String.ofList (s.toList.map slashed) := by
  exact congrArg String.ofList (replaceRuns_backslash s.toList)

theorem map_slashed (h : '\\' ∉ xs) : xs.map slashed = xs := by
  conv_rhs => rw [← List.map_id xs]
  refine List.map_congr_left fun c hc => ?_
  exact if_neg (fun heq : c = '\\' => h (heq ▸ hc))

theorem replaceRuns_skip (h : xs.length ≤ n) : replaceRuns old new n xs = [] := by
  induction xs generalizing n with
  | nil => cases n <;> rfl
  | cons c cs ih =>
    obtain _ | n := n
    · simp at h
    · exact ih (by simpa using h)

theorem replaceRuns_self (hold : old ≠ []) : replaceRuns old new 0 old = new := by
  obtain ⟨c, cs, rfl⟩ := List.exists_cons_of_ne_nil hold
  rw [replaceRuns, if_pos (by simp), replaceRuns_skip (by simp), List.append_nil]

theorem isPrefixOf_append_slash (xs rest : List Char) (hold : '/' ∉ old) :
    old.isPrefixOf (xs ++ '/' :: rest) = old.isPrefixOf xs := by
  induction old generalizing xs with
  | nil => simp
  | cons o old ih =>
    cases xs with
    | nil => simpa [List.isPrefixOf] using fun h => absurd h (by simp at hold; tauto)
    | cons c cs => simp [List.isPrefixOf, ih cs (fun h => hold (by simp [h]))]

theorem replaceRuns_append_slash (hne : old ≠ []) (hold : '/' ∉ old) (rest : List Char) (h : n ≤ xs.length) :
    replaceRuns old new n (xs ++ '/' :: rest) = replaceRuns old new n xs ++ '/' :: replaceRuns old new 0 rest := by
  induction xs generalizing n with
  | nil =>
    obtain rfl : n = 0 := by simpa using h
    have hslash := isPrefixOf_append_slash [] rest hold
    rw [List.nil_append] at hslash
    rw [show replaceRuns old new 0 [] = [] from rfl, List.nil_append, List.nil_append, replaceRuns, hslash, if_neg (by simpa using hne)]
  | cons c cs ih =>
    obtain _ | n := n
    · rw [List.cons_append, replaceRuns, replaceRuns, ← List.cons_append, isPrefixOf_append_slash _ rest hold]
      split
      next hoccurs =>
        have hlength : old.length ≤ (c :: cs).length := (List.isPrefixOf_iff_prefix.mp hoccurs).length_le
        rw [ih (by simp at hlength; omega), List.append_assoc]
      · rw [ih (Nat.zero_le _), List.cons_append]
    · exact ih (by simpa using h)

theorem mem_replaceRuns {c : Char} (h : c ∈ replaceRuns old new n xs) : c ∈ new ∨ c ∈ xs := by
  fun_induction replaceRuns old new n xs with
  | case1 => simp at h
  | case2 n d cs ih => exact (ih h).imp_right (List.mem_cons_of_mem _)
  | case3 d cs _ ih =>
    rcases List.mem_append.mp h with h | h
    · exact .inl h
    · exact (ih h).imp_right (List.mem_cons_of_mem _)
  | case4 d cs _ ih =>
    rcases List.mem_cons.mp h with rfl | h
    · simp
    · exact (ih h).imp_right (List.mem_cons_of_mem _)

theorem replaceRuns_cases (old new xs : List Char) : replaceRuns old new 0 xs = xs ∨ new.length ≤ (replaceRuns old new 0 xs).length := by
  induction xs with
  | nil => exact .inl rfl
  | cons c cs ih =>
    rw [replaceRuns]
    split
    · exact .inr (by simp)
    · exact ih.imp (congrArg _) fun h => by simp; omega

theorem replaceRuns_of_not_infix (h : ¬ old <:+: xs) : replaceRuns old new 0 xs = xs := by
  induction xs with
  | nil => rfl
  | cons c cs ih =>
    rw [replaceRuns, if_neg fun hoccurs => h (List.isPrefixOf_iff_prefix.mp hoccurs).isInfix,
      ih fun hold => h (hold.trans (List.suffix_cons c cs).isInfix)]

theorem splitOn_replaceRuns (hne : old ≠ []) (hold : '/' ∉ old) (hnew : '/' ∉ new) (xs : List Char) :
    (replaceRuns old new 0 xs).splitOn '/' = (xs.splitOn '/').map (replaceRuns old new 0) := by
  by_cases hslash : '/' ∈ xs
  · obtain ⟨before, rest, heq, hbefore⟩ := List.eq_append_cons_of_mem hslash
    have hshorter : rest.length < xs.length := by
      rw [heq, List.length_append, List.length_cons]
      omega
    have hrest := splitOn_replaceRuns hne hold hnew rest
    have hstays : '/' ∉ replaceRuns old new 0 before := fun h => (mem_replaceRuns h).elim hnew hbefore
    rw [heq, replaceRuns_append_slash hne hold rest (Nat.zero_le _), List.splitOn_append_cons_self_of_not_mem hstays,
      List.splitOn_append_cons_self_of_not_mem hbefore, hrest, List.map_cons]
  · have hstays : '/' ∉ replaceRuns old new 0 xs := fun h => (mem_replaceRuns h).elim hnew hslash
    rw [List.splitOn_eq_singleton hstays, List.splitOn_eq_singleton hslash, List.map_singleton]
termination_by xs.length

end

/-! ## Below a folder -/

namespace Path
open CommandLine (outputPath)
variable {folder path : String} {rest : List Char}

theorem parts_below (h : path.toList = folder.toList ++ '/' :: rest) : parts path = parts folder ++ rest.splitOn '/' := by
  rw [parts, h, List.splitOn_append_cons_self]
  rfl

theorem lastName_below {front : List (List Char)} {last : List Char} (h : path.toList = folder.toList ++ '/' :: rest)
    (hlast : rest.splitOn '/' = front ++ [last]) : lastName path = String.ofList last := by
  simp [lastName_eq, parts_below h, hlast]

theorem outputPath_below (output : String) (hfolder : folder ≠ "") (h : path.toList = folder.toList ++ '/' :: rest)
    (hpath : '\\' ∉ path.toList) :
    (outputPath output path).toList = (outputPath output folder).toList ++ '/' :: rest := by
  have hrest : ('/' :: rest).map slashed = '/' :: rest := map_slashed fun hmem => hpath (h ▸ List.mem_append_right _ hmem)
  obtain ⟨c, cs, hcs⟩ := List.exists_cons_of_ne_nil fun hnil => hfolder (String.toList_eq_nil_iff.mp hnil)
  simp only [outputPath, replaceAll_backslash, h, hcs, String.toList_ofList, String.toList_append, List.cons_append,
    List.drop_succ_cons, List.drop_zero, List.map_append, hrest, List.append_assoc]

theorem ofString_outputPath (output : String) (hfolder : folder ≠ "") (h : path.toList = folder.toList ++ '/' :: rest)
    (hpath : '\\' ∉ path.toList) (hplain : ∀ p ∈ rest.splitOn '/', IsPlain p) :
    ofString (outputPath output path) =
      ofString (outputPath output folder) ++ (rest.splitOn '/').map String.ofList := by
  rw [ofString_eq, parts_below (outputPath_below output hfolder h hpath), List.map_append, List.foldl_append, ← ofString_eq,
    foldl_extended _ hplain]

theorem Below.getLast?_outputPath (output : String) (hfolder : folder ≠ "") (h : Below folder path) :
    (ofString (outputPath output path)).getLast? = some (lastName path) := by
  obtain ⟨rest, hrest, hpath, hplain⟩ := h
  obtain ⟨front, last, hlast⟩ := (List.eq_nil_or_concat' _).resolve_left (List.splitOn_ne_nil '/' rest)
  rw [ofString_outputPath output hfolder hrest hpath hplain, lastName_below hrest hlast, hlast, List.map_append, ← List.append_assoc,
    List.map_singleton, List.getLast?_concat]

theorem Below.eq_of_outputPath {other output : String} (hfolder : folder ≠ "") (h : Below folder path) (hother : Below folder other)
    (heq : ofString (outputPath output path) = ofString (outputPath output other)) : path = other := by
  obtain ⟨rest, hrest, hpath, hplain⟩ := h
  obtain ⟨rest', hrest', hpath', hplain'⟩ := hother
  rw [ofString_outputPath output hfolder hrest hpath hplain, ofString_outputPath output hfolder hrest' hpath' hplain',
    List.append_right_inj, List.map_inj_right fun _ _ h => String.ofList_inj.mp h] at heq
  have hsame : rest = rest' := by
    rw [← @List.intercalate_splitOn _ rest _ _ '/', heq, List.intercalate_splitOn]
  rw [← String.toList_inj, hrest, hrest', hsame]

theorem not_mem_of_mem_splitOn {p : List Char} (h : p ∈ xs.splitOn '/') : '/' ∉ p := by
  induction xs generalizing p with
  | nil =>
    obtain rfl : p = [] := by simpa using h
    simp
  | cons c cs ih =>
    rw [List.splitOn_cons_eq_if_modifyHead] at h
    split at h
    · rcases List.mem_cons.mp h with rfl | h
      · simp
      · exact ih h
    next hc =>
      obtain ⟨q, qs, hq⟩ := List.exists_cons_of_ne_nil (List.splitOn_ne_nil '/' cs)
      rw [hq] at h ih
      rcases List.mem_cons.mp h with rfl | h
      · simpa using ⟨fun heq => hc (by simp [← heq]), ih (List.mem_cons_self ..)⟩
      · exact ih (List.mem_cons_of_mem _ h)

theorem suffix_splitOn (hslash : '/' ∉ ending) (before : List Char) :
    ∃ front last, (before ++ ending).splitOn '/' = front ++ [last] ∧ ending <:+ last := by
  induction before with
  | nil => exact ⟨[], ending, by rw [List.nil_append, List.splitOn_eq_singleton hslash, List.nil_append], List.suffix_rfl⟩
  | cons c before ih =>
    obtain ⟨front, last, hsplit, hlast⟩ := ih
    rw [List.cons_append, List.splitOn_cons_eq_if_modifyHead, hsplit]
    split
    · exact ⟨[] :: front, last, rfl, hlast⟩
    · cases front with
      | nil => exact ⟨[], c :: last, rfl, hlast.trans (List.suffix_cons c last)⟩
      | cons part front => exact ⟨(c :: part) :: front, last, rfl, hlast⟩

theorem suffix_lastName (hslash : '/' ∉ ending) (h : ending <:+ path.toList) :
    ending <:+ (lastName path).toList := by
  obtain ⟨before, hpath⟩ := h
  obtain ⟨front, last, hsplit, hlast⟩ := suffix_splitOn hslash before
  have hparts : parts path = front ++ [last] := by rw [parts, ← hpath, hsplit]
  simpa [lastName_eq, hparts] using hlast

theorem Below.replace {new : String} (h : Below folder path) (habsent : ¬ (lastName path).toList <:+: folder.toList)
    (hslash : '/' ∉ new.toList) (hback : '\\' ∉ new.toList) (hlength : 3 ≤ new.toList.length) :
    Below folder (replaceAll path (lastName path) new) ∧ lastName (replaceAll path (lastName path) new) = new := by
  obtain ⟨rest, hrest, hpath, hplain⟩ := h
  obtain ⟨front, last, hlast⟩ := (List.eq_nil_or_concat' _).resolve_left (List.splitOn_ne_nil '/' rest)
  have hname := lastName_below hrest hlast
  have hmem : last ∈ rest.splitOn '/' := by simp [hlast]
  obtain ⟨hne, -, -⟩ := hplain last hmem
  have hold : '/' ∉ last := not_mem_of_mem_splitOn hmem
  rw [hname, String.toList_ofList] at habsent
  have hreplaced : (replaceAll path (lastName path) new).toList = folder.toList ++ '/' :: replaceRuns last new.toList 0 rest := by
    rw [hname, replaceAll, if_neg (by simpa using hne), String.toList_ofList, String.toList_ofList, hrest,
      replaceRuns_append_slash hne hold rest (Nat.zero_le _), replaceRuns_of_not_infix habsent]
  have hsplit := splitOn_replaceRuns hne hold hslash rest
  refine ⟨⟨_, hreplaced, ?_, ?_⟩, ?_⟩
  · intro hbackslash
    rw [hrest] at hpath
    rw [hreplaced] at hbackslash
    simp only [List.mem_append, List.mem_cons, not_or] at hpath hbackslash
    rcases hbackslash with h | h | h
    · exact hpath.1 h
    · exact hpath.2.1 h
    · exact (mem_replaceRuns h).elim hback hpath.2.2
  · rw [hsplit]
    intro p hp
    obtain ⟨q, hq, rfl⟩ := List.mem_map.mp hp
    rcases replaceRuns_cases last new.toList q with h | h
    · rw [h]
      exact hplain q hq
    · exact isPlain_of_length (hlength.trans h)
  · rw [hlast, List.map_append, List.map_singleton, replaceRuns_self hne] at hsplit
    rw [lastName_below hreplaced hsplit, String.ofList_toList]

end Path
end SourceOptimizer
