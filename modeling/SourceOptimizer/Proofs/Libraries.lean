import SourceOptimizer.Proofs.Outputs

/-! Libraries that a compiler returns. The library of a module is found by the beginning of its name among the
files of a folder that other modules share, and it is given the path of the source with every occurrence of
the file name replaced. -/
namespace SourceOptimizer
open Work

/-! ## Replacing the file name -/

section
variable {old new : List Char}

theorem length_replaceRuns (hlonger : old.length < new.length) (n : Nat) (xs : List Char) :
    (xs.drop n).length ≤ (replaceRuns old new n xs).length ∧
      (old ≠ [] → old <:+: xs.drop n → (xs.drop n).length < (replaceRuns old new n xs).length) := by
  fun_induction replaceRuns old new n xs with
  | case1 n => simp +contextual
  | case2 n c cs ih => simpa using ih
  | case3 c cs hoccurs ih =>
    have hlength := (List.isPrefixOf_iff_prefix.mp hoccurs).length_le
    have hleft := ih.1
    simp only [List.length_drop, List.drop_zero, List.length_append, List.length_cons] at hleft hlength ⊢
    refine ⟨by omega, fun hne _ => ?_⟩
    have hpos := List.length_pos_of_ne_nil hne
    omega
  | case4 c cs hoccurs ih =>
    rw [List.drop_zero] at ih ⊢
    refine ⟨by simpa using ih.1, fun hne hinfix => ?_⟩
    rcases List.infix_cons_iff.mp hinfix with hprefix | hinfix
    · exact absurd (List.isPrefixOf_iff_prefix.mpr hprefix) hoccurs
    · simpa using ih.2 hne hinfix

theorem replaceRuns_eq_self_iff (hne : old ≠ []) (hlonger : old.length < new.length) (xs : List Char) :
    replaceRuns old new 0 xs = xs ↔ ¬ old <:+: xs := by
  refine ⟨fun heq hinfix => ?_, replaceRuns_of_not_infix⟩
  have hlength := (length_replaceRuns hlonger 0 xs).2 hne hinfix
  rw [heq] at hlength
  exact Nat.lt_irrefl _ hlength

theorem length_replaceEmpty (new xs : List Char) : (replaceEmpty new xs).length = xs.length + (xs.length + 1) * new.length := by
  induction xs with
  | nil => simp [replaceEmpty]
  | cons c cs ih =>
    rw [replaceEmpty, List.length_append, List.length_cons, ih, List.length_cons]
    ring

end

namespace Path

def folders (path : String) : List (List Char) := (parts path).dropLast

def beside (path file : String) : String := String.ofList (List.intercalate ['/'] (folders path ++ [file.toList]))

theorem parts_eq (path : String) : parts path = folders path ++ [(lastName path).toList] := by
  rw [lastName_eq, String.toList_ofList]
  exact (List.dropLast_append_getLast _).symm

theorem toList_eq (path : String) : path.toList = List.intercalate ['/'] (folders path ++ [(lastName path).toList]) := by
  rw [← parts_eq, parts, List.intercalate_splitOn]

theorem slash_not_mem_lastName (path : String) : '/' ∉ (lastName path).toList := by
  have hmem : (lastName path).toList ∈ parts path := by simp [parts_eq]
  exact not_mem_of_mem_splitOn hmem

theorem intercalate_slash_inj {ps qs : List (List Char)} (hlength : ps.length = qs.length) (hps : ∀ p ∈ ps, '/' ∉ p)
    (hqs : ∀ q ∈ qs, '/' ∉ q) (h : List.intercalate ['/'] ps = List.intercalate ['/'] qs) : ps = qs := by
  cases ps with
  | nil => exact (List.length_eq_zero_iff.mp hlength.symm).symm
  | cons p ps =>
    obtain ⟨q, qs, rfl⟩ := List.exists_cons_of_ne_nil (List.ne_nil_of_length_pos (l := qs) (by simp [← hlength]))
    rw [← List.splitOn_intercalate '/' hps (by simp), ← List.splitOn_intercalate '/' hqs (by simp), h]

theorem intercalate_slash_concat (ds : List (List Char)) (x : List Char) :
    List.intercalate ['/'] (ds ++ [x]) = ds.flatMap (· ++ ['/']) ++ x := by
  induction ds with
  | nil => simp
  | cons d ds ih =>
    rw [List.cons_append, List.intercalate_cons_of_ne_nil (by simp), ih]
    simp

theorem replaceAll_nameless_iff {path new : String} (hname : lastName path = "") (hnew : new ≠ "") :
    replaceAll path (lastName path) new = beside path new ↔ folders path = [] := by
  have hpath : path.toList = (folders path).flatMap (· ++ ['/']) := by
    rw [toList_eq, hname, intercalate_slash_concat, String.toList_empty, List.append_nil]
  have hpos : 0 < new.toList.length := List.length_pos_of_ne_nil (by simpa using hnew)
  rw [replaceAll, hname, if_pos (by decide), beside, String.ofList_inj, intercalate_slash_concat, ← hpath]
  constructor
  · intro heq
    have hlength := congrArg List.length heq
    rw [length_replaceEmpty, List.length_append, Nat.add_mul] at hlength
    have hzero : path.toList.length * new.toList.length = 0 := by omega
    rcases Nat.mul_eq_zero.mp hzero with hnil | hnil
    · rw [List.length_eq_zero_iff, hpath, List.flatMap_eq_nil_iff] at hnil
      exact List.eq_nil_iff_forall_not_mem.mpr fun d hd => by simpa using hnil d hd
    · omega
  · intro hfolders
    rw [hpath, hfolders]
    simp [replaceEmpty]

/-- A file that takes the place of the file name everywhere is beside a path if no folder has the file name in its name. -/
theorem replaceAll_lastName_iff {path new : String} (hslash : '/' ∉ new.toList) (hlonger : (lastName path).length < new.length) :
    replaceAll path (lastName path) new = beside path new ↔ ∀ d ∈ folders path, ¬ (lastName path).toList <:+: d := by
  have hlonger : (lastName path).toList.length < new.toList.length := by rwa [String.length_toList, String.length_toList]
  by_cases hname : lastName path = ""
  · rw [replaceAll_nameless_iff hname (by rintro rfl; simp at hlonger), hname, List.eq_nil_iff_forall_not_mem]
    simp
  · have hne : (lastName path).toList ≠ [] := by simpa using hname
    have hslash' := slash_not_mem_lastName path
    have hfolder {d : List Char} (hd : d ∈ folders path) : '/' ∉ d := by
      have hmem : d ∈ parts path := List.mem_of_mem_dropLast hd
      exact not_mem_of_mem_splitOn hmem
    have hparts := splitOn_replaceRuns hne hslash' hslash path.toList
    rw [show path.toList.splitOn '/' = _ from parts_eq path, List.map_append, List.map_singleton, replaceRuns_self hne] at hparts
    have hreplaced : replaceRuns (lastName path).toList new.toList 0 path.toList =
        List.intercalate ['/'] ((folders path).map (replaceRuns (lastName path).toList new.toList 0) ++ [new.toList]) := by
      rw [← hparts, List.intercalate_splitOn]
    rw [replaceAll, if_neg (by simpa using hname), beside, String.ofList_inj, hreplaced]
    have hkept : (folders path).map (replaceRuns (lastName path).toList new.toList 0) = folders path ↔
        ∀ d ∈ folders path, ¬ (lastName path).toList <:+: d := by
      conv_lhs => rw [← List.map_id (folders path), List.map_map, List.map_inj_left]
      exact forall₂_congr fun d _ => replaceRuns_eq_self_iff hne hlonger d
    rw [← hkept]
    refine ⟨fun heq => ?_, fun heq => by rw [heq]⟩
    refine (List.append_left_inj _).mp (intercalate_slash_inj (by simp) (fun p hp => ?_) (fun p hp => ?_) heq)
    · rcases List.mem_append.mp hp with hp | hp
      · obtain ⟨d, hd, rfl⟩ := List.mem_map.mp hp
        exact fun hmem => (mem_replaceRuns hmem).elim hslash (hfolder hd)
      · rwa [List.mem_singleton.mp hp]
    · rcases List.mem_append.mp hp with hp | hp
      · exact hfolder hp
      · rwa [List.mem_singleton.mp hp]

theorem ofString_file (folder : String) {file : String} (hslash : '/' ∉ file.toList) (hplain : IsPlain file.toList) :
    ofString (folder ++ "/" ++ file) = ofString folder ++ [file] := by
  have hparts : parts (folder ++ "/" ++ file) = parts folder ++ [file.toList] := by
    rw [@parts_below folder _ file.toList (by simp), List.splitOn_eq_singleton hslash]
  rw [ofString_eq, hparts, List.map_append, List.foldl_append, ← ofString_eq, foldl_extended _ (by simpa using hplain)]
  simp

end Path

/-! ## A run of compilations -/

namespace Native
variable {c c' c₀ : Compiler} {s s' s₀ : Session} {code : Code} {taken : List String} {listing : Listing} {name : String}

open Library (Built build_returns returns_compile isImportName_of_newName?)

def IsLibraryPlace (p : Path) : Prop := ∃ file ∈ p.getLast?, (libraryEnding? file).isSome

structure Turn where
  before : Files
  after : Files

def Turn.Puts (x : Turn) (p : Path) : Prop := x.before.content? p = none ∧ x.after.content? p ≠ none

/-- Compilations one after the other, with what each of them did. What is there at first counts as put there, and
other work between compilations leaves the files alone. -/
inductive Compilations (c₀ : Compiler) (s₀ : Session) : List Turn → Compiler → Session → Prop
  | start : Compilations c₀ s₀ [⟨{}, s₀.files⟩] c₀ s₀
  | other {history c s m} : Compilations c₀ s₀ history c s → m.files = s.files → Compilations c₀ s₀ history c m
  | compile {history c s c' s' code taken listing result} : Compilations c₀ s₀ history c s →
      Returns (Native.compile c code taken listing) s (c', result) s' →
      Compilations c₀ s₀ (history ++ [⟨s.files, s'.files⟩]) c' s'

theorem Compilations.puts {history : List Turn} {p : Path} (hrun : Compilations c₀ s₀ history c s)
    (hp : s.files.content? p ≠ none) : ∃ x ∈ history, x.Puts p := by
  induction hrun with
  | start => exact ⟨_, List.mem_singleton_self _, rfl, hp⟩
  | other _ hfiles ih => exact ih (hfiles ▸ hp)
  | @compile history c s _ _ _ _ _ _ _ _ ih =>
    by_cases hbefore : s.files.content? p = none
    · exact ⟨_, List.mem_append_right _ (List.mem_singleton_self _), hbefore, hp⟩
    · obtain ⟨x, hx, hputs⟩ := ih hbefore
      exact ⟨x, List.mem_append_left _ hx, hputs⟩

theorem not_libraryPlace_source (folder : String) (hname : isImportName name [] = true) :
    ¬ IsLibraryPlace (Path.ofString (folder ++ "/" ++ name ++ ".pyx")) := by
  have hslash : '/' ∉ (name ++ ".pyx").toList := by
    simpa using CommandLine.not_mem_importName hname (c := '/') (by decide) (by decide)
  rintro ⟨file, hfile, hending⟩
  rw [String.append_assoc, Path.ofString_file folder hslash (Path.isPlain_of_length (by simp))] at hfile
  obtain rfl : name ++ ".pyx" = file := by simpa using hfile
  have hends {front : List Char} {last : Char} (hlast : last ≠ 'x') :
      (name ++ ".pyx").endsWith (String.ofList (front ++ [last])) = false := by
    rw [← Bool.not_eq_true]
    intro hends
    have hsuffix : front ++ [last] <:+ name.toList ++ ['.', 'p', 'y', 'x'] := by simpa [← String.endsWith_toSlice] using hends
    obtain ⟨before, heq⟩ := hsuffix
    have hgot := congrArg List.getLast? heq
    simp [← List.append_assoc] at hgot
    exact hlast hgot
  rw [libraryEnding?, show ".pyd" = String.ofList (['.', 'p', 'y'] ++ ['d']) from rfl, hends (by decide),
    show ".so" = String.ofList (['.', 's'] ++ ['o']) from rfl, hends (by decide)] at hending
  simp at hending

/-! ## The library that is returned -/

theorem length_candidate (base : String) (i : Nat) : base.length + 7 ≤ (candidate base i).length := by
  have hfront : "Native_".length = 7 := rfl
  rw [candidate]
  split
  · rw [String.length_append, hfront, Nat.add_comm]
  · simp only [String.length_append, toString, hfront]
    omega

theorem length_dropSuffix (file suffix : String) : file.length ≤ (dropSuffix file suffix).length + suffix.length := by
  rw [dropSuffix]
  split
  · rw [String.length_ofList, List.length_take, String.length_toList]
    omega
  · omega

theorem longer_of_newName? {loaded : List String} (ending : String)
    (hname : c.newName? (dropSuffix code.fileName ".py") taken loaded = some name) :
    code.fileName.length < (name ++ "." ++ ending).length := by
  obtain ⟨i, -, rfl⟩ := List.mem_map.mp (List.mem_of_find?_eq_some hname)
  have hcandidate := length_candidate (dropSuffix code.fileName ".py") i
  have hbase : code.fileName.length ≤ (dropSuffix code.fileName ".py").length + 3 := length_dropSuffix _ ".py"
  simp only [String.length_append]
  omega

/-- A library was put into the folder where a source is compiled that can be taken for the one of the source. -/
def Turn.Shadows (x : Turn) (code : Code) (name : String) : Prop :=
  ∃ file, x.Puts (Path.ofString (cacheFolder code.path) ++ [file]) ∧ file.startsWith name = true ∧
    (libraryEnding? file).isSome

theorem content?_of_built {command : Option String} {file ending : String} {bytes : List Nat} {files : Files}
    (h : Built command name code s s' file ending bytes files) (hname : isImportName name [] = true) :
    files.content? (Path.ofString (cacheFolder code.path) ++ [file]) =
      s.files.content? (Path.ofString (cacheFolder code.path) ++ [file]) := by
  obtain ⟨files₁, hfolders, hsource⟩ := h.source
  have hplace : IsLibraryPlace (Path.ofString (cacheFolder code.path) ++ [file]) := ⟨file, by simp, by simp [h.ends]⟩
  rw [Files.write_eq_put hsource, Files.content?_put, if_neg, Files.content?_makeFolders hfolders]
  exact fun heq => not_libraryPlace_source _ hname (heq ▸ hplace)

/-- Whatever a build does to the files, after any compilations and in whatever order a folder lists its files: a library
that is returned is beside its source exactly if no folder on the way has the file name in its name. It is one of the
files that are there after the source was written and the toolchain has worked on it, and it is one that was not there
before the toolchain worked if no library was put there earlier with a name that begins with the new one. -/
theorem compile_returns_made {history : List Turn} {library : Source} (hrun : Compilations c₀ s₀ history c s)
    (h : Returns (compile c code taken listing) s (c', .ok (some library)) s') :
    ∃ name file ending bytes files,
      c.newName? (dropSuffix code.fileName ".py") taken s.toolchain.loaded = some name ∧
      library = .native library.path bytes ∧ Built c.command name code s s' file ending bytes files ∧
      (library.path = Path.beside code.path (name ++ "." ++ ending) ↔
        ∀ d ∈ Path.folders code.path, ¬ code.fileName.toList <:+: d) ∧
      ((∀ x ∈ history, ¬ x.Shadows code name) →
        files.content? (Path.ofString (cacheFolder code.path) ++ [file]) = none) := by
  rcases returns_compile h with ⟨-, hnone⟩ | ⟨name, hname, hbuild⟩
  · cases hnone
  obtain ⟨file, ending, bytes, files, hbuilt, rfl⟩ := build_returns hbuild
  have himport := isImportName_of_newName? hname
  have hslash : '/' ∉ (name ++ "." ++ ending).toList := by
    have hmem := CommandLine.not_mem_importName himport (c := '/') (by decide) (by decide)
    rcases Library.ending_of_libraryEnding? hbuilt.ends with rfl | rfl <;> simpa using hmem
  refine ⟨name, file, ending, bytes, files, hname, rfl, hbuilt,
    Path.replaceAll_lastName_iff hslash (longer_of_newName? ending hname), fun hclear => ?_⟩
  rw [content?_of_built hbuilt himport]
  by_contra hold
  obtain ⟨x, hx, hputs⟩ := hrun.puts hold
  exact hclear x hx ⟨file, hputs, hbuilt.starts, by simp [hbuilt.ends]⟩

theorem returns_compile_of {command : String} {files₁ files₂ files₃ : Files}
    (hname : c.newName? (dropSuffix code.fileName ".py") taken s.toolchain.loaded = some name)
    (hcommand : c.command = some command) (hfolder : s.files.makeFolders (cacheFolder code.path) = .ok files₁)
    (hsource : files₁.write (cacheFolder code.path ++ "/" ++ name ++ ".pyx") code.bytes = .ok files₂)
    (hsetup : s.toolchain.setup command (cacheFolder code.path ++ "/" ++ name ++ ".pyx") (cacheFolder code.path) files₂ =
      (files₃, none)) (listing : Listing) :
    ∃ s', Returns (compile c code taken listing) s
      ({ c with generated := c.generated ++ [name] },
        .ok ((findLibrary files₃ (cacheFolder code.path) name listing).map fun found =>
          .native (replaceAll code.path code.fileName (name ++ "." ++ found.1)) found.2)) s' ∧
      s'.files = files₃ ∧ s'.toolchain = s.toolchain := by
  have hgiven : c.name? (dropSuffix code.fileName ".py") taken s.toolchain.loaded =
      some (name, { c with generated := c.generated ++ [name] }) := by
    rw [Compiler.name?, hname]
    rfl
  let written (files : Files) : Session :=
    { s with files, log := s.log.write .info ["Compiling " ++ code.fileName ++ " as native module..."] }
  have hruns : Returns (runSetup command (cacheFolder code.path ++ "/" ++ name ++ ".pyx") (cacheFolder code.path))
      (written files₂) () { written files₃ with compilerSet := some command } := by
    rw [Returns, Library.outcome_runSetup]
    simp only [written, hsetup]
  have hbuild : Returns (build c.command name code listing) s
      ((findLibrary files₃ (cacheFolder code.path) name listing).map fun found =>
        .native (replaceAll code.path code.fileName (name ++ "." ++ found.1)) found.2)
      { written files₃ with compilerSet := some command } := by
    unfold build
    rw [hcommand]
    exact .bind (Library.returns_makeFolders.mpr ⟨files₁, hfolder, rfl⟩) (.bind
      (Library.returns_writeFile.mpr ⟨files₂, hsource, rfl⟩) (.bind rfl (.bind hruns (.bind rfl rfl))))
  refine ⟨{ written files₃ with compilerSet := some command }, ?_, rfl, rfl⟩
  unfold compile
  refine .bind rfl ?_
  rw [hgiven]
  refine .bind ?_ rfl
  rw [Returns, Library.outcome_observed, hbuild]

theorem namedParts_eq (path : String) : namedParts path =
    (((path.toList.splitOn '/').map String.ofList).filter fun p => p != "" && p != ".") := by
  rw [namedParts, show path.splitOn "/" = _ from splitOn_single path '/']

def asMade : Listing := fun fs p => fs.files.filterMap fun f => if f.1.dropLast == p then f.1.getLast? else none

theorem asMade_perm (fs : Files) (p : Path) : (asMade fs p).Perm (inOrder fs p) := by
  have hsame : asMade fs p =
      fs.files.filterMap fun f => if f.1.dropLast == p && !f.1.isEmpty then f.1.getLast? else none := by
    refine List.filterMap_congr fun f _ => ?_
    cases f.1 <;> simp
  rw [hsame]
  exact (List.mergeSort_perm _ _).symm

def numberedModule : Code := ⟨"a/m_1.py", "x"⟩
def plainModule : Code := ⟨"a/m.py", "y"⟩
def unrelatedModule : Code := ⟨"a/n.py", "z"⟩

def repeatedModule : Code := ⟨"m.py.d/m.py", "x = 1"⟩

def copying : Toolchain where
  setup := fun _ source _ files =>
    (files.put (Path.ofString (source ++ ".so")) ((files.content? (Path.ofString source)).getD []), none)

def leaves (folder name : String) (code : Code) : List (Path × List Nat) :=
  [(["cache", folder, name ++ ".pyx"], code.bytes), (["cache", folder, name ++ ".pyx.so"], code.bytes)]

def filesIn (folder : String) (files : List (Path × List Nat)) : Files := { files, folders := [["cache"], ["cache", folder]] }

def gcc (generated : List String) : Compiler := { Compiler.ofPath "gcc" with generated }

theorem compile_in {folder file name : String} {generated : List String} {old : List (Path × List Nat)}
    (hfile : code.fileName = file) (hcache : cacheFolder code.path = "cache/" ++ folder)
    (hname : (gcc generated).newName? (dropSuffix file ".py") [] = some name) (hcopying : s.toolchain = copying)
    (hfolder : s.files.makeFolders ("cache/" ++ folder) = .ok (filesIn folder old))
    (hsource : (filesIn folder old).write ("cache/" ++ folder ++ "/" ++ name ++ ".pyx") code.bytes =
      .ok (filesIn folder (old ++ (leaves folder name code).take 1)))
    (hlibrary : (copying.setup "" ("cache/" ++ folder ++ "/" ++ name ++ ".pyx") ""
      (filesIn folder (old ++ (leaves folder name code).take 1))).1 = filesIn folder (old ++ leaves folder name code))
    (listing : Listing) :
    ∃ s', Returns (compile (gcc generated) code [] listing) s
      (gcc (generated ++ [name]),
        .ok ((findLibrary (filesIn folder (old ++ leaves folder name code)) ("cache/" ++ folder) name listing).map
        fun found => .native (replaceAll code.path file (name ++ "." ++ found.1)) found.2)) s' ∧
      s'.files = filesIn folder (old ++ leaves folder name code) ∧ s'.toolchain = copying := by
  have hcompile := @returns_compile_of (gcc generated) s code [] name "gcc -Ofast" _ _ _
    (by rw [hcopying]; exact hfile ▸ hname) rfl (hcache ▸ hfolder) (hcache ▸ hsource)
    (by rw [hcopying, hcache]; exact Prod.ext hlibrary rfl) listing
  rwa [hcache, hfile, hcopying] at hcompile

theorem compile_numbered (listing : Listing) :
    ∃ s', Returns (compile (gcc []) numberedModule [] listing) { toolchain := copying }
      (gcc ["Native_m_1"], .ok ((findLibrary (filesIn "a" (leaves "a" "Native_m_1" numberedModule)) "cache/a"
        "Native_m_1" listing).map
        fun found => .native (replaceAll "a/m_1.py" "m_1.py" ("Native_m_1" ++ "." ++ found.1)) found.2)) s' ∧
      s'.files = filesIn "a" (leaves "a" "Native_m_1" numberedModule) ∧ s'.toolchain = copying := by
  refine @compile_in { toolchain := copying } numberedModule "a" "m_1.py" "Native_m_1" [] [] ?_ ?_ (by decide +kernel) rfl
    ?_ ?_ ?_ listing
  · rw [Code.fileName, Path.lastName_eq]
    rfl
  · simp only [cacheFolder, namedParts_eq]
    decide +kernel
  · simp only [Files.makeFolders, Path.ofString_eq]
    rfl
  · simp only [Files.write, Path.ofString_eq]
    rfl
  · simp only [copying, Path.ofString_eq]
    rfl

theorem compile_after_numbered {base : String}
    (hcode : code = plainModule ∧ base = "m" ∨ code = unrelatedModule ∧ base = "n")
    (hfiles : s.files = filesIn "a" (leaves "a" "Native_m_1" numberedModule)) (hcopying : s.toolchain = copying)
    (listing : Listing) :
    ∃ s', Returns (compile (gcc ["Native_m_1"]) code [] listing) s (gcc ["Native_m_1", "Native_" ++ base],
      .ok ((findLibrary (filesIn "a" (leaves "a" "Native_m_1" numberedModule ++ leaves "a" ("Native_" ++ base) code))
        "cache/a" ("Native_" ++ base) listing).map
        fun found => .native (replaceAll code.path (base ++ ".py") ("Native_" ++ base ++ "." ++ found.1)) found.2)) s' ∧
      s'.files = filesIn "a" (leaves "a" "Native_m_1" numberedModule ++ leaves "a" ("Native_" ++ base) code) ∧
      s'.toolchain = copying := by
  refine compile_in ?_ ?_ ?_ hcopying ?_ ?_ ?_ listing
  · rw [Code.fileName, Path.lastName_eq]
    rcases hcode with ⟨rfl, rfl⟩ | ⟨rfl, rfl⟩ <;> rfl
  · simp only [cacheFolder, namedParts_eq]
    rcases hcode with ⟨rfl, rfl⟩ | ⟨rfl, rfl⟩ <;> decide +kernel
  · rcases hcode with ⟨rfl, rfl⟩ | ⟨rfl, rfl⟩ <;> decide +kernel
  · rw [hfiles]
    simp only [Files.makeFolders, Path.ofString_eq]
    rfl
  · simp only [Files.write, Path.ofString_eq]
    rcases hcode with ⟨rfl, rfl⟩ | ⟨rfl, rfl⟩ <;> rfl
  · simp only [copying, Path.ofString_eq]
    rcases hcode with ⟨rfl, rfl⟩ | ⟨rfl, rfl⟩ <;> rfl

theorem compile_returns_made_unrelated : ∃ s s' : Session, ∃ history library file ending bytes files,
    Compilations (gcc []) { toolchain := copying } history (gcc ["Native_m_1"]) s ∧ history.length = 2 ∧
      Returns (compile (gcc ["Native_m_1"]) unrelatedModule [] asMade) s
        (gcc ["Native_m_1", "Native_n"], .ok (some library)) s' ∧
      Built (some "gcc -Ofast") "Native_n" unrelatedModule s s' file ending bytes files ∧
      library = .native (Path.beside "a/n.py" ("Native_n" ++ "." ++ ending)) bytes ∧
      files.content? ["cache", "a", file] = none := by
  obtain ⟨s, hnumbered, hfiles, hcopying⟩ := compile_numbered inOrder
  obtain ⟨s', hunrelated, -, -⟩ := compile_after_numbered (.inr ⟨rfl, rfl⟩) hfiles hcopying asMade
  have hfound : findLibrary
      (filesIn "a" (leaves "a" "Native_m_1" numberedModule ++ leaves "a" ("Native_" ++ "n") unrelatedModule))
      "cache/a" ("Native_" ++ "n") asMade = some ("so", unrelatedModule.bytes) := by
    rw [findLibrary, Path.ofString_eq]
    decide +kernel
  rw [hfound] at hunrelated
  have hrun := Compilations.compile .start hnumbered
  obtain ⟨name, file, ending, bytes, files, hname, hlibrary, hbuilt, hpath, hclear⟩ :=
    compile_returns_made hrun hunrelated
  have hgiven : (gcc ["Native_m_1"]).newName? (dropSuffix unrelatedModule.fileName ".py") [] = some "Native_n" := by
    rw [Code.fileName, Path.lastName_eq]
    decide +kernel
  rw [hcopying] at hname
  obtain rfl : "Native_n" = name := Option.some.inj (hgiven.symm.trans hname)
  have hfolder : Path.ofString (cacheFolder unrelatedModule.path) = ["cache", "a"] := by
    simp only [cacheFolder, namedParts_eq, Path.ofString_eq]
    decide +kernel
  rw [hfolder] at hclear
  have hbeside := hpath.mpr (by
    rw [Code.fileName, Path.lastName_eq]
    decide +kernel)
  refine ⟨s, s', _, _, file, ending, bytes, files, hrun, rfl, hunrelated, hbuilt, hlibrary.trans (by rw [hbeside]; rfl),
    hclear ?_⟩
  rintro x hx ⟨file, ⟨-, hputs⟩, hstarts, -⟩
  rw [hfolder] at hputs
  rcases List.mem_pair.mp hx with rfl | rfl
  · exact hputs rfl
  · have hmem : file = "Native_m_1.pyx" ∨ file = "Native_m_1.pyx.so" := by
      by_contra hother
      rw [not_or] at hother
      exact hputs (by simp [hfiles, Files.content?, filesIn, leaves, Ne.symm hother.1, Ne.symm hother.2])
    rcases hmem with rfl | rfl <;> exact absurd hstarts (by decide +kernel)

/-- A library goes to another folder than its source where the folder has the file name in its name, and the library
of a module with a longer name is taken for the one of a module in the same folder where it is on the list before it. -/
theorem libraries_stray :
    (∃ s', Returns (compile (gcc []) repeatedModule []) { toolchain := copying }
      (gcc ["Native_m"], .ok (some (.native "Native_m.so.d/Native_m.so" repeatedModule.bytes))) s') ∧
    Path.beside repeatedModule.path "Native_m.so" = "m.py.d/Native_m.so" ∧
    (∃ s c s', Returns (compile (gcc []) numberedModule []) { toolchain := copying } c s ∧
      Returns (compile c.1 plainModule [] asMade) s
        (gcc ["Native_m_1", "Native_m"], .ok (some (.native "a/Native_m.so" numberedModule.bytes))) s') ∧
    numberedModule.bytes ≠ plainModule.bytes ∧ ∀ fs p, (asMade fs p).Perm (inOrder fs p) := by
  refine ⟨?_, by decide +kernel, ?_, by decide +kernel, asMade_perm⟩
  · obtain ⟨s', hrepeated, -⟩ := @compile_in { toolchain := copying } repeatedModule "m.py.d" "m.py" "Native_m" [] []
      (by rw [Code.fileName, Path.lastName_eq]; rfl) (by simp only [cacheFolder, namedParts_eq]; decide +kernel)
      (by decide +kernel) rfl (by simp only [Files.makeFolders, Path.ofString_eq]; rfl)
      (by simp only [Files.write, Path.ofString_eq]; rfl) (by simp only [copying, Path.ofString_eq]; rfl)
      inOrder
    have hfound : findLibrary (filesIn "m.py.d" ([] ++ leaves "m.py.d" "Native_m" repeatedModule)) ("cache/" ++ "m.py.d")
        "Native_m" = some ("so", repeatedModule.bytes) := by
      have hlisted : inOrder (filesIn "m.py.d" (leaves "m.py.d" "Native_m" repeatedModule)) ["cache", "m.py.d"] =
        ["Native_m.pyx", "Native_m.pyx.so"] :=
        List.mergeSort_of_pairwise (by decide +kernel)
      rw [findLibrary, Path.ofString_eq, show ((Path.parts ("cache/" ++ "m.py.d")).map String.ofList).foldl
        Path.extended [] = ["cache", "m.py.d"] by decide +kernel, List.nil_append, hlisted]
      decide +kernel
    rw [hfound] at hrepeated
    exact ⟨s', hrepeated⟩
  · obtain ⟨s, hnumbered, hfiles, hcopying⟩ := compile_numbered inOrder
    obtain ⟨s', hplain, -⟩ := compile_after_numbered (.inl ⟨rfl, rfl⟩) hfiles hcopying asMade
    have hfound : findLibrary
        (filesIn "a" (leaves "a" "Native_m_1" numberedModule ++ leaves "a" ("Native_" ++ "m") plainModule)) "cache/a"
        ("Native_" ++ "m") asMade = some ("so", numberedModule.bytes) := by
      rw [findLibrary, Path.ofString_eq]
      decide +kernel
    rw [hfound] at hplain
    exact ⟨s, _, s', hnumbered, hplain⟩

end Native
end SourceOptimizer
