import SourceOptimizer.Proofs.Observation
import SourceOptimizer.Proofs.Rounds
import SourceOptimizer.Proofs.SourceUpdates

/-! What is worked on does not depend on the log and the sources: work goes the same way in two sessions that
differ in nothing else, and carries along a condition that passes keep. -/
namespace SourceOptimizer.Work
open Pass
open PassKind (registered)

variable {σ : Type} {s s' : Session} {library : Source} {c c' : Compiler} {name ending : String} {taken : List String}
  {code : Code} {w : Worker} {ws' : List Worker}

variable {α β : Type} {I : Session → Prop}

/-- Work that keeps a condition, and that goes the same way with any other log and sources. -/
structure Couples (I : Session → Prop) (x : Work α) : Prop where
  again : ∀ s log sources, I s → ∃ log' sources', outcome x { s with log := log, sources := sources } =
    ((outcome x s).1, { (outcome x s).2 with log := log', sources := sources' })
  holds : ∀ s, I s → I (outcome x s).2

namespace Couples

theorem of_update {x : Work α} (result : Session → Except Fault α) (next : Session → Session)
    (hx : ∀ s, outcome x s = (result s, next s)) (hresult : ∀ s log sources, result { s with log := log, sources := sources } = result s)
    (hnext : ∀ s log sources, ∃ log' sources',
      next { s with log := log, sources := sources } = { next s with log := log', sources := sources' })
    (hI : ∀ s, I s → I (next s)) : Couples I x where
  again s log sources _ := by
    obtain ⟨log', sources', heq⟩ := hnext s log sources
    exact ⟨log', sources', by rw [hx, hx, hresult, heq]⟩
  holds s h := by
    rw [hx]
    exact hI s h

theorem pure (a : α) : Couples I (pure a : Work α) :=
  of_update (fun _ => .ok a) id (fun _ => rfl) (fun _ _ _ => rfl) (fun _ _ _ => ⟨_, _, rfl⟩) fun _ h => h

theorem throw (e : Fault) : Couples I (throw e : Work α) :=
  of_update (fun _ => .error e) id (fun _ => rfl) (fun _ _ _ => rfl) (fun _ _ _ => ⟨_, _, rfl⟩) fun _ h => h

theorem modify {f : Session → Session} (hf : ∀ s log sources, ∃ log' sources',
      f { s with log := log, sources := sources } = { f s with log := log', sources := sources' }) (hI : ∀ s, I s → I (f s)) :
    Couples I (modify f : Work PUnit) := of_update (fun _ => .ok ⟨⟩) f (fun _ => rfl) (fun _ _ _ => rfl) hf hI

theorem bind_returns {x : Work α} {f : α → Work β} (hx : Couples I x) (hf : ∀ a, (∃ s s', Returns x s a s') → Couples I (f a)) :
    Couples I (x >>= f) where
  again s log sources hs := by
    obtain ⟨log', sources', hagain⟩ := hx.again s log sources hs
    have hholds := hx.holds s hs
    rw [outcome_bind, outcome_bind, hagain]
    rcases hm : outcome x s with ⟨e | a, m⟩ <;> rw [hm] at hholds
    · exact ⟨log', sources', rfl⟩
    · exact (hf a ⟨s, m, hm⟩).again m log' sources' hholds
  holds s hs := by
    have hholds := hx.holds s hs
    rw [outcome_bind]
    rcases hm : outcome x s with ⟨e | a, m⟩ <;> rw [hm] at hholds
    · exact hholds
    · exact (hf a ⟨s, m, hm⟩).holds m hholds

theorem bind {x : Work α} {f : α → Work β} (hx : Couples I x) (hf : ∀ a, Couples I (f a)) : Couples I (x >>= f) :=
  hx.bind_returns fun a _ => hf a

theorem of_returns {x : Work α} (hx : Couples I x) {a : α} (hs : I s) (h : Returns x s a s') : I s' := by
  have hholds := hx.holds s hs
  rw [h] at hholds
  exact hholds

theorem get {f : Session → Work α} (hf : ∀ s, I s → Couples I (f s))
    (hsame : ∀ s log sources, f { s with log := log, sources := sources } = f s) : Couples I (get >>= f) where
  again s log sources hs := by
    have heq : outcome (MonadState.get >>= f) { s with log := log, sources := sources } =
        outcome (f { s with log := log, sources := sources }) { s with log := log, sources := sources } := rfl
    rw [heq, hsame]
    exact (hf s hs).again s log sources hs
  holds s hs := (hf s hs).holds s hs

theorem ofExcept (x : Except Fault α) : Couples I (ofExcept x) := by
  cases x with
  | ok a => exact .pure a
  | error e => exact .throw e

theorem tryCatch {x : Work α} {handle : Fault → Work α} (hx : Couples I x) (hhandle : ∀ e, Couples I (handle e)) :
    Couples I (tryCatch x handle) := by
  refine ⟨fun s log sources hs => ?_, fun s hs => ?_⟩
  · obtain ⟨log', sources', hagain⟩ := hx.again s log sources hs
    have hholds := hx.holds s hs
    rw [outcome_tryCatch, outcome_tryCatch, hagain]
    rcases hm : outcome x s with ⟨e | a, m⟩ <;> rw [hm] at hholds
    · exact (hhandle e).again m log' sources' hholds
    · exact ⟨log', sources', rfl⟩
  · have hholds := hx.holds s hs
    rw [outcome_tryCatch]
    rcases hm : outcome x s with ⟨e | a, m⟩ <;> rw [hm] at hholds
    · exact (hhandle e).holds m hholds
    · exact hholds

theorem look (t : Tree) : Couples I (look t) := .get (fun _ _ => .pure _) fun _ _ _ => rfl

theorem print (t : Tree) : Couples I (print t) :=
  .bind (.get (fun _ _ => .pure _) fun _ _ _ => rfl) fun _ => .ofExcept _

end Couples

/-! ## Passes -/

def Lasting (I : Session → Prop) : Prop :=
  ∀ s store log changed notices infinity notANumber, I s → I { s with
    store := store, log := log, changed := changed, notices := notices, infinity := infinity, notANumber := notANumber }

section
variable (hI : Lasting I)
include hI

theorem Lasting.store (s : Session) (store : Store) (hs : I s) : I { s with store := store } :=
  hI s store s.log s.changed s.notices s.infinity s.notANumber hs

theorem couples_write (level : LogLevel) (parts : List String) : Couples I (write level parts) :=
  .modify (fun _ _ _ => ⟨_, _, rfl⟩) fun s hs => hI s s.store _ s.changed s.notices s.infinity s.notANumber hs

theorem couples_keep (t : Tree) : Couples I (keep t) := .modify (fun _ _ _ => ⟨_, _, rfl⟩) fun s hs => hI.store s _ hs

theorem couples_of_store {x : Work α} (f : Store → α × Store)
    (hx : ∀ s, outcome x s = (.ok (f s.store).1, { s with store := (f s.store).2 })) : Couples I x :=
  .of_update _ _ hx (fun _ _ _ => rfl) (fun _ _ _ => ⟨_, _, rfl⟩) fun s hs => hI.store s _ hs

theorem couples_adopt (t : Tree) : Couples I (adopt t) := couples_of_store hI (·.adopt t) fun _ => rfl

theorem couples_share (t : Tree) : Couples I (share t) := couples_of_store hI (·.share t) fun _ => rfl

theorem couples_locate (t : Tree) : Couples I (locate t) := couples_of_store hI (·.locate t) fun _ => rfl

theorem couples_remember (notice : Notice) : Couples I (remember notice) :=
  .of_update (fun s => .ok !s.notices.contains notice)
    (fun s => if s.notices.contains notice then s else { s with notices := s.notices ++ [notice] })
    (fun s => by
      rw [remember, outcome_bind, show outcome MonadState.get s = (.ok s, s) from rfl]
      dsimp only
      split <;> simp_all <;> rfl)
    (fun _ _ _ => rfl)
    (fun s log sources => by
      by_cases hknown : s.notices.contains notice = true
      · simp only [hknown]
        exact ⟨_, _, rfl⟩
      · simp only [hknown]
        exact ⟨_, _, rfl⟩)
    fun s hs => by
      split
      · exact hs
      · exact hI s s.store s.log s.changed _ s.infinity s.notANumber hs

theorem reporting_couples : Reporting fun _ x => Couples I x where
  pure := .pure
  bind := .bind
  throw := .throw
  look := .look
  print := .print
  write := couples_write hI .warn
  view hf hsame := .get (fun s _ => hf s) fun _ _ _ => hsame rfl

theorem observant_couples : Observant fun _ x => Couples I x where
  pure := .pure
  throw := .throw
  bind := .bind
  look := .look
  keep := couples_keep hI
  adopt := couples_adopt hI
  done := .modify (fun _ _ _ => ⟨_, _, rfl⟩) fun s hs => hI s s.store s.log _ s.notices s.infinity s.notANumber hs
  flag := (reporting_couples hI).flag (couples_remember hI)
  share := couples_share hI
  view hf hsame := .get (fun s _ => hf s) fun _ _ _ => hsame ⟨fun _ => rfl, fun _ => rfl, rfl, rfl, rfl⟩

theorem inventive_couples : Inventive fun _ x => Couples I x where
  pure := .pure
  throw := .throw
  bind := .bind
  view hf hsame := .get (fun s _ => hf s) fun _ _ _ => hsame ⟨fun _ => rfl, fun _ => rfl, rfl, rfl, rfl⟩
  adopt := couples_adopt hI
  share := couples_share hI
  number _ hx := .of_update _ _ hx (fun _ _ _ => rfl) (fun _ _ _ => ⟨_, _, rfl⟩) fun s hs => hI.store s _ hs
  infinity _ := .modify (fun _ _ _ => ⟨_, _, rfl⟩) fun s hs => hI s s.store s.log s.changed s.notices _ s.notANumber hs
  notANumber _ := .modify (fun _ _ _ => ⟨_, _, rfl⟩) fun s hs => hI s s.store s.log s.changed s.notices s.infinity _ hs

end

/-! ## Native modules -/

/-- What a library that is made for a source is called. -/
def IsLibraryOf (c : Code) (library : Source) : Prop :=
  ∃ name ending bytes, SourceOptimizer.Native.isImportName name [] = true ∧ (ending = "pyd" ∨ ending = "so") ∧
    library = .native (replaceAll c.path c.fileName (name ++ "." ++ ending)) bytes

theorem IsLibraryOf.of_path {c d : Code} (h : IsLibraryOf c library) (hpath : d.path = c.path) :
    IsLibraryOf d library := by
  obtain ⟨name, ending, bytes, hname, hending, rfl⟩ := h
  exact ⟨name, ending, bytes, hname, hending, by rw [hpath, Code.fileName, Code.fileName, hpath]⟩

/-- A condition that native compilation keeps as well. Libraries are made for sources that satisfy `origin`. -/
structure Enduring (I : Session → Prop) (origin : Code → Prop) : Prop where
  lasting : Lasting I
  current : ∀ s c, I s → s.current = some c → origin c
  files : ∀ s files compilerSet, I s → I { s with files := files, compilerSet := compilerSet }
  library : ∀ s c library, I s → origin c → IsLibraryOf c library → I { s with sources := s.sources ++ [library] }

namespace Library
open SourceOptimizer.Native

theorem outcome_observed (x : Work α) (s : Session) : outcome (observed x) s = (.ok (outcome x s).1, (outcome x s).2) := by
  unfold observed
  rw [outcome_bind, outcome_tryCatch, outcome_bind]
  rcases outcome x s with ⟨e | a, m⟩ <;> rfl

theorem ending_of_libraryEnding? {file : String} (h : libraryEnding? file = some ending) : ending = "pyd" ∨ ending = "so" := by
  unfold libraryEnding? at h
  split at h
  · exact .inl (Option.some.inj h).symm
  · split at h
    · exact .inr (Option.some.inj h).symm
    · cases h

theorem returns_changeFiles {f : Files → Except Fault Files} :
    Returns (do
      let s ← get
      let files ← Work.ofExcept (f s.files)
      set { s with files }) s () s' ↔ ∃ files, f s.files = .ok files ∧ { s with files } = s' := by
  constructor
  · intro h
    replace h := returns_get_bind.mp h
    obtain ⟨files, _, hchange, h⟩ := returns_bind.mp h
    obtain ⟨hfiles, rfl⟩ := returns_ofExcept.mp hchange
    exact ⟨files, hfiles, returns_set.mp h⟩
  · rintro ⟨files, hfiles, hs'⟩
    exact .bind rfl (.bind (returns_ofExcept.mpr ⟨hfiles, rfl⟩) (returns_set.mpr hs'))

theorem returns_makeFolders {path : String} :
    Returns (makeFolders path) s () s' ↔
      ∃ files, s.files.makeFolders path = .ok files ∧ { s with files } = s' :=
  returns_changeFiles (f := (·.makeFolders path))

theorem returns_writeFile {path : String} {bytes : List Nat} :
    Returns (writeFile path bytes) s () s' ↔
      ∃ files, s.files.write path bytes = .ok files ∧ { s with files } = s' :=
  returns_changeFiles (f := (·.write path bytes))

theorem outcome_runSetup (command source folder : String) (s : Session) :
    outcome (runSetup command source folder) s =
      (match (s.toolchain.setup command source folder s.files).2 with
        | some e => .error e
        | none => .ok (),
        { s with files := (s.toolchain.setup command source folder s.files).1, compilerSet := some command }) := by
  rw [runSetup, outcome_bind, show outcome MonadState.get s = (.ok s, s) from rfl]
  dsimp only
  generalize s.toolchain.setup command source folder s.files = built
  obtain ⟨files, _ | e⟩ := built <;> rfl

theorem returns_runSetup {command source folder : String} (h : Returns (runSetup command source folder) s () s') :
    s.toolchain.setup command source folder s.files = (s'.files, none) := by
  rw [Returns, outcome_runSetup, Prod.mk.injEq] at h
  obtain ⟨hfault, rfl⟩ := h
  refine Prod.ext rfl ?_
  cases hsetup : (s.toolchain.setup command source folder s.files).2 with
  | none => rfl
  | some e =>
    rw [hsetup] at hfault
    cases hfault

theorem returns_findLibrary {folder : String} {listing : Listing} {found : String × List Nat}
    (h : findLibrary files folder name listing = some found) :
    ∃ file, file.startsWith name = true ∧ libraryEnding? file = some found.1 ∧
      files.content? (Path.ofString folder ++ [file]) = some found.2 := by
  obtain ⟨file, -, hfile⟩ := List.exists_of_findSome?_eq_some h
  split at hfile
  next hstarts =>
    obtain ⟨_, hending, hrest⟩ := Option.bind_eq_some_iff.mp hfile
    obtain ⟨_, hcontent, heq⟩ := Option.bind_eq_some_iff.mp hrest
    cases heq
    exact ⟨file, hstarts, hending, hcontent⟩
  · cases hfile

/-- A build that returns a library: the source file has been written, the toolchain has done its work, and the
library is one of the files that are there now. -/
structure Built (command : Option String) (name : String) (code : Code) (s s' : Session) (file : String)
    (ending : String) (bytes : List Nat) (files : Files) : Prop where
  source : ∃ files₁, s.files.makeFolders (cacheFolder code.path) = .ok files₁ ∧
    files₁.write (cacheFolder code.path ++ "/" ++ name ++ ".pyx") code.bytes = .ok files
  setup : ∃ c, command = some c ∧ s.toolchain.setup c (cacheFolder code.path ++ "/" ++ name ++ ".pyx")
    (cacheFolder code.path) files = (s'.files, none)
  starts : file.startsWith name = true
  ends : libraryEnding? file = some ending
  content : s'.files.content? (Path.ofString (cacheFolder code.path) ++ [file]) = some bytes

theorem build_returns {command : Option String} {listing : Listing}
    (h : Returns (build command name code listing) s (some library) s') :
    ∃ file ending bytes files, Built command name code s s' file ending bytes files ∧
      library = .native (replaceAll code.path code.fileName (name ++ "." ++ ending)) bytes := by
  unfold build at h
  obtain ⟨_, _, hfirst, h⟩ := returns_bind.mp h
  obtain ⟨files₁, hfolder, rfl⟩ := returns_makeFolders.mp hfirst
  obtain ⟨_, _, hsecond, h⟩ := returns_bind.mp h
  obtain ⟨files₂, hsource, rfl⟩ := returns_writeFile.mp hsecond
  replace h := returns_modify_bind.mp h
  split at h
  · exact absurd h returns_throw
  · obtain ⟨_, m, hsetup, h⟩ := returns_bind.mp h
    replace h := returns_get_bind.mp h
    obtain ⟨hfound, rfl⟩ := returns_pure.mp h
    obtain ⟨found, hfind, rfl⟩ := Option.map_eq_some_iff.mp hfound
    obtain ⟨file, hstarts, hending, hcontent⟩ := returns_findLibrary hfind
    exact ⟨file, found.1, found.2, files₂,
      ⟨⟨files₁, hfolder, hsource⟩, ⟨_, rfl, returns_runSetup hsetup⟩, hstarts, hending, hcontent⟩, rfl⟩

theorem returns_compile {listing : Listing} {result : Except Fault (Option Source)}
    (h : Returns (compile c code taken listing) s (c', result) s') :
    (s' = s ∧ result.toOption = none) ∨
      ∃ name, c.newName? (dropSuffix code.fileName ".py") taken s.toolchain.loaded = some name ∧
        outcome (build c.command name code listing) s = (result, s') := by
  unfold compile at h
  replace h := returns_get_bind.mp h
  split at h
  next hname =>
    cases h
    exact .inl ⟨rfl, rfl⟩
  next name next hname =>
    obtain ⟨n, hn, heq⟩ := Option.map_eq_some_iff.mp hname
    cases heq
    obtain ⟨r, hbuild, heq⟩ := returns_bind_pure.mp h
    cases heq
    rw [Returns, outcome_observed, Prod.mk.injEq, Except.ok.injEq] at hbuild
    exact .inr ⟨name, hn, Prod.ext hbuild.1 hbuild.2⟩

theorem isImportName_of_newName? {base : String} {loaded : List String}
    (h : c.newName? base taken loaded = some name) : isImportName name [] = true := by
  have hname := List.find?_some h
  simp only [isImportName, Bool.and_eq_true] at hname ⊢
  exact ⟨hname.1.1.1, rfl⟩

theorem of_compile (h : Returns (compile c code taken) s (c', .ok (some library)) s') : IsLibraryOf code library := by
  rcases returns_compile h with ⟨-, hnone⟩ | ⟨name, hname, hbuild⟩
  · cases hnone
  · obtain ⟨_, ending, bytes, _, hbuilt, heq⟩ := build_returns hbuild
    exact ⟨name, ending, bytes, isImportName_of_newName? hname, ending_of_libraryEnding? hbuilt.ends, heq⟩

end Library

namespace Enduring
open SourceOptimizer.Native Pass.Native Library
variable {origin : Code → Prop} (hI : Enduring I origin)
include hI

theorem writeFiles {f : Files → Except Fault Files} :
    Couples I (do
      let s ← get
      let files ← ofExcept (f s.files)
      set { s with files }) := by
  refine .of_update (fun s => (f s.files).map fun _ => ⟨⟩)
    (fun s => match f s.files with
      | .ok files => { s with files }
      | .error _ => s) (fun s => ?_) (fun _ _ _ => rfl) (fun s log sources => ?_) fun s hs => ?_
  · rw [outcome_bind, show outcome MonadState.get s = (.ok s, s) from rfl]
    dsimp only
    cases f s.files <;> rfl
  · cases f s.files with
    | ok files => exact ⟨log, sources, by simp only⟩
    | error e => exact ⟨log, sources, by simp only⟩
  · cases f s.files with
    | ok files => exact hI.files s files s.compilerSet hs
    | error e => exact hs

theorem makeFolders (path : String) : Couples I (makeFolders path) := hI.writeFiles (f := fun files => files.makeFolders path)

theorem writeFile (path : String) (bytes : List Nat) : Couples I (writeFile path bytes) :=
  hI.writeFiles (f := fun files => files.write path bytes)

theorem runSetup (command source folder : String) : Couples I (runSetup command source folder) :=
  .of_update _ _ (outcome_runSetup command source folder) (fun _ _ _ => rfl) (fun _ log sources => ⟨log, sources, rfl⟩)
    fun s hs => hI.files s _ _ hs

theorem build (command : Option String) (name : String) (code : Code) : Couples I (build command name code) := by
  refine .bind (hI.makeFolders _) fun _ => .bind (hI.writeFile _ _) fun _ => .bind (couples_write hI.lasting _ _) fun _ => ?_
  split
  · exact .throw _
  · exact .bind (hI.runSetup _ _ _) fun _ => .get (fun _ _ => .pure _) fun _ _ _ => rfl

omit hI in
theorem observed {x : Work α} (hx : Couples I x) : Couples I (observed x) where
  again s log sources hs := by
    obtain ⟨log', sources', hagain⟩ := hx.again s log sources hs
    exact ⟨log', sources', by rw [outcome_observed, outcome_observed, hagain]⟩
  holds s hs := by
    rw [outcome_observed]
    exact hx.holds s hs

theorem compile (c : Compiler) (code : Code) (taken : List String) : Couples I (compile c code taken) := by
  unfold Native.compile
  refine .get (fun s _ => ?_) fun _ _ _ => by dsimp only
  split
  · exact .pure _
  next name c _ => exact .bind (observed (hI.build c.command name code)) fun _ => .pure _

omit hI in
theorem bindLift {x : Work α} {f : α → StateT σ Work β} (hx : Couples I x)
    (hf : ∀ a, (∃ s s', Returns x s a s') → Always (fun _ x => Couples I x) (f a)) :
    Always (fun _ x => Couples I x) ((liftM x : StateT σ Work α) >>= f) := by
  intro n
  rw [StateT.run_bind, show ((liftM x : StateT σ Work α).run n) = x >>= fun a => Pure.pure (a, n) from rfl, bind_assoc]
  refine hx.bind_returns fun a ha => ?_
  exact hf a ha n

omit hI in
theorem session {f : Session → StateT σ Work α} (hf : ∀ s, I s → Always (fun _ x => Couples I x) (f s))
    (hsame : ∀ s log sources, f { s with log := log, sources := sources } = f s) :
    Always (fun _ x => Couples I x) (getThe Session >>= f) :=
  fun n => .get (fun s hs => hf s hs n) fun s log sources => by rw [hsame]

omit hI in
theorem findName (wanted : String) (i : Nat) (names : List Tree) : Couples I (findName wanted i names) := by
  induction names generalizing i with
  | nil => exact .pure _
  | cons t ts ih =>
    refine .bind (.bind (.look t) fun u => ?_) fun found => ?_
    · split
      · exact .pure _
      · exact .pure _
    · split
      · split
        · exact .pure _
        · exact ih _
      · exact ih _

theorem withoutMark (t : Tree) : Always (fun _ x => Couples I x) (withoutMark t) := by
  have hP := observant_couples hI.lasting
  refine Always.bind hP (Always.lift hP (.look t)) fun u => ?_
  split
  · extract_lets rest
    have hrest (found : Option (Nat × Option String)) : Always (fun _ x => Couples I x) (rest found) := by
      dsimp only [rest]
      split
      · exact Always.pure hP _
      · refine Always.bind hP (Always.update hP _) fun _ => ?_
        split
        · exact Always.pure hP _
        · refine Always.bind hP (Always.lift hP (couples_keep hI.lasting _)) fun _ => ?_
          split
          · exact Always.pure hP _
          · exact Always.pure hP _
    split
    · exact Always.bind hP (Always.lift hP (findName _ _ _)) hrest
    · split
      · exact Always.bind hP (Always.lift hP (findName _ _ _)) hrest
      · exact Always.bind hP (Always.pure hP _) hrest
    · exact Always.bind hP (Always.pure hP _) hrest
  · exact Always.pure hP _

theorem withoutMarks (kept body : List Tree) : Always (fun _ x => Couples I x) (withoutMarks kept body) := by
  have hP := observant_couples hI.lasting
  induction body generalizing kept with
  | nil => exact Always.pure hP _
  | cons t ts ih =>
    refine Always.bind hP (hI.withoutMark t) fun new => ?_
    split
    · exact ih _
    · exact ih _

theorem aloneAsked (args : List Tree) : Couples I (aloneAsked args) := by
  have hP := observant_couples hI.lasting
  unfold Native.aloneAsked
  split
  · exact .pure _
  · extract_lets rest
    have hrest (u : PUnit) : Couples I (rest u) := by
      refine .bind (hP.literal? _) fun l => ?_
      split
      · exact .pure _
      · refine .bind (hP.flag _ _) fun _ => .bind (.look _) fun _ => ?_
        split
        · exact .pure _
        · exact .throw _
    split
    · exact .bind (hP.flag _ _) hrest
    · exact hrest ⟨⟩

theorem findMark (names : List String) (i : Nat) (decorators : List Tree) :
    Couples I (findMark names i decorators) ∧
      ∀ j ask s s', Returns (Native.findMark names i decorators) s (some (j, ask)) s' → Couples I ask := by
  have hmark (t : Tree) : Couples I (mark? names t) ∧
      ∀ ask s s', Returns (mark? names t) s (some ask) s' → Couples I ask := by
    refine ⟨.bind (.look t) fun u => ?_, fun ask s s' h => ?_⟩
    · split
      · exact .pure _
      · refine .bind (.look _) fun f => ?_
        split
        · exact .pure _
        · exact .pure _
      · exact .pure _
    · obtain ⟨u, m, -, hrest⟩ := returns_bind.mp h
      split at hrest
      · obtain ⟨heq, -⟩ := returns_pure.mp hrest
        split at heq <;> cases heq
        exact .pure _
      · obtain ⟨f, m, -, hrest⟩ := returns_bind.mp hrest
        split at hrest
        · obtain ⟨heq, -⟩ := returns_pure.mp hrest
          split at heq <;> cases heq
          exact hI.aloneAsked _
        · cases (returns_pure.mp hrest).1
      · cases (returns_pure.mp hrest).1
  induction decorators generalizing i with
  | nil =>
    refine ⟨.pure _, fun j ask s s' h => ?_⟩
    cases (returns_pure.mp h).1
  | cons t ts ih =>
    refine ⟨.bind (hmark t).1 fun found => ?_, fun j ask s s' h => ?_⟩
    · split
      · exact .pure _
      · exact (ih _).1
    · obtain ⟨found, m, hfound, hrest⟩ := returns_bind.mp h
      split at hrest
      next ask' =>
        cases (returns_pure.mp hrest).1
        exact (hmark t).2 _ _ _ hfound
      · exact (ih _).2 _ _ _ _ hrest

theorem convert (t : Tree) (name : String) (alone : Bool) : Always (fun _ x => Couples I x) (convert t name alone) := by
  have hP := observant_couples hI.lasting
  have hfailed (code : Code) : Couples I (convert.failed code) := .bind (couples_write hI.lasting _ _) fun _ => .pure _
  refine session (fun s hs => ?_) fun _ _ _ => rfl
  extract_lets compiled chosen
  have hcompiled (c : Code) (hc : origin c) (text : String) : Always (fun _ x => Couples I x) (compiled { c with text }) := by
    refine Always.bind hP (Always.state hP) fun marks => ?_
    split
    · exact Always.pure hP _
    next compiler _ =>
      refine bindLift (hI.compile _ _ _) ?_
      rintro ⟨compiler', result⟩ ⟨m, m', hreturns⟩
      refine Always.bind hP (Always.set hP _) fun _ => ?_
      rcases result with e | _ | library
      · exact Always.bind hP (Always.lift hP (couples_write hI.lasting _ _)) fun _ => Always.lift hP (hfailed _)
      · exact Always.lift hP (hfailed _)
      · have hlibrary : IsLibraryOf c library := (Library.of_compile hreturns).of_path rfl
        refine Always.bind hP (Always.lift hP (.modify (fun s log sources => ⟨log, sources ++ [library], rfl⟩)
          fun s hs => hI.library s c library hs hc hlibrary)) fun _ => ?_
        exact Always.bind hP (Always.lift hP ((inventive_couples hI.lasting).parse _)) fun _ => Always.pure hP _
  have hchosen (c : Code) (hc : origin c) : Always (fun _ x => Couples I x) (chosen c) := by
    dsimp only [chosen]
    split
    · refine Always.bind hP (Always.lift hP (.print t)) fun text => ?_
      exact hcompiled c hc text
    · rw [pure_bind]
      exact hcompiled c hc c.text
  cases hc : s.current with
  | none =>
    refine bindLift (x := throw (.attribute (.ofObject "NoneType" "copy"))) (.throw _) ?_
    rintro c ⟨_, _, hreturns⟩
    exact absurd hreturns returns_throw
  | some c =>
    dsimp only
    exact hchosen c (hI.current s c hs hc)

theorem definition {visit : Tree → Converting (List Tree)} (hvisit : ∀ t, Always (fun _ x => Couples I x) (visit t)) (t : Tree)
    (name : String) (decorators : List Tree) (without : List Tree → Tree) :
    Always (fun _ x => Couples I x) (definition visit t name decorators without) := by
  have hP := observant_couples hI.lasting
  have hinside (t : Tree) : Always (fun _ x => Couples I x) (do return [← inside visit t]) :=
    Always.bind hP (Always.inside hP hvisit t) fun _ => Always.pure hP _
  refine Always.bind hP (Always.state hP) fun marks => ?_
  split
  · exact hinside t
  · refine bindLift (hI.findMark _ _ _).1 ?_
    rintro (_ | ⟨i, ask⟩) ⟨m, m', hreturns⟩
    · exact hinside t
    · refine Always.bind hP (Always.lift hP (couples_keep hI.lasting _)) fun _ =>
        Always.bind hP (Always.lift hP ((hI.findMark _ _ _).2 _ _ _ _ hreturns)) fun alone =>
        Always.bind hP (hI.convert _ _ _) fun new => ?_
      split
      · exact Always.pure hP _
      · exact hinside _

theorem rule {visit : Tree → Converting (List Tree)} (hvisit : ∀ t, Always (fun _ x => Couples I x) (visit t)) (tag : Tag) (kind : Kind)
    (parts : List Tree) : Always (fun _ x => Couples I x) (rule visit tag kind parts) := by
  have hP := observant_couples hI.lasting
  have hinside (t : Tree) : Always (fun _ x => Couples I x) (do return [← inside visit t]) :=
    Always.bind hP (Always.inside hP hvisit t) fun _ => Always.pure hP _
  unfold Native.rule
  split
  · exact Always.bind hP (hI.withoutMarks _ _) fun _ => hinside _
  · exact Always.bind hP (Always.update hP _) fun _ => Always.pure hP _
  · exact hI.definition hvisit _ _ _ _
  · exact hI.definition hvisit _ _ _ _
  · exact hinside _

theorem native (marks : Marks) (t : Tree) : Couples I (Native.run marks t) :=
  Always.runDeep (observant_couples hI.lasting) hI.rule t _

end Enduring

/-! ## Pipelines -/

structure Steady (I : Session → Prop) (origin : Code → Prop) : Prop extends Enduring I origin where
  tree : ∀ s i t, I s → I (s.putTree i t)
  turn : ∀ (s : Session) (i : Nat), I s → I { s with current := (s.modules[i]?).map (·.code) }
  update : Couples I updateSources

namespace Steady
open Pipeline
variable {origin : Code → Prop} (hI : Steady I origin) {ws : List Worker}
include hI

theorem visit (hw : w.kind ∈ registered) (t : Tree) : Couples I (w.visit t) := by
  have hP := observant_couples hI.lasting
  have hcall := hP.pureCall fun function args keywords _ hhandle =>
    .tryCatch ((inventive_couples hI.lasting).replacement function args keywords) hhandle
  obtain ⟨kind, changed, notices, memory⟩ := w
  cases kind with
  | fold => exact .bind (hP.run hP.fold t) fun _ => .pure _
  | deadBranch => exact .bind (hP.run hP.deadBranch t) fun _ => .pure _
  | unroll => exact .bind (hP.run hP.unroll t) fun _ => .pure _
  | documentation => exact .bind (hP.run hP.documentation t) fun _ => .pure _
  | rename => exact .bind (hP.rename _ t) fun _ => .pure _
  | pureCall => exact .bind (hP.run hcall t) fun _ => .pure _
  | native => exact .bind hI.update fun _ => .bind (hI.native _ t) fun _ => .pure _
  | unused | simulation => simp [registered] at hw

theorem run (hw : w.kind ∈ registered) (t : Tree) : Couples I (w.run t) := by
  have hstart (s : Session) (hs : I s) : I { s with changed := false, notices := w.notices } :=
    hI.lasting s s.store s.log false w.notices s.infinity s.notANumber hs
  refine .bind (.modify (fun _ _ _ => ⟨_, _, rfl⟩) hstart) fun _ => .bind (hI.visit hw t) fun ⟨u, memory⟩ => ?_
  exact .bind (couples_locate hI.lasting u) fun _ => .get (fun _ _ => .pure _) fun _ _ _ => rfl

omit hI in
theorem registered_of_kinds (h : ws'.map (·.kind) = ws.map (·.kind)) (hws : ∀ w ∈ ws, w.kind ∈ registered) :
    ∀ w ∈ ws', w.kind ∈ registered := by
  intro w hw
  have hmem : w.kind ∈ ws.map (·.kind) := h ▸ List.mem_map_of_mem hw
  obtain ⟨v, hv, heq⟩ := List.mem_map.mp hmem
  exact heq ▸ hws v hv

omit hI in
theorem cycle_kinds {fuel n k : Nat} (h : Returns (Pipeline.cycle fuel n ws) s (k, ws') s') :
    ws'.map (·.kind) = ws.map (·.kind) := by
  induction fuel generalizing n ws s with
  | zero => exact absurd h returns_throw
  | succ fuel ih =>
    obtain ⟨⟨b, ws₁⟩, m, hround, hrest⟩ := returns_bind.mp h
    dsimp only at hrest
    split at hrest
    · exact (ih hrest).trans (round_kinds hround)
    · cases (returns_pure.mp hrest).1
      exact round_kinds hround

variable (hws : ∀ w ∈ ws, w.kind ∈ registered)
include hws

theorem workOn (active : Worker → Bool) (i : Nat) : Couples I (workOn active i ws) := by
  induction ws with
  | nil => exact .pure _
  | cons w ws ih =>
    have ih := ih fun w hw => hws w (by simp [hw])
    unfold Pipeline.workOn
    split
    · refine .get (fun s _ => ?_) fun _ _ _ => rfl
      split
      · exact .pure _
      · refine .bind (hI.run (hws w (by simp)) _) fun ⟨t, w'⟩ => .bind (.modify (fun _ _ _ => ⟨_, _, rfl⟩) fun s hs => hI.tree s i t hs)
          fun _ => .bind ih fun _ => .pure _
    · exact .bind ih fun _ => .pure _

theorem workOnAll (active : Worker → Bool) (is : List Nat) : Couples I (workOnAll active is ws) := by
  induction is generalizing ws with
  | nil => exact .pure _
  | cons i is ih =>
    refine .bind (.modify (fun _ _ _ => ⟨_, _, rfl⟩) fun s hs => hI.turn s i hs) fun _ =>
      .bind_returns (hI.workOn hws active i) ?_
    rintro ⟨b, ws'⟩ ⟨m, m', hreturns⟩
    exact .bind (ih (registered_of_kinds (workOn_kinds hreturns) hws)) fun _ => .pure _

theorem round : Couples I (round ws) :=
  .get (fun _ _ => hI.workOnAll hws _ _) fun _ _ _ => rfl

theorem cycle (fuel n : Nat) : Couples I (cycle fuel n ws) := by
  induction fuel generalizing n ws with
  | zero => exact .throw _
  | succ fuel ih =>
    refine .bind_returns (hI.round hws) ?_
    rintro ⟨b, ws'⟩ ⟨m, m', hreturns⟩
    dsimp only
    split
    · exact ih (registered_of_kinds (round_kinds hreturns) hws) _
    · exact .pure _

theorem conclude (n : Nat) : Couples I (conclude n ws) := by
  refine .bind (couples_write hI.lasting _ _) fun _ => .get (fun s _ => ?_) fun _ _ _ => rfl
  exact .bind (hI.workOnAll hws _ _) fun _ => .bind (couples_write hI.lasting _ _) fun _ => .bind hI.update fun _ => .pure _

theorem transform : Couples I (transform ws) := by
  refine .bind_returns (hI.cycle hws _ _) ?_
  rintro ⟨n, ws'⟩ ⟨m, m', hreturns⟩
  exact hI.conclude (registered_of_kinds (cycle_kinds hreturns) hws) n

end Steady

/-! ## Sources -/

/-- The modules have these paths, the source that is worked on has one of them, and the sources satisfy a condition. -/
structure Tends (paths : List String) (J : List Source → Prop) (s : Session) : Prop where
  modules : s.modules.map (·.code.path) = paths
  current : ∀ c, s.current = some c → c.path ∈ paths
  sources : J s.sources

structure Preserved (paths : List String) (J : List Source → Prop) : Prop where
  library : ∀ {ss c library}, J ss → c.path ∈ paths → IsLibraryOf c library → J (ss ++ [library])
  rewrite : ∀ {ss} {codes : List Code}, J ss → codes.map (·.path) = paths → J (codes.map .code ++ otherSources paths ss)

section
variable {paths : List String} {J : List Source → Prop} (hJ : Preserved paths J)
include hJ

theorem Tends.rewritten {qs : List Program} {current : Option Code} (hs : Tends paths J s)
    (hqs : List.Forall₂ s.store.Writes s.modules qs) (hcurrent : ∀ c, current = some c → c.path ∈ paths) :
    Tends paths J (s.rewritten qs current) := by
  have hpaths : qs.map (·.code.path) = paths := (modulePaths_of_writes hqs).trans hs.modules
  have hmap : (qs.map (·.code)).map (·.path) = paths := by rw [List.map_map]; exact hpaths
  have hsources := hJ.rewrite hs.sources hmap
  rw [List.map_map] at hsources
  exact ⟨hpaths, hcurrent, by rw [Session.rewritten, hpaths]; exact hsources⟩

theorem couples_updateSources (hne : paths ≠ []) : Couples (Tends paths J) updateSources := by
  have hmodules {s : Session} (hs : s.modules.map (·.code.path) = paths) : s.modules ≠ [] := by
    rintro hempty
    rw [hempty] at hs
    exact hne hs.symm
  -- the source that is worked on is found among the modules
  have hupdated {qs : List Program} {s : Session} (hs : Tends paths J s) (hqs : List.Forall₂ s.store.Writes s.modules qs) :
      (∃ e, ∀ r : Session, r.current = s.current → r.updated qs = (.error e, r.rewritten qs none)) ∨
      ∃ c : Code, c.path ∈ paths ∧ ∀ r : Session, r.current = s.current → r.updated qs = (.ok (), r.rewritten qs (some c)) := by
    cases hcurrent : s.current with
    | none =>
      refine .inl ⟨.attribute (.ofObject "NoneType" "getFilepath"), fun r hr => ?_⟩
      rw [Session.updated, hr]
    | some c =>
      have hc : c.path ∈ qs.map (·.code.path) := by
        rw [modulePaths_of_writes hqs, hs.modules]
        exact hs.current c hcurrent
      obtain ⟨q, -, hpath, hfind⟩ := find?_rewritten hc
      refine .inr ⟨q.code, by rw [hpath]; exact hs.current c hcurrent, fun r hr => ?_⟩
      rw [Session.updated, hr]
      simp only [hfind, Source.takeOver]
  refine ⟨fun s log sources hs => ?_, fun s hs => ?_⟩
  · rw [outcome_updateSources s (hmodules hs.modules),
      outcome_updateSources { s with log := log, sources := sources } (hmodules hs.modules)]
    cases hwritten : s.modules.mapM s.store.written with
    | error e => exact ⟨log, sources, rfl⟩
    | ok qs =>
      dsimp only
      rcases hupdated hs (writes_of_mapM hwritten) with ⟨e, heq⟩ | ⟨c, -, heq⟩
      · rw [heq s rfl, heq { s with log := log, sources := sources } rfl]
        exact ⟨_, _, rfl⟩
      · rw [heq s rfl, heq { s with log := log, sources := sources } rfl]
        exact ⟨_, _, rfl⟩
  · rw [outcome_updateSources s (hmodules hs.modules)]
    cases hwritten : s.modules.mapM s.store.written with
    | error e => exact hs
    | ok qs =>
      dsimp only
      rcases hupdated hs (writes_of_mapM hwritten) with ⟨e, heq⟩ | ⟨c, hc, heq⟩
      · rw [heq s rfl]
        exact hs.rewritten hJ (writes_of_mapM hwritten) (by simp)
      · rw [heq s rfl]
        exact hs.rewritten hJ (writes_of_mapM hwritten) (by simp [hc])

theorem steady_tends (hne : paths ≠ []) : Steady (Tends paths J) fun c => c.path ∈ paths where
  lasting _ _ _ _ _ _ _ hs := ⟨hs.modules, hs.current, hs.sources⟩
  current _ c hs := hs.current c
  files _ _ _ hs := ⟨hs.modules, hs.current, hs.sources⟩
  library _ _ _ hs hc hlib := ⟨hs.modules, hs.current, hJ.library hs.sources hc hlib⟩
  tree s i t hs := by
    refine ⟨?_, hs.current, hs.sources⟩
    have hcodes : (s.putTree i t).modules.map (·.code.path) = s.modules.map (·.code.path) := by
      refine List.ext_getElem? fun j => ?_
      simp only [Session.putTree, List.getElem?_map, List.getElem?_modify]
      cases s.modules[j]? with
      | none => rfl
      | some p =>
        split <;> rfl
    exact hcodes.trans hs.modules
  turn s i hs := by
    refine ⟨hs.modules, fun c hc => ?_, hs.sources⟩
    obtain ⟨p, hp, rfl⟩ := Option.map_eq_some_iff.mp hc
    rw [← hs.modules]
    exact List.mem_map_of_mem (List.mem_of_getElem? hp)
  update := couples_updateSources hJ hne

theorem Tends.transform {ws : List Worker} (hne : paths ≠ []) (hws : ∀ w ∈ ws, w.kind ∈ registered)
    (hs : Tends paths J s) (h : Returns (Pipeline.transform ws) s ws' s') :
    ∃ (codes : List Code) (ss : List Source), codes.map (·.path) = paths ∧ J ss ∧
      s'.sources = codes.map .code ++ otherSources paths ss := by
  have hI := steady_tends hJ hne
  obtain ⟨⟨n, ws₁⟩, m, hcycle, hconclude⟩ := returns_bind.mp h
  have hm : Tends paths J m := (hI.cycle hws _ _).of_returns hs hcycle
  obtain ⟨_, _, hwrite, hrest⟩ := returns_bind.mp hconclude
  have hm := (couples_write hI.lasting _ _).of_returns hm hwrite
  replace hrest := returns_get_bind.mp hrest
  obtain ⟨⟨b, ws₂⟩, _, hwork, hrest⟩ := returns_bind.mp hrest
  have hws₁ := Steady.registered_of_kinds (Steady.cycle_kinds hcycle) hws
  have hm := (hI.workOnAll hws₁ _ _).of_returns hm hwork
  obtain ⟨_, _, hwrite, hrest⟩ := returns_bind.mp hrest
  have hm := (couples_write hI.lasting _ _).of_returns hm hwrite
  obtain ⟨_, _, hupdate, hpure⟩ := returns_bind.mp hrest
  cases hpure
  rcases returns_updateSources.mp hupdate with ⟨hempty, -, -⟩ | ⟨-, qs, c, x, hqs, -, -, rfl⟩
  · refine absurd ?_ hne
    rw [← hm.modules, hempty, List.map_nil]
  · have hpaths : qs.map (·.code.path) = paths := (modulePaths_of_writes hqs).trans hm.modules
    refine ⟨qs.map (·.code), _, by rw [List.map_map]; exact hpaths, hm.sources, ?_⟩
    rw [Session.rewritten, hpaths, List.map_map]
    rfl

end
end SourceOptimizer.Work
