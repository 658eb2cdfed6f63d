import SourceOptimizer.Proofs.SkippedFiles

/-! The outputs of a run. An output path is the path of the source without its first character behind the
output folder, so sources that differ in this character overwrite each other. -/
namespace SourceOptimizer
open Work
open Path (Below folderName lastName ofString ofString_eq suffix_lastName)
open PassKind (registered)
open Library (returns_makeFolders returns_writeFile)

variable {path folder : String} {x : Source} {paths args : List String} {codes : List Code} {ws : List Worker}
  {o : Options} {fs : Files} {toolchain : Toolchain}

/-! ## Files -/

namespace Files
variable {fs' : Files} {p q : Path} {bytes : List Nat}

theorem content?_put_self (fs : Files) (p : Path) (bytes : List Nat) : (fs.put p bytes).content? p = some bytes := by
  unfold put
  split
  next hfile =>
    obtain ⟨old, hold⟩ := Option.isSome_iff_exists.mp hfile
    obtain ⟨f, hf, -⟩ := Option.map_eq_some_iff.mp hold
    have hfound : (fs.files.map fun f => if f.1 == p then (p, bytes) else f).find? (·.1 == p) = some (p, bytes) := by
      rw [List.find?_map, Option.map_eq_some_iff]
      refine ⟨f, ?_, by rw [if_pos (List.find?_some hf)]⟩
      rw [← hf]
      congr 1
      funext g
      by_cases hg : g.1 = p <;> simp [hg]
    exact congrArg (Option.map (·.2)) hfound
  next hfile =>
    have hnone : fs.files.find? (·.1 == p) = none := by
      rwa [isFile, Option.not_isSome_iff_eq_none, content?, Option.map_eq_none_iff] at hfile
    simp [content?, hnone]

theorem content?_put_of_ne (h : q ≠ p) : (fs.put p bytes).content? q = fs.content? q := by
  unfold put content?
  split
  · induction fs.files with
    | nil => rfl
    | cons f files ih =>
      by_cases hp : f.1 = p
      · have hq : f.1 ≠ q := fun heq => h (heq.symm.trans hp)
        simpa [hp, hp ▸ hq, Ne.symm h] using ih
      · by_cases hq : f.1 = q
        · simp [hq, h]
        · simpa [hp, hq] using ih
  · have hnone : ([(p, bytes)] : List (Path × List Nat)).find? (·.1 == q) = none := by simpa using Ne.symm h
    rw [List.find?_append, hnone, Option.or_none]

theorem content?_put (fs : Files) (p q : Path) (bytes : List Nat) :
    (fs.put p bytes).content? q = if q = p then some bytes else fs.content? q := by
  by_cases h : q = p
  · rw [if_pos h, h, content?_put_self]
  · rw [if_neg h, content?_put_of_ne h]

theorem content?_addFolders (fs : Files) (p q : Path) (ns : List Nat) :
    (ns.foldl (fun fs n => fs.addFolder (p.take n)) fs).content? q = fs.content? q := by
  induction ns generalizing fs with
  | nil => rfl
  | cons n ns ih =>
    rw [List.foldl_cons, ih, addFolder]
    split <;> rfl

theorem content?_makeFolders (h : fs.makeFolders path = .ok fs') (q : Path) : fs'.content? q = fs.content? q := by
  unfold makeFolders at h
  dsimp only at h
  split at h
  · cases h
  · split at h
    · cases h
    · split at h
      · cases h
      · cases h
        exact content?_addFolders fs _ q _

theorem write_eq_put (h : fs.write path bytes = .ok fs') : fs' = fs.put (ofString path) bytes := by
  unfold write at h
  dsimp only at h
  split at h
  · cases h
  · split at h
    · cases h
    · split at h <;> cases h
      rfl

theorem content?_place_of_ne (h : q ≠ ofString path) : (fs.place path bytes).content? q = fs.content? q := by
  rw [place, content?_put_of_ne h, content?_addFolders]

end Files

namespace CommandLine
variable {s s' m : Session} {output : String} {ss : List Source}

/-! ## Writing -/

def place (output : String) (x : Source) : Path := Path.ofString (outputPath output x.path)

theorem returns_writeSources (h : Returns (writeSources output (x :: ss)) s () s') : ∃ m : Session,
    (∀ q, m.files.content? q = if q = place output x then some x.bytes else s.files.content? q) ∧
      Returns (writeSources output ss) m () s' := by
  replace h := returns_modify_bind.mp h
  obtain ⟨_, m₁, hfolders, h⟩ := returns_bind.mp h
  obtain ⟨_, m₂, hfile, h⟩ := returns_bind.mp h
  refine ⟨m₂, fun q => ?_, h⟩
  obtain ⟨files₁, hfolders, hm₁⟩ := returns_makeFolders.mp hfolders
  obtain ⟨files₂, hfile, hm₂⟩ := returns_writeFile.mp hfile
  have hfiles₁ : m₁.files = files₁ := by rw [← hm₁]
  have hfiles₂ : m₂.files = files₂ := by rw [← hm₂]
  rw [hfiles₂, Files.write_eq_put hfile, Files.content?_put, hfiles₁, Files.content?_makeFolders hfolders]
  rfl

theorem writeSources_frame (h : Returns (writeSources output ss) s () s') (hq : q ∉ ss.map (place output)) :
    s'.files.content? q = s.files.content? q := by
  induction ss generalizing s with
  | nil => rw [(returns_pure.mp h).2]
  | cons x ss ih =>
    obtain ⟨m, hm, hrest⟩ := returns_writeSources h
    rw [List.map_cons, List.mem_cons, not_or] at hq
    rw [ih hrest hq.2, hm, if_neg hq.1]

theorem writeSources_content (h : Returns (writeSources output ss) s () s') (hnodup : (ss.map (place output)).Nodup) :
    ∀ x ∈ ss, s'.files.content? (place output x) = some x.bytes := by
  induction ss generalizing s with
  | nil => simp
  | cons x ss ih =>
    obtain ⟨m, hm, hrest⟩ := returns_writeSources h
    obtain ⟨hx, hnodup⟩ := List.nodup_cons.mp hnodup
    intro y hy
    rcases List.mem_cons.mp hy with rfl | hy
    · rw [writeSources_frame hrest hx, hm, if_pos rfl]
    · exact ih hrest hnodup y hy

/-! ## Sources below a folder -/

section

def Tidy (folder : String) (ss : List Source) : Prop := ∀ x ∈ ss, Path.Below folder x.path ∧ Path.lastName x.path ≠ logFile

theorem nodup_place (hfolder : folder ≠ "") (hss : Tidy folder ss) (hnodup : (ss.map Source.path).Nodup) :
    (ss.map (place output)).Nodup := by
  rw [List.nodup_map_iff_inj_on (List.Nodup.of_map _ hnodup)]
  intro x hx y hy heq
  exact List.inj_on_of_nodup_map hnodup hx hy ((hss x hx).1.eq_of_outputPath hfolder (hss y hy).1 heq)

theorem not_mem_importName {name : String} (h : Native.isImportName name [] = true) {c : Char} (hstart : Text.isNameStart c.toNat = false)
    (hrest : Text.isNameRest c.toNat = false) : c ∉ name.toList := by
  intro hc
  simp only [Native.isImportName, Text.ofString, Bool.and_eq_true] at h
  obtain ⟨⟨hname, -⟩, -⟩ := h
  cases hchars : name.toList with
  | nil => simp [hchars] at hc
  | cons d ds =>
    rw [hchars, List.map_cons, Text.isIdentifier, Bool.and_eq_true, List.all_map, List.all_eq_true] at hname
    rcases List.mem_cons.mp (hchars ▸ hc) with rfl | hmem
    · exact Bool.false_ne_true (hstart.symm.trans hname.1)
    · exact Bool.false_ne_true (hrest.symm.trans (hname.2 c hmem))

theorem tidy_library {c : Code} {library : Source} (habsent : ¬ ".py".toList <:+: folder.toList) (hc : Below folder c.path)
    (hends : ".py".toList <:+ c.path.toList) (hlib : IsLibraryOf c library) :
    Below folder library.path ∧ lastName library.path ≠ logFile := by
  obtain ⟨name, ending, bytes, hname, hending, rfl⟩ := hlib
  have hlast : ¬ (lastName c.path).toList <:+: folder.toList := fun h =>
    habsent ((suffix_lastName (by decide) hends).isInfix.trans h)
  have hslash : '/' ∉ (name ++ "." ++ ending).toList := by
    have hmem := not_mem_importName hname (c := '/') (by decide) (by decide)
    rcases hending with rfl | rfl <;> simpa using hmem
  have hback : '\\' ∉ (name ++ "." ++ ending).toList := by
    have hmem := not_mem_importName hname (c := '\\') (by decide) (by decide)
    rcases hending with rfl | rfl <;> simpa using hmem
  have hlength : 3 ≤ (name ++ "." ++ ending).toList.length := by rcases hending with rfl | rfl <;> simp
  obtain ⟨hbelow, hnew⟩ := hc.replace hlast hslash hback hlength
  refine ⟨hbelow, fun hlog => ?_⟩
  have hend := congrArg (fun s : String => s.toList.getLast?) (hnew.symm.trans hlog)
  rcases hending with rfl | rfl <;> simp [logFile] at hend

theorem lastName_ne_logFile (h : ".py".toList <:+ path.toList) : lastName path ≠ logFile := by
  intro hlog
  have hends := suffix_lastName (by decide) h
  rw [hlog] at hends
  exact absurd hends (by decide)

theorem preserved_tidy (habsent : ¬ ".py".toList <:+: folder.toList)
    (hpaths : ∀ path ∈ paths, Below folder path ∧ ".py".toList <:+ path.toList) : Preserved paths (Tidy folder) where
  library hss hc hlib x hx := by
    rcases List.mem_append.mp hx with hx | hx
    · exact hss x hx
    · obtain rfl := List.mem_singleton.mp hx
      exact tidy_library habsent (hpaths _ hc).1 (hpaths _ hc).2 hlib
  rewrite hss hcodes x hx := by
    rcases List.mem_append.mp hx with hx | hx
    · obtain ⟨c, hc, rfl⟩ := List.mem_map.mp hx
      obtain ⟨hbelow, hends⟩ := hpaths c.path (hcodes ▸ List.mem_map_of_mem hc)
      exact ⟨hbelow, lastName_ne_logFile hends⟩
    · exact hss x ((otherSources_sublist _ _).subset hx)

end

/-! ## Runs -/

theorem opens_of_returns (hopens : Opens codes s) (h : Returns (paths.forM parseFile) s () s') :
    ∃ more, List.Forall₂ s.Reads paths more ∧ Opens (codes ++ more) s' ∧ s'.current = s.current := by
  induction paths generalizing s codes with
  | nil =>
    cases h
    exact ⟨[], .nil, by rwa [List.append_nil], rfl⟩
  | cons path paths ih =>
    obtain ⟨_, m, hfile, hrest⟩ := returns_bind.mp h
    obtain ⟨text, log, htext, hm⟩ := returns_parseFile hfile
    obtain ⟨hfiles, hcurrent⟩ : m.files = s.files ∧ m.current = s.current := by
      rcases hm with ⟨t, n, -, rfl⟩ | ⟨-, rfl⟩ <;> exact ⟨rfl, rfl⟩
    obtain ⟨more, hmore, hopens', hcurrent'⟩ := ih (.file hopens htext hfile) hrest
    refine ⟨fileCode path text :: more, .cons ⟨text, htext, rfl⟩ (hmore.imp fun _ _ h => h.congr hfiles.symm), ?_,
      hcurrent'.trans hcurrent⟩
    rwa [List.append_assoc, List.singleton_append] at hopens'

theorem consistent_of_reads (hread : List.Forall₂ s.Reads paths codes)
    (hpaths : ∀ path ∈ paths, '\\' ∉ path.toList) : codes.map (·.path) = paths ∧ Consistent codes := by
  have hcode {path : String} {c : Code} (hpath : '\\' ∉ path.toList) (hc : s.Reads path c) : c.path = path := by
    obtain ⟨text, -, rfl⟩ := hc
    rw [fileCode, replaceAll_backslash, map_slashed hpath, String.ofList_toList]
  constructor
  · induction hread with
    | nil => rfl
    | cons hc _ ih => rw [List.map_cons, hcode (hpaths _ (by simp)) hc, ih fun path hpath => hpaths path (by simp [hpath])]
  · -- each source was read at the path that it has
    have hsource (c : Code) (hc : c ∈ codes) : s.Reads c.path c := by
      induction hread with
      | nil => cases hc
      | cons hd _ ih =>
        rcases List.mem_cons.mp hc with rfl | hc
        · rwa [hcode (hpaths _ (by simp)) hd]
        · exact ih (fun path hpath => hpaths path (by simp [hpath])) hc
    intro c hc d hd heq
    obtain ⟨text, htext, hctext⟩ := hsource c hc
    obtain ⟨text', htext', hdtext⟩ := hsource d hd
    rw [← heq] at htext'
    obtain rfl : text = text' := by simpa using htext.symm.trans htext'
    rw [hctext, hdtext]
    rfl

theorem kind_create {kind : PassKind} {w : Worker} (h : Returns (Worker.create kind) s w s') : w.kind = kind := by
  unfold Worker.create at h
  split at h
  · obtain ⟨_, _, -, h⟩ := returns_bind.mp h
    rw [← (returns_pure.mp h).1]
  · rw [← (returns_pure.mp h).1]

theorem kinds_create {kinds : List PassKind} (h : Returns (kinds.mapM Worker.create) s ws s') :
    ws.map (·.kind) = kinds := by
  induction kinds generalizing s s' ws with
  | nil =>
    cases h
    rfl
  | cons kind kinds ih =>
    rw [List.mapM_cons] at h
    obtain ⟨w, _, hw, h⟩ := returns_bind.mp h
    obtain ⟨ws, _, hws, h⟩ := returns_bind.mp h
    cases h
    rw [List.map_cons, kind_create hw, ih hws]

theorem fixes_create (kind : PassKind) : Fixes (fun s => (s.sources, s.modules, s.current)) (Worker.create kind) := by
  unfold Worker.create
  split
  · refine .bind ?_ fun _ => .pure _
    refine .bind .get fun m => ?_
    dsimp only
    split
    · exact .bind (.modify fun _ => rfl) fun _ => .pure _
    · split
      · exact .bind (.modify fun _ => rfl) fun _ => .pure _
      · exact .throw _
  · exact .pure _

def prepare (o : Options) : Work Unit := do
  let workers ← Pipeline.register
  Work.write .debug ["Start parsing files."]
  (o.files.filter (·.endsWith ".py")).forM parseFile
  Work.write .info [s!"Parsed {(← get).sources.length} files."]
  let _ ← Pipeline.transform workers
  return ()

theorem work_eq (o : Options) : work o = prepare o >>= fun _ => get >>= fun s => writeSources o.output s.sources := by
  simp [work, prepare]

def initial (fs : Files) (toolchain : Toolchain) (o : Options) : Session where
  files := if o.logToFile then fs.place logFile [] else fs
  log := { threshold := o.logLevel.rank }
  level := o.level
  toolchain := { toolchain with chosen := o.compiler }

theorem transform_tidy {ws' : List Worker} (hopens : Opens codes s) (hcodes : Consistent codes)
    (hcurrent : s.current = none) (habsent : ¬ ".py".toList <:+: folder.toList)
    (hcode : ∀ c ∈ codes, Below folder c.path ∧ ".py".toList <:+ c.path.toList) (hws : ∀ w ∈ ws, w.kind ∈ registered)
    (h : Returns (Pipeline.transform ws) s ws' s') : Tidy folder s'.sources ∧ (s'.sources.map Source.path).Nodup := by
  have hholds := hopens.holds hcodes
  have hsources := hopens.listed.1
  by_cases hnone : s.modules = []
  · -- a pipeline without modules returns only where there was no file at all
    have hnothing : s.sources = [] := by
      by_contra hsome
      have hfails := transform_without_modules hnone hsome hcurrent ws
      rw [h] at hfails
      cases hfails
    have hleft := transform_without_sources hnone hnothing ws
    rw [h] at hleft
    dsimp only at hleft
    simp [hleft, Tidy]
  · have hpaths : ∀ path ∈ s.modules.map (·.code.path), Below folder path ∧ ".py".toList <:+ path.toList := by
      intro path hpath
      obtain ⟨c, hc, -, rfl⟩ := (hholds.mem_modules path).mp hpath
      exact hcode c hc
    have hJ := preserved_tidy habsent hpaths
    have htends : Tends (s.modules.map (·.code.path)) (Tidy folder) s := by
      refine ⟨rfl, fun c hc => absurd (hcurrent.symm.trans hc) (by simp), fun x hx => ?_⟩
      obtain ⟨c, hc, rfl⟩ := List.mem_map.mp (hsources ▸ hx)
      exact ⟨(hcode c hc).1, lastName_ne_logFile (hcode c hc).2⟩
    obtain ⟨ds, ss, hds, hss, heq⟩ := htends.transform hJ (by simpa using hnone) hws h
    rw [heq]
    exact ⟨hJ.rewrite hss hds, by rw [← hds]; exact nodup_of_paths (hds ▸ hholds.orderly.nodup)⟩

theorem prepare_tidy (hsources : s.sources = []) (hmodules : s.modules = []) (hcurrent : s.current = none)
    (habsent : ¬ ".py".toList <:+: folder.toList) (hbelow : ∀ f ∈ o.files, f.endsWith ".py" = true → Below folder f)
    (h : Returns (prepare o) s () m) : Tidy folder m.sources ∧ (m.sources.map Source.path).Nodup := by
  obtain ⟨ws, s₁, hregister, h⟩ := returns_bind.mp h
  obtain ⟨_, s₂, hwrite, h⟩ := returns_bind.mp h
  obtain ⟨_, s₃, hparse, h⟩ := returns_bind.mp h
  replace h := returns_get_bind.mp h
  obtain ⟨_, s₄, hwrite', h⟩ := returns_bind.mp h
  obtain ⟨ws', s₅, htransform, h⟩ := returns_bind.mp h
  cases h
  have hfixes := Threaded.mapM ⟨Fixes.pure, Fixes.bind⟩ fixes_create registered _ _ _ hregister
  simp only [Prod.mk.injEq, hsources, hmodules, hcurrent] at hfixes
  have hws : ∀ w ∈ ws, w.kind ∈ registered := fun w hw => kinds_create hregister ▸ List.mem_map_of_mem hw
  have hs₂ := returns_modify.mp hwrite
  have hs₄ := returns_modify.mp hwrite'
  have hopens : Opens [] s₂ := by
    rw [← hs₂]
    exact .start hfixes.1 hfixes.2.1
  have hnobody : s₂.current = none := by
    rw [← hs₂]
    exact hfixes.2.2
  obtain ⟨codes, hread, hopens, hcurrent'⟩ := opens_of_returns hopens hparse
  have hnamed : ∀ f ∈ o.files.filter (·.endsWith ".py"), Below folder f ∧ ".py".toList <:+ f.toList := by
    intro f hf
    obtain ⟨hf, hends⟩ := List.mem_filter.mp hf
    exact ⟨hbelow f hf hends, by simpa [← String.endsWith_toSlice] using hends⟩
  obtain ⟨hpaths, hcodes⟩ := consistent_of_reads hread fun f hf => (hnamed f hf).1.choose_spec.2.1
  have hcode (c : Code) (hc : c ∈ codes) := hnamed c.path (hpaths ▸ List.mem_map_of_mem hc)
  have hopens : Opens codes s₄ := by
    rw [← hs₄]
    exact hopens.other rfl rfl
  have hnobody : s₄.current = none := by
    rw [← hs₄]
    exact hcurrent'.trans hnobody
  exact transform_tidy hopens hcodes hnobody habsent hcode hws htransform

theorem run_finished (hread : read fs {} args = .ok o)
    (hfinished : (run fs toolchain args).ending = .finished) : ∃ s, Returns (work o) (initial fs toolchain o) () s ∧
      ∀ q, q ≠ ofString logFile → (run fs toolchain args).files.content? q = s.files.content? q := by
  unfold run at hfinished ⊢
  simp only [hread] at hfinished ⊢
  generalize hout : (work o).run.run _ = out at hfinished ⊢
  obtain ⟨result, s⟩ := out
  have hok : result = .ok () := by
    cases result with
    | ok => rfl
    | error e =>
      dsimp only at hfinished
      split at hfinished <;> cases hfinished
  subst hok
  refine ⟨s, hout, fun q hq => ?_⟩
  dsimp only
  split
  · exact Files.content?_place_of_ne hq
  · rfl

/-! ## Main statement -/

/-- No output overwrites another, where all files that are read are named below one folder by plain parts, with no `.py`
in the name of the folder. Then each source that the pipeline returns has a path of its own and an output of its own, and
if the run finishes, each output has in the end what the source has. -/
theorem run_writes_all {fs : Files} {toolchain : Toolchain} {args : List String} {o : Options} {folder : String}
    (hread : read fs {} args = .ok o) (hfolder : folder ≠ "") (habsent : ¬ ".py".toList <:+: folder.toList)
    (hbelow : ∀ f ∈ o.files, f.endsWith ".py" = true → Path.Below folder f) :
    (∀ m, Returns (prepare o) (initial fs toolchain o) () m → (m.sources.map Source.path).Nodup ∧
      ∀ x ∈ m.sources, ∀ y ∈ m.sources, x.path ≠ y.path → place o.output x ≠ place o.output y) ∧
    ((run fs toolchain args).ending = .finished → ∃ m, Returns (prepare o) (initial fs toolchain o) () m ∧
      ∀ x ∈ m.sources, (run fs toolchain args).files.content? (place o.output x) = some x.bytes) := by
  constructor
  · intro m hm
    obtain ⟨htidy, hnodup⟩ := prepare_tidy rfl rfl rfl habsent hbelow hm
    exact ⟨hnodup, fun x hx y hy hpath heq => hpath ((htidy x hx).1.eq_of_outputPath hfolder (htidy y hy).1 heq)⟩
  · intro hfinished
    obtain ⟨s, hwork, hfiles⟩ := run_finished hread hfinished
    rw [work_eq] at hwork
    obtain ⟨_, m, hm, hwork⟩ := returns_bind.mp hwork
    have hwrite := returns_get_bind.mp hwork
    obtain ⟨htidy, hnodup⟩ := prepare_tidy rfl rfl rfl habsent hbelow hm
    refine ⟨m, hm, fun x hx => ?_⟩
    have hlog : place o.output x ≠ Path.ofString logFile := fun heq => by
      have hlast := (htidy x hx).1.getLast?_outputPath o.output hfolder
      rw [show Path.ofString _ = _ from heq, Path.ofString_eq] at hlast
      exact (htidy x hx).2 (Option.some.inj hlast).symm
    rw [hfiles _ hlog, writeSources_content hwrite (nodup_place hfolder htidy hnodup) x hx]

/-! ## Two programs -/

def twoModules : Files := { files := [(["a.py"], [120]), (["b.py"], [121])] }

def twoModuleOptions : Options := { logLevel := .critical, files := ["./a.py", "./b.py"] }

def twoModulesRead (t u : Tree) (n k : Nat) : Session :=
  ((initial twoModules { available := [] } twoModuleOptions).withModule ⟨"./a.py", "x"⟩ t n).withModule ⟨"./b.py", "y"⟩ u k

set_option maxRecDepth 100000 in
theorem transform_twoModules :
    (match Tree.parse 1 "x" with
      | .ok (t, n) =>
        match Tree.parse n "y" with
        | .ok (u, k) =>
          let out := outcome (Pipeline.transform (registered.map fun kind => { kind })) (twoModulesRead t u n k)
          out.1.isOk && out.2.files.files == twoModules.files && out.2.files.folders == [] &&
            out.2.sources.map Source.path == ["./a.py", "./b.py"]
        | .error _ => false
      | .error _ => false) = true := by
  decide +kernel

theorem prepare_twoModules : ∃ m : Session, Returns (prepare twoModuleOptions) (initial twoModules { available := [] } twoModuleOptions) () m ∧
    m.files = twoModules ∧ m.sources.map Source.path = ["./a.py", "./b.py"] := by
  have htransform := transform_twoModules
  split at htransform
  next t n hx =>
    split at htransform
    next u k hy =>
      simp only [Bool.and_eq_true, beq_iff_eq] at htransform
      obtain ⟨⟨⟨hok, hfiles⟩, hfolders⟩, hsources⟩ := htransform
      obtain ⟨ws', hws'⟩ : ∃ ws',
        (outcome (Pipeline.transform (registered.map fun kind => { kind })) (twoModulesRead t u n k)).1 = .ok ws' := by
        cases hend : (outcome (Pipeline.transform (registered.map fun kind => { kind })) (twoModulesRead t u n k)).1 with
        | ok ws' => exact ⟨ws', rfl⟩
        | error e => simp [hend, Except.isOk, Except.toBool] at hok
      have ha : (initial twoModules { available := [] } twoModuleOptions).files.read "./a.py" = .ok [120] := by
        simp only [Files.read, ofString_eq]
        rfl
      have hb : (initial twoModules { available := [] } twoModuleOptions).files.read "./b.py" = .ok [121] := by
        simp only [Files.read, ofString_eq]
        rfl
      have hparse : Returns ((twoModuleOptions.files.filter (·.endsWith ".py")).forM parseFile)
          (initial twoModules { available := [] } twoModuleOptions) () (twoModulesRead t u n k) := by
        rw [show twoModuleOptions.files.filter (·.endsWith ".py") = ["./a.py", "./b.py"] by
          simp [twoModuleOptions, ← String.endsWith_toSlice]
          decide]
        exact .bind (parseFile_returns (readText_of_bytes ha rfl) hx)
          (.bind (parseFile_returns (readText_congr (readText_of_bytes hb rfl) rfl) hy) rfl)
      have hregister : Returns Pipeline.register (initial twoModules { available := [] } twoModuleOptions)
        (registered.map fun kind => { kind }) (initial twoModules { available := [] } twoModuleOptions) := by rfl
      refine ⟨_, .bind hregister (.bind rfl (.bind hparse (.bind rfl (.bind rfl
        (.bind (returns_of_ok hws') rfl))))), ?_, hsources⟩
      exact show Session.files _ = ⟨_, _⟩ from congr (congrArg Files.mk hfiles) hfolders
    · cases htransform
  · cases htransform

theorem folderName_twoModules : folderName "./out/a.py" = "./out" ∧ folderName "./out/b.py" = "./out" := by
  simp only [folderName, show "/" = String.ofList ['/'] from rfl, splitOn_single]
  exact ⟨rfl, rfl⟩

theorem files_twoModules (hfs : fs = twoModules) (b c : List Nat) :
    fs.makeFolders "./out" = .ok ⟨twoModules.files, [["out"]]⟩ ∧
    Files.write ⟨twoModules.files, [["out"]]⟩ "./out/a.py" b = .ok ⟨twoModules.files ++ [(["out", "a.py"], b)], [["out"]]⟩ ∧
    Files.makeFolders ⟨twoModules.files ++ [(["out", "a.py"], b)], [["out"]]⟩ "./out" =
      .ok ⟨twoModules.files ++ [(["out", "a.py"], b)], [["out"]]⟩ ∧
    Files.write ⟨twoModules.files ++ [(["out", "a.py"], b)], [["out"]]⟩ "./out/b.py" c =
      .ok ⟨twoModules.files ++ [(["out", "a.py"], b), (["out", "b.py"], c)], [["out"]]⟩ := by
  subst hfs
  simp only [Files.makeFolders, Files.write, ofString_eq]
  exact ⟨rfl, rfl, rfl, rfl⟩

theorem writeSources_cons {fs₁ fs₂ : Files} (hs : s.files = fs) (hpath : outputPath output x.path = path)
    (hfolder : folderName path = folder) (hfolders : fs.makeFolders folder = .ok fs₁) (hfile : fs₁.write path x.bytes = .ok fs₂) :
    ∃ m : Session, m.files = fs₂ ∧ ∀ s', Returns (writeSources output ss) m () s' → Returns (writeSources output (x :: ss)) s () s' := by
  subst hs hpath hfolder
  exact ⟨_, rfl, fun s' h => .bind rfl (.bind (returns_makeFolders.mpr
    ⟨_, hfolders, rfl⟩) (.bind (returns_writeFile.mpr ⟨_, hfile, rfl⟩) h))⟩

theorem write_twoModules (hfiles : m.files = twoModules) (hsources : ss.map Source.path = ["./a.py", "./b.py"]) :
    ∃ s, Returns (writeSources ".\\out" ss) m () s := by
  obtain ⟨x, xs, rfl, hx, hxs⟩ := List.map_eq_cons_iff.mp hsources
  obtain ⟨y, ys, rfl, hy, hys⟩ := List.map_eq_cons_iff.mp hxs
  obtain rfl := List.map_eq_nil_iff.mp hys
  obtain ⟨h₁, h₂, h₃, h₄⟩ := files_twoModules hfiles x.bytes y.bytes
  have hpath : outputPath ".\\out" x.path = "./out/a.py" := by rw [hx]; rfl
  have hpath' : outputPath ".\\out" y.path = "./out/b.py" := by rw [hy]; rfl
  obtain ⟨m₁, hm₁, hfirst⟩ := writeSources_cons rfl hpath folderName_twoModules.1 h₁ h₂
  obtain ⟨m₂, -, hsecond⟩ := writeSources_cons hm₁ hpath' folderName_twoModules.2 h₃ h₄
  exact ⟨m₂, hfirst m₂ (hsecond m₂ rfl)⟩

theorem run_finishes (hread : read fs {} args = .ok o)
    (hwork : Returns (work o) (initial fs toolchain o) () s) : (run fs toolchain args).ending = .finished := by
  unfold run
  simp only [hread]
  generalize hout : (work o).run.run _ = out
  obtain rfl : out = (.ok (), s) := hout.symm.trans hwork
  dsimp only
  split <;> rfl

theorem run_writes_all_twoModules :
    let run := run twoModules { available := [] } ["-critical", "-F", "./a.py", "-F", "./b.py"]
    run.ending = .finished ∧ ∃ m, Returns (prepare twoModuleOptions) (initial twoModules { available := [] } twoModuleOptions) () m ∧
      m.sources.map Source.path = ["./a.py", "./b.py"] ∧
      (∀ x ∈ m.sources, ∀ y ∈ m.sources, x.path ≠ y.path → place twoModuleOptions.output x ≠ place twoModuleOptions.output y) ∧
      ∀ x ∈ m.sources, run.files.content? (place twoModuleOptions.output x) = some x.bytes := by
  have hread : read twoModules {} ["-critical", "-F", "./a.py", "-F", "./b.py"] = .ok twoModuleOptions := by rfl
  have hmain := @run_writes_all _ { available := [] } _ _ "." hread (by decide) (by decide) fun f hf _ => by
    have hcases : f = "./a.py" ∨ f = "./b.py" := by simpa [twoModuleOptions] using hf
    rcases hcases with rfl | rfl
    · exact ⟨['a', '.', 'p', 'y'], rfl, by decide, by decide⟩
    · exact ⟨['b', '.', 'p', 'y'], rfl, by decide, by decide⟩
  obtain ⟨m, hm, hfiles, hsources⟩ := prepare_twoModules
  obtain ⟨s, hs⟩ := write_twoModules hfiles hsources
  have hfinished := run_finishes (s := s) hread (by
    rw [work_eq]
    exact .bind hm (.bind rfl hs))
  obtain ⟨m', hm', hcontent⟩ := hmain.2 hfinished
  obtain rfl : m' = m := by simpa using hm'.symm.trans hm
  exact ⟨hfinished, m', hm', hsources, (hmain.1 m' hm').2, hcontent⟩

/-- Of sources that differ in the first character alone the second takes the place of the first. -/
theorem first_output_lost : ∃ s' : Session,
    Returns (writeSources ".\\out" [.code ⟨"a.py", "x"⟩, .code ⟨"b.py", "y"⟩]) { files := {} } () s' ∧
      s'.files.content? (place ".\\out" (.code ⟨"a.py", "x"⟩)) = some (Code.bytes ⟨"b.py", "y"⟩) := by
  have hfolder : Path.folderName "./out.py" = "." := by
    simp only [Path.folderName, show "/" = String.ofList ['/'] from rfl, splitOn_single]
    rfl
  have hfiles (x y : List Nat) : Files.makeFolders {} "." = .ok {} ∧ Files.write {} "./out.py" x = .ok ⟨[(["out.py"], x)], []⟩ ∧
      Files.makeFolders ⟨[(["out.py"], x)], []⟩ "." = .ok ⟨[(["out.py"], x)], []⟩ ∧
      Files.write ⟨[(["out.py"], x)], []⟩ "./out.py" y = .ok ⟨[(["out.py"], y)], []⟩ := by
    simp only [Files.makeFolders, Files.write, Path.ofString_eq]
    exact ⟨rfl, rfl, rfl, rfl⟩
  obtain ⟨h₁, h₂, h₃, h₄⟩ := hfiles (Code.bytes ⟨"a.py", "x"⟩) (Code.bytes ⟨"b.py", "y"⟩)
  have hpath : outputPath ".\\out" (Source.path (.code ⟨"a.py", "x"⟩)) = "./out.py" := rfl
  have hpath' : outputPath ".\\out" (Source.path (.code ⟨"b.py", "y"⟩)) = "./out.py" := rfl
  obtain ⟨m₁, hm₁, hfirst⟩ := writeSources_cons (s := { files := {} }) rfl hpath hfolder h₁ h₂
  obtain ⟨m₂, hm₂, hsecond⟩ := writeSources_cons hm₁ hpath' hfolder h₃ h₄
  refine ⟨m₂, hfirst m₂ (hsecond m₂ rfl), ?_⟩
  rw [hm₂, place, hpath, Path.ofString_eq]
  rfl

end CommandLine
end SourceOptimizer
