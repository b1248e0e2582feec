import NwscriptBindings.Command.Run
import NwscriptBindings.Proofs.Command.CodeNames
import NwscriptBindings.Proofs.Grammar.Recognition

namespace NwscriptBindings.Command

open FileTree (Agrees)

def Produces (tree : FileTree) (o : Options) (path code : List UInt8) : Prop :=
  o.emitTokens = false ∧ o.emitTree = false ∧ ∃ text u, tree.read path = .ok text ∧
    let source := Source.ofText (Path.base path) text
    source.isEmpty = false ∧
      ScriptUnit.parse source.name source.lines (tokenize source.text) = .ok u ∧
      u.generate = .ok code

-- The code goes to a location where a file can be.
structure Stores (tree : FileTree) (o : Options) (path : List UInt8) (place : Location)
    (code : List UInt8) : Prop where
  produced : Produces tree o path code
  located : tree.locate (codePath o.outputDir path) = .ok place
  free : tree.lookup place ≠ some .directory

-- Where the code of one file goes, the other neither reads nor has its code.
def Spares (tree : FileTree) (o : Options) (path other : List UInt8) : Prop :=
  ∀ place, tree.locate (codePath o.outputDir path) = .ok place →
    tree.lookup place ≠ some .directory →
    tree.Clear other place ∧ tree.Clear (codePath o.outputDir other) place

instance (tree : FileTree) (o : Options) (path other : List UInt8) :
    Decidable (Spares tree o path other) :=
  match found : tree.locate (codePath o.outputDir path) with
  | .error _ => isTrue fun _ located => nomatch found.symm.trans located
  | .ok place =>
      decidable_of_iff
        (tree.lookup place ≠ some .directory →
          tree.Clear other place ∧ tree.Clear (codePath o.outputDir other) place)
        ⟨fun spared _ located => Except.ok.inj (found.symm.trans located) ▸ spared,
          fun spares => spares place found⟩

def Apart (tree : FileTree) (o : Options) (path other : List UInt8) : Prop :=
  Spares tree o path other ∧ Spares tree o other path

instance (tree : FileTree) (o : Options) (path other : List UInt8) :
    Decidable (Apart tree o path other) := inferInstanceAs (Decidable (_ ∧ _))

def gather (alone : List UInt8 → Report) (paths : List (List UInt8)) : Exit :=
  ⟨if paths.any fun path => (alone path).failed then 1 else 0,
    paths.flatMap fun path => (alone path).stdout,
    paths.flatMap fun path => (alone path).stderr⟩

-- The tree in which the files are run: the output directory has been made.
def Ready (version : List UInt8) (o : Options) (tree made : FileTree) : Prop :=
  if o.outputDir.isEmpty then made = tree
  else
    let ready := (FileTree.host version).makeDirs o.outputDir tree
    ready.1.isOk = true ∧ made = ready.2

instance (version : List UInt8) (o : Options) (tree made : FileTree) :
    Decidable (Ready version o tree made) :=
  let ready := (FileTree.host version).makeDirs o.outputDir tree
  if beside : o.outputDir.isEmpty then decidable_of_iff (made = tree) (by simp [Ready, beside])
  else decidable_of_iff (ready.1.isOk = true ∧ made = ready.2) (by simp [Ready, beside, ready])

section file

variable {version : List UInt8} {o : Options} {tree other : FileTree} {path code : List UInt8}
  {place : Location}

theorem draft_code_iff :
    (Draft.ofContent o path (tree.read path)).code = some code ↔ Produces tree o path code := by
  unfold Draft.ofContent Produces
  cases tree.read path with
  | error fault => simp
  | ok text =>
      simp only [Except.ok.injEq, exists_and_left, exists_eq_left']
      cases empty : (Source.ofText (Path.base path) text).isEmpty with
      | true => simp
      | false =>
          simp only [Bool.false_eq_true, if_false, true_and, Draft.ofSource, Draft.ofTokens]
          cases o.emitTokens with
          | true => simp
          | false =>
              simp only [Bool.false_eq_true, if_false, true_and]
              cases ScriptUnit.parse _ _ _ with
              | error e => simp
              | ok u =>
                  cases o.emitTree with
                  | true => simp
                  | false =>
                      simp only [Bool.false_eq_true, if_false, true_and, Except.ok.injEq,
                        exists_eq_left']
                      cases u.generate with
                      | error e => simp
                      | ok made => simp

theorem bind_apply {α β : Type} (act : StateM FileTree α) (next : α → StateM FileTree β)
    (tree : FileTree) : (act >>= next) tree = next (act tree).1 (act tree).2 := rfl

theorem pure_apply {α : Type} (a : α) (tree : FileTree) :
    (pure a : StateM FileTree α) tree = (a, tree) := rfl

def early (tree : FileTree) (o : Options) (path : List UInt8) : Report :=
  Report.onlyIf o.verbose (.say [utf8 "Loading " ++ path]) ++
    (Draft.ofContent o path (tree.read path)).report

theorem runFile_uncoded (version : List UInt8)
    (uncoded : (Draft.ofContent o path (tree.read path)).code = none) :
    runFile (FileTree.host version) o path tree = (early tree o path, tree) := by
  simp only [runFile, bind_apply, FileTree.host, pure_apply, uncoded]
  rfl

theorem runFile_refused (version : List UInt8) {fault : FileFault}
    (coded : (Draft.ofContent o path (tree.read path)).code = some code)
    (refused : tree.write (codePath o.outputDir path) code = .error fault) :
    runFile (FileTree.host version) o path tree =
      (early tree o path ++ .fail [errorLine fault.text], tree) := by
  simp only [runFile, bind_apply, FileTree.host, pure_apply, coded, updateTree, refused]
  rfl

theorem runFile_written (version : List UInt8) {after : FileTree}
    (coded : (Draft.ofContent o path (tree.read path)).code = some code)
    (written : tree.write (codePath o.outputDir path) code = .ok after) :
    runFile (FileTree.host version) o path tree =
      (early tree o path ++ Report.onlyIf o.verbose
        (.say [utf8 "Processed in " ++ Bytes.ofNat 0 ++ utf8 "ms"]), after) := by
  simp only [runFile, bind_apply, FileTree.host, pure_apply, coded, updateTree, written]
  rfl

theorem append_failed (a b : Report) : (a ++ b).failed = (a.failed || b.failed) := rfl

theorem onlyIf_failed {wanted : Bool} {report : Report} (passed : report.failed = false) :
    (Report.onlyIf wanted report).failed = false := by
  unfold Report.onlyIf
  split
  · exact passed
  · rfl

theorem draft_passed (produced : Produces tree o path code) :
    (Draft.ofContent o path (tree.read path)).report.failed = false := by
  obtain ⟨noTokens, noTree, text, u, read, full, parsed, generated⟩ := produced
  simp only [Draft.ofContent, read, full, Bool.false_eq_true, if_false, Draft.ofSource, noTokens,
    Draft.ofTokens, parsed, noTree, generated, Draft.tokenReport, append_failed]
  rw [onlyIf_failed rfl, onlyIf_failed rfl]
  rfl

theorem runFile_stores (version : List UInt8) (stores : Stores tree o path place code) :
    (runFile (FileTree.host version) o path tree).1.failed = false ∧
      (runFile (FileTree.host version) o path tree).2 = tree.insert place (.file code) := by
  have coded := draft_code_iff.mpr stores.produced
  have written : tree.write (codePath o.outputDir path) code =
      .ok (tree.insert place (.file code)) :=
    FileTree.write_ok_iff.mpr ⟨place, stores.located, stores.free, rfl⟩
  rw [runFile_written version coded written]
  refine ⟨?_, rfl⟩
  simp only [early, append_failed, draft_passed stores.produced]
  rw [onlyIf_failed rfl, onlyIf_failed rfl]
  rfl

theorem runFile_keeps (version : List UInt8)
    (unstored : ∀ place code, ¬ Stores tree o path place code) :
    (∀ code, Produces tree o path code →
        (runFile (FileTree.host version) o path tree).1.failed = true) ∧
      (runFile (FileTree.host version) o path tree).2 = tree := by
  cases coded : (Draft.ofContent o path (tree.read path)).code with
  | none =>
      rw [runFile_uncoded version coded]
      refine ⟨fun code produced => ?_, rfl⟩
      rw [draft_code_iff.mpr produced] at coded
      cases coded
  | some code =>
      cases written : tree.write (codePath o.outputDir path) code with
      | error fault =>
          rw [runFile_refused version coded written]
          exact ⟨fun _ _ => by simp [append_failed, Report.fail], rfl⟩
      | ok after =>
          obtain ⟨place, located, free, _⟩ := FileTree.write_ok_iff.mp written
          exact (unstored place code ⟨draft_code_iff.mp coded, located, free⟩).elim

theorem Stores.unique {other : Location} {text : List UInt8}
    (stores : Stores tree o path place code) (again : Stores tree o path other text) :
    other = place ∧ text = code := by
  have places := again.located.symm.trans stores.located
  have codes := (draft_code_iff.mpr again.produced).symm.trans (draft_code_iff.mpr stores.produced)
  exact ⟨Except.ok.inj places, Option.some.inj codes⟩

theorem Stores.below (stores : Stores tree o path place code) : place ≠ [] := by
  rintro rfl
  exact stores.free (by simp [FileTree.lookup])

-- The step: a run changes the one location that it stores code at.
theorem runFile_frame (version : List UInt8) (o : Options) (path : List UInt8) (tree : FileTree) :
    let after := (runFile (FileTree.host version) o path tree).2
    (∀ place code, Stores tree o path place code → after.lookup place = some (.file code)) ∧
      (∀ place, (∀ code, ¬ Stores tree o path place code) →
        after.lookup place = tree.lookup place) ∧
      after.working = tree.working := by
  by_cases stored : ∃ place code, Stores tree o path place code
  · obtain ⟨place, code, stores⟩ := stored
    rw [(runFile_stores version stores).2]
    refine ⟨fun other text again => ?_, fun other unstored => ?_, rfl⟩
    · obtain ⟨rfl, rfl⟩ := stores.unique again
      exact FileTree.lookup_insert_same _ _ _ stores.below
    · refine FileTree.lookup_insert_other _ _ _ _ ?_
      rintro rfl
      exact unstored code stores
  · have none : ∀ place code, ¬ Stores tree o path place code := fun place code stores =>
      stored ⟨place, code, stores⟩
    rw [(runFile_keeps version none).2]
    exact ⟨fun place code stores => (none place code stores).elim, fun _ _ => rfl, rfl⟩

-- What a file reads and where its code goes look the same in both trees.
structure Unseen (tree after : FileTree) (o : Options) (path : List UInt8) : Prop where
  input : Agrees tree after (tree.way path)
  output : Agrees tree after (tree.way (codePath o.outputDir path))

theorem runFile_unseen (version : List UInt8) {next : List UInt8}
    (spares : Spares tree o path next) :
    Unseen tree (runFile (FileTree.host version) o path tree).2 o next := by
  obtain ⟨_, kept, working⟩ := runFile_frame version o path tree
  have aside : ∀ place code, Stores tree o path place code →
      place ∉ tree.way next ∧ place ∉ tree.way (codePath o.outputDir next) := by
    intro place code stores
    obtain ⟨input, output⟩ := spares place stores.located stores.free
    exact ⟨(FileTree.clear_iff stores.free).mp input, (FileTree.clear_iff stores.free).mp output⟩
  refine ⟨⟨working, fun p passed => kept p ?_⟩, ⟨working, fun p passed => kept p ?_⟩⟩
  · exact fun code stores => (aside p code stores).1 passed
  · exact fun code stores => (aside p code stores).2 passed

namespace Unseen

theorem stores_iff (unseen : Unseen tree other o path) :
    Stores other o path place code ↔ Stores tree o path place code := by
  have produced : Produces other o path code ↔ Produces tree o path code := by
    rw [Produces, Produces, unseen.input.read]
  constructor
  · intro stores
    have located := unseen.output.locate.symm.trans stores.located
    refine ⟨produced.mp stores.produced, located, ?_⟩
    rw [← unseen.output.located located]
    exact stores.free
  · intro stores
    refine ⟨produced.mpr stores.produced, unseen.output.locate.trans stores.located, ?_⟩
    rw [unseen.output.located stores.located]
    exact stores.free

theorem report (version : List UInt8) (unseen : Unseen tree other o path) :
    (runFile (FileTree.host version) o path other).1 =
      (runFile (FileTree.host version) o path tree).1 := by
  have read := unseen.input.read
  have same : early other o path = early tree o path := by rw [early, early, read]
  cases coded : (Draft.ofContent o path (tree.read path)).code with
  | none => rw [runFile_uncoded version coded, runFile_uncoded version (read ▸ coded), same]
  | some code =>
      rcases unseen.output.write code with ⟨fault, failed, fails⟩ | ⟨next, after, wrote, writes⟩
      · rw [runFile_refused version coded fails, runFile_refused version (read ▸ coded) failed, same]
      · rw [runFile_written version coded writes, runFile_written version (read ▸ coded) wrote, same]

theorem spares {next : List UInt8} (unseen : Unseen tree other o path)
    (beyond : Unseen tree other o next) (spares : Spares tree o path next) :
    Spares other o path next := by
  intro place located free
  rw [unseen.output.locate] at located
  rw [unseen.output.located located] at free
  rw [beyond.input.clear_iff, beyond.output.clear_iff]
  exact spares place located free

end Unseen
end file

section files

variable {version : List UInt8} {o : Options} {tree made final : FileTree}
  {paths : List (List UInt8)} {reports : List Report}

structure Isolated (version : List UInt8) (o : Options) (tree : FileTree)
    (paths : List (List UInt8)) (reports : List Report) (final : FileTree) : Prop where
  reports : reports = paths.map fun path => (runFile (FileTree.host version) o path tree).1
  stored : ∀ path ∈ paths, ∀ place code, Stores tree o path place code →
    final.lookup place = some (.file code)
  kept : ∀ place, (∀ path ∈ paths, ∀ code, ¬ Stores tree o path place code) →
    final.lookup place = tree.lookup place
  working : final.working = tree.working

-- The run, by induction on the files: what one of them stores is unseen by those behind it.
theorem runFiles_isolated (version : List UInt8) (spared : paths.Pairwise (Spares tree o)) :
    Isolated version o tree paths (runFiles (FileTree.host version) o paths tree).1
      (runFiles (FileTree.host version) o paths tree).2 := by
  induction paths generalizing tree with
  | nil => exact ⟨rfl, by simp, fun _ _ => rfl, rfl⟩
  | cons path paths ih =>
      obtain ⟨first, rest⟩ := List.pairwise_cons.mp spared
      obtain ⟨storesFirst, keptFirst, workingFirst⟩ := runFile_frame version o path tree
      generalize step : (runFile (FileTree.host version) o path tree).2 = after at *
      have unseen : ∀ next ∈ paths, Unseen tree after o next := fun next present =>
        step ▸ runFile_unseen version (first next present)
      have later : paths.Pairwise (Spares after o) := rest.imp_of_mem fun {a b} left right =>
        (unseen a left).spares (unseen b right)
      have run : runFiles (FileTree.host version) o (path :: paths) tree =
          ((runFile (FileTree.host version) o path tree).1 ::
              (runFiles (FileTree.host version) o paths after).1,
            (runFiles (FileTree.host version) o paths after).2) := step ▸ rfl
      obtain ⟨reported, stored, kept, working⟩ := ih later
      rw [run]
      refine ⟨?_, ?_, ?_, working.trans workingFirst⟩
      · rw [List.map_cons, reported]
        exact congrArg _
          (List.map_congr_left fun next present => (unseen next present).report version)
      · intro next present place code stores
        rcases List.mem_cons.mp present with rfl | behind
        · rw [kept place, storesFirst place code stores]
          intro other behind text again
          have reached := FileTree.locate_way ((unseen other behind).stores_iff.mp again).located
          have clear := (first other behind place stores.located stores.free).2
          exact (FileTree.clear_iff stores.free).mp clear reached
        · exact stored next behind place code ((unseen next behind).stores_iff.mpr stores)
      · intro place unstored
        obtain ⟨here, behind⟩ := List.forall_mem_cons.mp unstored
        rw [kept place, keptFirst place here]
        intro next present code stores
        exact behind next present code ((unseen next present).stores_iff.mp stores)

theorem exitOf_map (alone : List UInt8 → Report) (paths : List (List UInt8)) :
    exitOf (paths.map alone) = gather alone paths := by
  have all : Report.concat (paths.map alone) =
      ⟨paths.flatMap fun path => (alone path).stdout, paths.flatMap fun path => (alone path).stderr,
        paths.any fun path => (alone path).failed⟩ := by
    induction paths with
    | nil => rfl
    | cons path paths ih =>
        change (alone path).append (Report.concat (paths.map alone)) = _
        rw [ih]
        rfl
  rw [exitOf, all]
  rfl

theorem runBatch_ready (ready : Ready version o tree made) (paths : List (List UInt8)) :
    runBatch (FileTree.host version) o paths tree =
      (exitOf (runFiles (FileTree.host version) o paths made).1,
        (runFiles (FileTree.host version) o paths made).2) := by
  unfold Ready at ready
  unfold runBatch
  split at ready
  · rename_i beside
    rw [if_pos beside, ready]
    rfl
  · rename_i given
    rw [if_neg given, bind_apply]
    obtain ⟨granted, rfl⟩ := ready
    cases outcome : ((FileTree.host version).makeDirs o.outputDir tree).1 with
    | error fault =>
        rw [outcome] at granted
        cases granted
    | ok done => rfl

theorem ready_content (ready : Ready version o tree made) (place : Location) :
    made.content place = tree.content place := by
  unfold Ready at ready
  split at ready
  · rw [ready]
  · rw [ready.2]
    exact FileTree.KeepsFiles.makeDirs version o.outputDir tree place

variable {path code : List UInt8} {place : Location}

theorem Produces.isUnitName (produced : Produces tree o path code) :
    IsUnitName (Path.base path) := by
  obtain ⟨_, _, text, u, _, _, parsed, generated⟩ := produced
  have named : u.name = Path.base path := (ScriptUnit.parseWith_sound parsed).1
  rw [← named]
  exact ScriptUnit.generate_isUnitName generated

theorem Stores.isCodeName (stores : Stores tree o path place code) :
    IsCodeName (Path.base (codePath o.outputDir path)) ∧
      place.getLast? = some (Path.base (codePath o.outputDir path)) := by
  have unit := stores.produced.isUnitName
  have named := codePath_lastElement o.outputDir unit
  have plain := unit.codeName.1.plain
  rw [Path.base_eq (named ▸ plain.1), named]
  exact ⟨unit.codeName.1, named ▸ FileTree.locate_plain (named ▸ plain) stores.located⟩

theorem Produces.located (produced : Produces tree o path code) :
    ∃ place, tree.locate path = .ok place ∧ place.getLast? = some (Path.base path) := by
  have unit := produced.isUnitName
  obtain ⟨_, _, text, _, read, _⟩ := produced
  obtain ⟨place, located, file⟩ := FileTree.read_ok read
  have ends := FileTree.lastElement_of_file located (by simp [file])
  rw [Path.base_eq ends] at unit ⊢
  exact ⟨place, located, FileTree.locate_plain unit.plain located⟩

theorem Isolated.source_kept (isolated : Isolated version o tree paths reports final)
    (produced : Produces tree o path code) : final.read path = tree.read path := by
  obtain ⟨last, located, ends⟩ := produced.located
  have agrees : Agrees tree final (tree.way path) := by
    refine ⟨isolated.working, fun place passed => isolated.kept place ?_⟩
    intro next _ text stores
    rcases FileTree.passed_directory (FileTree.locate_reach located) place passed with
      rfl | directory
    · obtain ⟨isCode, named⟩ := stores.isCodeName
      exact produced.isUnitName.ne_codeName isCode (Option.some.inj (ends.symm.trans named))
    · exact stores.free directory
  exact agrees.read

theorem Apart.symm {left right : List UInt8} (apart : Apart tree o left right) :
    Apart tree o right left := ⟨apart.2, apart.1⟩

theorem isolated_lookup {order : List (List UInt8)} {others : List Report} {after : FileTree}
    (isolated : Isolated version o tree paths reports final) (perm : order.Perm paths)
    (again : Isolated version o tree order others after) (place : Location) :
    after.lookup place = final.lookup place := by
  by_cases stored : ∃ path ∈ paths, ∃ code, Stores tree o path place code
  · obtain ⟨path, present, code, stores⟩ := stored
    rw [isolated.stored path present place code stores,
      again.stored path (perm.mem_iff.mpr present) place code stores]
  · have none : ∀ path ∈ paths, ∀ code, ¬ Stores tree o path place code :=
      fun path present code stores => stored ⟨path, present, code, stores⟩
    rw [isolated.kept place none,
      again.kept place fun path present => none path (perm.mem_iff.mp present)]

theorem runBatch_run (ready : Ready version o tree made) (apart : paths.Pairwise (Apart made o)) :
    ∃ reports final, Isolated version o made paths reports final ∧
      runBatch (FileTree.host version) o paths tree =
        (gather (fun path => (runFile (FileTree.host version) o path made).1) paths, final) := by
  have isolated := runFiles_isolated version (apart.imp And.left)
  refine ⟨_, _, isolated, ?_⟩
  rw [runBatch_ready ready, isolated.reports, exitOf_map]

theorem runFile_idle (version : List UInt8)
    (idle : (runFile (FileTree.host version) o path tree).1.failed = true ∨ o.emitTokens = true ∨
      o.emitTree = true ∨
      ∃ text, tree.read path = .ok text ∧ (Source.ofText (Path.base path) text).isEmpty = true) :
    (runFile (FileTree.host version) o path tree).2 = tree := by
  refine (runFile_keeps version fun place code stores => ?_).2
  obtain ⟨noTokens, noTree, text, u, read, full, _⟩ := stores.produced
  rcases idle with failed | tokens | shown | ⟨empty, again, nothing⟩
  · rw [(runFile_stores version stores).1] at failed
    cases failed
  · rw [noTokens] at tokens
    cases tokens
  · rw [noTree] at shown
    cases shown
  · cases read.symm.trans again
    rw [full] at nothing
    cases nothing

theorem produces_passed_iff (version : List UInt8) (produced : Produces tree o path code) :
    (runFile (FileTree.host version) o path tree).1.failed = false ↔
      ∃ place, Stores tree o path place code := by
  constructor
  · intro passed
    by_contra unstored
    have none : ∀ place text, ¬ Stores tree o path place text := by
      intro place text stores
      have same := (draft_code_iff.mpr stores.produced).symm.trans (draft_code_iff.mpr produced)
      exact unstored ⟨place, Option.some.inj same ▸ stores⟩
    rw [(runFile_keeps version none).1 code produced] at passed
    cases passed
  · rintro ⟨place, stores⟩
    exact (runFile_stores version stores).1

theorem runBatch_isolated (version : List UInt8) {o : Options} {tree made : FileTree}
    {paths : List (List UInt8)} (ready : Ready version o tree made)
    (apart : paths.Pairwise (Apart made o)) :
    let host := FileTree.host version
    let alone := fun path => (runFile host o path made).1
    ∃ final, runBatch host o paths tree = (gather alone paths, final) ∧
      -- The files at the end: the code that is stored, and all others as they were.
      (∀ path ∈ paths, ∀ place code, Stores made o path place code →
        final.lookup place = some (.file code)) ∧
      (∀ place, (∀ path ∈ paths, ∀ code, ¬ Stores made o path place code) →
        final.lookup place = made.lookup place ∧ final.content place = tree.content place) ∧
      -- Which files store code.
      (∀ path code, Produces made o path code →
        ((alone path).failed = false ↔ ∃ place, Stores made o path place code)) ∧
      (∀ path, (alone path).failed = true ∨ o.emitTokens = true ∨ o.emitTree = true ∨
          (∃ text, made.read path = .ok text ∧
            (Source.ofText (Path.base path) text).isEmpty = true) →
        (runFile host o path made).2 = made) ∧
      -- Under which names, which are never those of sources that give code.
      (∀ path place code, Stores made o path place code →
        IsCodeName (Path.base (codePath o.outputDir path)) ∧
          place.getLast? = some (Path.base (codePath o.outputDir path))) ∧
      (∀ path code, Produces made o path code → final.read path = made.read path) ∧
      -- In another order.
      (∀ order, order.Perm paths → ∃ after,
        runBatch host o order tree = (gather alone order, after) ∧
          ∀ place, after.lookup place = final.lookup place) := by
  intro host alone
  obtain ⟨reports, final, isolated, ran⟩ := runBatch_run ready apart
  refine ⟨final, ran, isolated.stored, ?_, fun path code => produces_passed_iff version,
    fun path => runFile_idle version, fun path place code => Stores.isCodeName,
    fun path code => isolated.source_kept, ?_⟩
  · intro place unstored
    have kept := isolated.kept place unstored
    have files := ready_content ready place
    refine ⟨kept, files ▸ ?_⟩
    rw [FileTree.content, FileTree.content, kept]
  · intro order perm
    have reordered : order.Pairwise (Apart made o) :=
      (perm.pairwise_iff fun apart => apart.symm).mpr apart
    obtain ⟨others, after, again, rerun⟩ := runBatch_run ready reordered
    exact ⟨after, rerun, isolated_lookup isolated perm again⟩

theorem runBatch_isolated_mixed :
    let o : Options := { outputDir := utf8 "out" }
    let tree : FileTree :=
      ⟨[([utf8 "w"], .directory),
        ([utf8 "w", utf8 "NWNX_X.nss"], .file (utf8 "int f(")),
        ([utf8 "w", utf8 "nwscript.nss"], .file (utf8 "int Random(int n);"))], [utf8 "w"]⟩
    let made := tree.insert [utf8 "w", utf8 "out"] .directory
    let paths := [utf8 "NWNX_X.nss", utf8 "none.nss", utf8 "nwscript.nss"]
    let alone := fun path => (runFile (FileTree.host []) o path made).1
    let place := [utf8 "w", utf8 "out", utf8 "nwscript.cs"]
    Ready [] o tree made ∧ paths.Pairwise (Apart made o) ∧
      (paths.map fun path => (alone path).failed) = [true, true, false] ∧
      ∃ code final, Stores made o (utf8 "nwscript.nss") place code ∧
        runBatch (FileTree.host []) o paths tree = (gather alone paths, final) ∧
        final.lookup place = some (.file code) := by
  intro o tree made paths alone place
  have ready : Ready [] o tree made := by decide +kernel
  have apart : paths.Pairwise (Apart made o) := by decide +kernel
  have failed : (paths.map fun path => (alone path).failed) = [true, true, false] := by
    decide +kernel
  have coded : (Draft.ofContent o (utf8 "nwscript.nss")
      (made.read (utf8 "nwscript.nss"))).code.isSome = true := by decide +kernel
  obtain ⟨code, given⟩ := Option.isSome_iff_exists.mp coded
  have passed : (alone (utf8 "nwscript.nss")).failed = false := by decide +kernel
  obtain ⟨final, ran, stored, -, stores, -⟩ := runBatch_isolated [] ready apart
  obtain ⟨found, storing⟩ := (stores _ code (draft_code_iff.mp given)).mp passed
  have located : (made.locate (codePath o.outputDir (utf8 "nwscript.nss"))).toOption =
      some place := by decide +kernel
  rw [storing.located] at located
  cases located
  exact ⟨ready, apart, failed, code, final, storing, ran, stored _ (by simp [paths]) _ _ storing⟩

structure Placed (tree : FileTree) (o : Options) (path : List UInt8) (source target : Location) :
    Prop where
  source : tree.locate path = .ok source
  target : tree.locate (codePath o.outputDir path) = .ok target

theorem Placed.spares {other : List UInt8} {source target next later : Location}
    (placed : Placed tree o path source target) (following : Placed tree o other next later)
    (unread : next ≠ target) (distinct : target ≠ later) : Spares tree o path other := by
  intro place located _
  cases placed.target.symm.trans located
  rw [FileTree.Clear, FileTree.Clear, following.source, following.target]
  exact ⟨unread.symm, distinct⟩

theorem Placed.stores_iff {source target : Location} (version : List UInt8)
    (placed : Placed tree o path source target) : Stores tree o path place code ↔
      place = target ∧ Produces tree o path code ∧
        (runFile (FileTree.host version) o path tree).1.failed = false := by
  constructor
  · intro stores
    have same : place = target := Except.ok.inj (stores.located.symm.trans placed.target)
    exact ⟨same, stores.produced, (runFile_stores version stores).1⟩
  · rintro ⟨rfl, produced, passed⟩
    obtain ⟨found, stores⟩ := (produces_passed_iff version produced).mp passed
    cases placed.target.symm.trans stores.located
    exact stores

-- Where all paths lead somewhere, it is enough that no two files have their code at one place and
-- that no file stands where the code of another goes.
theorem runBatch_placed (version : List UInt8) {source target : List UInt8 → Location}
    (ready : Ready version o tree made)
    (placed : ∀ path ∈ paths, Placed made o path (source path) (target path))
    (distinct : paths.Pairwise fun path other => target path ≠ target other)
    (unread : ∀ path ∈ paths, ∀ other ∈ paths, path ≠ other → source path ≠ target other) :
    let host := FileTree.host version
    let alone := fun path => (runFile host o path made).1
    ∃ final, runBatch host o paths tree = (gather alone paths, final) ∧
      (∀ path ∈ paths, ∀ code, Produces made o path code → (alone path).failed = false →
        final.lookup (target path) = some (.file code)) ∧
      ∀ place, (∀ path ∈ paths, place = target path →
          ∀ code, Produces made o path code → (alone path).failed = true) →
        final.lookup place = made.lookup place := by
  intro host alone
  have apart : paths.Pairwise (Apart made o) := by
    refine distinct.imp_of_mem fun {path other} here there differ => ?_
    have others : path ≠ other := fun same => differ (congrArg target same)
    exact ⟨(placed path here).spares (placed other there)
        (unread other there path here others.symm) differ,
      (placed other there).spares (placed path here) (unread path here other there others)
        differ.symm⟩
  obtain ⟨reports, final, isolated, ran⟩ := runBatch_run ready apart
  refine ⟨final, ran, fun path present code produced passed => ?_, fun place idle => ?_⟩
  · exact isolated.stored path present _ _
      (((placed path present).stores_iff version).mpr ⟨rfl, produced, passed⟩)
  · refine isolated.kept place fun path present code stores => ?_
    obtain ⟨same, produced, passed⟩ := ((placed path present).stores_iff version).mp stores
    rw [idle path present same code produced] at passed
    cases passed

end files
end NwscriptBindings.Command
