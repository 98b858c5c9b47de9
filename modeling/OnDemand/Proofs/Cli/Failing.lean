import OnDemand.Cli
import OnDemand.Proofs.Cli.Keeping
import OnDemand.Proofs.Command.Staging
import OnDemand.Proofs.Engine.Failing

/-!
# Runs that fail

After a call the program keeps what is new in the store, whatever came of the call. When the call has
failed nothing is new (`fresh_of_store`), and neither the repository nor a compiler that keeps to its
output has changed anything (`entry?_call`), so all files are as they were before the run
(`failing_run_keeps_files`).
-/

namespace OnDemand.Cli

open Engine FileTree

/-! ## What acts do to the files -/

namespace Act

variable {α β : Type} {m : Act α} {f : α → Act β} {t t' u : FileTree} {a : α} {e : TaskError}
  {r : Except TaskError β}

def Ends (m : Act α) (t : FileTree) (r : Except TaskError α) (t' : FileTree) : Prop :=
  ∀ c : Console, c.tree = t → ∃ c', m.run.run c = (r, c') ∧ c'.tree = t'

theorem Ends.bind (h : m.Ends t (.ok a) u) (h' : (f a).Ends u r t') : (m >>= f).Ends t r t' := by
  intro c hc
  obtain ⟨c₁, hm, hc₁⟩ := h c hc
  obtain ⟨c₂, hf, hc₂⟩ := h' c₁ hc₁
  refine ⟨c₂, ?_, hc₂⟩
  rw [ExceptT.run_bind, StateT.run_bind, hm]
  exact hf

theorem Ends.bind_error (h : m.Ends t (.error e) u) (f : α → Act β) :
    (m >>= f).Ends t (.error e) u := by
  intro c hc
  obtain ⟨c₁, hm, hc₁⟩ := h c hc
  refine ⟨c₁, ?_, hc₁⟩
  rw [ExceptT.run_bind, StateT.run_bind, hm]
  rfl

theorem ends_pure (a : α) (t : FileTree) : (pure a : Act α).Ends t (.ok a) t :=
  fun c hc => ⟨c, rfl, hc⟩

theorem ends_throw (e : TaskError) (t : FileTree) : (throw e : Act α).Ends t (.error e) t :=
  fun c hc => ⟨c, rfl, hc⟩

theorem ends_ofExcept {x r : Except TaskError α} (h : x = r) (t : FileTree) :
    (ofExcept x : Act α).Ends t r t := by
  subst h
  cases x with
  | ok a => exact ends_pure a t
  | error e => exact ends_throw e t

theorem ends_complain (line : String) (t : FileTree) : (complain line).Ends t (.ok ()) t :=
  fun _ hc => ⟨_, rfl, hc⟩

theorem ends_tree (t : FileTree) : tree.Ends t (.ok t) t := by
  rintro c rfl
  exact ⟨c, rfl, rfl⟩

theorem ends_setTree (t u : FileTree) : (setTree u).Ends t (.ok ()) u :=
  fun _ _ => ⟨_, rfl, rfl⟩

theorem ends_forM {f : α → Act Unit} (hf : ∀ x, (f x).Ends t (.ok ()) t) :
    ∀ xs : List α, (xs.forM f).Ends t (.ok ()) t
  | [] => ends_pure () t
  | x :: xs => (hf x).bind (ends_forM hf xs)

end Act

open Act

section
variable {p : Place} {i : Invocation} {l : Loaded} {s : Session} {t : FileTree}

theorem ends_warn (json : Bool) (ws : List Config.Warning) (t : FileTree) :
    (warn json ws).Ends t (.ok ()) t :=
  ends_forM (fun _ => ends_complain _ t) ws

theorem ends_readConfig (hl : Loaded.read p t i.config = .ok l) :
    (readConfig p i).Ends t (.ok l) t := by
  unfold readConfig
  refine (ends_tree t).bind ((ends_ofExcept hl t).bind ?_)
  exact (ends_warn i.json l.warnings t).bind (ends_pure l t)

def Invocation.listener (i : Invocation) : Listener :=
  if i.json then .all else .none

theorem ends_startSession (hs : Session.start p l i.listener t = .ok s) :
    (startSession p i l).Ends t (.ok s) t := by
  unfold startSession
  exact (ends_tree t).bind (ends_ofExcept hs t)

theorem ends_keep (p : Place) (s : Session) (t : FileTree) :
    (keep p s).Ends t (s.keep p).2 (s.keep p).1 := by
  unfold keep
  generalize s.keep p = r
  exact (ends_setTree t _).bind (ends_ofExcept rfl _)

/-! ## Failing calls -/

/-- The call of an invocation is made in a session, and the engine answers that it failed. -/
inductive CallFails (p : Place) (t : FileTree) (i : Invocation) (s : Session) (r : Request) : Prop
  | lookup {raw : String} {output : Option Path} {n : Name} {l : Loaded} {e : CallError} :
      i.task = .resolve raw output → readName raw = .ok n → Loaded.read p t i.config = .ok l →
      Session.start p l i.listener t = .ok s → r = .resolve n l.config.limits →
      (s.call p r).2 = some (.lookup (.resolved (.failed e))) → CallFails p t i s r
  | batch {files : List Path} {root : Path} {outDir : Option Path} {l : Loaded}
      {units : List SourceUnit} {e : CallError} :
      i.task = .compile files root outDir → Loaded.read p t i.config = .ok l →
      readUnits p root l.config.form.separator t files = .ok units →
      Session.start p l i.listener t = .ok s → r = .compile units l.config.limits →
      (s.call p r).2 = some (.batch (.failed e)) → CallFails p t i s r

theorem Session.resolve_of_call {n : Name} {e : CallError}
    (h : (s.call p (.resolve n s.loaded.config.limits)).2 = some (.lookup (.resolved (.failed e)))) :
    s.resolve p n = ((s.call p (.resolve n s.loaded.config.limits)).1, .ok (.failed e)) := by
  unfold Session.resolve
  generalize s.call p (.resolve n s.loaded.config.limits) = r at h ⊢
  obtain ⟨s', answer⟩ := r
  obtain rfl : answer = _ := h
  rfl

theorem Session.compile_of_call {units : List SourceUnit} {e : CallError}
    (h : (s.call p (.compile units s.loaded.config.limits)).2 = some (.batch (.failed e))) :
    s.compile p units = ((s.call p (.compile units s.loaded.config.limits)).1, .ok (.error e)) := by
  unfold Session.compile
  generalize s.call p (.compile units s.loaded.config.limits) = r at h ⊢
  obtain ⟨s', answer⟩ := r
  obtain rfl : answer = _ := h
  rfl

theorem ends_keep_error (p : Place) (s : Session) (t : FileTree) {f : Nat → Act Unit} {e : TaskError}
    (hf : ∀ kept u, (f kept).Ends u (.error e) u) :
    ∃ e', (keep p s >>= f).Ends t (.error e') (s.keep p).1 ∧
      (e' = e ∨ (s.keep p).2 = .error e') := by
  have hkeep := ends_keep p s t
  cases h : (s.keep p).2 with
  | error e' =>
    rw [h] at hkeep
    exact ⟨e', hkeep.bind_error f, Or.inr rfl⟩
  | ok kept =>
    rw [h] at hkeep
    exact ⟨e, hkeep.bind (hf kept _), Or.inl rfl⟩

theorem ends_failing {r : Request} (h : CallFails p t i s r) :
    ∃ e, (perform p i).Ends t (.error e) ((s.call p r).1.keep p).1 ∧
      (e.isCrash = false ∨ ((s.call p r).1.keep p).2 = .error e) := by
  have hcomplain : ∀ lines : List String, (lines.forM complain).Ends t (.ok ()) t :=
    ends_forM fun line => ends_complain line t
  -- both commands keep the session and then tell what failed
  cases h with
  | @lookup raw output n l e htask hname hl hs hr ha =>
    obtain ⟨-, rfl, -⟩ := Session.start_spec hs
    subst hr
    have hres := Session.resolve_of_call ha
    generalize (s.call p (.resolve n s.loaded.config.limits)).1 = s' at hres
    obtain ⟨e', hends, he⟩ := ends_keep_error p s' t (e := .resolving n e) fun _ => ends_throw _
    refine ⟨e', ?_, he.imp_left fun he => by rw [he]; rfl⟩
    unfold perform
    rw [htask]
    refine Ends.bind_error ?_ _
    unfold resolve
    refine (ends_ofExcept hname t).bind ((ends_readConfig hl).bind ((ends_startSession hs).bind ?_))
    simp only [hres]
    exact (hcomplain _).bind ((ends_ofExcept rfl t).bind hends)
  | @batch files root outDir l units e htask hl hunits hs hr ha =>
    obtain ⟨-, rfl, -⟩ := Session.start_spec hs
    subst hr
    have hres := Session.compile_of_call ha
    generalize (s.call p (.compile units s.loaded.config.limits)).1 = s' at hres
    obtain ⟨e', hends, he⟩ := ends_keep_error p s' t (e := .compiling e) fun _ => ends_throw _
    refine ⟨e', ?_, he.imp_left fun he => by rw [he]; rfl⟩
    unfold perform
    rw [htask]
    refine Ends.bind_error ?_ _
    unfold compile
    refine (ends_readConfig hl).bind ((ends_tree t).bind ((ends_ofExcept hunits t).bind
      ((ends_startSession hs).bind ?_)))
    simp only [hres]
    exact (hcomplain _).bind ((ends_ofExcept rfl t).bind hends)

/-! ## What a failing call leaves -/

def Place.temporary (p : Place) : Location :=
  destination p.cwd (p.cwd.resolve p.environment.temporaryRoot).components

theorem Session.strays_afterJob (hc : s.command.Confined p.programs) (u : FileTree) (j : Job) :
    Command.Strays u (s.afterJob p u j) p.temporary := by
  unfold Session.afterJob Session.buildRun Place.temporary
  split
  · rename_i d _ _
    exact Command.strays_build hc p.environment.temporaryRoot (d.nanos + p.later)
  · exact fun l hl => absurd rfl hl

theorem Session.strays_abandon (hc : s.command.Confined p.programs) :
    Command.Strays s.world.host (s.abandon p).world.host p.temporary := by
  unfold Session.abandon
  show Command.Strays _ (List.foldl _ _ s.world.state.jobs) _
  generalize s.world.host = u
  induction s.world.state.jobs generalizing u with
  | nil => exact fun l hl => absurd rfl hl
  | cons j jobs ih => exact (Session.strays_afterJob hc u j).trans (ih _)

/-- A job whose run of the compiler has not ended. -/
def Unended (j : Job) : Prop :=
  ∃ processors, j.stage = .running processors

theorem Session.host_abandon (hjobs : ∀ j ∈ s.world.state.jobs, ¬ Unended j) :
    (s.abandon p).world.host = s.world.host := by
  unfold Session.abandon
  show List.foldl _ _ s.world.state.jobs = s.world.host
  generalize s.world.host = u
  generalize s.world.state.jobs = jobs at hjobs ⊢
  induction jobs with
  | nil => rfl
  | cons j jobs ih =>
    have hj : s.afterJob p u j = u := by
      unfold Session.afterJob
      split
      · rename_i processors _ hstage _
        exact absurd ⟨processors, hstage⟩ (hjobs j (by simp))
      · rfl
    rw [List.foldl_cons, hj]
    exact ih fun k hk => hjobs k (by simp [hk])

theorem Session.entry?_world_call (hc : s.command.Confined p.programs)
    (ht : s.world.host.Rooted) (r : Request) (l : Location) :
    FileTree.entry? (s.world.call s.settings (s.host p) r).1.host l = s.world.host.entry? l := by
  have hcall : ∀ l, FileTree.entry? (s.world.call s.settings (s.host p) r).1.host l =
      s.world.host.entry? l := by
    refine World.host_call (P := fun u : FileTree => ∀ l, u.entry? l = s.world.host.entry? l)
      _ _ _ r (fun _ _ _ _ hu => hu) (fun _ j processors state u hu l => ?_) fun _ => rfl
    show FileTree.entry? (s.build p j processors state.store.artifacts u).1 l = _
    unfold Session.build Session.buildRun
    simp only
    split
    · rw [Command.entry?_build hc (ht.congr hu), hu]
    · exact hu l
  exact hcall l

/-- After a call the files are as they were, but for what the runs of the compiler leave that nobody
waits for. -/
theorem Session.strays_call (hc : s.command.Confined p.programs) (ht : s.world.host.Rooted)
    (r : Request) : Command.Strays s.world.host (s.call p r).1.world.host p.temporary := by
  have hended : Command.Strays s.world.host (s.world.call s.settings (s.host p) r).1.host
      p.temporary := fun l hl => absurd (Session.entry?_world_call hc ht r l) hl
  exact hended.trans (Session.strays_abandon
    (s := { s with world := (s.world.call s.settings (s.host p) r).1 }) hc)

theorem Session.entry?_call (hc : s.command.Confined p.programs) (ht : s.world.host.Rooted)
    (r : Request) (hjobs : ∀ j ∈ (s.call p r).1.world.state.jobs, ¬ Unended j) (l : Location) :
    FileTree.entry? (s.call p r).1.world.host l = s.world.host.entry? l := by
  rw [← Session.entry?_world_call hc ht r l]
  exact congrArg (fun u => FileTree.entry? u l) (Session.host_abandon
    (s := { s with world := (s.world.call s.settings (s.host p) r).1 }) hjobs)

theorem Session.fresh_of_store {l : Loaded} {listener : Listener}
    (hs : Session.start p l listener t = .ok s) {r : Request}
    (hstore : (s.call p r).1.world.state.store = s.world.state.store) :
    (s.call p r).1.fresh = [] := by
  obtain ⟨-, -, hopen, -⟩ := Session.start_spec hs
  unfold Session.fresh
  rw [hstore, List.filter_eq_nil_iff]
  intro a ha
  have hkept : a.name ∈ (s.call p r).1.kept :=
    (Loaded.mem_kept hopen).mpr (Store.contains_of_get? (Store.mem_artifacts.mp ha))
  simpa using hkept

theorem Session.keep_nothing (h : s.fresh = []) :
    s.world.host.Roomier (s.keep p).1 ∧ ∀ e, (s.keep p).2 = .error e → e.isCrash = false := by
  unfold Session.keep
  rw [h]
  split
  · rename_i hsave
    exact ⟨(ArtifactDirectory.save_nil hsave).1, fun e he => by cases he⟩
  · rename_i e hsave
    obtain ⟨hroom, hfile⟩ := ArtifactDirectory.save_nil hsave
    refine ⟨hroom, fun e' he => ?_⟩
    obtain rfl := Except.error.inj he
    cases e with
    | extension e => exact absurd rfl (hfile e)
    | file => rfl
    | name => rfl
    | walk => rfl

theorem CallFails.store {r : Request} (h : CallFails p t i s r) :
    ∃ l, Session.start p l i.listener t = .ok s ∧
      (s.call p r).1.world.state.store = s.world.state.store := by
  have hquiet : ∀ e u, (s.host p).meanwhile e u = [] := fun _ _ => rfl
  cases h with
  | lookup _ _ _ hs hr ha =>
    obtain ⟨-, -, -, hworld⟩ := Session.start_spec hs
    subst hr
    exact ⟨_, hs, World.store_of_failed_lookup hquiet (congrArg World.state hworld) ha⟩
  | batch _ _ _ hs hr ha =>
    obtain ⟨-, -, -, hworld⟩ := Session.start_spec hs
    exact ⟨_, hs, World.store_of_failed_batch hquiet (congrArg World.state hworld) ha⟩

/-- A directory that neither holds the one for temporary files nor lies in a directory for the
compiler that is still to be made. -/
structure Place.Clear (p : Place) (t : FileTree) (dir : Location) : Prop where
  outside : ¬ dir <+: p.temporary
  notBelow : ∀ n, t.entry? (p.temporary ++ [Command.stagingName n]) = none →
    ¬ p.temporary ++ [Command.stagingName n] <+: dir

theorem Place.Clear.same {dir l : Location} {u : FileTree} (h : p.Clear t dir)
    (hu : Command.Strays t u p.temporary) (hl : dir <+: l) : u.entry? l = t.entry? l := by
  by_contra hne
  obtain ⟨n, hnone, hpre⟩ := hu l hne
  rcases List.prefix_or_prefix_of_prefix hl hpre with hdir | hplace
  · rcases List.prefix_concat_iff.mp hdir with rfl | hbelow
    · exact h.notBelow n hnone List.prefix_rfl
    · exact h.outside hbelow
  · exact h.notBelow n hnone hplace

/-- A run whose call fails ends with status 1, and after it each file that was there has the bytes it
had before. In the artifact directory there is no new file either, and elsewhere only where the
compiler goes on after nobody waits for it any more. Directories may have been made. -/
theorem failing_run_keeps_files {args : List String} (hargs : parse args = .ok i) {r : Request}
    (h : CallFails p t i s r) (hc : s.command.Confined p.programs) (ht : t.Rooted) :
    (run p t args).code = 1 ∧
    (∀ l, t.entry? l ≠ none → (run p t args).console.tree.file? l = t.file? l) ∧
    (p.Clear t (s.loaded.artifacts.location p.cwd) → ∀ l,
      s.loaded.artifacts.location p.cwd <+: l →
        (run p t args).console.tree.file? l = t.file? l) ∧
    (∀ l, (run p t args).console.tree.file? l ≠ t.file? l →
      (∃ j ∈ (s.call p r).1.world.state.jobs, Unended j) ∧
        ∃ n, t.entry? (p.temporary ++ [Command.stagingName n]) = none ∧
          p.temporary ++ [Command.stagingName n] <+: l) ∧
    t.DirsKept (run p t args).console.tree := by
  obtain ⟨loaded, hs, hstore⟩ := h.store
  obtain ⟨-, -, -, hworld⟩ := Session.start_spec hs
  obtain rfl : s.world.host = t := congrArg World.host hworld
  have hstrays := Session.strays_call hc ht r
  obtain ⟨e, hends, he⟩ := ends_failing h
  obtain ⟨c, hperform, htree⟩ := hends ⟨s.world.host, "", ""⟩ rfl
  obtain ⟨hroom, hcrash⟩ := Session.keep_nothing (p := p) (Session.fresh_of_store hs hstore)
  have hcrash : e.isCrash = false := he.elim id (hcrash e)
  have hrun : run p s.world.host args = ⟨1, { c with err := c.err ++ e.report }⟩ := by
    unfold run
    rw [hargs]
    simp only [hperform, hcrash]
    rfl
  rw [hrun]
  -- what is kept after the call adds directories only
  have hfile : ∀ l, c.tree.file? l = (s.call p r).1.world.host.file? l := fun l => by
    rw [show c.tree = _ from htree, hroom.file?]
  refine ⟨rfl, fun l hl => ?_, fun hclear l hl => ?_, fun l hl => ⟨?_, ?_⟩, fun l hl => ?_⟩
  · exact (hfile l).trans (file?_congr (hstrays.old ht hl))
  · exact (hfile l).trans (file?_congr (hclear.same hstrays hl))
  · by_contra hjobs
    push Not at hjobs
    exact hl ((hfile l).trans (file?_congr (Session.entry?_call hc ht r hjobs l)))
  · exact hstrays l fun hsame => hl ((hfile l).trans (file?_congr hsame))
  · rw [show c.tree = _ from htree]
    exact hroom.dirs l ((hstrays.old ht (by rw [hl]; simp)).trans hl)

end

namespace Example

/-- A project with a source, a directory for temporary files, and an artifact kept. -/
def tree : FileTree :=
  ⟨[(["tmp"], .dir), (["x.src"], .file "x".toUTF8), ([".summon"], .dir),
    ([".summon", "artifacts"], .dir),
    ([".summon", "artifacts", "NAMES"], .file "# kept\ny".toUTF8),
    ([".summon", "artifacts", "y.bin"], .file ⟨#[7]⟩)]⟩

/-- The compiler takes a second, and nobody waits for it longer than five milliseconds. -/
def place : Place where
  environment := [("SUMMON_BACKEND", "cc"), ("SUMMON_COMPILE_TIMEOUT_MS", "5")]
  cwd := []
  programs _ _ _ t := .ok ⟨t, .empty, .code 0, nanosPerSecond, fun _ => t, .none⟩
  now := 0

def invocation : Invocation :=
  ⟨none, false, .compile [⟨"x.src"⟩] ⟨"."⟩ none⟩

def loaded : Loaded :=
  ⟨Config.initial.override place.environment, none, [], ⟨"/"⟩⟩

def units : List SourceUnit :=
  [⟨Engine.Sample.x, "x", .localFile⟩]

def kept : Artifact :=
  .plain Engine.Sample.y ⟨#[7]⟩

def session : Session :=
  ⟨loaded, ⟨loaded.config.form, "cc"⟩, .none, [kept.name],
    ⟨.fresh 0 (Store.empty.insertAll [kept]) none, tree⟩⟩

theorem start_session : Session.start place loaded .none tree = .ok session := by
  have hvalid : loaded.validate = .ok () := by decide +kernel
  have hcommand : loaded.config.command? = some ⟨loaded.config.form, "cc"⟩ := by decide +kernel
  have hput : Store.empty.putAll [kept] = .ok ([kept.name], Store.empty.insertAll [kept]) := by
    decide +kernel
  have hload : loaded.artifacts.load tree place.cwd = .ok [kept] := by
    have hlook : tree.look [] loaded.artifacts.root = .ok ([".summon", "artifacts"], .dir) := by
      decide +kernel
    have hprocessors : loaded.artifacts.readList tree [] ArtifactDirectory.processorsFile = .ok [] := by
      decide +kernel
    have hnames : loaded.artifacts.readList tree [] ArtifactDirectory.namesFile = .ok ["y"] := by
      decide +kernel
    exact ArtifactDirectory.load_of_sorted hlook hprocessors hnames
      (FileTree.entriesBelow_of_pairwise (by decide +kernel)) (by decide +kernel) (by simp)
  have hopen : loaded.openStore place tree = .ok (Store.empty.insertAll [kept], [kept.name]) := by
    unfold Loaded.openStore
    rw [hload]
    simp only [hput]
    rfl
  unfold Session.start
  rw [hvalid, hcommand, hopen]
  rfl

theorem call_fails : CallFails place tree invocation session (.compile units loaded.config.limits) := by
  have hread : Loaded.read place tree none = .ok loaded := by decide +kernel
  have hunits : readUnits place ⟨"."⟩ '/' tree [⟨"x.src"⟩] = .ok units := by decide +kernel
  have hanswer : (session.call place (.compile units loaded.config.limits)).2 =
      some (.batch (.failed (.timedOut .compile (.ofMillis 5)))) := by
    decide +kernel
  exact .batch rfl hread hunits start_session rfl hanswer

end Example

open Example in
theorem failing_run_keeps_files_overdue :
    (run place tree ["compile", "x.src"]).code = 1 ∧
      (run place tree ["compile", "x.src"]).console.tree.file? [".summon", "artifacts", "NAMES"] =
        some "# kept\ny".toUTF8 ∧
      (run place tree ["compile", "x.src"]).console.tree.file? [".summon", "artifacts", "x.bin"] =
        none := by
  -- this compiler writes nothing at any time
  have hconfined : session.command.Confined place.programs := by
    intro s processors sources cwd t r hr l _ k
    obtain rfl := Except.ok.inj hr
    unfold ProgramRun.treeAt
    split <;> rfl
  have hargs : parse ["compile", "x.src"] = .ok invocation := by decide +kernel
  have htemporary : place.temporary = ["tmp"] := by decide +kernel
  have hlocation : session.loaded.artifacts.location place.cwd = [".summon", "artifacts"] := by
    decide +kernel
  obtain ⟨hcode, hfiles, hclear, -⟩ :=
    failing_run_keeps_files hargs call_fails hconfined (by decide +kernel)
  rw [hlocation] at hclear
  have hnew := hclear ⟨by rw [htemporary]; decide, fun n _ => by rw [htemporary]; simp⟩
    [".summon", "artifacts", "x.bin"] (by decide)
  refine ⟨hcode, ?_, ?_⟩
  · rw [hfiles _ (by decide +kernel)]
    decide +kernel
  · rw [hnew]
    decide +kernel

end OnDemand.Cli
