import OnDemand.Proofs.ArtifactDirectory.Saving

/-!
# The lists over a history of saves

Whatever saves come one after the other on a directory, and whichever of them fail, after one that
succeeds each list says what it said at first and then the names of the artifacts saved since, each
once and in order, but for those that begin like a comment (`listsAt_afterAll`). A save that fails
leaves the lists as they are, unless it leaves a directory on which no save succeeds again
(`save_lists`). What a list said is never lost (`entries_stay`).
-/

namespace OnDemand.ArtifactDirectory

open FileTree OnDemand.Path

variable {d : ArtifactDirectory} {t t' u : FileTree} {cwd : Location} {file : String}
  {as : List Artifact}

/-! ## Histories -/

/-- The tree after saves one after the other, whether they succeed or not. -/
def afterAll (d : ArtifactDirectory) (cwd : Location) : FileTree → List (List Artifact) → FileTree
  | t, [] => t
  | t, as :: history => afterAll d cwd (d.save t cwd as).1 history

def savedIn (d : ArtifactDirectory) (cwd : Location) :
    FileTree → List (List Artifact) → List Artifact
  | _, [] => []
  | t, as :: history =>
    match d.save t cwd as with
    | (t, .ok ()) => as ++ savedIn d cwd t history
    | (t, .error _) => savedIn d cwd t history

theorem afterAll_append : ∀ (history : List (List Artifact)) (t : FileTree) (more),
    d.afterAll cwd t (history ++ more) = d.afterAll cwd (d.afterAll cwd t history) more
  | [], _, _ => rfl
  | _ :: history, _, more => afterAll_append history _ more

theorem savedIn_append (history : List (List Artifact)) (t : FileTree) :
    ∀ more, d.savedIn cwd t (history ++ more) =
      d.savedIn cwd t history ++ d.savedIn cwd (d.afterAll cwd t history) more := by
  induction history generalizing t with
  | nil => exact fun _ => rfl
  | cons as history ih =>
    intro more
    rw [List.cons_append, savedIn, savedIn, afterAll]
    cases h : d.save t cwd as with
    | mk u r =>
      cases r with
      | ok _ => simp only [ih, List.append_assoc]
      | error e => simp only [ih]

theorem mem_savedIn {a : Artifact} : ∀ {history : List (List Artifact)} {t : FileTree},
    a ∈ d.savedIn cwd t history → ∃ before as u, before ++ [as] <+: history ∧ a ∈ as ∧
      d.save (d.afterAll cwd t before) cwd as = (u, .ok ())
  | [], _, h => (List.not_mem_nil h).elim
  | as :: history, t, h => by
    have hlater : a ∈ d.savedIn cwd (d.save t cwd as).1 history → ∃ before as' u,
        before ++ [as'] <+: as :: history ∧ a ∈ as' ∧
          d.save (d.afterAll cwd t before) cwd as' = (u, .ok ()) := by
      intro h
      obtain ⟨before, as', u, hpre, ha, hsave⟩ := mem_savedIn h
      exact ⟨as :: before, as', u, (List.prefix_cons_inj as).mpr hpre, ha, hsave⟩
    unfold savedIn at h
    split at h
    · rename_i u hsave
      rcases List.mem_append.mp h with h | h
      · exact ⟨[], as, u, (List.prefix_cons_inj as).mpr List.nil_prefix, h, hsave⟩
      · exact hlater (by rw [hsave]; exact h)
    · rename_i u e hsave
      exact hlater (by rw [hsave]; exact h)

/-! ## Both lists -/

def listsAt (d : ArtifactDirectory) (t : FileTree) (cwd : Location) : List String × List String :=
  (d.listAt t cwd namesFile, d.listAt t cwd processorsFile)

/-- What two lists say after artifacts have been recorded in them. -/
def recorded (lists : List String × List String) (as : List Artifact) : List String × List String :=
  (extended lists.1 ((as.map (·.name)).filter fun n => isEntry n.text),
    extended lists.2 (((as.filter Artifact.isProcessor).map (·.name)).filter fun n => isEntry n.text))

theorem recorded_append (lists : List String × List String) (as more : List Artifact) :
    recorded (recorded lists as) more = recorded lists (as ++ more) := by
  unfold recorded
  simp only [extended_append, List.map_append, List.filter_append]

def OffLists (d : ArtifactDirectory) (as : List Artifact) : Prop :=
  ∀ a ∈ as, d.fileParts a.name.segments ≠ [namesFile] ∧
    d.fileParts a.name.segments ≠ [processorsFile]

structure Blocked (d : ArtifactDirectory) (cwd : Location) (t : FileTree) : Prop where
  isDir : t.isDir cwd d.root = true
  unreadable : ¬ d.Readable t cwd processorsFile

theorem Readable.before (hs : Part file) (hroot : t.isDir cwd d.root = true) (hk : t.DirsKept t')
    (hfile : t'.file? (d.location cwd ++ [file]) = t.file? (d.location cwd ++ [file]))
    (h : d.Readable t' cwd file) : d.Readable t cwd file := by
  have hroot' := isDir_kept hk hroot
  obtain ⟨hloc, hnd, htext⟩ := (readable_iff hs hroot').mp h
  refine (readable_iff hs hroot).mpr ⟨?_, fun hd => hnd (hk _ hd), ?_⟩
  · rw [← hloc]
    exact (locate_join_congr hs hroot hroot').symm
  · rwa [← hfile]

theorem listAt_entries (d : ArtifactDirectory) (t : FileTree) (cwd : Location) (file : String) :
    (d.listAt t cwd file).filter isEntry = d.listAt t cwd file :=
  List.filter_eq_self.mpr fun _ h => isEntry_of_mem_listAt h

theorem Wrote.listsAt {written : List Artifact} (h : d.Wrote cwd t u as written)
    (hoff : d.OffLists written) : d.listsAt u cwd = d.listsAt t cwd := by
  unfold ArtifactDirectory.listsAt
  rw [listAt_congr (h.list fun a ha => (hoff a ha).1), listAt_congr (h.list fun a ha => (hoff a ha).2)]

theorem OffLists.written {written rest : List Artifact} (h : d.OffLists (written ++ rest)) :
    d.OffLists written :=
  fun a ha => h a (List.mem_append_left _ ha)

theorem Blocked.wrote {written : List Artifact} (hb : d.Blocked cwd t) (hoff : d.OffLists written)
    (hw : d.Wrote cwd t u as written) : d.Blocked cwd u :=
  ⟨isDir_kept hw.dirs hb.isDir, fun hr => hb.unreadable
    (hr.before stem_processorsFile.part hb.isDir hw.dirs (hw.list fun a ha => (hoff a ha).2))⟩

theorem Blocked.adds {names : List Name} (hb : d.Blocked cwd t)
    (ha : d.Adds cwd t u namesFile names) : d.Blocked cwd u :=
  ⟨isDir_kept ha.dirs hb.isDir, fun hr => hb.unreadable
    (hr.before stem_processorsFile.part hb.isDir ha.dirs (ha.others _ (lists_apart _).symm))⟩

theorem Blocked.save (hb : d.Blocked cwd t) (hoff : d.OffLists as) {r : Except DirectoryError Unit}
    (h : d.save t cwd as = (t', r)) : (∃ e, r = .error e) ∧ d.Blocked cwd t' := by
  cases save_cases hb.isDir h with
  | stopped has _ hw => exact ⟨⟨_, rfl⟩, hb.wrote (has ▸ hoff).written hw⟩
  | unlisted hw _ => exact ⟨⟨_, rfl⟩, hb.wrote hoff hw⟩
  | unmarked hw ha _ => exact ⟨⟨_, rfl⟩, (hb.wrote hoff hw).adds ha⟩
  | saved hw ha hm => exact absurd hm.opened ((hb.wrote hoff hw).adds ha).unreadable

theorem Blocked.afterAll {history : List (List Artifact)} (hoff : ∀ as ∈ history, d.OffLists as)
    (hb : d.Blocked cwd t) : d.Blocked cwd (d.afterAll cwd t history) := by
  induction history generalizing t with
  | nil => exact hb
  | cons as history ih =>
    exact ih (fun bs h => hoff bs (List.mem_cons_of_mem _ h)) (hb.save (hoff as (by simp)) rfl).2

theorem Adds.recorded_names {names : List Name} (h : d.Adds cwd t t' file names) :
    d.listAt t' cwd file =
      extended (d.listAt t cwd file) (names.filter fun n => isEntry n.text) := by
  rw [h.listAt, filter_extended, listAt_entries]

/-- With its artifacts written and both lists grown, a save has recorded them, and both lists can be
read. -/
theorem recorded_of_saved (hroot : t.isDir cwd d.root = true) (hoff : d.OffLists as) {v w : FileTree}
    (hw : d.Wrote cwd t u as as) (ha : d.Adds cwd u v namesFile (as.map (·.name)))
    (hm : d.Adds cwd v w processorsFile ((as.filter Artifact.isProcessor).map (·.name))) :
    d.listsAt w cwd = recorded (d.listsAt t cwd) as ∧
      d.readList w cwd namesFile = .ok (d.listsAt w cwd).1 ∧
      d.readList w cwd processorsFile = .ok (d.listsAt w cwd).2 := by
  have hv := isDir_kept ha.dirs (isDir_kept hw.dirs hroot)
  have hnames : d.Readable w cwd namesFile := ha.readable.kept stem_namesFile.part hv hm.dirs
    (hm.noDirs _) (hm.others _ (lists_apart _))
  have hroot' := isDir_kept hm.dirs hv
  refine ⟨?_, hnames.readList stem_namesFile.part hroot',
    hm.readable.readList stem_processorsFile.part hroot'⟩
  rw [← hw.listsAt hoff]
  unfold listsAt recorded
  rw [listAt_congr (hm.others _ (lists_apart _)), ha.recorded_names, hm.recorded_names,
    listAt_congr (ha.others _ (lists_apart _).symm)]

theorem listsAt_roomier (h : t.Roomier u) : d.listsAt u cwd = d.listsAt t cwd := by
  unfold listsAt
  rw [listAt_congr (h.file? _), listAt_congr (h.file? _)]

/-- A save that succeeds records its artifacts in both lists, which can be read afterwards. One that
fails leaves the lists as they are, unless it leaves a blocked directory. -/
theorem save_lists (hne : d.root.text ≠ "") (hoff : d.OffLists as)
    {r : Except DirectoryError Unit} (h : d.save t cwd as = (t', r)) :
    r = .ok () ∧ d.listsAt t' cwd = recorded (d.listsAt t cwd) as ∧
        d.readList t' cwd namesFile = .ok (d.listsAt t' cwd).1 ∧
        d.readList t' cwd processorsFile = .ok (d.listsAt t' cwd).2 ∨
      (∃ e, r = .error e) ∧ (d.listsAt t' cwd = d.listsAt t cwd ∨ d.Blocked cwd t') := by
  have hroom := roomier_makeDirs t cwd d.root
  cases hmake : t.makeDirs cwd d.root with
  | mk t₀ made =>
    rw [hmake] at hroom
    cases made with
    | error e =>
      unfold save at h
      rw [hmake] at h
      obtain ⟨rfl, rfl⟩ := Prod.mk.inj h
      exact Or.inr ⟨⟨_, rfl⟩, Or.inl (listsAt_roomier hroom)⟩
    | ok _ =>
      obtain ⟨hroot, hsave⟩ := save_of_makeDirs hne hmake as
      rw [hsave] at h
      rw [← listsAt_roomier hroom]
      -- names are listed before processors, so only one end leaves one list of two
      cases save_cases hroot h with
      | stopped has _ hw =>
        exact Or.inr ⟨⟨_, rfl⟩, Or.inl (hw.listsAt (has ▸ hoff).written)⟩
      | unlisted hw _ => exact Or.inr ⟨⟨_, rfl⟩, Or.inl (hw.listsAt hoff)⟩
      | unmarked hw ha hread =>
        exact Or.inr ⟨⟨_, rfl⟩, Or.inr ⟨isDir_kept ha.dirs (isDir_kept hw.dirs hroot), hread⟩⟩
      | saved hw ha hm => exact Or.inl ⟨rfl, recorded_of_saved hroot hoff hw ha hm⟩

/-- Unless the directory is blocked, the lists say what has been saved. -/
theorem listsAt_afterAll (hne : d.root.text ≠ "") : ∀ {history : List (List Artifact)} {t : FileTree},
    (∀ as ∈ history, d.OffLists as) → d.Blocked cwd (d.afterAll cwd t history) ∨
      d.listsAt (d.afterAll cwd t history) cwd = recorded (d.listsAt t cwd) (d.savedIn cwd t history)
  | [], t, _ => Or.inr rfl
  | as :: history, t, hoff => by
    have hlater : ∀ bs ∈ history, d.OffLists bs := fun bs hb => hoff bs (List.mem_cons_of_mem _ hb)
    have ih := listsAt_afterAll hne (t := (d.save t cwd as).1) hlater
    unfold afterAll savedIn
    cases hsave : d.save t cwd as with
    | mk u r =>
      rw [hsave] at ih
      rcases save_lists hne (hoff as (by simp)) hsave with ⟨rfl, hlists, -, -⟩ | ⟨⟨e, rfl⟩, hcase⟩
      · refine ih.imp id fun h => ?_
        rw [h, hlists, recorded_append]
      · rcases hcase with hlists | hblocked
        · refine ih.imp id fun h => ?_
          rw [h, hlists]
        · exact Or.inl (hblocked.afterAll hlater)

/-! ## What is never lost -/

structure Says (d : ArtifactDirectory) (cwd : Location) (t : FileTree) (file : String)
    (lines : List String) : Prop where
  isDir : t.isDir cwd d.root = true
  readable : d.Readable t cwd file
  present : t.file? (d.location cwd ++ [file]) ≠ none
  lines : lines <+: d.listAt t cwd file

variable {lines : List String}

theorem ne_dir_of_present {l : Location} (h : t.file? l ≠ none) : t.entry? l ≠ some .dir := by
  intro hd
  unfold FileTree.file? at h
  rw [hd] at h
  exact h rfl

theorem Says.kept (h : d.Says cwd t file lines) (hs : Part file) (hk : t.DirsKept u)
    (hfile : u.file? (d.location cwd ++ [file]) = t.file? (d.location cwd ++ [file])) :
    d.Says cwd u file lines := by
  have hpresent : u.file? (d.location cwd ++ [file]) ≠ none := by
    rw [hfile]
    exact h.present
  refine ⟨isDir_kept hk h.isDir, ?_, hpresent, ?_⟩
  · exact h.readable.kept hs h.isDir hk (fun hd => absurd hd (ne_dir_of_present hpresent)) hfile
  · rw [listAt_congr hfile]
    exact h.lines

theorem Says.adds {added : String} {names : List Name} (h : d.Says cwd t file lines)
    (hs : Part file) (ha : d.Adds cwd t u added names) : d.Says cwd u file lines := by
  by_cases hsame : added = file
  · subst hsame
    have hgrown := (prefix_extended names (d.listAt t cwd added)).filter isEntry
    rw [listAt_entries, ← ha.listAt] at hgrown
    refine ⟨isDir_kept ha.dirs h.isDir, ha.readable, ?_, h.lines.trans hgrown⟩
    exact ha.present h.present
  · refine h.kept hs ha.dirs (ha.others _ fun heq => hsame ?_)
    exact (List.cons.inj (List.append_cancel_left heq)).1.symm

theorem says_of_readList (hne : d.root.text ≠ "") (hs : Part file)
    (h : d.readList t cwd file = .ok lines) (hlines : lines ≠ []) : d.Says cwd t file lines := by
  have hlocate : ∃ l, t.locate cwd (d.listPath file) = .ok l := by
    cases hloc : t.locate cwd (d.listPath file) with
    | ok l => exact ⟨l, rfl⟩
    | error e =>
      unfold readList readText FileTree.read look at h
      simp only [hloc] at h
      cases e <;> first | exact absurd (Except.ok.inj h).symm hlines | cases h
  obtain ⟨l, hloc⟩ := hlocate
  have hroot := isDir_of_locate_join hne hs hloc
  obtain rfl := readList_spec hs hroot h
  refine ⟨hroot, ⟨_, h⟩, fun hnone => hlines ?_, List.prefix_rfl⟩
  unfold listAt
  rw [hnone]
  rfl

/-- What a list said before a save can be read after it, whether the save succeeds or not. -/
theorem entries_stay (hne : d.root.text ≠ "") (hoff : d.OffLists as)
    (hfile : file = namesFile ∨ file = processorsFile) {r : Except DirectoryError Unit}
    (h : d.save t cwd as = (t', r)) (hread : d.readList t cwd file = .ok lines)
    (hlines : lines ≠ []) :
    ∃ lines', d.readList t' cwd file = .ok lines' ∧ lines <+: lines' := by
  have hs : Part file := by
    rcases hfile with rfl | rfl
    · exact stem_namesFile.part
    · exact stem_processorsFile.part
  have hsays := says_of_readList hne hs hread hlines
  have hwrote : ∀ {u written}, d.Wrote cwd t u as written → d.OffLists written →
      d.Says cwd u file lines := by
    intro u written hw hoff
    refine hsays.kept hs hw.dirs (hw.list fun a ha => ?_)
    rcases hfile with rfl | rfl
    · exact (hoff a ha).1
    · exact (hoff a ha).2
  -- every end of a save writes files first and adds to the lists afterwards
  have hafter : d.Says cwd t' file lines := by
    cases save_cases hsays.isDir h with
    | stopped has _ hw => exact hwrote hw (has ▸ hoff).written
    | unlisted hw _ => exact hwrote hw hoff
    | unmarked hw ha _ => exact (hwrote hw hoff).adds hs ha
    | saved hw ha hm => exact ((hwrote hw hoff).adds hs ha).adds hs hm
  exact ⟨_, hafter.readable.readList hs hafter.isDir, hafter.lines⟩

/-! ## The lists after each save -/

/-- Lines, and then the names that they lack, each once and in the order of first occurrence. -/
def withNames (lines : List String) (names : List Name) : List String :=
  lines ++ ((Name.distinct names).map Name.text).filter (· ∉ lines)

theorem extended_eq : ∀ (names : List Name) (lines : List String),
    extended lines names = withNames lines names
  | [], lines => by simp [extended, withNames, Name.distinct]
  | n :: ns, lines => by
    rw [extended_cons, extended_eq ns]
    unfold withNames
    rw [Name.distinct, List.map_cons, List.filter_cons]
    by_cases hn : n.text ∈ lines
    · -- a name that is listed is left out in any case
      rw [if_pos hn, if_neg (by simpa using hn)]
      simp only [List.filter_map, List.filter_filter]
      congr 2
      refine List.filter_congr fun m _ => ?_
      by_cases hm : m = n <;> simp [hm, hn]
    · rw [if_neg hn, if_pos (by simpa using hn), List.append_assoc, List.singleton_append]
      simp only [List.filter_map, List.filter_filter]
      congr 3
      refine List.filter_congr fun m _ => ?_
      by_cases hm : m = n
      · simp [hm]
      · have : m.text ≠ n.text := fun h => hm (Name.eq_of_text_eq h)
        simp [hm, this]

theorem nodup_withNames {lines : List String} (h : lines.Nodup) (names : List Name) :
    (withNames lines names).Nodup := by
  refine List.nodup_append.mpr ⟨h, ?_, ?_⟩
  · refine List.Pairwise.filter _ (List.pairwise_map.mpr ?_)
    exact (Name.nodup_distinct names).imp fun hne heq => hne (Name.eq_of_text_eq heq)
  · rintro a ha b hb rfl
    simpa [ha] using (List.mem_filter.mp hb).2

/-- Both lists can be read, and say what they said at first and then what has been saved since. -/
structure Records (d : ArtifactDirectory) (cwd : Location) (t t' : FileTree) (as : List Artifact) :
    Prop where
  names : d.readList t' cwd namesFile =
    .ok (withNames (d.listAt t cwd namesFile) (as.map (·.name)))
  processors : d.readList t' cwd processorsFile =
    .ok (withNames (d.listAt t cwd processorsFile) ((as.filter Artifact.isProcessor).map (·.name)))

theorem dotted_ne_of_stem {s e file : String} (hs : Stem file) : s ++ "." ++ e ≠ file := by
  rintro rfl
  exact hs.noDot '.' (by simp) rfl

theorem offLists_of (h : d.extension = "" → ∀ a ∈ as,
    a.name.segments ≠ [namesFile] ∧ a.name.segments ≠ [processorsFile]) : d.OffLists as := by
  intro a ha
  obtain ⟨init, last, hn, -, -⟩ := exists_segments_eq a.name
  by_cases hext : d.extension = ""
  · have hsame : d.fileParts a.name.segments = a.name.segments := by
      rw [hn, fileParts_concat, suffix, if_pos hext, String.append_empty]
    rw [hsame]
    exact h hext a ha
  · have hne : ∀ {file : String}, Stem file → d.fileParts a.name.segments ≠ [file] := by
      intro file hs heq
      rw [hn, fileParts_concat, suffix, if_neg hext, ← String.append_assoc] at heq
      have hlast := congrArg List.getLast? heq
      simp only [List.getLast?_concat, List.getLast?_singleton] at hlast
      exact dotted_ne_of_stem hs (Option.some.inj hlast)
    exact ⟨hne stem_namesFile, hne stem_processorsFile⟩

theorem offLists_of_mem {history : List (List Artifact)} (h : d.extension = "" →
    ∀ as ∈ history, ∀ a ∈ as, a.name.segments ≠ [namesFile] ∧ a.name.segments ≠ [processorsFile]) :
    ∀ as ∈ history, d.OffLists as :=
  fun as ha => offLists_of fun hext => h hext as ha

theorem readList_afterAll (hne : d.root.text ≠ "") {before : List (List Artifact)}
    (hoff : ∀ bs ∈ before ++ [as], d.OffLists bs)
    (h : d.save (d.afterAll cwd t before) cwd as = (t', .ok ())) :
    d.readList t' cwd namesFile =
        .ok (recorded (d.listsAt t cwd) (d.savedIn cwd t (before ++ [as]))).1 ∧
      d.readList t' cwd processorsFile =
        .ok (recorded (d.listsAt t cwd) (d.savedIn cwd t (before ++ [as]))).2 := by
  have hlast := hoff as (by simp)
  have hstate : d.Blocked cwd (d.afterAll cwd t before) ∨
      d.listsAt (d.afterAll cwd t before) cwd =
        recorded (d.listsAt t cwd) (d.savedIn cwd t before) :=
    listsAt_afterAll hne fun bs hb => hoff bs (List.mem_append_left _ hb)
  rcases hstate with hb | hlists
  · obtain ⟨⟨e, he⟩, -⟩ := hb.save hlast h
    cases he
  · rcases save_lists hne hlast h with ⟨-, hgrown, hnames, hprocessors⟩ | ⟨⟨e, he⟩, -⟩
    · have hsaved : d.savedIn cwd t (before ++ [as]) = d.savedIn cwd t before ++ as := by
        rw [savedIn_append]
        simp [savedIn, h]
      rw [hnames, hprocessors, hgrown, hlists, recorded_append, hsaved]
      exact ⟨rfl, rfl⟩
    · cases he

theorem recorded_of_named {lists : List String × List String}
    (h : ∀ a ∈ as, a.name.startsWith "#" = false) :
    recorded lists as = (withNames lists.1 (as.map (·.name)),
      withNames lists.2 ((as.filter Artifact.isProcessor).map (·.name))) := by
  have hall : ∀ bs : List Artifact, (∀ a ∈ bs, a ∈ as) →
      (bs.map (·.name)).filter (fun n => isEntry n.text) = bs.map (·.name) := by
    intro bs hbs
    refine List.filter_eq_self.mpr fun n hn => ?_
    obtain ⟨a, ha, rfl⟩ := List.mem_map.mp hn
    rw [isEntry_text, h a (hbs a ha)]
    rfl
  unfold recorded
  rw [hall as fun _ ha => ha, hall _ fun _ ha => (List.mem_filter.mp ha).1, extended_eq, extended_eq]

theorem entry_of_recorded {saved : List Artifact} {a : Artifact} (ha : a ∈ saved)
    (h : withNames (d.listAt t cwd namesFile) (saved.map (·.name)) =
      (recorded (d.listsAt t cwd) saved).1) :
    a.name.startsWith "#" = false := by
  have hread : a.name.text ∈ (recorded (d.listsAt t cwd) saved).1 := by
    rw [← h, ← extended_eq, mem_extended]
    exact Or.inr ⟨a.name, List.mem_map_of_mem ha, rfl⟩
  have hentry : isEntry a.name.text = true := by
    rcases (mem_extended _ _).mp hread with hread | ⟨n, hn, htext⟩
    · exact isEntry_of_mem_listAt hread
    · rw [← htext]
      exact (List.mem_filter.mp hn).2
  rw [isEntry_text] at hentry
  simpa using hentry

/-- Take saves one after the other on a directory, of which some may fail. After each that succeeds
both lists say what they said at first and then the names that have been saved since, each once and
in the order of first saves, if and only if no name that is saved begins like a comment. In any case
a list that says no name twice never does, and what a list says before a save can be read after it. -/
theorem lists_keep_iff (hne : d.root.text ≠ "") {history : List (List Artifact)}
    (hfiles : d.extension = "" → ∀ as ∈ history, ∀ a ∈ as,
      a.name.segments ≠ [namesFile] ∧ a.name.segments ≠ [processorsFile]) :
    ((∀ before as t', before ++ [as] <+: history →
        d.save (d.afterAll cwd t before) cwd as = (t', .ok ()) →
        d.Records cwd t t' (d.savedIn cwd t (before ++ [as]))) ↔
      ∀ a ∈ d.savedIn cwd t history, a.name.startsWith "#" = false) ∧
    (∀ file names, (d.listAt t cwd file).Nodup → (withNames (d.listAt t cwd file) names).Nodup) ∧
    (∀ before as file lines, before ++ [as] <+: history → file = namesFile ∨ file = processorsFile →
      d.readList (d.afterAll cwd t before) cwd file = .ok lines → lines ≠ [] →
      ∃ lines', d.readList (d.afterAll cwd t (before ++ [as])) cwd file = .ok lines' ∧
        lines <+: lines') := by
  have hoff := offLists_of_mem hfiles
  have hpre : ∀ {before}, before <+: history → ∀ as ∈ before, d.OffLists as :=
    fun hb as ha => hoff as (hb.subset ha)
  have hgrown : ∀ {before : List (List Artifact)}, before <+: history →
      ∀ a ∈ d.savedIn cwd t before, a ∈ d.savedIn cwd t history := by
    rintro before ⟨more, rfl⟩ a ha
    rw [savedIn_append]
    exact List.mem_append_left _ ha
  refine ⟨⟨fun h a ha => ?_, fun h before as t' hb hsave => ?_⟩,
    fun file names hn => nodup_withNames hn names,
    fun before as file lines hb hfile hread hlines => ?_⟩
  · obtain ⟨before, as, u, hb, hmem, hsave⟩ := mem_savedIn ha
    -- the list after that save is the one that was recorded, comment or not
    have hsame := (h before as u hb hsave).names.symm.trans
      (readList_afterAll hne (hpre hb) hsave).1
    refine entry_of_recorded ?_ (Except.ok.inj hsame)
    rw [savedIn_append]
    simp [savedIn, hsave, hmem]
  · have hnamed := fun a ha => h a (hgrown hb a ha)
    obtain ⟨hnames, hprocessors⟩ := readList_afterAll hne (hpre hb) hsave
    -- without comments no name is lost when a list is read again
    rw [recorded_of_named hnamed] at hnames hprocessors
    exact ⟨hnames, hprocessors⟩
  · rw [afterAll_append]
    exact entries_stay hne (hpre hb as (by simp)) hfile rfl hread hlines

namespace Example

/-- The second save fails, for the list of names stands where it would make a directory. -/
def begun : List (List Artifact) :=
  [[(plain "p").withCapability .extensionProcessor, a], [underList]]

def last : List Artifact :=
  [b, a]

def left : FileTree :=
  directory.afterAll [] .empty begun

end Example

open Example in
theorem lists_keep_iff_failing :
    directory.savedIn [] .empty begun = begun.head (by decide) ∧
      directory.readList (directory.save left [] last).1 [] namesFile = .ok ["p", "a", "b"] ∧
      directory.readList (directory.save left [] last).1 [] processorsFile = .ok ["p"] := by
  have hnamed : ∀ a ∈ directory.savedIn [] .empty (begun ++ [last]),
      a.name.startsWith "#" = false := by
    decide +kernel
  have hok : (directory.save left [] last).2 = .ok () := by decide +kernel
  have hrecords : directory.Records [] .empty _ (directory.savedIn [] .empty (begun ++ [last])) :=
    (lists_keep_iff (by decide) (fun h => absurd h (by decide))).1.mpr hnamed
      begun last _ List.prefix_rfl (save_mk hok)
  have hnames : withNames (directory.listAt .empty [] namesFile)
      ((directory.savedIn [] .empty (begun ++ [last])).map (·.name)) = ["p", "a", "b"] := by
    decide +kernel
  have hprocessors : withNames (directory.listAt .empty [] processorsFile)
      (((directory.savedIn [] .empty (begun ++ [last])).filter Artifact.isProcessor).map
        (·.name)) = ["p"] := by
    decide +kernel
  refine ⟨by decide +kernel, ?_, ?_⟩
  · rw [← hnames]
    exact hrecords.names
  · rw [← hprocessors]
    exact hrecords.processors

open Example in
/-- A name that begins like a comment is not read back, and the next save that writes the list takes
it out of the file. -/
theorem comment_not_listed :
    ∃ t u : FileTree, directory.save .empty [] [plain "#a"] = (t, .ok ()) ∧
      t.file? ["s", "NAMES"] = some "#a\n".toUTF8 ∧ directory.readList t [] namesFile = .ok [] ∧
      directory.save t [] [b] = (u, .ok ()) ∧
      u.file? ["s", "NAMES"] = some "b\n".toUTF8 := by
  refine ⟨_, _, save_mk (by decide +kernel), by decide +kernel, by decide +kernel,
    save_mk (by decide +kernel), by decide +kernel⟩

end OnDemand.ArtifactDirectory
