import OnDemand.Proofs.ArtifactDirectory.Listing
import OnDemand.Proofs.ArtifactDirectory.Loading

/-!
# Loading what was saved

After any history of saves on a new directory its files are the lists and those of the artifacts,
each as it was saved last, and its directories are in the way of no artifact (`Holds`). So a save that
follows succeeds (`Holds.save`), and loading gives back what has been saved (`Holds.load`).
-/

namespace OnDemand.ArtifactDirectory

open FileTree OnDemand.Path

variable {d : ArtifactDirectory} {t t' : FileTree} {cwd : Location} {as saved : List Artifact}

/-! ## What a history leaves -/

/-- The files of a directory are lists and those of artifacts, in the order in which they have been
saved, and both lists have the names of these. No path is too long. -/
structure Holds (d : ArtifactDirectory) (cwd : Location) (t : FileTree) (saved : List Artifact) :
    Prop where
  keyed : t.Keyed
  isDir : t.isDir cwd d.root = true
  room : ∀ n : Name, n.Beside → d.Room cwd t n
  readable : ∀ file, file = namesFile ∨ file = processorsFile → d.Readable t cwd file
  files : ∀ parts, parts ≠ [namesFile] → parts ≠ [processorsFile] →
    t.file? (d.location cwd ++ parts) =
      (saved.reverse.find? fun a => d.partsOf a.name.segments = parts).map (·.payload)
  lists : d.listsAt t cwd = recorded ([], []) saved
  walkable : d.Walkable t cwd
  short : ∀ a ∈ saved, (d.root.joinAll (d.partsOf a.name.segments)).tooLong = false

theorem Empty.holds (h : d.Empty cwd t) (hk : t.Keyed)
    (hf : ∀ file, file = namesFile ∨ file = processorsFile → Fit (d.listPath file)) :
    d.Holds cwd t [] := by
  refine ⟨hk, h.isDir, fun n _ => h.room n, fun file hfile => ?_, fun parts _ _ => h.file? parts, ?_,
    h.walkable, by simp⟩
  · exact h.readable (stem_of_list hfile).part (hf file hfile)
  · unfold listsAt
    rw [h.listAt, h.listAt]
    rfl

/-- A save succeeds, and its artifacts are there. -/
theorem Holds.save (hd : d.Sound) (h : d.Holds cwd t saved)
    (hfit : ∀ a ∈ as, Fit (d.root.joinAll (d.partsOf a.name.segments)))
    (hb : ∀ a ∈ as, a.name.Beside) :
    ∃ t', d.save t cwd as = (t', .ok ()) ∧ d.Holds cwd t' (saved ++ as) := by
  -- there is room for each artifact, so nothing stops the save
  have hok : (d.save t cwd as).2 = .ok () := by
    refine save_room hd h.isDir (fun a ha => ?_) (fun a ha => h.room _ (hb a ha)) hb
      (h.readable _ (Or.inl rfl)) (h.readable _ (Or.inr rfl))
    rw [fileParts_of_sound hd]
    exact hfit a ha
  obtain ⟨t', hsave⟩ : ∃ t', d.save t cwd as = (t', .ok ()) := ⟨_, save_mk hok⟩
  refine ⟨t', hsave, ?_⟩
  have hoff : d.OffLists as := offLists_of fun hext => absurd hext hd.extension.nonempty
  rcases save_lists hd.root hoff hsave with ⟨-, hlists, -, -⟩ | ⟨⟨e, he⟩, -⟩
  · cases save_cases h.isDir hsave with
    | saved hw ha hm =>
      rename_i u v
      have hu := isDir_kept hw.dirs h.isDir
      have hv := isDir_kept ha.dirs hu
      refine ⟨hm.keyed (ha.keyed (hw.keyed h.keyed)), isDir_kept hm.dirs hv, fun n hn => ?_,
        fun file hfile => ?_, fun parts hpn hpp => ?_, ?_, ((h.walkable.wrote hw).adds ha).adds hm,
        fun a ha => ?_⟩
      · exact hm.room (Or.inr rfl) hn
          (ha.room (Or.inl rfl) hn (hw.room hd.extension.nonempty (h.room n hn)))
      · rcases hfile with rfl | rfl
        · exact hm.readable_other stem_namesFile.part hv (by decide) ha.readable
        · exact hm.readable
      · rw [hm.others _ fun heq => hpp (List.append_cancel_left heq),
          ha.others _ fun heq => hpn (List.append_cancel_left heq), hw.file?, h.files parts hpn hpp,
          List.reverse_append, List.find?_append, Option.map_or]
        simp only [fileParts_of_sound hd, List.append_cancel_left_eq]
      · rw [hlists, h.lists, recorded_append]
      · rcases List.mem_append.mp ha with ha | ha
        · exact h.short a ha
        · exact tooLong_eq_false.mpr (hfit a ha).short
  · cases he

theorem Holds.history (hd : d.Sound) : ∀ {history : List (List Artifact)} {t : FileTree}
    {saved : List Artifact}, d.Holds cwd t saved →
    (∀ a ∈ history.flatten, Fit (d.root.joinAll (d.partsOf a.name.segments)) ∧ a.name.Beside) →
    (∀ before as, before ++ [as] <+: history →
      (d.save (d.afterAll cwd t before) cwd as).2 = .ok ()) ∧
    d.Holds cwd (d.afterAll cwd t history) (saved ++ history.flatten)
  | [], t, saved, h, _ => by
    refine ⟨fun before as hb => ?_, ?_⟩
    · simp at hb
    · rw [List.flatten_nil, List.append_nil]
      exact h
  | as :: history, t, saved, h, hall => by
    rw [List.flatten_cons] at hall
    obtain ⟨t', hsave, hholds⟩ := h.save hd (fun a ha => (hall a (List.mem_append_left _ ha)).1)
      (fun a ha => (hall a (List.mem_append_left _ ha)).2)
    have ih := hholds.history hd fun a ha => hall a (List.mem_append_right _ ha)
    have hafter : ∀ later, d.afterAll cwd t (as :: later) = d.afterAll cwd t' later := by
      intro later
      rw [afterAll, hsave]
    refine ⟨fun before bs hb => ?_, ?_⟩
    -- a prefix is empty or begins with the save just made
    · cases before with
      | nil =>
        obtain ⟨rfl, -⟩ := List.cons_prefix_cons.mp hb
        exact congrArg Prod.snd hsave
      | cons as' before =>
        rw [List.cons_append] at hb
        obtain ⟨rfl, hpre⟩ := List.cons_prefix_cons.mp hb
        rw [hafter]
        exact ih.1 before bs hpre
    · rw [hafter, List.flatten_cons, ← List.append_assoc]
      exact ih.2

/-! ## What is loaded -/

/-- One artifact for each name that has been saved, in ascending order of names, with the payload of
the last save of the name and marked as a processor if some save of the name was. -/
structure Restores (saved loaded : List Artifact) : Prop where
  ascending : loaded.Pairwise fun a b => a.name < b.name
  names : ∀ n, (∃ a ∈ loaded, a.name = n) ↔ ∃ a ∈ saved, a.name = n
  payload : ∀ a ∈ loaded, ∃ before b after, saved = before ++ b :: after ∧ b.name = a.name ∧
    (∀ c ∈ after, c.name ≠ a.name) ∧ a.payload = b.payload
  processor : ∀ a ∈ loaded, a.isProcessor = true ↔ ∃ b ∈ saved, b.name = a.name ∧ b.isProcessor = true

section
variable (hd : d.Sound) (h : d.Holds cwd t saved)
  (hnamed : ∀ a ∈ saved, a.name.startsWith "#" = false)
  (happart : ∀ a ∈ saved, ∀ n, n ∈ saved.map (·.name) ∨ n ∈ d.known →
    n.segments = a.name.segments → n = a.name)
include h hnamed

theorem Holds.mem_names {text : String} :
    text ∈ d.listAt t cwd namesFile ↔ ∃ a ∈ saved, a.name.text = text := by
  have hlists := h.lists
  rw [recorded_of_named hnamed, ← extended_eq] at hlists
  rw [(Prod.mk.inj hlists).1, mem_extended]
  simp

theorem Holds.mem_processors {segments : List String} :
    segments ∈ ((d.listAt t cwd processorsFile).filterMap Name.parse?).map Name.segments ↔
      ∃ a ∈ saved, a.isProcessor = true ∧ a.name.segments = segments := by
  have hlists := h.lists
  rw [recorded_of_named hnamed, ← extended_eq, ← extended_eq] at hlists
  rw [(Prod.mk.inj hlists).2, List.mem_map]
  constructor
  · rintro ⟨n, hn, rfl⟩
    obtain ⟨line, hline, hparse⟩ := List.mem_filterMap.mp hn
    obtain ⟨m, hm, rfl⟩ : ∃ m ∈ (saved.filter Artifact.isProcessor).map (·.name), m.text = line := by
      simpa [mem_extended] using hline
    rw [Name.parse?_text] at hparse
    obtain rfl := Option.some.inj hparse
    obtain ⟨a, ha, rfl⟩ := List.mem_map.mp hm
    exact ⟨a, (List.mem_filter.mp ha).1, (List.mem_filter.mp ha).2, rfl⟩
  · rintro ⟨a, ha, hp, rfl⟩
    refine ⟨a.name, List.mem_filterMap.mpr ⟨a.name.text, ?_, Name.parse?_text _⟩, rfl⟩
    exact (mem_extended _ _).mpr (Or.inr ⟨_, List.mem_map_of_mem (List.mem_filter.mpr ⟨ha, hp⟩), rfl⟩)

include hd happart

theorem Holds.nameAt {a : Artifact} (ha : a ∈ saved) :
    d.nameAt t cwd (d.partsOf a.name.segments) = .ok a.name := by
  refine nameFor_listed hd ((h.mem_names hnamed).mpr ⟨a, ha, rfl⟩) fun m hm => happart a ha m ?_
  refine hm.imp_left fun hm => ?_
  obtain ⟨b, hb, htext⟩ := (h.mem_names hnamed).mp hm
  exact List.mem_map.mpr ⟨b, hb, Name.eq_of_text_eq htext⟩

omit hd hnamed happart in
theorem Holds.file {parts : List String} {bytes : ByteArray}
    (hf : t.file? (d.location cwd ++ parts) = some bytes) (hparts : d.isArtifactFile parts = true) :
    ∃ before b after, saved = before ++ b :: after ∧ d.partsOf b.name.segments = parts ∧
      (∀ c ∈ after, d.partsOf c.name.segments ≠ parts) ∧ bytes = b.payload := by
  have hstem : ∀ {s}, Stem s → parts ≠ [s] := by
    rintro s hs rfl
    simp [isArtifactFile, extension?_stem hs] at hparts
  rw [h.files parts (hstem stem_namesFile) (hstem stem_processorsFile)] at hf
  obtain ⟨b, hfind, rfl⟩ := Option.map_eq_some_iff.mp hf
  obtain ⟨hb, before, after, hsplit, hafter⟩ := find?_reverse_eq_some.mp hfind
  exact ⟨before, b, after, hsplit, by simpa using hb, fun c hc => by simpa using hafter c hc, rfl⟩

omit hnamed happart in
theorem Holds.there {b : Artifact} (hb : b ∈ saved) :
    ∃ bytes, t.file? (d.place cwd b.name) = some bytes := by
  have hne := fun {s} (hs : Stem s) => partsOf_ne_of_stem hd hs b.name
  rw [← Option.isSome_iff_exists, place, h.files _ (hne stem_namesFile) (hne stem_processorsFile),
    Option.isSome_map, List.find?_isSome]
  exact ⟨b, List.mem_reverse.mpr hb, by simp⟩

theorem Holds.own {a : Artifact} (ha : ∃ parts, d.LoadsFrom cwd t parts a) :
    ∃ before b after, saved = before ++ b :: after ∧ b.name = a.name ∧
      (∀ c ∈ after, c.name ≠ b.name) ∧
      a = artifactOf b.name b.payload (d.marked t cwd (d.partsOf b.name.segments)) := by
  obtain ⟨parts, bytes, n, hf, hparts, -, hn, rfl⟩ := ha
  obtain ⟨before, b, after, hsplit, rfl, hafter, rfl⟩ := h.file hf hparts
  rw [h.nameAt hd hnamed happart (by rw [hsplit]; simp)] at hn
  obtain rfl := Except.ok.inj hn
  rw [name_artifactOf]
  exact ⟨before, b, after, hsplit, rfl, fun c hc heq => hafter c hc (by rw [heq]), rfl⟩

theorem Holds.loads : ∃ loaded, d.load t cwd = .ok loaded ∧
    loaded.Pairwise fun a b => a.name < b.name := by
  have hfile : ∀ {parts}, t.file? (d.location cwd ++ parts) ≠ none → d.isArtifactFile parts = true →
      ∃ b ∈ saved, d.partsOf b.name.segments = parts := by
    intro parts hf hparts
    obtain ⟨bytes, hf⟩ := Option.ne_none_iff_exists'.mp hf
    obtain ⟨before, b, after, rfl, hb, -⟩ := h.file hf hparts
    exact ⟨b, by simp, hb⟩
  have hname := fun {a} => h.nameAt hd hnamed happart (a := a)
  obtain ⟨loaded, hload⟩ := (load_none_iff h.keyed h.isDir).mpr ⟨h.readable _ (Or.inl rfl),
    h.readable _ (Or.inr rfl), h.walkable, fun parts bytes hf hparts _ => by
      obtain ⟨b, hb, rfl⟩ := hfile (by rw [hf]; simp) hparts
      exact ⟨_, hname hb⟩⟩
  refine ⟨loaded, hload, ascending_load h.keyed h.isDir (fun p q n hp hq hpp hqp hnp hnq => ?_) hload⟩
  obtain ⟨b, hb, rfl⟩ := hfile hp hpp
  obtain ⟨c, hc, rfl⟩ := hfile hq hqp
  rw [hname hb] at hnp
  rw [hname hc, ← hnp] at hnq
  rw [Except.ok.inj hnq]

/-- All that has been saved is loaded. -/
theorem Holds.load : ∃ loaded, d.load t cwd = .ok loaded ∧ Restores saved loaded := by
  obtain ⟨loaded, hload, hascending⟩ := h.loads hd hnamed happart
  have hmem := fun {a} => mem_load h.keyed h.isDir hload (a := a)
  -- each loaded artifact is the last that was saved under its name
  have hown := fun a ha => h.own hd hnamed happart (hmem (a := a) |>.mp ha)
  refine ⟨loaded, hload, hascending, fun n => ⟨?_, ?_⟩, fun a ha => ?_, fun a ha => ?_⟩
  · rintro ⟨a, ha, rfl⟩
    obtain ⟨before, b, after, hsplit, hb, -⟩ := hown a ha
    exact ⟨b, by rw [hsplit]; simp, hb⟩
  · rintro ⟨b, hb, rfl⟩
    obtain ⟨bytes, hf⟩ := h.there hd hb
    exact ⟨_, hmem.mpr ⟨_, bytes, b.name, hf, isArtifactFile_partsOf hd _,
      reached_none.mpr (h.short b hb), h.nameAt hd hnamed happart hb, rfl⟩, name_artifactOf _ _ _⟩
  · obtain ⟨before, b, after, hsplit, hb, hafter, rfl⟩ := hown a ha
    rw [payload_artifactOf, name_artifactOf]
    exact ⟨before, b, after, hsplit, rfl, hafter, rfl⟩
  · obtain ⟨before, b, after, hsplit, hb, -, rfl⟩ := hown a ha
    rw [isProcessor_artifactOf, name_artifactOf, marked, List.contains_iff_mem, h.mem_processors hnamed,
      bareParts_partsOf hd]
    constructor
    · rintro ⟨c, hc, hp, hsegments⟩
      have hsame := happart b (by rw [hsplit]; simp) c.name (Or.inl (List.mem_map_of_mem hc)) hsegments
      exact ⟨c, hc, hsame, hp⟩
    · rintro ⟨c, hc, hsame, hp⟩
      exact ⟨c, hc, hp, by rw [hsame]⟩

end

/-! ## Any history on a new directory -/

theorem Holds.separated (h : d.Holds cwd t saved) (separator : Char) :
    ({ d with separator := separator } : ArtifactDirectory).Holds cwd t saved :=
  ⟨h.keyed, h.isDir, fun n hn => ⟨(h.room n hn).way, (h.room n hn).free⟩, h.readable, h.files, h.lists,
    h.walkable, h.short⟩

theorem afterAll_of_makeDirs (hne : d.root.text ≠ "") (hmade : (t.makeDirs cwd d.root).2 = .ok ())
    (as : List Artifact) (history : List (List Artifact)) :
    d.afterAll cwd t (as :: history) = d.afterAll cwd (t.makeDirs cwd d.root).1 (as :: history) := by
  rw [afterAll, afterAll, (save_of_makeDirs hne (Prod.ext rfl hmade) as).2]

/-- Take any history of saves that begins with a missing directory, of artifacts whose paths the
operating system takes. If no two names have the same segments, none begins like a comment and none
needs a directory where a list is, every save succeeds and loading gives back what has been saved,
whatever stands between segments in names made from paths. -/
theorem load_undoes_saves (hd : d.Sound) (hk : t.Keyed) (hnew : d.Vacant cwd t)
    (hmade : (t.makeDirs cwd d.root).2 = .ok ())
    (hlists : ∀ file, file = namesFile ∨ file = processorsFile → Fit (d.listPath file))
    {history : List (List Artifact)}
    (hfit : ∀ a ∈ history.flatten, Fit (d.root.joinAll (d.partsOf a.name.segments)))
    (happart : ∀ a ∈ history.flatten, ∀ n, n ∈ history.flatten.map (·.name) ∨ n ∈ d.known →
      n.segments = a.name.segments → n = a.name)
    (hnamed : ∀ a ∈ history.flatten, a.name.startsWith "#" = false)
    (hbeside : ∀ a ∈ history.flatten, a.name.Beside) :
    (∀ before as, before ++ [as] <+: history →
      (d.save (d.afterAll cwd t before) cwd as).2 = .ok ()) ∧
    ∀ separator, ∃ loaded,
      ({ d with separator := separator } : ArtifactDirectory).load (d.afterAll cwd t history) cwd =
        .ok loaded ∧ Restores history.flatten loaded := by
  have hload : d.Holds cwd (d.afterAll cwd t history) history.flatten →
      ∀ separator, ∃ loaded, ({ d with separator := separator } : ArtifactDirectory).load
        (d.afterAll cwd t history) cwd = .ok loaded ∧ Restores history.flatten loaded := by
    intro h separator
    exact (h.separated separator).load ⟨hd.root, hd.extension⟩ hnamed happart
  -- without a save the directory may still be missing
  cases history with
  | nil =>
    refine ⟨fun before as hb => by simp at hb, fun separator => ?_⟩
    by_cases hr : t.isDir cwd d.root = true
    · have hempty := hnew.empty hd.root hmade
      rw [makeDirs_of_isDir hr] at hempty
      exact hload (hempty.holds hk hlists) separator
    · exact ⟨[], load_of_not_isDir (eq_false_of_ne_true hr) hnew.file?, .nil,
        by simp, by simp, by simp⟩
  | cons as history =>
    -- the first save makes the directory, and the invariant holds from there
    have hempty := (hnew.empty hd.root hmade).holds ((roomier_makeDirs t cwd d.root).keyed hk) hlists
    obtain ⟨hsaves, hholds⟩ := hempty.history hd fun a ha => ⟨hfit a ha, hbeside a ha⟩
    have hafter := afterAll_of_makeDirs hd.root hmade as
    rw [← hafter] at hholds
    refine ⟨fun before bs hb => ?_, hload hholds⟩
    have hsave := hsaves before bs hb
    cases before with
    | nil => rwa [afterAll, ← (save_of_makeDirs hd.root (Prod.ext rfl hmade) bs).2] at hsave
    | cons as' before =>
      rw [List.cons_append] at hb
      obtain ⟨rfl, -⟩ := List.cons_prefix_cons.mp hb
      rwa [← hafter] at hsave

namespace Example

/-- `x.y` is saved as a processor and again as none; names of lists stand where they do no harm. -/
def saves : List (List Artifact) :=
  [[(plain "x.y").withCapability .extensionProcessor, plain "NAMES"],
    [.plain ⟨"x.y", by decide +kernel⟩ ⟨#[1]⟩, plain "x.NAMES.z"], []]

theorem vacant_directory : directory.Vacant [] .empty := by
  have hlocation : directory.location [] = ["s"] := by decide +kernel
  refine vacant_of_missing (by decide +kernel) fun parts => ?_
  rw [hlocation]
  rfl

end Example

open Example in
theorem load_undoes_saves_marked :
    ∃ loaded, ({ directory with separator := '.' } : ArtifactDirectory).load
        (directory.afterAll [] .empty saves) [] = .ok loaded ∧ Restores saves.flatten loaded := by
  have hd : directory.Sound :=
    ⟨by decide, stem_of_all (by decide +kernel) (by decide +kernel)⟩
  have hlists : ∀ file, file = namesFile ∨ file = processorsFile → Fit (directory.listPath file) := by
    rintro file (rfl | rfl) <;> decide +kernel
  have happart : ∀ a ∈ saves.flatten, ∀ n, n ∈ saves.flatten.map (·.name) ∨ n ∈ directory.known →
      n.segments = a.name.segments → n = a.name := by
    have hpairs : ∀ a ∈ saves.flatten, ∀ n ∈ saves.flatten.map (·.name),
        n.segments = a.name.segments → n = a.name := by
      decide +kernel
    exact fun a ha n hn => hpairs a ha n (hn.resolve_right (List.not_mem_nil))
  exact (load_undoes_saves hd (by decide) vacant_directory (by decide +kernel) hlists
    (by decide +kernel) happart (by decide +kernel) (by decide +kernel)).2 '.'

end OnDemand.ArtifactDirectory
