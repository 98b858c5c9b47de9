import OnDemand.Cli.Arguments
import OnDemand.Cli.UnitName
import OnDemand.Proofs.Name
import OnDemand.Proofs.SourceDirectory

/-!
# Files named as they are found

The file in which a directory of sources looks for a name has that name, from the same root. A file that
has a name lies below the root: the way to it goes on from the root through names alone, so it does not
lead upwards (`unitName_finds`). The root `.` and the empty root stand for the same directory, and a file
may be written with the point or without it from either. The program is never given the empty root
(`root_of_parse`).
-/

namespace OnDemand.Cli

open OnDemand.Path

variable {file root : Path} {sep : Char} {n : Name} {way : List Component} {names : List String}
  {g g' : Given} {l : Level} {k : Key} {v w : String} {args rest : List String} {i : Invocation}
  {files : List Path} {out : Option Path}

/-! ## Ways that lead downwards -/

def Downward (way : List Component) : Prop :=
  ∀ c ∈ way, c = .here ∨ ∃ s, c = .name s

theorem Downward.concat (h : Downward way) (s : String) : Downward (way ++ [.name s]) := by
  intro c hc
  rcases List.mem_append.mp hc with hc | hc
  · exact h c hc
  · exact Or.inr ⟨s, List.mem_singleton.mp hc⟩

theorem downward_of_namesOn (h : namesOn? way = some names) : Downward way := by
  induction way generalizing names with
  | nil => exact fun c hc => by cases hc
  | cons c way ih =>
    cases c with
    | name s =>
      obtain ⟨names, hnames, -⟩ := Option.map_eq_some_iff.mp h
      exact List.forall_mem_cons.mpr ⟨Or.inr ⟨s, rfl⟩, ih hnames⟩
    | here => exact List.forall_mem_cons.mpr ⟨Or.inl rfl, ih h⟩
    | root => cases h
    | up => cases h

theorem namesOn_map (names : List String) : namesOn? (names.map .name) = some names := by
  induction names with
  | nil => rfl
  | cons s names ih => rw [List.map_cons, namesOn?, ih, Option.map_some]

theorem way_of_names (h : namesOn? way = some names) (hne : names ≠ []) : way ≠ [] ∧ way ≠ [.here] := by
  constructor
  · rintro rfl
    exact hne (Option.some.inj h).symm
  · rintro rfl
    exact hne (Option.some.inj h).symm

theorem Downward.exists_names (h : Downward way) (hpart : ∀ s, .name s ∈ way → Path.Part s)
    (hhere : .here ∉ way) : ∃ names : List String, way = names.map .name ∧ ∀ s ∈ names, Path.Part s := by
  induction way with
  | nil => exact ⟨[], rfl, fun s hs => by cases hs⟩
  | cons c way ih =>
    obtain ⟨hc, hway⟩ := List.forall_mem_cons.mp h
    obtain ⟨names, rfl, hnames⟩ := ih hway (fun s hs => hpart s (List.mem_cons_of_mem _ hs))
      fun hmem => hhere (List.mem_cons_of_mem _ hmem)
    rcases hc with rfl | ⟨s, rfl⟩
    · exact absurd List.mem_cons_self hhere
    · exact ⟨s :: names, rfl, List.forall_mem_cons.mpr ⟨hpart s List.mem_cons_self, hnames⟩⟩

theorem Downward.below (h : Downward way) (hfile : file.components = root.components ++ way)
    (hhere : .here ∉ way) (hne : way ≠ []) : file.Below root := by
  obtain ⟨names, rfl, hnames⟩ := h.exists_names
    (fun s hs => part_of_mem_components (hfile ▸ List.mem_append_right _ hs)) hhere
  exact ⟨names, by simpa using hne, hnames, hfile⟩

/-! ## Extensions on a way -/

theorem downward_of_dropExtension {p : Path} (h : Downward p.dropExtension.components) :
    Downward p.components := by
  rcases prefix_dropExtension p with heq | ⟨init, s, hp, hinit⟩
  · rwa [heq] at h
  · have hbefore : Downward init := fun c hc => h c (hinit.mem hc)
    rw [hp]
    exact hbefore.concat s

theorem downward_of_withoutExtension (h : Downward (withoutExtension way)) : Downward way := by
  unfold withoutExtension at h
  split at h
  · rename_i s hlast
    obtain ⟨init, rfl⟩ := List.getLast?_eq_some_iff.mp hlast
    rw [List.dropLast_concat] at h
    have hbefore : Downward init := fun c hc => h c (List.mem_append_left _ hc)
    exact hbefore.concat s
  · exact h

theorem withoutExtension_concat (init : List String) {last extension : String} (hlast : Stem last)
    (hext : ∀ c ∈ extension.toList, c ≠ '/' ∧ c ≠ '.') :
    withoutExtension ((init ++ [last ++ suffix extension]).map .name) = (init ++ [last]).map .name := by
  have hdrop : (dropExtension ⟨last ++ suffix extension⟩).components = [.name last] := by
    unfold suffix
    split
    · rw [String.append_empty, dropExtension_stem hlast, components_part hlast.part]
    · rename_i hne
      rw [← String.append_assoc, dropExtension_append hlast
        ⟨hne, fun c hc => (hext c hc).1, fun c hc => (hext c hc).2⟩, components_part hlast.part]
  unfold withoutExtension
  simp [hdrop]

/-! ## Files below a root -/

theorem way_of_unitName (h : unitName file root sep = .ok n) :
    ∃ way names, wayBelow? file root = some way ∧ namesOn? way = some names ∧ names ≠ [] := by
  unfold unitName at h
  split at h
  · cases h
  · rename_i way hway
    split at h
    · cases h
    · rename_i names hnames
      refine ⟨way, names, hway, hnames, ?_⟩
      rintro rfl
      cases h

theorem Downward.below_or (h : Downward way) (hfile : file.components = root.components ++ way)
    (hne : way ≠ []) (hmore : way ≠ [.here]) :
    file.Below root ∨ (root = ⟨""⟩ ∧ file.Below ⟨"."⟩) := by
  by_cases hhere : .here ∈ way
  · -- a point counts at the beginning alone, so nothing of the root comes before it
    cases hroot : root.components with
    | cons c cs =>
      rw [hroot, List.cons_append] at hfile
      exact absurd (List.mem_append_right _ hhere) (not_here_of_components hfile)
    | nil =>
      rw [hroot, List.nil_append] at hfile
      obtain ⟨c, rest, rfl⟩ := List.exists_cons_of_ne_nil hne
      have htail := not_here_of_components hfile
      obtain rfl : .here = c := (List.mem_cons.mp hhere).resolve_right htail
      have hrest : Downward rest := (List.forall_mem_cons.mp h).2
      have hrestne : rest ≠ [] := by
        rintro rfl
        exact hmore rfl
      exact Or.inr ⟨eq_empty_of_components hroot, hrest.below hfile htail hrestne⟩
  · exact Or.inl (h.below hfile hhere hne)

theorem Downward.below_nowhere (h : Downward file.components) (hroot : root.components = [.here])
    (hafter : file.after? root = none) (hne : file.components ≠ []) : file.Below ⟨""⟩ := by
  refine h.below rfl (fun hhere => ?_) hne
  obtain ⟨c, rest, hfile⟩ := List.exists_cons_of_ne_nil hne
  rw [hfile] at hhere
  obtain rfl : .here = c := (List.mem_cons.mp hhere).resolve_right (not_here_of_components hfile)
  refine after_eq_none hafter ?_
  rw [hroot, hfile]
  exact ⟨rest, rfl⟩

/-- A file that has a name lies below the root, whether the root is written as a point or as nothing. -/
theorem below_of_unitName (h : unitName file root sep = .ok n) : file.Below root ∨
    (root.components = [.here] ∧ file.Below ⟨""⟩) ∨ (root = ⟨""⟩ ∧ file.Below ⟨"."⟩) := by
  obtain ⟨way, names, hway, hnames, hne⟩ := way_of_unitName h
  have hdown := downward_of_namesOn hnames
  obtain ⟨hsome, hmore⟩ := way_of_names hnames hne
  unfold wayBelow? at hway
  split at hway
  · rename_i rest hafter
    obtain rfl := Option.some.inj hway
    have hrestne : rest ≠ [] := by
      rintro rfl
      exact hsome rfl
    have hrestmore : rest ≠ [.here] := by
      rintro rfl
      exact hmore rfl
    exact ((downward_of_withoutExtension hdown).below_or (after_eq_some.mp hafter) hrestne
      hrestmore).imp_right Or.inr
  · rename_i hafter
    -- a root that is a point need not stand in front of the file
    split at hway
    · rename_i hroot
      obtain rfl := Option.some.inj hway
      have hfilene : file.components ≠ [] := by
        intro hnil
        rw [eq_empty_of_components hnil] at hsome
        exact hsome rfl
      exact Or.inr (Or.inl ⟨hroot,
        (downward_of_dropExtension hdown).below_nowhere hroot hafter hfilene⟩)
    · cases hway

/-! ## Files that are looked for -/

/-- A path from the root through the segments of a name, the last with an extension, has that name. -/
theorem unitName_joinAll (root : Path) {init : List String} {last extension : String}
    (hsegments : n.segments = init ++ [last]) (hlast : Stem last)
    (hext : ∀ c ∈ extension.toList, c ≠ '/' ∧ c ≠ '.')
    (hparts : ∀ s ∈ init ++ [last ++ suffix extension], Path.Part s)
    (hsep : ∀ c ∈ n.text.toList, Name.isSeparator c = true → c = sep) :
    unitName (root.joinAll (init ++ [last ++ suffix extension])) root sep = .ok n := by
  have hafter := after_eq_some.mpr (components_joinAll_parts root hparts)
  have hway : wayBelow? (root.joinAll (init ++ [last ++ suffix extension])) root =
      some (n.segments.map .name) := by
    unfold wayBelow?
    rw [hafter]
    simp only
    rw [withoutExtension_concat init hlast hext, hsegments]
  -- the name is spelled with the separator that joins its segments
  have htext : (String.ofList [sep]).intercalate n.segments = n.text := by
    refine (Name.spelled_of_wellFormed n.wellFormed).intercalate_eq fun c hc => ?_
    obtain ⟨hmem, hc⟩ := List.mem_filter.mp hc
    exact hsep c hmem hc
  unfold unitName
  rw [hway]
  simp only
  rw [namesOn_map]
  simp only
  rw [htext, readName, Name.parse_text]
  rfl

theorem unitName_pathFor (root : Path) {extension : String}
    (hext : ∀ c ∈ extension.toList, c ≠ '/' ∧ c ≠ '.')
    (hsep : ∀ c ∈ n.text.toList, Name.isSeparator c = true → c = sep) :
    ∃ p, (SourceDirectory.mk root extension none).pathFor n = .ok p ∧ unitName p root sep = .ok n := by
  let d : SourceDirectory := ⟨root, extension, none⟩
  have hslash : '/' ∉ d.extension.toList := fun hmem => (hext '/' hmem).1 rfl
  have hparts : d.bareParts n = n.segments := by
    refine List.filter_eq_self.mpr fun s hs => ?_
    simpa using Name.ne_empty_of_mem_segments hs
  obtain hnil | ⟨init, last, hlast⟩ := n.segments.eq_nil_or_concat'
  · exact absurd hnil n.segments_ne_nil
  · refine ⟨_, SourceDirectory.pathFor_concat hslash (hparts.trans hlast), ?_⟩
    have hstem : Stem last := SourceDirectory.stem_of_mem_bareParts (d := d) (n := n) (by
      rw [hparts, hlast]
      simp)
    exact unitName_joinAll root hlast hstem hext
      (SourceDirectory.part_of_mem_concat hslash (hparts.trans hlast)) hsep

/-! ## Roots that are given -/

def Given.Filled (g : Given) : Prop :=
  ∀ o ∈ g.options, o.1.takesPath = true → o.2 ≠ ""

theorem Given.Filled.addOption (hg : g.Filled) (h : g.addOption k v = .ok g') : g'.Filled := by
  unfold Given.addOption at h
  split at h
  · cases h
  · rename_i hcond
    obtain rfl := Except.ok.inj h
    intro o ho
    rcases List.mem_append.mp ho with ho | ho
    · exact hg o ho
    · obtain rfl := List.mem_singleton.mp ho
      intro hk hv
      exact hcond (by simp [show k.takesPath = true from hk, show v = "" from hv])

theorem Given.Filled.addWord (hg : g.Filled) (h : g.addWord l w = .ok g') : g'.Filled := by
  unfold Given.addWord at h
  split at h
  · cases h
  · obtain rfl := Except.ok.inj h
    exact hg

theorem Given.Filled.addWords (hg : g.Filled) {words : List String}
    (h : words.foldlM (fun (g : Given) w => g.addWord l w) g = .ok g') : g'.Filled := by
  induction words generalizing g with
  | nil =>
    obtain rfl := Except.ok.inj h
    exact hg
  | cons w words ih =>
    rw [List.foldlM_cons] at h
    cases hw : g.addWord l w with
    | error e =>
      rw [hw] at h
      cases h
    | ok g₁ =>
      rw [hw] at h
      exact ih (hg.addWord hw) h

theorem filled_nothing : Given.nothing.Filled := fun o ho => by cases ho

theorem filled_of_scan (hg : g.Filled) (h : scan l g args = .ok (g', rest)) : g'.Filled := by
  fun_induction scan l g args with
  | case1 g =>
    obtain ⟨rfl, -⟩ := Prod.mk.inj (Except.ok.inj h)
    exact hg
  | case2 g arg args _ =>
    cases hwords : args.foldlM (fun (g : Given) w => g.addWord l w) g with
    | error e =>
      rw [hwords] at h
      cases h
    | ok g₁ =>
      rw [hwords] at h
      obtain ⟨rfl, -⟩ := Prod.mk.inj (Except.ok.inj h)
      exact hg.addWords hwords
  | case3 g arg args w _ _ =>
    obtain ⟨rfl, -⟩ := Prod.mk.inj (Except.ok.inj h)
    exact hg
  | case4 g arg args w _ _ g₁ hword ih => exact ih (hg.addWord hword) h
  | case9 g arg args k own v used _ g₁ hoption _ _ _ _ ih => exact ih (hg.addOption hoption) h
  | case5 | case6 | case7 | case8 | case10 => cases h

theorem root_of_task {v : Verb} (hg : g.Filled) (h : task v g = .ok (.compile files root out)) :
    root ≠ ⟨""⟩ := by
  unfold task at h
  split at h
  · cases h
  · obtain ⟨-, rfl, -⟩ := Task.compile.inj (Except.ok.inj h)
    unfold Given.path?
    cases hroot : g.options.lookup .root with
    | none => exact fun heq => absurd (Path.mk.inj heq) (by decide)
    | some text =>
      obtain ⟨before, after, hoptions, -⟩ := List.lookup_eq_some_iff.mp hroot
      have hfilled := hg (.root, text) (by rw [hoptions]; simp) rfl
      exact fun heq => hfilled (Path.mk.inj heq)
  · cases h
  · cases h
  · cases h

/-- No root that the program is given is empty. -/
theorem root_of_parse (h : parse args = .ok i) (htask : i.task = .compile files root out) :
    root ≠ ⟨""⟩ := by
  unfold parse at h
  cases hbefore : scan .outer .nothing args with
  | error e =>
    rw [hbefore] at h
    cases h
  | ok before =>
    rw [hbefore] at h
    simp only [bind, Except.bind] at h
    split at h
    · cases h
    · cases h
    · split at h
      · cases h
      · rename_i v _
        -- the root is among the arguments after the name of the command
        cases hafter : scan v.level .nothing _ with
        | error e =>
          rw [hafter] at h
          cases h
        | ok after =>
          rw [hafter] at h
          simp only at h
          split at h
          · cases h
          · rename_i t htask'
            obtain rfl := Except.ok.inj h
            exact root_of_task (filled_of_scan filled_nothing hafter) (htask'.trans (congrArg _ htask))

/-- The path where a name with one separator is looked for has that name, from any root. A file that has a
name lies below the root, which may be written as a point or as nothing where it is the directory itself.
The program is never given nothing as a root. -/
theorem unitName_finds (root : Path) (sep : Char) :
    (∀ (extension : String) (n : Name), (∀ c ∈ extension.toList, c ≠ '/' ∧ c ≠ '.') →
      (∀ c ∈ n.text.toList, Name.isSeparator c = true → c = sep) →
      ∃ p, (SourceDirectory.mk root extension none).pathFor n = .ok p ∧ unitName p root sep = .ok n) ∧
    (∀ file n, unitName file root sep = .ok n → file.Below root ∨
      (root.components = [.here] ∧ file.Below ⟨""⟩) ∨ (root = ⟨""⟩ ∧ file.Below ⟨"."⟩)) ∧
    ∀ args i files out, parse args = .ok i → i.task = .compile files root out → root ≠ ⟨""⟩ :=
  ⟨fun _ _ hext hsep => unitName_pathFor root hext hsep, fun _ _ => below_of_unitName,
    fun _ _ _ _ => root_of_parse⟩

namespace Example

def sort : Name :=
  ⟨"remote.algo.Sort", by decide +kernel⟩

def compileSort : List String :=
  ["compile", "--root", "./src", "./src/remote/algo/Sort.src"]

end Example

open Example in
theorem unitName_finds_sort :
    (SourceDirectory.mk ⟨"./src"⟩ "src" none).pathFor sort = .ok ⟨"./src/remote/algo/Sort.src"⟩ ∧
    unitName ⟨"./src/remote/algo/Sort.src"⟩ ⟨"./src"⟩ '.' = .ok sort ∧
    (Path.mk "./src/remote/algo/Sort.src").Below ⟨"./src"⟩ ∧ Path.mk "./src" ≠ ⟨""⟩ := by
  obtain ⟨hfind, hbelow, hgiven⟩ := unitName_finds ⟨"./src"⟩ '.'
  have hsep : (sort.text.toList.all fun c => !Name.isSeparator c || c == '.') = true := by decide +kernel
  obtain ⟨p, hp, hname⟩ := hfind "src" sort (by simp) (by simpa [or_iff_not_imp_left] using hsep)
  have hpath : (SourceDirectory.mk ⟨"./src"⟩ "src" none).pathFor sort =
      .ok ⟨"./src/remote/algo/Sort.src"⟩ := by decide +kernel
  obtain rfl := Except.ok.inj (hp.symm.trans hpath)
  have hparse : parse compileSort =
      .ok ⟨none, false, .compile [⟨"./src/remote/algo/Sort.src"⟩] ⟨"./src"⟩ none⟩ := by decide +kernel
  refine ⟨hp, hname, ?_, hgiven compileSort _ _ _ hparse rfl⟩
  rcases hbelow _ _ hname with h | ⟨h, -⟩ | ⟨h, -⟩
  · exact h
  · exact absurd h (by decide +kernel)
  · exact absurd h (by decide +kernel)

end OnDemand.Cli
