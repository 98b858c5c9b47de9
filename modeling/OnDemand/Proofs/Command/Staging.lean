import Mathlib.Data.List.Induction
import OnDemand.Command.Build
import OnDemand.Proofs.ArtifactDirectory.Saving

/-!
# What a compiler run leaves behind

All that is written for a compiler run lies below the directory of the run (`Within`), and so does
what the compiler writes, if it keeps to the directory for its output (`Confined`). At the end that
directory is taken away. It was new, and where everything lies in a directory there was nothing below
it before, so the files are as they were (`entry?_build`). Of a run that nobody waits for the directory
stays, and then there is something new below the directory for temporary files, and nowhere else
(`strays_build`).
-/

namespace OnDemand

namespace FileTree

open OnDemand.Path

variable {t t' u : FileTree} {cwd l l' : Location} {p base : Path} {s making : String}
  {names : List String} {bytes : ByteArray}

/-! ## Trees without gaps -/

/-- Everything lies in a directory. -/
def Rooted (t : FileTree) : Prop :=
  ∀ e ∈ t.entries, t.entry? e.1.dropLast = some .dir

instance (t : FileTree) : Decidable t.Rooted :=
  inferInstanceAs (Decidable (∀ e ∈ t.entries, t.entry? e.1.dropLast = some .dir))

theorem Rooted.parent (h : t.Rooted) (he : t.entry? (l ++ [s]) ≠ none) :
    t.entry? l = some .dir := by
  obtain ⟨e, he⟩ := Option.ne_none_iff_exists'.mp he
  have hne : l ++ [s] ≠ [] := by simp
  unfold entry? at he
  rw [if_neg hne] at he
  obtain ⟨before, after, hsplit, -⟩ := List.lookup_eq_some_iff.mp he
  have hparent := h (l ++ [s], e) (by rw [hsplit]; simp)
  rwa [List.dropLast_concat] at hparent

theorem Rooted.below (h : t.Rooted) (hn : t.entry? l = none) (hl : l <+: l') :
    t.entry? l' = none := by
  obtain ⟨names, rfl⟩ := hl
  induction names using List.reverseRecOn with
  | nil => rwa [List.append_nil]
  | append_singleton init s ih =>
    by_contra he
    rw [← List.append_assoc] at he
    rw [h.parent he] at ih
    cases ih

theorem Rooted.congr (h : t.Rooted) (hsame : ∀ l, t'.entry? l = t.entry? l) : t'.Rooted := by
  rintro ⟨l, e⟩ he
  rcases l.eq_nil_or_concat' with rfl | ⟨init, s, rfl⟩
  · rfl
  · simp only [List.dropLast_concat]
    have hentry : t'.entry? (init ++ [s]) ≠ none := by
      unfold entry?
      rw [if_neg (by simp)]
      intro hnone
      have := List.lookup_eq_none_iff.mp hnone _ he
      simp at this
    rw [hsame] at hentry ⊢
    exact h.parent hentry

theorem lookup_filter (l l' : Location) : ∀ es : List (Location × Entry),
    (es.filter fun e => !l.isPrefixOf e.1).lookup l' =
      if l <+: l' then none else es.lookup l'
  | [] => by simp
  | f :: es => by
    have ih := lookup_filter l l' es
    rw [List.filter_cons, lookup_cons]
    by_cases hf : l <+: f.1
    · have hpre : (!l.isPrefixOf f.1) = false := by simpa using hf
      rw [if_neg (by simp [hpre]), ih]
      by_cases hl : l' = f.1
      · subst hl
        rw [if_pos hf, if_pos hf]
      · rw [if_neg hl]
    · have hpre : (!l.isPrefixOf f.1) = true := by
        rw [Bool.not_eq_true', ← Bool.not_eq_true, List.isPrefixOf_iff_prefix]
        exact hf
      rw [if_pos hpre, lookup_cons, ih]
      by_cases hl : l' = f.1
      · subst hl
        rw [if_pos rfl, if_pos rfl, if_neg hf]
      · rw [if_neg hl, if_neg hl]

theorem entry?_remove (hl : l ≠ []) (l' : Location) :
    FileTree.entry? (t.remove l) l' = if l <+: l' then none else t.entry? l' := by
  unfold entry? remove
  rw [lookup_filter]
  by_cases hroot : l' = []
  · subst hroot
    rw [if_pos rfl, if_neg (mt List.prefix_nil.mp hl), if_pos rfl]
  · rw [if_neg hroot, if_neg hroot]

/-! ## Changes below a directory -/

/-- What is not below a location is as it was, and each directory is still there. -/
structure Within (t t' : FileTree) (l : Location) : Prop where
  dirs : t.DirsKept t'
  others : ∀ l', ¬ l <+: l' → t'.entry? l' = t.entry? l'

theorem Within.refl (t : FileTree) (l : Location) : t.Within t l :=
  ⟨.refl t, fun _ _ => rfl⟩

theorem Within.trans (h : t.Within t' l) (h' : t'.Within u l) : t.Within u l :=
  ⟨h.dirs.trans h'.dirs, fun l' hl => (h'.others l' hl).trans (h.others l' hl)⟩

theorem Within.isDir (h : t.Within t' l) (hp : t.isDir cwd p = true) : t'.isDir cwd p = true :=
  isDir_kept h.dirs hp

theorem Paves.within (h : t.Paves t' l p names) : t.Within t' l := by
  refine ⟨h.roomier.dirs, fun l' hl => ?_⟩
  rcases h.entry? l' with h | ⟨-, -, q, -, -, rfl, -⟩
  · exact h
  · exact absurd (List.prefix_append l q) hl

theorem within_write (hl : l <+: destination cwd p.components) (h : t.write cwd p bytes = .ok t') :
    t.Within t' l := by
  refine ⟨(writes_of_write h).dirs, fun l' hl' => ?_⟩
  obtain ⟨l₁, hloc, hnd, rfl⟩ := write_spec h
  rw [entry?_set (ne_nil_of_entry hnd), if_neg]
  rintro rfl
  exact hl' (locate_eq hloc ▸ hl)

section
variable (hbase : t.isDir cwd base = true)
include hbase

theorem within_makeDirs (hs : Part s) :
    t.Within (t.makeDirs cwd (base.join ⟨s⟩)).1 (destination cwd base.components) := by
  have hnames : ∀ r ∈ [s], Part r := by simpa using hs
  have hpaves := paves_makeDirsWithin hbase (base.join ⟨s⟩).components.length hnames
  rw [show base.joinAll [s] = base.join ⟨s⟩ from rfl, tidied_join base hs] at hpaves
  exact hpaves.within

theorem within_writeThrough {r : Except DirectoryError Unit} (hnames : ∀ r ∈ names, Part r)
    (hne : names ≠ []) (h : t.writeThrough cwd making (base.joinAll names) bytes = (t', r)) :
    t.Within t' (destination cwd base.components) := by
  obtain rfl | ⟨init, s, rfl⟩ := names.eq_nil_or_concat'
  · exact absurd rfl hne
  · obtain ⟨u, hpaves, ⟨rfl, -⟩ | ⟨-, hwrite⟩⟩ := writeThrough_below hbase hnames h
    · exact hpaves.within
    · refine hpaves.within.trans (within_write ?_ hwrite)
      rw [destination_below hbase hnames]
      exact List.prefix_append _ _

end

end FileTree

namespace ArtifactDirectory

open FileTree OnDemand.Path

variable {d : ArtifactDirectory} {t t' : FileTree} {cwd : Location} {base : Path} {s : String}
  {r : Except DirectoryError Unit}

section
variable (hd : d.root = base.join ⟨s⟩) (hs : Part s) (hbase : t.isDir cwd base = true)
include hd hs hbase

theorem within_saveFiles {as : List Artifact} (h : d.saveFiles cwd t as = (t', r)) :
    t.Within t' (destination cwd base.components) := by
  induction as generalizing t with
  | nil =>
    obtain ⟨rfl, -⟩ := Prod.mk.inj h
    exact .refl _ _
  | cons a as ih =>
    unfold saveFiles at h
    split at h
    · obtain ⟨rfl, -⟩ := Prod.mk.inj h
      exact .refl _ _
    · rename_i path hpath
      obtain ⟨hext, rfl⟩ := pathFor_spec hpath
      have hparts : ∀ r ∈ s :: d.fileParts a.name.segments, Part r :=
        List.forall_mem_cons.mpr ⟨hs, fun r hr => part_of_mem_fileParts hext a.name hr⟩
      rw [hd, ← joinAll_cons] at h
      split at h
      · rename_i u e hwrite
        obtain ⟨rfl, -⟩ := Prod.mk.inj h
        exact within_writeThrough hbase hparts (by simp) hwrite
      · rename_i u hwrite
        have hw := within_writeThrough hbase hparts (by simp) hwrite
        exact hw.trans (ih (hw.isDir hbase) h)

theorem within_appendList {file : String} (hfile : Part file) {names : List Name}
    (h : d.appendList t cwd file names = (t', r)) :
    t.Within t' (destination cwd base.components) := by
  have hparts : ∀ r ∈ [s, file], Part r := by
    simp only [List.mem_cons, List.not_mem_nil, or_false]
    rintro r (rfl | rfl)
    · exact hs
    · exact hfile
  unfold appendList at h
  split at h
  · obtain ⟨rfl, -⟩ := Prod.mk.inj h
    exact .refl _ _
  · simp only at h
    split at h
    · obtain ⟨rfl, -⟩ := Prod.mk.inj h
      exact .refl _ _
    · rw [listPath, hd] at h
      exact within_writeThrough hbase hparts (by simp) h

theorem within_save {as : List Artifact} (h : d.save t cwd as = (t', r)) :
    t.Within t' (destination cwd base.components) := by
  have hmake := within_makeDirs hbase hs
  rw [← hd] at hmake
  -- each step of a save stays below the directory that the one before it leaves
  unfold save at h
  split at h
  · rename_i u e hdirs
    rw [hdirs] at hmake
    obtain ⟨rfl, -⟩ := Prod.mk.inj h
    exact hmake
  · rename_i u hdirs
    rw [hdirs] at hmake
    have hbase := hmake.isDir hbase
    split at h
    · rename_i v e hfiles
      obtain ⟨rfl, -⟩ := Prod.mk.inj h
      exact hmake.trans (within_saveFiles hd hs hbase hfiles)
    · rename_i v hfiles
      have hv := within_saveFiles hd hs hbase hfiles
      have hbase := hv.isDir hbase
      split at h
      · rename_i w e hnames
        obtain ⟨rfl, -⟩ := Prod.mk.inj h
        exact (hmake.trans hv).trans (within_appendList hd hs hbase stem_namesFile.part hnames)
      · rename_i w hnames
        have hw := within_appendList hd hs hbase stem_namesFile.part hnames
        exact ((hmake.trans hv).trans hw).trans
          (within_appendList hd hs (hw.isDir hbase) stem_processorsFile.part h)

end

end ArtifactDirectory

namespace Command

open FileTree OnDemand.Path

/-- A compiler that changes only what lies below the directory for its output, at any time. -/
def Confined (c : Command) (programs : Programs) : Prop :=
  ∀ (s : Staging) processors sources cwd t r,
    programs c.program (c.allArguments s processors sources) cwd t = .ok r →
    ∀ l, ¬ destination cwd s.output.components <+: l → ∀ k, FileTree.entry? (r.treeAt k) l = t.entry? l

variable {c : Command} {f : CommandForm} {programs : Programs} {cwd l : Location} {t t' : FileTree}
  {s : Staging} {units : List SourceUnit} {processors : ProcessorSet} {stored : List Artifact}

theorem part_sources : Part "src" :=
  (stem_of_all (by decide) (by decide)).part

theorem part_library : Part "lib" :=
  (stem_of_all (by decide) (by decide)).part

theorem part_output : Part "out" :=
  (stem_of_all (by decide) (by decide)).part

/-! ## Before the compiler -/

def sourceParts (f : CommandForm) (n : Name) : List String :=
  ArtifactDirectory.fileParts ⟨⟨""⟩, f.sourceExtension, f.separator, []⟩ n.segments

theorem sourceParts_ne_nil (f : CommandForm) (n : Name) : sourceParts f n ≠ [] := by
  simp [sourceParts, ArtifactDirectory.fileParts]

theorem sourcePath_spec {n : Name} {p : Path} (h : f.sourcePath n = .ok p) :
    (∀ r ∈ sourceParts f n, Part r) ∧ ∀ dir : Path, dir.join p = dir.joinAll (sourceParts f n) := by
  let d : ArtifactDirectory := ⟨⟨""⟩, f.sourceExtension, f.separator, []⟩
  have hpath : d.pathFor n = .ok p := h
  obtain ⟨hext, rfl⟩ := ArtifactDirectory.pathFor_spec hpath
  have hparts : ∀ r ∈ d.fileParts n.segments, Part r := fun r hr =>
    ArtifactDirectory.part_of_mem_fileParts hext n hr
  exact ⟨hparts, fun dir => join_joinAll_empty dir (sourceParts_ne_nil f n) hparts⟩

def sourceFile (f : CommandForm) (s : Staging) (n : Name) : Path :=
  s.root.joinAll ("src" :: sourceParts f n)

-- by definition, but no simp lemma: to see that by reduction alone takes long
theorem stageSources_cons (f : CommandForm) (cwd : Location) (dir : Path) (t : FileTree)
    (x : SourceUnit) (xs : List SourceUnit) : f.stageSources cwd dir t (x :: xs) =
      match f.sourcePath x.name with
      | .error e => (t, .error (.extension e))
      | .ok relative =>
        match t.writeThrough cwd "create dir" (dir.join relative) x.text.toUTF8 with
        | (t, .error e) => (t, .error e)
        | (t, .ok ()) =>
          match f.stageSources cwd dir t xs with
          | (t, .error e) => (t, .error e)
          | (t, .ok ps) => (t, .ok (dir.join relative :: ps)) := by
  exact rfl

/-- The source of the first unit is written, if it has a path, and after it those of the rest. -/
theorem stageSources_cases {x : SourceUnit} {xs : List SourceUnit}
    {r : Except DirectoryError (List Path)}
    (h : f.stageSources cwd s.sources t (x :: xs) = (t', r)) :
    (t' = t ∧ ∃ e, r = .error e) ∨ (∀ q ∈ sourceParts f x.name, Part q) ∧
      ((∃ e, t.writeThrough cwd "create dir" (sourceFile f s x.name) x.text.toUTF8 = (t', .error e) ∧
          r = .error e) ∨
        ∃ v rest, t.writeThrough cwd "create dir" (sourceFile f s x.name) x.text.toUTF8 = (v, .ok ()) ∧
          f.stageSources cwd s.sources v xs = (t', rest) ∧
          r = rest.map (sourceFile f s x.name :: ·)) := by
  rw [stageSources_cons] at h
  split at h
  · obtain ⟨rfl, rfl⟩ := Prod.mk.inj h
    exact Or.inl ⟨rfl, _, rfl⟩
  · rename_i relative hrelative
    obtain ⟨hparts, hjoin⟩ := sourcePath_spec hrelative
    have hpath : s.sources.join relative = sourceFile f s x.name := hjoin s.sources
    rw [hpath] at h
    refine Or.inr ⟨hparts, ?_⟩
    split at h
    · rename_i v e hwrite
      obtain ⟨rfl, rfl⟩ := Prod.mk.inj h
      exact Or.inl ⟨e, hwrite, rfl⟩
    · rename_i v hwrite
      refine Or.inr ⟨v, ?_⟩
      split at h
      · rename_i w e hrest
        obtain ⟨rfl, rfl⟩ := Prod.mk.inj h
        exact ⟨.error e, hwrite, hrest, rfl⟩
      · rename_i w ps hrest
        obtain ⟨rfl, rfl⟩ := Prod.mk.inj h
        exact ⟨.ok ps, hwrite, hrest, rfl⟩

theorem within_stageSources (hroot : t.isDir cwd s.root = true)
    {r : Except DirectoryError (List Path)}
    (h : f.stageSources cwd s.sources t units = (t', r)) :
    t.Within t' (destination cwd s.root.components) := by
  induction units generalizing t r with
  | nil =>
    obtain ⟨rfl, -⟩ := Prod.mk.inj h
    exact .refl _ _
  | cons x xs ih =>
    rcases stageSources_cases h with
      ⟨rfl, -⟩ | ⟨hparts, ⟨e, hwrite, -⟩ | ⟨v, rest, hwrite, hrest, -⟩⟩
    · exact .refl _ _
    · exact within_writeThrough hroot (List.forall_mem_cons.mpr ⟨part_sources, hparts⟩) (by simp) hwrite
    · have hv := within_writeThrough hroot (List.forall_mem_cons.mpr ⟨part_sources, hparts⟩) (by simp)
        hwrite
      exact hv.trans (ih (hv.isDir hroot) hrest)

theorem within_stageLibrary (hroot : t.isDir cwd s.root = true) {r : Except DirectoryError Unit}
    (h : f.stageLibrary cwd s.library t stored = (t', r)) :
    t.Within t' (destination cwd s.root.components) := by
  unfold CommandForm.stageLibrary at h
  split at h
  · exact ArtifactDirectory.within_save rfl part_library hroot h
  · obtain ⟨rfl, -⟩ := Prod.mk.inj h
    exact .refl _ _

/-! ## The run -/

theorem treeAt_elapsed (r : ProgramRun) : r.treeAt r.elapsed = r.tree :=
  if_neg (Nat.lt_irrefl _)

theorem entry?_buildIn (hc : c.Confined programs) (hroot : t.isDir cwd s.root = true)
    (hl : ¬ destination cwd s.root.components <+: l) :
    FileTree.entry? (c.buildIn programs cwd s t units processors stored).tree l = t.entry? l ∧
      ∀ k, FileTree.entry? ((c.buildIn programs cwd s t units processors stored).abandoned k) l =
        t.entry? l := by
  -- step by step; what is abandoned is what the last step has left
  have hmake := within_makeDirs hroot part_output
  unfold buildIn
  split
  · rename_i u e hdirs
    rw [Staging.output] at hdirs
    rw [hdirs] at hmake
    have hsame := hmake.others l hl
    exact ⟨hsame, fun _ => hsame⟩
  · rename_i u hdirs
    rw [Staging.output] at hdirs
    rw [hdirs] at hmake
    have hroot := hmake.isDir hroot
    split
    · rename_i v e hsources
      have hsame := (hmake.trans (within_stageSources hroot hsources)).others l hl
      exact ⟨hsame, fun _ => hsame⟩
    · rename_i v sources hsources
      have hv := within_stageSources hroot hsources
      have hroot := hv.isDir hroot
      split
      · rename_i w e hlibrary
        have hsame := ((hmake.trans hv).trans (within_stageLibrary hroot hlibrary)).others l hl
        exact ⟨hsame, fun _ => hsame⟩
      · rename_i w hlibrary
        have hw := (hmake.trans hv).trans (within_stageLibrary hroot hlibrary)
        split
        · exact ⟨hw.others l hl, fun _ => hw.others l hl⟩
        · rename_i r hrun
          -- the compiler stays below the directory for its output, which is below the run's
          have hout : ¬ destination cwd s.output.components <+: l := by
            intro hpre
            rw [Staging.output, components_join (text_ne_empty_of_isDir hroot) part_output] at hpre
            refine hl (.trans ?_ hpre)
            rw [destination, destination, List.foldl_append]
            exact List.prefix_append _ _
          have hsame := hc s processors sources cwd w r hrun l hout
          rw [← hw.others l hl]
          exact ⟨treeAt_elapsed r ▸ hsame r.elapsed, hsame⟩

/-- After a compiler run all files and directories are as they were before. -/
theorem entry?_build (hc : c.Confined programs) (ht : t.Rooted) (temporary : Path) (l : Location) :
    FileTree.entry? (c.build programs temporary cwd t units processors stored).tree l = t.entry? l := by
  unfold build
  generalize freshStaging t cwd (cwd.resolve temporary) = s
  cases hmake : t.makeDir cwd s.root with
  | error e => simp only [hmake]
  | ok u =>
    obtain ⟨-, hdir⟩ := roomier_makeDir hmake
    obtain ⟨place, hloc, hn, rfl⟩ := makeDir_spec hmake
    have hplace : place ≠ [] := ne_nil_of_entry (by rw [hn]; simp)
    simp only [hmake, hloc]
    rw [entry?_remove hplace]
    split
    · -- nothing was there, so nothing was below it
      rename_i hpre
      rw [ht.below hn hpre]
    · rename_i hpre
      rw [(entry?_buildIn hc hdir (locate_eq hloc ▸ hpre)).1, entry?_set hplace, if_neg]
      rintro rfl
      exact hpre List.prefix_rfl

/-! ## Runs that nobody waits for -/

theorem part_stagingName (n : Nat) : Part (stagingName n) := by
  have hchars : (stagingName n).toList =
      '.' :: 't' :: ("mp".toList ++ List.replicate (6 - (toString n).length) '0' ++ (toString n).toList) := by
    simp [stagingName]
  refine ⟨fun c hc => ?_, fun h => ?_, fun h => ?_, fun h => ?_⟩
  · rw [hchars] at hc
    simp only [List.mem_cons, List.mem_append] at hc
    rcases hc with rfl | rfl | (hc | hc) | hc
    · decide
    · decide
    · rintro rfl
      exact absurd hc (by decide)
    · rw [List.eq_of_mem_replicate hc]
      decide
    · have hdigits : (toString n).toList = Nat.toDigits 10 n := String.toList_ofList
      rw [hdigits] at hc
      have hdigit := Nat.isDigit_of_mem_toDigits (by decide) (by decide) hc
      rintro rfl
      exact absurd hdigit (by decide)
  all_goals
    rw [h] at hchars
    exact absurd hchars (by simp)

theorem exists_root_freshStaging (t : FileTree) (cwd : Location) (temporary : Path) :
    ∃ n, (freshStaging t cwd temporary).root = temporary.join ⟨stagingName n⟩ := by
  unfold freshStaging
  simp only
  exact ⟨_, Eq.refl _⟩

/-- The second tree has something new below the directory for temporary files, in directories of
compiler runs that were not there, and is like the first elsewhere. -/
def Strays (t u : FileTree) (temporary : Location) : Prop :=
  ∀ l, u.entry? l ≠ t.entry? l → ∃ n, t.entry? (temporary ++ [stagingName n]) = none ∧
    temporary ++ [stagingName n] <+: l

variable {u : FileTree} {temporary : Location}

theorem Strays.trans (h : Strays t u temporary) (h' : Strays u t' temporary) :
    Strays t t' temporary := by
  intro l hl
  by_cases hu : t'.entry? l = u.entry? l
  · exact h l (hu ▸ hl)
  · obtain ⟨n, hnone, hpre⟩ := h' l hu
    by_cases hplace : u.entry? (temporary ++ [stagingName n]) = t.entry? (temporary ++ [stagingName n])
    · exact ⟨n, hplace ▸ hnone, hpre⟩
    · -- the directory itself is a new one, and two of them are not below each other
      obtain ⟨m, hm, hbelow⟩ := h _ hplace
      rw [hbelow.eq_of_length (by simp)] at hm
      exact ⟨n, hm, hpre⟩

theorem Strays.old (h : Strays t u temporary) (ht : t.Rooted) (hl : t.entry? l ≠ none) :
    u.entry? l = t.entry? l := by
  by_contra hne
  obtain ⟨n, hnone, hpre⟩ := h l hne
  exact hl (ht.below hnone hpre)

/-- A run that nobody waits for has made nothing but what lies below its directory. -/
theorem strays_build (hc : c.Confined programs) (temporary : Path) (k : Nat) :
    Strays t ((c.build programs temporary cwd t units processors stored).abandoned k)
      (destination cwd (cwd.resolve temporary).components) := by
  have hroot : (cwd.resolve temporary).text ≠ "" :=
    text_join_ne_empty (fun h => by simp [Location.text] at h) _
  intro l hl
  unfold build at hl
  obtain ⟨n, hn⟩ := exists_root_freshStaging t cwd (cwd.resolve temporary)
  generalize freshStaging t cwd (cwd.resolve temporary) = s at hl hn
  have hdest : destination cwd s.root.components =
      destination cwd (cwd.resolve temporary).components ++ [stagingName n] := by
    rw [hn, components_join hroot (part_stagingName n)]
    exact destination_names _ _ [stagingName n]
  refine ⟨n, ?_⟩
  rw [← hdest]
  cases hmake : t.makeDir cwd s.root with
  | error e =>
    -- a run that cannot make its directory leaves nothing
    simp only [hmake] at hl
    exact absurd rfl hl
  | ok u =>
    obtain ⟨-, hdir⟩ := roomier_makeDir hmake
    obtain ⟨place, hloc, hnone, rfl⟩ := makeDir_spec hmake
    have hplace : place ≠ [] := ne_nil_of_entry (by rw [hnone]; simp)
    rw [← locate_eq hloc]
    refine ⟨hnone, ?_⟩
    -- nothing changes but below the new directory, where nothing was
    by_contra hpre
    simp only [hmake, hloc] at hl
    refine hl ?_
    rw [(entry?_buildIn hc hdir (locate_eq hloc ▸ hpre)).2, entry?_set hplace, if_neg]
    rintro rfl
    exact hpre List.prefix_rfl

end Command

end OnDemand
