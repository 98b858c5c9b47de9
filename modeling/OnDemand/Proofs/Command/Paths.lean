import OnDemand.Proofs.Command.Sources
import OnDemand.Proofs.Path.Below

/-!
# Paths of artifacts and of staged sources

Artifacts and the sources of a compiler run are put where the segments of their names lead, with an
extension at the end. As a segment is never empty and has neither a slash nor a dot, such a path stays
below its root and tells the segments again, whatever dots the extension has (`SegmentPaths`).
-/

namespace OnDemand

open OnDemand.Path

/-- A path for each name: from a root through the segments of the name, with an extension after the
last. -/
structure SegmentPaths (root : Path) (extension : String)
    (pathFor : Name → Except BadExtension Path) : Prop where
  components : ∀ n, ∃ p init last, pathFor n = .ok p ∧ n.segments = init ++ [last] ∧
    (∀ s ∈ init ++ [last ++ suffix extension], Path.Part s) ∧
    p.components = root.components ++ (init ++ [last ++ suffix extension]).map .name
  below : ∀ n p, pathFor n = .ok p → p.Below root
  /-- As paths are compared, by components. -/
  same : ∀ n m p q, pathFor n = .ok p → pathFor m = .ok q →
    (p.components = q.components ↔ n.segments = m.segments)
  /-- As they are written. -/
  sameText : ∀ n m, pathFor n = pathFor m ↔ n.segments = m.segments

namespace ArtifactDirectory

variable {d : ArtifactDirectory} {n m : Name}

theorem pathFor_fileParts (hslash : '/' ∉ d.extension.toList) (n : Name) :
    d.pathFor n = .ok (d.root.joinAll (d.fileParts n.segments)) := by
  have hany : d.extension.toList.any isSlash = false := any_isSlash.mpr (by
    rintro c hc rfl
    exact hslash hc)
  rw [pathFor_eq, if_neg (by simp [hany])]

theorem part_fileParts (hslash : '/' ∉ d.extension.toList) (n : Name) :
    ∀ s ∈ d.fileParts n.segments, Path.Part s := fun _ hs =>
  part_of_mem_fileParts (fun _ hc hcs => hslash (hcs ▸ hc)) n hs

theorem fileParts_ne_nil (d : ArtifactDirectory) (segments : List String) :
    d.fileParts segments ≠ [] := by
  simp [fileParts]

theorem components_fileParts_inj (hslash : '/' ∉ d.extension.toList) :
    (d.root.joinAll (d.fileParts n.segments)).components =
        (d.root.joinAll (d.fileParts m.segments)).components ↔ n.segments = m.segments := by
  have hname : Function.Injective Component.name := fun _ _ h => Component.name.inj h
  rw [components_joinAll_parts _ (part_fileParts hslash n),
    components_joinAll_parts _ (part_fileParts hslash m), List.append_cancel_left_eq,
    List.map_inj_right hname, fileParts_inj]

theorem segmentPaths (hslash : '/' ∉ d.extension.toList) :
    SegmentPaths d.root d.extension d.pathFor where
  components n := by
    obtain ⟨init, last, hn, -, -⟩ := exists_segments_eq n
    have hparts := part_fileParts hslash n
    have hcomponents := components_joinAll_parts d.root hparts
    rw [hn, fileParts_concat] at hparts hcomponents
    exact ⟨_, init, last, pathFor_fileParts hslash n, hn, hparts, by rw [hn, fileParts_concat, hcomponents]⟩
  below n p hp := by
    rw [pathFor_fileParts hslash] at hp
    rw [← Except.ok.inj hp]
    exact below_joinAll _ (fileParts_ne_nil d _) (part_fileParts hslash n)
  same n m p q hp hq := by
    rw [pathFor_fileParts hslash] at hp hq
    rw [← Except.ok.inj hp, ← Except.ok.inj hq]
    exact components_fileParts_inj hslash
  sameText n m := by
    rw [pathFor_fileParts hslash, pathFor_fileParts hslash]
    constructor
    · intro h
      rw [← components_fileParts_inj hslash, Except.ok.inj h]
    · intro h
      rw [h]

end ArtifactDirectory

namespace Command

variable {d : ArtifactDirectory} {f : CommandForm}

/-- With extensions that have no slash the paths of artifacts below any directory, and those of sources
below the directory of a compiler run, follow the segments of the names and tell them. -/
theorem paths_tell_segments (hartifact : '/' ∉ d.extension.toList)
    (hsource : '/' ∉ f.sourceExtension.toList) :
    SegmentPaths d.root d.extension d.pathFor ∧ SegmentPaths ⟨""⟩ f.sourceExtension f.sourcePath :=
  ⟨ArtifactDirectory.segmentPaths hartifact,
    ArtifactDirectory.segmentPaths (d := ⟨⟨""⟩, f.sourceExtension, f.separator, []⟩) hsource⟩

namespace Example

/-- A directory above the working directory, and an extension of dots and letters. -/
def outside : ArtifactDirectory :=
  ⟨⟨"../out/."⟩, "..tar.gz", '/', []⟩

def bare : CommandForm :=
  ⟨[], "--processors", "--out", none, "", "bin", '/', false⟩

end Example

open Example in
theorem paths_tell_segments_outside : SegmentPaths ⟨"../out/."⟩ "..tar.gz" outside.pathFor ∧
    SegmentPaths ⟨""⟩ "" bare.sourcePath :=
  paths_tell_segments (d := outside) (f := bare) (by decide +kernel) (by decide +kernel)

end Command

end OnDemand
