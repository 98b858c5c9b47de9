import Mathlib.Data.List.Nodup
import OnDemand.Proofs.Path
import OnDemand.FileTree

/-!
# What operations do to a tree of files

A path leads where its components say (`locate_eq`), so what an operation does can be told by
locations: making directories only adds directories (`Roomier`), writing a file changes one file
(`Writes`). Directories are never taken away, so a path that led to a directory still does.
-/

namespace OnDemand.FileTree

open OnDemand.Path

variable {t t' u : FileTree} {cwd l l' : Location} {p : Path} {e : Entry} {bytes : ByteArray}

/-! ## Entries -/

/-- No location has two entries. -/
def Keyed (t : FileTree) : Prop :=
  (t.entries.map (·.1)).Nodup

instance (t : FileTree) : Decidable t.Keyed :=
  inferInstanceAs (Decidable (List.Nodup _))

def file? (t : FileTree) (l : Location) : Option ByteArray :=
  match t.entry? l with
  | some (.file bytes) => some bytes
  | _ => none

theorem file?_eq_some : t.file? l = some bytes ↔ t.entry? l = some (.file bytes) := by
  unfold file?
  split
  · rename_i h
    rw [h]
    simp
  · rename_i h
    constructor
    · intro h'
      cases h'
    · intro h'
      exact absurd h' (h bytes)

theorem file?_congr (h : t'.entry? l = t.entry? l) : t'.file? l = t.file? l := by
  unfold file?
  rw [h]

theorem lookup_cons (f : Location × Entry) (es : List (Location × Entry)) (l : Location) :
    (f :: es).lookup l = if l = f.1 then some f.2 else es.lookup l := by
  rw [List.lookup_cons]
  by_cases h : l = f.1
  · have : (l == f.1) = true := by simpa using h
    rw [this, if_pos h]
  · have : (l == f.1) = false := by simpa using h
    rw [this, if_neg h]

theorem lookup_map_set (l : Location) (e : Entry) (l' : Location) :
    ∀ es : List (Location × Entry),
    (es.map fun f => if f.1 = l then (l, e) else f).lookup l' =
      if l' = l then (if es.any (·.1 = l) then some e else none) else es.lookup l'
  | [] => by simp
  | f :: es => by
    rw [List.map_cons, lookup_cons, lookup_map_set l e l' es, lookup_cons, List.any_cons]
    by_cases hf : f.1 = l
    · by_cases hl : l' = l <;> simp [hf, hl]
    · by_cases hl : l' = l
      · subst hl
        have hd : decide (f.1 = l') = false := by simpa using hf
        have hne : l' ≠ f.1 := Ne.symm hf
        rw [if_neg hf, if_pos rfl, if_neg hne, hd, Bool.false_or, if_pos rfl]
      · simp [hf, hl]

theorem entry?_set (hl : l ≠ []) (e : Entry) (l' : Location) :
    entry? (t.set l e) l' = if l' = l then some e else t.entry? l' := by
  unfold entry? set
  by_cases hroot : l' = []
  · have : [] ≠ l := Ne.symm hl
    simp [hroot, this]
  · simp only [if_neg hroot]
    split
    · rename_i hany
      rw [lookup_map_set, hany]
      rfl
    · rw [lookup_cons]

theorem Keyed.set (h : t.Keyed) (l : Location) (e : Entry) : (t.set l e).Keyed := by
  unfold Keyed FileTree.set
  split
  · have : (t.entries.map fun f => if f.1 = l then (l, e) else f).map (·.1) =
        t.entries.map (·.1) := by
      rw [List.map_map]
      apply List.map_congr_left
      intro f _
      simp only [Function.comp]
      split
      · rename_i hf
        exact hf.symm
      · rfl
    rw [this]
    exact h
  · rename_i hany
    rw [List.map_cons, List.nodup_cons]
    refine ⟨?_, h⟩
    intro hmem
    obtain ⟨f, hf, rfl⟩ := List.mem_map.mp hmem
    exact hany (List.any_eq_true.mpr ⟨f, hf, by simp⟩)

theorem lookup_eq_some_iff (l : Location) (e : Entry) : ∀ {es : List (Location × Entry)},
    (es.map (·.1)).Nodup → (es.lookup l = some e ↔ (l, e) ∈ es)
  | [], _ => by simp
  | f :: es, h => by
    rw [List.map_cons, List.nodup_cons] at h
    rw [lookup_cons, List.mem_cons]
    by_cases hf : l = f.1
    · have hnot : (l, e) ∉ es := by
        intro hm
        exact h.1 (List.mem_map.mpr ⟨_, hm, hf⟩)
      simp [hf, hf ▸ hnot, Prod.ext_iff, eq_comm]
    · rw [if_neg hf, lookup_eq_some_iff l e h.2]
      simp [Prod.ext_iff, hf]

def found (t : FileTree) (l : Location) : List (List String × Entry) :=
  t.entries.filterMap fun e =>
    if l.isPrefixOf e.1 && l ≠ e.1 then some (e.1.drop l.length, e.2) else none

theorem entriesBelow_perm (t : FileTree) (l : Location) : (t.entriesBelow l).Perm (t.found l) :=
  List.mergeSort_perm _ _

theorem entriesBelow_of_pairwise
    (h : (t.found l).Pairwise fun a b => (compare (t.ages l a.1) (t.ages l b.1)).isLE) :
    t.entriesBelow l = t.found l :=
  List.mergeSort_of_pairwise h

theorem entriesBelow_of_perm {found : List (List String × Entry)} (hperm : found.Perm (t.found l))
    (hn : (found.map fun f => t.ages l f.1).Nodup)
    (h : found.Pairwise fun a b => (compare (t.ages l a.1) (t.ages l b.1)).isLE) :
    t.entriesBelow l = found := by
  have hperm := (entriesBelow_perm t l).trans hperm.symm
  refine List.Perm.eq_of_pairwise (fun a b ha hb hab hba => ?_) (List.pairwise_mergeSort ?_ ?_ _) h hperm
  · exact List.inj_on_of_nodup_map hn (hperm.mem_iff.mp ha) hb
      (Std.LawfulEqCmp.eq_of_compare (Std.OrientedCmp.isLE_antisymm hab hba))
  · exact fun _ _ _ hab hbc => Std.TransCmp.isLE_trans hab hbc
  · intro a b
    have hswap : compare (t.ages l b.1) (t.ages l a.1) = (compare (t.ages l a.1) (t.ages l b.1)).swap :=
      Std.OrientedCmp.eq_swap
    rw [hswap]
    cases compare (t.ages l a.1) (t.ages l b.1) <;> rfl

theorem mem_found {parts : List String} :
    (parts, e) ∈ t.found l ↔ parts ≠ [] ∧ (l ++ parts, e) ∈ t.entries := by
  rw [found, List.mem_filterMap]
  constructor
  · rintro ⟨⟨at', e'⟩, hf, heq⟩
    split at heq
    · rename_i hpre
      obtain ⟨rfl, rfl⟩ := Prod.mk.inj (Option.some.inj heq)
      simp only [Bool.and_eq_true, List.isPrefixOf_iff_prefix, decide_eq_true_eq] at hpre
      obtain ⟨⟨rest, rfl⟩, hne⟩ := hpre
      rw [List.drop_left]
      refine ⟨?_, hf⟩
      rintro rfl
      exact hne (List.append_nil l).symm
    · cases heq
  · rintro ⟨hne, hf⟩
    exact ⟨_, hf, by simp [List.isPrefixOf_iff_prefix, hne]⟩

theorem mem_entriesBelow (h : t.Keyed) {parts : List String} :
    (parts, e) ∈ t.entriesBelow l ↔ parts ≠ [] ∧ t.entry? (l ++ parts) = some e := by
  rw [(entriesBelow_perm t l).mem_iff, mem_found]
  refine and_congr_right fun hp => ?_
  unfold FileTree.entry?
  rw [if_neg (by simp [hp]), lookup_eq_some_iff _ _ h]

theorem nodup_entriesBelow (h : t.Keyed) : ((t.entriesBelow l).map (·.1)).Nodup := by
  rw [((entriesBelow_perm t l).map _).nodup_iff]
  have hkeys : ((t.found l).map fun f => l ++ f.1).Sublist (t.entries.map (·.1)) := by
    unfold found
    induction t.entries with
    | nil => exact .slnil
    | cons f es ih =>
      rw [List.map_cons, List.filterMap_cons]
      split
      · exact ih.cons _
      · rename_i hf
        split at hf
        · rename_i hpre
          simp only [Bool.and_eq_true, List.isPrefixOf_iff_prefix] at hpre
          obtain ⟨rest, hrest⟩ := hpre.1
          obtain rfl := Option.some.inj hf
          rw [← hrest, List.drop_left, List.map_cons]
          exact ih.cons_cons _
        · cases hf
  have hapart := List.pairwise_map.mp (h.sublist hkeys)
  exact List.pairwise_map.mpr (hapart.imp fun hne heq => hne (congrArg _ heq))

/-! ## Where paths lead -/

/-- Where a component leads from a directory. -/
def toward (l : Location) : Component → Location
  | .root => []
  | .here => l
  | .up => l.dropLast
  | .name s => l ++ [s]

/-- Where components lead, if they lead anywhere. -/
def destination (cwd : Location) (cs : List Component) : Location :=
  cs.foldl toward cwd

theorem foldl_toward_names : ∀ (parts : List String) (l : Location),
    (parts.map Component.name).foldl toward l = l ++ parts
  | [], l => by simp
  | s :: parts, l => by
    rw [List.map_cons, List.foldl_cons, foldl_toward_names parts]
    simp [toward]

theorem destination_names (cwd : Location) (cs : List Component) (parts : List String) :
    destination cwd (cs ++ parts.map .name) = destination cwd cs ++ parts := by
  rw [destination, List.foldl_append, foldl_toward_names]
  rfl

theorem enter_eq {c : Component} (h : t.enter l c = .ok l') : l' = toward l c := by
  unfold enter at h
  split at h
  · exact (Except.ok.inj h).symm
  · exact (Except.ok.inj h).symm
  · split at h
    · cases h
    · cases h
    · exact (Except.ok.inj h).symm
  · split at h
    · cases h
    · cases h
    · split at h
      · cases h
      · exact (Except.ok.inj h).symm

theorem foldlM_enter_eq : ∀ {cs : List Component} {l : Location},
    cs.foldlM t.enter l = .ok l' → l' = destination l cs
  | [], l, h => (Except.ok.inj h).symm
  | c :: cs, l, h => by
    rw [List.foldlM_cons] at h
    cases hc : t.enter l c with
    | error e =>
      rw [hc] at h
      cases h
    | ok l₁ =>
      rw [hc] at h
      have := foldlM_enter_eq (l := l₁) h
      rw [this, enter_eq hc]
      rfl

theorem locate_spec (h : t.locate cwd p = .ok l) :
    (p.text.toList.any (· == '\x00')) = false ∧ p.text ≠ "" ∧ p.text.utf8ByteSize < 4096 ∧
      p.components.foldlM t.enter cwd = .ok l := by
  unfold locate at h
  split at h
  · cases h
  · rename_i hnul
    split at h
    · cases h
    · rename_i hne
      split at h
      · cases h
      · rename_i hlen
        exact ⟨eq_false_of_ne_true hnul, hne, tooLong_eq_false.mp (eq_false_of_ne_true hlen), h⟩

theorem locate_of_foldlM (hnul : (p.text.toList.any (· == '\x00')) = false) (hne : p.text ≠ "")
    (hlen : p.text.utf8ByteSize < 4096) :
    t.locate cwd p = p.components.foldlM t.enter cwd := by
  unfold locate
  rw [if_neg (by simp [hnul]), if_neg hne, if_neg (by simp [tooLong_eq_false.mpr hlen])]

theorem locate_eq (h : t.locate cwd p = .ok l) : l = destination cwd p.components :=
  foldlM_enter_eq (locate_spec h).2.2.2

/-! ## Directories stay -/

def DirsKept (t t' : FileTree) : Prop :=
  ∀ l, t.entry? l = some .dir → t'.entry? l = some .dir

theorem DirsKept.refl (t : FileTree) : t.DirsKept t := fun _ h => h

theorem DirsKept.trans (h : t.DirsKept t') (h' : t'.DirsKept u) : t.DirsKept u :=
  fun l hl => h' l (h l hl)

theorem enter_kept (hk : t.DirsKept t') {c : Component} (h : t.enter l c = .ok l') :
    t'.enter l c = .ok l' := by
  unfold enter at h ⊢
  cases c with
  | root => exact h
  | here => exact h
  | up =>
    simp only at h ⊢
    split at h
    · cases h
    · cases h
    · rename_i hd
      rw [hk l hd]
      exact h
  | name s =>
    simp only at h ⊢
    split at h
    · cases h
    · cases h
    · rename_i hd
      rw [hk l hd]
      exact h

theorem foldlM_enter_kept (hk : t.DirsKept t') : ∀ {cs : List Component} {l : Location},
    cs.foldlM t.enter l = .ok l' → cs.foldlM t'.enter l = .ok l'
  | [], _, h => h
  | c :: cs, l, h => by
    rw [List.foldlM_cons] at h ⊢
    cases hc : t.enter l c with
    | error e =>
      rw [hc] at h
      cases h
    | ok l₁ =>
      rw [hc] at h
      rw [enter_kept hk hc]
      exact foldlM_enter_kept hk h

theorem locate_kept (hk : t.DirsKept t') (h : t.locate cwd p = .ok l) :
    t'.locate cwd p = .ok l := by
  obtain ⟨hnul, hne, hlen, hfold⟩ := locate_spec h
  rw [locate_of_foldlM hnul hne hlen]
  exact foldlM_enter_kept hk hfold

theorem isDir_iff : t.isDir cwd p = true ↔
    ∃ l, t.locate cwd p = .ok l ∧ t.entry? l = some .dir := by
  unfold isDir look
  constructor
  · intro h
    split at h
    · rename_i l hlook
      split at hlook
      · cases hlook
      · rename_i l' hloc
        split at hlook
        · cases hlook
        · rename_i hd
          exact ⟨l', hloc, hd⟩
        · split at hlook <;> cases hlook
    · cases h
  · rintro ⟨l, hloc, hd⟩
    simp only [hloc, hd]

theorem short_of_isDir (h : t.isDir cwd p = true) : p.tooLong = false := by
  obtain ⟨l, hloc, -⟩ := isDir_iff.mp h
  exact tooLong_eq_false.mpr (locate_spec hloc).2.2.1

theorem isDir_kept (hk : t.DirsKept t') (h : t.isDir cwd p = true) : t'.isDir cwd p = true := by
  obtain ⟨l, hloc, hd⟩ := isDir_iff.mp h
  exact isDir_iff.mpr ⟨l, locate_kept hk hloc, hk l hd⟩

/-! ## Making directories -/

/-- Some locations without an entry have become directories; all else is the same. -/
structure Roomier (t t' : FileTree) : Prop where
  keyed : t.Keyed → t'.Keyed
  entry? : ∀ l, t'.entry? l = t.entry? l ∨ t.entry? l = none ∧ t'.entry? l = some .dir

theorem Roomier.refl (t : FileTree) : t.Roomier t :=
  ⟨id, fun _ => Or.inl rfl⟩

theorem Roomier.trans (h : t.Roomier t') (h' : t'.Roomier u) : t.Roomier u := by
  refine ⟨h'.keyed ∘ h.keyed, fun l => ?_⟩
  rcases h.entry? l with hl | ⟨hl, hl'⟩
  · rw [← hl]
    exact h'.entry? l
  · rcases h'.entry? l with hu | ⟨hn, _⟩
    · exact Or.inr ⟨hl, hu.trans hl'⟩
    · rw [hl'] at hn
      cases hn

theorem Roomier.dirs (h : t.Roomier t') : t.DirsKept t' := by
  intro l hl
  rcases h.entry? l with h' | ⟨_, h'⟩
  · rw [h', hl]
  · exact h'

theorem Roomier.file? (h : t.Roomier t') (l : Location) : t'.file? l = t.file? l := by
  rcases h.entry? l with h' | ⟨hn, hd⟩
  · exact file?_congr h'
  · simp [FileTree.file?, hn, hd]

theorem roomier_set (hl : l ≠ []) (hn : t.entry? l = none) : t.Roomier (t.set l .dir) := by
  refine ⟨fun h => h.set l .dir, fun l' => ?_⟩
  rw [entry?_set hl]
  by_cases h : l' = l
  · subst h
    exact Or.inr ⟨hn, if_pos rfl⟩
  · exact Or.inl (if_neg h)

theorem ne_nil_of_entry (h : t.entry? l ≠ some .dir) : l ≠ [] := by
  rintro rfl
  exact h rfl

theorem makeDir_spec (h : t.makeDir cwd p = .ok t') :
    ∃ l, t.locate cwd p = .ok l ∧ t.entry? l = none ∧ t' = t.set l .dir := by
  unfold makeDir at h
  split at h
  · cases h
  · rename_i l hloc
    split at h
    · cases h
    · cases h
    · rename_i hn
      split at h
      · cases h
      · split at h
        · exact ⟨l, hloc, hn, (Except.ok.inj h).symm⟩
        · cases h
        · cases h

theorem roomier_makeDir (h : t.makeDir cwd p = .ok t') :
    t.Roomier t' ∧ t'.isDir cwd p = true := by
  obtain ⟨l, hloc, hn, rfl⟩ := makeDir_spec h
  have hl : l ≠ [] := ne_nil_of_entry (by rw [hn]; simp)
  have hr := roomier_set hl hn
  refine ⟨hr, isDir_iff.mpr ⟨l, locate_kept hr.dirs hloc, ?_⟩⟩
  rw [entry?_set hl, if_pos rfl]

theorem isDir_of_unlessDir {err : FileError} (h : t.unlessDir cwd p err = .ok ()) :
    t.isDir cwd p = true := by
  unfold unlessDir at h
  split at h
  · assumption
  · cases h

/-- Making directories adds directories and nothing else, and if it succeeds the path leads to
one. -/
theorem makeDirsWithin_spec (cwd : Location) : ∀ (n : Nat) (t : FileTree) (p : Path),
    t.Roomier (makeDirsWithin cwd n t p).1 ∧
    ((makeDirsWithin cwd n t p).2 = .ok () → p.text ≠ "" →
      (makeDirsWithin cwd n t p).1.isDir cwd p = true)
  | 0, t, p => by
    unfold makeDirsWithin
    split
    · rename_i t₁ hmake
      obtain ⟨hr, hd⟩ := roomier_makeDir hmake
      exact ⟨hr, fun _ _ => hd⟩
    · exact ⟨.refl t, fun h _ => isDir_of_unlessDir h⟩
  | n + 1, t, p => by
    unfold makeDirsWithin
    split
    · rename_i hempty
      exact ⟨.refl t, fun _ h => absurd hempty h⟩
    · split
      · rename_i t₁ _ hmake
        obtain ⟨hr, hd⟩ := roomier_makeDir hmake
        exact ⟨hr, fun _ _ => hd⟩
      · rename_i parent _ _
        -- the parent first, then the directory once more
        have ih := makeDirsWithin_spec cwd n t parent
        split
        · rename_i t₁ _ hparent
          rw [hparent] at ih
          exact ⟨ih.1, fun h => by cases h⟩
        · rename_i t₁ hparent
          rw [hparent] at ih
          split
          · rename_i t₂ hmake
            obtain ⟨hr, hd⟩ := roomier_makeDir hmake
            exact ⟨ih.1.trans hr, fun _ _ => hd⟩
          · exact ⟨ih.1, fun h _ => isDir_of_unlessDir h⟩
      · exact ⟨.refl t, fun h _ => isDir_of_unlessDir h⟩

theorem roomier_makeDirs (t : FileTree) (cwd : Location) (p : Path) :
    t.Roomier (t.makeDirs cwd p).1 :=
  (makeDirsWithin_spec cwd _ t p).1

theorem isDir_makeDirs (hp : p.text ≠ "") (h : (t.makeDirs cwd p).2 = .ok ()) :
    (t.makeDirs cwd p).1.isDir cwd p = true :=
  (makeDirsWithin_spec cwd _ t p).2 h hp

/-! ## Writing -/

/-- One file has been written; directories may have been made. -/
structure Writes (t t' : FileTree) (l : Location) (bytes : ByteArray) : Prop where
  keyed : t.Keyed → t'.Keyed
  dirs : t.DirsKept t'
  file? : ∀ l', t'.file? l' = if l' = l then some bytes else t.file? l'

theorem write_spec (h : t.write cwd p bytes = .ok t') :
    ∃ l, t.locate cwd p = .ok l ∧ t.entry? l ≠ some .dir ∧ t' = t.set l (.file bytes) := by
  unfold write at h
  split at h
  · cases h
  · rename_i l hloc
    split at h
    · cases h
    · rename_i hf
      split at h
      · cases h
      · exact ⟨l, hloc, by rw [hf]; simp, (Except.ok.inj h).symm⟩
    · rename_i hn
      split at h
      · cases h
      · split at h
        · cases h
        · split at h
          · exact ⟨l, hloc, by rw [hn]; simp, (Except.ok.inj h).symm⟩
          · cases h
          · cases h

theorem writes_of_write (h : t.write cwd p bytes = .ok t') :
    t.Writes t' (destination cwd p.components) bytes := by
  obtain ⟨l, hloc, hnd, rfl⟩ := write_spec h
  have hl := ne_nil_of_entry hnd
  rw [← locate_eq hloc]
  refine ⟨fun hk => hk.set l _, fun l' hd => ?_, fun l' => ?_⟩
  · rw [entry?_set hl]
    by_cases h' : l' = l
    · subst h'
      exact absurd hd hnd
    · rw [if_neg h', hd]
  · unfold FileTree.file?
    rw [entry?_set hl]
    by_cases h' : l' = l <;> simp [h']

theorem Roomier.writes (h : t.Roomier t') (h' : t'.Writes u l bytes) : t.Writes u l bytes := by
  refine ⟨h'.keyed ∘ h.keyed, h.dirs.trans h'.dirs, fun l' => ?_⟩
  rw [h'.file?, h.file?]

/-! ## Reading below a directory -/

theorem locate_join (hp : p.text ≠ "") {s : String} (hs : Part s)
    (hloc : t.locate cwd p = .ok l) (hd : t.entry? l = some .dir) :
    t.locate cwd (p.join ⟨s⟩) = .ok (l ++ [s]) ∨
      ∃ err, t.locate cwd (p.join ⟨s⟩) = .error err ∧ err ≠ .notFound := by
  obtain ⟨-, -, -, hfold⟩ := locate_spec hloc
  have hwhole : (p.join ⟨s⟩).components.foldlM t.enter cwd =
      if 255 < s.utf8ByteSize then .error .nameTooLong else .ok (l ++ [s]) := by
    rw [components_join hp hs, List.foldlM_append, hfold]
    have henter : t.enter l (.name s) =
        if 255 < s.utf8ByteSize then .error .nameTooLong else .ok (l ++ [s]) := by
      simp only [enter, hd]
    show (t.enter l (.name s) >>= pure) = _
    rw [bind_pure, henter]
  unfold locate
  split
  · exact Or.inr ⟨_, rfl, by simp⟩
  · rw [if_neg (text_join_ne_empty hp _), hwhole]
    split
    · exact Or.inr ⟨_, rfl, by simp⟩
    · split
      · exact Or.inr ⟨_, rfl, by simp⟩
      · exact Or.inl rfl

end OnDemand.FileTree
