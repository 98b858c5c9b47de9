import Mathlib.Data.List.Basic
import OnDemand.Proofs.FileTree

/-!
# Paths below a directory

From a path that leads to a directory a longer one goes down by names. Where no file stands on the
way and the operating system takes the path, it leads where its names say or something on the way
is missing (`foldlM_names`), and then the way can be made (`makeDirsWithin_clear`). Whether it could
be made or not, what is new are directories on the way (`Paves`).
-/

namespace OnDemand.FileTree

open OnDemand.Path

variable {t t' u : FileTree} {cwd l l' : Location} {p root : Path} {s : String}
  {names init : List String}

/-- How long a name is that is asked for; other components are none. -/
def nameSize : Component → Nat
  | .name s => s.utf8ByteSize
  | _ => 0

/-- A path that the operating system takes: no NUL in it, and neither it nor a name too long. -/
structure Fit (p : Path) : Prop where
  noNul : p.text.toList.any (· == '\x00') = false
  short : p.text.utf8ByteSize < 4096
  names : ∀ c ∈ p.components, nameSize c ≤ 255

instance (p : Path) : Decidable (Fit p) :=
  decidable_of_iff (p.text.toList.any (· == '\x00') = false ∧ p.text.utf8ByteSize < 4096 ∧
      ∀ c ∈ p.components, nameSize c ≤ 255)
    ⟨fun h => ⟨h.1, h.2.1, h.2.2⟩, fun h => ⟨h.noNul, h.short, h.names⟩⟩

theorem text_join_eq (p : Path) (hs : Part s) : ∃ rest, (p.join ⟨s⟩).text = p.text ++ rest := by
  unfold join
  rw [hs.relative]
  simp only [Bool.false_eq_true, if_false]
  split
  · exact ⟨s, rfl⟩
  · exact ⟨"/" ++ s, String.append_assoc⟩

theorem Fit.of_join (hp : p.text ≠ "") (hs : Part s) (h : Fit (p.join ⟨s⟩)) : Fit p := by
  obtain ⟨rest, hrest⟩ := text_join_eq p hs
  have hnul := h.noNul
  have hshort := h.short
  rw [hrest, String.toList_append, List.any_append, Bool.or_eq_false_iff] at hnul
  rw [hrest, String.utf8ByteSize_append] at hshort
  refine ⟨hnul.1, by omega, fun c hc => h.names c ?_⟩
  rw [components_join hp hs]
  exact List.mem_append_left _ hc

theorem size_of_foldlM : ∀ {cs : List Component} {l : Location}, cs.foldlM t.enter l = .ok l' →
    ∀ c ∈ cs, nameSize c ≤ 255
  | [], _, _ => fun _ h => (List.not_mem_nil h).elim
  | c :: cs, l, h => by
    rw [List.foldlM_cons] at h
    cases hc : t.enter l c with
    | error e =>
      rw [hc] at h
      cases h
    | ok l₁ =>
      rw [hc] at h
      refine List.forall_mem_cons.mpr ⟨?_, size_of_foldlM (l := l₁) h⟩
      cases c with
      | name s =>
        unfold enter at hc
        simp only at hc
        split at hc
        · cases hc
        · cases hc
        · split at hc
          · cases hc
          · rename_i hsize
            exact Nat.not_lt.mp hsize
      | root => exact Nat.zero_le _
      | here => exact Nat.zero_le _
      | up => exact Nat.zero_le _

theorem fit_of_locate (h : t.locate cwd p = .ok l) : Fit p := by
  obtain ⟨hnul, -, hshort, hfold⟩ := locate_spec h
  exact ⟨hnul, hshort, size_of_foldlM hfold⟩

theorem size_of_fit (hp : p.text ≠ "") (hs : Part s) (h : Fit (p.join ⟨s⟩)) :
    s.utf8ByteSize ≤ 255 := by
  refine h.names (.name s) ?_
  rw [components_join hp hs]
  simp

/-! ## Directories -/

theorem isDir_spec (h : t.isDir cwd p = true) :
    t.locate cwd p = .ok (destination cwd p.components) ∧
      t.entry? (destination cwd p.components) = some .dir := by
  obtain ⟨l, hloc, hd⟩ := isDir_iff.mp h
  rw [← locate_eq hloc]
  exact ⟨hloc, hd⟩

theorem text_ne_empty_of_isDir (h : t.isDir cwd p = true) : p.text ≠ "" :=
  (locate_spec (isDir_spec h).1).2.1

theorem isDir_tidied (h : t.isDir cwd p = true) : t.isDir cwd p.tidied = true := by
  obtain ⟨hloc, hd⟩ := isDir_spec h
  obtain ⟨hnul, hne, hlen, hfold⟩ := locate_spec hloc
  have htidied : p.tidied.text.toList.any (· == '\x00') = false ∧
      p.tidied.text.utf8ByteSize < 4096 := by
    rcases tidied_spec p with ⟨rest, hrest⟩ | hslash
    · rw [← hrest, String.toList_append, List.any_append, Bool.or_eq_false_iff] at hnul
      rw [← hrest, String.utf8ByteSize_append] at hlen
      exact ⟨hnul.1, by omega⟩
    · rw [hslash]
      exact ⟨by decide, by decide⟩
  refine isDir_iff.mpr ⟨_, ?_, hd⟩
  rw [locate_of_foldlM htidied.1 (text_tidied_ne_empty p) htidied.2, components_tidied hne, hfold]

theorem makeDir_of_isDir (h : t.isDir cwd p = true) : t.makeDir cwd p = .error .alreadyExists := by
  obtain ⟨hloc, hd⟩ := isDir_spec h
  simp only [makeDir, hloc, hd]

theorem makeDirsWithin_of_isDir (h : t.isDir cwd p = true) (n : Nat) :
    makeDirsWithin cwd n t p = (t, .ok ()) := by
  have hunless : t.unlessDir cwd p .alreadyExists = .ok () := by
    simp only [unlessDir, h, if_true]
  cases n with
  | zero => simp only [makeDirsWithin, makeDir_of_isDir h, hunless]
  | succ n =>
    rw [makeDirsWithin, if_neg (text_ne_empty_of_isDir h), makeDir_of_isDir h]
    simp only [hunless]

theorem locate_join_fit (hs : Part s) (h : t.isDir cwd p = true) (hf : Fit (p.join ⟨s⟩)) :
    t.locate cwd (p.join ⟨s⟩) = .ok (destination cwd p.components ++ [s]) := by
  obtain ⟨hloc, hd⟩ := isDir_spec h
  have hne := text_ne_empty_of_isDir h
  have henter : t.enter (destination cwd p.components) (.name s) =
      .ok (destination cwd p.components ++ [s]) := by
    simp only [enter, hd, if_neg (Nat.not_lt.mpr (size_of_fit hne hs hf))]
  rw [locate_of_foldlM hf.noNul (text_join_ne_empty hne _) hf.short, components_join hne hs,
    List.foldlM_append, (locate_spec hloc).2.2.2]
  show t.enter _ (.name s) >>= pure = _
  rw [bind_pure, henter]

theorem isDir_of_locate_join (hp : p.text ≠ "") (hs : Part s)
    (h : t.locate cwd (p.join ⟨s⟩) = .ok l) : t.isDir cwd p = true := by
  obtain ⟨hnul, -, hlen, hfold⟩ := locate_spec h
  obtain ⟨rest, hrest⟩ := text_join_eq p hs
  rw [hrest, String.toList_append, List.any_append, Bool.or_eq_false_iff] at hnul
  rw [hrest, String.utf8ByteSize_append] at hlen
  rw [components_join hp hs, List.foldlM_append] at hfold
  cases hl : p.components.foldlM t.enter cwd with
  | error e =>
    rw [hl] at hfold
    cases hfold
  | ok l₁ =>
    rw [hl] at hfold
    have hfold : t.enter l₁ (.name s) >>= pure = .ok l := hfold
    rw [bind_pure, enter] at hfold
    refine isDir_iff.mpr ⟨l₁, ?_, ?_⟩
    · rw [locate_of_foldlM hnul.1 hp (by omega), hl]
    · split at hfold
      · cases hfold
      · cases hfold
      · assumption

/-- A path is there and cannot be read as text. -/
def Unreadable (t : FileTree) (cwd : Location) (p : Path) : Prop :=
  ∃ e, t.readText cwd p = .error e ∧ e ≠ .notFound

theorem look_file_spec {bytes : ByteArray} (h : t.look cwd p = .ok (l, .file bytes)) :
    t.locate cwd p = .ok l ∧ t.entry? l = some (.file bytes) := by
  unfold look at h
  split at h
  · cases h
  · rename_i l' hloc
    split at h
    · cases h
    · cases h
    · rename_i bytes' hfile
      split at h
      · cases h
      · obtain ⟨rfl, hbytes⟩ := Prod.mk.inj (Except.ok.inj h)
        obtain rfl := Entry.file.inj hbytes
        exact ⟨hloc, hfile⟩

theorem unreadable_below_file {bytes : ByteArray} (hs : Part s)
    (h : t.look cwd p = .ok (l, .file bytes)) : t.Unreadable cwd (p.join ⟨s⟩) := by
  obtain ⟨hloc, hfile⟩ := look_file_spec h
  obtain ⟨-, hne, -, hfold⟩ := locate_spec hloc
  have hstop : (p.join ⟨s⟩).components.foldlM t.enter cwd = .error .notDirectory := by
    rw [components_join hne hs, List.foldlM_append, hfold]
    show t.enter l (.name s) >>= pure = _
    rw [bind_pure, enter]
    simp only [hfile]
  obtain ⟨e, he, hcause⟩ : ∃ e, t.locate cwd (p.join ⟨s⟩) = .error e ∧ e ≠ .notFound := by
    unfold locate
    split
    · exact ⟨_, rfl, by simp⟩
    · rw [if_neg (text_join_ne_empty hne _), hstop]
      split <;> exact ⟨_, rfl, by simp⟩
  exact ⟨e, by simp only [readText, read, look, he], hcause⟩

theorem not_unreadable_of_missing (hs : Part s) (h : t.isDir cwd p = true) (hf : Fit (p.join ⟨s⟩))
    (hnone : t.entry? (destination cwd p.components ++ [s]) = none) :
    ¬ t.Unreadable cwd (p.join ⟨s⟩) := by
  rintro ⟨e, he, hne⟩
  simp only [readText, read, look, locate_join_fit hs h hf, hnone] at he
  exact hne (Except.error.inj he).symm

theorem locate_join_congr (hs : Part s) (h : t.isDir cwd p = true) (h' : t'.isDir cwd p = true) :
    t'.locate cwd (p.join ⟨s⟩) = t.locate cwd (p.join ⟨s⟩) := by
  have hfold : ∀ {u : FileTree}, u.isDir cwd p = true →
      (p.join ⟨s⟩).components.foldlM u.enter cwd =
        if 255 < s.utf8ByteSize then .error .nameTooLong
        else .ok (destination cwd p.components ++ [s]) := by
    intro u hu
    obtain ⟨hloc, hd⟩ := isDir_spec hu
    rw [components_join (text_ne_empty_of_isDir hu) hs, List.foldlM_append,
      (locate_spec hloc).2.2.2]
    show u.enter _ (.name s) >>= pure = _
    rw [bind_pure, enter]
    simp only [hd]
  unfold locate
  rw [hfold h, hfold h']

theorem reverse_text_join (p : Path) (hs : Part s) :
    ∃ c cs, (p.join ⟨s⟩).text.toList.reverse = c :: cs ∧ c ≠ '/' ∧
      (c = '.' → ∃ d ds, cs = d :: ds ∧ d ≠ '/' ∧ (d = '.' → ∃ e es, ds = e :: es ∧ e ≠ '/')) := by
  have hne : s.toList ≠ [] := mt String.toList_eq_nil_iff.mp hs.nonempty
  have hhere : s.toList ≠ ['.'] := fun he => hs.notHere (String.toList_inj.mp he)
  have hup : s.toList ≠ ['.', '.'] := fun he => hs.notUp (String.toList_inj.mp he)
  have hslash : ∀ c ∈ s.toList.reverse, c ≠ '/' := fun c hc => hs.noSlash c (List.mem_reverse.mp hc)
  rw [text_join hs.relative, List.reverse_append]
  cases hr : s.toList.reverse with
  | nil => exact absurd (List.reverse_eq_nil_iff.mp hr) hne
  | cons c cs =>
    rw [hr] at hslash
    refine ⟨c, cs ++ p.stand.reverse, rfl, hslash c (by simp), ?_⟩
    rintro rfl
    cases cs with
    | nil => exact absurd (by simpa using congrArg List.reverse hr) hhere
    | cons d ds =>
      refine ⟨d, ds ++ p.stand.reverse, rfl, hslash d (by simp), ?_⟩
      rintro rfl
      cases ds with
      | nil => exact absurd (by simpa using congrArg List.reverse hr) hup
      | cons e es => exact ⟨e, es ++ p.stand.reverse, rfl, hslash e (by simp)⟩

theorem meansDirectory_join (p : Path) (hs : Part s) : meansDirectory (p.join ⟨s⟩) = false := by
  obtain ⟨c, cs, hr, hc, hdot⟩ := reverse_text_join p hs
  unfold meansDirectory
  rw [hr]
  split <;> grind

theorem endsInPoint_join (p : Path) (hs : Part s) : endsInPoint (p.join ⟨s⟩) = false := by
  obtain ⟨c, cs, hr, hc, hdot⟩ := reverse_text_join p hs
  have hkept : (c :: cs).dropWhile isSlash = c :: cs := by
    rw [List.dropWhile_cons_of_neg]
    simpa [isSlash] using hc
  unfold endsInPoint
  rw [hr, hkept]
  split <;> grind

/-! ## The way down -/

/-- No file stands on the way from a location through names. -/
def Clear (t : FileTree) (l : Location) (names : List String) : Prop :=
  ∀ q, q <+: names → t.file? (l ++ q) = none

theorem Clear.shorter (h : t.Clear l names) (hq : init <+: names) : t.Clear l init :=
  fun q hq' => h q (hq'.trans hq)

theorem foldlM_names (hsize : ∀ s ∈ names, s.utf8ByteSize ≤ 255) (h : t.Clear l names) :
    (names.map Component.name).foldlM t.enter l = .ok (l ++ names) ∨
      (names.map Component.name).foldlM t.enter l = .error .notFound := by
  induction names generalizing l with
  | nil => exact Or.inl (by simp [pure, Except.pure])
  | cons s names ih =>
    rw [List.map_cons, List.foldlM_cons]
    have hfile : t.file? l = none := by simpa using h [] (List.nil_prefix)
    -- on the way there is nothing or a directory, but no file
    cases hl : t.entry? l with
    | none =>
      right
      simp only [enter, hl]
      rfl
    | some e =>
      cases e with
      | file bytes =>
        rw [file?_eq_some.mpr hl] at hfile
        cases hfile
      | dir =>
        have henter : t.enter l (.name s) = .ok (l ++ [s]) := by
          simp only [enter, hl, if_neg (Nat.not_lt.mpr (hsize s (by simp)))]
        have hclear : t.Clear (l ++ [s]) names := by
          intro q hq
          rw [List.append_assoc]
          exact h _ (List.prefix_cons_inj s |>.mpr hq)
        have hrest := ih (fun r hr => hsize r (by simp [hr])) hclear
        rw [List.append_assoc, List.singleton_append] at hrest
        rw [henter]
        exact hrest

/-- Some locations on the way from a location through names have become directories, whose paths are
not too long; all else is the same. -/
structure Paves (t t' : FileTree) (l : Location) (root : Path) (names : List String) : Prop where
  keyed : t.Keyed → t'.Keyed
  entry? : ∀ l', t'.entry? l' = t.entry? l' ∨
    t.entry? l' = none ∧ t'.entry? l' = some .dir ∧
      ∃ q, q ≠ [] ∧ q <+: names ∧ l' = l ++ q ∧ (root.joinAll q).tooLong = false

theorem Paves.refl (t : FileTree) (l : Location) (root : Path) (names : List String) :
    t.Paves t l root names :=
  ⟨id, fun _ => Or.inl rfl⟩

theorem Paves.roomier (h : t.Paves t' l root names) : t.Roomier t' := by
  refine ⟨h.keyed, fun l' => ?_⟩
  rcases h.entry? l' with h | ⟨hn, hd, -⟩
  · exact Or.inl h
  · exact Or.inr ⟨hn, hd⟩

theorem Paves.trans (h : t.Paves t' l root names) (h' : t'.Paves u l root names) :
    t.Paves u l root names := by
  refine ⟨h'.keyed ∘ h.keyed, fun l' => ?_⟩
  rcases h'.entry? l' with hu | ⟨hn, hd, hq⟩
  · rw [hu]
    exact h.entry? l'
  · rcases h.entry? l' with ht | ⟨_, ht, _⟩
    · exact Or.inr ⟨by rw [← ht, hn], hd, hq⟩
    · rw [ht] at hn
      cases hn

theorem Paves.longer (h : t.Paves t' l root init) (hq : init <+: names) :
    t.Paves t' l root names := by
  refine ⟨h.keyed, fun l' => ?_⟩
  rcases h.entry? l' with h | ⟨hn, hd, q, hne, hpre, rfl, hshort⟩
  · exact Or.inl h
  · exact Or.inr ⟨hn, hd, q, hne, hpre.trans hq, rfl, hshort⟩

/-! ## Making the way -/

section
variable (hroot : t.isDir cwd root = true) (hnames : ∀ s ∈ names, Part s)
include hroot hnames

theorem components_below :
    (root.joinAll names).components = root.components ++ names.map .name :=
  components_joinAll (text_ne_empty_of_isDir hroot) hnames

theorem destination_below :
    destination cwd (root.joinAll names).components = destination cwd root.components ++ names := by
  rw [components_below hroot hnames, destination_names]

theorem paves_makeDir (hne : names ≠ []) (h : t.makeDir cwd (root.joinAll names) = .ok t') :
    t.Paves t' (destination cwd root.components) root names := by
  obtain ⟨l, hloc, hn, rfl⟩ := makeDir_spec h
  have hl : l ≠ [] := ne_nil_of_entry (by rw [hn]; simp)
  have hshort := tooLong_eq_false.mpr (locate_spec hloc).2.2.1
  rw [locate_eq hloc, destination_below hroot hnames] at hn hl ⊢
  refine ⟨fun hk => hk.set _ _, fun l' => ?_⟩
  rw [entry?_set hl]
  by_cases h' : l' = destination cwd root.components ++ names
  · subst h'
    exact Or.inr ⟨hn, if_pos rfl, names, hne, List.prefix_rfl, rfl, hshort⟩
  · exact Or.inl (if_neg h')

end

theorem text_joinAll_ne_empty (hp : p.text ≠ "") :
    ∀ names : List String, (p.joinAll names).text ≠ "" := by
  intro names
  induction names generalizing p with
  | nil => exact hp
  | cons s names ih => exact ih (text_join_ne_empty hp _)

theorem parent?_joinAll (hp : p.text ≠ "") (hs : Part s) :
    (p.joinAll (init ++ [s])).parent? = some (p.joinAll init).tidied := by
  rw [joinAll_concat]
  exact parent?_join (text_joinAll_ne_empty hp init) hs

theorem tidied_joinAll (hs : Part s) :
    (p.joinAll (init ++ [s])).tidied = p.joinAll (init ++ [s]) := by
  rw [joinAll_concat]
  exact tidied_join _ hs

theorem paves_makeDirsWithin (hroot : t.isDir cwd root = true) (n : Nat)
    (hnames : ∀ s ∈ names, Part s) :
    t.Paves (makeDirsWithin cwd n t (root.joinAll names).tidied).1
      (destination cwd root.components) root names := by
  induction n generalizing names with
  | zero =>
    rcases names.eq_nil_or_concat' with rfl | ⟨init, s, rfl⟩
    · rw [joinAll, List.foldl_nil, makeDirsWithin_of_isDir (isDir_tidied hroot)]
      exact .refl _ _ _ _
    · rw [tidied_joinAll (hnames s (by simp)), makeDirsWithin]
      split
      · rename_i hmake
        exact paves_makeDir hroot hnames (by simp) hmake
      · exact .refl _ _ _ _
  | succ n ih =>
    rcases names.eq_nil_or_concat' with rfl | ⟨init, s, rfl⟩
    · rw [joinAll, List.foldl_nil, makeDirsWithin_of_isDir (isDir_tidied hroot)]
      exact .refl _ _ _ _
    · have hs : Part s := hnames s (by simp)
      rw [tidied_joinAll hs, makeDirsWithin, parent?_joinAll (text_ne_empty_of_isDir hroot) hs]
      split
      · exact .refl _ _ _ _
      · split
        · rename_i hmake
          exact paves_makeDir hroot hnames (by simp) hmake
        · rename_i hparent
          obtain rfl := Option.some.inj hparent
          -- the parent is on the same way, one part shorter
          have ih := (ih fun r hr => hnames r (by simp [hr])).longer (List.prefix_append init [s])
          split
          · rename_i h
            rw [h] at ih
            exact ih
          · rename_i t₁ h
            rw [h] at ih
            have hroot₁ := isDir_kept ih.roomier.dirs hroot
            split
            · rename_i hmake
              exact ih.trans (paves_makeDir hroot₁ hnames (by simp) hmake)
            · exact ih
        · exact .refl _ _ _ _

theorem destination_dropLast {cs : List Component} (hup : .up ∉ cs)
    (hroot : cs.getLast? ≠ some .root) : destination cwd cs.dropLast <+: destination cwd cs := by
  rcases cs.eq_nil_or_concat' with rfl | ⟨cs, c, rfl⟩
  · exact List.prefix_rfl
  · rw [List.dropLast_concat, destination, destination, List.foldl_append]
    cases c with
    | root => simp at hroot
    | here => exact List.prefix_rfl
    | up => simp at hup
    | name s => exact List.prefix_append _ _

theorem entry?_makeDir (hl : ¬ l <+: destination cwd p.components) (h : t.makeDir cwd p = .ok t') :
    t'.entry? l = t.entry? l := by
  obtain ⟨l', hloc, hn, rfl⟩ := makeDir_spec h
  rw [entry?_set (ne_nil_of_entry (by rw [hn]; simp)), if_neg]
  rintro rfl
  exact hl (locate_eq hloc ▸ List.prefix_rfl)

theorem entry?_makeDirsWithin (n : Nat) (t : FileTree) {p : Path} (hup : .up ∉ p.components)
    (hl : ¬ l <+: destination cwd p.components) :
    FileTree.entry? (makeDirsWithin cwd n t p).1 l = t.entry? l := by
  induction n generalizing t p with
  | zero =>
    unfold makeDirsWithin
    split
    · rename_i h
      exact entry?_makeDir hl h
    · rfl
  | succ n ih =>
    unfold makeDirsWithin
    split
    · rfl
    · split
      · rename_i h
        exact entry?_makeDir hl h
      · rename_i parent _ hparent
        -- the parent is on the way
        have hcomponents := components_parent hparent
        have hway : destination cwd parent.components <+: destination cwd p.components := by
          rw [hcomponents]
          exact destination_dropLast hup (last_of_parent hparent)
        have ih := ih t (p := parent) (fun h => hup (List.dropLast_subset _ (hcomponents ▸ h)))
          fun h => hl (h.trans hway)
        split
        · rename_i h
          rwa [h] at ih
        · rename_i h
          rw [h] at ih
          split
          · rename_i h
            rw [entry?_makeDir hl h]
            exact ih
          · exact ih
      · rfl

theorem isDir_of_tidied (hroot : t.isDir cwd root = true) (hnames : ∀ s ∈ names, Part s)
    (h : t.isDir cwd (root.joinAll names).tidied = true) :
    t.isDir cwd (root.joinAll names) = true := by
  rcases names.eq_nil_or_concat' with rfl | ⟨init, s, rfl⟩
  · exact hroot
  · rwa [tidied_joinAll (hnames s (by simp))] at h

/-- A path that the operating system takes, and that ends below a directory, is the place of a new
directory or of an old one. -/
theorem makeDir_clear (hs : Part s) (h : t.isDir cwd p = true) (hf : Fit (p.join ⟨s⟩))
    (hc : t.file? (destination cwd p.components ++ [s]) = none) :
    t.isDir cwd (p.join ⟨s⟩) = true ∨ ∃ t', t.makeDir cwd (p.join ⟨s⟩) = .ok t' := by
  have hloc := locate_join_fit hs h hf
  cases hentry : t.entry? (destination cwd p.components ++ [s]) with
  | some e =>
    cases e with
    | dir => exact Or.inl (isDir_iff.mpr ⟨_, hloc, hentry⟩)
    | file bytes =>
      rw [file?_eq_some.mpr hentry] at hc
      cases hc
  | none =>
    right
    simp only [makeDir, hloc, hentry, endsInPoint_join p hs, List.dropLast_concat, (isDir_spec h).2]
    exact ⟨_, rfl⟩

theorem fit_init (hne : root.text ≠ "") (hs : Part s) (hf : Fit (root.joinAll (init ++ [s]))) :
    Fit (root.joinAll init) := by
  rw [joinAll_concat] at hf
  exact hf.of_join (text_joinAll_ne_empty hne init) hs

theorem locate_below (hroot : t.isDir cwd root = true) (hnames : ∀ r ∈ names, Part r)
    (hf : Fit (root.joinAll names)) : t.locate cwd (root.joinAll names) =
      (names.map Component.name).foldlM t.enter (destination cwd root.components) := by
  rw [locate_of_foldlM hf.noNul (text_joinAll_ne_empty (text_ne_empty_of_isDir hroot) _) hf.short,
    components_below hroot hnames, List.foldlM_append, (locate_spec (isDir_spec hroot).1).2.2.2]
  rfl

/-- Where no file stands on the way, the next to last part is a directory or the path leads
nowhere. -/
theorem locate_clear (hroot : t.isDir cwd root = true) (hnames : ∀ r ∈ init ++ [s], Part r)
    (hf : Fit (root.joinAll (init ++ [s]))) (hc : t.Clear (destination cwd root.components) init) :
    t.isDir cwd (root.joinAll init) = true ∨
      t.locate cwd (root.joinAll (init ++ [s])) = .error .notFound := by
  have hinit : ∀ r ∈ init, Part r := fun r hr => hnames r (by simp [hr])
  have hsize : ∀ r ∈ init, r.utf8ByteSize ≤ 255 := by
    intro r hr
    refine hf.names (.name r) ?_
    rw [components_below hroot hnames]
    exact List.mem_append_right _ (List.mem_map_of_mem (List.mem_append_left _ hr))
  have hwhole := locate_below hroot hnames hf
  rw [List.map_append, List.foldlM_append] at hwhole
  -- the way is there up to its last part, or something on it is missing
  rcases foldlM_names hsize hc with h | h
  · cases hdir : t.entry? (destination cwd root.components ++ init) with
    | none =>
      right
      rw [hwhole, h]
      show t.enter _ (.name s) >>= pure = _
      rw [bind_pure, enter]
      simp only [hdir]
    | some e =>
      cases e with
      | file bytes =>
        have := hc init List.prefix_rfl
        rw [file?_eq_some.mpr hdir] at this
        cases this
      | dir =>
        left
        refine isDir_iff.mpr ⟨_, ?_, hdir⟩
        rw [locate_below hroot hinit
          (fit_init (text_ne_empty_of_isDir hroot) (hnames s (by simp)) hf)]
        exact h
  · right
    rw [hwhole, h]
    rfl

theorem makeDir_last (hs : Part s) (hinit : ∀ r ∈ init, Part r) (hroot : t.isDir cwd root = true)
    (h : t.isDir cwd (root.joinAll init) = true) (hf : Fit (root.joinAll (init ++ [s])))
    (hc : t.Clear (destination cwd root.components) (init ++ [s])) :
    t.isDir cwd (root.joinAll (init ++ [s])) = true ∨
      ∃ t', t.makeDir cwd (root.joinAll (init ++ [s])) = .ok t' := by
  rw [joinAll_concat] at hf ⊢
  refine makeDir_clear hs h hf ?_
  rw [destination_below hroot hinit, List.append_assoc]
  exact hc _ List.prefix_rfl

theorem Paves.clear (h : t.Paves t' l' root init) (hc : t.Clear l names) : t'.Clear l names := by
  intro q hq
  rw [h.roomier.file?]
  exact hc q hq

/-- A way on which no file stands can be made. -/
theorem makeDirsWithin_clear (hroot : t.isDir cwd root = true) (n : Nat)
    (hnames : ∀ s ∈ names, Part s) (hf : Fit (root.joinAll names))
    (hc : t.Clear (destination cwd root.components) names) (hn : names.length ≤ n) :
    (makeDirsWithin cwd n t (root.joinAll names).tidied).2 = .ok () := by
  induction n generalizing names with
  | zero =>
    obtain rfl := List.length_eq_zero_iff.mp (Nat.le_zero.mp hn)
    rw [joinAll, List.foldl_nil, makeDirsWithin_of_isDir (isDir_tidied hroot)]
  | succ n ih =>
    rcases names.eq_nil_or_concat' with rfl | ⟨init, s, rfl⟩
    · rw [joinAll, List.foldl_nil, makeDirsWithin_of_isDir (isDir_tidied hroot)]
    · have hs : Part s := hnames s (by simp)
      have hinit : ∀ r ∈ init, Part r := fun r hr => hnames r (by simp [hr])
      have hne := text_ne_empty_of_isDir hroot
      have hcinit := hc.shorter (List.prefix_append init [s])
      rw [tidied_joinAll hs]
      -- the new directory can be made at once, or after the way to it
      rcases locate_clear hroot hnames hf hcinit with hdir | hmissing
      · rcases makeDir_last hs hinit hroot hdir hf hc with h | ⟨u, h⟩
        · rw [makeDirsWithin_of_isDir h]
        · rw [makeDirsWithin, if_neg (text_joinAll_ne_empty hne _), h]
      · have hmake : t.makeDir cwd (root.joinAll (init ++ [s])) = .error .notFound := by
          simp only [makeDir, hmissing]
        have hpaves := paves_makeDirsWithin hroot n hinit
        have hok := ih hinit (fit_init hne hs hf) hcinit (by simpa using hn)
        have hdir := (makeDirsWithin_spec cwd n t (root.joinAll init).tidied).2 hok
          (text_tidied_ne_empty _)
        rw [makeDirsWithin, if_neg (text_joinAll_ne_empty hne _), hmake, parent?_joinAll hne hs]
        simp only
        cases hparent : makeDirsWithin cwd n t (root.joinAll init).tidied with
        | mk u r =>
          rw [hparent] at hpaves hok hdir
          obtain rfl : r = .ok () := hok
          have hroot' := isDir_kept hpaves.roomier.dirs hroot
          rcases makeDir_last hs hinit hroot' (isDir_of_tidied hroot' hinit hdir) hf
            (hpaves.clear hc) with h | ⟨u', h⟩
          · simp only [makeDir_of_isDir h, unlessDir, h, if_true]
          · simp only [h]

end OnDemand.FileTree
