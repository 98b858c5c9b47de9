import OnDemand.Proofs.Path

/-!
# Paths below a root

A path lies below a root if it goes on from there through names. Parts that are joined to a root lead
below it, whatever the root is (`components_joinAll_parts`). Another extension changes the last component
and no other (`components_replaceExtension`), so it never makes a path longer. Without its extension a path
keeps all that comes before its last component (`prefix_dropExtension`).
-/

namespace OnDemand.Path

variable {p q root : Path} {s e : String} {parts : List String} {cs before last : List Char}

/-- A path that goes on from another through names, one at least. -/
def Below (p root : Path) : Prop :=
  ∃ parts : List String, parts ≠ [] ∧ (∀ s ∈ parts, Part s) ∧
    p.components = root.components ++ parts.map .name

theorem not_below_of_length (h : p.components.length ≤ root.components.length) : ¬ p.Below root := by
  rintro ⟨parts, hne, -, hp⟩
  have hlen := congrArg List.length hp
  have hpos := List.length_pos_iff.mpr hne
  rw [List.length_append, List.length_map] at hlen
  omega

/-! ## Components -/

theorem mem_filterMap_ofPiece {c : Component}
    (h : c ∈ (Text.pieces isSlash cs).filterMap Component.ofPiece) :
    c = .up ∨ ∃ s, Part s ∧ c = .name s := by
  obtain ⟨piece, hpiece, hc⟩ := List.mem_filterMap.mp h
  unfold Component.ofPiece at hc
  split at hc
  · cases hc
  · rename_i hne
    split at hc
    · cases hc
    · rename_i hhere
      split at hc
      · exact Or.inl (Option.some.inj hc).symm
      · rename_i hup
        refine Or.inr ⟨String.ofList piece, ⟨fun x hx => ?_, ?_, ?_, ?_⟩, (Option.some.inj hc).symm⟩
        · rw [String.toList_ofList] at hx
          simpa [isSlash] using Text.not_sep_of_mem_pieces isSlash cs piece hpiece x hx
        · exact fun h0 => hne (by simpa using congrArg String.toList h0)
        · exact fun h0 => hhere (by simpa using congrArg String.toList h0)
        · exact fun h0 => hup (by simpa using congrArg String.toList h0)

theorem exists_components (p : Path) : ∃ start rest, p.components = start ++ rest ∧
    (start = [] ∨ start = [.root] ∨ start = [.here]) ∧
    ∀ c ∈ rest, c = .up ∨ ∃ s, Part s ∧ c = .name s := by
  unfold components componentsOf
  refine ⟨_, _, rfl, ?_, fun c hc => mem_filterMap_ofPiece hc⟩
  split
  · exact Or.inr (Or.inl rfl)
  · split
    · exact Or.inr (Or.inr rfl)
    · exact Or.inl rfl

theorem part_of_mem_components (h : .name s ∈ p.components) : Part s := by
  obtain ⟨start, rest, hp, hstart, hrest⟩ := exists_components p
  rw [hp] at h
  rcases List.mem_append.mp h with h | h
  · rcases hstart with rfl | rfl | rfl <;> simp at h
  · rcases hrest _ h with h | ⟨r, hr, h⟩
    · cases h
    · exact (Component.name.inj h) ▸ hr

theorem not_here_of_components {first : Component} {rest : List Component}
    (h : p.components = first :: rest) : .here ∉ rest := by
  obtain ⟨start, more, hp, hstart, hmore⟩ := exists_components p
  have hhere : .here ∉ more := fun hmem => by
    rcases hmore _ hmem with h | ⟨_, -, h⟩ <;> cases h
  rw [hp] at h
  rcases hstart with rfl | rfl | rfl
  · rw [List.nil_append] at h
    exact fun hmem => hhere (h ▸ List.mem_cons_of_mem _ hmem)
  · exact (List.cons.inj h).2 ▸ hhere
  · exact (List.cons.inj h).2 ▸ hhere

theorem eq_empty_of_components (h : p.components = []) : p = ⟨""⟩ := by
  apply eq_of_toList_eq
  unfold components componentsOf at h
  cases hcs : p.text.toList with
  | nil => rfl
  | cons c cs =>
    rw [hcs] at h
    obtain ⟨hstart, hpieces⟩ := List.append_eq_nil_iff.mp h
    obtain ⟨q, qs, hq⟩ := List.exists_cons_of_ne_nil (Text.pieces_ne_nil isSlash cs)
    -- a path that begins with a slash has the root as a component
    have hslash : c ≠ '/' := by
      rintro rfl
      simp at hstart
    have hfirst : Text.pieces isSlash (c :: cs) = (c :: q) :: qs := by
      simp [Text.pieces, isSlash, hslash, hq]
    have hhere : c :: q ≠ ['.'] := by
      intro hq'
      rw [hfirst, hq'] at hstart
      simp [hslash] at hstart
    rw [hfirst, List.filterMap_cons] at hpieces
    unfold Component.ofPiece at hpieces
    rw [if_neg (List.cons_ne_nil _ _), if_neg hhere] at hpieces
    split at hpieces
    · rename_i hnone
      split at hnone <;> cases hnone
    · cases hpieces

/-! ## Leading paths -/

theorem after_eq_some {way : List Component} :
    p.after? root = some way ↔ p.components = root.components ++ way := by
  unfold after?
  constructor
  · intro h
    split at h
    · rename_i hpre
      obtain ⟨rest, hrest⟩ := List.isPrefixOf_iff_prefix.mp hpre
      obtain rfl := Option.some.inj h
      rw [← hrest, List.drop_left]
    · cases h
  · intro h
    rw [if_pos (List.isPrefixOf_iff_prefix.mpr ⟨way, h.symm⟩), h, List.drop_left]

theorem after_eq_none (h : p.after? root = none) : ¬ root.components <+: p.components := by
  rintro ⟨way, hway⟩
  rw [after_eq_some.mpr hway.symm] at h
  cases h

/-! ## Joining -/

theorem components_part (hs : Part s) : components ⟨s⟩ = [.name s] := by
  have hpieces : Text.pieces isSlash s.toList = [s.toList] := pieces_part hs.noSlash
  have hhead : s.toList.head? ≠ some '/' := fun h => hs.noSlash _ (List.mem_of_head? h) rfl
  have hhere : s.toList ≠ ['.'] := fun he => hs.notHere (String.toList_inj.mp he)
  unfold components componentsOf
  simp [hpieces, hhead, hhere, hs.ofPiece]

/-- The components of a path that goes further down, also from the empty path. -/
theorem components_joinAll_parts (p : Path) (hs : ∀ s ∈ parts, Part s) :
    (p.joinAll parts).components = p.components ++ parts.map .name := by
  by_cases hp : p.text = ""
  · obtain rfl : p = ⟨""⟩ := eq_of_toList_eq (by rw [hp])
    cases parts with
    | nil => rfl
    | cons s parts =>
      have hfirst : (Path.mk "").join ⟨s⟩ = ⟨s⟩ := by
        apply eq_of_toList_eq
        rw [text_join (hs s (by simp)).relative]
        rfl
      rw [joinAll_cons, hfirst, components_joinAll (hs s (by simp)).nonempty
        fun r hr => hs r (by simp [hr]), components_part (hs s (by simp))]
      rfl
  · exact components_joinAll hp hs

theorem below_joinAll (p : Path) (hne : parts ≠ []) (hs : ∀ s ∈ parts, Part s) :
    (p.joinAll parts).Below p :=
  ⟨parts, hne, hs, components_joinAll_parts p hs⟩

/-! ## Extensions -/

theorem componentsOf_part (hb : before = [] ∨ ∃ ds, before = ds ++ ['/']) (hs : Part s) :
    componentsOf (before ++ s.toList) = componentsOf before ++ [.name s] := by
  obtain rfl | ⟨ds, rfl⟩ := hb
  · exact components_part hs
  · have hpieces : Text.pieces isSlash s.toList = [s.toList] := pieces_part hs.noSlash
    rw [List.append_assoc, List.singleton_append, componentsOf_slash, hpieces]
    simp [hs.ofPiece]

theorem splitLast_spec (h : splitLast cs = some (before, last)) :
    Part (String.ofList last) ∧ (before = [] ∨ ∃ ds, before = ds ++ ['/']) ∧
      componentsOf cs = componentsOf before ++ [.name (String.ofList last)] := by
  unfold splitLast at h
  simp only at h
  split at h
  · cases h
  · rename_i hlast
    simp only [Bool.or_eq_true, decide_eq_true_eq, not_or] at hlast
    obtain ⟨⟨hne, hhere⟩, hup⟩ := hlast
    obtain ⟨rfl, rfl⟩ := Prod.mk.inj (Option.some.inj h)
    -- what is cut off at the end is no component
    have hwhole := (componentsOf_dropTail cs.reverse).1 fun hnil => hne (by rw [hnil]; rfl)
    rw [List.reverse_reverse] at hwhole
    generalize dropTail cs.reverse = kept at hwhole hne hhere hup
    have hpart : Part (String.ofList (kept.takeWhile (· ≠ '/')).reverse) := by
      refine ⟨fun c hc => ?_, ?_, ?_, ?_⟩
      · rw [String.toList_ofList, List.mem_reverse] at hc
        simpa using List.all_eq_true.mp List.all_takeWhile c hc
      · exact fun h0 => hne (by simpa using congrArg String.toList h0)
      · exact fun h0 => hhere (by simpa using congrArg String.toList h0)
      · exact fun h0 => hup (by simpa using congrArg String.toList h0)
    have hclosed : (kept.dropWhile (· ≠ '/')).reverse = [] ∨
        ∃ ds, (kept.dropWhile (· ≠ '/')).reverse = ds ++ ['/'] := by
      cases hbefore : kept.dropWhile (· ≠ '/') with
      | nil => exact Or.inl rfl
      | cons c rest =>
        have hc := List.head?_dropWhile_not (· ≠ '/') kept
        rw [hbefore] at hc
        obtain rfl : c = '/' := by simpa using hc
        exact Or.inr ⟨rest.reverse, by simp⟩
    refine ⟨hpart, hclosed, ?_⟩
    rw [← hwhole, ← componentsOf_part hclosed hpart, String.toList_ofList, ← List.reverse_append,
      List.takeWhile_append_dropWhile]

theorem splitName_spec (hne : last ≠ []) :
    (splitName last).1 ≠ [] ∧ ∀ c ∈ (splitName last).1, c ∈ last := by
  unfold splitName
  simp only
  split
  · exact ⟨hne, fun c hc => hc⟩
  · rename_i hbefore
    simp only [Bool.or_eq_true, decide_eq_true_eq, not_or] at hbefore
    refine ⟨hbefore.2, fun c hc => ?_⟩
    have hc := (List.dropWhile_sublist _).mem (List.mem_reverse.mp ((List.dropLast_sublist _).mem hc))
    exact List.mem_reverse.mp hc

theorem part_append_extension (hne : s ≠ "") (hs : ∀ c ∈ s.toList, c ≠ '/') (he : e ≠ "")
    (hslash : ∀ c ∈ e.toList, c ≠ '/') : Part (s ++ "." ++ e) := by
  have hlen : 3 ≤ (s ++ "." ++ e).length := by
    have h1 := List.length_pos_iff.mpr (mt String.toList_eq_nil_iff.mp hne)
    have h2 := List.length_pos_iff.mpr (mt String.toList_eq_nil_iff.mp he)
    rw [← String.length_toList, text_append_dot, List.length_append, List.length_cons]
    omega
  refine ⟨fun c hc => ?_, ?_, ?_, ?_⟩
  · simp only [String.toList_append, List.mem_append] at hc
    rcases hc with (hc | hc) | hc
    · exact hs c hc
    · rintro rfl
      exact absurd hc (by decide)
    · exact hslash c hc
  · intro h
    rw [h] at hlen
    exact absurd hlen (by decide)
  · intro h
    rw [h] at hlen
    exact absurd hlen (by decide)
  · intro h
    rw [h] at hlen
    exact absurd hlen (by decide)

/-- Another extension leaves a path as it is, or gives it another last name. -/
theorem components_replaceExtension (p : Path) (he : e ≠ "") (hslash : ∀ c ∈ e.toList, c ≠ '/') :
    p.replaceExtension e = p ∨ ∃ init r s, p.components = init ++ [.name r] ∧
      (p.replaceExtension e).components = init ++ [.name s] := by
  unfold replaceExtension
  cases hsplit : splitLast p.text.toList with
  | none => exact Or.inl rfl
  | some split =>
    obtain ⟨before, last⟩ := split
    obtain ⟨hpart, hclosed, hcomponents⟩ := splitLast_spec hsplit
    have hne : last ≠ [] := fun h0 => hpart.nonempty (by rw [h0])
    obtain ⟨hstem, hsub⟩ := splitName_spec hne
    have hnew : Part (String.ofList (splitName last).1 ++ "." ++ e) := by
      refine part_append_extension (fun h0 => hstem ?_) (fun c hc => ?_) he hslash
      · simpa using congrArg String.toList h0
      · rw [String.toList_ofList] at hc
        exact hpart.noSlash c (by rw [String.toList_ofList]; exact hsub c hc)
    refine Or.inr ⟨componentsOf before, _, String.ofList (splitName last).1 ++ "." ++ e, hcomponents, ?_⟩
    rw [← componentsOf_part hclosed hnew]
    simp [components, he]

/-! ## Without an extension -/

theorem suffix_dropTail {a b : Char} (ha : a ≠ '/') (hb : b ≠ '/') (m z : List Char) :
    a :: b :: z <:+ dropTail (m ++ a :: b :: z) := by
  generalize hcs : m ++ a :: b :: z = cs
  fun_induction dropTail cs generalizing m with
  | case1 cs ih =>
    cases m with
    | nil => exact absurd (List.cons.inj hcs).1 ha
    | cons c m => exact ih m (List.cons.inj hcs).2
  | case2 cs ih =>
    cases m with
    | nil => exact absurd (List.cons.inj (List.cons.inj hcs).2).1 hb
    | cons c m =>
      cases m with
      | nil => exact absurd (List.cons.inj (List.cons.inj hcs).2).1 ha
      | cons d m => exact ih m (List.cons.inj (List.cons.inj hcs).2).2
  | case3 cs => exact ⟨m, hcs⟩

theorem splitLast_prefix (h : splitLast cs = some (before, last)) : before ++ last <+: cs := by
  unfold splitLast at h
  simp only at h
  split at h
  · cases h
  · obtain ⟨rfl, rfl⟩ := Prod.mk.inj (Option.some.inj h)
    rw [← List.reverse_append, List.takeWhile_append_dropWhile]
    simpa using List.reverse_prefix.mpr (dropTail_suffix cs.reverse)

theorem splitName_some {stem ext : List Char} (h : splitName last = (stem, some ext)) :
    last = stem ++ '.' :: ext ∧ stem ≠ [] := by
  unfold splitName at h
  simp only at h
  split at h
  · cases h
  · rename_i hcut
    simp only [Bool.or_eq_true, decide_eq_true_eq, not_or] at hcut
    obtain ⟨rfl, hext⟩ := Prod.mk.inj h
    obtain rfl := Option.some.inj hext
    refine ⟨?_, hcut.2⟩
    cases hdrop : last.reverse.dropWhile (· ≠ '.') with
    | nil => exact absurd (by rw [hdrop]; rfl) hcut.2
    | cons c rest =>
      have hc := List.head?_dropWhile_not (· ≠ '.') last.reverse
      rw [hdrop] at hc
      obtain rfl : c = '.' := by simpa using hc
      have hlast := List.takeWhile_append_dropWhile (p := (· ≠ '.')) (l := last.reverse)
      rw [hdrop] at hlast
      have := congrArg List.reverse hlast
      rw [List.reverse_reverse] at this
      simpa using this.symm

/-- A beginning that ends in a slash and is followed by what counts stands before the last component. -/
theorem prefix_of_splitLast {front rest : List Char} (hf : front = [] ∨ ∃ ds, front = ds ++ ['/'])
    (hkept : dropTail cs.reverse = rest ++ front.reverse) (h : splitLast cs = some (before, last)) :
    front <+: before := by
  have hstop : front.reverse.dropWhile (· ≠ '/') = front.reverse := by
    obtain rfl | ⟨ds, rfl⟩ := hf <;> simp
  unfold splitLast at h
  simp only at h
  split at h
  · cases h
  · obtain ⟨rfl, -⟩ := Prod.mk.inj (Option.some.inj h)
    rw [hkept, List.dropWhile_append, hstop]
    split
    · simp
    · simp

theorem prefix_replaceExtension (hb : before = [] ∨ ∃ ds, before = ds ++ ['/']) {stem : List Char}
    (hne : stem ≠ []) (hslash : ∀ c ∈ stem, c ≠ '/') (more : List Char) (e : String) :
    before <+: (replaceExtension ⟨String.ofList (before ++ (stem ++ '.' :: more))⟩ e).text.toList := by
  obtain ⟨b, bs, hstem⟩ := List.exists_cons_of_ne_nil (mt List.reverse_eq_nil_iff.mp hne)
  have hb' : b ≠ '/' := hslash b (List.mem_reverse.mp (by rw [hstem]; simp))
  have hreverse : (before ++ (stem ++ '.' :: more)).reverse =
      more.reverse ++ '.' :: b :: (bs ++ before.reverse) := by
    rw [List.reverse_append, List.reverse_append, List.reverse_cons, hstem]
    simp
  obtain ⟨u, hu⟩ := suffix_dropTail (a := '.') (by decide) hb' more.reverse (bs ++ before.reverse)
  have hkept : dropTail (before ++ (stem ++ '.' :: more)).reverse =
      (u ++ '.' :: b :: bs) ++ before.reverse := by
    rw [hreverse, ← hu]
    simp
  unfold replaceExtension
  simp only [String.toList_ofList]
  split
  · rw [String.toList_ofList]
    exact List.prefix_append _ _
  · rename_i before' last' hsplit
    refine (prefix_of_splitLast hb hkept hsplit).trans ?_
    simp only [String.toList_append, String.toList_ofList, List.append_assoc]
    exact List.prefix_append _ _

theorem componentsOf_prefix (hb : before = [] ∨ ∃ ds, before = ds ++ ['/']) (h : before <+: cs) :
    componentsOf before <+: componentsOf cs := by
  obtain ⟨rest, rfl⟩ := h
  obtain rfl | ⟨ds, rfl⟩ := hb
  · exact List.nil_prefix
  · rw [List.append_assoc, List.singleton_append, componentsOf_slash ds rest]
    exact List.prefix_append _ _

/-- Without its extension a path keeps all components but for the last. -/
theorem prefix_dropExtension (p : Path) : p.dropExtension = p ∨ ∃ init s,
    p.components = init ++ [.name s] ∧ init <+: p.dropExtension.components := by
  cases hsplit : splitLast p.text.toList with
  | none =>
    left
    unfold dropExtension extension? replaceExtension
    rw [hsplit]
    rfl
  | some split =>
    obtain ⟨before, last⟩ := split
    obtain ⟨hpart, hclosed, hcomponents⟩ := splitLast_spec hsplit
    refine Or.inr ⟨componentsOf before, _, hcomponents, componentsOf_prefix hclosed ?_⟩
    obtain ⟨tail, htail⟩ := splitLast_prefix hsplit
    unfold dropExtension extension?
    rw [hsplit, Option.bind_some]
    cases hname : splitName last with
    | mk stem ext =>
      cases ext with
      | none =>
        simp only [Option.map_none]
        unfold replaceExtension
        rw [hsplit]
        simp
      | some ext =>
        obtain ⟨rfl, hne⟩ := splitName_some hname
        simp only [Option.map_some]
        -- the cut takes as many characters as the extension has, so it stops behind the point
        have hcut : p.text.toList.take (p.text.length - (String.ofList ext).length) =
            before ++ (stem ++ '.' :: (ext ++ tail).take tail.length) := by
          have hsplit : p.text.toList = (before ++ (stem ++ ['.'])) ++ (ext ++ tail) := by
            rw [← htail]
            simp
          have hlen : p.text.length - (String.ofList ext).length =
              (before ++ (stem ++ ['.'])).length + tail.length := by
            rw [← String.length_toList, hsplit, String.length_ofList]
            simp only [List.length_append]
            omega
          rw [hlen, hsplit, List.take_length_add_append]
          simp
        rw [hcut]
        refine prefix_replaceExtension hclosed hne (fun c hc => ?_) _ ""
        exact hpart.noSlash c (by rw [String.toList_ofList]; exact List.mem_append_left _ hc)

end OnDemand.Path
