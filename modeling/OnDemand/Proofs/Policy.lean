import Mathlib.Data.List.Forall2
import OnDemand.Policy
import OnDemand.Proofs.Text

/-!
# Platform names under other spellings

A policy compares the texts of names, while sources and artifacts are found by their segments. So
two spellings of the same segments can fall on different sides of a platform prefix. The policies in
which none does are those whose platform list catches every respelling of its prefixes that the
remote list lets in.
-/

namespace OnDemand

/-! ## Texts with the same pieces -/

namespace Text

variable {sep : Char → Bool}

/-- Two characters that make no difference to the pieces of a text. -/
def Alike (sep : Char → Bool) (c d : Char) : Prop :=
  c = d ∨ sep c = true ∧ sep d = true

theorem Alike.symm {c d : Char} : Alike sep c d → Alike sep d c
  | .inl h => .inl h.symm
  | .inr ⟨hc, hd⟩ => .inr ⟨hd, hc⟩

theorem Alike.eq_of_not_sep {c d : Char} (h : Alike sep c d) (hc : sep c = false) : c = d := by
  rcases h with rfl | ⟨hs, _⟩
  · rfl
  · rw [hc] at hs
    cases hs

theorem forall₂_alike_refl (a : List Char) : List.Forall₂ (Alike sep) a a :=
  List.forall₂_same.2 fun _ _ => .inl rfl

theorem forall₂_alike_symm {a b : List Char} (h : List.Forall₂ (Alike sep) a b) :
    List.Forall₂ (Alike sep) b a :=
  (h.imp fun _ _ => Alike.symm).flip

theorem pieces_cons_sep {c : Char} (hc : sep c = true) (cs : List Char) :
    pieces sep (c :: cs) = [] :: pieces sep cs := by
  simp [pieces, hc]

theorem pieces_cons_not_sep {c : Char} (hc : sep c = false) (cs : List Char) :
    ∃ p ps, pieces sep cs = p :: ps ∧ pieces sep (c :: cs) = (c :: p) :: ps := by
  obtain ⟨p, ps, h⟩ := List.exists_cons_of_ne_nil (pieces_ne_nil sep cs)
  exact ⟨p, ps, h, by simp [pieces, hc, h]⟩

theorem pieces_nil_ne_cons (c : Char) (cs : List Char) : pieces sep [] ≠ pieces sep (c :: cs) := by
  intro h
  by_cases hc : sep c = true
  · rw [pieces_cons_sep hc] at h
    exact pieces_ne_nil sep cs (List.cons.inj h).2.symm
  · obtain ⟨p, ps, _, hp⟩ := pieces_cons_not_sep (eq_false_of_ne_true hc) cs
    rw [hp] at h
    cases (List.cons.inj h).1

/-- Two texts have the same pieces exactly when they differ in their separators only. -/
theorem pieces_eq_iff : ∀ {a b : List Char},
    pieces sep a = pieces sep b ↔ List.Forall₂ (Alike sep) a b
  | [], [] => by simp
  | [], d :: ds => by simp [pieces_nil_ne_cons]
  | c :: cs, [] => by simp [(pieces_nil_ne_cons c cs).symm]
  | c :: cs, d :: ds => by
    rw [List.forall₂_cons, ← pieces_eq_iff]
    by_cases hc : sep c = true <;> by_cases hd : sep d = true
    · simp [pieces_cons_sep, Alike, hc, hd]
    · -- a piece has ended on one side and goes on on the other
      have hd := eq_false_of_ne_true hd
      obtain ⟨q, qs, _, hq⟩ := pieces_cons_not_sep hd ds
      rw [pieces_cons_sep hc, hq]
      constructor
      · intro h
        cases (List.cons.inj h).1
      · intro h
        rw [← h.1.symm.eq_of_not_sep hd, hd] at hc
        cases hc
    · have hc := eq_false_of_ne_true hc
      obtain ⟨p, ps, _, hp⟩ := pieces_cons_not_sep hc cs
      rw [pieces_cons_sep hd, hp]
      constructor
      · intro h
        cases (List.cons.inj h).1
      · intro h
        rw [← h.1.eq_of_not_sep hc, hc] at hd
        cases hd
    · have hc := eq_false_of_ne_true hc
      have hd := eq_false_of_ne_true hd
      obtain ⟨p, ps, hp, hpc⟩ := pieces_cons_not_sep hc cs
      obtain ⟨q, qs, hq, hqd⟩ := pieces_cons_not_sep hd ds
      rw [hpc, hqd, hp, hq]
      simp [Alike, hc, and_assoc]

end Text

/-! ## Spellings of a name -/

namespace Name

/-- One text is another with some separators exchanged. -/
def Respelled (q r : String) : Prop :=
  List.Forall₂ (Text.Alike isSeparator) q.toList r.toList

theorem Respelled.symm {q r : String} (h : Respelled q r) : Respelled r q :=
  Text.forall₂_alike_symm h

theorem segmentsOf_eq_iff {a b : String} : segmentsOf a = segmentsOf b ↔ Respelled a b := by
  unfold segmentsOf piecesOf Respelled
  rw [← Text.pieces_eq_iff]
  refine List.map_inj_right ?_
  intro x y h
  simpa using congrArg String.toList h

theorem WellFormed.respelled {a b : String} (ha : WellFormed a) (h : Respelled a b) :
    WellFormed b := by
  constructor
  · intro c hc
    obtain ⟨i, hi, rfl⟩ := List.getElem_of_mem hc
    have hlt : i < a.toList.length := by rwa [h.length_eq]
    rcases h.get hlt hi with he | ⟨_, hs⟩
    · rw [List.get_eq_getElem, List.get_eq_getElem] at he
      rw [← he]
      exact ha.1 _ (List.getElem_mem _)
    · rw [List.get_eq_getElem] at hs
      unfold isSeparator at hs
      rcases Bool.or_eq_true_iff.mp hs with hs | hs
      · rw [beq_iff_eq.mp hs]
        decide
      · rw [beq_iff_eq.mp hs]
        decide
  · rw [← segmentsOf_eq_iff.mpr h]
    exact ha.2

theorem startsWith_iff {n : Name} {q : String} :
    n.startsWith q = true ↔ q.toList <+: n.text.toList := by
  simp [startsWith]

/-- A name begins with a text up to the choice of separators. -/
def Resembles (n : Name) (q : String) : Prop :=
  ∃ r, Respelled q r ∧ n.startsWith r = true

theorem Resembles.of_segments {n m : Name} (h : n.segments = m.segments) {q : String}
    (hq : n.startsWith q = true) : m.Resembles q := by
  have hall : Respelled n.text m.text := segmentsOf_eq_iff.mp h
  obtain ⟨rest, hrest⟩ := startsWith_iff.mp hq
  refine ⟨String.ofList (m.text.toList.take q.toList.length), ?_, ?_⟩
  · unfold Respelled at *
    rw [← hrest] at hall
    simpa using List.forall₂_take q.toList.length hall
  · rw [startsWith_iff]
    simpa using List.take_prefix _ _

theorem Resembles.exists_spelling {m : Name} {q : String} (h : m.Resembles q) :
    ∃ n : Name, n.segments = m.segments ∧ n.startsWith q = true := by
  obtain ⟨r, hr, hm⟩ := h
  obtain ⟨rest, hrest⟩ := startsWith_iff.mp hm
  have hall : Respelled (String.ofList (q.toList ++ rest)) m.text := by
    unfold Respelled at *
    rw [String.toList_ofList, ← hrest]
    exact List.rel_append hr (Text.forall₂_alike_refl rest)
  refine ⟨⟨_, m.wellFormed.respelled hall.symm⟩, segmentsOf_eq_iff.mpr hall, ?_⟩
  rw [startsWith_iff, String.toList_ofList]
  exact List.prefix_append _ _

end Name

/-! ## What a policy refuses -/

namespace Policy

variable {p : Policy} {n m : Name}

theorem isRemote_eq_false (h : p.platform.any m.startsWith = true) : p.isRemote m = false := by
  simp [isRemote, h]

theorem isRemote_iff : p.isRemote m = true ↔
    p.platform.any m.startsWith = false ∧ p.remote.any m.startsWith = true := by
  simp [isRemote]

/-- The policy refuses every spelling of the names under its platform prefixes. -/
def Guards (p : Policy) : Prop :=
  ∀ n m : Name, n.segments = m.segments → p.platform.any n.startsWith = true →
    p.isRemote m = false

/-- The platform list has each prefix in all its spellings. -/
def Spelled (p : Policy) : Prop :=
  ∀ q ∈ p.platform, ∀ r, Name.Respelled q r → r ∈ p.platform

theorem guards_iff_resembling : p.Guards ↔
    ∀ m : Name, ∀ q ∈ p.platform, m.Resembles q → p.remote.any m.startsWith = true →
      p.platform.any m.startsWith = true := by
  constructor
  · intro h m q hq hm hremote
    obtain ⟨n, hseg, hn⟩ := hm.exists_spelling
    have hfalse := h n m hseg (List.any_eq_true.mpr ⟨q, hq, hn⟩)
    by_contra hno
    have htrue := isRemote_iff.mpr ⟨eq_false_of_ne_true hno, hremote⟩
    rw [hfalse] at htrue
    cases htrue
  · intro h n m hseg hn
    obtain ⟨q, hq, hn⟩ := List.any_eq_true.mp hn
    by_cases hremote : p.remote.any m.startsWith = true
    · exact isRemote_eq_false (h m q hq (.of_segments hseg hn) hremote)
    · simp [isRemote, hremote]

theorem Spelled.guards (h : p.Spelled) : p.Guards := by
  rw [guards_iff_resembling]
  rintro m q hq ⟨r, hr, hm⟩ _
  exact List.any_eq_true.mpr ⟨r, h q hq r hr, hm⟩

theorem isRemote_of_take {q : String} (hq : q ∈ p.platform) (hn : n.startsWith q = true)
    (h : m.text.toList.take q.toList.length = n.text.toList.take q.toList.length) :
    p.isRemote m = false := by
  refine isRemote_eq_false (List.any_eq_true.mpr ⟨q, hq, ?_⟩)
  have htake := List.prefix_iff_eq_take.mp (Name.startsWith_iff.mp hn)
  rw [Name.startsWith_iff, htake, ← h]
  exact List.take_prefix _ _

/-- Platform names stay refused under another spelling exactly when every remote name that begins
like a platform prefix also begins with one as it is written. A list that has its prefixes in all
their spellings is enough, and so is one name that keeps its separators within the prefix. -/
theorem respelled_refused (p : Policy) :
    (p.Guards ↔ ∀ m : Name, ∀ q ∈ p.platform, m.Resembles q →
      p.remote.any m.startsWith = true → p.platform.any m.startsWith = true) ∧
    (p.Spelled → p.Guards) ∧
    ∀ n m : Name, n.segments = m.segments → ∀ q ∈ p.platform, n.startsWith q = true →
      m.text.toList.take q.toList.length = n.text.toList.take q.toList.length →
      p.isRemote m = false :=
  ⟨guards_iff_resembling, Spelled.guards, fun _ _ _ _ hq hn h => isRemote_of_take hq hn h⟩

theorem both_spellings_refused :
    (Policy.mk ["x"] ["x/", "x."]).Spelled ∧ (Policy.mk ["x"] ["x/", "x."]).Guards := by
  have hspelled : (Policy.mk ["x"] ["x/", "x."]).Spelled := by
    have hsep : ∀ d, Name.isSeparator d = true → String.ofList ['x', d] ∈ ["x/", "x."] := by
      intro d hd
      unfold Name.isSeparator at hd
      rcases Bool.or_eq_true_iff.mp hd with hd | hd
      · rw [beq_iff_eq.mp hd]
        decide
      · rw [beq_iff_eq.mp hd]
        decide
    have hends : ∀ c, Name.isSeparator c = true → ∀ r,
        List.Forall₂ (Text.Alike Name.isSeparator) ['x', c] r.toList → r ∈ ["x/", "x."] := by
      intro c hc r hr
      obtain ⟨x, ds, hx, hrest, htext⟩ := List.forall₂_cons_left_iff.mp hr
      obtain ⟨d, es, hd, hnil, rfl⟩ := List.forall₂_cons_left_iff.mp hrest
      obtain rfl := List.forall₂_nil_left_iff.mp hnil
      obtain rfl := hx.eq_of_not_sep (by decide)
      rw [← String.ofList_toList (s := r), htext]
      rcases hd with rfl | ⟨_, hd⟩
      · exact hsep c hc
      · exact hsep d hd
    intro q hq r hr
    rcases List.mem_pair.mp hq with rfl | rfl
    · exact hends '/' (by decide) r hr
    · exact hends '.' (by decide) r hr
  exact ⟨hspelled, (respelled_refused _).2.1 hspelled⟩

/-- A platform list with one spelling leaves the other to the remote list. -/
theorem other_spelling_fetched :
    ¬ ∀ p : Policy, ∀ n m : Name, n.segments = m.segments → p.platform.any n.startsWith = true →
      p.isRemote m = false := by
  intro h
  have := h ⟨["remote/", "remote."], ["remote/std/"]⟩
    ⟨"remote/std/String", by decide +kernel⟩ ⟨"remote.std.String", by decide +kernel⟩
    (by decide +kernel) (by decide +kernel)
  exact absurd this (by decide +kernel)

end Policy

end OnDemand
