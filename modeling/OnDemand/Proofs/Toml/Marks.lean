import OnDemand.Proofs.Toml.Document
import OnDemand.Proofs.Text

/-!
# Where keys are written

A text is gone through once more, as it is read, and each part of a key that is come upon gives a
mark: the path that ends with this part, and the text from there on. Every key of the document that
the text describes has a mark (`read_sound`), and at each mark the last part of its path can be read
(`on_of_mem_marks`), so that it stands in the line of the mark, if it is written without escapes
(`holds_lineOf`). Keys inside arrays are no keys of the document and have none.
-/

namespace OnDemand.Toml

open Fields

/-- A key where it is written: the path that ends with it, and the text that begins with it. -/
structure Mark where
  path : List String
  rest : List Char
deriving DecidableEq

def keyMarks : Nat → List String → List Char → List Mark
  | 0, _, _ => []
  | n + 1, above, cs =>
    match readPart (skipSpace cs) with
    | none => []
    | some (part, rest) =>
      ⟨above ++ [part], skipSpace cs⟩ ::
        match skipSpace rest with
        | '.' :: rest => keyMarks n (above ++ [part]) rest
        | _ => []

def assignmentMarks (marks : List String → List Char → List Mark) (above : List String)
    (cs : List Char) : List Mark :=
  keyMarks keyLimit above cs ++
    match readKey cs with
    | some (k, '=' :: rest) => marks (above ++ k.parts) (skipSpace rest)
    | _ => []

def memberMarks (value : Reader Value) (marks : List String → List Char → List Mark)
    (above : List String) : Nat → List Char → List Mark
  | 0, _ => []
  | n + 1, cs =>
    assignmentMarks marks above cs ++
      match readAssignment value cs with
      | none => []
      | some (_, rest) =>
        match skipSpace rest with
        | ',' :: rest => memberMarks value marks above n rest
        | _ => []

def valueMarks : Nat → List String → List Char → List Mark
  | n + 1, above, '\x7b' :: cs =>
    memberMarks (readValueWithin n) (valueMarks n) above (skipSpace cs).length (skipSpace cs)
  | _, _, _ => []

/-- The keys of a statement, with the table that assignments go to. -/
def statementMarks (here : List String) : List Char → List Mark
  | '[' :: '[' :: cs => keyMarks keyLimit [] cs
  | '[' :: cs => keyMarks keyLimit [] cs
  | cs => assignmentMarks (valueMarks nestingLimit) here cs

def lineMarks : Nat → List String → List Char → List Mark
  | 0, _, _ => []
  | n + 1, here, cs =>
    match afterLine? cs with
    | some rest => lineMarks n here rest
    | none =>
      statementMarks here (skipSpace cs) ++
        match readStatement (skipSpace cs) with
        | none => []
        | some (s, rest) =>
          match afterLine? rest with
          | none => []
          | some rest => lineMarks n (s.after here) rest

def marks (text : String) : List Mark :=
  let cs := dropMark text.toList
  lineMarks (cs.length + 1) [] cs

def Written (text : String) (path : List String) : Prop :=
  ∃ m ∈ marks text, m.path = path

/-! ## Every key has a mark -/

variable {S : List String → Prop} {above here : List String} {cs rest : List Char}

/-- All keys that were come upon stand where they may. -/
def Covers (S : List String → Prop) (ms : List Mark) : Prop :=
  ∀ m ∈ ms, S m.path

theorem Covers.left {ms ms' : List Mark} (h : Covers S (ms ++ ms')) : Covers S ms :=
  fun m hm => h m (List.mem_append_left _ hm)

theorem Covers.right {ms ms' : List Mark} (h : Covers S (ms ++ ms')) : Covers S ms' :=
  fun m hm => h m (List.mem_append_right _ hm)

theorem Fields.Along.cons {key : String} {path : List String} (hkey : S [key])
    (h : Along (fun p => S (key :: p)) path) : Along S (key :: path) := by
  rintro p hne hpre
  obtain ⟨x, p, rfl⟩ := List.exists_cons_of_ne_nil hne
  obtain ⟨rfl, hpre'⟩ := List.cons_prefix_cons.mp hpre
  by_cases hp : p = []
  · subst hp
    exact hkey
  · exact h p hp hpre'

theorem along_of_readKeyWithin : ∀ {n : Nat} {above : List String} {cs rest : List Char} {k : Key},
    Covers S (keyMarks n above cs) → readKeyWithin n cs = some (k, rest) →
    Along (fun p => S (above ++ p)) k.parts
  | n + 1, above, cs, rest, k, hcovers, h => by
    rw [readKeyWithin] at h
    rw [keyMarks] at hcovers
    split at h
    · cases h
    · rename_i part cs' hpart
      simp only [hpart] at hcovers
      have hfirst : S (above ++ [part]) := hcovers _ List.mem_cons_self
      split at h
      · rename_i ds hds
        obtain ⟨⟨k', rest'⟩, hk', hk⟩ := Option.map_eq_some_iff.mp h
        cases hk
        simp only [hds] at hcovers
        have htail := along_of_readKeyWithin (fun m hm => hcovers m (List.mem_cons_of_mem _ hm)) hk'
        have hparts : (⟨part :: k'.path, k'.last⟩ : Key).parts = part :: k'.parts := rfl
        rw [hparts]
        exact .cons hfirst (by simpa using htail)
      · cases h
        exact .cons hfirst fun p hne hpre => absurd (List.prefix_nil.mp hpre) hne

section
variable {value : Reader Value} {ms : List String → List Char → List Mark}
  (hvalue : ∀ above cs v rest, Covers S (ms above cs) → value cs = some (v, rest) →
    v.Sound fun p => S (above ++ p))
include hvalue

theorem readAssignment_sound {a : Key × Value} (hcovers : Covers S (assignmentMarks ms above cs))
    (h : readAssignment value cs = some (a, rest)) :
    AssignmentSound (fun p => S (above ++ p)) a := by
  unfold readAssignment at h
  split at h
  · rename_i k cs' hk
    obtain ⟨⟨v, rest'⟩, hv, ha⟩ := Option.map_eq_some_iff.mp h
    cases ha
    have hright := hcovers.right
    simp only [hk] at hright
    refine ⟨along_of_readKeyWithin hcovers.left hk, ?_⟩
    simpa using hvalue _ _ v rest hright hv
  · cases h

theorem readMembers_sound : ∀ {n : Nat} {cs rest : List Char} {as : List (Key × Value)},
    Covers S (memberMarks value ms above n cs) → readMembers value n cs = some (as, rest) →
    ∀ a ∈ as, AssignmentSound (fun p => S (above ++ p)) a
  | n + 1, cs, rest, as, hcovers, h => by
    rw [memberMarks] at hcovers
    rw [readMembers] at h
    split at h
    · cases h
    · rename_i a cs' ha
      have hfirst := readAssignment_sound hvalue hcovers.left ha
      have hright := hcovers.right
      simp only [ha] at hright
      split at h
      · cases h
        exact fun b hb => List.mem_singleton.mp hb ▸ hfirst
      · rename_i ds hds
        simp only [hds] at hright
        obtain ⟨⟨as', rest'⟩, has', has⟩ := Option.map_eq_some_iff.mp h
        cases has
        exact List.forall_mem_cons.mpr ⟨hfirst, readMembers_sound hright has'⟩
      · cases h

end

theorem readValueWithin_sound : ∀ {n : Nat}, n ≤ nestingLimit → ∀ above cs v rest,
    Covers S (valueMarks n above cs) → readValueWithin n cs = some (v, rest) →
    v.Sound fun p => S (above ++ p)
  | 0, hn, above, cs, v, rest, _, h => by
    have hscalar := isScalar_of_readScalar (readValueWithin_zero cs ▸ h)
    exact .leaf hscalar.isTable ⟨0, cs, rest, hn, h⟩
  | n + 1, hn, above, cs, v, rest, hcovers, h => by
    have ih := readValueWithin_sound (Nat.le_of_succ_le hn)
    have hreadable : v.Readable := ⟨n + 1, cs, rest, hn, h⟩
    rw [readValueWithin.eq_def] at h
    split at h
    · obtain ⟨x, -, hx⟩ := Option.map_eq_some_iff.mp h
      cases hx
      exact .leaf rfl hreadable
    · rename_i k ds heq
      cases heq
      rw [valueMarks] at hcovers
      unfold readBraces at h
      split at h
      · cases h
        exact sound_nil.table _
      · split at h
        · cases h
        · rename_i as rest' has
          obtain ⟨fs, hfs, hv⟩ := Option.map_eq_some_iff.mp h
          cases hv
          exact (ofAssignments_sound (readMembers_sound ih hcovers has) hfs).table _
    · exact .leaf (isScalar_of_readScalar h).isTable hreadable

theorem readStatement_sound {s : Statement} (hcovers : Covers S (statementMarks here cs))
    (h : readStatement cs = some (s, rest)) : s.Sound S here := by
  unfold readStatement at h
  split at h
  · split at h
    · rename_i hk
      cases h
      exact along_of_readKeyWithin hcovers hk
    · cases h
  · rename_i ds hne
    split at h
    · rename_i hk
      cases h
      rw [statementMarks] at hcovers
      · exact along_of_readKeyWithin hcovers hk
      · exact hne
    · cases h
  · rename_i hne hne'
    rw [statementMarks] at hcovers
    · obtain ⟨⟨⟨k, v⟩, rest'⟩, ha, hs⟩ := Option.map_eq_some_iff.mp h
      cases hs
      exact readAssignment_sound (readValueWithin_sound (Nat.le_refl _)) hcovers ha
    · exact hne
    · exact hne'

theorem readStatements_sound : ∀ {n : Nat} {here : List String} {cs : List Char}
    {ss : List Statement}, Covers S (lineMarks n here cs) → readStatements n cs = some ss →
    Statement.AllSound S here ss
  | _, _, [], ss, _, h => by
    rw [readStatements] at h
    cases h
    trivial
  | 0, _, _ :: _, ss, _, h => by
    rw [readStatements] at h
    · cases h
    · rintro ⟨⟩
  | n + 1, here, c :: cs, ss, hcovers, h => by
    rw [readStatements] at h
    · rw [lineMarks] at hcovers
      split at h
      · rename_i rest hline
        simp only [hline] at hcovers
        exact readStatements_sound hcovers h
      · rename_i hline
        simp only [hline] at hcovers
        split at h
        · cases h
        · rename_i s rest hs
          have hfirst := readStatement_sound hcovers.left hs
          -- the marks of the first line, then those of the rest
          have hright := hcovers.right
          simp only [hs] at hright
          split at h
          · cases h
          · rename_i rest' hline'
            simp only [hline'] at hright
            obtain ⟨ss', hss', rfl⟩ := Option.map_eq_some_iff.mp h
            exact ⟨hfirst, readStatements_sound hright hss'⟩
    · rintro ⟨⟩

/-- The document that a text describes holds no key twice, and each of its keys is written. -/
theorem read_sound {text : String} {doc : Fields} (h : read text = some doc) :
    doc.Sound (Written text) := by
  obtain ⟨ss, hss, hdoc⟩ := Option.bind_eq_some_iff.mp h
  exact ofStatements_sound (readStatements_sound (fun m hm => ⟨m, hm, rfl⟩) hss) hdoc

/-! ## At each mark a key can be read -/

/-- A mark in a text: what is read from there is the last part of its path. -/
structure Mark.On (cs : List Char) (m : Mark) : Prop where
  suffix : m.rest <:+ cs
  part : ∃ key rest, readPart m.rest = some (key, rest) ∧ m.path.getLast? = some key

theorem Mark.On.trans {m : Mark} {cs' : List Char} (h : m.On cs) (hcs : cs <:+ cs') : m.On cs' :=
  ⟨h.suffix.trans hcs, h.part⟩

theorem on_of_mem_keyMarks : ∀ {n : Nat} {above : List String} {cs : List Char},
    ∀ m ∈ keyMarks n above cs, m.On cs
  | 0, above, cs, m, hm => by cases hm
  | n + 1, above, cs, m, hm => by
    rw [keyMarks] at hm
    split at hm
    · cases hm
    · rename_i part rest hpart
      rcases List.mem_cons.mp hm with rfl | hm
      · exact ⟨skipSpace_suffix cs, part, rest, hpart, by simp⟩
      · split at hm
        · rename_i ds hds
          have hrest : skipSpace rest <:+ cs := (skipSpace_suffix rest).trans
            ((readPart_leaves _ _ hpart).trans (skipSpace_suffix cs))
          rw [hds] at hrest
          exact (on_of_mem_keyMarks m hm).trans ((List.suffix_cons _ _).trans hrest)
        · cases hm

section
variable {value : Reader Value} {ms : List String → List Char → List Mark}
  (hms : ∀ above cs, ∀ m ∈ ms above cs, m.On cs)
include hms

theorem on_of_mem_assignmentMarks : ∀ m ∈ assignmentMarks ms above cs, m.On cs := by
  rintro m hm
  rcases List.mem_append.mp hm with hm | hm
  · exact on_of_mem_keyMarks m hm
  · split at hm
    · rename_i k rest hk
      have hrest := readKeyWithin_leaves keyLimit cs _ hk
      exact (hms _ _ m hm).trans ((skipSpace_suffix rest).trans ((List.suffix_cons _ _).trans hrest))
    · cases hm

theorem on_of_mem_memberMarks (hvalue : ∀ cs, Leaves Prod.snd cs (value cs)) :
    ∀ {n : Nat} {cs : List Char}, ∀ m ∈ memberMarks value ms above n cs, m.On cs
  | 0, cs, m, hm => by cases hm
  | n + 1, cs, m, hm => by
    rw [memberMarks] at hm
    rcases List.mem_append.mp hm with hm | hm
    · exact on_of_mem_assignmentMarks hms m hm
    · split at hm
      · cases hm
      · rename_i a rest ha
        have hrest := (skipSpace_suffix rest).trans (readAssignment_leaves hvalue _ _ ha)
        split at hm
        · rename_i ds hds
          rw [hds] at hrest
          exact (on_of_mem_memberMarks hvalue m hm).trans ((List.suffix_cons _ _).trans hrest)
        · cases hm

end

theorem on_of_mem_valueMarks : ∀ {n : Nat} (above : List String) (cs : List Char),
    ∀ m ∈ valueMarks n above cs, m.On cs
  | 0, above, cs, m, hm => by cases hm
  | n + 1, above, cs, m, hm => by
    rw [valueMarks.eq_def] at hm
    split at hm
    · rename_i k _ ds heq
      cases heq
      have hon := on_of_mem_memberMarks on_of_mem_valueMarks (readValueWithin_leaves n) m hm
      exact hon.trans ((skipSpace_suffix ds).trans (List.suffix_cons _ _))
    · cases hm

theorem on_of_mem_statementMarks : ∀ m ∈ statementMarks here cs, m.On cs := by
  rintro m hm
  unfold statementMarks at hm
  split at hm
  · exact (on_of_mem_keyMarks m hm).trans ((List.suffix_cons _ _).trans (List.suffix_cons _ _))
  · exact (on_of_mem_keyMarks m hm).trans (List.suffix_cons _ _)
  · exact on_of_mem_assignmentMarks on_of_mem_valueMarks m hm

theorem on_of_mem_lineMarks : ∀ {n : Nat} {here : List String} {cs : List Char},
    ∀ m ∈ lineMarks n here cs, m.On cs
  | 0, here, cs, m, hm => by cases hm
  | n + 1, here, cs, m, hm => by
    rw [lineMarks] at hm
    split at hm
    · rename_i rest hline
      exact (on_of_mem_lineMarks m hm).trans (afterLine?_leaves cs _ hline)
    · rcases List.mem_append.mp hm with hm | hm
      · exact (on_of_mem_statementMarks m hm).trans (skipSpace_suffix cs)
      · split at hm
        · cases hm
        · rename_i s rest hs
          have hrest := (readStatement_leaves _ _ hs).trans (skipSpace_suffix cs)
          split at hm
          · cases hm
          · rename_i rest' hline
            exact (on_of_mem_lineMarks m hm).trans ((afterLine?_leaves rest _ hline).trans hrest)

theorem on_of_mem_marks {text : String} : ∀ m ∈ marks text, m.On (dropMark text.toList) :=
  on_of_mem_lineMarks

/-! ## Lines -/

def lineOf (text : String) (m : Mark) : Nat :=
  let cs := dropMark text.toList
  (cs.take (cs.length - m.rest.length)).count '\n' + 1

/-- The last key of a path is written on a line. -/
def DefinedOn (text : String) (path : List String) (n : Nat) : Prop :=
  ∃ m ∈ marks text, m.path = path ∧ lineOf text m = n

/-- A line with the letters of a key somewhere in it. -/
def Holds (text key : String) (n : Nat) : Prop :=
  ∃ i line, n = i + 1 ∧ (Text.lines text.toList)[i]? = some line ∧ key.toList <:+: line

/-- What stands in double quotes where a text begins, up to the next one. -/
def quoted : List Char → List Char
  | '"' :: cs => cs.takeWhile (· ≠ '"')
  | _ => []

/-- A mark at which the key has no escapes. -/
def Mark.Unescaped (m : Mark) : Prop :=
  '\\' ∉ quoted m.rest

instance (m : Mark) : Decidable m.Unescaped :=
  inferInstanceAs (Decidable ('\\' ∉ quoted m.rest))

theorem exists_before {c : Char} {o : Option (List Char × List Char)} {s : List Char}
    (h : before [c] o = some (s, rest)) : ∃ s', o = some (s', rest) ∧ s = c :: s' := by
  unfold before at h
  split at h
  · cases h
  · cases h
    exact ⟨_, rfl, rfl⟩

theorem exists_asString {o : Option (List Char × List Char)} {s : String}
    (h : asString o = some (s, rest)) : o = some (s.toList, rest) := by
  unfold asString at h
  split at h
  · cases h
  · cases h
    rw [String.toList_ofList]

theorem readBasic_unescaped : ∀ {cs s rest : List Char}, '\\' ∉ cs.takeWhile (· ≠ '"') →
    readBasic cs = some (s, rest) → cs = s ++ '"' :: rest ∧ ∀ c ∈ s, isPlain c = true
  | c :: cs, s, rest, hplain, h => by
    by_cases hquote : c = '"'
    · subst hquote
      rw [readBasic] at h
      cases h
      exact ⟨rfl, by simp⟩
    · rw [List.takeWhile_cons_of_pos (by simpa using hquote)] at hplain
      have hback : c ≠ '\\' := fun hc => hplain (by simp [hc])
      rw [readBasic] at h
      · split at h
        · rename_i hc
          obtain ⟨s', hs', rfl⟩ := exists_before h
          obtain ⟨hcs, hall⟩ := readBasic_unescaped (fun hm => hplain (List.mem_cons_of_mem _ hm)) hs'
          exact ⟨by rw [hcs]; rfl, List.forall_mem_cons.mpr ⟨hc, hall⟩⟩
        · cases h
      · exact hquote
      · exact hback
  | [], s, rest, _, h => by
    rw [readBasic] at h
    cases h

theorem readLiteral_eq_some : ∀ {cs s rest : List Char}, readLiteral cs = some (s, rest) →
    cs = s ++ '\'' :: rest ∧ ∀ c ∈ s, isPlain c = true
  | c :: cs, s, rest, h => by
    by_cases hquote : c = '\''
    · subst hquote
      rw [readLiteral] at h
      cases h
      exact ⟨rfl, by simp⟩
    · rw [readLiteral] at h
      · split at h
        · rename_i hc
          obtain ⟨s', hs', rfl⟩ := exists_before h
          obtain ⟨hcs, hall⟩ := readLiteral_eq_some hs'
          exact ⟨by rw [hcs]; rfl, List.forall_mem_cons.mpr ⟨hc, hall⟩⟩
        · cases h
      · exact hquote
  | [], s, rest, h => by
    rw [readLiteral] at h
    cases h

theorem not_mem_of_plain {s : List Char} (h : ∀ c ∈ s, isPlain c = true) : '\n' ∉ s ∧ '\r' ∉ s :=
  ⟨fun hn => absurd (h _ hn) (by decide), fun hr => absurd (h _ hr) (by decide)⟩

theorem readPart_unescaped {key : String} (hplain : '\\' ∉ quoted cs)
    (h : readPart cs = some (key, rest)) : ∃ part, cs = part ++ rest ∧ part ≠ [] ∧ '\n' ∉ part ∧
      key.toList <:+: part ∧ '\r' ∉ key.toList := by
  unfold readPart at h
  -- in double quotes, in single quotes or bare
  split at h
  · rename_i x hx
    cases h
    unfold readLineString at hx
    split at hx
    · obtain ⟨hcs, hall⟩ := readBasic_unescaped hplain (exists_asString hx)
      obtain ⟨hn, hr⟩ := not_mem_of_plain hall
      refine ⟨'"' :: key.toList ++ ['"'], by simp [hcs], by simp, by simpa using hn, ?_, hr⟩
      exact ⟨['"'], ['"'], rfl⟩
    · obtain ⟨hcs, hall⟩ := readLiteral_eq_some (exists_asString hx)
      obtain ⟨hn, hr⟩ := not_mem_of_plain hall
      refine ⟨'\'' :: key.toList ++ ['\''], by simp [hcs], by simp, by simpa using hn, ?_, hr⟩
      exact ⟨['\''], ['\''], rfl⟩
    · cases hx
  · simp only at h
    split at h
    · cases h
    · rename_i hne
      cases h
      have hbare : ∀ c ∈ cs.takeWhile isBare, isBare c = true :=
        fun c hc => List.all_eq_true.mp List.all_takeWhile c hc
      refine ⟨cs.takeWhile isBare, List.takeWhile_append_dropWhile.symm, by simpa using hne, ?_, ?_, ?_⟩
      · exact fun hn => absurd (hbare _ hn) (by decide)
      · exact String.toList_ofList ▸ List.infix_refl _
      · rw [String.toList_ofList]
        exact fun hr => absurd (hbare _ hr) (by decide)

theorem exists_dropMark (cs : List Char) : ∃ front, cs = front ++ dropMark cs ∧ '\n' ∉ front := by
  unfold dropMark
  split
  · exact ⟨['\ufeff'], rfl, by decide⟩
  · exact ⟨[], rfl, by simp⟩

/-- The letters of a key stand in the line that it is written on. -/
theorem holds_lineOf {text key : String} {m : Mark} (hm : m ∈ marks text) (hplain : m.Unescaped)
    (hkey : m.path.getLast? = some key) : Holds text key (lineOf text m) := by
  obtain ⟨⟨pre, hpre⟩, key', rest, hpart, hkey'⟩ := on_of_mem_marks m hm
  obtain rfl : key = key' := Option.some.inj (hkey.symm.trans hkey')
  obtain ⟨part, hrest, hne, hn, hinfix, hr⟩ := readPart_unescaped hplain hpart
  obtain ⟨front, htext, hfront⟩ := exists_dropMark text.toList
  have hcount : lineOf text m = (front ++ pre).count '\n' + 1 := by
    unfold lineOf
    rw [← hpre]
    simp [List.count_eq_zero.mpr hfront]
  have hsplit : text.toList = front ++ pre ++ part ++ rest := by
    rw [htext, ← hpre, hrest]
    simp
  obtain ⟨line, hline, hmem⟩ := Text.exists_line hne hn (front ++ pre) rest
  rw [hcount]
  refine ⟨_, line, rfl, ?_, hmem _ hinfix hr⟩
  rw [hsplit]
  exact hline

end OnDemand.Toml
