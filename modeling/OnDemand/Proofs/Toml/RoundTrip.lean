import OnDemand.Proofs.Text
import OnDemand.Proofs.Toml.Keyless

/-!
# Documents written and read

A document of sections is read line by line: the empty lines between sections say nothing, and every
other line is a statement. The statements make up one table for each section, with its settings in
order (`read_write`), also after assignments at the root (`read_writeRooted`). Keys are bare, and no
section and no key in a section stands twice.
-/

namespace OnDemand.Toml

variable {c : Char} {cs rest : List Char} {key : String} {v : Setting}

/-! ## Bare keys -/

def isBareKey (key : String) : Bool :=
  !key.toList.isEmpty && key.toList.all isBare

inductive KeyEnded : List Char → Prop
  /-- The value that the key is given. -/
  | space (cs : List Char) : KeyEnded (' ' :: cs)
  /-- The end of a header. -/
  | bracket (cs : List Char) : KeyEnded (']' :: cs)

theorem KeyEnded.takeWhile_isBare (h : KeyEnded rest) : rest.takeWhile isBare = [] := by
  cases h <;> exact List.takeWhile_cons_of_neg (by decide)

theorem KeyEnded.dropWhile_isBare (h : KeyEnded rest) : rest.dropWhile isBare = rest := by
  cases h <;> exact List.dropWhile_cons_of_neg (by decide)

theorem exists_toList_eq (h : isBareKey key = true) :
    ∃ c cs, key.toList = c :: cs ∧ isBare c = true ∧ ∀ d ∈ cs, isBare d = true := by
  unfold isBareKey at h
  cases hkey : key.toList with
  | nil => simp [hkey] at h
  | cons c cs =>
    rw [hkey] at h
    simp only [List.isEmpty_cons, Bool.not_false, Bool.true_and, List.all_eq_true] at h
    exact ⟨c, cs, rfl, List.forall_mem_cons.mp h⟩

theorem isBare_ne {d : Char} (hc : isBare c = true) (hd : isBare d = false) : c ≠ d := by
  rintro rfl
  rw [hc] at hd
  cases hd

theorem skipSpace_cons (h : isSpace c = false) (cs : List Char) : skipSpace (c :: cs) = c :: cs :=
  List.dropWhile_cons_of_neg (by simp [h])

theorem isSpace_of_isBare (h : isBare c = true) : isSpace c = false := by
  unfold isSpace
  simp [isBare_ne h (d := ' ') (by decide), isBare_ne h (d := '\t') (by decide)]

theorem readPart_bare (h : isBareKey key = true) (hrest : KeyEnded rest) :
    readPart (key.toList ++ rest) = some (key, rest) := by
  obtain ⟨c, cs, hkey, hc, hcs⟩ := exists_toList_eq h
  have hline : readLineString (key.toList ++ rest) = none := by
    rw [hkey, List.cons_append, readLineString]
    · rintro ds hds
      exact isBare_ne hc (by decide) (List.cons.inj hds).1
    · rintro ds hds
      exact isBare_ne hc (by decide) (List.cons.inj hds).1
  have hall : ∀ d ∈ key.toList, isBare d = true := by
    rw [hkey]
    exact List.forall_mem_cons.mpr ⟨hc, hcs⟩
  have htake : (key.toList ++ rest).takeWhile isBare = key.toList := by
    rw [List.takeWhile_append_of_pos hall, hrest.takeWhile_isBare, List.append_nil]
  have hdrop : (key.toList ++ rest).dropWhile isBare = rest := by
    rw [List.dropWhile_append_of_pos hall, hrest.dropWhile_isBare]
  have hempty : key.toList.isEmpty = false := by rw [hkey, List.isEmpty_cons]
  unfold readPart
  rw [hline, htake, hdrop]
  simp only [hempty, Bool.false_eq_true, if_false, String.ofList_toList]

theorem readKey_bare (h : isBareKey key = true) (hrest : KeyEnded rest)
    (hdot : (skipSpace rest).head? ≠ some '.') :
    readKey (key.toList ++ rest) = some (⟨[], key⟩, skipSpace rest) := by
  obtain ⟨c, cs, hkey, hc, -⟩ := exists_toList_eq h
  have hskip : skipSpace (key.toList ++ rest) = key.toList ++ rest := by
    rw [hkey, List.cons_append, skipSpace_cons (isSpace_of_isBare hc)]
  unfold readKey keyLimit
  rw [readKeyWithin, hskip, readPart_bare h hrest]
  simp only
  split
  · rename_i hds
    rw [hds] at hdot
    exact absurd rfl hdot
  · rfl

/-! ## Statements -/

theorem readStatement_header (h : isBareKey key = true) (rest : List Char) :
    readStatement ('[' :: (key.toList ++ ']' :: rest)) = some (.header ⟨[], key⟩, rest) := by
  obtain ⟨c, cs, hkey, hc, -⟩ := exists_toList_eq h
  have hread : readKey (key.toList ++ ']' :: rest) = some (⟨[], key⟩, ']' :: rest) :=
    readKey_bare h (.bracket _) (by simp [skipSpace, isSpace])
  rw [readStatement, hread]
  · rfl
  · rintro ds hds
    rw [hkey, List.cons_append] at hds
    exact isBare_ne hc (by decide) (List.cons.inj hds).1

theorem skipSpace_chars (v : Setting) (h : Ended rest) :
    skipSpace (v.chars ++ rest) = v.chars ++ rest := by
  cases v with
  | string s =>
    obtain ⟨c, cs, hcs, hc⟩ := writeString_append s rest
    rw [Setting.chars, hcs, skipSpace_cons]
    rcases hc with rfl | rfl <;> decide
  | strings ss =>
    rw [Setting.chars]
    unfold writeStrings
    split
    · rfl
    · rfl
    · rfl
  | integer n =>
    obtain ⟨c, cs, hcs, hc, -⟩ := writeInteger_append n h
    have hbare : isBare c = true := by
      rcases hc with rfl | hc
      · decide
      · simp [isBare, Char.isAlphanum, hc]
    rw [Setting.chars, hcs, skipSpace_cons (isSpace_of_isBare hbare)]
  | boolean b => cases b <;> rfl

def assignment (key : String) (v : Setting) : List Char :=
  key.toList ++ [' ', '=', ' '] ++ v.chars

theorem assignment_append (key : String) (v : Setting) (rest : List Char) : assignment key v ++ rest =
    key.toList ++ ' ' :: '=' :: ' ' :: (v.chars ++ rest) := by
  simp [assignment]

theorem readStatement_assign {chars : List Char} {w : Value} (h : isBareKey key = true)
    (hskip : skipSpace chars = chars) (hvalue : readValue chars = some (w, rest)) :
    readStatement (key.toList ++ ' ' :: '=' :: ' ' :: chars) = some (.assign ⟨[], key⟩ w, rest) := by
  obtain ⟨c, cs, hkey, hc, -⟩ := exists_toList_eq h
  have hread : readKey (key.toList ++ ' ' :: '=' :: ' ' :: chars) = some (⟨[], key⟩, '=' :: ' ' :: chars) :=
    readKey_bare h (.space _) (by simp [skipSpace, isSpace])
  have hvalue : readValue (skipSpace (' ' :: chars)) = some (w, rest) := by
    have hblank : skipSpace (' ' :: chars) = skipSpace chars := rfl
    rw [hblank, hskip, hvalue]
  have hassign : readAssignment readValue (key.toList ++ ' ' :: '=' :: ' ' :: chars) =
      some ((⟨[], key⟩, w), rest) := by
    unfold readAssignment
    simp only [hread, hvalue, Option.map_some]
  have hne : ∀ ds, key.toList ++ ' ' :: '=' :: ' ' :: chars ≠ '[' :: ds := by
    rintro ds hds
    rw [hkey, List.cons_append] at hds
    exact isBare_ne hc (by decide) (List.cons.inj hds).1
  rw [readStatement, hassign]
  · rfl
  · exact fun ds => hne _
  · exact hne

theorem readStatement_assignment (h : isBareKey key = true) (hv : v.Fits) (hrest : Ended rest) :
    readStatement (assignment key v ++ rest) = some (.assign ⟨[], key⟩ v.value, rest) := by
  rw [assignment_append]
  exact readStatement_assign h (skipSpace_chars v hrest) (readValue_written hv hrest)

/-! ## Lines -/

theorem readStatements_blank (n : Nat) (rest : List Char) :
    readStatements (n + 1) ('\n' :: rest) = readStatements n rest := by
  rw [readStatements]
  · rfl
  · rintro ⟨⟩

theorem readStatements_line {s : Statement} (n : Nat) (hc : c = '[' ∨ isBare c = true)
    (h : readStatement (c :: cs) = some (s, '\n' :: rest)) :
    readStatements (n + 1) (c :: cs) = (readStatements n rest).map (s :: ·) := by
  have hne : ∀ {d : Char}, d ≠ '[' → isBare d = false → c ≠ d := by
    rintro d hd hbare rfl
    rcases hc with rfl | hc
    · exact hd rfl
    · rw [hbare] at hc
      cases hc
  have hspace : isSpace c = false := by
    unfold isSpace
    simp [hne (d := ' ') (by decide) (by decide), hne (d := '\t') (by decide) (by decide)]
  have hnewline : afterNewline? (c :: cs) = none := by
    rw [afterNewline?]
    · rintro ds hds
      exact hne (by decide) (by decide) (List.cons.inj hds).1
    · rintro ds hds
      exact hne (by decide) (by decide) (List.cons.inj hds).1
  -- the line is neither blank nor a comment
  have hblank : afterLine? (c :: cs) = none := by
    unfold afterLine?
    rw [skipSpace_cons hspace]
    simp only
    split
    · rename_i hds
      split at hds
      · rename_i hcomment
        exact absurd (List.cons.inj hcomment).1 (hne (by decide) (by decide))
      · cases hds
    · split
      · rename_i hcomment
        exact absurd (List.cons.inj hcomment).1 (hne (by decide) (by decide))
      · exact hnewline
  have hend : afterLine? ('\n' :: rest) = some rest := rfl
  rw [readStatements]
  · simp only [hblank, skipSpace_cons hspace, h, hend]
  · rintro ⟨⟩

theorem readStatements_lines {α : Type} {line : α → List Char} {statement : α → Statement}
    (rest : List Char) (n : Nat) : ∀ {xs : List α},
    (∀ x ∈ xs, ∀ rest, (∃ c cs, line x ++ '\n' :: rest = c :: cs ∧ (c = '[' ∨ isBare c = true)) ∧
      readStatement (line x ++ '\n' :: rest) = some (statement x, '\n' :: rest)) →
    readStatements (n + xs.length) (xs.flatMap (fun x => line x ++ ['\n']) ++ rest) =
      (readStatements n rest).map (xs.map statement ++ ·)
  | [], _ => by simp
  | x :: xs, h => by
    obtain ⟨hx, hxs⟩ := List.forall_mem_cons.mp h
    obtain ⟨⟨c, cs, hcs, hc⟩, hread⟩ := hx (xs.flatMap (fun x => line x ++ ['\n']) ++ rest)
    have hsplit : (x :: xs).flatMap (fun x => line x ++ ['\n']) ++ rest = c :: cs := by
      rw [← hcs]
      simp
    rw [hcs] at hread
    rw [hsplit, List.length_cons, ← Nat.add_assoc, readStatements_line _ hc hread,
      readStatements_lines rest n hxs, Option.map_map]
    rfl

/-! ## Sections -/

namespace Section

/-- A section whose name and keys are bare, whose keys are distinct and whose integers TOML can hold. -/
structure Plain (s : Section) : Prop where
  name : isBareKey s.name = true
  keys : ∀ f ∈ s.settings, isBareKey f.1 = true
  values : ∀ f ∈ s.settings, f.2.Fits
  distinct : (s.settings.map Prod.fst).Nodup

def statements (s : Section) : List Statement :=
  .header ⟨[], s.name⟩ :: s.settings.map fun f => .assign ⟨[], f.1⟩ f.2.value

def fields (s : Section) : Fields :=
  s.settings.map fun f => (f.1, f.2.value)

def table (s : Section) : String × Value :=
  (s.name, .table .header s.fields)

theorem length_statements (s : Section) : s.statements.length = s.settings.length + 1 := by
  simp [statements]

end Section

def settingLines (settings : List (String × Setting)) : List Char :=
  settings.flatMap fun f => assignment f.1 f.2 ++ ['\n']

theorem chars_eq (s : Section) (rest : List Char) : s.chars ++ rest =
    '[' :: (s.name.toList ++ ']' :: '\n' :: (settingLines s.settings ++ rest)) := by
  simp [Section.chars, settingLines, assignment]

theorem settingLines_cons (f : String × Setting) (settings : List (String × Setting))
    (rest : List Char) : settingLines (f :: settings) ++ rest =
      assignment f.1 f.2 ++ '\n' :: (settingLines settings ++ rest) := by
  simp [settingLines]

theorem readStatements_settings (rest : List Char) (n : Nat) {settings : List (String × Setting)}
    (hkeys : ∀ f ∈ settings, isBareKey f.1 = true) (hvalues : ∀ f ∈ settings, f.2.Fits) :
    readStatements (n + settings.length) (settingLines settings ++ rest) =
      (readStatements n rest).map ((settings.map fun f => .assign ⟨[], f.1⟩ f.2.value) ++ ·) := by
  refine readStatements_lines rest n fun f hf rest => ⟨?_, ?_⟩
  · obtain ⟨c, cs, hname, hc, -⟩ := exists_toList_eq (hkeys f hf)
    exact ⟨c, _, by rw [assignment_append, hname]; rfl, Or.inr hc⟩
  · exact readStatement_assignment (hkeys f hf) (hvalues f hf) (.newline rest)

theorem readStatements_section {s : Section} (h : s.Plain) (n : Nat) (rest : List Char) :
    readStatements (n + s.statements.length) (s.chars ++ rest) =
      (readStatements n rest).map (s.statements ++ ·) := by
  have hread := readStatement_header h.name ('\n' :: (settingLines s.settings ++ rest))
  rw [chars_eq, s.length_statements, ← Nat.add_assoc, readStatements_line _ (Or.inl rfl) hread,
    readStatements_settings rest n h.keys h.values, Option.map_map]
  rfl

theorem length_statements_le (s : Section) : s.statements.length ≤ s.chars.length := by
  have hlines : ∀ settings, settings.length ≤ (settingLines settings).length := by
    intro settings
    induction settings with
    | nil => exact Nat.le_refl 0
    | cons f settings ih =>
      have := congrArg List.length (settingLines_cons f settings [])
      simp only [List.append_nil, List.length_append, List.length_cons] at this ⊢
      omega
  have := congrArg List.length (chars_eq s [])
  have := hlines s.settings
  rw [s.length_statements]
  simp only [List.append_nil, List.length_append, List.length_cons] at *
  omega

theorem readStatements_written : ∀ {ss : List Section} {n : Nat}, (∀ s ∈ ss, s.Plain) →
    (writeSections ss).length ≤ n →
    readStatements n (writeSections ss) = some (ss.flatMap Section.statements)
  | [], n, _, _ => by simp [writeSections, readStatements]
  | [s], n, h, hn => by
    obtain ⟨k, rfl⟩ := Nat.exists_eq_add_of_le' (Nat.le_trans (length_statements_le s) hn)
    have hread := readStatements_section (h s (by simp)) k []
    rw [List.append_nil] at hread
    rw [writeSections, hread]
    simp [readStatements]
  | s :: t :: ss, n, h, hn => by
    obtain ⟨hs, hss⟩ := List.forall_mem_cons.mp h
    have hlen := length_statements_le s
    rw [writeSections, List.length_append, List.length_cons] at hn
    obtain ⟨k, rfl⟩ : ∃ k, n = k + 1 + s.statements.length :=
      ⟨n - 1 - s.statements.length, by omega⟩
    rw [writeSections, readStatements_section hs, readStatements_blank,
      readStatements_written hss (by omega)]
    rfl

/-! ## The table -/

variable {done : Fields} {name : String}

theorem lookup_eq_none {α : Type} {fs : List (String × α)} (h : name ∉ fs.map Prod.fst) :
    fs.lookup name = none := by
  refine List.lookup_eq_none_iff.mpr fun f hf => ?_
  simp only [bne_iff_ne, ne_eq]
  rintro rfl
  exact h (List.mem_map_of_mem hf)

theorem lookup_append_self (h : name ∉ done.map Prod.fst) (v : Value) :
    (done ++ [(name, v)]).lookup name = some v := by
  rw [List.lookup_append, lookup_eq_none h, Option.none_or, List.lookup_cons_self]

theorem put_append_self (h : name ∉ done.map Prod.fst) (v w : Value) :
    Fields.put name w (done ++ [(name, v)]) = done ++ [(name, w)] := by
  have hdone : Fields.put name w done = done := by
    refine (List.map_congr_left fun f hf => ?_).trans (List.map_id done)
    exact if_neg fun (he : f.1 = name) => h (he ▸ List.mem_map_of_mem hf)
  unfold Fields.put at hdone ⊢
  rw [List.map_append, hdone, List.map_singleton, if_pos rfl]

theorem step_header (h : name ∉ done.map Prod.fst) (here : List String) :
    Draft.step ⟨done, here⟩ (.header ⟨[], name⟩) =
      some ⟨done ++ [(name, .table .header [])], [name]⟩ := by
  unfold Draft.step Fields.openTable
  simp only [Fields.alter, lookup_eq_none h, Option.map_some, List.nil_append]

theorem step_assign {sub : Fields} (h : name ∉ done.map Prod.fst) (hkey : key ∉ sub.map Prod.fst)
    (v : Value) : Draft.step ⟨done ++ [(name, .table .header sub)], [name]⟩ (.assign ⟨[], key⟩ v) =
      some ⟨done ++ [(name, .table .header (sub ++ [(key, v)]))], [name]⟩ := by
  have hadd : Fields.assign ⟨[], key⟩ v .header sub = some (sub ++ [(key, v)]) := by
    unfold Fields.assign Fields.add
    simp [Fields.alter, lookup_eq_none hkey]
  unfold Draft.step
  simp only [Fields.alter, lookup_append_self h, Fields.isPassable, Bool.not_false, if_true, hadd,
    Option.map_some, put_append_self h]

theorem foldlM_assign (h : name ∉ done.map Prod.fst) : ∀ {settings : List (String × Setting)}
    {sub : Fields}, (sub.map Prod.fst ++ settings.map Prod.fst).Nodup →
    (settings.map fun f => .assign ⟨[], f.1⟩ f.2.value).foldlM Draft.step
        ⟨done ++ [(name, .table .header sub)], [name]⟩ =
      some ⟨done ++ [(name, .table .header (sub ++ settings.map fun f => (f.1, f.2.value)))], [name]⟩
  | [], sub, _ => by simp
  | f :: settings, sub, hdistinct => by
    have hkey : f.1 ∉ sub.map Prod.fst := by
      intro hmem
      exact (List.nodup_append.mp hdistinct).2.2 _ hmem _ (by simp) rfl
    have hrest : ((sub ++ [(f.1, f.2.value)]).map Prod.fst ++ settings.map Prod.fst).Nodup := by
      simpa using hdistinct
    rw [List.map_cons, List.foldlM_cons, step_assign h hkey, Option.bind_eq_bind, Option.bind_some,
      foldlM_assign h hrest]
    simp

theorem foldlM_section {s : Section} (hs : s.Plain) (h : s.name ∉ done.map Prod.fst)
    (here : List String) :
    s.statements.foldlM Draft.step ⟨done, here⟩ = some ⟨done ++ [s.table], [s.name]⟩ := by
  rw [Section.statements, List.foldlM_cons, step_header h, Option.bind_eq_bind, Option.bind_some,
    foldlM_assign h (by simpa using hs.distinct)]
  rfl

theorem foldlM_sections : ∀ {ss : List Section} {done : Fields} {here : List String},
    (∀ s ∈ ss, s.Plain) → (done.map Prod.fst ++ ss.map Section.name).Nodup →
    ((ss.flatMap Section.statements).foldlM Draft.step ⟨done, here⟩).map Draft.fields =
      some (done ++ ss.map Section.table)
  | [], done, here, _, _ => by simp
  | s :: ss, done, here, h, hdistinct => by
    obtain ⟨hs, hss⟩ := List.forall_mem_cons.mp h
    have hname : s.name ∉ done.map Prod.fst := by
      intro hmem
      exact (List.nodup_append.mp hdistinct).2.2 _ hmem _ (by simp) rfl
    have hrest : ((done ++ [s.table]).map Prod.fst ++ ss.map Section.name).Nodup := by
      simpa [Section.table] using hdistinct
    rw [List.flatMap_cons, List.foldlM_append, foldlM_section hs hname, Option.bind_eq_bind,
      Option.bind_some, foldlM_sections hss hrest]
    simp

/-! ## Assignments before the sections -/

def rootLine (f : String × Value) : List Char :=
  f.1.toList ++ ' ' :: '=' :: ' ' :: f.2.chars

def writeRooted (roots : Fields) (ss : List Section) : List Char :=
  roots.flatMap (fun f => rootLine f ++ ['\n']) ++ writeSections ss

/-- A value that can be written at the root under its key. -/
structure Rooted (f : String × Value) : Prop where
  key : isBareKey f.1 = true
  value : WrittenWithin nestingLimit f.2

def rootStatement (f : String × Value) : Statement :=
  .assign ⟨[], f.1⟩ f.2.stripped

theorem readStatement_rootLine {f : String × Value} (h : Rooted f) (rest : List Char) :
    (∃ c cs, rootLine f ++ '\n' :: rest = c :: cs ∧ (c = '[' ∨ isBare c = true)) ∧
      readStatement (rootLine f ++ '\n' :: rest) = some (rootStatement f, '\n' :: rest) := by
  have hsplit : rootLine f ++ '\n' :: rest =
      f.1.toList ++ ' ' :: '=' :: ' ' :: (f.2.chars ++ '\n' :: rest) := by
    simp [rootLine]
  obtain ⟨c, cs, hkey, hc, -⟩ := exists_toList_eq h.key
  obtain ⟨d, ds, hds, hd⟩ := h.value.starts (.newline rest)
  have hskip : skipSpace (f.2.chars ++ '\n' :: rest) = f.2.chars ++ '\n' :: rest := by
    rw [hds, skipSpace_cons]
    unfold isSpace
    simp only [List.mem_cons, not_or] at hd
    simp [hd.1, hd.2.1]
  rw [hsplit]
  exact ⟨⟨c, _, by rw [hkey]; rfl, Or.inr hc⟩,
    readStatement_assign h.key hskip (h.value.reads (Nat.le_refl _) (.newline rest))⟩

theorem readStatements_rooted {roots : Fields} {ss : List Section} (hroots : ∀ f ∈ roots, Rooted f)
    (h : ∀ s ∈ ss, s.Plain) {n : Nat} (hn : (writeRooted roots ss).length ≤ n) :
    readStatements n (writeRooted roots ss) =
      some (roots.map rootStatement ++ ss.flatMap Section.statements) := by
  have hlines : roots.length ≤ (roots.flatMap fun f => rootLine f ++ ['\n']).length := by
    rw [List.length_flatMap]
    induction roots with
    | nil => exact Nat.le_refl 0
    | cons f roots ih =>
      have := ih (fun g hg => hroots g (List.mem_cons_of_mem _ hg)) (by
        simp only [writeRooted, List.flatMap_cons, List.length_append] at hn ⊢
        omega)
      simp only [List.map_cons, List.sum_cons, List.length_append, List.length_cons, List.length_nil] at this ⊢
      omega
  unfold writeRooted at hn ⊢
  rw [List.length_append] at hn
  obtain ⟨k, rfl⟩ : ∃ k, n = k + roots.length := ⟨n - roots.length, by omega⟩
  have hread : readStatements (k + roots.length)
      (roots.flatMap (fun f => rootLine f ++ ['\n']) ++ writeSections ss) =
      (readStatements k (writeSections ss)).map (roots.map rootStatement ++ ·) :=
    readStatements_lines _ k fun f hf => readStatement_rootLine (hroots f hf)
  rw [hread, readStatements_written h (by omega), Option.map_some]

theorem foldlM_roots : ∀ {roots done : Fields}, (done.map Prod.fst ++ roots.map Prod.fst).Nodup →
    (roots.map rootStatement).foldlM Draft.step ⟨done, []⟩ =
      some ⟨done ++ roots.map fun f => (f.1, f.2.stripped), []⟩
  | [], done, _ => by simp
  | f :: roots, done, hdistinct => by
    have hkey : f.1 ∉ done.map Prod.fst := by
      intro hmem
      exact (List.nodup_append.mp hdistinct).2.2 _ hmem _ (by simp) rfl
    have hrest : ((done ++ [(f.1, f.2.stripped)]).map Prod.fst ++ roots.map Prod.fst).Nodup := by
      simpa using hdistinct
    have hstep : Draft.step ⟨done, []⟩ (rootStatement f) = some ⟨done ++ [(f.1, f.2.stripped)], []⟩ := by
      unfold Draft.step rootStatement Fields.assign Fields.add
      simp [Fields.alter, lookup_eq_none hkey]
    rw [List.map_cons, List.foldlM_cons, hstep, Option.bind_eq_bind, Option.bind_some, foldlM_roots hrest]
    simp

/-- Values at the root and sections are read back, with no keys in the values. -/
theorem read_writeRooted {roots : Fields} {ss : List Section} (hroots : ∀ f ∈ roots, Rooted f)
    (h : ∀ s ∈ ss, s.Plain) (hdistinct : (roots.map Prod.fst ++ ss.map Section.name).Nodup) :
    read (String.ofList (writeRooted roots ss)) =
      some (roots.map (fun f => (f.1, f.2.stripped)) ++ ss.map Section.table) := by
  -- the text does not begin with the mark that is dropped
  have hmark : dropMark (writeRooted roots ss) = writeRooted roots ss := by
    cases roots with
    | cons f roots =>
      obtain ⟨c, cs, hkey, hc, -⟩ := exists_toList_eq (hroots f List.mem_cons_self).key
      have hsplit : ∃ ds, writeRooted (f :: roots) ss = c :: ds :=
        ⟨_, by rw [writeRooted, List.flatMap_cons, rootLine, hkey]; rfl⟩
      obtain ⟨ds, hds⟩ := hsplit
      rw [hds, dropMark]
      rintro es hes
      exact isBare_ne hc (by decide) (List.cons.inj hes).1
    | nil =>
      match ss with
      | [] => rfl
      | [s] => rfl
      | s :: t :: ss => rfl
  have hleft : (([] : Fields).map Prod.fst ++ roots.map Prod.fst).Nodup := (List.nodup_append.mp hdistinct).1
  unfold read
  rw [String.toList_ofList, hmark]
  simp only [readStatements_rooted hroots h (Nat.le_succ _), Option.bind_some]
  unfold Fields.ofStatements Draft.empty
  rw [List.foldlM_append, foldlM_roots hleft, Option.bind_eq_bind, Option.bind_some, List.nil_append]
  refine foldlM_sections h ?_
  simpa [Function.comp_def] using hdistinct

/-- Sections that were written are read back. -/
theorem read_write {ss : List Section} (h : ∀ s ∈ ss, s.Plain)
    (hdistinct : (ss.map Section.name).Nodup) : read (write ss) = some (ss.map Section.table) := by
  have hroots : ∀ f ∈ ([] : Fields), Rooted f := fun _ hf => by cases hf
  show read (String.ofList (writeRooted [] ss)) = _
  exact read_writeRooted hroots h hdistinct

end OnDemand.Toml
