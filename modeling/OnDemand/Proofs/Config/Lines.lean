import Mathlib.Data.List.Forall2
import OnDemand.Proofs.Config.Acceptance
import OnDemand.Proofs.Toml.Marks

/-!
# Where warnings point

A warning is to name an unknown key and the number of a line on which it is written. The key is what
follows the last point in the path of the unknown one, and the line the first that has the letters of
this key in it, wherever they stand. So a warning points at its key exactly if no point is in the key
and no line before those on which it is written has its letters (`warnings_point_iff`).
-/

namespace OnDemand.Config

open Toml

variable {doc : Fields} {file : Path} {text key unknown : String} {path : List String}

/-- The paths of the outermost keys that mean nothing, in the order of the warnings about them. -/
def unknownPaths (doc : Fields) : List (List String) :=
  doc.flatMap fun f =>
    match layout.lookup f.1 with
    | none => [[f.1]]
    | some settings =>
      let keys := ((sectionFields settings f.2).getD []).map Prod.fst
      (keys.filter (· ∉ settings)).map fun key => [f.1, key]

/-- The warning names the key that a path leads to and a line on which it is written. -/
structure PointsAt (text : String) (w : Warning) (path : List String) : Prop where
  key : path.getLast? = some w.key
  line : ∃ n, w.line = some n ∧ DefinedOn text path n

/-- The search for the letters of a key finds it where it is written. -/
structure Findable (text : String) (path : List String) (key : String) : Prop where
  noPoint : '.' ∉ key.toList
  written : ∃ n, DefinedOn text path n
  first : ∀ m, Holds text key m → ∃ n ≤ m, DefinedOn text path n

/-! ## Paths -/

theorem mem_unknownPaths : path ∈ unknownPaths doc ↔ ∃ f ∈ doc,
    (layout.lookup f.1 = none ∧ path = [f.1]) ∨
    ∃ settings key, layout.lookup f.1 = some settings ∧ key ∉ settings ∧
      key ∈ ((sectionFields settings f.2).getD []).map Prod.fst ∧ path = [f.1, key] := by
  unfold unknownPaths
  rw [List.mem_flatMap]
  refine exists_congr fun f => and_congr_right fun _ => ?_
  cases layout.lookup f.1 with
  | none => simp
  | some settings =>
    constructor
    · intro hpath
      obtain ⟨key, hkey, rfl⟩ := List.mem_map.mp hpath
      obtain ⟨hmem, hnot⟩ := List.mem_filter.mp hkey
      exact Or.inr ⟨settings, key, rfl, by simpa using hnot, hmem, rfl⟩
    · rintro (⟨⟨⟩, -⟩ | ⟨_, key, ⟨⟩, hnot, hmem, rfl⟩)
      exact List.mem_map.mpr ⟨key, List.mem_filter.mpr ⟨hmem, by simpa using hnot⟩, rfl⟩

theorem unknownKeys_eq (doc : Fields) : unknownKeys doc = (unknownPaths doc).map ".".intercalate := by
  unfold unknownKeys unknownPaths
  rw [List.map_flatMap]
  congr
  funext ⟨name, v⟩
  cases h : layout.lookup name with
  | none => simp [h]
  | some settings =>
    simp only [h, List.map_map]
    rfl

/-! ## Keys -/

theorem key_warningFor (h : (Text.pieces (· == '.') unknown.toList).getLast? = some key.toList) :
    (warningFor file text unknown).key = key := by
  have hlast : (piecesOf (· == '.') unknown).getLast? = some key := by
    rw [piecesOf, List.getLast?_map, h, Option.map_some, String.ofList_toList]
  show (piecesOf (· == '.') unknown).getLastD unknown = key
  rw [List.getLastD_eq_getLast?, hlast, Option.getD_some]

theorem not_mem_key_warningFor (file : Path) (text unknown : String) :
    '.' ∉ (warningFor file text unknown).key.toList := by
  obtain ⟨p, hp⟩ : ∃ p, (Text.pieces (· == '.') unknown.toList).getLast? = some p :=
    ⟨_, List.getLast?_eq_some_getLast (Text.pieces_ne_nil _ _)⟩
  have hkey : (warningFor file text unknown).key = String.ofList p :=
    key_warningFor (by rw [hp, String.toList_ofList])
  rw [hkey, String.toList_ofList]
  intro hmem
  have := Text.not_sep_of_mem_pieces (· == '.') _ p (List.mem_of_getLast? hp) '.' hmem
  simp at this

theorem key_warningFor_iff (h : path ∈ unknownPaths doc) (hlast : path.getLast? = some key) :
    (warningFor file text (".".intercalate path)).key = key ↔ '.' ∉ key.toList := by
  constructor
  · rintro rfl
    exact not_mem_key_warningFor file text _
  · intro hkey
    have hsep : ∀ c ∈ key.toList, (c == '.') = false := by
      intro c hc
      have hne : c ≠ '.' := fun h => hkey (h ▸ hc)
      simpa using hne
    refine key_warningFor ?_
    obtain ⟨f, -, ⟨-, rfl⟩ | ⟨settings, key', -, -, -, rfl⟩⟩ := mem_unknownPaths.mp h
    · obtain rfl : f.1 = key := Option.some.inj hlast
      rw [String.intercalate_singleton, Text.pieces_eq_singleton _ _ hsep]
      rfl
    · obtain rfl : key' = key := Option.some.inj hlast
      have hpath : (".".intercalate [f.1, key']).toList = f.1.toList ++ '.' :: key'.toList := by
        rw [String.toList_intercalate]
        simp
      rw [hpath, Text.getLast?_pieces (by rfl) _ hsep]

/-! ## Lines -/

theorem holds_succ_iff {i : Nat} : Holds text key (i + 1) ↔
    ∃ line, (Text.lines text.toList)[i]? = some line ∧ Text.occurs key.toList line = true := by
  constructor
  · rintro ⟨j, line, hj, hline, hkey⟩
    obtain rfl : i = j := by omega
    exact ⟨line, hline, Text.occurs_iff.mpr hkey⟩
  · rintro ⟨line, hline, hkey⟩
    exact ⟨i, line, rfl, hline, Text.occurs_iff.mp hkey⟩

theorem exists_lineWith {n : Nat} (h : Holds text key n) :
    ∃ k, lineWith key.toList (Text.lines text.toList) = some k := by
  obtain ⟨i, rfl⟩ : ∃ i, n = i + 1 := by
    obtain ⟨i, -, hi, -⟩ := h
    exact ⟨i, hi⟩
  obtain ⟨line, hline, hoccurs⟩ := holds_succ_iff.mp h
  unfold lineWith
  cases hfind : (Text.lines text.toList).findIdx? (Text.occurs key.toList) with
  | some k => exact ⟨k + 1, rfl⟩
  | none =>
    have := List.findIdx?_eq_none_iff.mp hfind line (List.mem_of_getElem? hline)
    rw [hoccurs] at this
    cases this

theorem holds_of_lineWith {n : Nat} (h : lineWith key.toList (Text.lines text.toList) = some n) :
    Holds text key n ∧ ∀ m, Holds text key m → n ≤ m := by
  obtain ⟨i, hi, rfl⟩ := Option.map_eq_some_iff.mp h
  obtain ⟨hlt, hoccurs, hfirst⟩ := List.findIdx?_eq_some_iff_getElem.mp hi
  refine ⟨holds_succ_iff.mpr ⟨_, List.getElem?_eq_getElem hlt, hoccurs⟩, ?_⟩
  rintro m hm
  obtain ⟨j, rfl⟩ : ∃ j, m = j + 1 := by
    obtain ⟨j, -, hj, -⟩ := hm
    exact ⟨j, hj⟩
  obtain ⟨line, hline, hkey⟩ := holds_succ_iff.mp hm
  obtain ⟨hj, rfl⟩ := List.getElem?_eq_some_iff.mp hline
  by_contra hle
  exact hfirst j (by omega) hkey

theorem holds_of_definedOn {n : Nat} (hplain : ∀ m ∈ marks text, m.Unescaped)
    (hlast : path.getLast? = some key) (h : DefinedOn text path n) : Holds text key n := by
  obtain ⟨m, hm, rfl, rfl⟩ := h
  exact holds_lineOf hm (hplain m hm) hlast

theorem pointsAt_iff (hplain : ∀ m ∈ marks text, m.Unescaped) (h : path ∈ unknownPaths doc)
    (hlast : path.getLast? = some key) :
    PointsAt text (warningFor file text (".".intercalate path)) path ↔ Findable text path key := by
  have hkey : (warningFor file text (".".intercalate path)).key = key ↔ '.' ∉ key.toList :=
    key_warningFor_iff h hlast
  constructor
  · rintro ⟨hname, n, hline, hdefined⟩
    obtain rfl : key = _ := Option.some.inj (hlast.symm.trans hname)
    obtain ⟨-, hfirst⟩ := holds_of_lineWith hline
    exact ⟨hkey.mp rfl, ⟨n, hdefined⟩, fun m hm => ⟨n, hfirst m hm, hdefined⟩⟩
  · rintro ⟨hpoint, ⟨n, hdefined⟩, hfirst⟩
    have hname := hkey.mpr hpoint
    -- the first line with the letters is one of those on which the key is written
    obtain ⟨k, hk⟩ := exists_lineWith (holds_of_definedOn hplain hlast hdefined)
    obtain ⟨hholds, hleast⟩ := holds_of_lineWith hk
    obtain ⟨n', hle, hdefined'⟩ := hfirst k hholds
    have hge := hleast n' (holds_of_definedOn hplain hlast hdefined')
    obtain rfl : k = n' := by omega
    refine ⟨by rw [hname, hlast], k, ?_, hdefined'⟩
    show lineWith (warningFor file text _).key.toList _ = some k
    rw [hname, hk]

theorem written_of_mem_unknownPaths (hread : read text = some doc) (h : path ∈ unknownPaths doc) :
    Written text path ∨ ∃ name, (name, .moment) ∈ doc ∧ path = [name, momentKey] := by
  have hsound := read_sound hread
  obtain ⟨f, hf, ⟨-, rfl⟩ | ⟨settings, key, -, hnot, hmem, rfl⟩⟩ := mem_unknownPaths.mp h
  · exact Or.inl (hsound.keys f hf)
  · have hzip : ∀ vs : List Value, key ∉ (settings.zip vs).map Prod.fst := by
      intro vs hkey
      obtain ⟨g, hg, rfl⟩ := List.mem_map.mp hkey
      exact hnot (List.of_mem_zip hg).1
    obtain ⟨name, v⟩ := f
    cases v with
    | table form fs =>
      obtain ⟨g, hg, rfl⟩ := List.mem_map.mp hmem
      exact Or.inl ((Fields.sound_of_table (hsound.values _ hf)).keys g hg)
    | array vs => exact absurd hmem (hzip vs)
    | tables elements => exact absurd hmem (hzip _)
    | moment =>
      obtain rfl : key = momentKey := by simpa [sectionFields] using hmem
      exact Or.inr ⟨name, hf, rfl⟩
    | string s => cases hmem
    | integer n => cases hmem
    | float => cases hmem
    | boolean b => cases hmem

/-- A warning about each unknown key, in their order, points at it exactly if its letters are found
where it is written. Each is written somewhere, unless it is only what a date counts as. -/
theorem warnings_point_iff {c : Config} {ws : List Warning} (h : parse file text = .ok (c, ws))
    (hplain : ∀ m ∈ marks text, m.Unescaped) : ∃ doc, read text = some doc ∧
      List.Forall₂ (fun w path => ∃ key, path.getLast? = some key ∧
        (PointsAt text w path ↔ Findable text path key)) ws (unknownPaths doc) ∧
      ∀ path ∈ unknownPaths doc, (∃ n, DefinedOn text path n) ∨
        ∃ name, (name, .moment) ∈ doc ∧ path = [name, momentKey] := by
  obtain ⟨doc, hread, -, rfl⟩ := parse_eq_ok_iff.mp h
  refine ⟨doc, hread, ?_, fun path hpath => ?_⟩
  · rw [unknownKeys_eq, List.map_map, List.forall₂_map_left_iff]
    refine List.forall₂_same.mpr fun path hpath => ?_
    obtain ⟨key, hlast⟩ : ∃ key, path.getLast? = some key := by
      obtain ⟨f, -, ⟨-, rfl⟩ | ⟨-, key, -, -, -, rfl⟩⟩ := mem_unknownPaths.mp hpath
      · exact ⟨f.1, rfl⟩
      · exact ⟨key, rfl⟩
    exact ⟨key, hlast, pointsAt_iff hplain hpath hlast⟩
  · refine (written_of_mem_unknownPaths hread hpath).imp_left ?_
    rintro ⟨m, hm, rfl⟩
    exact ⟨lineOf text m, m, hm, rfl, rfl⟩

def misspelt : String :=
  "\n[backend]\nprogam = \"summonc\"\n\n[limits]\nfetch_timeout_ms = 10\n"

theorem warnings_point_iff_misspelt : ∃ c ws, parse ⟨"summon.toml"⟩ misspelt = .ok (c, ws) ∧
    ws.map Warning.line = [some 3] ∧ ∃ doc, read misspelt = some doc ∧
      List.Forall₂ (fun w path => ∃ key, path.getLast? = some key ∧
        (PointsAt misspelt w path ↔ Findable misspelt path key)) ws (unknownPaths doc) ∧
      ∀ path ∈ unknownPaths doc, (∃ n, DefinedOn misspelt path n) ∨
        ∃ name, (name, .moment) ∈ doc ∧ path = [name, momentKey] := by
  have hparse : parse ⟨"summon.toml"⟩ misspelt =
      .ok ({ initial with fetchTimeout := some 10 },
        [⟨"progam", ⟨"summon.toml"⟩, some 3, some "program"⟩]) := by
    decide +kernel
  exact ⟨_, _, hparse, rfl, warnings_point_iff hparse (by decide +kernel)⟩

def commented : String :=
  "# progam\n[backend]\nprogam = \"x\"\n"

/-- The line of the comment is told, and no key is written on it. -/
theorem comment_pointed_at : ¬ ∀ (file : Path) (text : String) (c : Config) (ws : List Warning),
    parse file text = .ok (c, ws) → (∀ m ∈ marks text, m.Unescaped) →
      ∃ doc, read text = some doc ∧ List.Forall₂ (PointsAt text) ws (unknownPaths doc) := by
  intro h
  have hparse : parse ⟨"summon.toml"⟩ commented =
      .ok (initial, [⟨"progam", ⟨"summon.toml"⟩, some 1, some "program"⟩]) := by
    decide +kernel
  have hnone : ∀ m ∈ marks commented, lineOf commented m ≠ 1 := by decide +kernel
  obtain ⟨doc, -, hall⟩ := h _ _ _ _ hparse (by decide +kernel)
  obtain ⟨path, -, hpoints, -⟩ := List.forall₂_cons_left_iff.mp hall
  obtain ⟨n, hn, m, hm, -, hline⟩ := hpoints.line
  obtain rfl : 1 = n := Option.some.inj hn
  exact hnone m hm hline

end OnDemand.Config
