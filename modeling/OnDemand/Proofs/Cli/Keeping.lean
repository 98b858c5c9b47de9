import Mathlib.Data.List.Chain
import OnDemand.Cli.Session
import OnDemand.Proofs.Config.Extension
import OnDemand.Proofs.Engine.Schedule
import OnDemand.Proofs.Mirror

/-!
# What sessions keep for each other

Each session loads what the directory of artifacts holds, stores more, and keeps what is new. As
long as the names of the store can be told apart, each session leaves a mirror of its store
(`mirrors_after`) and the next one loads what was kept. `sessions_keep_iff` says that nothing else
is needed, and that nothing less does: of two names with the same segments only one is loaded. The
sessions of the program are of this kind (`ran_of_call`).
-/

namespace OnDemand.Cli

open ArtifactDirectory FileTree OnDemand.Path

/-! ## Opening -/

namespace Loaded

variable {l : Loaded} {p : Place} {t : FileTree} {store : Store} {kept : List Name}

theorem openStore_spec (h : l.openStore p t = .ok (store, kept)) :
    ∃ as, l.artifacts.load t p.cwd = .ok as ∧ kept = as.map (·.name) ∧
      ∀ n, store.get? n = as.find? (·.name = n) := by
  unfold openStore at h
  split at h
  · cases h
  · rename_i as hload
    split at h
    · cases h
    · rename_i names store' hput
      obtain ⟨rfl, rfl⟩ := Prod.mk.inj (Except.ok.inj h)
      refine ⟨as, hload, rfl, fun n => ?_⟩
      rw [Store.get?_of_putAll hput, Store.get?_empty, Option.none_or]

theorem mem_kept (h : l.openStore p t = .ok (store, kept)) {n : Name} :
    n ∈ kept ↔ store.contains n = true := by
  obtain ⟨as, -, rfl, hget⟩ := openStore_spec h
  rw [Store.contains, hget, List.find?_isSome]
  simp

end Loaded

theorem Session.start_spec {p : Place} {l : Loaded} {listener : Listener} {t : FileTree} {s : Session}
    (h : Session.start p l listener t = .ok s) :
    l.validate = .ok () ∧ s.loaded = l ∧ l.openStore p t = .ok (s.world.state.store, s.kept) ∧
      s.world = ⟨.fresh p.now s.world.state.store l.config.ttl, t⟩ := by
  unfold Session.start at h
  split at h
  · cases h
  · cases h
  · rename_i hvalid _
    split at h
    · cases h
    · rename_i hopen
      obtain rfl := Except.ok.inj h
      exact ⟨hvalid, rfl, hopen, rfl⟩

/-- A session on the files of a place, from the moment the directory of artifacts is opened to the
moment it has been written. -/
structure Visit where
  place : Place
  before : FileTree
  opened : Store
  /-- The session at its end. -/
  session : Session
  after : FileTree

namespace Visit

def directory (v : Visit) : ArtifactDirectory :=
  v.session.loaded.artifacts

def separator (v : Visit) : Char :=
  v.directory.separator

def final (v : Visit) : Store :=
  v.session.world.state.store

/-- The session went well: the directory was loaded, artifacts were stored, and the new ones were
kept. What was loaded is still in the store. -/
structure Ran (v : Visit) : Prop where
  based : v.session.loaded.base.text ≠ ""
  validated : v.session.loaded.validate = .ok ()
  opening : v.session.loaded.openStore v.place v.before = .ok (v.opened, v.session.kept)
  storing : v.final.Extends v.opened
  working : v.directory.Undisturbed v.place.cwd v.before v.session.world.host
  keeping : ∃ n, v.session.keep v.place = (v.after, .ok n)

/-- The session works on a given directory; the separator is its own. -/
structure On (v : Visit) (d : ArtifactDirectory) (cwd : Location) : Prop where
  cwd : v.place.cwd = cwd
  directory : v.directory = { d with separator := v.separator }

/-- Sessions on one directory, each after the other and the first on a given tree. -/
def Follow (d : ArtifactDirectory) (cwd : Location) : FileTree → List Visit → Prop
  | _, [] => True
  | t, v :: vs => v.On d cwd ∧ d.Undisturbed cwd t v.before ∧ v.Ran ∧ Follow d cwd v.after vs

variable {v : Visit} {d : ArtifactDirectory} {cwd : Location} {t : FileTree}

/-! ## One session -/

theorem isSeparator_of_ran (h : v.Ran) : Name.isSeparator v.separator = true := by
  have hv := h.validated
  unfold Loaded.validate at hv
  have hvalid : v.session.loaded.config.validate = .ok () := by
    cases hc : v.session.loaded.config.validate with
    | ok _ => rfl
    | error e =>
      rw [hc] at hv
      cases hv
  show Name.isSeparator v.session.loaded.config.form.separator = true
  rcases Config.separator_of_validate hvalid with hor | hor <;> rw [hor] <;> rfl

theorem known_of_directory : v.directory.known = [] := rfl

theorem sound_of_ran (h : v.Ran) (hext : Stem v.directory.extension) : v.directory.Sound :=
  ⟨text_join_ne_empty h.based _, hext⟩

theorem opened_spec (h : v.Ran) : ∃ as, v.directory.load v.before v.place.cwd = .ok as ∧
    v.session.kept = as.map (·.name) ∧ ∀ n, v.opened.get? n = as.find? (·.name = n) :=
  Loaded.openStore_spec h.opening

theorem mem_kept (h : v.Ran) {n : Name} : n ∈ v.session.kept ↔ v.opened.contains n = true :=
  Loaded.mem_kept h.opening

theorem opened_sound (hd : v.directory.Sound) (h : v.Ran)
    (ht : v.directory.Tidy v.place.cwd v.before) {n : Name} {a : Artifact}
    (ha : v.opened.get? n = some a) :
    v.before.file? (v.directory.place v.place.cwd n) = some a.payload ∧
      v.directory.nameAt v.before v.place.cwd (v.directory.partsOf n.segments) = .ok n := by
  obtain ⟨as, hload, -, hget⟩ := opened_spec h
  obtain rfl := Store.name_of_get? ha
  rw [hget] at ha
  exact load_sound hd (isSeparator_of_ran h) ht hload (List.mem_of_find?_eq_some ha)

theorem opened_complete (hd : v.directory.Sound) (h : v.Ran)
    (ht : v.directory.Tidy v.place.cwd v.before) {n : Name} {bytes : ByteArray}
    (hf : v.before.file? (v.directory.place v.place.cwd n) = some bytes)
    (hn : v.directory.nameAt v.before v.place.cwd (v.directory.partsOf n.segments) = .ok n) :
    ∃ a, v.opened.get? n = some a ∧ a.payload = bytes := by
  obtain ⟨as, hload, -, hget⟩ := opened_spec h
  obtain ⟨a, ha, rfl, -⟩ := load_complete hd ht hload hf hn
  have hsome : (as.find? (·.name = a.name)).isSome := by
    rw [List.find?_isSome]
    exact ⟨a, ha, by simp⟩
  rw [← hget] at hsome
  obtain ⟨b, hb⟩ := Option.isSome_iff_exists.mp hsome
  refine ⟨b, hb, ?_⟩
  have hbytes := (opened_sound hd h ht hb).1
  rw [hf] at hbytes
  exact (Option.some.inj hbytes).symm

theorem tellable_of_carries (hd : v.directory.Sound) (h : v.Ran)
    (ht : v.directory.Tidy v.place.cwd v.before) {s : Store} (hs : v.opened.Carries s) :
    s.Tellable v.separator := by
  have hname : ∀ {n}, n ∈ s.names →
      v.directory.nameAt v.before v.place.cwd (v.directory.partsOf n.segments) = .ok n := by
    intro n hn
    obtain ⟨a, ha⟩ := Store.get?_of_contains (hs.contains (Store.mem_names.mp hn))
    exact (opened_sound hd h ht ha).2
  constructor
  · intro n hn m hm hsegments
    have h₁ := hname hn
    rw [hsegments, hname hm] at h₁
    exact (Except.ok.inj h₁).symm
  · intro n hn hstart
    exact spelled_of_nameFor hd known_of_directory (fun _ => isEntry_of_mem_listAt) hstart (hname hn)

theorem opened_of_mirrors (hd : v.directory.Sound) (h : v.Ran) {s : Store}
    (hm : v.directory.Mirrors v.place.cwd v.before s) (hs : s.Tellable v.separator) :
    v.opened.Carries s ∧ s.Carries v.opened := by
  have hname : ∀ {n}, s.contains n = true →
      v.directory.nameAt v.before v.place.cwd (v.directory.partsOf n.segments) = .ok n :=
    fun hn => nameAt_of_mirrors hd known_of_directory hm hs (Store.mem_names.mpr hn)
  constructor
  · intro n a ha
    exact opened_complete hd h hm.toTidy (hm.stored n a ha) (hname (Store.contains_of_get? ha))
  · intro n b hb
    obtain ⟨hfile, hn⟩ := opened_sound hd h hm.toTidy hb
    obtain ⟨m, hmem, hsegments⟩ := hm.files n _ hfile
    have hnm := hname hmem
    rw [hsegments, hn] at hnm
    obtain rfl := Except.ok.inj hnm
    obtain ⟨a, ha⟩ := Store.get?_of_contains hmem
    refine ⟨a, ha, ?_⟩
    rw [hm.stored _ a ha] at hfile
    exact Option.some.inj hfile

theorem base_of_read {p : Place} {t : FileTree} {file : Option Path} {l : Loaded}
    (h : Loaded.read p t file = .ok l) : l.base.text ≠ "" := by
  have hcwd : p.cwd.text ≠ "" := by
    unfold Location.text
    intro he
    exact absurd (String.append_eq_empty_iff.mp he).1 (by decide)
  unfold Loaded.read at h
  split at h
  · rename_i read _
    unfold Loaded.ofFile at h
    split at h
    · cases h
    · obtain rfl := Except.ok.inj h
      cases hp : read.parent?.filter (·.text ≠ "") with
      | none => simpa [hp] using hcwd
      | some parent =>
        have := (Option.filter_eq_some_iff.mp hp).2
        simpa [hp] using this
  · obtain rfl := Except.ok.inj h
    exact hcwd

/-- A session of the program that makes a call and then keeps what is new is such a session, if the
compiler leaves the directory alone. -/
theorem ran_of_call {p : Place} {l : Loaded} {listener : Listener} {t₀ t t' : FileTree}
    {file : Option Path} {s : Session} {r : Engine.Request} {n : Nat}
    (hl : Loaded.read p t₀ file = .ok l) (hs : Session.start p l listener t = .ok s)
    (hw : l.artifacts.Undisturbed p.cwd t (s.call p r).1.world.host)
    (hk : (s.call p r).1.keep p = (t', .ok n)) :
    Ran ⟨p, t, s.world.state.store, (s.call p r).1, t'⟩ := by
  obtain ⟨hvalid, rfl, hopen, -⟩ := Session.start_spec hs
  exact ⟨base_of_read hl, hvalid, hopen, (Engine.World.reaches_call _ _ _ r).store_extends, hw, n, hk⟩

/-! ## Keeping -/

theorem saves_of_ran (hd : v.directory.Sound) (h : v.Ran) :
    v.directory.Saves v.place.cwd v.session.world.host v.after v.session.fresh := by
  obtain ⟨n, hkeep⟩ := h.keeping
  unfold Session.keep at hkeep
  split at hkeep
  · rename_i t hsave
    obtain ⟨rfl, -⟩ := Prod.mk.inj hkeep
    exact save_spec hd hsave
  · cases (Prod.mk.inj hkeep).2

theorem mem_fresh (h : v.Ran) {a : Artifact} : a ∈ v.session.fresh ↔
    v.final.get? a.name = some a ∧ v.opened.contains a.name = false := by
  unfold Session.fresh
  rw [List.mem_filter, Store.mem_artifacts]
  simp [mem_kept h, final]

theorem tidy_after (hd : v.directory.Sound) (h : v.Ran)
    (ht : v.directory.Tidy v.place.cwd v.before) : v.directory.Tidy v.place.cwd v.after := by
  have ht := ht.undisturbed h.working
  have hsaves := saves_of_ran hd h
  -- a file is new, and then that of an artifact, or it was there before
  have hfile : ∀ {parts bytes}, parts ≠ [namesFile] → parts ≠ [processorsFile] →
      v.after.file? (v.directory.location v.place.cwd ++ parts) = some bytes →
      (∃ a ∈ v.session.fresh, parts = v.directory.partsOf a.name.segments) ∨
        v.session.world.host.file? (v.directory.location v.place.cwd ++ parts) = some bytes := by
    intro parts bytes hn hp hf
    rw [hsaves.file? _ (fun heq => hn (List.append_cancel_left heq))
      (fun heq => hp (List.append_cancel_left heq))] at hf
    rcases Option.or_eq_some_iff.mp hf with hf | ⟨-, hf⟩
    · obtain ⟨a, ha, -⟩ := Option.map_eq_some_iff.mp hf
      have hplace : v.directory.place v.place.cwd a.name =
          v.directory.location v.place.cwd ++ parts := by simpa using List.find?_some ha
      exact Or.inl ⟨a, List.mem_reverse.mp (List.mem_of_find?_eq_some ha),
        (List.append_cancel_left hplace).symm⟩
    · exact Or.inr hf
  refine ⟨hsaves.keyed ht.keyed, fun _ _ _ => hsaves.isDir, fun parts bytes hf => ?_,
    fun n bytes hf => ?_⟩
  · by_cases hn : parts = [namesFile]
    · exact Or.inl hn
    · by_cases hp : parts = [processorsFile]
      · exact Or.inr (Or.inl hp)
      · rcases hfile hn hp hf with ⟨a, -, ha⟩ | hf
        · exact Or.inr (Or.inr ⟨a.name, ha⟩)
        · exact ht.own parts bytes hf
  · rcases hfile (partsOf_ne_of_stem hd stem_namesFile n) (partsOf_ne_of_stem hd stem_processorsFile n)
      hf with ⟨a, ha, hparts⟩ | hf
    · rw [hparts]
      exact hsaves.short a ha
    · exact ht.short n bytes hf

def keptAt (v : Visit) (n : Name) : Option Artifact :=
  v.session.fresh.reverse.find? fun a =>
    v.directory.place v.place.cwd a.name = v.directory.place v.place.cwd n

theorem mem_of_keptAt (hd : v.directory.Sound) {n : Name} {a : Artifact} (h : v.keptAt n = some a) :
    a ∈ v.session.fresh ∧ a.name.segments = n.segments := by
  unfold keptAt at h
  refine ⟨List.mem_reverse.mp (List.mem_of_find?_eq_some h), ?_⟩
  exact (place_inj hd).mp (by simpa using List.find?_some h)

/-- Where no two names have the same segments, a stored artifact that is new is kept at the place of
its name, and nothing is at the place of one that was loaded. -/
theorem keptAt_eq (hd : v.directory.Sound) (h : v.Ran)
    (hapart : ∀ n ∈ v.final.names, ∀ m ∈ v.final.names, n.segments = m.segments → n = m)
    {n : Name} {a : Artifact} (ha : v.final.get? n = some a) :
    v.keptAt n = if v.opened.contains n then none else some a := by
  have hmem : ∀ {n a}, v.final.get? n = some a → n ∈ v.final.names :=
    fun ha => Store.mem_names.mpr (Store.contains_of_get? ha)
  -- whatever is kept there has the name
  have hsame : ∀ b, v.keptAt n = some b → b = a ∧ v.opened.contains n = false := by
    intro b hb
    obtain ⟨hfresh, hsegments⟩ := mem_of_keptAt hd hb
    obtain ⟨hget, hnew⟩ := (mem_fresh h).mp hfresh
    have hname := hapart _ (hmem hget) n (hmem ha) hsegments
    rw [hname] at hget hnew
    rw [ha] at hget
    exact ⟨(Option.some.inj hget).symm, hnew⟩
  cases hold : v.opened.contains n with
  | true =>
    cases hkept : v.keptAt n with
    | none => rfl
    | some b =>
      have hnew := (hsame b hkept).2
      rw [hold] at hnew
      cases hnew
  | false =>
    obtain rfl := Store.name_of_get? ha
    have hsome : (v.keptAt a.name).isSome := by
      unfold keptAt
      rw [List.find?_isSome]
      exact ⟨a, List.mem_reverse.mpr ((mem_fresh h).mpr ⟨ha, hold⟩), by simp⟩
    obtain ⟨b, hb⟩ := Option.isSome_iff_exists.mp hsome
    rw [hb, (hsame b hb).1]
    rfl

theorem file?_after (hd : v.directory.Sound) (h : v.Ran) (n : Name) :
    v.after.file? (v.directory.place v.place.cwd n) =
      ((v.keptAt n).map (·.payload)).or (v.before.file? (v.directory.place v.place.cwd n)) := by
  have hwork : v.session.world.host.file? (v.directory.place v.place.cwd n) =
      v.before.file? (v.directory.place v.place.cwd n) := h.working.file? _
  rw [(saves_of_ran hd h).file? _ (place_ne_of_stem hd stem_namesFile n)
    (place_ne_of_stem hd stem_processorsFile n), hwork]
  rfl

theorem mem_listAt_after (hd : v.directory.Sound) (h : v.Ran) {line : String} :
    line ∈ v.directory.listAt v.after v.place.cwd namesFile ↔
      (line ∈ v.directory.listAt v.before v.place.cwd namesFile ∨
        ∃ a ∈ v.session.fresh, a.name.text = line) ∧ isEntry line = true := by
  have hwork : v.directory.listAt v.session.world.host v.place.cwd namesFile =
      v.directory.listAt v.before v.place.cwd namesFile := listAt_congr (h.working.file? _)
  rw [(saves_of_ran hd h).names, hwork, List.mem_filter, mem_extended]
  simp

/-- A session that opened the mirror of a store leaves the mirror of its own, if no two names of it
have the same segments. -/
theorem mirrors_after (hd : v.directory.Sound) (h : v.Ran) {s : Store}
    (hm : v.directory.Mirrors v.place.cwd v.before s)
    (hs : v.opened.Carries s ∧ s.Carries v.opened)
    (hapart : ∀ n ∈ v.final.names, ∀ m ∈ v.final.names, n.segments = m.segments → n = m) :
    v.directory.Mirrors v.place.cwd v.after v.final := by
  have hgrown : v.final.Carries s := h.storing.carries.trans hs.1
  refine ⟨tidy_after hd h hm.toTidy, fun n bytes hf => ?_, fun n a ha => ?_, fun line hl => ?_,
    fun n hn hstart => ?_⟩
  · rw [file?_after hd h] at hf
    rcases Option.or_eq_some_iff.mp hf with hf | ⟨-, hf⟩
    · obtain ⟨a, ha, -⟩ := Option.map_eq_some_iff.mp hf
      obtain ⟨hfresh, hsegments⟩ := mem_of_keptAt hd ha
      exact ⟨a.name, Store.contains_of_get? ((mem_fresh h).mp hfresh).1, hsegments⟩
    · obtain ⟨m, hstored, hsegments⟩ := hm.files n bytes hf
      exact ⟨m, hgrown.contains hstored, hsegments⟩
  · rw [file?_after hd h, keptAt_eq hd h hapart ha]
    cases hold : v.opened.contains n with
    | true =>
      -- what was loaded has stood there all along
      obtain ⟨b, hb⟩ := Store.get?_of_contains hold
      obtain ⟨c, hc, hpayload⟩ := hs.2 n b hb
      have hab := h.storing n b hb
      rw [ha] at hab
      rw [hm.stored n c hc, hpayload, Option.some.inj hab]
      rfl
    | false => rfl
  · rcases ((mem_listAt_after hd h).mp hl).1 with hl | ⟨a, ha, rfl⟩
    · obtain ⟨n, hn, htext⟩ := hm.listed line hl
      exact ⟨n, hgrown.contains hn, htext⟩
    · exact ⟨a.name, Store.contains_of_get? ((mem_fresh h).mp ha).1, rfl⟩
  · refine (mem_listAt_after hd h).mpr ⟨?_, by rw [isEntry_text, hstart]; rfl⟩
    cases hold : v.opened.contains n with
    | true => exact Or.inl (hm.named n (hs.2.contains hold) hstart)
    | false =>
      obtain ⟨a, ha⟩ := Store.get?_of_contains hn
      obtain rfl := Store.name_of_get? ha
      exact Or.inr ⟨a, (mem_fresh h).mpr ⟨ha, hold⟩, rfl⟩

/-! ## Sessions after sessions -/

theorem On.sound (h : v.On d cwd) (hran : v.Ran) (hext : Stem d.extension) :
    v.directory.Sound := by
  refine sound_of_ran hran ?_
  rw [h.directory]
  exact hext

theorem On.tidy_iff (h : v.On d cwd) : v.directory.Tidy v.place.cwd t ↔ d.Tidy cwd t := by
  rw [h.cwd, h.directory]
  exact ⟨fun ht => ⟨ht.keyed, ht.reached, ht.own, ht.short⟩,
    fun ht => ⟨ht.keyed, ht.reached, ht.own, ht.short⟩⟩

theorem On.mirrors_iff (h : v.On d cwd) {s : Store} :
    v.directory.Mirrors v.place.cwd t s ↔ d.Mirrors cwd t s := by
  constructor
  · intro hm
    have ht := h.tidy_iff.mp hm.toTidy
    rw [h.cwd, h.directory] at hm
    exact ⟨ht, hm.files, hm.stored, hm.listed, hm.named⟩
  · intro hm
    have ht := h.tidy_iff.mpr hm.toTidy
    rw [h.cwd, h.directory] at ht ⊢
    exact ⟨ht, hm.files, hm.stored, hm.listed, hm.named⟩

theorem tellable_of_chain (hext : Stem d.extension) : ∀ {vs : List Visit} {t : FileTree}, d.Tidy cwd t →
    Follow d cwd t vs → (vs.IsChain fun u v => v.opened.Carries u.final) →
    vs.IsChain fun u v => u.final.Tellable v.separator
  | [], _, _, _, _ => .nil
  | [v], _, _, _, _ => .singleton v
  | u :: v :: vs, t, ht, hf, hc => by
    obtain ⟨hon, hu, hran, hrest⟩ := hf
    obtain ⟨hcarries, hc⟩ := List.isChain_cons_cons.mp hc
    have hbefore := hon.tidy_iff.mpr (ht.undisturbed hu)
    have hafter := hon.tidy_iff.mp (tidy_after (hon.sound hran hext) hran hbefore)
    have ⟨hon', hu', hran', _⟩ := hrest
    have hopen := hon'.tidy_iff.mpr (hafter.undisturbed hu')
    exact List.isChain_cons_cons.mpr ⟨tellable_of_carries (hon'.sound hran' hext) hran' hopen hcarries,
      tellable_of_chain hext hafter hrest hc⟩

/-- Where the names of each session can be told apart, each session loads all that those before it
had, and nothing that the one before it had not. -/
theorem carries_of_chain (hext : Stem d.extension) : ∀ {vs : List Visit} {t : FileTree} {s : Store},
    d.Mirrors cwd t s → Follow d cwd t vs → (∀ v ∈ vs.head?, s.Tellable v.separator) →
    (vs.IsChain fun u v => u.final.Tellable v.separator) →
    (∀ v ∈ vs, v.opened.Carries s) ∧ (vs.Pairwise fun u v => v.opened.Carries u.final) ∧
      (∀ v ∈ vs.head?, s.Carries v.opened) ∧ vs.IsChain fun u v => u.final.Carries v.opened
  | [], _, _, _, _, _, _ => by simp
  | v :: vs, t, s, hm, hf, hhead, hc => by
    obtain ⟨hon, hu, hran, hrest⟩ := hf
    obtain ⟨htell, hc⟩ := List.isChain_cons.mp hc
    have hbefore := hon.mirrors_iff.mpr (hm.undisturbed hu)
    have hopened := opened_of_mirrors (hon.sound hran hext) hran hbefore (hhead v rfl)
    have hfirst : ∀ u ∈ (v :: vs).head?, s.Carries u.opened := by
      intro u hu
      obtain rfl := Option.some.inj hu
      exact hopened.2
    cases vs with
    | nil => exact ⟨by simpa using hopened.1, by simp, hfirst, .singleton v⟩
    | cons w ws =>
      -- what this session leaves is what the next one finds
      have hafter := hon.mirrors_iff.mp
        (mirrors_after (hon.sound hran hext) hran hbefore hopened (htell w rfl).apart)
      obtain ⟨hall, hpairs, hnext, hchain⟩ := carries_of_chain hext hafter hrest htell hc
      refine ⟨fun u hu => ?_, List.pairwise_cons.mpr ⟨hall, hpairs⟩, hfirst,
        List.isChain_cons.mpr ⟨hnext, hchain⟩⟩
      rcases List.mem_cons.mp hu with rfl | hu
      · exact hopened.1
      · exact (hall u hu).trans (hran.storing.carries.trans hopened.1)

/-- Take sessions one after the other on a directory that has no files before the first. Each loads
all names of the sessions before it, with their payloads, if and only if at the end of each session
but the last the names can be told apart, with the separator of the next. A session then loads no
name that the one before it had not, and none with other bytes. -/
theorem sessions_keep_iff (hext : Stem d.extension) (hk : t.Keyed)
    (hfresh : ∀ parts, t.file? (d.location cwd ++ parts) = none) {vs : List Visit}
    (hf : Follow d cwd t vs) :
    ((vs.Pairwise fun u v => v.opened.Carries u.final) ↔
      vs.IsChain fun u v => u.final.Tellable v.separator) ∧
    ((vs.IsChain fun u v => u.final.Tellable v.separator) →
      vs.IsChain fun u v => u.final.Carries v.opened) := by
  have hm := mirrors_empty hk hfresh
  have hgood := fun hc => carries_of_chain hext hm hf (fun v _ => Store.tellable_empty v.separator) hc
  refine ⟨⟨fun hp => ?_, fun hc => (hgood hc).2.1⟩, fun hc => (hgood hc).2.2.2⟩
  exact tellable_of_chain hext hm.toTidy hf hp.isChain

/-! ## Sessions on a directory in the root -/

namespace Sample

/-- The initial configuration, with the artifacts in a directory `s`. -/
def loaded : Loaded :=
  ⟨{ Config.initial with artifacts := ⟨"/s"⟩ }, none, [], ⟨"/"⟩⟩

def directory : ArtifactDirectory :=
  loaded.artifacts

def place : Place :=
  { environment := [], cwd := [], programs := fun _ _ _ _ => .error (.file .notFound), now := 0 }

def store (as : List Artifact) : Store :=
  Store.empty.insertAll as

def session (before : FileTree) (as more : List Artifact) : Session :=
  ⟨loaded, ⟨loaded.config.form, "cc"⟩, .none, as.map (·.name),
    ⟨.fresh 0 ((store as).insertAll more) none, before⟩⟩

def visit (before : FileTree) (as more : List Artifact) : Visit where
  place := place
  before := before
  opened := store as
  session := session before as more
  after := ((session before as more).keep place).1

theorem stem_extension : Stem directory.extension :=
  stem_of_all (by decide +kernel) (by decide +kernel)

/-- `a.b` and `a/b`, which have the same segments, with one byte each. -/
def dotted (n : UInt8) : Artifact :=
  .plain ⟨"a.b", by decide +kernel⟩ ⟨#[n]⟩

def slashed (n : UInt8) : Artifact :=
  .plain ⟨"a/b", by decide +kernel⟩ ⟨#[n]⟩

theorem on_visit (before : FileTree) (as more : List Artifact) :
    (visit before as more).On directory [] := by
  constructor
  · rfl
  · show directory = { directory with separator := directory.separator }
    rfl

theorem undisturbed_self (h : t.Keyed) : d.Undisturbed cwd t t :=
  ⟨h, id, fun _ => rfl⟩

theorem ran_visit {before : FileTree} {as more : List Artifact} (hk : before.Keyed)
    (hload : directory.load before [] = .ok as)
    (hput : Store.empty.putAll as = .ok (as.map (·.name), store as))
    (hkeep : ((session before as more).keep place).2.isOk = true) :
    (visit before as more).Ran := by
  have hbase : loaded.base.text ≠ "" := by decide +kernel
  have hvalid : loaded.validate = .ok () := by decide +kernel
  refine ⟨hbase, hvalid, ?_, Store.extends_insertAll _ _, undisturbed_self hk, ?_⟩
  · show loaded.openStore place before = .ok (store as, as.map (·.name))
    have hload : loaded.artifacts.load before place.cwd = .ok as := hload
    unfold Loaded.openStore
    rw [hload]
    simp only [hput]
  · simp only [visit]
    cases h : ((session before as more).keep place).2 with
    | error e =>
      rw [h] at hkeep
      cases hkeep
    | ok n => exact ⟨n, by rw [← h]⟩

theorem follow_visit {before : FileTree} {as more : List Artifact} {vs : List Visit}
    (hk : before.Keyed) (hload : directory.load before [] = .ok as)
    (hput : Store.empty.putAll as = .ok (as.map (·.name), store as))
    (hkeep : ((session before as more).keep place).2.isOk = true)
    (hrest : Follow directory [] (visit before as more).after vs) :
    Follow directory [] before (visit before as more :: vs) :=
  ⟨on_visit _ _ _, undisturbed_self hk, ran_visit hk hload hput hkeep, hrest⟩

theorem keyed_empty : FileTree.empty.Keyed := List.nodup_nil

theorem file?_empty (parts : List String) :
    FileTree.empty.file? (directory.location [] ++ parts) = none := by
  unfold FileTree.file? FileTree.entry?
  split
  · rename_i h
    split at h <;> cases h
  · rfl

/-- What the first of two sessions leaves, which keeps a name that the second loads. -/
def kept : FileTree :=
  (visit .empty [] [dotted 1]).after

def clashed : FileTree :=
  (visit .empty [] [dotted 1, slashed 2]).after

def crossed : FileTree :=
  (visit clashed [slashed 2] [dotted 3]).after

def holding (lines : String) (n : UInt8) : FileTree :=
  ⟨[(["s", "NAMES"], .file lines.toUTF8), (["s", "a", "b.bin"], .file ⟨#[n]⟩),
    (["s", "a"], .dir), (["s"], .dir)]⟩

/-- What is below the directory, the directory in it before the file. -/
def below (lines : String) (n : UInt8) : List (List String × Entry) :=
  [(["NAMES"], .file lines.toUTF8), (["a"], .dir), (["a", "b.bin"], .file ⟨#[n]⟩)]

theorem load_holding {lines : String} {n : UInt8} {names : List String} {a : Artifact}
    (hnames : directory.readList (holding lines n) [] namesFile = .ok names)
    (hperm : (below lines n).Perm ((holding lines n).found ["s"]))
    (hnodup : ((below lines n).map fun f => (holding lines n).ages ["s"] f.1).Nodup)
    (hfiles : (below lines n).Pairwise fun a b =>
      (compare ((holding lines n).ages ["s"] a.1) ((holding lines n).ages ["s"] b.1)).isLE)
    (hload : directory.loadEntries .none (directory.nameIndex names) [] (([], .dir) :: below lines n) =
      .ok [a]) : directory.load (holding lines n) [] = .ok [a] := by
  have hlook : (holding lines n).look [] directory.root = .ok (["s"], .dir) := rfl
  have hprocessors : directory.readList (holding lines n) [] processorsFile = .ok [] := rfl
  exact load_of_sorted hlook hprocessors hnames (entriesBelow_of_perm hperm hnodup hfiles) hload
    (by simp)

theorem keep_kept : (session .empty [] [dotted 1]).keep place = (holding "a.b\n" 1, .ok 1) := by
  decide +kernel

theorem keep_clashed : (session .empty [] [dotted 1, slashed 2]).keep place =
    (holding "a.b\na/b\n" 2, .ok 2) := by
  decide +kernel

theorem keep_crossed : (session (holding "a.b\na/b\n" 2) [slashed 2] [dotted 3]).keep place =
    (holding "a.b\na/b\n" 3, .ok 1) := by
  decide +kernel

theorem kept_eq : kept = holding "a.b\n" 1 := by
  unfold kept visit
  rw [keep_kept]

theorem clashed_eq : clashed = holding "a.b\na/b\n" 2 := by
  unfold clashed visit
  rw [keep_clashed]

theorem crossed_eq : crossed = holding "a.b\na/b\n" 3 := by
  unfold crossed visit
  rw [clashed_eq, keep_crossed]

theorem loads : directory.load .empty [] = .ok [] ∧ directory.load kept [] = .ok [dotted 1] ∧
    directory.load clashed [] = .ok [slashed 2] ∧ directory.load crossed [] = .ok [slashed 3] := by
  have hkept : directory.readList (holding "a.b\n" 1) [] namesFile = .ok ["a.b"] := by
    decide +kernel
  have hclashed : directory.readList (holding "a.b\na/b\n" 2) [] namesFile = .ok ["a.b", "a/b"] := by
    decide +kernel
  have hcrossed : directory.readList (holding "a.b\na/b\n" 3) [] namesFile = .ok ["a.b", "a/b"] := by
    decide +kernel
  rw [kept_eq, clashed_eq, crossed_eq]
  refine ⟨by decide +kernel, ?_, ?_, ?_⟩
  · exact load_holding hkept (by decide +kernel) (by decide +kernel) (by decide +kernel)
      (by decide +kernel)
  · exact load_holding hclashed (by decide +kernel) (by decide +kernel) (by decide +kernel)
      (by decide +kernel)
  · exact load_holding hcrossed (by decide +kernel) (by decide +kernel) (by decide +kernel)
      (by decide +kernel)

def reopened : List Visit :=
  [visit .empty [] [dotted 1], visit kept [dotted 1] []]

theorem follow_reopened : Follow directory [] .empty reopened := by
  have hkept : Follow directory [] kept [visit kept [dotted 1] []] :=
    follow_visit (by rw [kept_eq]; decide +kernel) loads.2.1 (by decide +kernel)
      (by rw [kept_eq]; decide +kernel) trivial
  exact follow_visit keyed_empty loads.1 (by decide +kernel) (by rw [keep_kept]; rfl) hkept

end Sample

theorem sessions_keep_iff_reopened :
    Sample.reopened.Pairwise fun u v => v.opened.Carries u.final := by
  have htell : ((Sample.store []).insertAll [Sample.dotted 1]).Tellable '/' := by decide +kernel
  have hchain : Sample.reopened.IsChain fun u v => u.final.Tellable v.separator :=
    List.isChain_cons_cons.mpr ⟨htell, .singleton _⟩
  exact (sessions_keep_iff Sample.stem_extension Sample.keyed_empty Sample.file?_empty
    Sample.follow_reopened).1.mpr hchain

namespace Sample

def alternating : List Visit :=
  [visit .empty [] [dotted 1, slashed 2], visit clashed [slashed 2] [dotted 3],
    visit crossed [slashed 3] []]

theorem follow_alternating : Follow directory [] .empty alternating := by
  have hcrossed : Follow directory [] crossed [visit crossed [slashed 3] []] :=
    follow_visit (by rw [crossed_eq]; decide +kernel) loads.2.2.2 (by decide +kernel)
      (by rw [crossed_eq]; decide +kernel) trivial
  have hclashed : Follow directory [] clashed
      [visit clashed [slashed 2] [dotted 3], visit crossed [slashed 3] []] :=
    follow_visit (by rw [clashed_eq]; decide +kernel) loads.2.2.1 (by decide +kernel)
      (by rw [clashed_eq, keep_crossed]; rfl) hcrossed
  exact follow_visit keyed_empty loads.1 (by decide +kernel) (by rw [keep_clashed]; rfl) hclashed

end Sample

/-- Three sessions on a directory without files before the first. The second does not load a name
that the first stored, and the third loads a name with the bytes that the second stored under
another. -/
theorem name_loads_other_bytes :
    ∃ (d : ArtifactDirectory) (cwd : Location) (t : FileTree) (u v w : Visit) (a b : Artifact),
      Stem d.extension ∧ t.Keyed ∧ (∀ parts, t.file? (d.location cwd ++ parts) = none) ∧
      Follow d cwd t [u, v, w] ∧
      (¬ [u, v, w].Pairwise fun u v => v.opened.Carries u.final) ∧
      v.final.get? a.name = some a ∧ w.opened.get? b.name = some b ∧ b.payload = a.payload ∧
      u.final.get? b.name ≠ some b ∧ v.final.get? b.name ≠ some b := by
  refine ⟨Sample.directory, [], .empty, _, _, _, Sample.dotted 3, Sample.slashed 3,
    Sample.stem_extension, Sample.keyed_empty, Sample.file?_empty, Sample.follow_alternating,
    fun hp => ?_, ?_⟩
  · have hcarries := (List.pairwise_cons.mp hp).1 _ (List.mem_cons_self)
    have hlost := hcarries (Sample.dotted 1).name (Sample.dotted 1) (by decide +kernel)
    have hnone : (Sample.store [Sample.slashed 2]).get? (Sample.dotted 1).name = none := by
      decide +kernel
    obtain ⟨b, hb, -⟩ := hlost
    have hb : (Sample.store [Sample.slashed 2]).get? (Sample.dotted 1).name = some b := hb
    rw [hnone] at hb
    cases hb
  · decide +kernel

end Visit

end OnDemand.Cli
