import Mathlib.Data.List.Induction
import OnDemand.Proofs.Failures

/-!
# What is remembered, told by the history

A failure goes from memory in four ways: another record finds it expired, a look finds it expired, it
is forgotten, all are cleared. What a look finds is told by the uses alone: the latest one that
settles the name has to be a record that has not expired (`Failures.Recalls`, kept by each use). So no
use that leaves the name alone makes a difference to it (`history_decides`). What is held and not found
is another matter: a lasting failure drops the expired ones when it is recorded, and one that is not
recorded drops none (`expired_after_record`).
-/

namespace OnDemand.Failures

inductive Use where
  | record (n : Name) (e : CallError)
  | lookup (n : Name)
  | forget (n : Name)
  | clear
deriving DecidableEq

def use (f : Failures) (now : Moment) : Use → Failures
  | .record n e => (f.record now n e).1
  | .lookup n => (f.lookup now n).2
  | .forget n => (f.forget n).2
  | .clear => f.clear

def after (f : Failures) (history : List (Moment × Use)) : Failures :=
  history.foldl (fun f u => f.use u.1 u.2) f

/-- Whether a use settles what is remembered of a name: a lasting failure is recorded for it, or it is
forgotten, alone or with all others. -/
def Use.settles (n : Name) : Use → Bool
  | .record m e => m = n && e.isLasting
  | .lookup _ => false
  | .forget m => m = n
  | .clear => true

/-- The latest use that settles a name. -/
def latest (n : Name) (history : List (Moment × Use)) : Option (Moment × Use) :=
  (history.filter fun u => u.2.settles n).getLast?

/-- Each lasting failure of a history can be given a moment of expiry. -/
def Shown (ttl : Duration) (history : List (Moment × Use)) : Prop :=
  ∀ u ∈ history, ∀ n e, u.2 = .record n e → e.isLasting = true → (Moment.after? u.1 ttl).isSome = true

def Keyed (f : Failures) : Prop :=
  (f.entries.map (·.name)).Nodup

def Use.leaves (ttl : Duration) (n : Name) (now : Moment) : Use → Option Failure
  | .record _ e => (Moment.after? now ttl).map (⟨n, e, ·⟩)
  | _ => none

def found (f : Failures) (now : Moment) (n : Name) : Option Failure :=
  (f.find? n).filter (now < ·.expires)

/-- Each look from a moment on finds of a name what is given, until it expires. -/
def Recalls (f : Failures) (now : Moment) (n : Name) (given : Option Failure) : Prop :=
  ∀ later, now ≤ later → f.found later n = given.filter (later < ·.expires)

variable {f : Failures} {n m : Name} {now now' : Moment} {e : CallError} {u : Use} {ttl : Duration}
  {history : List (Moment × Use)} {given : Option Failure}

/-! ## One use -/

theorem ttl_use (f : Failures) (now : Moment) (u : Use) : (f.use now u).ttl = f.ttl := by
  cases u with
  | record n e => exact ttl_record f now n e
  | lookup n => exact ttl_lookup f now n
  | forget n => rfl
  | clear => rfl

theorem Keyed.filter (h : f.Keyed) (p : Failure → Bool) :
    Keyed { f with entries := f.entries.filter p } :=
  List.Sublist.nodup (List.filter_sublist.map _) h

theorem Keyed.use (h : f.Keyed) (now : Moment) (u : Use) : (f.use now u).Keyed := by
  cases u with
  | record n e =>
    have hswept : (f.sweep now).Keyed := h.filter _
    by_cases he : e.isLasting = true
    · cases hnow : Moment.after? now f.ttl with
      | none => simpa only [Failures.use, record_of_overflow n he hnow] using hswept
      | some expires =>
        -- the name is erased before it is added again
        have hkept : ((f.sweep now).erase n).Keyed := hswept.filter _
        have hfree : n ∉ ((f.sweep now).erase n).entries.map (·.name) := by simp [erase]
        simp only [Failures.use, record_of_lasting he hnow, Keyed, List.map_append, List.map_singleton]
        refine List.nodup_append.mpr ⟨hkept, by simp, ?_⟩
        rintro a ha b hb rfl
        rw [List.mem_singleton.mp hb] at ha
        exact hfree ha
    · simpa only [Failures.use, record_of_not_lasting f now n (eq_false_of_ne_true he)] using h
  | lookup n =>
    simp only [Failures.use, lookup]
    split
    · exact h
    · split
      · exact h
      · exact h.filter _
  | forget n => exact h.filter _
  | clear => exact List.nodup_nil

theorem find?_filter (n : Name) (p : Failure → Bool) : ∀ {l : List Failure}, (l.map (·.name)).Nodup →
    (l.filter p).find? (·.name = n) = (l.find? (·.name = n)).filter p
  | [], _ => rfl
  | x :: l, h => by
    rw [List.map_cons, List.nodup_cons] at h
    have ih := find?_filter n p h.2
    by_cases hx : x.name = n
    · have hnone : l.find? (·.name = n) = none := by
        rw [List.find?_eq_none]
        intro y hy
        have hne : y.name ≠ n := fun heq => h.1 (hx ▸ heq ▸ List.mem_map_of_mem hy)
        simpa using hne
      rw [hnone] at ih
      cases hp : p x <;> simp [hx, hp, ih, Option.filter]
    · cases hp : p x <;> simp [hx, hp, ih]

theorem find?_erase_of_ne (f : Failures) (hn : m ≠ n) : (f.erase m).find? n = f.find? n := by
  unfold find? erase
  rw [List.find?_filter]
  refine congrArg (f.entries.find? ·) (funext fun x => ?_)
  by_cases hx : x.name = n <;> simp [hx, hn.symm]

theorem lookup_eq_found (f : Failures) (now : Moment) (n : Name) :
    (f.lookup now n).1 = (f.found now n).map (·.error) := by
  unfold lookup found
  cases f.find? n with
  | none => rfl
  | some x => by_cases hx : now < x.expires <;> simp [hx, Option.filter]

theorem filter_filter_expires (o : Option Failure) (h : now ≤ now') :
    (o.filter (now < ·.expires)).filter (now' < ·.expires) = o.filter (now' < ·.expires) := by
  cases o with
  | none => rfl
  | some x =>
    by_cases hx : now < x.expires
    · simp [Option.filter, hx]
    · have hx' : ¬ now' < x.expires := fun hlt => hx (Nat.lt_of_le_of_lt h hlt)
      simp [Option.filter, hx, hx']

theorem find?_use_of_settles (hs : u.settles n = true) (hshown : Shown f.ttl [(now, u)]) :
    (f.use now u).find? n = u.leaves f.ttl n now := by
  cases u with
  | record m e =>
    obtain ⟨rfl, he⟩ : m = n ∧ e.isLasting = true := by simpa [Use.settles] using hs
    obtain ⟨expires, hexp⟩ := Option.isSome_iff_exists.mp (hshown _ (List.mem_singleton_self _) m e rfl he)
    obtain ⟨expires', hexp', hfind⟩ := find?_record he (record_of_lasting (n := m) he hexp)
    rw [hexp, Option.some.injEq] at hexp'
    subst hexp'
    simp only [use, record_of_lasting he hexp, hfind, Use.leaves, hexp, Option.map_some]
  | lookup m => cases hs
  | forget m =>
    obtain rfl : m = n := by simpa [Use.settles] using hs
    exact find?_erase f m
  | clear => rfl

theorem found_use (hk : f.Keyed) (hs : u.settles n = false) (h : now ≤ now') :
    (f.use now u).found now' n = f.found now' n := by
  -- what a sweep drops has expired, and is not found later either
  have hswept : (f.sweep now).found now' n = f.found now' n := by
    unfold found
    rw [show (f.sweep now).find? n = (f.find? n).filter (now < ·.expires) from find?_filter n _ hk,
      filter_filter_expires _ h]
  cases u with
  | record m e =>
    by_cases he : e.isLasting = true
    · have hn : m ≠ n := by simpa [Use.settles, he] using hs
      cases hexp : Moment.after? now f.ttl with
      | none => rw [use, record_of_overflow m he hexp, hswept]
      | some expires =>
        have hkept : ((f.sweep now).erase m).find? n = (f.sweep now).find? n := find?_erase_of_ne _ hn
        rw [← hswept, use, record_of_lasting he hexp]
        unfold found
        rw [← hkept]
        simp [find?, List.find?_append, hn]
    · rw [use, record_of_not_lasting f now m (eq_false_of_ne_true he)]
  | lookup m =>
    rw [use]
    unfold lookup
    cases hm : f.find? m with
    | none => rfl
    | some x =>
      by_cases hx : now < x.expires
      · simp only [hx, if_true]
      · simp only [hx, if_false]
        unfold found
        by_cases hmn : m = n
        · subst hmn
          have hx' : ¬ now' < x.expires := fun hlt => hx (Nat.lt_of_le_of_lt h hlt)
          simp [find?_erase, hm, Option.filter, hx']
        · rw [find?_erase_of_ne f hmn]
  | forget m =>
    have hmn : m ≠ n := by simpa [Use.settles] using hs
    unfold found
    rw [show (f.use now (.forget m)).find? n = f.find? n from find?_erase_of_ne f hmn]
  | clear => cases hs

theorem Recalls.use (h : f.Recalls now n given) (hk : f.Keyed) (hle : now ≤ now')
    (hshown : Shown f.ttl [(now', u)]) : (f.use now' u).Recalls now' n
      (if u.settles n then u.leaves f.ttl n now' else given) := by
  intro later hlater
  by_cases hs : u.settles n = true
  · rw [if_pos hs, found, find?_use_of_settles hs hshown]
  · rw [if_neg hs, found_use hk (eq_false_of_ne_true hs) hlater, h later (Nat.le_trans hle hlater)]

theorem expires_record (he : e.isLasting = true) {x : Failure} (hx : x ∈ (f.record now m e).1.entries)
    (hn : x.name ≠ m) : now < x.expires := by
  have hswept : ∀ {y}, y ∈ (f.sweep now).entries → now < y.expires := fun hy => by
    simpa using (List.mem_filter.mp hy).2
  cases hexp : Moment.after? now f.ttl with
  | none =>
    rw [record_of_overflow m he hexp] at hx
    exact hswept hx
  | some expires =>
    rw [record_of_lasting he hexp] at hx
    rcases List.mem_append.mp hx with hx | hx
    · exact hswept (List.mem_filter.mp hx).1
    · exact absurd (congrArg Failure.name (List.mem_singleton.mp hx)) hn

/-! ## A history -/

theorem after_concat (f : Failures) (history : List (Moment × Use)) (t : Moment) (u : Use) :
    f.after (history ++ [(t, u)]) = (f.after history).use t u := by
  simp [after]

theorem ttl_after (f : Failures) (history : List (Moment × Use)) : (f.after history).ttl = f.ttl := by
  induction history using List.reverseRecOn with
  | nil => rfl
  | append_singleton history u ih => rw [after_concat, ttl_use, ih]

theorem keyed_after (ttl : Duration) (history : List (Moment × Use)) :
    ((empty ttl).after history).Keyed := by
  induction history using List.reverseRecOn with
  | nil => exact List.nodup_nil
  | append_singleton history u ih =>
    rw [after_concat]
    exact ih.use u.1 u.2

theorem latest_concat (n : Name) (history : List (Moment × Use)) (t : Moment) (u : Use) :
    latest n (history ++ [(t, u)]) = if u.settles n then some (t, u) else latest n history := by
  unfold latest
  rw [List.filter_append]
  cases hs : u.settles n <;> simp [hs]

def left (ttl : Duration) (n : Name) (history : List (Moment × Use)) : Option Failure :=
  (latest n history).bind fun u => u.2.leaves ttl n u.1

theorem recalls_after (n : Name) (hmono : (history.map (·.1) ++ [now]).Pairwise (· ≤ ·))
    (hshown : Shown ttl history) : ((empty ttl).after history).Recalls now n (left ttl n history) := by
  induction history using List.reverseRecOn generalizing now with
  | nil => exact fun later _ => rfl
  | append_singleton history u ih =>
    obtain ⟨t, u⟩ := u
    rw [List.map_append, List.map_singleton] at hmono
    obtain ⟨hbefore, -, hlast⟩ := List.pairwise_append.mp hmono
    have hnow : t ≤ now := hlast t (by simp) now (by simp)
    have hheld := ih hbefore fun v hv => hshown v (List.mem_append_left _ hv)
    have hone : Shown ((empty ttl).after history).ttl [(t, u)] := by
      rw [ttl_after]
      exact fun v hv => hshown v (List.mem_append_right _ hv)
    intro later hlater
    rw [after_concat, hheld.use (keyed_after ttl history) (Nat.le_refl t) hone later
      (Nat.le_trans hnow hlater),
      ttl_after]
    unfold left
    rw [latest_concat]
    split <;> rfl

theorem mem_of_latest {x : Moment × Use} (h : latest n history = some x) :
    x ∈ history ∧ x.2.settles n = true :=
  List.mem_filter.mp (List.mem_of_getLast? h)

/-- What is left of a name and has not expired is the error of the latest use that settled it: a record
whose time has not passed. -/
theorem left_live_iff (hshown : Shown ttl history) :
    ((left ttl n history).filter (now < ·.expires)).map (·.error) = some e ↔
      ∃ t₀, latest n history = some (t₀, .record n e) ∧ now < t₀ + ttl.nanos := by
  unfold left
  cases hlatest : latest n history with
  | none => simp
  | some x =>
    obtain ⟨t₀, u⟩ := x
    obtain ⟨hmem, hs⟩ := mem_of_latest hlatest
    cases u with
    | record m e' =>
      obtain ⟨rfl, he⟩ : m = n ∧ e'.isLasting = true := by simpa [Use.settles] using hs
      obtain ⟨expires, hexp⟩ := Option.isSome_iff_exists.mp (hshown _ hmem m e' rfl he)
      obtain rfl : t₀ + ttl.nanos = expires := by
        unfold Moment.after? at hexp
        split at hexp
        · exact Option.some.inj hexp
        · cases hexp
      by_cases hlive : now < t₀ + ttl.nanos <;> simp [Use.leaves, hexp, Option.filter, hlive]
    | lookup m => simp [Use.leaves]
    | forget m => simp [Use.leaves]
    | clear => simp [Use.leaves]

/-- What a look finds of a name is told by the history: the error of a record that is the latest use to
settle the name, its time not passed. So no use that settles nothing of the name, in whatever way it
drops entries, makes a difference to a later look. A lasting failure that is recorded leaves no expired
one of another name, and any other failure changes nothing when it is recorded. -/
theorem history_decides (ttl : Duration) (history : List (Moment × Use)) (now : Moment)
    (hmono : (history.map (·.1) ++ [now]).Pairwise (· ≤ ·)) (hshown : Shown ttl history) :
    (∀ n e, (((empty ttl).after history).lookup now n).1 = some e ↔
      ∃ t₀, latest n history = some (t₀, .record n e) ∧ now < t₀ + ttl.nanos) ∧
    (∀ n before u rest, history = before ++ u :: rest → u.2.settles n = false →
      (((empty ttl).after (before ++ rest)).lookup now n).1 =
        (((empty ttl).after history).lookup now n).1) ∧
    (∀ m e, e.isLasting = true → ∀ x ∈ (((empty ttl).after history).record now m e).1.entries,
      x.name ≠ m → now < x.expires) ∧
    ∀ m e, e.isLasting = false →
      ((empty ttl).after history).record now m e = ((empty ttl).after history, .ok ()) := by
  have hrecalls := fun n => recalls_after n hmono hshown
  refine ⟨?_, ?_, ?_, ?_⟩
  · intro n e
    rw [lookup_eq_found, hrecalls n now (Nat.le_refl now), left_live_iff hshown]
  · rintro n before u rest rfl hs
    -- the use that settled the name last is still there
    have hsub : (before ++ rest).Sublist (before ++ u :: rest) :=
      List.Sublist.append_left (List.sublist_cons_self u rest) before
    have hsame : latest n (before ++ rest) = latest n (before ++ u :: rest) := by
      simp [latest, List.filter_append, hs]
    have hfewer : ((empty ttl).after (before ++ rest)).Recalls now n (left ttl n (before ++ rest)) :=
      recalls_after n (hmono.sublist ((hsub.map _).append_right [now])) fun v hv => hshown v (hsub.subset hv)
    rw [lookup_eq_found, lookup_eq_found, hfewer now (Nat.le_refl now), hrecalls n now (Nat.le_refl now)]
    unfold left
    rw [hsame]
  · exact fun m e he x hx hn => expires_record he hx hn
  · exact fun m e he => record_of_not_lasting _ now m he

namespace Example

def name (text : String) (h : Name.WellFormed text := by decide +kernel) : Name :=
  ⟨text, h⟩

def tenNanos : Duration := ⟨10, by decide⟩

def missing (n : Name) : CallError :=
  .resolution n "not found"

def relapse : List (Moment × Use) :=
  [(0, .record (name "q") (missing (name "q"))),
    (1, .forget (name "q")),
    (2, .record (name "q") (.compile [name "q"] "" [])),
    (3, .lookup (name "r")),
    (4, .record (name "r") (missing (name "r")))]

end Example

open Example in
/-- The later failure of `q` is found just before its time has passed and not when it has; the failure of
`r` makes no difference to it. -/
theorem history_decides_relapse :
    (((empty tenNanos).after relapse).lookup 11 (name "q")).1 = some (.compile [name "q"] "" []) ∧
    (((empty tenNanos).after relapse.dropLast).lookup 11 (name "q")).1 =
      some (.compile [name "q"] "" []) ∧
    (((empty tenNanos).after relapse).lookup 12 (name "q")).1 = none := by
  have hshown : Shown tenNanos relapse := by
    have hall : ∀ u ∈ relapse, (Moment.after? u.1 tenNanos).isSome = true := by decide +kernel
    exact fun u hu _ _ _ _ => hall u hu
  have hbefore := history_decides tenNanos relapse 11 (by decide +kernel) hshown
  have hafter := history_decides tenNanos relapse 12 (by decide +kernel) hshown
  have hlatest : latest (name "q") relapse = some (2, .record (name "q") (.compile [name "q"] "" [])) := by
    decide +kernel
  have hheld := (hbefore.1 (name "q") _).mpr ⟨2, hlatest, by decide⟩
  refine ⟨hheld, ?_, ?_⟩
  · rw [← hheld]
    have hsame := hbefore.2.1 (name "q") relapse.dropLast (4, .record (name "r") (missing (name "r"))) []
      rfl (by decide +kernel)
    rwa [List.append_nil] at hsame
  · rw [Option.eq_none_iff_forall_ne_some]
    intro e he
    obtain ⟨t₀, ht₀, hlive⟩ := (hafter.1 (name "q") e).mp he
    obtain ⟨rfl, -⟩ := Prod.mk.inj (Option.some.inj (hlatest.symm.trans ht₀))
    exact absurd hlive (by decide)

open Example in
/-- A timeout that is recorded is not remembered and drops nothing: the failure of `q`, expired, stays
held. -/
theorem expired_after_record :
    ∃ x ∈ (((empty tenNanos).after [(0, .record (name "q") (missing (name "q")))]).record 10 (name "r")
      (.timedOut .fetch tenNanos)).1.entries, x.name ≠ name "r" ∧ ¬ 10 < x.expires := by
  decide +kernel

end OnDemand.Failures
