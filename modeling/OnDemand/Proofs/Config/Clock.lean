import OnDemand.Config.Basic
import OnDemand.Proofs.Engine.Clock

/-!
# The times of a configuration

Bounds in milliseconds stay far below what the clock goes to, alone and added up, so at any ordinary
moment the clock shows the end of every wait. The time that failures are remembered is given in
seconds and checked by nobody, and a call breaks off where it is too long for the clock
(`calls_unbroken_iff`).
-/

namespace OnDemand

/-! ## Sums that exist -/

namespace Moment

/-- The clock has come less than half of its way. -/
def Ordinary (now : Moment) : Prop :=
  now < 1 <<< 62 * nanosPerSecond

theorem Ordinary.after? {now : Moment} {d : Duration} (hnow : now.Ordinary)
    (hd : d.nanos < 1 <<< 62 * nanosPerSecond) : now.after? d ≠ none := by
  have hsum : now + d.nanos < 1 <<< 63 * nanosPerSecond :=
    Nat.lt_of_lt_of_le (Nat.add_lt_add hnow hd) (by decide)
  rw [Moment.after?, if_pos hsum]
  exact Option.some_ne_none _

end Moment

namespace Config

open Engine

theorem nanos_ofMillis (ms : UInt64) :
    (Duration.ofMillis ms).nanos < 1 <<< 61 * nanosPerSecond := by
  have := ms.toNat_lt
  simp only [Duration.ofMillis, nanosPerSecond]
  omega

theorem add?_ofMillis (f k : UInt64) : ∃ d, (Duration.ofMillis f).add? (.ofMillis k) = some d ∧
    d.nanos < 1 <<< 62 * nanosPerSecond := by
  have hsum := Nat.add_lt_add (nanos_ofMillis f) (nanos_ofMillis k)
  have hwide : (Duration.ofMillis f).nanos + (Duration.ofMillis k).nanos <
      1 <<< 64 * nanosPerSecond :=
    Nat.lt_trans hsum (by decide)
  refine ⟨⟨_, hwide⟩, ?_, Nat.lt_of_lt_of_le hsum (by decide)⟩
  rw [Duration.add?, dif_pos hwide]

theorem after?_ofMillis {now : Moment} (hnow : now.Ordinary) (timeout : Option UInt64) :
    ∀ d ∈ timeout.map Duration.ofMillis, Moment.after? now d ≠ none := by
  intro d hd
  obtain ⟨ms, -, rfl⟩ := Option.map_eq_some_iff.mp hd
  exact hnow.after? (Nat.lt_trans (nanos_ofMillis ms) (by decide))

/-! ## Calls under a configuration -/

theorem limits_shown (c : Config) {now : Moment} (hnow : now.Ordinary) : c.limits.Shown now where
  total := by
    unfold Config.limits Limits.total?
    cases c.fetchTimeout with
    | none => exact ⟨none, rfl, by simp⟩
    | some f =>
      cases c.compileTimeout with
      | none => exact ⟨none, rfl, by simp⟩
      | some k =>
        obtain ⟨d, hadd, hd⟩ := add?_ofMillis f k
        refine ⟨some d, congrArg (Option.map some) hadd, ?_⟩
        intro d' hd'
        obtain rfl := Option.some.inj hd'
        exact hnow.after? hd
  fetch := after?_ofMillis hnow c.fetchTimeout
  compile := after?_ofMillis hnow c.compileTimeout

/-- In the past all calls were asked under the limits of a configuration. -/
def Bounds (c : Config) (past : List (State × Action)) : Prop :=
  ∀ p ∈ past, ∀ l ∈ p.2.limits?, l = c.limits

variable {cfg : Settings} {store : Store} {start last : Moment} {n : Name}

theorem unbroken_of_ttl (c : Config) (hlast : last.Ordinary)
    (httl : ∀ d ∈ c.ttl, Moment.after? last d ≠ none) {past : List (State × Action)} {s : State}
    (h : Run cfg (.fresh start store c.ttl) past s) (hl : c.Bounds past) (hs : s.now ≤ last) (i : Nat) :
    s.view Stage.overflow? i = none := by
  by_contra hne
  have hshown := (c.limits_shown hlast).mono hs
  obtain ⟨o, ho⟩ := Option.ne_none_iff_exists'.mp hne
  obtain ⟨u, hu, hout⟩ := (h.broken_iff rfl hl hshown).mp ⟨o, ho⟩
  exact h.not_outlasts (fun d hd => Moment.after?_mono hs (httl d hd)) hu hout

theorem exists_broken (c : Config) (hle : start ≤ last) (hremote : cfg.isRemote n = true)
    (hstore : store.contains n = false) {d : Duration} (hd : c.ttl = some d)
    (hnow : Moment.after? last d = none) :
    ∃ past s o, Run cfg (.fresh start store c.ttl) past s ∧ c.Bounds past ∧ s.now ≤ last ∧
      s.view Stage.overflow? 0 = some o := by
  obtain ⟨nanos, rfl⟩ := Nat.exists_eq_add_of_le hle
  have hget : store.get? n = none := by simpa [Store.contains] using hstore
  obtain ⟨past, s, o, hrun, hl, htime, ho⟩ := exists_broken_lookup (l := c.limits) hremote hget hnow
  rw [hd]
  exact ⟨past, s, o, hrun, hl, Nat.le_of_eq htime, ho⟩

/-- Up to an ordinary moment the clock shows the end of every wait that a configuration allows. In all
runs up to then no call breaks off exactly when the clock shows, at that moment, how long failures are
remembered; and what breaks a call off is that it records a lasting failure for longer. -/
theorem calls_unbroken_iff (c : Config) (hle : start ≤ last) (hlast : last.Ordinary)
    (hremote : cfg.isRemote n = true) (hstore : store.contains n = false) :
    (∀ now, now ≤ last → c.limits.Shown now) ∧
    ((∀ past s, Run cfg (.fresh start store c.ttl) past s → c.Bounds past → s.now ≤ last →
      ∀ i, s.view Stage.overflow? i = none) ↔ ∀ d ∈ c.ttl, Moment.after? last d ≠ none) ∧
    ∀ past s, Run cfg (.fresh start store c.ttl) past s → c.Bounds past → s.now ≤ last →
      ∀ i, (∃ o, s.view Stage.overflow? i = some o) ↔
        ∃ u, (u, .advance i) ∈ past ∧ u.Outlasts (.advance i) := by
  have hshown : ∀ now, now ≤ last → c.limits.Shown now := fun now h => (c.limits_shown hlast).mono h
  refine ⟨hshown, ⟨fun hall d hd hnow => ?_, fun httl past s h hl hs i => ?_⟩,
    fun past s h hl hs i => h.broken_iff rfl hl (hshown _ hs)⟩
  · obtain ⟨past, s, o, h, hl, hs, hbroken⟩ := c.exists_broken hle hremote hstore hd hnow
    rw [hall past s h hl hs 0] at hbroken
    cases hbroken
  · exact c.unbroken_of_ttl hlast httl h hl hs i

def timed (failureTtl : UInt64) : Config :=
  { initial with policy := ⟨["x"], []⟩, fetchTimeout := some 18446744073709551615,
                 compileTimeout := some 18446744073709551615, failureTtl := some failureTtl }

theorem day_unbroken :
    (timed 86400).validate = .ok () ∧
    ∀ past s, Run Sample.settings (.fresh 0 .empty (timed 86400).ttl) past s →
      (timed 86400).Bounds past → s.now ≤ 1 <<< 61 * nanosPerSecond →
      ∀ i, s.view Stage.overflow? i = none := by
  refine ⟨rfl, ?_⟩
  have hshown : ∀ d ∈ (timed 86400).ttl, Moment.after? (1 <<< 61 * nanosPerSecond) d ≠ none := by
    decide +kernel
  have hordinary : Moment.Ordinary (1 <<< 61 * nanosPerSecond) := by
    unfold Moment.Ordinary
    decide
  have hremote : Sample.settings.isRemote Sample.x = true := by decide +kernel
  have hstore : Store.empty.contains Sample.x = false := rfl
  exact ((timed 86400).calls_unbroken_iff (Nat.zero_le _) hordinary hremote hstore).2.1.mpr hshown

/-- The longest time that can be written is valid, and breaks the lookup of a missing name off. -/
theorem longest_breaks :
    ¬ ∀ c : Config, c.validate = .ok () → ∀ past s,
      Run Sample.settings (.fresh nanosPerSecond .empty c.ttl) past s → c.Bounds past →
      s.now ≤ nanosPerSecond → ∀ i, s.view Stage.overflow? i = none := by
  intro h
  have hremote : Sample.settings.isRemote Sample.x = true := by decide +kernel
  have hstore : Store.empty.contains Sample.x = false := rfl
  have httl : (timed 9223372036854775807).ttl = some (.ofSeconds 9223372036854775807) := rfl
  obtain ⟨past, s, o, hrun, hl, hs, hbroken⟩ := (timed 9223372036854775807).exists_broken
    (Nat.le_refl nanosPerSecond) hremote hstore httl (by decide +kernel)
  rw [h _ rfl past s hrun hl hs 0] at hbroken
  cases hbroken

end Config

end OnDemand
