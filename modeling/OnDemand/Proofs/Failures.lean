import OnDemand.Failures

/-!
# What is remembered of a failure

A lasting failure is found under its name once it is recorded, until it expires; any other is not
recorded. A look drops what it finds expired and nothing else.
-/

namespace OnDemand.Failures

variable {f f' : Failures} {n : Name} {now : Moment} {e : CallError}

theorem ttl_lookup (f : Failures) (now : Moment) (n : Name) : (f.lookup now n).2.ttl = f.ttl := by
  unfold lookup
  split
  · rfl
  · split <;> rfl

theorem ttl_record (f : Failures) (now : Moment) (n : Name) (e : CallError) :
    (f.record now n e).1.ttl = f.ttl := by
  unfold record
  split
  · split <;> rfl
  · rfl

theorem find?_erase (f : Failures) (n : Name) : (f.erase n).find? n = none := by
  simp [find?, erase]

theorem find?_of_subset (h : f.find? n = none) (hsub : ∀ x ∈ f'.entries, x ∈ f.entries) :
    f'.find? n = none := by
  rw [find?, List.find?_eq_none] at h ⊢
  exact fun x hx => h x (hsub x hx)

theorem find?_lookup (h : f.find? n = none) (now : Moment) (n' : Name) :
    (f.lookup now n').2.find? n = none := by
  unfold lookup
  split
  · exact h
  · split
    · exact h
    · exact find?_of_subset h fun x hx => (List.mem_filter.mp hx).1

theorem find?_of_lookup (h : f.lookup now n = (none, f')) : f'.find? n = none := by
  unfold lookup at h
  split at h
  · rename_i hnone
    exact (Prod.mk.inj h).2 ▸ hnone
  · split at h
    · cases (Prod.mk.inj h).1
    · exact (Prod.mk.inj h).2 ▸ find?_erase f n

theorem record_of_not_lasting (f : Failures) (now : Moment) (n : Name) (he : e.isLasting = false) :
    f.record now n e = (f, .ok ()) := by
  simp [record, he]

theorem record_of_lasting (he : e.isLasting = true) {expires : Moment}
    (h : Moment.after? now f.ttl = some expires) : f.record now n e =
      ({ f with entries := ((f.sweep now).erase n).entries ++ [⟨n, e, expires⟩] }, .ok ()) := by
  simp only [record, he, if_true, h]
  rfl

theorem record_of_overflow (n : Name) (he : e.isLasting = true) (h : Moment.after? now f.ttl = none) :
    f.record now n e = (f.sweep now, .error .deadline) := by
  simp only [record, he, if_true, h]

theorem find?_record (he : e.isLasting = true) (h : f.record now n e = (f', .ok ())) :
    ∃ expires, Moment.after? now f.ttl = some expires ∧ f'.find? n = some ⟨n, e, expires⟩ := by
  cases hnow : Moment.after? now f.ttl with
  | none =>
    rw [record_of_overflow n he hnow] at h
    cases (Prod.mk.inj h).2
  | some expires =>
    rw [record_of_lasting he hnow] at h
    obtain ⟨rfl, -⟩ := Prod.mk.inj h
    refine ⟨expires, rfl, ?_⟩
    have hkept : ((f.sweep now).erase n).entries.find? (·.name = n) = none := find?_erase _ n
    rw [find?, List.find?_append, hkept]
    simp

theorem find?_record_of_ne {n' : Name} (h : f.find? n = none) (hn : n' ≠ n) (now : Moment)
    (e : CallError) : (f.record now n' e).1.find? n = none := by
  have hswept : (f.sweep now).find? n = none :=
    find?_of_subset h fun x hx => (List.mem_filter.mp hx).1
  by_cases he : e.isLasting = true
  · cases hnow : Moment.after? now f.ttl with
    | none =>
      rw [record_of_overflow n' he hnow]
      exact hswept
    | some expires =>
      have hkept : ((f.sweep now).erase n').find? n = none :=
        find?_of_subset hswept fun x hx => (List.mem_filter.mp hx).1
      rw [find?] at hkept
      rw [record_of_lasting he hnow, find?, List.find?_append, hkept]
      simp [hn]
  · rw [record_of_not_lasting f now n' (eq_false_of_ne_true he)]
    exact h

end OnDemand.Failures
