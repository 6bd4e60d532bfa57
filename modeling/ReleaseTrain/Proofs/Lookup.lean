import Mathlib.Data.List.Nodup

namespace ReleaseTrain

variable {α β : Type} [BEq α] [LawfulBEq α] {entries others : List (α × β)} {k : α} {b : β}

theorem lookup_eq_some_iff_mem (h : (entries.map Prod.fst).Nodup) :
    entries.lookup k = some b ↔ (k, b) ∈ entries := by
  induction entries with
  | nil => simp
  | cons e entries ih =>
    obtain ⟨key, other⟩ := e
    rw [List.map_cons, List.nodup_cons] at h
    by_cases hk : k = key
    · subst hk
      rw [List.lookup_cons, beq_self_eq_true, List.mem_cons]
      constructor
      · intro hsome
        cases hsome
        exact .inl rfl
      · intro hmem
        obtain heq | hmem := hmem
        · cases heq
          rfl
        · exact absurd (List.mem_map_of_mem hmem) h.1
    · have hne : (k == key) = false := by simp [hk]
      rw [List.lookup_cons, hne, List.mem_cons]
      simp [ih h.2, hk]

theorem lookup_eq_none_iff_notMem : entries.lookup k = none ↔ k ∉ entries.map Prod.fst := by
  rw [List.lookup_eq_none_iff]
  simp only [bne_iff_ne, List.mem_map, not_exists, not_and]
  exact ⟨fun h e he heq ↦ h e he heq.symm, fun h e he heq ↦ h e he heq.symm⟩

theorem eq_of_lookup (hkeys : entries.map Prod.fst = others.map Prod.fst)
    (once : (entries.map Prod.fst).Nodup) (h : ∀ key, entries.lookup key = others.lookup key) :
    entries = others := by
  induction entries generalizing others with
  | nil => exact (List.map_eq_nil_iff.1 hkeys.symm).symm
  | cons e entries ih =>
    obtain ⟨⟨k, v'⟩, others, rfl, hk, htail⟩ := List.map_eq_cons_iff.1 hkeys.symm
    obtain ⟨k, v⟩ := e
    obtain rfl := hk
    rw [List.map_cons, List.nodup_cons] at once
    have hv := h k
    rw [List.lookup_cons_self, List.lookup_cons_self] at hv
    cases hv
    refine congrArg _ (ih htail.symm once.2 fun key ↦ ?_)
    by_cases hkey : key = k
    · subst hkey
      have hnotMem : key ∉ others.map Prod.fst := by
        rw [htail]
        exact once.1
      rw [lookup_eq_none_iff_notMem.2 once.1, lookup_eq_none_iff_notMem.2 hnotMem]
    · have hrest := h key
      rwa [List.lookup_cons, List.lookup_cons, beq_false_of_ne hkey] at hrest

end ReleaseTrain
