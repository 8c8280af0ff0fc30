import Mathlib.Data.List.Perm.Subperm
import Reach.Subst

/-!
Finite maps are the same up to order exactly when they look up the same, and substitutions that
look up the same are applied in the same way.
-/

namespace Reach

namespace Assoc

variable {κ α : Type} [DecidableEq κ] {map first second : Assoc κ α} {key : κ} {value : α}

private theorem find_eq_some_iff {entries : List (κ × α)} (distinct : (entries.map Prod.fst).Nodup) :
    find key entries = some value ↔ (key, value) ∈ entries := by
  induction entries with
  | nil => simp [find]
  | cons entry rest ih =>
    obtain ⟨present, held⟩ := entry
    obtain ⟨absent, distinctRest⟩ := List.nodup_cons.mp distinct
    rw [find, List.mem_cons, Prod.mk.injEq]
    split
    · next same =>
      subst same
      constructor
      · rintro ⟨⟩
        exact .inl ⟨rfl, rfl⟩
      · rintro (⟨_, rfl⟩ | member)
        · rfl
        · exact absurd (List.mem_map_of_mem member) absent
    · next differ =>
      rw [ih distinctRest]
      exact ⟨.inr, fun either => either.resolve_left fun same => differ same.1.symm⟩

/-- What is looked up is what was put in. -/
theorem get?_eq_some_iff : map.get? key = some value ↔ (key, value) ∈ map.entries :=
  find_eq_some_iff map.distinct

theorem isSome_get?_iff : (map.get? key).isSome = true ↔ key ∈ map.keys := by
  rw [Option.isSome_iff_exists, keys, List.mem_map]
  constructor
  · rintro ⟨value, found⟩
    exact ⟨(key, value), get?_eq_some_iff.mp found, rfl⟩
  · rintro ⟨⟨_, value⟩, member, rfl⟩
    exact ⟨value, get?_eq_some_iff.mpr member⟩

theorem isEmpty_iff : map.isEmpty = true ↔ ∀ key, map.get? key = none := by
  constructor
  · intro empty key
    have bare : map.entries = [] := List.isEmpty_iff.mp empty
    rw [get?, bare]
    rfl
  · intro absent
    refine List.isEmpty_iff.mpr (List.eq_nil_iff_forall_not_mem.mpr ?_)
    rintro ⟨key, value⟩ member
    have found := get?_eq_some_iff.mpr member
    rw [absent key] at found
    cases found

omit [DecidableEq κ] in
theorem length_keys (map : Assoc κ α) : map.keys.length = map.size := by
  rw [keys, List.length_map]
  rfl

/-- Maps agree exactly when they look up the same. -/
theorem agrees_iff [DecidableEq α] :
    first.agrees second = true ↔ ∀ key, first.get? key = second.get? key := by
  simp only [agrees, Bool.and_eq_true, beq_iff_eq, List.all_eq_true, Prod.forall]
  constructor
  · rintro ⟨size, found⟩ key
    have included : first.keys ⊆ second.keys := fun key member => by
      obtain ⟨⟨_, value⟩, among, rfl⟩ := List.mem_map.mp member
      exact isSome_get?_iff.mp (by rw [found _ _ among]; rfl)
    have perm : first.keys.Perm second.keys := by
      have distinct : first.keys.Nodup := first.distinct
      refine (distinct.subperm included).perm_of_length_le (Nat.le_of_eq ?_)
      rw [length_keys, length_keys, size]
    cases held : first.get? key with
    | some value => exact (found key value (get?_eq_some_iff.mp held)).symm
    | none =>
      have absent : ¬(second.get? key).isSome = true := by
        rw [isSome_get?_iff, ← perm.mem_iff, ← isSome_get?_iff, held]
        simp
      exact (Option.not_isSome_iff_eq_none.mp absent).symm
  · intro same
    have perm : first.keys.Perm second.keys := by
      refine (List.perm_ext_iff_of_nodup first.distinct second.distinct).mpr fun key => ?_
      exact isSome_get?_iff.symm.trans ((by rw [same]) : _ ↔ _) |>.trans isSome_get?_iff
    refine ⟨?_, fun key value member => ?_⟩
    · rw [← length_keys, ← length_keys, perm.length_eq]
    · rw [← same, get?_eq_some_iff.mpr member]

end Assoc

namespace Subst

variable {s other : Subst}

private theorem image_eq_of_get?_eq (same : ∀ v, s.get? v = other.get? v) : s.image = other.image := by
  funext v
  rw [image, image, same]

/-- Agreeing substitutions are applied in the same way. -/
theorem apply_eq_of_get?_eq (same : ∀ v, s.get? v = other.get? v) : s.apply = other.apply := by
  have empty : s.isEmpty = other.isEmpty := by
    rw [Bool.eq_iff_iff, Assoc.isEmpty_iff, Assoc.isEmpty_iff]
    simp only [same]
  funext term
  rw [apply, apply, empty, algebra, algebra, image_eq_of_get?_eq same]

end Subst

end Reach
