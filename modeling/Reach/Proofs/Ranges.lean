import Reach.Constraint.Bounds

/-!
What the ranges of the local decision procedure mean: a comparison with a constant leaves exactly the
integers that compare so, and a range is empty exactly when no integer is left. Excluded points only
matter at the ends of a bounded interval, and there are not more steps than excluded points to take.
-/

namespace Reach.Range

variable {range : Range} {value bound : Int} {comparison : Comparison}

/-- The integer is left. -/
structure Contains (range : Range) (value : Int) : Prop where
  lower : ∀ bound ∈ range.lower, bound ≤ value
  upper : ∀ bound ∈ range.upper, value ≤ bound
  excluded : value ∉ range.excluded

theorem contains_unbounded (value : Int) : Contains {} value :=
  ⟨nofun, nofun, nofun⟩

private theorem contains_raiseLower_iff :
    (range.raiseLower bound).Contains value ↔ range.Contains value ∧ bound ≤ value := by
  obtain ⟨lower, upper, excluded⟩ := range
  cases lower with
  | none =>
    constructor
    · intro contains
      exact ⟨⟨nofun, contains.upper, contains.excluded⟩, contains.lower bound rfl⟩
    · intro ⟨contains, below⟩
      exact ⟨fun _ same => Option.some.inj same ▸ below, contains.upper, contains.excluded⟩
  | some old =>
    constructor
    · intro contains
      have both := Int.max_le.mp (contains.lower (max bound old) rfl)
      exact ⟨⟨fun _ same => Option.some.inj same ▸ both.2, contains.upper, contains.excluded⟩, both.1⟩
    · intro ⟨contains, below⟩
      have both := Int.max_le.mpr ⟨below, contains.lower old rfl⟩
      exact ⟨fun _ same => Option.some.inj same ▸ both, contains.upper, contains.excluded⟩

private theorem contains_lowerUpper_iff :
    (range.lowerUpper bound).Contains value ↔ range.Contains value ∧ value ≤ bound := by
  obtain ⟨lower, upper, excluded⟩ := range
  cases upper with
  | none =>
    constructor
    · intro contains
      exact ⟨⟨contains.lower, nofun, contains.excluded⟩, contains.upper bound rfl⟩
    · intro ⟨contains, above⟩
      exact ⟨contains.lower, fun _ same => Option.some.inj same ▸ above, contains.excluded⟩
  | some old =>
    constructor
    · intro contains
      have both := Int.le_min.mp (contains.upper (min bound old) rfl)
      exact ⟨⟨contains.lower, fun _ same => Option.some.inj same ▸ both.2, contains.excluded⟩, both.1⟩
    · intro ⟨contains, above⟩
      have both := Int.le_min.mpr ⟨above, contains.upper old rfl⟩
      exact ⟨contains.lower, fun _ same => Option.some.inj same ▸ both, contains.excluded⟩

/-- A comparison leaves the integers that compare so. -/
theorem contains_restrict_iff : (range.restrict comparison bound).Contains value ↔
    range.Contains value ∧ comparison.holds value bound = true := by
  cases comparison <;>
    simp only [Comparison.holds, decide_eq_true_eq, beq_iff_eq, bne_iff_ne, restrict,
      contains_lowerUpper_iff, contains_raiseLower_iff, and_assoc]
  case lt => exact and_congr_right fun _ => Int.le_sub_one_iff
  case gt => exact and_congr_right fun _ => Int.add_one_le_iff
  case eq => exact and_congr_right fun _ => by omega
  case ne =>
    constructor
    · intro contains
      have absent := contains.excluded
      simp only [List.mem_append, List.mem_singleton, not_or] at absent
      exact ⟨⟨contains.lower, contains.upper, absent.1⟩, absent.2⟩
    · rintro ⟨contains, differ⟩
      refine ⟨contains.lower, contains.upper, ?_⟩
      simp only [List.mem_append, List.mem_singleton, not_or]
      exact ⟨contains.excluded, differ⟩

section Ends

variable {excluded : List Int}

private theorem skipUp_le (hi : Int) (absent : value ∉ excluded) (steps : Nat)
    {lo : Int} (below : lo ≤ value) : skipUp excluded hi steps lo ≤ value := by
  induction steps generalizing lo with
  | zero => exact below
  | succ steps ih =>
    rw [skipUp]
    split
    · next passed =>
      have differ : lo ≠ value := fun same => absent (same ▸ passed.2)
      exact ih (by omega)
    · exact below

private theorem le_skipDown (lo : Int) (absent : value ∉ excluded) (steps : Nat)
    {hi : Int} (above : value ≤ hi) : value ≤ skipDown excluded lo steps hi := by
  induction steps generalizing hi with
  | zero => exact above
  | succ steps ih =>
    rw [skipDown]
    split
    · next passed =>
      have differ : hi ≠ value := fun same => absent (same ▸ passed.2)
      exact ih (by omega)
    · exact above

private theorem le_skipUp (excluded : List Int) (hi : Int) (steps : Nat) (lo : Int) :
    lo ≤ skipUp excluded hi steps lo := by
  induction steps generalizing lo with
  | zero => exact Int.le_refl lo
  | succ steps ih =>
    rw [skipUp]
    split
    · have further := ih (lo + 1)
      omega
    · exact Int.le_refl lo

private theorem skipDown_le (excluded : List Int) (lo : Int) (steps : Nat) (hi : Int) :
    skipDown excluded lo steps hi ≤ hi := by
  induction steps generalizing hi with
  | zero => exact Int.le_refl hi
  | succ steps ih =>
    rw [skipDown]
    split
    · have further := ih (hi - 1)
      omega
    · exact Int.le_refl hi

/-- The steps suffice: where they end, the point is not excluded or lies beyond the interval. Each
step leaves one excluded point less ahead. -/
theorem skipUp_free {hi : Int} {steps : Nat} {lo : Int}
    (enough : (excluded.filter (lo ≤ ·)).length ≤ steps) :
    hi < skipUp excluded hi steps lo ∨ skipUp excluded hi steps lo ∉ excluded := by
  induction steps generalizing lo with
  | zero =>
    right
    intro member
    have ahead : lo ∈ excluded.filter (lo ≤ ·) := List.mem_filter.mpr ⟨member, by simp⟩
    rw [List.length_eq_zero_iff.mp (Nat.le_zero.mp enough)] at ahead
    cases ahead
  | succ steps ih =>
    rw [skipUp]
    by_cases passed : lo ≤ hi ∧ lo ∈ excluded
    · rw [if_pos passed]
      refine ih ?_
      have fewer : (excluded.filter (lo + 1 ≤ ·)).length < (excluded.filter (lo ≤ ·)).length := by
        have narrower : excluded.filter (lo + 1 ≤ ·) =
            (excluded.filter (lo ≤ ·)).filter (lo + 1 ≤ ·) := by
          rw [List.filter_filter]
          refine List.filter_congr fun point _ => ?_
          simp only [← Bool.decide_and, decide_eq_decide]
          omega
        rw [narrower]
        refine List.length_filter_lt_length_iff_exists.mpr ⟨lo, ?_, fun still => ?_⟩
        · exact List.mem_filter.mpr ⟨passed.2, by simp⟩
        · have impossible := of_decide_eq_true still
          omega
      omega
    · rw [if_neg passed]
      by_cases member : lo ∈ excluded
      · left
        have outside : ¬lo ≤ hi := fun inside => passed ⟨inside, member⟩
        omega
      · exact .inr member

end Ends

private theorem Contains.not_isEmpty (contains : range.Contains value) : range.isEmpty = false := by
  unfold isEmpty
  split
  · next lo hi lower upper =>
    have up := skipUp_le hi contains.excluded range.excluded.length (contains.lower lo lower)
    have down := le_skipDown (skipUp range.excluded hi range.excluded.length lo)
      contains.excluded range.excluded.length (contains.upper hi upper)
    simp only [decide_eq_false_iff_not]
    omega
  · rfl

/-- There are integers above a bound and all excluded points. -/
theorem exists_ge_not_mem (lo : Int) (excluded : List Int) : ∃ value, lo ≤ value ∧ value ∉ excluded := by
  have every : ∃ top, lo ≤ top ∧ ∀ point ∈ excluded, point < top := by
    induction excluded with
    | nil => exact ⟨lo, Int.le_refl lo, nofun⟩
    | cons first rest ih =>
      obtain ⟨top, above, below⟩ := ih
      refine ⟨max top (first + 1), by omega, List.forall_mem_cons.mpr ⟨by omega, fun point member => ?_⟩⟩
      have less := below point member
      omega
  obtain ⟨top, above, below⟩ := every
  exact ⟨top, above, fun member => Int.lt_irrefl top (below top member)⟩

/-- There are integers below a bound and all excluded points. -/
theorem exists_le_not_mem (hi : Int) (excluded : List Int) : ∃ value, value ≤ hi ∧ value ∉ excluded := by
  obtain ⟨value, above, absent⟩ := exists_ge_not_mem (-hi) (excluded.map (- ·))
  refine ⟨-value, by omega, fun member => absent (List.mem_map.mpr ⟨-value, member, ?_⟩)⟩
  exact Int.neg_neg value

/-- A range is empty exactly when no integer is left. -/
theorem isEmpty_iff : range.isEmpty = true ↔ ∀ value, ¬range.Contains value := by
  constructor
  · intro empty value contains
    rw [contains.not_isEmpty] at empty
    cases empty
  intro none
  refine Bool.of_not_eq_false fun nonempty => ?_
  obtain ⟨lower, upper, excluded⟩ := range
  have found : ∃ value, (∀ bound ∈ lower, bound ≤ value) ∧ (∀ bound ∈ upper, value ≤ bound) ∧
      value ∉ excluded := by
    cases lower with
    | none =>
      cases upper with
      | none =>
        obtain ⟨value, _, absent⟩ := exists_ge_not_mem 0 excluded
        exact ⟨value, nofun, nofun, absent⟩
      | some hi =>
        obtain ⟨value, above, absent⟩ := exists_le_not_mem hi excluded
        exact ⟨value, nofun, fun _ same => Option.some.inj same ▸ above, absent⟩
    | some lo =>
      cases upper with
      | none =>
        obtain ⟨value, below, absent⟩ := exists_ge_not_mem lo excluded
        exact ⟨value, fun _ same => Option.some.inj same ▸ below, nofun, absent⟩
      | some hi =>
        have inside : skipUp excluded hi excluded.length lo ≤ hi := by
          have down := skipDown_le excluded (skipUp excluded hi excluded.length lo) excluded.length hi
          simp only [isEmpty, decide_eq_false_iff_not] at nonempty
          omega
        have free : skipUp excluded hi excluded.length lo ∉ excluded :=
          (skipUp_free (List.length_filter_le (lo ≤ ·) excluded)).resolve_left (by omega)
        refine ⟨skipUp excluded hi excluded.length lo, fun _ same => ?_, fun _ same => ?_, free⟩
        · exact Option.some.inj same ▸ le_skipUp excluded hi excluded.length lo
        · exact Option.some.inj same ▸ inside
  obtain ⟨value, below, above, absent⟩ := found
  exact none value ⟨below, above, absent⟩

end Reach.Range
