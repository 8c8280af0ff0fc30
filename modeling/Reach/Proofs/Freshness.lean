import Mathlib.Algebra.Group.Nat.Defs
import Reach.Proofs.Substitution
import Reach.Rule

/-!
Which names a counter draws. As long as the numbers do not wrap around, a name tells the position at
which it was drawn, so that later names differ from earlier ones and from every name that the
counter avoids. Renaming a rule apart takes its variables to names that were not drawn before.
-/

namespace Reach

namespace Fresh

/-- The name with this stem and this number. -/
def numbered (stem : String) (number : Nat) : String :=
  stem ++ "#" ++ number.repr

/-- No name that is still to be drawn is the name of the variable. -/
def Avoids (fresh : Fresh) (v : Variable) : Prop :=
  ∀ stem number, fresh.position ≤ number → v.name ≠ numbered stem number

/-- The variable was drawn after `first` and before `last`. -/
def Between (first last : Fresh) (v : Variable) : Prop :=
  ∃ stem number, first.position ≤ number ∧ number < last.position ∧ v.name = numbered stem number

variable {fresh first middle last : Fresh} {v w : Variable}

/-- What follows the last mark is the same if the whole is. -/
theorem eq_of_append_cons {α : Type} {mark : α} {before before' after after' : List α}
    (absent : mark ∉ after) (absent' : mark ∉ after')
    (same : before ++ mark :: after = before' ++ mark :: after') : after = after' := by
  induction before generalizing before' with
  | nil =>
    cases before' with
    | nil => exact (List.cons.inj same).2
    | cons item rest =>
      obtain ⟨_, tail⟩ := List.cons.inj same
      exact absurd (tail ▸ by simp) absent
  | cons item rest ih =>
    cases before' with
    | nil =>
      obtain ⟨_, tail⟩ := List.cons.inj same
      exact absurd (tail ▸ by simp) absent'
    | cons item' rest' => exact ih (List.cons.inj same).2

/-- A name tells its number. -/
theorem number_eq_of_numbered {stem stem' : String} {number number' : Nat}
    (same : numbered stem number = numbered stem' number') : number = number' := by
  have absent (n : Nat) : '#' ∉ Nat.toDigits 10 n := by
    intro member
    have digit := Nat.isDigit_of_mem_toDigits (by decide) (by decide) member
    simp at digit
  have lists := congrArg String.toList same
  simp only [numbered, Nat.repr_eq_ofList_toDigits, String.toList_append, String.toList_ofList,
    List.append_assoc] at lists
  have digits : Nat.toDigits 10 number = Nat.toDigits 10 number' :=
    eq_of_append_cons (absent number) (absent number') lists
  calc
    number = Nat.ofDigitChars 10 (Nat.toDigits 10 number) 0 := Nat.ofDigitChars_ten_toDigits.symm
    _ = Nat.ofDigitChars 10 (Nat.toDigits 10 number') 0 := by rw [digits]
    _ = number' := Nat.ofDigitChars_ten_toDigits

theorem Avoids.mono (avoids : first.Avoids v) (later : first.position ≤ last.position) :
    last.Avoids v :=
  fun stem number reached => avoids stem number (Nat.le_trans later reached)

theorem Between.avoids (drawn : Between first last v) : last.Avoids v := by
  obtain ⟨stem, number, _, below, named⟩ := drawn
  intro stem' number' reached same
  have equal := number_eq_of_numbered (named.symm.trans same)
  omega

theorem Avoids.ne_of_between (avoids : first.Avoids v) (drawn : Between first last w) : v ≠ w := by
  rintro rfl
  obtain ⟨stem, number, reached, _, named⟩ := drawn
  exact avoids stem number reached named

theorem Between.mono (drawn : Between middle last v) (later : first.position ≤ middle.position) :
    Between first last v := by
  obtain ⟨stem, number, reached, below, named⟩ := drawn
  exact ⟨stem, number, Nat.le_trans later reached, below, named⟩

/-- Drawing a name takes the counter one further. -/
theorem variableLike_spec (base : Variable) (fresh : Fresh) (unwrapped : fresh.position < 2 ^ 64) :
    (fresh.variableLike base).1.name = numbered (stem base.name) fresh.position ∧
      (fresh.variableLike base).1.sort = base.sort := by
  have number : (UInt64.ofNat fresh.position).toNat = fresh.position :=
    UInt64.toNat_ofNat_of_lt' unwrapped
  refine ⟨?_, rfl⟩
  simp only [variableLike, draw, next, number]
  rfl

theorem between_variableLike (base : Variable) (unwrapped : fresh.position < 2 ^ 64)
    (later : fresh.position < last.position) : Between fresh last (fresh.variableLike base).1 :=
  ⟨_, _, Nat.le_refl _, later, (variableLike_spec base fresh unwrapped).1⟩

@[simp]
theorem variableLike_position (base : Variable) (fresh : Fresh) :
    (fresh.variableLike base).2.position = fresh.position + 1 :=
  rfl

end Fresh

namespace Rule

/-- The substitution takes these variables, and no others, to distinct variables of the same sort
that were drawn on the way. -/
structure Renames (s : Subst) (vars : List Variable) (first last : Fresh) : Prop where
  bound : ∀ v ∈ vars, ∃ w, s.get? v = some (.var w) ∧ w.sort = v.sort ∧ Fresh.Between first last w
  free : ∀ v, v ∉ vars → s.get? v = none
  injective : ∀ v ∈ vars, ∀ w ∈ vars, s.get? v = s.get? w → v = w

/-- The renaming of some variables on top of a substitution. -/
def renameOnto (vars : List Variable) (start : Subst × Fresh) : Subst × Fresh :=
  vars.foldl (fun (s, fresh) v =>
    let (w, fresh) := fresh.variableLike v
    (s.insert v (.var w), fresh)) start

theorem renameOnto_cons (v : Variable) (vars : List Variable) (s : Subst) (fresh : Fresh) :
    renameOnto (v :: vars) (s, fresh) =
      renameOnto vars (s.insert v (.var (fresh.variableLike v).1), (fresh.variableLike v).2) :=
  rfl

theorem position_renameOnto (vars : List Variable) (s : Subst) (fresh : Fresh) :
    (renameOnto vars (s, fresh)).2.position = fresh.position + vars.length := by
  induction vars generalizing s fresh with
  | nil => rfl
  | cons v rest ih =>
    rw [renameOnto_cons, ih, Fresh.variableLike_position, List.length_cons]
    omega

theorem get?_renameOnto_of_not_mem {vars : List Variable} {v : Variable} (absent : v ∉ vars)
    (s : Subst) (fresh : Fresh) : (renameOnto vars (s, fresh)).1.get? v = s.get? v := by
  induction vars generalizing s fresh with
  | nil => rfl
  | cons first rest ih =>
    obtain ⟨differ, later⟩ := not_or.mp (mt List.mem_cons.mpr absent)
    rw [renameOnto_cons, ih later, Assoc.get?_insert, if_neg differ]

private theorem renameOnto_spec {vars : List Variable} (distinct : vars.Nodup) (s : Subst) (fresh : Fresh)
    (unwrapped : fresh.position + vars.length ≤ 2 ^ 64) :
    (∀ v ∈ vars, ∃ w, (renameOnto vars (s, fresh)).1.get? v = some (.var w) ∧ w.sort = v.sort ∧
        Fresh.Between fresh (renameOnto vars (s, fresh)).2 w) ∧
      ∀ v ∈ vars, ∀ w ∈ vars, (renameOnto vars (s, fresh)).1.get? v =
        (renameOnto vars (s, fresh)).1.get? w → v = w := by
  induction vars generalizing s fresh with
  | nil => exact ⟨nofun, nofun⟩
  | cons first rest ih =>
    obtain ⟨absent, distinct⟩ := List.nodup_cons.mp distinct
    rw [List.length_cons] at unwrapped
    have here : fresh.position < 2 ^ 64 := by omega
    have after := fun s => position_renameOnto rest s (fresh.variableLike first).2
    rw [Fresh.variableLike_position] at after
    obtain ⟨bound, injective⟩ := ih distinct (s.insert first (.var (fresh.variableLike first).1))
      (fresh.variableLike first).2 (by rw [Fresh.variableLike_position]; omega)
    have head := get?_renameOnto_of_not_mem absent
      (s.insert first (.var (fresh.variableLike first).1)) (fresh.variableLike first).2
    rw [Assoc.get?_insert, if_pos rfl] at head
    rw [renameOnto_cons]
    -- The first variable takes the first name, which no later one can be.
    have apart : ∀ v ∈ rest, (renameOnto rest (s.insert first (.var (fresh.variableLike first).1),
        (fresh.variableLike first).2)).1.get? v ≠ some (.var (fresh.variableLike first).1) := by
      intro v member same
      obtain ⟨w, found, _, drawn⟩ := bound v member
      rw [same] at found
      cases found
      have avoids : (fresh.variableLike first).2.Avoids (fresh.variableLike first).1 :=
        (Fresh.between_variableLike first here (Nat.lt_succ_self _)).avoids
      exact avoids.ne_of_between drawn rfl
    constructor
    · intro v member
      rcases List.mem_cons.mp member with rfl | member
      · refine ⟨_, head, (Fresh.variableLike_spec v fresh here).2, ?_⟩
        exact Fresh.between_variableLike v here (by rw [after]; omega)
      · obtain ⟨w, found, sorted, drawn⟩ := bound v member
        exact ⟨w, found, sorted, drawn.mono (by rw [Fresh.variableLike_position]; omega)⟩
    · intro v memberV w memberW same
      rcases List.mem_cons.mp memberV with rfl | laterV
      · rcases List.mem_cons.mp memberW with rfl | laterW
        · rfl
        · exact absurd (same.symm.trans head) (apart w laterW)
      · rcases List.mem_cons.mp memberW with rfl | laterW
        · exact absurd (same.trans head) (apart v laterV)
        · exact injective v laterV w laterW same

/-- Renaming apart takes the variables of a rule to new ones. -/
theorem renames_freshRenaming {vars : List Variable} (distinct : vars.Nodup) (fresh : Fresh)
    (unwrapped : (freshRenaming vars fresh).2.position ≤ 2 ^ 64) :
    (freshRenaming vars fresh).2.position = fresh.position + vars.length ∧
      Renames (freshRenaming vars fresh).1 vars fresh (freshRenaming vars fresh).2 := by
  have position : (freshRenaming vars fresh).2.position = fresh.position + vars.length :=
    position_renameOnto vars .empty fresh
  obtain ⟨bound, injective⟩ := renameOnto_spec distinct .empty fresh (position ▸ unwrapped)
  exact ⟨position, bound, fun v absent => get?_renameOnto_of_not_mem absent .empty fresh, injective⟩

end Rule

end Reach
