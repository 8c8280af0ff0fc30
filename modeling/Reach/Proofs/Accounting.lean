import Reach.Proofs.Recording
import Reach.Proofs.Simulation

/-!
What the report of an action says, where nothing that is at hand can be drawn: from the counter at its
start to the counter at its end it goes through all draws, and what is drawn is not at hand.
-/

namespace Reach

/-- From one counter to the other these are all draws; nothing at hand can be drawn any more, and neither
can a variable of a state that a renamed rule is to be applied to. -/
inductive Accounted : Fresh → List Event → Fresh → Prop
  | done (fresh : Fresh) : Accounted fresh [] fresh
  | drawn {fresh last : Fresh} {base : Variable} {atHand : List Variable} {events : List Event}
      (clears : fresh.Clears atHand) (rest : Accounted (fresh.variableLike base).2 events last) :
      Accounted fresh (.drawn fresh base atHand :: events) last
  | constant {fresh last : Fresh} {events : List Event}
      (rest : Accounted ⟨fresh.position + 1⟩ events last) :
      Accounted fresh (.constant fresh :: events) last
  | renamed {fresh last : Fresh} {rule : Rule} {state : State} {events : List Event}
      (clears : fresh.Clears state.freeVars) (rest : Accounted (rule.renameApart fresh).2 events last) :
      Accounted (rule.renameApart fresh).2 (.renamed fresh rule state :: events) last

/-- The variables of a copy of a rule were drawn to make it. -/
theorem Rule.between_of_mem_allVars {rule : Rule} {fresh : Fresh} {v : Variable}
    (member : v ∈ (rule.renameApart fresh).1.allVars)
    (unwrapped : (rule.renameApart fresh).2.position ≤ 2 ^ 64) :
    Fresh.Between fresh (rule.renameApart fresh).2 v := by
  let last := (rule.renameApart fresh).2
  let s := (freshRenaming rule.allVars fresh).1
  have renames := rule.renames_renameApart fresh unwrapped
  have image (w : Variable) (inside : w ∈ rule.allVars) : ∃ u, s.get? w = some (.var u) ∧
      Fresh.Between fresh last u := by
    obtain ⟨u, bound, _, between⟩ := renames.bound w inside
    exact ⟨u, bound, between⟩
  have terms (term : Term) (inside : (Discipline.ofVars (· ∈ rule.allVars)).Contains term) :
      (Discipline.ofVars (Fresh.Between fresh last)).Contains (s.apply term) := by
    refine Discipline.contains_ofVars_iff.mpr fun u occurs => ?_
    obtain ⟨w, among, occurs⟩ := (Subst.mem_vars_apply s term).mp occurs
    obtain ⟨u', bound, between⟩ := image w (Discipline.contains_ofVars_iff.mp inside w among)
    rw [Subst.image, bound] at occurs
    exact List.mem_singleton.mp occurs ▸ between
  have names (w : Variable) (inside : w ∈ rule.allVars) : Fresh.Between fresh last (renameFresh s w) := by
    obtain ⟨u, bound, between⟩ := image w inside
    rw [renameFresh, bound]
    exact between
  have own : (Discipline.ofVars (· ∈ rule.allVars)).Admissible rule :=
    Discipline.admissible_ofVars_iff.mpr fun _ => id
  exact (own.carry terms names).allowed v member

namespace Accounted

variable {first middle last fresh : Fresh} {events later : List Event} {base : Variable}
  {atHand : List Variable} {rule : Rule} {state : State}

theorem append (before : Accounted first events middle) (after : Accounted middle later last) :
    Accounted first (events ++ later) last := by
  induction before with
  | done => exact after
  | drawn clears _ ih => exact .drawn clears (ih after)
  | constant _ ih => exact .constant (ih after)
  | renamed clears _ ih => exact .renamed clears (ih after)

theorem onward (accounted : Accounted first events last) : first.position ≤ last.position := by
  induction accounted with
  | done => exact Nat.le_refl _
  | drawn _ _ ih => exact Nat.le_of_succ_le ih
  | constant _ ih => exact Nat.le_of_succ_le ih
  | renamed _ _ ih => exact ih

/-- The draws go through the positions one after the other. -/
theorem positions_eq (accounted : Accounted first events last) :
    events.filterMap Event.position? =
      List.range' first.position (last.position - first.position) := by
  have next (fresh : Fresh) (below : fresh.position < last.position) :
      fresh.position :: List.range' (fresh.position + 1) (last.position - (fresh.position + 1)) =
        List.range' fresh.position (last.position - fresh.position) := by
    obtain ⟨count, same⟩ := Nat.exists_eq_add_of_lt below
    have left : last.position - (fresh.position + 1) = count := by omega
    have whole : last.position - fresh.position = count + 1 := by omega
    rw [left, whole, List.range'_succ]
  induction accounted with
  | done => simp
  | drawn clears rest ih => exact (congrArg _ (ih next)).trans (next _ rest.onward)
  | constant rest ih => exact (congrArg _ (ih next)).trans (next _ rest.onward)
  | renamed _ _ ih => exact ih next

section Unwrapped

variable (accounted : Accounted first events last) (unwrapped : last.position ≤ 2 ^ 64)
include accounted unwrapped

private theorem between_of_mem {v : Variable} (member : v ∈ events.filterMap Event.result?) :
    Fresh.Between first last v := by
  induction accounted with
  | done => cases member
  | @drawn fresh last base atHand events clears rest ih =>
    have onward : fresh.position + 1 ≤ last.position := rest.onward
    rcases List.mem_cons.mp member with rfl | later
    · exact Fresh.between_variableLike base (Nat.lt_of_lt_of_le onward unwrapped) onward
    · exact (ih unwrapped later).mono (Nat.le_succ _)
  | constant rest ih => exact (ih unwrapped member).mono (Nat.le_succ _)
  | renamed clears rest ih => exact ih unwrapped member

/-- No variable is returned twice. -/
theorem nodup_results : (events.filterMap Event.result?).Nodup := by
  induction accounted with
  | done => exact List.nodup_nil
  | @drawn fresh last base atHand events clears rest ih =>
    have onward : fresh.position + 1 ≤ last.position := rest.onward
    refine List.nodup_cons.mpr ⟨fun again => ?_, ih unwrapped⟩
    have drawn : Fresh.Between fresh (fresh.variableLike base).2 (fresh.variableLike base).1 :=
      Fresh.between_variableLike base (Nat.lt_of_lt_of_le onward unwrapped) (Nat.lt_succ_self _)
    exact drawn.avoids.ne_of_between (rest.between_of_mem unwrapped again) rfl
  | constant rest ih => exact ih unwrapped
  | renamed clears rest ih => exact ih unwrapped

/-- A variable that is returned is not at hand. -/
theorem not_mem_of_drawn (member : .drawn fresh base atHand ∈ events) :
    (fresh.variableLike base).1 ∉ atHand := by
  induction accounted with
  | done => cases member
  | @drawn fresh last base atHand events clears rest ih =>
    have onward : fresh.position + 1 ≤ last.position := rest.onward
    rcases List.mem_cons.mp member with same | later
    · cases same
      intro occurs
      exact (clears _ occurs).ne_of_between (Fresh.between_variableLike base
        (Nat.lt_of_lt_of_le onward unwrapped) onward) rfl
    · exact ih unwrapped later
  | constant rest ih => exact ih unwrapped (List.mem_of_ne_of_mem (by nofun) member)
  | renamed clears rest ih => exact ih unwrapped (List.mem_of_ne_of_mem (by nofun) member)

/-- A copy of a rule shares no variable with the state that it is applied to. -/
theorem not_mem_of_renamed (member : .renamed fresh rule state ∈ events) :
    ∀ v ∈ (rule.renameApart fresh).1.allVars, v ∉ state.freeVars := by
  induction accounted with
  | done => cases member
  | drawn clears rest ih => exact ih unwrapped (List.mem_of_ne_of_mem (by nofun) member)
  | constant rest ih => exact ih unwrapped (List.mem_of_ne_of_mem (by nofun) member)
  | @renamed fresh last rule state events clears rest ih =>
    rcases List.mem_cons.mp member with same | later
    · cases same
      intro v inside occurs
      have between := Rule.between_of_mem_allVars inside (Nat.le_trans rest.onward unwrapped)
      exact (clears v occurs).ne_of_between between rfl
    · exact ih unwrapped later

end Unwrapped

end Accounted

/-- However far a survey is followed, its draws are accounted for, and no variable of its unifiers can be
drawn any more. -/
inductive Survey.Sound : Fresh → Survey → Prop
  | finished {first fresh : Fresh} {events : List Event} (accounted : Accounted first events fresh) :
      Sound first (.finished events fresh)
  | found {first fresh : Fresh} {events : List Event} {unifier : Unifier} {more : Fresh → Survey}
      (accounted : Accounted first events fresh) (clears : fresh.Clears unifier.vars)
      (later : ∀ now : Fresh, fresh.position ≤ now.position → Sound now (more now)) :
      Sound first (.found events unifier fresh more)
  | cut {first fresh : Fresh} {events : List Event} (accounted : Accounted first events fresh) :
      Sound first (.cut events fresh)

theorem Survey.Sound.after {first middle : Fresh} {events : List Event} {survey : Survey}
    (before : Accounted first events middle) (sound : survey.Sound middle) :
    (survey.after events).Sound first := by
  cases sound with
  | finished accounted => exact .finished (before.append accounted)
  | found accounted clears later => exact .found (before.append accounted) clears later
  | cut accounted => exact .cut (before.append accounted)

namespace Unification

open Discipline

variable {sig : Signature} {around : List Variable} {c : Choice} {p next : Problem} {fresh : Fresh}
  {pairing : List Nat × List Nat} {later : Fresh → Survey}

/-- A branch draws the frame that is shared, and nothing else. -/
theorem Choice.accounted_draws (clears : fresh.Clears (around ++ c.vars)) :
    Accounted fresh (c.draws around pairing fresh) (c.branch pairing fresh).2 := by
  unfold Choice.draws
  split
  · next drew =>
    simp only [Bool.and_eq_true] at drew
    obtain ⟨⟨made, left⟩, right⟩ := drew
    obtain ⟨problem, made⟩ := Option.isSome_iff_exists.mp made
    have position := position_of_draws ⟨left, right, rfl⟩ made
    refine .drawn clears ?_
    rw [show (c.branch pairing fresh).2 = ⟨fresh.position + 1⟩ from congrArg Fresh.mk position]
    exact .done _
  · next idle =>
    have unmoved : (c.branch pairing fresh).2 = fresh := by
      unfold Choice.branch at idle ⊢
      dsimp only at idle ⊢
      split
      · rfl
      · next goals paired =>
        rw [paired] at idle
        unfold Choice.frameGoals
        split
        · rfl
        · rfl
        · rfl
        · next frame frame' shapeLeft shapeRight => simp [shapeLeft, shapeRight] at idle
    rw [unmoved]
    exact .done _

private theorem Choice.clears_branch (clears : fresh.Clears c.vars)
    (made : (c.branch pairing fresh).1 = some next) : (c.branch pairing fresh).2.Clears next.vars := by
  have onward := position_le_branch c pairing fresh
  refine keeps_ofVars_iff.mp ((chooses_ofVars_iff.mpr (clears.mono onward)).branch ?_ made)
  intro v draws
  have position := position_of_draws draws made
  obtain ⟨_, _, rfl⟩ := draws
  exact (Fresh.drawn_variableLike _ (by omega)).avoids

theorem Choice.sound_survey {run : Problem → Fresh → (Fresh → Survey) → Survey}
    {pairings : Enumeration (List Nat × List Nat)} (beside : fresh.Clears around)
    (clears : fresh.Clears c.vars)
    (each : ∀ (problem : Problem) (now : Fresh) (later : Fresh → Survey), now.Clears around →
      now.Clears problem.vars →
      (∀ last : Fresh, now.position ≤ last.position → (later last).Sound last) →
      (run problem now later).Sound now)
    (rest : ∀ now : Fresh, fresh.position ≤ now.position → (later now).Sound now) :
    (c.survey around run pairings fresh later).Sound fresh := by
  induction pairings generalizing fresh with
  | nil => exact rest fresh (Nat.le_refl _)
  | cons pairing tail ih =>
    have onward := position_le_branch c pairing fresh
    have others (now : Fresh) (behind : (c.branch pairing fresh).2.position ≤ now.position) :
        (c.survey around run (tail ()) now later).Sound now :=
      ih () (beside.mono (onward.trans behind)) (clears.mono (onward.trans behind)) fun last beyond =>
        rest last ((onward.trans behind).trans beyond)
    rw [Choice.survey]
    refine .after (accounted_draws (Fresh.clears_append_iff.mpr ⟨beside, clears⟩)) ?_
    cases made : (c.branch pairing fresh).1 with
    | none => exact others _ (Nat.le_refl _)
    | some problem =>
      exact each problem _ _ (beside.mono onward) (clears_branch clears made) others

/-- One step of a problem, then the rest. -/
theorem Problem.sound_survey (budget : Nat) (beside : fresh.Clears around) (clears : fresh.Clears p.vars)
    (rest : ∀ now : Fresh, fresh.position ≤ now.position → (later now).Sound now) :
    (p.survey sig around budget fresh later).Sound fresh := by
  induction budget generalizing p fresh later with
  | zero => exact .cut (.done _)
  | succ budget ih =>
    have follows : (ofVars fresh.Avoids).Follows (p.advance sig) := (keeps_ofVars_iff.mpr clears).advance
    rw [Problem.survey]
    cases progress : p.advance sig with
    | solved unifier =>
      rw [progress] at follows
      exact .found (.done _) (unifies_ofVars_iff.mp follows) rest
    | failed => exact rest fresh (Nat.le_refl _)
    | next problem =>
      rw [progress] at follows
      exact ih beside (keeps_ofVars_iff.mp follows) rest
    | choose c =>
      rw [progress] at follows
      exact Choice.sound_survey beside (chooses_ofVars_iff.mp follows)
        (fun problem now later => ih) rest

end Unification

end Reach
