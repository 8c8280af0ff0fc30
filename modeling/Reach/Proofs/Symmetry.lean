import Reach.Proofs.Mirroring

/-!
Unification is symmetric as far as the order of the two terms cannot be felt. Where every collection is
a list, the unifiers of two terms are those of the terms in the other order up to a renaming. Unordered
collections are expanded in the order in which their pairs were met, and that is the order of the
entries on the left. Among them each unifier is still an instance of one that is found from the other
side, provided that there are no function applications and that it merges no entries: entries that
become equal before their set is expanded count once, and otherwise they count as often as they stand
there.
-/

namespace Reach

/-- Terms in which every collection is a list. -/
def Term.Fragment.listed : Term.Fragment where
  kind kind := kind = .list

private theorem Unifiers.delivers_of_mem {unifiers : Unifiers} {last : Fresh} {found : List Unifier}
    {unifier : Unifier} (exhausted : unifiers.all? = some (found, last)) (member : unifier ∈ found) :
    unifiers.Delivers unifier := by
  induction unifiers generalizing found with
  | finished fresh =>
    cases exhausted
    cases member
  | cut fresh => cases exhausted
  | found first fresh more ih =>
    obtain ⟨others, rest, rfl⟩ := all?_found exhausted
    rcases List.mem_cons.mp member with rfl | member
    · exact .here fresh more
    · exact .later first fresh (ih fresh rest member)

namespace Unification

open Term

variable {sig : Signature} {fragment target : Fragment} {a b : Term} {budget budget' : Nat}
  {explore explore' : Fresh → Unifiers} {fresh fresh' last last' : Fresh}
  {found found' : List Unifier} {unifier : Unifier} {p : Problem}

/-- Two terms and the same terms in the other order. -/
theorem mirrored_start (canonicalLeft : a.Canonical) (canonicalRight : b.Canonical) :
    Mirrored (start a b) (start b a) := by
  have alike {term : Term} (canonical : term.Canonical) : Alike (Equiv.refl _) .empty .empty term term :=
    ⟨canonical, canonical, (rename_id canonical).symm⟩
  exact ⟨Equiv.refl _, fun _ => rfl, fun _ => rfl,
    .cons (.inr ⟨alike canonicalLeft, alike canonicalRight⟩) .nil, .nil, .nil⟩

/-- Where every collection is a list, each unifier is found from the other side too. -/
theorem exists_variant_of_unify (properLeft : a.Proper fragment) (properRight : b.Proper fragment)
    (lists : ∀ kind, fragment.kind kind → kind = .list)
    (labelled : ∀ {label sort sort'}, fragment.label label sort → fragment.label label sort' →
      sort = sort') (started : unify sig budget a b = .ok explore)
    (started' : unify sig budget' b a = .ok explore')
    (exhausted : (explore fresh).all? = some (found, last))
    (exhausted' : (explore' fresh').all? = some (found', last')) (member : unifier ∈ found) :
    ∃ other ∈ found', ∃ r, Variant r unifier other := by
  have delivers := Unifiers.delivers_of_mem exhausted member
  have ends := Unifiers.ends_of_all? exhausted'
  rw [explore_eq_of_unify started] at delivers
  rw [explore_eq_of_unify started'] at ends exhausted'
  obtain ⟨other, delivered, variant⟩ := exists_variant lists labelled
    (mirrored_start properLeft.canonical properRight.canonical)
    (wellFormed_start properLeft properRight) (wellFormed_start properRight properLeft) delivers ends
  exact ⟨other, Unifiers.mem_of_delivers exhausted' delivered, variant⟩

/-- What a unifier binds variables to is from the fragment of the terms. -/
theorem bound_of_run (everyVar : ∀ v, fragment.var v)
    (labelled : ∀ {label sort sort'}, fragment.label label sort → fragment.label label sort' →
      sort = sort') (wellFormed : p.WellFormed fragment) (run : Run sig p unifier) (v : Variable)
    (term : Term) (bound : unifier.subst.get? v = some term) : term.Proper fragment := by
  induction run with
  | solved done =>
    obtain ⟨rfl, _⟩ := eq_finish_of_solved done
    exact (wellFormed.bound v term bound).2
  | step leads _ ih =>
    obtain ⟨after, _⟩ := Problem.advance_sound labelled (fun v _ => everyVar v) wellFormed leads
    exact ih after bound

/-- Without function applications, a unifier that merges no entries is an instance of one that is found
from the other side. -/
theorem exists_instance_of_unify (decomposable : fragment.Decomposable sig target)
    (everyVar : ∀ v, fragment.var v) (properLeft : a.Proper fragment) (properRight : b.Proper fragment)
    (avoids : ∀ v ∈ a.vars ++ b.vars, fresh'.Avoids v) (unwrapped : last'.position ≤ 2 ^ 64)
    (started : unify sig budget a b = .ok explore) (started' : unify sig budget' b a = .ok explore')
    (exhausted : (explore fresh).all? = some (found, last))
    (exhausted' : (explore' fresh').all? = some (found', last')) (member : unifier ∈ found)
    (apartLeft : unifier.subst.algebra.Separates a) (apartRight : unifier.subst.algebra.Separates b) :
    ∃ other ∈ found', ∃ t : Subst, ∀ v ∈ a.vars ++ b.vars,
      t.apply (other.subst.image v) = unifier.subst.image v := by
  have run := run_of_unify started (Unifiers.yields_of_mem exhausted member)
  have wellFormed := wellFormed_start properLeft properRight
  have sound := sound_of_run everyVar decomposable.labelled wellFormed run
  have closed := closed_of_run decomposable everyVar wellFormed rfl run
  have asked : (a, b) ∈ (start a b).equations := List.mem_cons_self
  have same := sound.apply_eq closed asked properLeft.canonical properRight.canonical
  have fitting : unifier.subst.Fitting target := ⟨sound.sorted, fun v term bound =>
    decomposable.proper (bound_of_run everyVar decomposable.labelled wellFormed run v term bound)⟩
  have inside {term : Term} (proper : term.Proper fragment) (among : ∀ v ∈ term.vars, v ∈ a.vars ++ b.vars) :
      term.Proper (upTo fragment fresh') :=
    ⟨proper.canonical, within_upTo proper.within fun v occurs => avoids v (among v occurs), proper.shaped⟩
  obtain ⟨other, t, delivers, inst⟩ := unify_covers decomposable
    (inside properRight fun _ => List.mem_append_right _) (inside properLeft fun _ => List.mem_append_left _)
    fitting apartRight apartLeft same.symm started' (Unifiers.ends_of_all? exhausted') unwrapped
  refine ⟨other, Unifiers.mem_of_delivers exhausted' delivers, t, fun v occurs => ?_⟩
  have canonical : other.subst.Canonical := fun v term bound => (inst.bound v term bound).canonical
  calc
    t.apply (other.subst.image v) = (other.subst.image v).fold t.algebra :=
      Subst.apply_eq_fold_algebra t (canonical.image v)
    _ = t.image v := inst.absorbs v
    _ = unifier.subst.image v := Subst.image_congr (inst.agree v (avoids v occurs))

end Unification

/-- Once all unifiers of two terms are found, in this order and in the other, each of them is up to a
renaming one that is found in the other order, if every collection is a list. If there is no function
application instead, each that merges no entries is an instance of one that is found in the other
order, provided that the counter draws no name that occurs in the terms and does not wrap around. -/
theorem unify_symmetric {sig : Signature} {budget budget' : Nat} {a b : Term}
    {explore explore' : Fresh → Unifiers} {fresh fresh' last last' : Fresh}
    {found found' : List Unifier} (canonicalLeft : a.Canonical) (canonicalRight : b.Canonical)
    (checkedLeft : sig.check a = .ok ()) (checkedRight : sig.check b = .ok ())
    (started : unify sig budget a b = .ok explore) (started' : unify sig budget' b a = .ok explore')
    (exhausted : (explore fresh).all? = some (found, last))
    (exhausted' : (explore' fresh').all? = some (found', last')) :
    (a.Within .listed → b.Within .listed →
        ∀ unifier ∈ found, ∃ other ∈ found', ∃ r, Unification.Variant r unifier other) ∧
      (a.Within sig.callFree → b.Within sig.callFree → (∀ v ∈ a.vars ++ b.vars, fresh'.Avoids v) →
        last'.position ≤ 2 ^ 64 →
        ∀ unifier ∈ found, unifier.subst.algebra.Separates a → unifier.subst.algebra.Separates b →
          ∃ other ∈ found', ∃ t : Subst, ∀ v ∈ a.vars ++ b.vars,
            t.apply (other.subst.image v) = unifier.subst.image v) := by
  have properLeft := Signature.proper_of_check canonicalLeft checkedLeft
  have properRight := Signature.proper_of_check canonicalRight checkedRight
  refine ⟨fun listedLeft listedRight unifier member => ?_,
    fun freeLeft freeRight avoids unwrapped unifier member apartLeft apartRight => ?_⟩
  · exact Unification.exists_variant_of_unify (properLeft.and listedLeft) (properRight.and listedRight)
      (fun _ => And.right) (fun first second => Signature.sort_eq_of_declared first.1 second.1) started
      started' exhausted exhausted' member
  · exact Unification.exists_instance_of_unify Signature.decomposable_callFree (fun _ => ⟨trivial, trivial⟩)
      (properLeft.and freeLeft) (properRight.and freeRight) avoids unwrapped started started' exhausted
      exhausted' member apartLeft apartRight

section Instances

/-- A list of a variable and a number. -/
def itemAndOne : Term :=
  .collection .list [.element (.var ⟨"X", .int⟩), .element (.token .int "1")] none

/-- A list of a variable and whatever comes after it. -/
def itemAndMore : Term :=
  .collection .list [.element (.var ⟨"Y", .int⟩)] (some (.var ⟨"R", .list⟩))

theorem canonical_itemAndOne : itemAndOne.Canonical := by
  refine .collection ?_ nofun rfl
  simp [Entry.parts, Term.Canonical.var, Term.Canonical.token]

theorem canonical_itemAndMore : itemAndMore.Canonical := by
  refine .collection ?_ ?_ rfl
  · simp [Entry.parts, Term.Canonical.var]
  · rintro rest ⟨⟩
    exact .var _

/-- A list is within whatever allows lists, variables and numbers. -/
theorem within_itemAndOne {fragment : Term.Fragment} (everyVar : ∀ v, fragment.var v)
    (everyToken : ∀ sort value, fragment.token sort value) (list : fragment.kind .list) :
    itemAndOne.Within fragment := by
  refine Term.Everywhere.collection_iff.mpr ⟨list, ?_, nofun⟩
  simp [Entry.parts, Term.Everywhere.var_iff, Term.Everywhere.token_iff, Term.Fragment.allows, everyVar,
    everyToken]

theorem within_itemAndMore {fragment : Term.Fragment} (everyVar : ∀ v, fragment.var v)
    (list : fragment.kind .list) : itemAndMore.Within fragment := by
  refine Term.Everywhere.collection_iff.mpr ⟨list, ?_, ?_⟩
  · simp [Entry.parts, Term.Everywhere.var_iff, Term.Fragment.allows, everyVar]
  · rintro rest ⟨⟩
    exact Term.Everywhere.var_iff.mpr (everyVar _)

end Instances

/-- From either side one variable takes the place of the other, and the frame takes the number. -/
theorem unify_symmetric_lists :
    ∃ explore explore' found found' last last',
      (itemAndOne.Canonical ∧ itemAndMore.Canonical ∧ Signature.builtin.check itemAndOne = .ok () ∧
        Signature.builtin.check itemAndMore = .ok ()) ∧
      unify .builtin 10 itemAndOne itemAndMore = .ok explore ∧
      unify .builtin 10 itemAndMore itemAndOne = .ok explore' ∧
      (explore .start).all? = some (found, last) ∧ (explore' .start).all? = some (found', last') ∧
      found.length = 1 ∧ found ≠ found' ∧
      ∀ unifier ∈ found, (∃ other ∈ found', ∃ r, Unification.Variant r unifier other) ∧
        ∃ other ∈ found', ∃ t : Subst, ∀ v ∈ itemAndOne.vars ++ itemAndMore.vars,
          t.apply (other.subst.image v) = unifier.subst.image v := by
  let solution (first second : String) : Unifier :=
    { subst := (Subst.single ⟨first, .int⟩ (.var ⟨second, .int⟩)).insert ⟨"R", .list⟩
        (.collection .list [.element (.token .int "1")] none)
      residual := [] }
  have exhausted : ((Unification.start itemAndOne itemAndMore).explore .builtin 10 .start .finished).all? =
      some ([solution "X" "Y"], .start) := by decide +kernel
  have exhausted' : ((Unification.start itemAndMore itemAndOne).explore .builtin 10 .start .finished).all? =
      some ([solution "Y" "X"], .start) := by decide +kernel
  have started : unify .builtin 10 itemAndOne itemAndMore = .ok fun fresh =>
      (Unification.start itemAndOne itemAndMore).explore .builtin 10 fresh .finished := rfl
  have started' : unify .builtin 10 itemAndMore itemAndOne = .ok fun fresh =>
      (Unification.start itemAndMore itemAndOne).explore .builtin 10 fresh .finished := rfl
  obtain ⟨variants, instances⟩ := unify_symmetric canonical_itemAndOne canonical_itemAndMore rfl rfl
    started started' exhausted exhausted'
  have avoids : ∀ v ∈ itemAndOne.vars ++ itemAndMore.vars, Fresh.start.Avoids v := by
    intro v occurs stem number _ named
    have marked : '#' ∈ v.name.toList := by simp [named, Fresh.numbered]
    have letters : ∀ v ∈ itemAndOne.vars ++ itemAndMore.vars, '#' ∉ v.name.toList := by decide +kernel
    exact letters v occurs marked
  have apart {s : Subst} {term : Term} (within : term.Within { kind := fun kind => kind.idempotent = false }) :
      s.algebra.Separates term := Term.Algebra.separates_of_countable within fun _ => id
  refine ⟨_, _, _, _, _, _, ⟨canonical_itemAndOne, canonical_itemAndMore, rfl, rfl⟩, started, started',
    exhausted, exhausted', rfl, by decide +kernel, fun unifier member => ⟨?_, ?_⟩⟩
  · exact variants (within_itemAndOne (fun _ => trivial) (fun _ _ => trivial) rfl)
      (within_itemAndMore (fun _ => trivial) rfl) unifier member
  · exact instances (within_itemAndOne (fun _ => trivial) (fun _ _ => trivial) trivial)
      (within_itemAndMore (fun _ => trivial) trivial) avoids (by decide) unifier member
      (apart (within_itemAndOne (fun _ => trivial) (fun _ _ => trivial) rfl))
      (apart (within_itemAndMore (fun _ => trivial) rfl))

section Merging

/-- A constructor for numbered sets. -/
def numberedSets : Signature :=
  ⟨Signature.builtin.labels.insert "c" (.constructor "c" [.int, .set] (.named "C"))⟩

def numberedSet (number : Term) (members : List Term) : Term :=
  .app "c" (.named "C") [number, .collection .set (members.map .element) none]

/-- A bag of two terms. -/
def twoItems (first second : Term) : Term :=
  .collection .bag [.element first, .element second] none

variable {number first second : Term} {members : List Term}

theorem canonical_numberedSet (canonical : number.Canonical) (parts : ∀ part ∈ members, part.Canonical)
    (arranged : Term.normalized .set (members.map .element) none =
      .collection .set (members.map .element) none) : (numberedSet number members).Canonical := by
  refine .app _ _ (List.forall_mem_cons.mpr ⟨canonical, List.forall_mem_singleton.mpr ?_⟩)
  exact .collection (by simpa [Entry.parts] using parts) nofun arranged

theorem canonical_twoItems (left : first.Canonical) (right : second.Canonical)
    (arranged : Term.normalized .bag [.element first, .element second] none = twoItems first second) :
    (twoItems first second).Canonical :=
  .collection (by simp [Entry.parts, left, right]) nofun arranged

end Merging

/-- Two bags of two numbered sets. If the first bag is on the left, the set of two entries is expanded
first or second as the numbers `A` and `B` are paired, and it fails when it is first. If the second bag is
on the left, that set is always expanded second, when its variable is known and its entries have merged.
So one of the unifiers is found in this order only. -/
theorem unify_symmetric_mergedEntries :
    let a := twoItems (numberedSet (.var ⟨"A", .int⟩) [.token .int "1"])
      (numberedSet (.var ⟨"B", .int⟩) [.token .int "1"])
    let b := twoItems (numberedSet (.token .int "1") [.var ⟨"X", .int⟩])
      (numberedSet (.token .int "2") [.var ⟨"X", .int⟩, .token .int "1"])
    ∃ explore explore' found found' last last',
      (a.Canonical ∧ b.Canonical ∧ numberedSets.check a = .ok () ∧ numberedSets.check b = .ok ()) ∧
      unify numberedSets 20 a b = .ok explore ∧ unify numberedSets 20 b a = .ok explore' ∧
      (explore .start).all? = some (found, last) ∧ (explore' .start).all? = some (found', last') ∧
      ∃ unifier ∈ found', ¬∃ other ∈ found, ∃ r : Variable → Variable, Function.Injective r ∧
        ∀ v ∈ a.vars ++ b.vars, (unifier.subst.image v).rename r = other.subst.image v := by
  intro a b
  let solution (first second : String) : Unifier :=
    { subst := ((Subst.single ⟨first, .int⟩ (.token .int "1")).insert ⟨second, .int⟩
        (.token .int "2")).insert ⟨"X", .int⟩ (.token .int "1")
      residual := [] }
  have exhausted : ((Unification.start a b).explore numberedSets 20 .start .finished).all? =
      some ([solution "A" "B"], .start) := by decide +kernel
  have exhausted' : ((Unification.start b a).explore numberedSets 20 .start .finished).all? =
      some ([solution "A" "B", solution "B" "A"], .start) := by decide +kernel
  refine ⟨_, _, _, _, _, _, ⟨?_, ?_, by decide +kernel, by decide +kernel⟩, rfl, rfl, exhausted, exhausted',
    solution "B" "A", by simp, ?_⟩
  · refine canonical_twoItems (canonical_numberedSet (.var _) ?_ rfl) (canonical_numberedSet (.var _) ?_ rfl)
      (by decide +kernel) <;> simp [Term.Canonical.token]
  · refine canonical_twoItems (canonical_numberedSet (.token _ _) ?_ rfl)
      (canonical_numberedSet (.token _ _) ?_ (by decide +kernel)) (by decide +kernel) <;>
    simp [Term.Canonical.var, Term.Canonical.token]
  · intro ⟨other, member, r, _, same⟩
    obtain rfl := List.mem_singleton.mp member
    -- Renaming leaves the number for `A` as it is.
    have same := same ⟨"A", .int⟩ (by decide +kernel)
    have number : ((solution "B" "A").subst.image ⟨"A", .int⟩).rename r = .token .int "2" := rfl
    rw [number] at same
    exact absurd same (by decide +kernel)

end Reach
