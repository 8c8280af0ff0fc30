import Reach.Proofs.Completeness

/-!
The unifiers of terms made of constructors, lists and bags. Once all of them are found, none leaves an
equation open, every assignment that makes the two terms equal is an instance of one of them, and
terms without collections have at most one. The counter must not draw a name that the terms already
use: the frame that two collections share would be taken for a variable of theirs.
-/

namespace Reach

/-- All unifiers in order and the counter at the end, where each counter is handed back as it was
received and no branch runs out of budget. -/
def Unifiers.all? : Unifiers → Option (List Unifier × Fresh)
  | .finished fresh => some ([], fresh)
  | .cut _ => none
  | .found unifier fresh more =>
    (more fresh).all?.map fun (others, last) => (unifier :: others, last)

namespace Unifiers

theorem all?_found {unifier : Unifier} {fresh last : Fresh} {more : Fresh → Unifiers}
    {found : List Unifier} (exhausted : (Unifiers.found unifier fresh more).all? = some (found, last)) :
    ∃ others, (more fresh).all? = some (others, last) ∧ found = unifier :: others := by
  rw [all?] at exhausted
  obtain ⟨⟨others, final⟩, rest, same⟩ := Option.map_eq_some_iff.mp exhausted
  cases same
  exact ⟨others, rest, rfl⟩

theorem ends_of_all? {unifiers : Unifiers} {last : Fresh} {found : List Unifier}
    (exhausted : unifiers.all? = some (found, last)) : unifiers.Ends last := by
  induction unifiers generalizing found with
  | finished fresh =>
    cases exhausted
    exact .finished
  | cut fresh => cases exhausted
  | found unifier fresh more ih =>
    obtain ⟨others, rest, rfl⟩ := all?_found exhausted
    exact .found unifier fresh (ih fresh rest)

theorem mem_of_delivers {unifiers : Unifiers} {last : Fresh} {found : List Unifier}
    {unifier : Unifier} (exhausted : unifiers.all? = some (found, last))
    (delivers : unifiers.Delivers unifier) : unifier ∈ found := by
  induction delivers generalizing found with
  | here fresh more =>
    obtain ⟨others, rest, rfl⟩ := all?_found exhausted
    exact List.mem_cons_self
  | later other fresh _ ih =>
    obtain ⟨others, rest, rfl⟩ := all?_found exhausted
    exact List.mem_cons_of_mem _ (ih rest)

theorem yields_of_mem {unifiers : Unifiers} {last : Fresh} {found : List Unifier} {unifier : Unifier}
    (exhausted : unifiers.all? = some (found, last)) (member : unifier ∈ found) :
    unifiers.Yields unifier := by
  induction unifiers generalizing found with
  | finished fresh =>
    cases exhausted
    cases member
  | cut fresh => cases exhausted
  | found first fresh more ih =>
    obtain ⟨others, rest, rfl⟩ := all?_found exhausted
    rcases List.mem_cons.mp member with rfl | member
    · exact .here fresh more
    · exact .later first fresh fresh (ih fresh rest member)

end Unifiers

namespace Unification

open Term

variable {sig : Signature} {target fragment : Fragment} {p next : Problem} {goal : Goal}
  {v : Variable} {term : Term} {unifier : Unifier}

namespace Problem

/-- Expanding collections adds goals and changes nothing else. -/
theorem exists_addGoals_of_expand {fresh : Fresh} (leads : (p.expand goal).LeadsTo fresh next) :
    ∃ goals, next = p.addGoals goals := by
  unfold Problem.expand at leads
  split at leads
  · split at leads
    · split at leads
      · cases made : p.expandOrdered _ _ _ _ _ with
        | none =>
          rw [made] at leads
          cases leads
        | some problem =>
          rw [made] at leads
          cases leads
          obtain ⟨front, _, made⟩ := Option.bind_eq_some_iff.mp made
          split at made
          · obtain ⟨frame, _, made⟩ := Option.bind_eq_some_iff.mp made
            cases made
            exact ⟨_, addGoals_addGoals _ _ _⟩
          · obtain ⟨frame, _, made⟩ := Option.bind_eq_some_iff.mp made
            cases made
            exact ⟨_, addGoals_addGoals _ _ _⟩
          · split at made
            · cases made
              exact ⟨_, rfl⟩
            · cases made
              exact ⟨_, addGoals_addGoals _ _ _⟩
      · unfold Problem.expandUnordered at leads
        split at leads
        · cases leads
        · dsimp only at leads
          split at leads
          · obtain ⟨pairing, _, made⟩ := leads
            unfold Choice.branch at made
            dsimp only at made
            split at made
            · cases made
            · cases made
              exact ⟨_, addGoals_addGoals _ _ _⟩
          · split at leads
            · cases leads
              exact ⟨_, addGoals_addGoals _ _ _⟩
            · cases leads
              exact ⟨_, rfl⟩
    · cases leads
      exact ⟨_, rfl⟩
  · cases leads
    exact ⟨_, rfl⟩

theorem residual_of_bind (free : sig.isCall term = false) (made : p.bind sig v term = some next) :
    next.residual = p.residual := by
  obtain ⟨⟨w, image⟩, oriented, made⟩ := Option.bind_eq_some_iff.mp made
  have plain : sig.isCall image = false := by
    obtain ⟨_, ⟨rfl, rfl⟩ | ⟨rfl, rfl⟩⟩ := orient_eq_some oriented
    · exact free
    · rfl
  dsimp only at made
  rw [plain] at made
  split at made
  · cases made
  · cases made
    rfl

/-- Among terms without function applications no equation is left open. -/
theorem residual_of_step (decomposable : fragment.Decomposable sig target)
    (wellFormed : p.WellFormed fragment) (admitted : fragment.Admits goal)
    (made : p.step sig goal = some next) : next.residual = p.residual := by
  have freeLeft := decomposable.isCall (wellFormed.apply admitted.1)
  have freeRight := decomposable.isCall (wellFormed.apply admitted.2)
  unfold Problem.step at made
  dsimp only at made
  generalize p.subst.apply goal.1 = a at *
  generalize p.subst.apply goal.2 = b at *
  split at made
  · cases made
    rfl
  split at made
  · exact residual_of_bind freeRight made
  · exact residual_of_bind freeLeft made
  · rw [freeLeft, freeRight] at made
    simp only [Bool.or_self, Bool.false_eq_true, ↓reduceIte] at made
    split at made
    · split at made
      · cases made
        rfl
      · cases made
    · split at made
      · cases made
        rfl
      · cases made
    · cases made

private theorem residual_of_advance {fresh : Fresh} (decomposable : fragment.Decomposable sig target)
    (wellFormed : p.WellFormed fragment) (leads : (p.advance sig).LeadsTo fresh next) :
    next.residual = p.residual := by
  unfold advance at leads
  split at leads
  · next _ goal goals pending =>
    have taken : Takes p goal { p with goals } := ⟨rfl, fun other => by
      simp only [equations, pending, List.mem_append, List.mem_cons]
      tauto⟩
    have admitted := wellFormed.equations goal ((taken.equations goal).mpr (.inr rfl))
    cases made : Problem.step sig { p with goals } goal with
    | none =>
      rw [made] at leads
      cases leads
    | some problem =>
      rw [made] at leads
      cases leads
      have kept := residual_of_step decomposable (taken.wellFormed wellFormed) admitted made
      exact kept
  · obtain ⟨goals, rfl⟩ := exists_addGoals_of_expand leads
    rfl
  · cases leads

end Problem

/-- A run on terms without function applications ends with no equation left open. -/
theorem closed_of_run (decomposable : fragment.Decomposable sig target)
    (everyVar : ∀ v, fragment.var v) (wellFormed : p.WellFormed fragment) (closed : p.residual = [])
    (run : Run sig p unifier) : unifier.residual = [] := by
  induction run with
  | solved done =>
    obtain ⟨rfl, _⟩ := eq_finish_of_solved done
    simp [Problem.finish, closed]
  | step leads _ ih =>
    obtain ⟨after, _⟩ :=
      Problem.advance_sound decomposable.labelled (fun v _ => everyVar v) wellFormed leads
    exact ih after ((Problem.residual_of_advance decomposable wellFormed leads).trans closed)

private theorem residual_of_run (constructed : fragment.Constructed sig target)
    (everyVar : ∀ v, fragment.var v) (wellFormed : p.WellFormed fragment) (closed : p.residual = [])
    (run : Run sig p unifier) : unifier.residual = [] :=
  closed_of_run constructed.toDecomposable everyVar wellFormed closed run

/-- Without collections there is never a choice. -/
theorem advance_ne_choose (bare : ∀ kind, ¬fragment.kind kind) (wellFormed : p.WellFormed fragment)
    (c : Choice) : p.advance sig ≠ .choose c := by
  intro chosen
  unfold Problem.advance at chosen
  split at chosen
  · next _ goal goals _ =>
    cases made : Problem.step sig { p with goals } goal with
    | none =>
      rw [made] at chosen
      cases chosen
    | some problem =>
      rw [made] at chosen
      cases chosen
  · next goal deferred _ pending =>
    have admitted := wellFormed.equations goal (by simp [Problem.equations, pending])
    unfold Problem.expand at chosen
    split at chosen
    · next kind entries frame _ _ _ left _ =>
      have proper := wellFormed.apply admitted.1
      have shape : p.subst.apply goal.1 = .collection kind entries frame := left
      rw [shape] at proper
      exact bare kind proper.within.here
    · cases chosen
  · cases chosen

/-- Without collections the variables of a unifier are those that the problem has. -/
theorem sound_of_run_of_bare (bare : ∀ kind, ¬fragment.kind kind)
    (labelled : ∀ {label sort sort'}, fragment.label label sort → fragment.label label sort' →
      sort = sort') (wellFormed : p.WellFormed fragment) (run : Run sig p unifier) :
    Sound fragment p unifier := by
  refine sound_of_run_of_draws (fun p wellFormed fresh v draws => ?_) labelled wellFormed run
  cases progress : p.advance sig with
  | choose c => exact absurd progress (advance_ne_choose bare wellFormed c)
  | _ =>
    rw [progress] at draws
    cases draws

/-- Exploring a problem without collections brings up at most one unifier before what is later. -/
theorem length_all?_explore {budget : Nat} {fresh last : Fresh} {later : Fresh → Unifiers}
    {found : List Unifier} (wellFormed : p.WellFormed fragment) (everyVar : ∀ v, fragment.var v)
    (labelled : ∀ {label sort sort'}, fragment.label label sort → fragment.label label sort' →
      sort = sort') (bare : ∀ kind, ¬fragment.kind kind)
    (exhausted : (p.explore sig budget fresh later).all? = some (found, last)) :
    ∃ middle others, (later middle).all? = some (others, last) ∧ found.length ≤ others.length + 1 := by
  induction budget generalizing p with
  | zero => cases exhausted
  | succ budget ih =>
    rw [Problem.explore] at exhausted
    cases progress : p.advance sig with
    | solved unifier =>
      rw [progress] at exhausted
      obtain ⟨others, rest, rfl⟩ := Unifiers.all?_found exhausted
      exact ⟨fresh, others, rest, Nat.le_refl _⟩
    | failed =>
      rw [progress] at exhausted
      exact ⟨fresh, found, exhausted, Nat.le_succ _⟩
    | next problem =>
      rw [progress] at exhausted
      obtain ⟨after, _⟩ := @Problem.advance_sound sig fragment p problem labelled fresh
        (fun v _ => everyVar v) wellFormed (by rw [progress]; rfl)
      exact ih after exhausted
    | choose c => exact absurd progress (advance_ne_choose bare wellFormed c)

end Unification

/-- The symbols that two fragments have in common. -/
def Term.Fragment.and (first second : Term.Fragment) : Term.Fragment where
  var v := first.var v ∧ second.var v
  label label sort := first.label label sort ∧ second.label label sort
  token sort value := first.token sort value ∧ second.token sort value
  kind kind := first.kind kind ∧ second.kind kind

/-- Terms made of constructors, variables, tokens, lists and bags. -/
def Signature.constructors (sig : Signature) : Term.Fragment where
  label label _ := sig.isFunction label = false
  kind kind := kind.idempotent = false

/-- Terms without collections. -/
def Term.Fragment.bare : Term.Fragment where
  kind _ := False

/-- Variables go to canonical terms of their sorts, in which every collection has the entries and the
frame that its kind asks for. -/
structure Subst.Respectful (s : Subst) : Prop where
  sorted : s.Sorted
  canonical : s.Canonical
  shaped : ∀ v term, s.get? v = some term → term.Everywhere Term.Shaped

namespace Term

variable {first second : Fragment} {term : Term}

theorem Within.both (within : term.Within first) (within' : term.Within second) :
    term.Within (first.and second) := by
  refine (Everywhere.and within within').mono fun node allowed => ?_
  cases node <;> exact allowed

theorem Proper.and (proper : term.Proper first) (within : term.Within second) :
    term.Proper (first.and second) :=
  ⟨proper.canonical, proper.within.both within, proper.shaped⟩

theorem within_upTo {fresh : Fresh} (within : term.Within first)
    (avoids : ∀ v ∈ term.vars, fresh.Avoids v) : term.Within (Unification.upTo first fresh) := by
  induction term using induct with
  | var v => exact Everywhere.var_iff.mpr (avoids v (by simp))
  | token sort value => exact Everywhere.token_iff.mpr within.here
  | app label sort args ih =>
    obtain ⟨here, inner⟩ := Everywhere.app_iff.mp within
    refine Everywhere.app_iff.mpr ⟨here, fun arg member => ih arg member (inner arg member) ?_⟩
    exact fun v occurs => avoids v (mem_vars_app.mpr ⟨arg, member, occurs⟩)
  | collection kind entries frame ihEntries ihFrame =>
    obtain ⟨here, inner, last⟩ := Everywhere.collection_iff.mp within
    refine Everywhere.collection_iff.mpr ⟨here, fun entry member part inside => ?_, fun rest member => ?_⟩
    · refine ihEntries entry member part inside (inner entry member part inside) fun v occurs => ?_
      exact avoids v (mem_vars_collection.mpr (.inl ⟨entry, member, part, inside, occurs⟩))
    · refine ihFrame rest member (last rest member) fun v occurs => ?_
      exact avoids v (mem_vars_collection.mpr (.inr ⟨rest, member, occurs⟩))

end Term

namespace Signature

variable {sig : Signature}

private theorem constructed_constructors : (sig.declared.and sig.constructors).Constructed sig {} where
  free _ _ allowed := allowed.2
  labelled first second := sort_eq_of_declared first.1 second.1
  countable _ allowed := allowed.2
  var _ := trivial
  label _ _ _ := trivial
  token _ _ _ := trivial
  kind _ _ := trivial

end Signature

/-- Once all unifiers of two constructor terms are found, none of them leaves an equation open; if the
counter draws no name that occurs in the terms and does not wrap around, every assignment that makes
the terms equal is an instance of one of them; and terms without collections have at most one. -/
theorem unify_mostGeneral {sig : Signature} {budget : Nat} {a b : Term} {explore : Fresh → Unifiers}
    {fresh last : Fresh} {found : List Unifier} (canonicalLeft : a.Canonical)
    (canonicalRight : b.Canonical) (checkedLeft : sig.check a = .ok ())
    (checkedRight : sig.check b = .ok ()) (builtLeft : a.Within sig.constructors)
    (builtRight : b.Within sig.constructors) (started : unify sig budget a b = .ok explore)
    (exhausted : (explore fresh).all? = some (found, last)) :
    (∀ unifier ∈ found, unifier.residual = []) ∧
      ((∀ v ∈ a.vars ++ b.vars, fresh.Avoids v) → last.position ≤ 2 ^ 64 →
        ∀ s : Subst, s.Respectful → s.apply a = s.apply b →
          ∃ unifier ∈ found, ∃ t : Subst, ∀ v ∈ a.vars ++ b.vars,
            t.apply (unifier.subst.image v) = s.image v) ∧
      (a.Within .bare → b.Within .bare → found.length ≤ 1) := by
  have properLeft := (Signature.proper_of_check canonicalLeft checkedLeft).and builtLeft
  have properRight := (Signature.proper_of_check canonicalRight checkedRight).and builtRight
  have constructed := @Signature.constructed_constructors sig
  have explored : explore = fun fresh =>
      (Unification.start a b).explore sig budget fresh .finished := by
    unfold unify at started
    split at started
    · cases started
      rfl
    · cases started
  refine ⟨fun unifier member => ?_, fun avoids unwrapped s respectful same => ?_,
    fun bareLeft bareRight => ?_⟩
  · have yields := Unifiers.yields_of_mem exhausted member
    rw [explored] at yields
    rcases Unification.run_of_explore yields with run | ⟨_, none⟩
    · exact Unification.residual_of_run constructed (fun _ => ⟨trivial, trivial⟩)
        (Unification.wellFormed_start properLeft properRight) rfl run
    · cases none
  · have fitting : s.Fitting {} := ⟨respectful.sorted, fun v term bound =>
      ⟨respectful.canonical v term bound, .of_forall fun node => by cases node <;> trivial,
        respectful.shaped v term bound⟩⟩
    have avoidsLeft := fun v occurs => avoids v (List.mem_append_left _ occurs)
    have avoidsRight := fun v occurs => avoids v (List.mem_append_right _ occurs)
    obtain ⟨unifier, t, delivers, inst⟩ := unify_complete constructed
      ⟨properLeft.canonical, Term.within_upTo properLeft.within avoidsLeft, properLeft.shaped⟩
      ⟨properRight.canonical, Term.within_upTo properRight.within avoidsRight, properRight.shaped⟩
      fitting same started (Unifiers.ends_of_all? exhausted) unwrapped
    refine ⟨unifier, Unifiers.mem_of_delivers exhausted delivers, t, fun v occurs => ?_⟩
    have canonical : unifier.subst.Canonical := fun v term bound => (inst.bound v term bound).canonical
    calc
      t.apply (unifier.subst.image v) = (unifier.subst.image v).fold t.algebra :=
        Subst.apply_eq_fold_algebra t (canonical.image v)
      _ = t.image v := inst.absorbs v
      _ = s.image v := Subst.image_congr (inst.agree v (avoids v occurs))
  · rw [explored] at exhausted
    obtain ⟨_, others, none, short⟩ := Unification.length_all?_explore
      (Unification.wellFormed_start (properLeft.and bareLeft) (properRight.and bareRight))
      (fun _ => ⟨⟨trivial, trivial⟩, trivial⟩)
      (fun first second => Signature.sort_eq_of_declared first.1.1 second.1.1) (fun _ => And.right)
      exhausted
    cases none
    exact short

section Instances

/-- A bag with one number, and a frame if it has a name. -/
def numberBag (number : String) (frame : Option String) : Term :=
  .collection .bag [.element (.token .int number)] (frame.map fun name => .var ⟨name, .bag⟩)

variable {sig : Signature} {number name : String} {frame : Option String} {s : Subst}

theorem canonical_numberBag : (numberBag number frame).Canonical := by
  refine .collection ?_ ?_ ?_
  · simp [Entry.parts, Term.Canonical.token]
  · intro rest member
    obtain ⟨name, _, rfl⟩ := Option.map_eq_some_iff.mp member
    exact .var _
  · cases frame <;> rfl

theorem within_numberBag : (numberBag number frame).Within sig.constructors := by
  refine Term.Everywhere.collection_iff.mpr ⟨rfl, ?_, fun rest member => ?_⟩
  · simp [Entry.parts, Term.Everywhere.token_iff, Term.Fragment.allows, Signature.constructors]
  · obtain ⟨name, _, rfl⟩ := Option.map_eq_some_iff.mp member
    exact Term.Everywhere.var_iff.mpr trivial

private theorem shaped_numberBag : (numberBag number none).Everywhere Term.Shaped := by
  refine Term.Everywhere.collection_iff.mpr ⟨⟨?_, nofun⟩, ?_, nofun⟩
  · simp [Kind.checkShape]
  · simp [Entry.parts, Term.Everywhere.token_iff, Term.Shaped]

theorem Subst.respectful_empty : Subst.Respectful Assoc.empty :=
  ⟨nofun, nofun, nofun⟩

/-- One more variable is bound to a bag. -/
theorem Subst.Respectful.insertBag (respectful : s.Respectful) (name number : String) :
    Subst.Respectful (s.insert ⟨name, .bag⟩ (numberBag number none)) := by
  have each (image : Variable → Term → Prop) (added : image ⟨name, .bag⟩ (numberBag number none))
      (old : ∀ w term, s.get? w = some term → image w term) (w : Variable) (term : Term)
      (bound : (s.insert ⟨name, .bag⟩ (numberBag number none)).get? w = some term) : image w term := by
    rw [Assoc.get?_insert] at bound
    split at bound
    · next same =>
      cases bound
      exact same ▸ added
    · exact old w term bound
  exact ⟨each _ rfl respectful.sorted,
    each (fun _ term => term.Canonical) canonical_numberBag respectful.canonical,
    each (fun _ term => term.Everywhere Term.Shaped) shaped_numberBag respectful.shaped⟩

end Instances

/-- The frame of each bag takes the number of the other, and a fresh frame is what they share. That
they share nothing is an instance. -/
theorem unify_mostGeneral_twoFrames :
    ∃ explore found last,
      unify .builtin 10 (numberBag "1" "F") (numberBag "2" "G") = .ok explore ∧
      (explore .start).all? = some (found, last) ∧ found.length = 1 ∧ last.position = 2 ∧
      ∃ unifier ∈ found, unifier.residual = [] ∧ ∃ t : Subst,
        t.apply (unifier.subst.image ⟨"F", .bag⟩) = numberBag "2" none ∧
        t.apply (unifier.subst.image ⟨"G", .bag⟩) = numberBag "1" none := by
  let unifier : Unifier :=
    { subst := (Subst.single ⟨"F", .bag⟩ (numberBag "2" "Rest#1")).insert ⟨"G", .bag⟩
        (numberBag "1" "Rest#1")
      residual := [] }
  have started : unify .builtin 10 (numberBag "1" "F") (numberBag "2" "G") = .ok fun fresh =>
      (Unification.start (numberBag "1" "F") (numberBag "2" "G")).explore .builtin 10 fresh
        .finished := rfl
  have exhausted : ((Unification.start (numberBag "1" "F") (numberBag "2" "G")).explore .builtin 10
      .start .finished).all? = some ([unifier], ⟨2⟩) := by decide +kernel
  obtain ⟨closed, covered, _⟩ := unify_mostGeneral canonical_numberBag canonical_numberBag rfl rfl
    within_numberBag within_numberBag started exhausted
  have avoids : ∀ v ∈ (numberBag "1" "F").vars ++ (numberBag "2" "G").vars, Fresh.start.Avoids v := by
    intro v occurs stem number _ named
    have marked : '#' ∈ v.name.toList := by simp [named, Fresh.numbered]
    have frames : v = ⟨"F", .bag⟩ ∨ v = ⟨"G", .bag⟩ := by
      simpa [numberBag, Term.vars_collection, Entry.parts] using occurs
    rcases frames with rfl | rfl <;> simp at marked
  obtain ⟨found, member, t, agree⟩ := covered avoids (by decide) _
    ((Subst.respectful_empty.insertBag "F" "2").insertBag "G" "1") (by decide +kernel)
  refine ⟨_, _, _, started, exhausted, rfl, rfl, found, member, closed found member, t, ?_, ?_⟩
  · exact agree ⟨"F", .bag⟩ (by decide +kernel)
  · exact agree ⟨"G", .bag⟩ (by decide +kernel)

/-- A constructor for pairs of bags. -/
def bagPairs : Signature :=
  ⟨Signature.builtin.labels.insert "pair" (.constructor "pair" [.bag, .bag] (.named "Pair"))⟩

/-- A pair of bags. -/
def bagPair (first second : Term) : Term :=
  .app "pair" (.named "Pair") [first, second]

/-- A variable may already have the name that is drawn for the shared frame. The bags then share what
that variable stands for, and the assignment under which they share nothing is an instance of no
unifier. -/
theorem unify_mostGeneral_capturedFrame :
    let a := bagPair (numberBag "1" "F") (.var ⟨"Rest#1", .bag⟩)
    let b := bagPair (numberBag "2" "G") (numberBag "3" none)
    ∃ explore found last, (a.Canonical ∧ b.Canonical ∧ bagPairs.check a = .ok () ∧
        bagPairs.check b = .ok () ∧ a.Within bagPairs.constructors ∧ b.Within bagPairs.constructors) ∧
      unify bagPairs 10 a b = .ok explore ∧ (explore .start).all? = some (found, last) ∧
      ∃ s : Subst, s.Respectful ∧ (∀ v ∈ a.vars ++ b.vars, (s.image v).ground = true) ∧
        s.apply a = s.apply b ∧
        ¬∃ unifier ∈ found, ∃ t : Subst, ∀ v ∈ a.vars ++ b.vars,
          t.apply (unifier.subst.image v) = s.image v := by
  intro a b
  let unifier : Unifier :=
    { subst := ((Subst.single ⟨"Rest#1", .bag⟩ (numberBag "3" none)).insert ⟨"F", .bag⟩
        (.collection .bag [.element (.token .int "2"), .element (.token .int "3")] none)).insert
          ⟨"G", .bag⟩ (.collection .bag [.element (.token .int "1"), .element (.token .int "3")] none)
      residual := [] }
  let s : Subst := ((Assoc.empty.insert ⟨"F", .bag⟩ (numberBag "2" none)).insert ⟨"G", .bag⟩
    (numberBag "1" none)).insert ⟨"Rest#1", .bag⟩ (numberBag "3" none)
  have canonical {first second : Term} (left : first.Canonical) (right : second.Canonical) :
      (bagPair first second).Canonical := by
    exact .app _ _ (by simp [left, right])
  have within {first second : Term} (left : first.Within bagPairs.constructors)
      (right : second.Within bagPairs.constructors) :
      (bagPair first second).Within bagPairs.constructors := by
    refine Term.Everywhere.app_iff.mpr ⟨?_, by simp [left, right]⟩
    exact show bagPairs.isFunction "pair" = false by decide +kernel
  have exhausted : ((Unification.start a b).explore bagPairs 10 .start .finished).all? =
      some ([unifier], ⟨2⟩) := by decide +kernel
  refine ⟨_, [unifier], ⟨2⟩, ⟨canonical canonical_numberBag (.var _),
    canonical canonical_numberBag canonical_numberBag, by decide +kernel, by decide +kernel,
    within within_numberBag (Term.Everywhere.var_iff.mpr trivial),
    within within_numberBag within_numberBag⟩, rfl, exhausted, s, ?_, ?_, ?_, ?_⟩
  · exact ((Subst.respectful_empty.insertBag "F" "2").insertBag "G" "1").insertBag "Rest#1" "3"
  · decide +kernel
  · decide +kernel
  · intro ⟨other, member, t, agree⟩
    obtain rfl := List.mem_singleton.mp member
    -- The unifier fixes the frame `F` to a bag of two numbers, of which there is no smaller instance.
    have agree := agree ⟨"F", .bag⟩ (by decide +kernel)
    have closed : (unifier.subst.image ⟨"F", .bag⟩).vars = [] := by decide +kernel
    have canonical : (unifier.subst.image ⟨"F", .bag⟩).Canonical := by
      refine .collection ?_ nofun rfl
      simp [Entry.parts, Term.Canonical.token]
    rw [Subst.apply_eq_self canonical (by simp [closed])] at agree
    exact absurd agree (by decide +kernel)

end Reach
