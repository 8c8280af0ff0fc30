import Mathlib.Data.List.Forall2
import Mathlib.Data.List.Zip
import Reach.Proofs.Correspondence
import Reach.Proofs.Renaming

/-!
A problem and its mirror image: the same goals under the same substitution, up to a renaming of the
variables and the direction of each goal. Where every collection is a list, the two take the same steps
and stay mirror images. Only where one variable is to be bound to another do they differ: the first
eliminates the one variable and the second the other, and the renaming exchanges the two.
-/

namespace Reach

namespace Unification

open Term

variable {sig : Signature} {fragment : Fragment} {r r' : Equiv.Perm Variable} {s s' : Subst}
  {p q : Problem} {goal other : Goal} {goals goals' : List Goal} {v w : Variable} {x y term : Term}

/-- Up to the renaming, the two terms are the same under the two substitutions. -/
structure Alike (r : Equiv.Perm Variable) (s s' : Subst) (x y : Term) : Prop where
  canonical : x.Canonical
  canonical' : y.Canonical
  same : s'.apply y = (s.apply x).rename r

/-- Up to the renaming, the two goals ask for the same, perhaps from right to left. -/
def Facing (r : Equiv.Perm Variable) (s s' : Subst) (goal other : Goal) : Prop :=
  Alike r s s' goal.1 other.1 ∧ Alike r s s' goal.2 other.2 ∨
    Alike r s s' goal.1 other.2 ∧ Alike r s s' goal.2 other.1

/-- The second goal is the first with its variables renamed, perhaps from right to left. -/
def Turned (r : Variable → Variable) (goal other : Goal) : Prop :=
  other = goal.map (rename r) (rename r) ∨ other = (goal.map (rename r) (rename r)).swap

theorem turned_map (r : Variable → Variable) (goals : List Goal) :
    List.Forall₂ (Turned r) goals (goals.map (Prod.map (rename r) (rename r))) :=
  List.forall₂_map_right_iff.mpr (List.forall₂_same.mpr fun _ _ => .inl rfl)

theorem turned_swap (r : Variable → Variable) (goals : List Goal) :
    List.Forall₂ (Turned r) goals ((goals.map (Prod.map (rename r) (rename r))).map Prod.swap) := by
  rw [List.map_map]
  exact List.forall₂_map_right_iff.mpr (List.forall₂_same.mpr fun _ _ => .inr rfl)

/-- One unifier becomes the other when its variables are renamed; its open equations may be turned
around. -/
structure Variant (r : Variable → Variable) (unifier other : Unifier) : Prop where
  injective : Function.Injective r
  sorts : ∀ v, (r v).sort = v.sort
  images : ∀ v, (unifier.subst.image v).rename r = other.subst.image v
  residual : List.Forall₂ (Turned r) unifier.residual other.residual

/-- Two problems that are the same up to a renaming and the direction of the goals. -/
structure Mirrors (r : Equiv.Perm Variable) (p q : Problem) : Prop where
  sorts : ∀ v, (r v).sort = v.sort
  images : ∀ v, q.subst.image v = (p.subst.image v).rename r
  goals : List.Forall₂ (Facing r p.subst q.subst) p.goals q.goals
  deferred : List.Forall₂ (Facing r p.subst q.subst) p.deferred q.deferred
  residual : List.Forall₂ (Facing r p.subst q.subst) p.residual q.residual

/-- What holds of the two problems of which one mirrors the other, whatever the renaming. -/
def Mirrored (p q : Problem) : Prop :=
  ∃ r, Mirrors r p q

theorem Alike.compose {first second : Subst} (alike : Alike r s s' x y) (bound : s.Canonical)
    (bound' : s'.Canonical) (later : first.Canonical) (later' : second.Canonical)
    (same : ∀ v, second.image (r v) = (first.image v).rename r') :
    Alike r' (s.compose first) (s'.compose second) x y where
  canonical := alike.canonical
  canonical' := alike.canonical'
  same := by
    rw [Subst.apply_compose bound' later' alike.canonical', Subst.apply_compose bound later alike.canonical,
      alike.same]
    exact Subst.apply_rename later' fun v _ => same v

theorem Facing.compose {first second : Subst} (facing : Facing r s s' goal other) (bound : s.Canonical)
    (bound' : s'.Canonical) (later : first.Canonical) (later' : second.Canonical)
    (same : ∀ v, second.image (r v) = (first.image v).rename r') :
    Facing r' (s.compose first) (s'.compose second) goal other :=
  facing.imp
    (fun ⟨left, right⟩ => ⟨left.compose bound bound' later later' same,
      right.compose bound bound' later later' same⟩)
    fun ⟨left, right⟩ => ⟨left.compose bound bound' later later' same,
      right.compose bound bound' later later' same⟩

/-- What the sides of two such goals have become. -/
theorem Facing.sides (facing : Facing r s s' goal other) :
    Turned r (s.apply goal.1, s.apply goal.2) (s'.apply other.1, s'.apply other.2) :=
  facing.imp (fun ⟨left, right⟩ => Prod.ext left.same right.same) fun ⟨left, right⟩ =>
    Prod.ext right.same left.same

theorem Facing.canonical (facing : Facing r s s' goal other) : goal.1.Canonical ∧ goal.2.Canonical :=
  facing.elim (fun ⟨left, right⟩ => ⟨left.canonical, right.canonical⟩) fun ⟨left, right⟩ =>
    ⟨left.canonical, right.canonical⟩

namespace Mirrors

theorem compose {first second : Subst} (mirrors : Mirrors r p q) (bound : p.subst.Canonical)
    (bound' : q.subst.Canonical) (later : first.Canonical) (later' : second.Canonical)
    (sorts : ∀ v, (r' v).sort = v.sort) (same : ∀ v, second.image (r v) = (first.image v).rename r') :
    Mirrors r' { p with subst := p.subst.compose first } { q with subst := q.subst.compose second } where
  sorts := sorts
  images v := by
    rw [Subst.image_compose, Subst.image_compose, mirrors.images v]
    exact Subst.apply_rename later' fun v _ => same v
  goals := mirrors.goals.imp fun _ _ facing => facing.compose bound bound' later later' same
  deferred := mirrors.deferred.imp fun _ _ facing => facing.compose bound bound' later later' same
  residual := mirrors.residual.imp fun _ _ facing => facing.compose bound bound' later later' same

/-- Both problems eliminate a variable by the same term. -/
theorem eliminate (mirrors : Mirrors r p q) (bound : p.subst.Canonical) (bound' : q.subst.Canonical)
    (canonical : term.Canonical) :
    Mirrors r { p with subst := p.subst.compose (.single v term) }
      { q with subst := q.subst.compose (.single (r v) (term.rename r)) } := by
  refine mirrors.compose bound bound' (.single canonical) (.single (canonical_rename r term)) mirrors.sorts
    fun w => ?_
  rw [Subst.image_single, Subst.image_single]
  by_cases same : w = v
  · rw [if_pos same, if_pos (congrArg r same)]
  · rw [if_neg same, if_neg fun equal => same (r.injective equal)]
    rfl

/-- Of two variables one problem eliminates the first and the other the second. -/
theorem exchange (mirrors : Mirrors r p q) (bound : p.subst.Canonical) (bound' : q.subst.Canonical)
    (differ : v ≠ w) (sort : v.sort = w.sort) :
    Mirrors ((Equiv.swap v w).trans r) { p with subst := p.subst.compose (.single v (.var w)) }
      { q with subst := q.subst.compose (.single (r w) (.var (r v))) } := by
  refine mirrors.compose bound bound' (.single (.var w)) (.single (.var (r v))) (fun z => ?_) fun z => ?_
  · rw [Equiv.trans_apply, mirrors.sorts]
    rcases eq_or_ne z v with rfl | other
    · rw [Equiv.swap_apply_left, sort]
    · rcases eq_or_ne z w with rfl | other'
      · rw [Equiv.swap_apply_right, sort]
      · rw [Equiv.swap_apply_of_ne_of_ne other other']
  · rw [Subst.image_single, Subst.image_single]
    rcases eq_or_ne z v with rfl | other
    · rw [if_pos rfl, if_neg fun equal => differ (r.injective equal), rename_var, Equiv.trans_apply,
        Equiv.swap_apply_right]
    · rw [if_neg other]
      rcases eq_or_ne z w with rfl | other'
      · rw [if_pos rfl, rename_var, Equiv.trans_apply, Equiv.swap_apply_right]
      · rw [if_neg fun equal => other' (r.injective equal), rename_var, Equiv.trans_apply,
          Equiv.swap_apply_of_ne_of_ne other other']

theorem addGoals (mirrors : Mirrors r p q) (facing : List.Forall₂ (Facing r p.subst q.subst) goals goals') :
    Mirrors r (p.addGoals goals) (q.addGoals goals') :=
  { mirrors with goals := List.rel_append mirrors.goals facing }

theorem addResidual (mirrors : Mirrors r p q) (facing : Facing r p.subst q.subst goal other) :
    Mirrors r (p.addResidual goal) (q.addResidual other) :=
  { mirrors with residual := List.rel_append mirrors.residual (.cons facing .nil) }

section Free

variable (mirrors : Mirrors r p q) (idempotent : p.subst.Idempotent) (idempotent' : q.subst.Idempotent)
include mirrors idempotent'

/-- What is not bound in one problem is not bound in the other. -/
theorem get?_eq_none (free : p.subst.get? v = none) : q.subst.get? (r v) = none := by
  refine idempotent' v (r v) ?_
  rw [mirrors.images v, Subst.image_of_get?_none free]
  simp

/-- A term without bound variables is like its renamed form. -/
theorem alike (canonical : term.Canonical) (free : ∀ v ∈ term.vars, p.subst.get? v = none) :
    Alike r p.subst q.subst term (term.rename r) where
  canonical := canonical
  canonical' := canonical_rename r term
  same := by
    rw [Subst.apply_eq_self canonical fun v occurs => Subst.image_of_get?_none (free v occurs)]
    refine Subst.apply_eq_self (canonical_rename r term) fun w occurs => ?_
    obtain ⟨v, known, rfl⟩ := mem_vars_rename.mp occurs
    exact Subst.image_of_get?_none (mirrors.get?_eq_none idempotent' (free v known))

end Free

end Mirrors

namespace Problem

private theorem accepts_antisymm {first second : TermSort} (accepted : first.accepts second = true)
    (accepted' : second.accepts first = true) : first = second := by
  simp only [TermSort.accepts, Bool.or_eq_true, beq_iff_eq] at *
  rcases accepted with same | rfl
  · exact same
  · rcases accepted' with same | rfl
    · exact same.symm
    · rfl

private theorem orient_rename (sorts : ∀ v, (r v).sort = v.sort) (canonical : term.Canonical) :
    orient (r v) (term.rename r) = (orient v term).map fun (w, image) => (r w, image.rename r) := by
  unfold orient
  rw [sort_rename sorts canonical, sorts]
  split
  · rfl
  · cases canonical with
    | var w =>
      simp only [rename_var, sorts]
      split <;> rfl
    | token sort value => rfl
    | app label sort parts =>
      rw [rename_app]
      rfl
    | collection parts rest arranged =>
      obtain ⟨entries', frame', renamed⟩ :=
        @exists_collection_rename r _ _ _ (.collection parts rest arranged)
      rw [renamed]
      rfl

theorem eq_var_of_var? (shape : term.var? = some v) : term = .var v := by
  cases term with
  | var w => exact congrArg _ (Option.some.inj shape)
  | _ => cases shape

private theorem var?_rename (canonical : term.Canonical) : (term.rename r).var? = term.var?.map r := by
  cases term with
  | app label sort args =>
    rw [rename_app]
    rfl
  | collection kind entries frame =>
    obtain ⟨entries', frame', renamed⟩ := @exists_collection_rename r _ _ _ canonical
    rw [renamed]
    rfl
  | _ => rfl

theorem isCall_rename (canonical : term.Canonical) : sig.isCall (term.rename r) = sig.isCall term := by
  cases term with
  | app label sort args =>
    rw [rename_app]
    rfl
  | collection kind entries frame =>
    obtain ⟨entries', frame', renamed⟩ := @exists_collection_rename r _ _ _ canonical
    rw [renamed]
    rfl
  | _ => rfl

section Bind

variable (mirrors : Mirrors r p q) (bound : p.subst.Canonical) (bound' : q.subst.Canonical)
  (idempotent' : q.subst.Idempotent)
include mirrors bound bound'

include idempotent' in
/-- Both problems solve the same equation for a variable. -/
theorem bind_mirrored (canonical : term.Canonical) (free : p.subst.get? v = none)
    (unbound : ∀ w ∈ term.vars, p.subst.get? w = none) :
    Option.Rel Mirrored (p.bind sig v term) (q.bind sig (r v) (term.rename r)) := by
  unfold Problem.bind
  rw [orient_rename mirrors.sorts canonical]
  cases oriented : orient v term with
  | none => exact .none
  | some pair =>
    obtain ⟨w, image⟩ := pair
    have facts : image.Canonical ∧ p.subst.get? w = none ∧ ∀ x ∈ image.vars, p.subst.get? x = none := by
      rcases (orient_eq_some oriented).2 with ⟨rfl, rfl⟩ | ⟨rfl, rfl⟩
      · exact ⟨canonical, free, unbound⟩
      · exact ⟨.var v, unbound w (by simp), by simpa using free⟩
    obtain ⟨whole, freeVar, unboundImage⟩ := facts
    simp only [Option.map_some, Option.bind_eq_bind, Option.bind_some, mentions_rename,
      isCall_rename whole]
    split
    · split
      · refine .some ⟨r, mirrors.addResidual (.inl ⟨?_, mirrors.alike idempotent' whole unboundImage⟩)⟩
        exact mirrors.alike idempotent' (.var w) (by simpa using freeVar)
      · exact .none
    · exact .some ⟨r, mirrors.eliminate bound bound' whole⟩

/-- Both problems equate the same two variables, one from right to left. -/
theorem bind_exchanged (differ : v ≠ w) :
    Option.Rel Mirrored (p.bind sig v (.var w)) (q.bind sig (r w) (.var (r v))) := by
  have apart {x y : Variable} (differ : x ≠ y) : (var y).mentions x = false := by
    rw [Bool.eq_false_iff, Ne, ← mem_vars_iff_mentions]
    simpa using differ
  have apart' {x y : Variable} (differ : x ≠ y) : (var (r y)).mentions (r x) = false :=
    apart (r.injective.ne differ)
  unfold Problem.bind orient
  simp only [Term.sort, mirrors.sorts]
  by_cases first : v.sort.accepts w.sort = true
  · by_cases second : w.sort.accepts v.sort = true
    · simp only [if_pos first, if_pos second, Option.bind_eq_bind, Option.bind_some, apart differ,
        apart' differ.symm, Bool.false_eq_true, ↓reduceIte]
      exact .some ⟨_, mirrors.exchange bound bound' differ (accepts_antisymm first second)⟩
    · simp only [if_pos first, if_neg second, Option.bind_eq_bind, Option.bind_some, apart differ,
        apart' differ, Bool.false_eq_true, ↓reduceIte]
      exact .some ⟨r, mirrors.eliminate bound bound' (.var w)⟩
  · by_cases second : w.sort.accepts v.sort = true
    · simp only [if_neg first, if_pos second, Option.bind_eq_bind, Option.bind_some, apart differ.symm,
        apart' differ.symm, Bool.false_eq_true, ↓reduceIte]
      exact .some ⟨r, mirrors.eliminate bound bound' (.var v)⟩
    · simp only [if_neg first, if_neg second]
      exact .none

end Bind

/-- What becomes of two different sides that are no variables. -/
def part (sig : Signature) (p : Problem) (a b : Term) : Option Problem :=
  if sig.isCall a || sig.isCall b then some (p.addResidual (a, b))
  else
    match a, b with
    | .app label _ args, .app label' _ args' =>
      if label = label' ∧ args.length = args'.length then some (p.addGoals (args.zip args'))
      else none
    | .collection kind _ _, .collection kind' _ _ =>
      if kind = kind' then some { p with deferred := p.deferred ++ [(a, b)] } else none
    | _, _ => none

/-- What becomes of two different sides. -/
def meet (sig : Signature) (p : Problem) (a b : Term) : Option Problem :=
  match a, b with
  | .var v, b => p.bind sig v b
  | a, .var v => p.bind sig v a
  | a, b => p.part sig a b

theorem step_eq (p : Problem) (goal : Goal) : p.step sig goal =
    if p.subst.apply goal.1 = p.subst.apply goal.2 then some p
    else p.meet sig (p.subst.apply goal.1) (p.subst.apply goal.2) :=
  rfl

theorem meet_var {a : Term} (inner : a.var? = none) (v : Variable) :
    p.meet sig a (.var v) = p.bind sig v a := by
  cases a with
  | var w => cases inner
  | _ => rfl

theorem meet_part {a b : Term} (left : a.var? = none) (right : b.var? = none) :
    p.meet sig a b = p.part sig a b := by
  cases a with
  | var w => cases left
  | _ =>
    cases b with
    | var w => cases right
    | _ => rfl

/-- Terms in which no variable of a problem is bound, with lists for collections. -/
def unbound (p : Problem) : Fragment where
  var v := p.subst.get? v = none
  kind kind := kind = .list

section Part

variable {a b : Term} (mirrors : Mirrors r p q) (idempotent' : q.subst.Idempotent)
include mirrors idempotent'

theorem alike_of_proper (proper : a.Proper p.unbound) : Alike r p.subst q.subst a (a.rename r) :=
  mirrors.alike idempotent' proper.canonical fun _ occurs => proper.within.var_of_mem occurs

/-- Goals without bound variables face their renamed forms, turned around or not. -/
theorem facing_of_turned (admitted : ∀ goal ∈ goals, p.unbound.Admits goal)
    (turned : List.Forall₂ (Turned r) goals goals') :
    List.Forall₂ (Facing r p.subst q.subst) goals goals' := by
  induction turned with
  | nil => exact .nil
  | cons here _ ih =>
    obtain ⟨⟨left, right⟩, later⟩ := List.forall_mem_cons.mp admitted
    have first := alike_of_proper mirrors idempotent' left
    have second := alike_of_proper mirrors idempotent' right
    refine .cons ?_ (ih later)
    rcases here with rfl | rfl
    · exact .inl ⟨first, second⟩
    · exact .inr ⟨first, second⟩

theorem addGoals_mirrored (admitted : ∀ goal ∈ goals, p.unbound.Admits goal)
    (turned : List.Forall₂ (Turned r) goals goals') : Mirrored (p.addGoals goals) (q.addGoals goals') :=
  ⟨r, mirrors.addGoals (facing_of_turned mirrors idempotent' admitted turned)⟩

/-- Two sides that are no variables are taken apart alike. -/
theorem part_mirrored (properLeft : a.Proper p.unbound) (properRight : b.Proper p.unbound) :
    Option.Rel Mirrored (p.part sig a b) (q.part sig (a.rename r) (b.rename r)) ∧
      Option.Rel Mirrored (p.part sig a b) (q.part sig (b.rename r) (a.rename r)) := by
  have left := alike_of_proper mirrors idempotent' properLeft
  have right := alike_of_proper mirrors idempotent' properRight
  unfold part
  rw [isCall_rename properLeft.canonical, isCall_rename properRight.canonical, Bool.or_comm (sig.isCall b)]
  split
  · exact ⟨.some ⟨r, mirrors.addResidual (.inl ⟨left, right⟩)⟩,
      .some ⟨r, mirrors.addResidual (.inr ⟨left, right⟩)⟩⟩
  · cases a with
    | app label sort args =>
      cases b with
      | app label' sort' args' =>
        have admitted : ∀ goal ∈ args.zip args', p.unbound.Admits goal := fun goal member =>
          ⟨properLeft.of_app _ (List.of_mem_zip member).1, properRight.of_app _ (List.of_mem_zip member).2⟩
        have straight := turned_map r (args.zip args')
        have turned := turned_swap r (args.zip args')
        rw [← List.zip_map] at straight turned
        rw [List.zip_swap] at turned
        have turn : (label' = label ∧ args'.length = args.length) ↔
            label = label' ∧ args.length = args'.length := and_congr eq_comm eq_comm
        simp only [rename_app, List.length_map, turn]
        split
        · exact ⟨.some (addGoals_mirrored mirrors idempotent' admitted straight),
            .some (addGoals_mirrored mirrors idempotent' admitted turned)⟩
        · exact ⟨.none, .none⟩
      | collection kind entries frame =>
        obtain rfl : kind = .list := properRight.within.here
        rw [rename_app, rename_list properRight.canonical]
        exact ⟨.none, .none⟩
      | _ =>
        rw [rename_app]
        exact ⟨.none, .none⟩
    | collection kind entries frame =>
      obtain rfl : kind = .list := properLeft.within.here
      cases b with
      | collection kind' entries' frame' =>
        obtain rfl : kind' = .list := properRight.within.here
        rw [rename_list properLeft.canonical] at left ⊢
        rw [rename_list properRight.canonical] at right ⊢
        exact ⟨.some ⟨r, { mirrors with
            deferred := List.rel_append mirrors.deferred (.cons (.inl ⟨left, right⟩) .nil) }⟩,
          .some ⟨r, { mirrors with
            deferred := List.rel_append mirrors.deferred (.cons (.inr ⟨left, right⟩) .nil) }⟩⟩
      | app label' sort' args' =>
        rw [rename_app, rename_list properLeft.canonical]
        exact ⟨.none, .none⟩
      | _ =>
        rw [rename_list properLeft.canonical]
        exact ⟨.none, .none⟩
    | _ =>
      cases b with
      | app label' sort' args' =>
        rw [rename_app]
        exact ⟨.none, .none⟩
      | collection kind' entries' frame' =>
        obtain rfl : kind' = .list := properRight.within.here
        rw [rename_list properRight.canonical]
        exact ⟨.none, .none⟩
      | _ => exact ⟨.none, .none⟩

end Part

section Step

variable (mirrors : Mirrors r p q) (wellFormed : p.WellFormed fragment) (wellFormed' : q.WellFormed fragment)
  (lists : ∀ kind, fragment.kind kind → kind = .list)
include mirrors wellFormed wellFormed' lists

omit mirrors wellFormed' in
/-- What a goal has become under the bindings has none of the bound variables. -/
theorem proper_apply (proper : term.Proper fragment) : (p.subst.apply term).Proper p.unbound := by
  have whole := wellFormed.apply proper
  have free : (p.subst.apply term).Within { var := fun v => p.subst.get? v = none } :=
    .of_vars fun _ occurs => wellFormed.idempotent.get?_of_mem_apply occurs
  refine ⟨whole.canonical, (whole.within.and free).mono fun node allowed => ?_, whole.shaped⟩
  cases node with
  | var v => exact allowed.2
  | collection kind entries frame => exact lists kind allowed.1
  | _ => trivial

/-- Two goals that ask for the same are decomposed alike. -/
theorem step_mirrored (admitted : fragment.Admits goal) (facing : Facing r p.subst q.subst goal other) :
    Option.Rel Mirrored (p.step sig goal) (q.step sig other) := by
  have properLeft := proper_apply wellFormed lists admitted.1
  have properRight := proper_apply wellFormed lists admitted.2
  have free {x : Term} (proper : x.Proper p.unbound) : ∀ v ∈ x.vars, p.subst.get? v = none :=
    fun _ occurs => proper.within.var_of_mem occurs
  have bound := wellFormed.canonical
  have bound' := wellFormed'.canonical
  have idempotent' := wellFormed'.idempotent
  rw [step_eq p goal, step_eq q other]
  have sides : q.subst.apply other.1 = (p.subst.apply goal.1).rename r ∧
        q.subst.apply other.2 = (p.subst.apply goal.2).rename r ∨
      q.subst.apply other.1 = (p.subst.apply goal.2).rename r ∧
        q.subst.apply other.2 = (p.subst.apply goal.1).rename r :=
    facing.sides.imp Prod.mk.inj Prod.mk.inj
  clear facing admitted
  generalize p.subst.apply goal.1 = a at *
  generalize p.subst.apply goal.2 = b at *
  have equal := rename_inj r properLeft.canonical properRight.canonical
  by_cases same : a = b
  · subst same
    rcases sides with ⟨left, right⟩ | ⟨left, right⟩ <;>
    · rw [left, right, if_pos rfl, if_pos rfl]
      exact .some ⟨r, mirrors⟩
  rw [if_neg same]
  have inner {x : Term} (canonical : x.Canonical) (absent : x.var? = none) : (x.rename r).var? = none :=
    (var?_rename canonical).trans (congrArg (Option.map r) absent)
  rcases sides with ⟨left, right⟩ | ⟨left, right⟩
  · rw [left, right, if_neg (mt equal.mp same)]
    cases shape : a.var? with
    | some v =>
      obtain rfl := eq_var_of_var? shape
      exact bind_mirrored mirrors bound bound' idempotent' properRight.canonical (free properLeft v (by simp))
        (free properRight)
    | none =>
      cases shape' : b.var? with
      | some w =>
        obtain rfl := eq_var_of_var? shape'
        rw [meet_var shape, rename_var, meet_var (inner properLeft.canonical shape)]
        exact bind_mirrored mirrors bound bound' idempotent' properLeft.canonical (free properRight w (by simp))
          (free properLeft)
      | none =>
        rw [meet_part shape shape',
          meet_part (inner properLeft.canonical shape) (inner properRight.canonical shape')]
        exact (part_mirrored mirrors idempotent' properLeft properRight).1
  · rw [left, right, if_neg fun turned => same (equal.mp turned.symm)]
    cases shape : a.var? with
    | some v =>
      obtain rfl := eq_var_of_var? shape
      cases shape' : b.var? with
      | some w =>
        obtain rfl := eq_var_of_var? shape'
        exact bind_exchanged mirrors bound bound' fun equal => same (congrArg _ equal)
      | none =>
        rw [rename_var, meet_var (inner properRight.canonical shape')]
        exact bind_mirrored mirrors bound bound' idempotent' properRight.canonical (free properLeft v (by simp))
          (free properRight)
    | none =>
      cases shape' : b.var? with
      | some w =>
        obtain rfl := eq_var_of_var? shape'
        rw [meet_var shape]
        exact bind_mirrored mirrors bound bound' idempotent' properLeft.canonical (free properRight w (by simp))
          (free properLeft)
      | none =>
        rw [meet_part shape shape',
          meet_part (inner properRight.canonical shape') (inner properLeft.canonical shape)]
        exact (part_mirrored mirrors idempotent' properLeft properRight).2

end Step

section Lists

variable {left right : List (Entry Term)} {leftFrame rightFrame : Option Term}
  {pairs : List (Entry Term × Entry Term)}

private theorem entryGoals_rename (a b : Entry Term) (f : Term → Term) :
    Pairing.entryGoals (a.map f) (b.map f) = (Pairing.entryGoals a b).map (List.map (Prod.map f f)) := by
  cases a <;> cases b <;> rfl

private theorem entryGoals_swap (a b : Entry Term) :
    Pairing.entryGoals b a = (Pairing.entryGoals a b).map (List.map Prod.swap) := by
  cases a <;> cases b <;> rfl

private theorem allGoals_rename (f : Term → Term) (pairs : List (Entry Term × Entry Term)) :
    Pairing.allGoals (pairs.map (Prod.map (Entry.map f) (Entry.map f))) =
      (Pairing.allGoals pairs).map (List.map (Prod.map f f)) := by
  induction pairs with
  | nil => rfl
  | cons pair rest ih =>
    obtain ⟨a, b⟩ := pair
    rw [List.map_cons, Prod.map_apply, Pairing.allGoals_cons, Pairing.allGoals_cons, ih, entryGoals_rename]
    cases Pairing.entryGoals a b <;> cases Pairing.allGoals rest <;> simp

private theorem allGoals_swap (pairs : List (Entry Term × Entry Term)) :
    Pairing.allGoals (pairs.map Prod.swap) = (Pairing.allGoals pairs).map (List.map Prod.swap) := by
  induction pairs with
  | nil => rfl
  | cons pair rest ih =>
    obtain ⟨a, b⟩ := pair
    rw [List.map_cons, Prod.swap_prod_mk, Pairing.allGoals_cons, Pairing.allGoals_cons, ih, entryGoals_swap a b]
    cases Pairing.entryGoals a b <;> cases Pairing.allGoals rest <;> simp

/-- The goal for what one of two lists has beyond the other, or for their frames. -/
def lastGoals (beyond beyond' : List (Entry Term)) (leftFrame rightFrame : Option Term) : Option (List Goal) :=
  match beyond, beyond' with
  | rest@(_ :: _), _ => rightFrame.map fun frame => [(frame, .normalized .list rest leftFrame)]
  | [], rest@(_ :: _) => leftFrame.map fun frame => [(frame, .normalized .list rest rightFrame)]
  | [], [] =>
    match leftFrame, rightFrame with
    | none, none => some []
    | _, _ => some [(leftFrame.getD (.empty .list), rightFrame.getD (.empty .list))]

/-- The goals that take the place of two lists. -/
def listGoals (left right : List (Entry Term)) (leftFrame rightFrame : Option Term) : Option (List Goal) :=
  (Pairing.allGoals (left.zip right)).bind fun front =>
    (lastGoals (left.drop right.length) (right.drop left.length) leftFrame rightFrame).map (front ++ ·)

theorem expandOrdered_eq (p : Problem) (left right : List (Entry Term)) (leftFrame rightFrame : Option Term) :
    p.expandOrdered .list left right leftFrame rightFrame =
      (listGoals left right leftFrame rightFrame).map p.addGoals := by
  unfold expandOrdered listGoals
  cases Pairing.allGoals (left.zip right) with
  | none => rfl
  | some front =>
    simp only [Option.bind_eq_bind, Option.bind_some]
    generalize left.drop right.length = beyond
    generalize right.drop left.length = beyond'
    cases beyond with
    | cons first rest => cases rightFrame <;> simp [lastGoals, addGoals_addGoals]
    | nil =>
      cases beyond' with
      | cons first rest => cases leftFrame <;> simp [lastGoals, addGoals_addGoals]
      | nil => cases leftFrame <;> cases rightFrame <;> simp [lastGoals, addGoals_addGoals]

private theorem lastGoals_rename (beyond beyond' : List (Entry Term)) (leftFrame rightFrame : Option Term) :
    Option.Rel (List.Forall₂ (Turned r)) (lastGoals beyond beyond' leftFrame rightFrame)
      (lastGoals (beyond.map (Entry.map (rename r))) (beyond'.map (Entry.map (rename r)))
        (leftFrame.map (rename r)) (rightFrame.map (rename r))) := by
  have rest (frame : Term) (rest : List (Entry Term)) (last : Option Term) :
      Turned r (frame, .normalized .list rest last) (frame.rename r,
        .normalized .list (rest.map (Entry.map (rename r))) (last.map (rename r))) :=
    .inl (Prod.ext rfl (rename_normalized .list rest last).symm)
  cases beyond with
  | cons first more =>
    cases rightFrame with
    | none => exact .none
    | some frame => exact .some (.cons (rest frame (first :: more) leftFrame) .nil)
  | nil =>
    cases beyond' with
    | cons first more =>
      cases leftFrame with
      | none => exact .none
      | some frame => exact .some (.cons (rest frame (first :: more) rightFrame) .nil)
    | nil =>
      cases leftFrame <;> cases rightFrame
      · exact .some .nil
      all_goals exact .some (.cons (.inl rfl) .nil)

/-- Where one of two lists has nothing beyond the other, their order does not matter. -/
theorem lastGoals_swap {beyond beyond' : List (Entry Term)} (level : beyond = [] ∨ beyond' = [])
    (leftFrame rightFrame : Option Term) :
    lastGoals beyond' beyond rightFrame leftFrame = lastGoals beyond beyond' leftFrame rightFrame ∨
      lastGoals beyond' beyond rightFrame leftFrame =
        (lastGoals beyond beyond' leftFrame rightFrame).map (List.map Prod.swap) := by
  cases beyond with
  | cons first rest =>
    obtain rfl : beyond' = [] := level.resolve_left (List.cons_ne_nil _ _)
    exact .inl rfl
  | nil =>
    cases beyond' with
    | cons first rest => exact .inl rfl
    | nil => exact .inr (by cases leftFrame <;> cases rightFrame <;> rfl)

theorem rel_append {front front' : List Goal} {last last' : Option (List Goal)}
    (first : List.Forall₂ (Turned r) front front') (second : Option.Rel (List.Forall₂ (Turned r)) last last') :
    Option.Rel (List.Forall₂ (Turned r)) (last.map (front ++ ·)) (last'.map (front' ++ ·)) := by
  cases second with
  | some related => exact .some (List.rel_append first related)
  | none => exact .none

private theorem rel_swap {last last' : Option (List Goal)}
    (related : Option.Rel (List.Forall₂ (Turned r)) last last') :
    Option.Rel (List.Forall₂ (Turned r)) last (last'.map (List.map Prod.swap)) := by
  cases related with
  | none => exact .none
  | some related =>
    exact .some (List.forall₂_map_right_iff.mpr (related.imp fun _ _ turned =>
      turned.elim (fun same => .inr (congrArg _ same)) fun same => .inl (by rw [same, Prod.swap_swap])))

/-- Renamed lists have renamed goals, in either order. -/
theorem listGoals_mirrored (r : Equiv.Perm Variable) (left right : List (Entry Term))
    (leftFrame rightFrame : Option Term) :
    Option.Rel (List.Forall₂ (Turned r)) (listGoals left right leftFrame rightFrame)
        (listGoals (left.map (Entry.map (rename r))) (right.map (Entry.map (rename r)))
          (leftFrame.map (rename r)) (rightFrame.map (rename r))) ∧
      Option.Rel (List.Forall₂ (Turned r)) (listGoals left right leftFrame rightFrame)
        (listGoals (right.map (Entry.map (rename r))) (left.map (Entry.map (rename r)))
          (rightFrame.map (rename r)) (leftFrame.map (rename r))) := by
  have straight := allGoals_rename (rename r) (left.zip right)
  rw [← List.zip_map] at straight
  have turned := allGoals_swap ((left.map (Entry.map (rename r))).zip (right.map (Entry.map (rename r))))
  rw [List.zip_swap, straight] at turned
  have last := lastGoals_rename (r := r) (left.drop right.length) (right.drop left.length) leftFrame rightFrame
  have level : (left.drop right.length).map (Entry.map (rename r)) = [] ∨
      (right.drop left.length).map (Entry.map (rename r)) = [] := by
    simp only [List.map_eq_nil_iff, List.drop_eq_nil_iff]
    exact Nat.le_total _ _
  unfold listGoals
  simp only [List.length_map, ← List.map_drop]
  rw [straight, turned]
  cases Pairing.allGoals (left.zip right) with
  | none => exact ⟨.none, .none⟩
  | some front =>
    refine ⟨rel_append (turned_map r front) last, rel_append (turned_swap r front) ?_⟩
    rcases lastGoals_swap level (leftFrame.map (rename r)) (rightFrame.map (rename r)) with same | same
    · rw [same]
      exact last
    · rw [same]
      exact rel_swap last

end Lists


/-- What was found is the same up to a renaming. -/
theorem variant_finish (mirrors : Mirrors r p q) (bound : p.subst.Canonical) :
    Variant r p.finish q.finish where
  injective := r.injective
  sorts := mirrors.sorts
  images v := (mirrors.images v).symm
  residual := by
    have sides : List.Forall₂ (fun goal other => Turned r goal other ∧ goal.1.Canonical ∧ goal.2.Canonical)
        (p.residual.map (Prod.map p.subst.apply p.subst.apply))
        (q.residual.map (Prod.map q.subst.apply q.subst.apply)) := by
      rw [List.forall₂_map_left_iff, List.forall₂_map_right_iff]
      refine mirrors.residual.imp fun goal other facing => ⟨facing.sides, ?_⟩
      exact ⟨bound.apply facing.canonical.1, bound.apply facing.canonical.2⟩
    refine List.Forall₂.imp (fun _ _ => And.left) (List.rel_filter (fun goal other related => ?_) sides)
    obtain ⟨turned, left, right⟩ := related
    simp only [ne_eq, decide_not, Bool.not_eq_true', decide_eq_false_iff_not]
    rcases turned with rfl | rfl
    · exact (not_congr (rename_inj r left right)).symm
    · exact (not_congr ((rename_inj r right left).trans eq_comm)).symm

end Problem

/-- Two problems make progress alike. -/
inductive Progress.Mirrors : Progress → Progress → Prop
  | solved {unifier other : Unifier} (variant : ∃ r, Variant r unifier other) :
      Mirrors (.solved unifier) (.solved other)
  | failed : Mirrors .failed .failed
  | next {p q : Problem} (mirrored : Mirrored p q) : Mirrors (.next p) (.next q)

theorem Progress.mirrors_ofOption {first second : Option Problem} (related : Option.Rel Mirrored first second) :
    (Progress.ofOption first).Mirrors (.ofOption second) := by
  cases related with
  | some mirrored => exact .next mirrored
  | none => exact .failed

namespace Problem

/-- Unless both sides are collections they are an ordinary goal again. -/
theorem expand_of_kind? (other : (p.subst.apply goal.1).kind? = none ∨ (p.subst.apply goal.2).kind? = none) :
    p.expand goal = .next (p.addGoals [(p.subst.apply goal.1, p.subst.apply goal.2)]) := by
  unfold expand
  generalize p.subst.apply goal.1 = a at *
  generalize p.subst.apply goal.2 = b at *
  split
  · simp [kind?] at other
  · rfl

section Advance

variable (mirrors : Mirrors r p q) (wellFormed : p.WellFormed fragment) (wellFormed' : q.WellFormed fragment)
  (lists : ∀ kind, fragment.kind kind → kind = .list)
include mirrors wellFormed wellFormed' lists

private theorem expand_mirrored (admitted : fragment.Admits goal) (facing : Facing r p.subst q.subst goal other) :
    (p.expand goal).Mirrors (q.expand other) := by
  have properLeft := proper_apply wellFormed lists admitted.1
  have properRight := proper_apply wellFormed lists admitted.2
  have idempotent' := wellFormed'.idempotent
  have sides : q.subst.apply other.1 = (p.subst.apply goal.1).rename r ∧
        q.subst.apply other.2 = (p.subst.apply goal.2).rename r ∨
      q.subst.apply other.1 = (p.subst.apply goal.2).rename r ∧
        q.subst.apply other.2 = (p.subst.apply goal.1).rename r :=
    facing.sides.imp Prod.mk.inj Prod.mk.inj
  by_cases single : (p.subst.apply goal.1).kind? = none ∨ (p.subst.apply goal.2).kind? = none
  · have single' : (q.subst.apply other.1).kind? = none ∨ (q.subst.apply other.2).kind? = none := by
      rcases sides with ⟨left, right⟩ | ⟨left, right⟩
      · rwa [left, right, kind?_rename properLeft.canonical, kind?_rename properRight.canonical]
      · rwa [left, right, kind?_rename properLeft.canonical, kind?_rename properRight.canonical, or_comm]
    rw [expand_of_kind? single, expand_of_kind? single']
    refine .next (addGoals_mirrored mirrors idempotent' (List.forall_mem_singleton.mpr ⟨properLeft, properRight⟩)
      (.cons ?_ .nil))
    rcases sides with ⟨left, right⟩ | ⟨left, right⟩
    · exact .inl (Prod.ext left right)
    · exact .inr (Prod.ext left right)
  · unfold expand
    generalize p.subst.apply goal.1 = a at *
    generalize p.subst.apply goal.2 = b at *
    obtain ⟨left, right⟩ := not_or.mp single
    cases a with
    | collection kind entries frame =>
      cases b with
      | collection kind' entries' frame' =>
        obtain rfl : kind = .list := properLeft.within.here
        obtain rfl : kind' = .list := properRight.within.here
        obtain ⟨straight, turned⟩ := listGoals_mirrored r entries entries' frame frame'
        have each {goals goals' : Option (List Goal)}
            (made : p.expandOrdered .list entries entries' frame frame' = goals.map p.addGoals)
            (related : Option.Rel (List.Forall₂ (Turned r)) goals goals') :
            Option.Rel Mirrored (goals.map p.addGoals) (goals'.map q.addGoals) := by
          cases related with
          | none => exact .none
          | some related =>
            obtain ⟨goals, same, suffice⟩ := suffice_expandOrdered ⟨properLeft, properRight⟩ made
            obtain rfl := List.append_cancel_left (congrArg Problem.goals same)
            exact .some (addGoals_mirrored mirrors idempotent' suffice.admitted related)
        have listed := expandOrdered_eq p entries entries' frame frame'
        rcases sides with ⟨first, second⟩ | ⟨first, second⟩
        · rw [first, second, rename_list properLeft.canonical, rename_list properRight.canonical]
          simp only [↓reduceIte, Kind.ordered, beq_self_eq_true, expandOrdered_eq]
          exact Progress.mirrors_ofOption (each listed straight)
        · rw [first, second, rename_list properLeft.canonical, rename_list properRight.canonical]
          simp only [↓reduceIte, Kind.ordered, beq_self_eq_true, expandOrdered_eq]
          exact Progress.mirrors_ofOption (each listed turned)
      | _ => exact absurd rfl right
    | _ => exact absurd rfl left

/-- Two mirrored problems take the same step. -/
theorem advance_mirrored : (p.advance sig).Mirrors (q.advance sig) := by
  have onGoals := mirrors.goals
  have onDeferred := mirrors.deferred
  unfold advance
  cases pending : p.goals with
  | cons goal rest =>
    cases pending' : q.goals with
    | nil => simp [pending, pending'] at onGoals
    | cons other rest' =>
      rw [pending, pending', List.forall₂_cons] at onGoals
      have taken : Takes p goal { p with goals := rest } := ⟨rfl, fun _ => by
        simp only [equations, pending, List.mem_append, List.mem_cons]
        tauto⟩
      have taken' : Takes q other { q with goals := rest' } := ⟨rfl, fun _ => by
        simp only [equations, pending', List.mem_append, List.mem_cons]
        tauto⟩
      refine Progress.mirrors_ofOption (step_mirrored { mirrors with goals := onGoals.2 }
        (taken.wellFormed wellFormed) (taken'.wellFormed wellFormed') lists ?_ onGoals.1)
      exact wellFormed.equations goal ((taken.equations goal).mpr (.inr rfl))
  | nil =>
    cases pending' : q.goals with
    | cons other rest' => simp [pending, pending'] at onGoals
    | nil =>
      cases waiting : p.deferred with
      | cons goal rest =>
        cases waiting' : q.deferred with
        | nil => simp [waiting, waiting'] at onDeferred
        | cons other rest' =>
          rw [waiting, waiting', List.forall₂_cons] at onDeferred
          have taken : Takes p goal { p with goals := [], deferred := rest } := ⟨rfl, fun _ => by
            simp only [equations, pending, waiting, List.mem_append, List.mem_cons]
            tauto⟩
          have taken' : Takes q other { q with goals := [], deferred := rest' } := ⟨rfl, fun _ => by
            simp only [equations, pending', waiting', List.mem_append, List.mem_cons]
            tauto⟩
          refine expand_mirrored { mirrors with goals := .nil, deferred := onDeferred.2 }
            (taken.wellFormed wellFormed)
            (taken'.wellFormed wellFormed') lists ?_ onDeferred.1
          exact wellFormed.equations goal ((taken.equations goal).mpr (.inr rfl))
      | nil =>
        cases waiting' : q.deferred with
        | cons other rest' => simp [waiting, waiting'] at onDeferred
        | nil => exact .solved ⟨r, variant_finish mirrors wellFormed.canonical⟩

end Advance

end Problem

/-- Mirrored problems come to the same end, if neither runs out of budget. -/
theorem exists_variant {budget budget' : Nat} {fresh fresh' last : Fresh} {unifier : Unifier}
    (lists : ∀ kind, fragment.kind kind → kind = .list)
    (labelled : ∀ {label sort sort'}, fragment.label label sort → fragment.label label sort' →
      sort = sort') (mirrored : Mirrored p q) (wellFormed : p.WellFormed fragment)
    (wellFormed' : q.WellFormed fragment)
    (delivers : (p.explore sig budget fresh .finished).Delivers unifier)
    (ends : (q.explore sig budget' fresh' .finished).Ends last) :
    ∃ other, (q.explore sig budget' fresh' .finished).Delivers other ∧ ∃ r, Variant r unifier other := by
  induction budget generalizing p q budget' with
  | zero => cases delivers
  | succ budget ih =>
    cases budget' with
    | zero => cases ends
    | succ budget' =>
      obtain ⟨r, mirrors⟩ := mirrored
      have alike : (p.advance sig).Mirrors (q.advance sig) :=
        Problem.advance_mirrored mirrors wellFormed wellFormed' lists
      rw [Problem.explore] at delivers ends ⊢
      cases progress : p.advance sig with
      | solved found =>
        rw [progress] at alike delivers
        cases progress' : q.advance sig with
        | solved other =>
          rw [progress'] at alike
          cases alike with
          | solved variant =>
            cases delivers with
            | here => exact ⟨other, .here _ _, variant⟩
            | later _ _ delivers => cases delivers
        | _ =>
          rw [progress'] at alike
          cases alike
      | failed =>
        rw [progress] at delivers
        cases delivers
      | next next =>
        rw [progress] at alike delivers
        cases progress' : q.advance sig with
        | next next' =>
          rw [progress'] at alike ends
          cases alike with
          | next mirrored =>
            have after {problem problem' : Problem} (moved : problem.advance sig = .next problem')
                (wellFormed : problem.WellFormed fragment) : problem'.WellFormed fragment :=
              (@Problem.advance_sound sig fragment problem problem' labelled fresh
                (by rw [moved]; exact fun _ draws => draws.elim) wellFormed (by rw [moved]; rfl)).1
            exact ih mirrored (after progress wellFormed) (after progress' wellFormed') delivers ends
        | _ =>
          rw [progress'] at alike
          cases alike
      | choose c =>
        rw [progress] at alike
        cases alike

end Unification

end Reach
