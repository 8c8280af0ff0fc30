import Reach.Proofs.Execution
import Reach.Search

/-!
Search goes layer by layer through a graph: the states that it visits, with the successors that it
finds there. Every result is reachable with no more transitions than allowed. The converse needs the
layers to be untangled. A state to which structural steps lead within a layer is filed with the next
layer, one transition too late, if a transition within the layer leads to it first.
-/

namespace Reach

/-- A state that was explored, the layer that it was filed in, and what was found. -/
structure Visit where
  state : State
  depth : Nat
  successors : List Successor

namespace Visit

def LeadsTo (visit : Visit) (transition : Bool) (state : State) : Prop :=
  ∃ next ∈ visit.successors, next.transition = transition ∧ next.state = state

/-- The successors are those of a step, taken with a store that answers truthfully. -/
def Genuine (context : Context) (visit : Visit) : Prop :=
  ∃ world after, world.store.Standard context.definition.signature ∧
    Engine.Gives (Engine.step visit.state .unifying) context world visit.successors after

/-- The visit is genuine, and its step left the counter within a bound. -/
def GenuineBy (context : Context) (bound : Nat) (visit : Visit) : Prop :=
  ∃ world after, world.store.Standard context.definition.signature ∧
    Engine.Gives (Engine.step visit.state .unifying) context world visit.successors after ∧
    after.fresh.position ≤ bound

theorem GenuineBy.genuine {context : Context} {bound : Nat} {visit : Visit}
    (genuine : visit.GenuineBy context bound) : visit.Genuine context := by
  obtain ⟨world, after, standard, stepped, _⟩ := genuine
  exact ⟨world, after, standard, stepped⟩

theorem GenuineBy.mono {context : Context} {bound later : Nat} {visit : Visit}
    (genuine : visit.GenuineBy context bound) (onward : bound ≤ later) :
    visit.GenuineBy context later := by
  obtain ⟨world, after, standard, stepped, within⟩ := genuine
  exact ⟨world, after, standard, stepped, within.trans onward⟩

end Visit

def Visited (visits : List Visit) (state : State) : Prop :=
  ∃ visit ∈ visits, visit.state = state

/-- Where states lead, by a transition or by a structural step. -/
abbrev Links := State → Bool → State → Prop

/-- Where the states led that were visited. -/
def Logged (visits : List Visit) : Links := fun state transition next =>
  ∃ visit ∈ visits, visit.state = state ∧ visit.LeadsTo transition next

/-- A chain of successors, with the number of transitions in it. -/
inductive Reaches (links : Links) (start : State) : Nat → State → Prop
  | start : Reaches links start 0 start
  | step {count : Nat} {state next : State} {transition : Bool} :
      Reaches links start count state → links state transition next →
      Reaches links start (count + transition.toNat) next

/-- The layer of a state is the least number of transitions of a chain to it. -/
def Belongs (links : Links) (start : State) (count : Nat) (state : State) : Prop :=
  Reaches links start count state ∧ ∀ fewer, Reaches links start fewer state → count ≤ fewer

/-- A layer starts with the states to which transitions lead from the layer before. -/
def Opens (links : Links) (start : State) (count : Nat) (state : State) : Prop :=
  state = start ∨ ∃ earlier, links earlier true state ∧
    ∃ fewer, count = fewer + 1 ∧ Reaches links start fewer earlier

/-- A transition between two states of the layer leads to a state that the layer starts with. -/
def UntangledAt (links : Links) (start : State) (count : Nat) : Prop :=
  ∀ rival state, Belongs links start count rival → Belongs links start count state →
    links rival true state → rival ≠ state → Opens links start count state

def Untangled (links : Links) (start : State) (limit : Nat) : Prop :=
  ∀ count < limit, UntangledAt links start count

section Layers

variable {links : Links} {visits more : List Visit} {start state : State} {count limit : Nat}

/-- The log has what a relation says of the states that were visited. -/
structure Faithful (links : Links) (visits : List Visit) : Prop where
  sound : ∀ state transition next, Logged visits state transition next → links state transition next
  complete : ∀ state transition next, Visited visits state → links state transition next →
    Logged visits state transition next

private theorem faithful_logged (visits : List Visit) : Faithful (Logged visits) visits :=
  ⟨fun _ _ _ => id, fun _ _ _ _ => id⟩

theorem logged_of_leadsTo {visit : Visit} {transition : Bool} (member : visit ∈ visits)
    (leads : visit.LeadsTo transition state) : Logged visits visit.state transition state :=
  ⟨visit, member, rfl, leads⟩

theorem Reaches.mono {wider : Links} (reaches : Reaches links start count state)
    (wide : ∀ state transition next, links state transition next → wider state transition next) :
    Reaches wider start count state := by
  induction reaches with
  | start => exact .start
  | step _ leads ih => exact .step ih (wide _ _ _ leads)

theorem Reaches.extend (reaches : Reaches (Logged visits) start count state) (subset : visits ⊆ more) :
    Reaches (Logged more) start count state :=
  reaches.mono fun _ _ _ ⟨visit, member, leads⟩ => ⟨visit, subset member, leads⟩

open Classical in
theorem Reaches.exists_belongs (reaches : Reaches links start count state) :
    ∃ fewer ≤ count, Belongs links start fewer state :=
  have exists_ : ∃ fewer, Reaches links start fewer state := ⟨count, reaches⟩
  ⟨Nat.find exists_, Nat.find_min' exists_ reaches, Nat.find_spec exists_,
    fun _ shorter => Nat.find_min' exists_ shorter⟩

/-- If all links are transitions, or none is, nothing is tangled. -/
theorem untangled_of_uniform {kind : Bool}
    (uniform : ∀ state transition next, links state transition next → transition = kind) :
    Untangled links start limit := by
  intro count _ rival state _ ⟨reaches, _⟩ leads _
  obtain rfl := uniform rival true state leads
  cases reaches with
  | start => exact .inl rfl
  | @step fewer earlier _ transition chain last =>
    obtain rfl := uniform earlier transition state last
    exact .inr ⟨earlier, last, fewer, rfl, chain⟩

/-- What holds of the states that were found, each filed with a depth, and of those visited. -/
structure Explored (start : State) (limit : Nat) (found : List (State × Nat)) (visits : List Visit) :
    Prop where
  begins : (start, 0) ∈ found
  distinct : (found.map Prod.fst).Nodup
  filed : ∀ visit ∈ visits, (visit.state, visit.depth) ∈ found
  shallow : ∀ state depth, (state, depth) ∈ found → depth ≤ limit
  reached : ∀ state depth, (state, depth) ∈ found → Reaches (Logged visits) start depth state
  transition : ∀ visit ∈ visits, visit.depth < limit → ∀ state, visit.LeadsTo true state →
    ∃ depth ≤ visit.depth + 1, (state, depth) ∈ found
  /-- A structural successor stays in the layer, unless a transition within it came first. -/
  structural : ∀ visit ∈ visits, ∀ state, visit.LeadsTo false state →
    ∃ depth, (state, depth) ∈ found ∧ (depth ≤ visit.depth ∨ depth = visit.depth + 1 ∧
      ∃ rival ∈ visits, rival.depth = visit.depth ∧ rival.state ≠ state ∧ rival.LeadsTo true state)

namespace Explored

variable {found : List (State × Nat)}

theorem depth_eq (explored : Explored start limit found visits) {first second : Nat}
    (one : (state, first) ∈ found) (other : (state, second) ∈ found) : first = second :=
  congrArg Prod.snd (List.inj_on_of_nodup_map explored.distinct one other rfl)

theorem reaches_of_visited (explored : Explored start limit found visits)
    (known : Visited visits state) : ∃ count ≤ limit, Reaches (Logged visits) start count state := by
  obtain ⟨visit, member, rfl⟩ := known
  have filed := explored.filed visit member
  exact ⟨visit.depth, explored.shallow _ _ filed, explored.reached _ _ filed⟩

/-- A state that opens its layer is filed with it, if the layer before is filed correctly. -/
theorem mem_of_opens (explored : Explored start limit found visits) (within : count ≤ limit)
    (before : ∀ fewer < count, ∀ state, Belongs (Logged visits) start fewer state →
      (state, fewer) ∈ found)
    (least : ∀ fewer, Reaches (Logged visits) start fewer state → count ≤ fewer)
    (opens : Opens (Logged visits) start count state) : (state, count) ∈ found := by
  rcases opens with same | ⟨_, ⟨visit, member, rfl, leads⟩, fewer, same, reaches⟩
  · subst same
    have zero : count = 0 := Nat.le_zero.mp (least 0 .start)
    exact zero ▸ explored.begins
  · subst same
    have belongs : Belongs (Logged visits) start fewer visit.state :=
      ⟨reaches, fun other chain =>
        Nat.le_of_succ_le_succ (least _ (.step chain (logged_of_leadsTo member leads)))⟩
    have filed := before fewer (Nat.lt_succ_self fewer) visit.state belongs
    have depth : visit.depth = fewer := explored.depth_eq (explored.filed visit member) filed
    obtain ⟨other, order, listed⟩ := explored.transition visit member (by omega) state leads
    have exactly : other = fewer + 1 :=
      Nat.le_antisymm (by omega) (least other (explored.reached state other listed))
    exact exactly ▸ listed

/-- A chain within a layer leads to states that are filed with it, if the layers before are filed
correctly. -/
theorem mem_of_chain (explored : Explored start limit found visits)
    (untangled : count < limit → UntangledAt (Logged visits) start count) (within : count ≤ limit)
    (before : ∀ fewer < count, ∀ state, Belongs (Logged visits) start fewer state →
      (state, fewer) ∈ found)
    {length : Nat} (chain : Reaches (Logged visits) start length state) (same : length = count)
    (least : ∀ fewer, Reaches (Logged visits) start fewer state → count ≤ fewer) :
    (state, count) ∈ found := by
  induction chain with
  | start => exact explored.mem_of_opens within before least (.inl rfl)
  | @step length earlier state transition chain leads ih =>
    cases transition with
    | true =>
      exact explored.mem_of_opens within before least
        (.inr ⟨earlier, leads, length, same.symm, chain⟩)
    | false =>
      have filed := ih same fun fewer other => least fewer (.step other leads)
      have arrived : Reaches (Logged visits) start count state := same ▸ .step chain leads
      obtain ⟨visit, member, rfl, leads⟩ := leads
      have depth := explored.depth_eq (explored.filed visit member) filed
      obtain ⟨other, listed, order⟩ := explored.structural visit member state leads
      have enough := least other (explored.reached state other listed)
      rcases order with order | ⟨late, rival, known, level, differs, ahead⟩
      · have exactly : other = count := by omega
        exact exactly ▸ listed
      · -- The rival was filed with this layer, so it belongs to it.
        have place := explored.filed rival known
        obtain ⟨fewer, below, lies⟩ := (explored.reached rival.state rival.depth place).exists_belongs
        have here : fewer = count := by
          by_contra earlier
          have early := before fewer (by omega) rival.state lies
          have := explored.depth_eq place early
          omega
        subst here
        have room := explored.shallow state other listed
        exact explored.mem_of_opens within before least (untangled (by omega) rival.state state lies
          ⟨arrived, least⟩ (logged_of_leadsTo known ahead) differs)

/-- Where nothing is tangled, each state is filed with the layer that it belongs to. A layer has to be
untangled only if the layers before it are filed correctly. -/
theorem mem_of_belongs (explored : Explored start limit found visits)
    (untangled : ∀ count < limit, (∀ fewer < count, ∀ state, Belongs (Logged visits) start fewer state →
      (state, fewer) ∈ found) → UntangledAt (Logged visits) start count) (within : count ≤ limit)
    (belongs : Belongs (Logged visits) start count state) : (state, count) ∈ found := by
  induction count using Nat.strongRecOn generalizing state with
  | ind count ih =>
    have before : ∀ fewer < count, ∀ state, Belongs (Logged visits) start fewer state →
        (state, fewer) ∈ found :=
      fun fewer below state => ih fewer below ((Nat.le_of_lt below).trans within)
    exact explored.mem_of_chain (fun below => untangled count below before) within before belongs.1 rfl
      belongs.2

variable {bound : Nat} (faithful : Faithful links visits)
  (visited : ∀ state level, (state, level) ∈ found → Visited visits state)
include faithful visited

/-- Chains of the relation are in the log, as far as the layers are filed correctly. -/
theorem reaches_logged (filed : ∀ fewer < bound, ∀ state, Belongs (Logged visits) start fewer state →
      (state, fewer) ∈ found) (reaches : Reaches links start count state) (below : count < bound) :
    Reaches (Logged visits) start count state ∧ Visited visits state := by
  have known {fewer : Nat} {earlier : State} (chain : Reaches (Logged visits) start fewer earlier)
      (below : fewer < bound) : Visited visits earlier := by
    obtain ⟨least, order, belongs⟩ := chain.exists_belongs
    exact visited earlier least (filed least (order.trans_lt below) earlier belongs)
  induction reaches with
  | start => exact ⟨.start, known .start below⟩
  | @step fewer earlier next transition _ leads ih =>
    obtain ⟨chain, arrived⟩ := ih ((Nat.le_add_right _ _).trans_lt below)
    have onward := chain.step (faithful.complete earlier transition next arrived leads)
    exact ⟨onward, known onward below⟩

/-- A layer that is untangled in the relation is untangled in the log, if the layers before it are filed
correctly. -/
theorem untangledAt_logged (before : ∀ fewer < count, ∀ state, Belongs (Logged visits) start fewer state →
      (state, fewer) ∈ found) (untangled : UntangledAt links start count) :
    UntangledAt (Logged visits) start count := by
  have belongs {state : State} (lies : Belongs (Logged visits) start count state) :
      Belongs links start count state := by
    refine ⟨lies.1.mono faithful.sound, fun fewer shorter => ?_⟩
    by_contra less
    have logged := reaches_logged faithful visited before shorter (Nat.lt_of_not_le less)
    exact less (lies.2 fewer logged.1)
  intro rival state lies here leads differs
  rcases untangled rival state (belongs lies) (belongs here)
    (faithful.sound rival true state leads) differs with same | ⟨earlier, leads, fewer, rfl, reaches⟩
  · exact .inl same
  · obtain ⟨logged, known⟩ := reaches_logged faithful visited before reaches (Nat.lt_succ_self fewer)
    exact .inr ⟨earlier, faithful.complete earlier true state known leads, fewer, rfl, logged⟩

/-- Every state that the relation reaches within the limit is visited, if nothing is tangled in it. -/
theorem visited_of_reaches (explored : Explored start limit found visits)
    (untangled : Untangled links start limit) (within : count ≤ limit)
    (reaches : Reaches links start count state) : Visited visits state := by
  have filed : ∀ fewer < limit + 1, ∀ state, Belongs (Logged visits) start fewer state →
      (state, fewer) ∈ found := by
    intro fewer below state
    refine explored.mem_of_belongs (fun level within before => ?_) (Nat.le_of_lt_succ below)
    exact untangledAt_logged faithful visited before (untangled level within)
  exact (reaches_logged faithful visited filed reaches (Nat.lt_succ_of_le within)).2

end Explored

end Layers

namespace Frontier

variable {atLimit : Bool} {f f' f'' : Frontier} {successors later : List Successor}
  {kept moved kept' moved' : List State}

/-- What filing successors adds to a frontier: states kept in the layer, and states moved to the
next. -/
structure Extends (atLimit : Bool) (successors : List Successor) (f f' : Frontier)
    (kept moved : List State) : Prop where
  layer : f'.layer.toList = f.layer.toList ++ kept
  next : f'.next.toList = f.next.toList ++ moved
  seen : ∀ state, state ∈ f'.seen ↔ state ∈ f.seen ∨ state ∈ kept ∨ state ∈ moved
  new : ∀ state, state ∈ kept ∨ state ∈ moved → state ∉ f.seen
  distinct : (kept ++ moved).Nodup
  structural : ∀ state ∈ kept, ∃ successor ∈ successors, successor.transition = false ∧
    successor.state = state
  transition : ∀ state ∈ moved, atLimit = false ∧ ∃ successor ∈ successors,
    successor.transition = true ∧ successor.state = state
  handled : ∀ successor ∈ successors, (successor.transition && atLimit) = false →
    successor.state ∈ f'.seen

theorem extends_refl (atLimit : Bool) (f : Frontier) : Extends atLimit [] f f [] [] := by
  constructor <;> simp

theorem Extends.trans (first : Extends atLimit successors f f' kept moved)
    (second : Extends atLimit later f' f'' kept' moved') :
    Extends atLimit (successors ++ later) f f'' (kept ++ kept') (moved ++ moved') where
  layer := by rw [second.layer, first.layer, List.append_assoc]
  next := by rw [second.next, first.next, List.append_assoc]
  seen := by
    intro state
    rw [second.seen, first.seen, List.mem_append, List.mem_append]
    tauto
  new := by
    intro state added known
    have still := (first.seen state).mpr (.inl known)
    rw [List.mem_append, List.mem_append] at added
    rcases added with (early | late) | early | late
    · exact first.new state (.inl early) known
    · exact second.new state (.inl late) still
    · exact first.new state (.inr early) known
    · exact second.new state (.inr late) still
  distinct := by
    have apart : List.Disjoint (kept ++ moved) (kept' ++ moved') := by
      intro state early late
      exact second.new state (List.mem_append.mp late)
        ((first.seen state).mpr (.inr (List.mem_append.mp early)))
    have together := List.Nodup.append first.distinct second.distinct apart
    refine (List.Perm.nodup_iff ?_).mp together
    simp only [List.append_assoc]
    refine List.Perm.append_left kept ?_
    simp only [← List.append_assoc]
    exact List.Perm.append_right moved' List.perm_append_comm
  structural := by
    intro state added
    rcases List.mem_append.mp added with early | late
    · obtain ⟨successor, member, found⟩ := first.structural state early
      exact ⟨successor, List.mem_append_left _ member, found⟩
    · obtain ⟨successor, member, found⟩ := second.structural state late
      exact ⟨successor, List.mem_append_right _ member, found⟩
  transition := by
    intro state added
    rcases List.mem_append.mp added with early | late
    · obtain ⟨allowed, successor, member, found⟩ := first.transition state early
      exact ⟨allowed, successor, List.mem_append_left _ member, found⟩
    · obtain ⟨allowed, successor, member, found⟩ := second.transition state late
      exact ⟨allowed, successor, List.mem_append_right _ member, found⟩
  handled := by
    intro successor member followed
    rcases List.mem_append.mp member with early | late
    · exact (second.seen _).mpr (.inl (first.handled successor early followed))
    · exact second.handled successor late followed

private theorem exists_extends_add (atLimit : Bool) (f : Frontier) (successor : Successor) :
    ∃ kept moved, Extends atLimit [successor] f (f.add atLimit successor) kept moved := by
  by_cases passed : ((successor.transition && atLimit) || f.seen.contains successor.state) = true
  · refine ⟨[], [], ?_⟩
    rw [add, if_pos passed]
    refine { extends_refl atLimit f with structural := by simp, transition := by simp, handled := ?_ }
    intro other member followed
    obtain rfl := List.mem_singleton.mp member
    simpa [followed] using passed
  · have new : successor.state ∉ f.seen := by
      intro known
      simp [known] at passed
    have inserted (state : State) :
        state ∈ f.seen.insert successor.state ↔ state ∈ f.seen ∨ state = successor.state := by
      rw [Std.TreeSet.mem_insert, Std.LawfulEqOrd.compare_eq_iff_eq, or_comm, eq_comm]
    cases kind : successor.transition with
    | true =>
      have allowed : atLimit = false := by simp_all
      refine ⟨[], [successor.state], ?_⟩
      rw [add, if_neg passed, if_pos kind]
      constructor <;> grind
    | false =>
      refine ⟨[successor.state], [], ?_⟩
      rw [add, if_neg passed, if_neg (by simp [kind])]
      constructor <;> grind

theorem exists_extends (atLimit : Bool) (successors : List Successor) (f : Frontier) :
    ∃ kept moved, Extends atLimit successors f (successors.foldl (add atLimit) f) kept moved := by
  induction successors generalizing f with
  | nil => exact ⟨[], [], extends_refl atLimit f⟩
  | cons successor rest ih =>
    obtain ⟨kept, moved, first⟩ := exists_extends_add atLimit f successor
    obtain ⟨kept', moved', others⟩ := ih (f.add atLimit successor)
    exact ⟨kept ++ kept', moved ++ moved', first.trans others⟩

end Frontier

/-- What holds while the layer at `depth` is explored and the states before `position` are done. -/
structure Exploring (start : State) (limit depth : Nat) (found : List (State × Nat))
    (visits : List Visit) (f : Frontier) (position : Nat) : Prop
    extends Explored start limit found visits where
  seen : ∀ state, state ∈ f.seen ↔ state ∈ found.map Prod.fst
  layer : ∀ state ∈ f.layer.toList, (state, depth) ∈ found
  next : ∀ state ∈ f.next.toList, (state, depth + 1) ∈ found ∧ ∃ rival ∈ visits,
    rival.depth = depth ∧ rival.state ≠ state ∧ rival.LeadsTo true state
  bounded : ∀ state other, (state, other) ∈ found → other ≤ depth ∨ state ∈ f.next.toList
  /-- What was found was visited or waits, and nothing twice. -/
  tally : (visits.map Visit.state ++ (f.layer.toList.drop position ++ f.next.toList)).Perm
    (found.map Prod.fst)

namespace Exploring

variable {start state : State} {limit depth position : Nat} {found : List (State × Nat)}
  {visits : List Visit} {f f' : Frontier} {successors : List Successor} {kept moved : List State}

/-- The states found when those kept in the layer and those moved to the next are filed. -/
def file (depth : Nat) (found : List (State × Nat)) (kept moved : List State) : List (State × Nat) :=
  found ++ (kept.map (·, depth) ++ moved.map (·, depth + 1))

theorem mem_file {other : Nat} : (state, other) ∈ file depth found kept moved ↔
    (state, other) ∈ found ∨ state ∈ kept ∧ other = depth ∨ state ∈ moved ∧ other = depth + 1 := by
  simp only [file, List.mem_append, List.mem_map, Prod.mk.injEq]
  grind

theorem map_file : (file depth found kept moved).map Prod.fst =
    found.map Prod.fst ++ (kept ++ moved) := by
  simp [file, Function.comp_def]

section Visit

variable (exploring : Exploring start limit depth found visits f position)
  (here : (state, depth) ∈ found)
  (extended : f.Extends (decide (limit ≤ depth)) successors f' kept moved)

include exploring extended

theorem seen_visit (other : State) :
    other ∈ f'.seen ↔ other ∈ (file depth found kept moved).map Prod.fst := by
  rw [extended.seen, exploring.seen, map_file, List.mem_append, List.mem_append]

theorem bounded_visit {other : State} {level : Nat}
    (filed : (other, level) ∈ file depth found kept moved) :
    level ≤ depth ∨ other ∈ f'.next.toList := by
  rw [extended.next, List.mem_append]
  rcases mem_file.mp filed with known | ⟨_, same⟩ | ⟨new, _⟩
  · exact (exploring.bounded other level known).imp_right .inl
  · exact .inl (Nat.le_of_eq same)
  · exact .inr (.inr new)

include here

/-- States in the next layer are one transition away from a state of this one, and not the same. -/
theorem next_visit {other : State} (later : other ∈ f'.next.toList) :
    (other, depth + 1) ∈ file depth found kept moved ∧
      ∃ rival ∈ visits ++ [⟨state, depth, successors⟩], rival.depth = depth ∧ rival.state ≠ other ∧
        rival.LeadsTo true other := by
  rw [extended.next] at later
  rcases List.mem_append.mp later with known | new
  · obtain ⟨filed, rival, member, rest⟩ := exploring.next other known
    exact ⟨mem_file.mpr (.inl filed), rival, List.mem_append_left _ member, rest⟩
  · refine ⟨mem_file.mpr (.inr (.inr ⟨new, rfl⟩)), _, List.mem_append_right _ List.mem_cons_self, rfl,
      ?_, (extended.transition other new).2⟩
    intro same
    refine extended.new other (.inr new) ((exploring.seen other).mpr ?_)
    exact List.mem_map.mpr ⟨_, here, same⟩

private theorem explored_visit : Explored start limit (file depth found kept moved)
    (visits ++ [⟨state, depth, successors⟩]) := by
  have onward : visits ⊆ visits ++ [⟨state, depth, successors⟩] := List.subset_append_left _ _
  have last : (⟨state, depth, successors⟩ : Visit) ∈ visits ++ [⟨state, depth, successors⟩] :=
    List.mem_append_right _ List.mem_cons_self
  have arrived := (exploring.reached state depth here).extend onward
  have room (other : State) (new : other ∈ moved) : depth < limit := by
    simpa using (extended.transition other new).1
  -- A successor that is followed is filed, with the next layer if it is late.
  have followed {transition : Bool} {other : State}
      (leads : Visit.LeadsTo ⟨state, depth, successors⟩ transition other)
      (allowed : transition = true → depth < limit) :
      ∃ level, (other, level) ∈ file depth found kept moved ∧
        (level ≤ depth ∨ other ∈ f'.next.toList) := by
    obtain ⟨successor, member, rfl, rfl⟩ := leads
    have handled := extended.handled successor member (by
      cases kind : successor.transition with
      | false => rfl
      | true => simpa using allowed kind)
    rw [exploring.seen_visit extended] at handled
    obtain ⟨⟨_, level⟩, filed, rfl⟩ := List.mem_map.mp handled
    exact ⟨level, filed, exploring.bounded_visit extended filed⟩
  refine ⟨mem_file.mpr (.inl exploring.begins), ?_, ?_, ?_, ?_, ?_, ?_⟩
  · rw [map_file]
    refine List.Nodup.append exploring.distinct extended.distinct fun other known new => ?_
    exact extended.new other (List.mem_append.mp new) ((exploring.seen other).mpr known)
  · intro visit member
    refine mem_file.mpr (.inl ?_)
    rcases List.mem_append.mp member with known | new
    · exact exploring.filed visit known
    · obtain rfl := List.mem_singleton.mp new
      exact here
  · intro other level filed
    rcases mem_file.mp filed with known | ⟨_, rfl⟩ | ⟨new, rfl⟩
    · exact exploring.shallow other level known
    · exact exploring.shallow state _ here
    · exact room other new
  · intro other level filed
    rcases mem_file.mp filed with known | ⟨new, rfl⟩ | ⟨new, rfl⟩
    · exact (exploring.reached other level known).extend onward
    · exact arrived.step (logged_of_leadsTo last (extended.structural other new))
    · exact arrived.step (logged_of_leadsTo last (extended.transition other new).2)
  · intro visit member allowed other leads
    rcases List.mem_append.mp member with known | new
    · obtain ⟨level, order, filed⟩ := exploring.transition visit known allowed other leads
      exact ⟨level, order, mem_file.mpr (.inl filed)⟩
    · obtain rfl := List.mem_singleton.mp new
      obtain ⟨level, filed, order | late⟩ := followed leads fun _ => allowed
      · exact ⟨level, Nat.le_succ_of_le order, filed⟩
      · exact ⟨depth + 1, Nat.le_refl _, (exploring.next_visit here extended late).1⟩
  · intro visit member other leads
    rcases List.mem_append.mp member with known | new
    · obtain ⟨level, filed, order⟩ := exploring.structural visit known other leads
      refine ⟨level, mem_file.mpr (.inl filed), order.imp_right fun ⟨late, rival, member, rest⟩ => ?_⟩
      exact ⟨late, rival, onward member, rest⟩
    · obtain rfl := List.mem_singleton.mp new
      obtain ⟨level, filed, order | late⟩ := followed leads nofun
      · exact ⟨level, filed, .inl order⟩
      · obtain ⟨filed, rivals⟩ := exploring.next_visit here extended late
        exact ⟨depth + 1, filed, .inr ⟨rfl, rivals⟩⟩

end Visit

/-- The state at `position` of the layer is explored. -/
theorem visit (exploring : Exploring start limit depth found visits f position)
    (here : f.layer[position]? = some state)
    (extended : f.Extends (decide (limit ≤ depth)) successors f' kept moved) :
    Exploring start limit depth (file depth found kept moved)
      (visits ++ [⟨state, depth, successors⟩]) f' (position + 1) := by
  have filed : (state, depth) ∈ found :=
    exploring.layer state (Array.mem_toList_iff.mpr (Array.mem_of_getElem? here))
  refine ⟨exploring.explored_visit filed extended, exploring.seen_visit extended, ?_,
    fun _ => exploring.next_visit filed extended, fun _ _ => exploring.bounded_visit extended, ?_⟩
  · intro other member
    rw [extended.layer] at member
    rcases List.mem_append.mp member with known | new
    · exact mem_file.mpr (.inl (exploring.layer other known))
    · exact mem_file.mpr (.inr (.inl ⟨new, rfl⟩))
  · obtain ⟨below, same⟩ := Array.getElem?_eq_some_iff.mp here
    have inside : position + 1 ≤ f.layer.toList.length := Nat.succ_le_of_lt (by simpa using below)
    have before := exploring.tally
    rw [List.drop_eq_getElem_cons inside, Array.getElem_toList, same] at before
    rw [extended.layer, extended.next, List.drop_append_of_le_length inside, map_file]
    rw [List.perm_iff_count] at before ⊢
    intro other
    have counted := before other
    simp only [List.map_append, List.map_cons, List.map_nil, List.count_append, List.count_cons,
      List.count_nil] at counted ⊢
    omega

/-- Once a layer is done, only the states of the next one are left. -/
theorem visited_or_next (exploring : Exploring start limit depth found visits f position)
    (done : f.layer.size ≤ position) {level : Nat} (filed : (state, level) ∈ found) :
    Visited visits state ∨ state ∈ f.next.toList := by
  have nothing : f.layer.toList.drop position = [] := List.drop_eq_nil_of_le (by simpa using done)
  have member : state ∈ found.map Prod.fst := List.mem_map.mpr ⟨_, filed, rfl⟩
  rw [← exploring.tally.mem_iff, nothing, List.nil_append, List.mem_append, List.mem_map] at member
  exact member

/-- The next layer is explored in its turn. -/
theorem descend (exploring : Exploring start limit depth found visits f position)
    (done : f.layer.size ≤ position) :
    Exploring start limit (depth + 1) found visits { seen := f.seen, layer := f.next } 0 := by
  refine ⟨exploring.toExplored, exploring.seen, fun other member => (exploring.next other member).1,
    nofun, fun other level filed => .inl ?_, ?_⟩
  · rcases exploring.bounded other level filed with order | later
    · exact Nat.le_succ_of_le order
    · exact Nat.le_of_eq (exploring.depth_eq filed (exploring.next other later).1)
  · have nothing : f.layer.toList.drop position = [] := List.drop_eq_nil_of_le (by simpa using done)
    simpa [nothing] using exploring.tally

end Exploring

namespace Engine

variable {context : Context} {world after : World} {pattern : Pattern} {state start : State}
  {limit depth position budget : Nat} {found : List (State × Nat)} {visits : List Visit}

/-- The pattern matches the state, as a store that answers truthfully has it. -/
def Accepts (context : Context) (pattern : Pattern) (state : State) : Prop :=
  ∃ world after s, world.store.Standard context.definition.signature ∧
    Gives (firstMatch pattern state) context world (some s) after

theorem of_gives_firstMatchAmong {s : Subst} {more : Unit → Enumeration Subst}
    {value : Option Subst} (standard : world.store.Standard context.definition.signature)
    (gives : Gives (firstMatchAmong pattern state (.cons s more)) context world value after) :
    ∃ requires answer, context.definition.evaluate context.config.maxFunctionDepth
        (s.apply pattern.requires) = .ok requires ∧
      (Store.feasible context.definition.signature (state.constraint.conjoin requires) .standard).1 =
        .ok answer ∧
      ∃ middle, world.Leads context.definition.signature middle ∧
        Gives (if answer then pure (some s) else firstMatchAmong pattern state (more ()))
          context middle value after := by
  simp only [firstMatchAmong, gives_bind, gives_evaluate] at gives
  obtain ⟨requires, _, ⟨evaluated, rfl⟩, answer, middle, asked, gives⟩ := gives
  have onward := (leads_of_gives_feasible asked).1
  rw [gives_feasible, standard.feasible_eq] at asked
  exact ⟨requires, answer, evaluated, asked.1, middle, onward, gives⟩

/-- A store that answers truthfully has no influence on the first match. -/
theorem firstMatchAmong_unique {choices : Enumeration Subst} {value : Option Subst}
    (standard : world.store.Standard context.definition.signature)
    (gives : Gives (firstMatchAmong pattern state choices) context world value after) :
    world.Leads context.definition.signature after ∧
      ∀ other value' after', other.store.Standard context.definition.signature →
        Gives (firstMatchAmong pattern state choices) context other value' after' →
        value' = value := by
  induction choices generalizing world with
  | nil =>
    obtain ⟨rfl, rfl⟩ := gives_pure.mp gives
    exact ⟨World.leads_refl _ _, fun _ _ _ _ again => (gives_pure.mp again).1⟩
  | cons s more ih =>
    obtain ⟨requires, answer, evaluated, asked, middle, onward, gives⟩ :=
      of_gives_firstMatchAmong standard gives
    cases answer with
    | true =>
      obtain ⟨rfl, rfl⟩ := gives_pure.mp gives
      refine ⟨onward, fun other value' after' standard' again => ?_⟩
      obtain ⟨_, _, evaluated', asked', _, _, again⟩ := of_gives_firstMatchAmong standard' again
      cases evaluated.symm.trans evaluated'
      cases asked.symm.trans asked'
      exact (gives_pure.mp again).1
    | false =>
      obtain ⟨last, unique⟩ := ih () (onward.standard standard) gives
      refine ⟨onward.trans last, fun other value' after' standard' again => ?_⟩
      obtain ⟨_, _, evaluated', asked', middle', onward', again⟩ :=
        of_gives_firstMatchAmong standard' again
      cases evaluated.symm.trans evaluated'
      cases asked.symm.trans asked'
      exact unique middle' value' after' (onward'.standard standard') again

/-- The states of a layer that the pattern matches are its results. -/
theorem mem_of_gives_filterMapM {states : List State} {matched : List SearchResult}
    (standard : world.store.Standard context.definition.signature)
    (gives : Gives (states.filterMapM (searchResult? { depth := some limit } pattern)) context world
      matched after) :
    world.Leads context.definition.signature after ∧ ∀ result, result ∈ matched ↔
      ∃ state ∈ states, Accepts context pattern state ∧ result = .state state := by
  induction states generalizing world matched with
  | nil =>
    rw [List.filterMapM_nil] at gives
    obtain ⟨rfl, rfl⟩ := gives_pure.mp gives
    exact ⟨World.leads_refl _ _, by simp⟩
  | cons state rest ih =>
    obtain ⟨_, middle, others, made, later, rfl⟩ := gives_filterMapM_cons.mp gives
    obtain ⟨first, _, tested, made⟩ := gives_bind.mp made
    obtain ⟨rfl, rfl⟩ := gives_pure.mp made
    obtain ⟨onward, unique⟩ := firstMatchAmong_unique standard tested
    cases first with
    | none =>
      obtain ⟨last, members⟩ := ih (onward.standard standard) later
      refine ⟨onward.trans last, fun result => ?_⟩
      have rejected : ¬Accepts context pattern state := by
        rintro ⟨other, after', s, standard', accepted⟩
        cases unique other (some s) after' standard' accepted
      simp [members, rejected]
    | some s =>
      obtain ⟨last, members⟩ := ih (onward.standard standard) later
      have accepted : Accepts context pattern state := ⟨world, middle, s, standard, tested⟩
      exact ⟨onward.trans last, fun result => by simp [members, accepted]⟩

private theorem leads_of_gives_step {successors : List Successor}
    (bare : ∀ rule ∈ context.definition.rules, rule.Bare)
    (gives : Gives (step state .unifying) context world successors after) :
    world.Leads context.definition.signature after := by
  obtain ⟨results, made, _⟩ := gives_step.mp gives
  refine (of_gives_mapM (fun rule member world value after applied => ?_) made).1
  exact leads_of_gives_applyRule (bare rule (mem_rules_of_mem_tried member)) applied

/-- A layer is done at its end. Before that a state is explored, what is final about it is noted if
that is looked for, and its successors are filed. -/
theorem of_gives_closeLayer_succ {config : SearchConfig} {atLimit : Bool} {f f' : Frontier}
    (gives : Gives (closeLayer config atLimit (budget + 1) position f) context world f' after) :
    f.layer[position]? = none ∧ f' = f ∧ after = world ∨
      ∃ state successors middle finals last, f.layer[position]? = some state ∧
        Gives (step state .unifying) context world successors middle ∧
        Gives (if config.type = .final then finalsOf state successors else pure #[]) context middle finals
          last ∧
        Gives (closeLayer config atLimit budget (position + 1)
          (successors.foldl (Frontier.add atLimit) { f with finals := f.finals ++ finals })) context last
          f' after := by
  unfold closeLayer at gives
  split at gives
  · next done => exact .inl ⟨done, gives_pure.mp gives⟩
  · next state here =>
    obtain ⟨successors, middle, stepped, gives⟩ := gives_bind.mp gives
    split at gives
    all_goals
      next final =>
        obtain ⟨finals, last, noted, gives⟩ := gives_bind.mp gives
        refine .inr ⟨state, successors, middle, finals, last, here, stepped, ?_, gives⟩
        simpa only [final, ↓reduceIte, monadLift_self] using noted

/-- A layer is explored to its end. -/
theorem exploring_of_gives_closeLayer {f f' : Frontier}
    (bare : ∀ rule ∈ context.definition.rules, rule.Bare)
    (standard : world.store.Standard context.definition.signature)
    (exploring : Exploring start limit depth found visits f position)
    (gives : Gives (closeLayer { depth := some limit } (decide (limit ≤ depth)) budget position f)
      context world f' after) :
    world.Leads context.definition.signature after ∧ f.layer.toList ⊆ f'.layer.toList ∧
      ∃ found' new position', f'.layer.size ≤ position' ∧
        Exploring start limit depth found' (visits ++ new) f' position' ∧
        ∀ visit ∈ new, visit.GenuineBy context after.fresh.position ∧
          visit.state ∈ f'.layer.toList := by
  induction budget generalizing world found visits f position with
  | zero => exact absurd gives gives_throw
  | succ budget ih =>
    rcases of_gives_closeLayer_succ gives with
      ⟨done, rfl, rfl⟩ | ⟨state, successors, middle, _, _, here, stepped, unnoted, gives⟩
    · refine ⟨World.leads_refl _ _, List.Subset.refl _, found, [], position, ?_, by simpa using exploring,
        nofun⟩
      simpa using done
    · obtain ⟨rfl, rfl⟩ := gives_pure.mp unnoted
      rw [Array.append_empty] at gives
      obtain ⟨kept, moved, extended⟩ :=
        Frontier.exists_extends (decide (limit ≤ depth)) successors f
      have onward := leads_of_gives_step bare stepped
      obtain ⟨last, grown, found', new, position', done, explored, sound⟩ :=
        ih (onward.standard standard) (exploring.visit here extended) gives
      rw [extended.layer] at grown
      have kept : f.layer.toList ⊆ f'.layer.toList :=
        fun _ member => grown (List.mem_append_left _ member)
      rw [List.append_assoc] at explored
      refine ⟨onward.trans last, kept, found', _, position', done, explored,
        List.forall_mem_cons.mpr ⟨?_, sound⟩⟩
      have member := Array.mem_toList_iff.mpr (Array.mem_of_getElem? here)
      exact ⟨⟨world, _, standard, stepped, last.forward⟩, kept member⟩

theorem begin_exploring (start : State) (limit : Nat) :
    Exploring start limit 0 [(start, 0)] [] { seen := {start}, layer := #[start] } 0 := by
  have only {state : State} {level : Nat} (filed : (state, level) ∈ [(start, 0)]) :
      state = start ∧ level = 0 := by simpa using filed
  refine ⟨⟨List.mem_cons_self, List.nodup_singleton _, nofun, ?_, ?_, nofun, nofun⟩, ?_, ?_, nofun, ?_,
    ?_⟩
  · intro state level filed
    obtain ⟨_, rfl⟩ := only filed
    exact Nat.zero_le limit
  · intro state level filed
    obtain ⟨rfl, rfl⟩ := only filed
    exact .start
  · intro state
    simpa using eq_comm
  · intro state member
    simpa using member
  · intro state level filed
    exact .inl (Nat.le_of_eq (only filed).2)
  · simp

/-- The layers are explored, until there is none left or the limit is reached. -/
theorem explored_of_gives_explore {layer : Array State} {seen : Std.TreeSet State}
    {results : Array SearchResult} {outcome : SearchResults}
    (bare : ∀ rule ∈ context.definition.rules, rule.Bare)
    (standard : world.store.Standard context.definition.signature)
    (exploring : Exploring start limit depth found visits { seen, layer } 0)
    (genuine : ∀ visit ∈ visits, visit.GenuineBy context world.fresh.position)
    (recorded : ∀ result, result ∈ results.toList ↔
      ∃ state, Visited visits state ∧ Accepts context pattern state ∧ result = .state state)
    (gives : Gives (explore { depth := some limit } pattern budget depth layer seen results) context
      world outcome after) :
    ∃ found visits, Explored start limit found visits ∧ (visits.map Visit.state).Nodup ∧
      (∀ visit ∈ visits, visit.GenuineBy context after.fresh.position) ∧
      (∀ state level, (state, level) ∈ found → Visited visits state) ∧
      ∀ result, result ∈ outcome.results ↔
        ∃ state, Visited visits state ∧ Accepts context pattern state ∧ result = .state state := by
  induction budget generalizing world depth found visits layer seen results with
  | zero => exact absurd gives gives_throw
  | succ budget ih =>
    unfold explore at gives
    simp only [monadLift_self, gives_bind, gives_budget] at gives
    obtain ⟨_, _, ⟨rfl, rfl⟩, f, middle, closed, matched, tail, tested, gives⟩ := gives
    obtain ⟨onward, _, found', new, position, done, explored, sound⟩ :=
      exploring_of_gives_closeLayer bare standard exploring closed
    obtain ⟨last, members⟩ := mem_of_gives_filterMapM (onward.standard standard) tested
    have genuine' : ∀ visit ∈ visits ++ new, visit.GenuineBy context tail.fresh.position := by
      intro visit member
      rcases List.mem_append.mp member with known | fresh
      · exact (genuine visit known).mono (onward.trans last).forward
      · exact (sound visit fresh).1.mono last.forward
    -- The states of the layer are those visited since it was begun.
    have layered (state : State) : Visited (visits ++ new) state ↔
        Visited visits state ∨ state ∈ f.layer.toList := by
      constructor
      · rintro ⟨visit, member, rfl⟩
        rcases List.mem_append.mp member with known | fresh
        · exact .inl ⟨visit, known, rfl⟩
        · exact .inr (sound visit fresh).2
      · rintro (⟨visit, known, same⟩ | member)
        · exact ⟨visit, List.mem_append_left _ known, same⟩
        · have filed := explored.layer state member
          refine (explored.visited_or_next done filed).resolve_right fun later => ?_
          cases explored.depth_eq filed (explored.next state later).1
    have recorded' : ∀ result, result ∈ (results ++ matched).toList ↔ ∃ state,
        Visited (visits ++ new) state ∧ Accepts context pattern state ∧ result = .state state := by
      intro result
      rw [Array.toList_appendList, List.mem_append, recorded, members]
      simp only [layered, or_and_right, exists_or]
      rfl
    split at gives
    · next stopped =>
      obtain ⟨rfl, rfl⟩ := gives_pure.mp gives
      have once := explored.tally.nodup_iff.mpr explored.distinct
      refine ⟨found', visits ++ new, explored.toExplored, (List.nodup_append.mp once).1, genuine',
        fun state level filed => ?_, recorded'⟩
      refine (explored.visited_or_next done filed).resolve_right fun later => ?_
      have room := explored.shallow state _ (explored.next state later).1
      have reached : f.next = #[] ∨ limit ≤ depth := by
        simpa [full, SearchConfig.atLimit, SearchConfig.maxDepth] using stopped
      rcases reached with none | limited
      · simp [none] at later
      · omega
    · exact ih ((onward.trans last).standard standard) (explored.descend done) genuine' recorded' gives

/-- What a search has visited, and what it reports: the states visited that the pattern accepts. -/
theorem explored_of_gives_search {initial : State} {outcome : SearchResults}
    (bare : ∀ rule ∈ context.definition.rules, rule.Bare)
    (standard : world.store.Standard context.definition.signature)
    (gives : Gives (search initial pattern { depth := some limit }) context world outcome after) :
    let start := { initial with
      constraint := initial.constraint.simplify context.definition.signature }
    ∃ found visits, Explored start limit found visits ∧ (visits.map Visit.state).Nodup ∧
      (∀ visit ∈ visits, visit.GenuineBy context after.fresh.position) ∧
      (∀ state level, (state, level) ∈ found → Visited visits state) ∧
      ∀ result, result ∈ outcome.results ↔
        ∃ state, Visited visits state ∧ Accepts context pattern state ∧ result = .state state := by
  unfold search at gives
  simp only [monadLift_self, gives_bind, gives_signature, gives_budget] at gives
  obtain ⟨_, _, ⟨rfl, rfl⟩, _, _, ⟨rfl, rfl⟩, gives⟩ := gives
  intro start
  exact explored_of_gives_explore bare standard (begin_exploring start limit) nofun (by simp [Visited])
    gives

/-- What a search within a limit reports. It is a state that the pattern accepts and that is reachable
with no more transitions than the limit allows. Every such state is reported, and was visited, if what
was visited is untangled. -/
theorem search_exact {initial : State} {outcome : SearchResults}
    (bare : ∀ rule ∈ context.definition.rules, rule.Bare)
    (standard : world.store.Standard context.definition.signature)
    (gives : Gives (search initial pattern { depth := some limit }) context world outcome after) :
    let start := { initial with
      constraint := initial.constraint.simplify context.definition.signature }
    ∃ visits : List Visit, (visits.map Visit.state).Nodup ∧
      (∀ visit ∈ visits, visit.Genuine context) ∧
      (∀ result ∈ outcome.results, ∃ state, result = .state state ∧ Accepts context pattern state ∧
        ∃ count ≤ limit, Reaches (Logged visits) start count state) ∧
      (Untangled (Logged visits) start limit →
        (∀ count ≤ limit, ∀ state, Reaches (Logged visits) start count state → Visited visits state) ∧
        ∀ state, Accepts context pattern state → (.state state ∈ outcome.results ↔
          ∃ count ≤ limit, Reaches (Logged visits) start count state)) := by
  intro start
  obtain ⟨found, visits, explored, once, genuine, visited, recorded⟩ :=
    explored_of_gives_search bare standard gives
  refine ⟨visits, once, fun visit member => (genuine visit member).genuine, ?_, fun untangled => ?_⟩
  · intro result reported
    obtain ⟨state, known, accepted, rfl⟩ := (recorded result).mp reported
    exact ⟨state, rfl, accepted, explored.reaches_of_visited known⟩
  · have complete : ∀ count ≤ limit, ∀ state, Reaches (Logged visits) start count state →
        Visited visits state := fun count within state =>
      Explored.visited_of_reaches (faithful_logged visits) visited explored untangled within
    refine ⟨complete, fun state accepted => ⟨fun reported => ?_, fun ⟨count, within, reaches⟩ => ?_⟩⟩
    · obtain ⟨_, known, _, same⟩ := (recorded _).mp reported
      cases same
      exact explored.reaches_of_visited known
    · exact (recorded _).mpr ⟨state, complete count within state reaches, accepted, rfl⟩

section Kinds

variable {rule : Rule} {fit : Fit} {s : Subst} {result : List Successor}

private theorem transition_of_gives_successor? (bare : rule.Bare) {next : Successor}
    (gives : Gives (successor? rule state fit s) context world (some next) after) :
    next.transition = context.config.isTransition rule := by
  obtain ⟨requires, answer, _, _, rest⟩ := (gives_successor? bare).mp gives
  cases answer with
  | false => cases rest
  | true =>
    obtain ⟨term, ensures, _, _, made⟩ := rest
    dsimp only [produced] at made
    split at made
    · cases made
    · cases made
      rfl

private theorem transition_of_gives_applyRule (bare : rule.Bare)
    (gives : Gives (applyRule rule state .unifying none) context world result after)
    {next : Successor} (member : next ∈ result) :
    next.transition = context.config.isTransition rule := by
  rcases of_gives_applyRule gives with ⟨_, rfl, _⟩ | ⟨explore, _, gives⟩
  · cases member
  · obtain ⟨_, _, _, _, origin⟩ := of_gives_addUnifiers (bare.renameApart world.fresh) gives
    rcases origin next member with old | ⟨_, _, _, _, _, made⟩
    · cases old
    · exact transition_of_gives_successor? (bare.renameApart world.fresh) made

theorem transition_of_gives_step (bare : ∀ rule ∈ context.definition.rules, rule.Bare)
    (gives : Gives (step state .unifying) context world result after) {next : Successor}
    (member : next ∈ result) :
    ∃ rule ∈ context.definition.rules, context.config.isTransition rule = next.transition := by
  obtain ⟨results, made, rfl⟩ := gives_step.mp gives
  obtain ⟨successors, among, member⟩ := List.mem_flatten.mp member
  obtain ⟨rule, candidate, _, _, applied⟩ := exists_of_gives_mapM made among
  have known := mem_rules_of_mem_tried candidate
  exact ⟨rule, known, (transition_of_gives_applyRule (bare rule known) applied member).symm⟩

/-- Rules of one kind make links of that kind. -/
theorem uniform_of_genuine (bare : ∀ rule ∈ context.definition.rules, rule.Bare) {kind : Bool}
    (uniform : ∀ rule ∈ context.definition.rules, context.config.isTransition rule = kind)
    (genuine : ∀ visit ∈ visits, visit.Genuine context) (state : State) (transition : Bool) (other : State)
    (logged : Logged visits state transition other) : transition = kind := by
  obtain ⟨visit, member, rfl, next, listed, rfl, _⟩ := logged
  obtain ⟨world, after, _, stepped⟩ := genuine visit member
  obtain ⟨rule, known, same⟩ := transition_of_gives_step bare stepped listed
  exact same.symm.trans (uniform rule known)

end Kinds

end Engine

/-- Numbered nodes. -/
def nodes : Signature :=
  ⟨Signature.builtin.labels.insert "s" (.constructor "s" [.int] (.named "S"))⟩

def node (number : Int) : State :=
  { term := .app "s" (.named "S") [.ofInt number] }

def edge (first second : Int) (transition : Bool) : Rule :=
  { label := "edge", lhs := (node first).term, rhs := (node second).term
    attributes := if transition then Assoc.empty.insert Rule.transition "" else .empty }

/-- Rules of which each has one node on either side. -/
def graph (rules : List Rule) : Context where
  definition :=
    { signature := nodes
      rules
      index := Assoc.empty.insert "s" (List.range rules.length)
      unindexed := []
      functions := .empty }

def anyNode : Pattern :=
  { term := .var ⟨"X", .named "S"⟩ }

/-- What following an edge gives. -/
def along (second : Int) (transition : Bool) : Successor :=
  { state := node second, rule := "edge", transition, narrowing := .empty, condition := .top }

/-- Two transitions, one after the other. -/
def path : Context :=
  graph [edge 0 1 true, edge 1 2 true]

/-- Where every step is a transition, the nodes within the limit are reported. -/
theorem search_exact_path : ∃ after visits,
    Engine.Gives (Engine.search (node 0) anyNode { depth := some 1 }) path {}
      { results := [.state (node 0), .state (node 1)], depth := 1, states := 2 } after ∧
    (visits.map Visit.state).Nodup ∧ Untangled (Logged visits) (node 0) 1 ∧
    ∀ state, Engine.Accepts path anyNode state →
      (.state state ∈ [SearchResult.state (node 0), .state (node 1)] ↔
        ∃ count ≤ 1, Reaches (Logged visits) (node 0) count state) := by
  have bare : ∀ rule ∈ path.definition.rules, rule.Bare := by
    simp only [path, graph, List.forall_mem_cons, List.not_mem_nil, false_implies, implies_true,
      and_true]
    exact ⟨⟨rfl, rfl, rfl⟩, ⟨rfl, rfl, rfl⟩⟩
  obtain ⟨after, gives⟩ := Engine.exists_gives (show ((Engine.search (node 0) anyNode
    { depth := some 1 } : Engine _).run path {}).1 = .ok ⟨[.state (node 0), .state (node 1)], 1, 2⟩ by
      decide +kernel)
  obtain ⟨visits, once, genuine, _, complete⟩ :=
    Engine.search_exact bare (Store.standard_standard path.definition.signature) gives
  have transitions : ∀ rule ∈ path.definition.rules, path.config.isTransition rule = true := by decide
  have untangled : Untangled (Logged visits) (node 0) 1 :=
    untangled_of_uniform (Engine.uniform_of_genuine bare transitions genuine)
  exact ⟨after, visits, gives, once, untangled, (complete untangled).2⟩

/-- One transition leads from 0 to 1, and so do two structural steps. -/
def tangle : Context :=
  graph [edge 0 1 true, edge 0 2 false, edge 2 1 false, edge 1 3 true]

/-- The search takes 1 for a node of the next layer, does not follow the transition from there, and
misses 3, which is one transition away from 0. -/
theorem search_exact_tangle :
    let visits : List Visit := [⟨node 0, 0, [along 1 true, along 2 false]⟩,
      ⟨node 2, 0, [along 1 false]⟩, ⟨node 1, 0, [along 3 true]⟩]
    Definition.ofRules nodes tangle.definition.rules = .ok tangle.definition ∧
      (∀ visit ∈ visits, visit.Genuine tangle) ∧ Reaches (Logged visits) (node 0) 1 (node 3) ∧
      Engine.Accepts tangle anyNode (node 3) ∧
      ∃ outcome after, Engine.Gives (Engine.search (node 0) anyNode { depth := some 1 }) tangle {}
        outcome after ∧ .state (node 3) ∉ outcome.results := by
  intro visits
  have genuine (visit : Visit) (stepped : ((Engine.step visit.state .unifying : Engine _).run tangle {}).1 =
      .ok visit.successors) : visit.Genuine tangle := by
    obtain ⟨after, gives⟩ := Engine.exists_gives stepped
    exact ⟨{}, after, Store.standard_standard nodes, gives⟩
  refine ⟨rfl, ?_, ?_, ?_, ?_⟩
  · simp only [visits, List.forall_mem_cons, List.not_mem_nil, false_implies, implies_true, and_true]
    refine ⟨genuine _ ?_, genuine _ ?_, genuine _ ?_⟩ <;> decide +kernel
  · have structural : Logged visits (node 0) false (node 2) :=
      ⟨_, List.mem_cons_self, rfl, along 2 false, by simp, rfl, rfl⟩
    have second : Logged visits (node 2) false (node 1) :=
      ⟨_, List.mem_cons_of_mem _ List.mem_cons_self, rfl, along 1 false, by simp, rfl, rfl⟩
    have transition : Logged visits (node 1) true (node 3) :=
      ⟨⟨node 1, 0, [along 3 true]⟩, by simp [visits], rfl, along 3 true, by simp, rfl, rfl⟩
    exact ((Reaches.start.step structural).step second).step transition
  · obtain ⟨after, gives⟩ := Engine.exists_gives (show ((Engine.firstMatch anyNode (node 3)).run
      tangle {}).1 = .ok (some (.single ⟨"X", .named "S"⟩ (node 3).term)) by decide +kernel)
    exact ⟨{}, after, _, Store.standard_standard nodes, gives⟩
  · obtain ⟨after, gives⟩ := Engine.exists_gives (show ((Engine.search (node 0) anyNode
      { depth := some 1 } : Engine _).run tangle {}).1 = .ok ⟨[.state (node 0), .state (node 2),
        .state (node 1)], 1, 3⟩ by decide +kernel)
    exact ⟨_, after, gives, by decide⟩

end Reach
