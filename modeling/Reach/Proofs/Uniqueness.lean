import Mathlib.Data.List.Forall2
import Reach.Proofs.Reporting

/-!
How often a search reports a state. No state is visited twice, and a visit gives at most one result. So
a state that is reported when it is visited is reported once. What is left of a state is not compared
with anything: it has the term of that state, and may be another state that is reported as well.
-/

namespace Reach

namespace Visit

/-- The successors are those of a step. -/
def Taken (context : Context) (visit : Visit) : Prop :=
  ∃ world after,
    Engine.Gives (Engine.step visit.state .unifying) context world visit.successors after

/-- The state that a search may report for a visit, which is the one visited unless final states are
looked for. -/
def Offers (context : Context) (type : SearchType) (visit : Visit) (state : State) : Prop :=
  if type = .final then
    ∃ world after, Engine.Gives (Engine.finalsOf visit.state visit.successors) context world #[state]
      after
  else state = visit.state

end Visit

/-- Visits of different states, all reached from the first one. -/
structure Tour (context : Context) (start : State) (visits : List Visit) : Prop where
  begun : Visited visits start
  once : (visits.map Visit.state).Nodup
  taken : ∀ visit ∈ visits, visit.Taken context
  reached : ∀ visit ∈ visits, ∃ count, Reaches (Logged visits) start count visit.state

/-- The states are offered by visits, in the same order and each by a visit of its own. -/
def Accounts (context : Context) (type : SearchType) (visits : List Visit) (states : List State) :
    Prop :=
  List.SublistForall₂ (fun state visit => visit.Offers context type state) states visits

/-- A state with successors shares its term with no other state. -/
def Unshared (visits : List Visit) : Prop :=
  ∀ visit ∈ visits, visit.successors ≠ [] → ∀ other ∈ visits,
    other.state.term = visit.state.term → other = visit

section Accounting

variable {context : Context} {type : SearchType} {visits more : List Visit}
  {states reported : List State} {state : State}

theorem Accounts.exists_offers (accounts : Accounts context type visits states)
    (member : state ∈ states) : ∃ visit ∈ visits, visit.Offers context type state := by
  induction accounts with
  | nil => cases member
  | @cons first visit _ _ offers _ ih =>
    rcases List.mem_cons.mp member with rfl | later
    · exact ⟨visit, List.mem_cons_self, offers⟩
    · obtain ⟨other, listed, offers⟩ := ih later
      exact ⟨other, List.mem_cons_of_mem _ listed, offers⟩
  | cons_right _ ih =>
    obtain ⟨other, listed, offers⟩ := ih member
    exact ⟨other, List.mem_cons_of_mem _ listed, offers⟩

/-- What is not reported needs no account. -/
theorem Accounts.of_sublist (accounts : Accounts context type visits states)
    (fewer : reported.Sublist states) : Accounts context type visits reported := by
  induction accounts generalizing reported with
  | nil =>
    obtain rfl := List.sublist_nil.mp fewer
    exact .nil
  | cons offers _ ih =>
    cases fewer with
    | cons _ rest => exact .cons_right (ih rest)
    | cons_cons _ rest => exact .cons offers (ih rest)
  | cons_right _ ih => exact .cons_right (ih fewer)

theorem Accounts.append (accounts : Accounts context type visits states)
    (others : Accounts context type more reported) :
    Accounts context type (visits ++ more) (states ++ reported) := by
  obtain ⟨origins, offered, inside⟩ := List.sublistForall₂_iff.mp accounts
  obtain ⟨origins', offered', inside'⟩ := List.sublistForall₂_iff.mp others
  exact List.sublistForall₂_iff.mpr
    ⟨origins ++ origins', List.rel_append offered offered', inside.append inside'⟩

/-- If no two visits offer the same state, no state occurs twice. -/
theorem Accounts.nodup (accounts : Accounts context type visits states) (once : visits.Nodup)
    (single : ∀ visit ∈ visits, ∀ other ∈ visits, ∀ state, visit.Offers context type state →
      other.Offers context type state → visit = other) : states.Nodup := by
  induction accounts with
  | nil => exact List.nodup_nil
  | @cons state visit states visits offers accounts ih =>
    obtain ⟨new, once⟩ := List.nodup_cons.mp once
    refine List.nodup_cons.mpr ⟨fun again => ?_, ih once fun visit member other listed => ?_⟩
    · obtain ⟨other, listed, likewise⟩ := Accounts.exists_offers accounts again
      refine new (?_ : visit ∈ visits)
      rw [single visit List.mem_cons_self other (List.mem_cons_of_mem _ listed) state offers likewise]
      exact listed
    · exact single visit (List.mem_cons_of_mem _ member) other (List.mem_cons_of_mem _ listed)
  | cons_right _ ih =>
    exact ih once.of_cons fun visit member other listed =>
      single visit (List.mem_cons_of_mem _ member) other (List.mem_cons_of_mem _ listed)

end Accounting

namespace Engine

variable {context : Context} {world after : World} {config : SearchConfig} {pattern : Pattern}
  {type : SearchType} {budget position depth limit : Nat} {f f' : Frontier} {layer : Array State}
  {seen : Std.TreeSet State} {results : Array SearchResult} {outcome : SearchResults}
  {start state : State} {successors : List Successor} {finals : Array State}
  {found : List (State × Nat)} {visits more : List Visit} {visit other : Visit}
  {reported : List State}

/-- A state without successors is final itself, and of another there is at most a remainder. -/
theorem of_gives_finalsOf (gives : Gives (finalsOf state successors) context world finals after) :
    successors = [] ∧ finals = #[state] ∨ successors ≠ [] ∧
      ∃ rest : Option State, finals = rest.toArray ∧ ∀ left ∈ rest, left.term = state.term := by
  unfold finalsOf at gives
  split at gives
  · next stuck =>
    exact .inl ⟨List.isEmpty_iff.mp stuck, (gives_pure.mp gives).1⟩
  · next moves =>
    obtain ⟨rest, _, left, gives⟩ := gives_bind.mp gives
    refine .inr ⟨fun stuck => moves (List.isEmpty_iff.mpr stuck), rest, (gives_pure.mp gives).1, ?_⟩
    rintro _ rfl
    obtain ⟨_, rfl⟩ := of_gives_remainder left
    rfl

/-- A visited state without successors is offered itself, and any other at least with its term. -/
theorem of_offers (offers : visit.Offers context type state) :
    state.term = visit.state.term ∧ (type ≠ .final ∨ visit.successors = [] → state = visit.state) := by
  unfold Visit.Offers at offers
  split at offers
  · next final =>
    obtain ⟨world, after, gives⟩ := offers
    rcases of_gives_finalsOf gives with ⟨_, same⟩ | ⟨moves, rest, same, term⟩
    · cases same
      exact ⟨rfl, fun _ => rfl⟩
    · cases rest with
      | none => cases same
      | some left =>
        cases same
        refine ⟨term state rfl, fun itself => absurd final ?_⟩
        exact itself.resolve_right moves
  · exact ⟨congrArg State.term offers, fun _ => offers⟩

/-- A state is offered by one visit only, where no remainder can be mistaken for another state. -/
theorem eq_of_offers (once : (visits.map Visit.state).Nodup) (unshared : type = .final → Unshared visits)
    (member : visit ∈ visits) (listed : other ∈ visits) (offers : visit.Offers context type state)
    (likewise : other.Offers context type state) : visit = other := by
  obtain ⟨term, itself⟩ := of_offers offers
  obtain ⟨term', itself'⟩ := of_offers likewise
  by_cases final : type = .final
  · by_cases stuck : visit.successors = []
    · by_cases stuck' : other.successors = []
      · exact List.inj_on_of_nodup_map once member listed
          ((itself (.inr stuck)).symm.trans (itself' (.inr stuck')))
      · exact unshared final other listed stuck' visit member (term.symm.trans term')
    · exact (unshared final visit member stuck other listed (term'.symm.trans term)).symm
  · exact List.inj_on_of_nodup_map once member listed
      ((itself (.inl final)).symm.trans (itself' (.inl final)))

private theorem finals_file (atLimit : Bool) (f : Frontier) (successors : List Successor) :
    (successors.foldl (Frontier.add atLimit) f).finals = f.finals := by
  induction successors generalizing f with
  | nil => rfl
  | cons successor rest ih =>
    rw [List.foldl_cons, ih]
    unfold Frontier.add
    dsimp only
    split
    · rfl
    · split <;> rfl

/-- What a visit adds to the final states is accounted for by it. -/
theorem accounts_of_gives_finalsOf
    (gives : Gives (finalsOf visit.state visit.successors) context world finals after) :
    Accounts context .final [visit] finals.toList := by
  have offered (left : State) (same : finals = #[left]) : Accounts context .final [visit] [left] := by
    subst same
    refine .cons ?_ .nil
    rw [Visit.Offers, if_pos rfl]
    exact ⟨world, after, gives⟩
  rcases of_gives_finalsOf gives with ⟨_, rfl⟩ | ⟨_, rest, rfl, _⟩
  · exact offered visit.state rfl
  · cases rest with
    | none => exact .nil
    | some left => exact offered left rfl

/-- The states of a layer are visited in their order, and account for what is final about them. -/
theorem exists_exploring_of_gives_closeLayer
    (exploring : Exploring start limit depth found visits f position)
    (gives : Gives (closeLayer config (decide (limit ≤ depth)) budget position f) context world f'
      after) :
    ∃ found' new position' finals, f'.layer.size ≤ position' ∧
      Exploring start limit depth found' (visits ++ new) f' position' ∧
      (∀ visit ∈ new, visit.Taken context) ∧ new.map Visit.state = f'.layer.toList.drop position ∧
      f'.finals.toList = f.finals.toList ++ finals ∧
      (config.type = .final → Accounts context .final new finals) := by
  induction budget generalizing world found visits f position with
  | zero => exact absurd gives gives_throw
  | succ budget ih =>
    rcases of_gives_closeLayer_succ gives with
      ⟨done, rfl, rfl⟩ | ⟨state, successors, middle, noted, last, here, stepped, final, gives⟩
    · have ended : f'.layer.size ≤ position := by simpa using done
      refine ⟨found, [], position, [], ended, by simpa using exploring, nofun, ?_,
        (List.append_nil _).symm, fun _ => .nil⟩
      exact (List.drop_eq_nil_of_le (by simpa using ended)).symm
    · -- What is noted about final states is no part of what `Exploring` says.
      have noting : Exploring start limit depth found visits { f with finals := f.finals ++ noted }
        position := { exploring with }
      obtain ⟨kept, moved, extended⟩ := Frontier.exists_extends (decide (limit ≤ depth)) successors
        { f with finals := f.finals ++ noted }
      obtain ⟨found', new, position', finals, ended, explored, taken, layered, reported, accounts⟩ :=
        ih (noting.visit here extended) gives
      rw [List.append_assoc] at explored
      have grown := prefix_of_gives_closeLayer gives
      rw [extended.layer] at grown
      rw [finals_file, Array.toList_append, List.append_assoc] at reported
      refine ⟨found', ⟨state, depth, successors⟩ :: new, position', noted.toList ++ finals, ended,
        explored, List.forall_mem_cons.mpr ⟨⟨world, middle, stepped⟩, taken⟩, ?_, reported,
        fun only => ?_⟩
      · -- The layer only grows, so the state is still at its position when the layer is done.
        have first : f'.layer.toList[position]? = some state := by
          obtain ⟨below, same⟩ := Array.getElem?_eq_some_iff.mp here
          have inside : position < f.layer.toList.length := by simpa using below
          have there := List.prefix_iff_getElem?.mp ((List.prefix_append _ _).trans grown) position inside
          rw [there, Array.getElem_toList, same]
        have split := @List.drop_eq_getElem?_toList_append _ f'.layer.toList position
        rw [List.map_cons, layered, split, first]
        rfl
      · rw [if_pos only] at final
        have here : Accounts context .final [⟨state, depth, successors⟩] noted.toList :=
          accounts_of_gives_finalsOf final
        exact here.append (accounts only)

private theorem accounts_self (reported : type ≠ .final) (visits : List Visit) :
    Accounts context type visits (visits.map Visit.state) := by
  induction visits with
  | nil => exact .nil
  | cons visit rest ih =>
    refine .cons ?_ ih
    rw [Visit.Offers, if_neg reported]

/-- The candidates of a layer are accounted for by the visits of it. -/
theorem accounts_resultCandidates (layered : visits.map Visit.state = f.layer.toList)
    (finals : type = .final → Accounts context .final visits f.finals.toList) (depth : Nat) :
    Accounts context type visits (resultCandidates type depth f) := by
  have layer (reported : type ≠ .final) : Accounts context type visits f.layer.toList :=
    layered ▸ accounts_self reported visits
  have later (reported : type ≠ .final) : Accounts context type visits
      (if depth = 0 then f.layer.toList.drop 1 else f.layer.toList) := by
    split
    · exact (layer reported).of_sublist (List.drop_sublist 1 _)
    · exact layer reported
  cases type with
  | star => exact layer nofun
  | one => exact later nofun
  | plus => exact later nofun
  | final => exact finals rfl

/-- With states as results, the results are some of the candidates, in their order. -/
theorem exists_sublist_of_gives_filterMapM (stated : config.asSubst = false) {candidates : List State}
    {matched : List SearchResult}
    (gives : Gives (candidates.filterMapM (searchResult? config pattern)) context world matched after) :
    ∃ kept : List State, kept.Sublist candidates ∧ matched = kept.map .state := by
  induction candidates generalizing world matched with
  | nil =>
    rw [List.filterMapM_nil] at gives
    exact ⟨[], .slnil, (gives_pure.mp gives).1⟩
  | cons state candidates ih =>
    obtain ⟨_, _, _, made, later, rfl⟩ := gives_filterMapM_cons.mp gives
    obtain ⟨first, _, _, made⟩ := gives_bind.mp made
    obtain ⟨rfl, rfl⟩ := gives_pure.mp made
    obtain ⟨kept, among, rfl⟩ := ih later
    cases first with
    | none => exact ⟨kept, among.cons _, rfl⟩
    | some s =>
      refine ⟨state :: kept, among.cons_cons _, ?_⟩
      simp only [stated, Option.map_some, Option.toList_some]
      rfl

private theorem exists_sublist_allow (config : SearchConfig) (count : Nat) (kept : List State) :
    ∃ fewer : List State, fewer.Sublist kept ∧ config.allow count (kept.map .state) =
      fewer.map .state := by
  unfold SearchConfig.allow
  cases config.bound with
  | none => exact ⟨kept, List.Sublist.refl _, rfl⟩
  | some bound => exact ⟨kept.take (bound - count), List.take_sublist _ _, List.map_take.symm⟩

/-- A depth limit, or the lack of one, is one number as far as a search goes. -/
theorem exists_limit (config : SearchConfig) (deepest : Nat) :
    ∃ limit, ∀ depth ≤ deepest, config.atLimit depth = decide (limit ≤ depth) := by
  unfold SearchConfig.atLimit
  cases config.maxDepth with
  | none => exact ⟨deepest + 1, fun depth within => (decide_eq_false (by omega)).symm⟩
  | some limit => exact ⟨limit, fun _ _ => rfl⟩

/-- Once a layer is done, the states that were visited are a tour. -/
theorem tour_of_exploring (exploring : Exploring start limit depth found visits f position)
    (done : f.layer.size ≤ position) (taken : ∀ visit ∈ visits, visit.Taken context) :
    Tour context start visits ∧ visits.length ≤ f.seen.size := by
  have once := (List.nodup_append.mp (exploring.tally.nodup_iff.mpr exploring.distinct)).1
  have filed := exploring.filed
  refine ⟨⟨?_, once, taken, fun visit member => ⟨_, exploring.reached _ _ (filed visit member)⟩⟩, ?_⟩
  · refine (exploring.visited_or_next done exploring.begins).resolve_right fun later => ?_
    cases exploring.depth_eq exploring.begins (exploring.next start later).1
  · rw [← Std.TreeSet.length_toList, ← List.length_map Visit.state]
    refine once.length_le_of_subset fun state member => ?_
    obtain ⟨visit, listed, rfl⟩ := List.mem_map.mp member
    exact Std.TreeSet.mem_toList.mpr
      ((exploring.seen _).mpr (List.mem_map.mpr ⟨_, filed visit listed, rfl⟩))

/-- Every layer goes on with the tour, and its results are accounted for by what it adds. -/
theorem exists_tour_of_gives_explore (stated : config.asSubst = false)
    (limited : ∀ level ≤ outcome.depth, config.atLimit level = decide (limit ≤ level))
    (exploring : Exploring start limit depth found visits { seen, layer } 0)
    (taken : ∀ visit ∈ visits, visit.Taken context)
    (accounts : Accounts context config.type visits reported)
    (same : results.toList = reported.map .state)
    (gives : Gives (explore config pattern budget depth layer seen results) context world outcome after) :
    ∃ visits reported, Tour context start visits ∧ visits.length ≤ outcome.states ∧
      Accounts context config.type visits reported ∧ outcome.results = reported.map .state := by
  induction budget generalizing world depth found visits layer seen results reported with
  | zero => exact absurd gives gives_throw
  | succ budget ih =>
    have within := (extends_of_gives_explore gives).2.1
    obtain ⟨f, middle, matched, last, closed, tested, gives⟩ := gives_explore_succ.mp gives
    rw [limited depth within] at closed
    obtain ⟨found', new, position, finals, done, explored, fresh, layered, noted, final⟩ :=
      exists_exploring_of_gives_closeLayer exploring closed
    obtain ⟨kept, among, rfl⟩ := exists_sublist_of_gives_filterMapM stated tested
    obtain ⟨fewer, front, allowed⟩ := exists_sublist_allow config results.size kept
    have onward : ∀ visit ∈ visits ++ new, visit.Taken context :=
      List.forall_mem_append.mpr ⟨taken, fresh⟩
    have accounts' : Accounts context config.type (visits ++ new) (reported ++ fewer) :=
      accounts.append ((accounts_resultCandidates layered (fun only => noted ▸ final only) depth).of_sublist
        (front.trans among))
    have same' : (results ++ config.allow results.size (kept.map .state)).toList =
        (reported ++ fewer).map .state := by
      rw [Array.toList_appendList, same, allowed, List.map_append]
    rcases gives with ⟨_, rfl, rfl⟩ | ⟨_, gives⟩
    · obtain ⟨tour, fits⟩ := tour_of_exploring explored done onward
      exact ⟨visits ++ new, reported ++ fewer, tour, fits, accounts', same'⟩
    · exact ih (explored.descend done) onward accounts' same' gives

/-- The states that a search reports are accounted for by visits of different states, at most one state
by each. So no state is reported twice, provided that in a search for final states none that has
successors shares its term with another. -/
theorem search_nodup {initial : State} (stated : config.asSubst = false)
    (gives : Gives (search initial pattern config) context world outcome after) :
    let start := { initial with
      constraint := initial.constraint.simplify context.definition.signature }
    ∃ visits reported, Tour context start visits ∧ visits.length ≤ outcome.states ∧
      Accounts context config.type visits reported ∧ outcome.results = reported.map .state ∧
      ((config.type = .final → Unshared visits) → outcome.results.Nodup) := by
  intro start
  obtain ⟨limit, limited⟩ := exists_limit config outcome.depth
  obtain ⟨visits, reported, tour, fits, accounts, same⟩ := exists_tour_of_gives_explore stated limited
    (begin_exploring start limit) nofun .nil rfl (gives_search.mp gives)
  refine ⟨visits, reported, tour, fits, accounts, same, fun unshared => ?_⟩
  have once : reported.Nodup := accounts.nodup tour.once.of_map
    fun visit member other listed state offers likewise =>
      eq_of_offers tour.once unshared member listed offers likewise
  rw [same]
  exact once.map fun first second equal => SearchResult.state.inj equal

end Engine

/-- If there are as many terms as visits, no two states share a term. -/
theorem unshared_of_length_le {visits : List Visit} {terms : List Term} (distinct : terms.Nodup)
    (within : ∀ term ∈ terms, ∃ visit ∈ visits, visit.state.term = term)
    (fits : visits.length ≤ terms.length) : Unshared visits := by
  let visited := visits.map fun visit => visit.state.term
  have among : terms ⊆ visited := fun term member => List.mem_map.mpr (within term member)
  have fits' : visited.length ≤ terms.length := by
    rw [List.length_map]
    exact fits
  have exactly : terms.Perm visited := (List.subperm_of_subset distinct among).perm_of_length_le fits'
  intro visit member _ other listed same
  exact List.inj_on_of_nodup_map (exactly.nodup_iff.mp distinct) listed member same

/-- Jobs of some size that are queued, run and finish. -/
def jobs : Signature :=
  ⟨["queued", "running", "finished"].foldl (fun labels phase =>
    labels.insert phase (.constructor phase [.int] (.named "Job"))) Signature.builtin.labels⟩

/-- The size of a job is less than 10. -/
def small : Term :=
  .app Label.intLt .bool [.var ⟨"X", .int⟩, .ofInt 10]

def job (phase : String) : State :=
  { term := .app phase (.named "Job") [.var ⟨"X", .int⟩] }

def jobWhere (phase : String) (condition : Term) : State :=
  { job phase with constraint := { atoms := [.holds condition], contradiction := false } }

def move (first second : String) (requires ensures : Term) : Rule :=
  { label := "move", lhs := (job first).term, rhs := (job second).term, requires, ensures }

def working (rules : List Rule) : Context where
  definition := rules.foldl Definition.add (.empty jobs)

def anyJob : Pattern :=
  { term := .var ⟨"Z", .named "Job"⟩ }

/-- A job runs, and finishes if it is small. -/
def steady : Context :=
  working [move "queued" "running" .truth .truth, move "running" "finished" small .truth]

/-- A large job does not finish, and is reported once. -/
theorem search_nodup_steady : ∃ outcome after,
    Engine.Gives (Engine.search (job "queued") anyJob { type := .final }) steady {} outcome after ∧
      outcome.results =
        [.state (jobWhere "running" small.negate), .state (jobWhere "finished" small)] ∧
      outcome.results.Nodup := by
  obtain ⟨after, gives⟩ := Engine.exists_gives (show ((Engine.search (job "queued") anyJob
    { type := .final } : Engine _).run steady {}).1 = .ok ⟨[.state (jobWhere "running" small.negate),
      .state (jobWhere "finished" small)], 0, 3⟩ by decide +kernel)
  refine ⟨_, after, gives, rfl, ?_⟩
  obtain ⟨visits, reported, tour, fits, accounts, same, unique⟩ := Engine.search_nodup rfl gives
  refine unique fun _ => ?_
  obtain rfl : reported = [jobWhere "running" small.negate, jobWhere "finished" small] :=
    (List.map_injective_iff.mpr fun _ _ => SearchResult.state.inj) same.symm
  have offered (state : State)
      (member : state ∈ [jobWhere "running" small.negate, jobWhere "finished" small]) :
      ∃ visit ∈ visits, visit.state.term = state.term := by
    obtain ⟨visit, listed, offers⟩ := accounts.exists_offers member
    exact ⟨visit, listed, (Engine.of_offers offers).1.symm⟩
  have running := offered (jobWhere "running" small.negate) (by decide)
  have finished := offered (jobWhere "finished" small) (by decide)
  obtain ⟨visit, listed, begun⟩ := tour.begun
  refine @unshared_of_length_le visits [(job "queued").term, (job "running").term,
    (job "finished").term] (by decide) ?_ fits
  simp only [List.forall_mem_cons, List.not_mem_nil, false_implies, implies_true, and_true]
  exact ⟨⟨visit, listed, congrArg State.term begun⟩, running, finished⟩

/-- There is another way to run a job, for large ones. -/
def twofold : Context :=
  working [move "queued" "running" .truth .truth, move "queued" "running" .truth small.negate,
    move "running" "finished" small .truth]

/-- A large job that runs is reached in the second way and does not finish, and it is what is left of
any job that is reached in the first way. It is reported both times. -/
theorem search_nodup_twofold :
    Definition.ofRules jobs twofold.definition.rules = .ok twofold.definition ∧
      ∃ outcome after, Engine.Gives (Engine.search (job "queued") anyJob { type := .final }) twofold {}
        outcome after ∧ ¬outcome.results.Nodup := by
  refine ⟨rfl, ?_⟩
  obtain ⟨after, gives⟩ := Engine.exists_gives (show ((Engine.search (job "queued") anyJob
    { type := .final } : Engine _).run twofold {}).1 = .ok ⟨[.state (jobWhere "running" small.negate),
      .state (jobWhere "running" small.negate), .state (jobWhere "finished" small)], 0, 4⟩ by
        decide +kernel)
  exact ⟨_, after, gives, by decide⟩

end Reach
