import Reach.Proofs.Exploration
import Reach.Proofs.Indifference

/-!
Searches that go through the same states and differ in what they report. A bound on the results cuts
the results off, and the search ends with the layer that fills it. Leaving out the initial state leaves
out its result and no other.
-/

namespace Reach

/-- What a bound lets through of the results of a layer, after `count` results of the layers before. -/
def SearchConfig.allow (config : SearchConfig) (count : Nat) (matched : List SearchResult) :
    List SearchResult :=
  match config.bound with
  | none => matched
  | some bound => matched.take (bound - count)

namespace Engine

variable {context : Context} {world after : World} {config other : SearchConfig} {pattern : Pattern}
  {atLimit : Bool} {budget position depth bound : Nat} {f f' : Frontier} {layer : Array State}
  {seen : Std.TreeSet State} {results : Array SearchResult} {outcome : SearchResults}

section Layers

private theorem size_le_size_add (atLimit : Bool) (f : Frontier) (successor : Successor) :
    f.seen.size ≤ (f.add atLimit successor).seen.size := by
  unfold Frontier.add
  dsimp only
  split
  · exact Nat.le_refl _
  · split <;> exact Std.TreeSet.size_le_size_insert

private theorem size_le_size_file (atLimit : Bool) (f : Frontier) (successors : List Successor) :
    f.seen.size ≤ (successors.foldl (Frontier.add atLimit) f).seen.size := by
  induction successors generalizing f with
  | nil => exact Nat.le_refl _
  | cons successor rest ih => exact (size_le_size_add atLimit f successor).trans (ih _)

/-- No state is forgotten while a layer is explored. -/
theorem size_le_of_gives_closeLayer (gives : Gives (closeLayer config atLimit budget position f) context
    world f' after) : f.seen.size ≤ f'.seen.size := by
  induction budget generalizing world position f with
  | zero => exact absurd gives gives_throw
  | succ budget ih =>
    rcases of_gives_closeLayer_succ gives with
      ⟨_, rfl, _⟩ | ⟨_, successors, _, finals, _, _, _, _, gives⟩
    · exact Nat.le_refl _
    · exact (size_le_size_file atLimit { f with finals := f.finals ++ finals } successors).trans (ih gives)

/-- What is explored depends on what is reported only where states without successors are looked for. -/
theorem closeLayer_congr (config other : SearchConfig) (same : config.type = .final ↔ other.type = .final)
    (atLimit : Bool) (budget position : Nat) (f : Frontier) :
    (closeLayer config atLimit budget position f : Engine _) =
      closeLayer other atLimit budget position f := by
  induction budget generalizing position f with
  | zero => rfl
  | succ budget ih =>
    unfold closeLayer
    simp only [same, ih]

theorem explore_succ (config : SearchConfig) (pattern : Pattern) (budget depth : Nat)
    (layer : Array State) (seen : Std.TreeSet State) (results : Array SearchResult) :
    explore config pattern (budget + 1) depth layer seen results = (do
      let f ← closeLayer config (config.atLimit depth) (← Engine.budget) 0 { seen, layer }
      let matched ←
        (resultCandidates config.type depth f).filterMapM (searchResult? config pattern)
      let reported := results ++ config.allow results.size matched
      if full config.bound reported.size || f.next.isEmpty || config.atLimit depth then
        return { results := reported.toList, depth, states := f.seen.size }
      else explore config pattern budget (depth + 1) f.next f.seen reported) :=
  rfl

/-- A layer is explored and its states are matched. The search ends there, with what it has by then, or
goes on. -/
theorem gives_explore_succ :
    Gives (explore config pattern (budget + 1) depth layer seen results) context world outcome after ↔
      ∃ f middle matched last,
        Gives (closeLayer config (config.atLimit depth) context.config.budget 0 { seen, layer }) context
          world f middle ∧
        Gives ((resultCandidates config.type depth f).filterMapM (searchResult? config pattern)) context
          middle matched last ∧
        let reported := results ++ config.allow results.size matched
        let done := full config.bound reported.size || f.next.isEmpty || config.atLimit depth
        (done = true ∧ outcome = { results := reported.toList, depth, states := f.seen.size } ∧
            after = last) ∨
          (done = false ∧
            Gives (explore config pattern budget (depth + 1) f.next f.seen reported) context last outcome
              after) := by
  rw [explore_succ]
  simp only [gives_bind, gives_budget]
  constructor
  · rintro ⟨_, _, ⟨rfl, rfl⟩, f, middle, closed, matched, last, tested, gives⟩
    refine ⟨f, middle, matched, last, closed, tested, ?_⟩
    split at gives
    · next done => exact .inl ⟨done, gives_pure.mp gives⟩
    · next more => exact .inr ⟨Bool.eq_false_iff.mpr more, gives⟩
  · rintro ⟨f, middle, matched, last, closed, tested, gives⟩
    refine ⟨_, _, ⟨rfl, rfl⟩, f, middle, closed, matched, last, tested, ?_⟩
    rcases gives with ⟨done, ended⟩ | ⟨more, gives⟩
    · exact (if_pos done).symm ▸ gives_pure.mpr ended
    · exact (if_neg (Bool.eq_false_iff.mp more)).symm ▸ gives

theorem gives_search {initial : State} :
    Gives (search initial pattern config) context world outcome after ↔
      let start := { initial with
        constraint := initial.constraint.simplify context.definition.signature }
      Gives (explore config pattern context.config.budget 0 #[start] {start} #[]) context world outcome
        after := by
  unfold search
  simp only [monadLift_self, gives_bind, gives_signature, gives_budget]
  exact ⟨fun ⟨_, _, ⟨rfl, rfl⟩, _, _, ⟨rfl, rfl⟩, gives⟩ => gives,
    fun gives => ⟨_, _, ⟨rfl, rfl⟩, _, _, ⟨rfl, rfl⟩, gives⟩⟩

/-- Later layers add to what is there. -/
theorem extends_of_gives_explore
    (gives : Gives (explore config pattern budget depth layer seen results) context world outcome after) :
    results.toList <+: outcome.results ∧ depth ≤ outcome.depth ∧ seen.size ≤ outcome.states := by
  induction budget generalizing world depth layer seen results with
  | zero => exact absurd gives gives_throw
  | succ budget ih =>
    obtain ⟨f, _, matched, _, closed, _, gives⟩ := gives_explore_succ.mp gives
    have grown : seen.size ≤ f.seen.size := size_le_of_gives_closeLayer closed
    have appended : results.toList <+: (results ++ config.allow results.size matched).toList := by
      rw [Array.toList_appendList]
      exact List.prefix_append _ _
    rcases gives with ⟨_, rfl, _⟩ | ⟨_, gives⟩
    · exact ⟨appended, Nat.le_refl _, grown⟩
    · obtain ⟨more, deeper, larger⟩ := ih gives
      exact ⟨appended.trans more, (Nat.le_succ _).trans deeper, grown.trans larger⟩

/-- No layer is deeper than the limit. -/
theorem depth_le_of_gives_explore {limit : Nat} (limited : config.maxDepth = some limit)
    (within : depth ≤ limit)
    (gives : Gives (explore config pattern budget depth layer seen results) context world outcome after) :
    outcome.depth ≤ limit := by
  induction budget generalizing world depth layer seen results with
  | zero => exact absurd gives gives_throw
  | succ budget ih =>
    obtain ⟨f, _, _, _, _, _, gives⟩ := gives_explore_succ.mp gives
    rcases gives with ⟨_, rfl, _⟩ | ⟨more, gives⟩
    · exact within
    · have below : depth < limit := by
        simpa [SearchConfig.atLimit, limited] using (Bool.or_eq_false_iff.mp more).2
      exact ih below gives

end Layers

section Bounding

/-- What the tighter bound lets through is the front of what the other lets through. -/
theorem take_allow (within : ∀ limit ∈ config.bound, bound ≤ limit) (room : results.size ≤ bound)
    (matched : List SearchResult) :
    (results ++ ({ config with bound := some bound } : SearchConfig).allow results.size matched).toList =
      (results ++ config.allow results.size matched).toList.take bound := by
  have fits : results.toList.length ≤ bound := room
  simp only [Array.toList_appendList, SearchConfig.allow]
  rw [List.take_append, List.take_of_length_le fits, Array.length_toList]
  cases limited : config.bound with
  | none => rfl
  | some limit =>
    have order : bound - results.size ≤ limit - results.size :=
      Nat.sub_le_sub_right (within limit limited) results.size
    rw [List.take_take, Nat.min_eq_left order]

/-- What does not reach the tighter bound does not reach the other one. -/
theorem full_of_lt {limit : Option Nat} {count : Nat} (within : ∀ largest ∈ limit, bound ≤ largest)
    (room : count < bound) : full limit count = false := by
  cases limit with
  | none => rfl
  | some largest =>
    have order : bound ≤ largest := within largest rfl
    exact decide_eq_false (Nat.not_le_of_lt (Nat.lt_of_lt_of_le room order))

/-- As long as the tighter bound is not reached, nothing is cut off. With the layer that reaches it the
search ends. -/
theorem exists_gives_explore_bounded (within : ∀ limit ∈ config.bound, bound ≤ limit)
    (room : results.size ≤ bound)
    (gives : Gives (explore config pattern budget depth layer seen results) context world outcome after) :
    ∃ cut after', Gives (explore { config with bound := some bound } pattern budget depth layer seen
        results) context world cut after' ∧
      cut.results = outcome.results.take bound ∧ cut.depth ≤ outcome.depth ∧
      cut.states ≤ outcome.states := by
  induction budget generalizing world depth layer seen results with
  | zero => exact absurd gives gives_throw
  | succ budget ih =>
    obtain ⟨f, middle, matched, last, closed, tested, gives⟩ := gives_explore_succ.mp gives
    rw [closeLayer_congr config { config with bound := some bound } Iff.rfl] at closed
    have cut := take_allow within room matched
    have layered {cut : SearchResults} {after' : World} := fun ending => (gives_explore_succ.mpr
      ⟨f, middle, matched, last, closed, tested, ending⟩ : Gives (explore
        { config with bound := some bound } pattern (budget + 1) depth layer seen results) context world
        cut after')
    dsimp only at gives layered
    generalize results ++ config.allow results.size matched = all at gives cut
    generalize results ++ ({ config with bound := some bound } : SearchConfig).allow results.size
      matched = kept at cut layered
    have size : kept.size = min bound all.size := by
      simpa using congrArg List.length cut
    by_cases filled : bound ≤ all.size
    · have enough : full (some bound) kept.size = true := by simp [full, size, filled]
      refine ⟨_, last, layered (.inl ⟨by rw [enough]; rfl, rfl, rfl⟩), ?_⟩
      have extended : all.toList <+: outcome.results ∧ depth ≤ outcome.depth ∧
          f.seen.size ≤ outcome.states := by
        rcases gives with ⟨_, rfl, _⟩ | ⟨_, gives⟩
        · exact ⟨List.prefix_refl _, Nat.le_refl _, Nat.le_refl _⟩
        · obtain ⟨more, deeper, larger⟩ := extends_of_gives_explore gives
          exact ⟨more, (Nat.le_succ _).trans deeper, larger⟩
      obtain ⟨⟨more, appended⟩, deeper, larger⟩ := extended
      refine ⟨?_, deeper, larger⟩
      rw [cut, ← appended, List.take_append_of_le_length filled]
    · have short : all.toList.length ≤ bound := (Nat.le_of_not_le filled)
      obtain rfl : kept = all := Array.toList_inj.mp (cut.trans (List.take_of_length_le short))
      have room : kept.size < bound := Nat.lt_of_not_le filled
      rw [full_of_lt within room] at gives
      rw [full_of_lt (fun limit here => by cases here; exact Nat.le_refl bound) room] at layered
      rcases gives with ⟨done, rfl, rfl⟩ | ⟨more, gives⟩
      · exact ⟨_, after, layered (.inl ⟨done, rfl, rfl⟩), (List.take_of_length_le short).symm,
          Nat.le_refl _, Nat.le_refl _⟩
      · obtain ⟨found, after', given, rest⟩ := ih short gives
        exact ⟨found, after', layered (.inr ⟨more, given⟩), rest⟩

/-- A bound on the results cuts the list of results off, and does nothing else. A search with a tighter
bound succeeds where the other does and gives the front of its list. It goes no deeper and visits no more
states, and it never goes deeper than it is allowed to. -/
theorem search_bounded {initial : State} (within : ∀ limit ∈ config.bound, bound ≤ limit)
    (gives : Gives (search initial pattern config) context world outcome after) :
    ∃ cut after', Gives (search initial pattern { config with bound := some bound }) context world cut
        after' ∧
      cut.results = outcome.results.take bound ∧ cut.depth ≤ outcome.depth ∧
      cut.states ≤ outcome.states ∧ (config.type = .one → cut.depth ≤ 1) ∧
      (config.type ≠ .one → ∀ limit ∈ config.depth, cut.depth ≤ limit) := by
  have room : (#[] : Array SearchResult).size ≤ bound := Nat.zero_le bound
  obtain ⟨cut, after', given, front, shallower, smaller⟩ :=
    exists_gives_explore_bounded within room (gives_search.mp gives)
  have limited {limit : Nat} (deepest : config.maxDepth = some limit) : cut.depth ≤ limit :=
    depth_le_of_gives_explore (by exact deepest) (Nat.zero_le limit) given
  refine ⟨cut, after', gives_search.mpr given, front, shallower, smaller, fun one => ?_,
    fun several limit allowed => ?_⟩
  · exact limited (by rw [SearchConfig.maxDepth, one])
  · refine limited ?_
    unfold SearchConfig.maxDepth
    split
    · next one => exact absurd one several
    · exact allowed

/-- Of the three nodes of the path, a search for two results finds the first two. -/
theorem search_bounded_path : ∃ after cut after',
    Gives (search (node 0) anyNode {}) path {}
      ⟨[.state (node 0), .state (node 1), .state (node 2)], 2, 3⟩ after ∧
    Gives (search (node 0) anyNode { bound := some 2 }) path {} cut after' ∧
    cut.results = [.state (node 0), .state (node 1)] ∧ cut.depth ≤ 2 ∧ cut.states ≤ 3 := by
  obtain ⟨after, gives⟩ := exists_gives (show ((search (node 0) anyNode {} : Engine _).run path {}).1 =
    .ok ⟨[.state (node 0), .state (node 1), .state (node 2)], 2, 3⟩ by decide +kernel)
  have within : ∀ limit ∈ ({} : SearchConfig).bound, 2 ≤ limit := nofun
  obtain ⟨cut, after', given, front, shallower, smaller, _⟩ := search_bounded within gives
  exact ⟨after, cut, after', gives, given, front, shallower, smaller⟩

end Bounding

section Omitting

/-- Exploration keeps what is in the layer, where it is. -/
theorem prefix_of_gives_closeLayer (gives : Gives (closeLayer config atLimit budget position f) context
    world f' after) : f.layer.toList <+: f'.layer.toList := by
  induction budget generalizing world position f with
  | zero => exact absurd gives gives_throw
  | succ budget ih =>
    rcases of_gives_closeLayer_succ gives with
      ⟨_, rfl, _⟩ | ⟨_, successors, _, finals, _, _, _, _, gives⟩
    · exact List.prefix_refl _
    · obtain ⟨kept, _, filed⟩ := Frontier.exists_extends atLimit successors
        { f with finals := f.finals ++ finals }
      have more := ih gives
      rw [filed.layer] at more
      exact (List.prefix_append _ _).trans more

/-- Without a bound the search ends where there is no further layer. -/
theorem gives_explore_unbounded (unbounded : config.bound = none) :
    Gives (explore config pattern (budget + 1) depth layer seen results) context world outcome after ↔
      ∃ f middle matched last,
        Gives (closeLayer config (config.atLimit depth) context.config.budget 0 { seen, layer }) context
          world f middle ∧
        Gives ((resultCandidates config.type depth f).filterMapM (searchResult? config pattern)) context
          middle matched last ∧
        let done := f.next.isEmpty || config.atLimit depth
        (done = true ∧
            outcome = { results := results.toList ++ matched, depth, states := f.seen.size } ∧
            after = last) ∨
          (done = false ∧
            Gives (explore config pattern budget (depth + 1) f.next f.seen (results ++ matched)) context last
              outcome after) := by
  rw [gives_explore_succ]
  simp only [SearchConfig.allow, full, unbounded, Option.any_none, Bool.false_or,
    Array.toList_appendList]

/-- Without a bound, what was found in earlier layers makes no difference to later ones. -/
theorem exists_gives_explore_onto (unbounded : config.bound = none)
    (gives : Gives (explore config pattern budget depth layer seen results) context world outcome after) :
    ∃ tail, outcome.results = results.toList ++ tail ∧ ∀ others : Array SearchResult,
      Gives (explore config pattern budget depth layer seen others) context world
        { outcome with results := others.toList ++ tail } after := by
  induction budget generalizing world depth layer seen results with
  | zero => exact absurd gives gives_throw
  | succ budget ih =>
    simp only [gives_explore_unbounded unbounded] at gives ⊢
    obtain ⟨f, middle, matched, last, closed, tested, ⟨done, rfl, rfl⟩ | ⟨more, gives⟩⟩ := gives
    · exact ⟨matched, rfl, fun others =>
        ⟨f, middle, matched, after, closed, tested, .inl ⟨done, rfl, rfl⟩⟩⟩
    · obtain ⟨tail, found, onto⟩ := ih gives
      refine ⟨matched ++ tail, by rw [found, Array.toList_appendList, List.append_assoc],
        fun others => ⟨f, middle, matched, last, closed, tested, .inr ⟨more, ?_⟩⟩⟩
      have given := onto (others ++ matched)
      rw [Array.toList_appendList, List.append_assoc] at given
      exact given

/-- Past the first layer every state of a layer is a candidate, whether the initial state is or not. -/
theorem explore_plus (limit : Option Nat) (asSubst : Bool) (pattern : Pattern) (budget depth : Nat)
    (layer : Array State) (seen : Std.TreeSet State) (results : Array SearchResult) :
    (explore { type := .plus, depth := limit, asSubst } pattern budget (depth + 1) layer seen results :
      Engine _) = explore { type := .star, depth := limit, asSubst } pattern budget (depth + 1) layer seen
        results := by
  induction budget generalizing depth layer seen results with
  | zero => rfl
  | succ budget ih =>
    have closed := closeLayer_congr { type := .plus, depth := limit, asSubst }
      { type := .star, depth := limit, asSubst } (by simp)
    rw [explore_succ, explore_succ]
    simp only [closed, ih]
    rfl

variable {setting : StoreConfig} {reply : Constraint → Answer} {second : World}

/-- Matching a state gives the same in any world with the same replies. -/
theorem exists_gives_searchResult? {state : State} {result : Option SearchResult}
    (answering : world.Answering context.definition.signature setting reply second)
    (gives : Gives (searchResult? config pattern state) context world result after) :
    ∃ last, Gives (searchResult? config pattern state) context second result last ∧
      after.Answering context.definition.signature setting reply last :=
  (indifferent_searchResult? indifferent_feasible state config pattern).gives answering gives

private theorem exists_gives_filterMapM {states : List State} {matched : List SearchResult}
    (answering : world.Answering context.definition.signature setting reply second)
    (gives : Gives (states.filterMapM (searchResult? config pattern)) context world matched after) :
    ∃ last, Gives (states.filterMapM (searchResult? config pattern)) context second matched last ∧
      after.Answering context.definition.signature setting reply last :=
  (indifferent_filterMapM fun state =>
    indifferent_searchResult? indifferent_feasible state config pattern).gives answering gives

/-- What comes of the states of a layer does not depend on whether another state is matched before. -/
theorem exists_gives_tail {state : State} {others : List State} {matched : List SearchResult}
    (replies : world.store.Replies context.definition.signature setting reply)
    (gives : Gives ((state :: others).filterMapM (searchResult? config pattern)) context world matched
      after) :
    ∃ result rest middle last, Gives (searchResult? config pattern state) context world result middle ∧
      Gives (others.filterMapM (searchResult? config pattern)) context world rest last ∧
      matched = result.toList ++ rest ∧
      World.Alike context.definition.signature setting reply after last := by
  obtain ⟨result, middle, rest, first, tested, rfl⟩ := gives_filterMapM_cons.mp gives
  obtain ⟨_, _, onward, _⟩ := exists_gives_searchResult? ⟨replies, replies⟩ first
  obtain ⟨last, given, answering⟩ := exists_gives_filterMapM ⟨onward, replies⟩ tested
  have quiet : Quiet (others.filterMapM (searchResult? config pattern)) :=
    quiet_filterMapM fun state => quiet_searchResult? pattern state config
  have counter : middle.fresh = world.fresh := (quiet_searchResult? pattern state config).of_gives first
  exact ⟨result, rest, middle, last, first, given, rfl, answering,
    (quiet.of_gives tested).trans (counter.trans (quiet.of_gives given).symm)⟩

/-- The first layer begins with the initial state, and only the result of that is left out. -/
theorem exists_gives_explore_plus {limit : Option Nat} {asSubst : Bool} {start : State}
    (replies : world.store.Replies context.definition.signature setting reply)
    (gives : Gives (explore { type := .star, depth := limit, asSubst } pattern budget 0 #[start] {start}
      #[]) context world outcome after) :
    ∃ result middle rest last,
      Gives (searchResult? { type := .star, depth := limit, asSubst } pattern start) context world result
        middle ∧
      Gives (explore { type := .plus, depth := limit, asSubst } pattern budget 0 #[start] {start} #[])
        context world { outcome with results := rest } last ∧
      outcome.results = result.toList ++ rest := by
  cases budget with
  | zero => exact absurd gives gives_throw
  | succ budget =>
    rw [gives_explore_unbounded rfl] at gives
    obtain ⟨f, middle, matched, last, closed, tested, ending⟩ := gives
    obtain ⟨others, layered⟩ := prefix_of_gives_closeLayer closed
    obtain ⟨_, _, ⟨onward, _⟩, _⟩ := (repeatable_closeLayer _ _ _ 0 _).gives
      ⟨⟨replies, replies⟩, rfl⟩ closed
    have candidates : resultCandidates .star 0 f = start :: others := layered.symm
    rw [candidates] at tested
    obtain ⟨result, rest, _, last', first, tested', rfl, alike⟩ := exists_gives_tail onward tested
    -- The initial state is matched after its layer is explored, with the same outcome as before.
    obtain ⟨middle', matching, _⟩ := exists_gives_searchResult? ⟨onward, replies⟩ first
    rw [closeLayer_congr _ { type := .plus, depth := limit, asSubst } (by simp)] at closed
    have remaining : resultCandidates .plus 0 f = others := by
      rw [resultCandidates, if_pos rfl, ← layered]
      rfl
    rw [← remaining] at tested'
    rcases ending with ⟨done, rfl, rfl⟩ | ⟨more, ending⟩
    · exact ⟨result, middle', rest, last', matching, (gives_explore_unbounded rfl).mpr
        ⟨f, middle, rest, last', closed, tested', .inl ⟨done, rfl, rfl⟩⟩, rfl⟩
    · obtain ⟨tail, reported, onto⟩ := exists_gives_explore_onto rfl ending
      obtain ⟨last'', given, _⟩ := (repeatable_explore _ pattern _ _ _ _ _).gives alike
        (onto ((#[] : Array SearchResult) ++ rest))
      rw [← explore_plus] at given
      rw [Array.toList_appendList, List.nil_append] at given
      rw [Array.toList_appendList, List.nil_append, List.append_assoc] at reported
      exact ⟨result, middle', rest ++ tail, last'', matching, (gives_explore_unbounded rfl).mpr
        ⟨f, middle, rest, last', closed, tested', .inr ⟨more, given⟩⟩, reported⟩

/-- A search for all states gives what a search for all but the initial one gives, and before that the
result of the initial state if the pattern matches it. -/
theorem search_star {initial : State}
    (computes : ∃ answer, world.store.solver.procedure.Computes answer) (star : config.type = .star)
    (unbounded : config.bound = none)
    (gives : Gives (search initial pattern config) context world outcome after) :
    let start := { initial with
      constraint := initial.constraint.simplify context.definition.signature }
    ∃ found middle rest last, Gives (firstMatch pattern start) context world found middle ∧
      Gives (search initial pattern { config with type := .plus }) context world
        { outcome with results := rest } last ∧
      outcome.results =
        (found.map fun s => if config.asSubst then .subst s else .state start).toList ++ rest := by
  intro start
  obtain ⟨type, limit, bound, asSubst⟩ := config
  obtain rfl : type = .star := star
  obtain rfl : bound = none := unbounded
  simp only [gives_search] at gives ⊢
  obtain ⟨result, middle, rest, last, matching, given, reported⟩ :=
    exists_gives_explore_plus (Store.replies_self _ computes) gives
  obtain ⟨found, _, matching, made⟩ := gives_bind.mp matching
  obtain ⟨rfl, rfl⟩ := gives_pure.mp made
  exact ⟨found, middle, rest, last, matching, given, reported⟩

/-- Two transitions lead back to the initial state, which is not reported for that. -/
theorem search_star_cycle :
    let cycle := graph [edge 0 1 true, edge 1 0 true]
    ∃ after last, Gives (search (node 0) anyNode {}) cycle {}
        ⟨[.state (node 0), .state (node 1)], 1, 2⟩ after ∧
      Gives (search (node 0) anyNode { type := .plus }) cycle {} ⟨[.state (node 1)], 1, 2⟩ last := by
  intro cycle
  obtain ⟨after, gives⟩ := exists_gives (show ((search (node 0) anyNode {} : Engine _).run cycle {}).1 =
    .ok ⟨[.state (node 0), .state (node 1)], 1, 2⟩ by decide +kernel)
  obtain ⟨found, middle, rest, last, matching, given, reported⟩ :=
    search_star ⟨_, Procedure.computes_steady _⟩ rfl rfl gives
  have first : ((firstMatch anyNode (node 0)).run cycle {}).1 =
      .ok (some (.single ⟨"X", .named "S"⟩ (node 0).term)) := by decide +kernel
  cases found with
  | none =>
    have same := first.symm.trans (congrArg Prod.fst matching)
    cases same
  | some s =>
    obtain rfl : rest = [.state (node 1)] := (List.cons.inj reported).2.symm
    exact ⟨after, last, gives, given⟩

end Omitting

end Engine

end Reach
