import Reach.Proofs.Entailment
import Reach.Proofs.Indifference

/-!
A store that remembers answers cannot be told from one that does not, but for how often it asks. Whatever
the question, simplification decides it or leaves one constraint, and what is remembered is the verdict on
that constraint; what to conclude from the verdict is a matter of the question and of the configuration.
-/

namespace Reach.Store

/-- What a store can be asked. -/
inductive Question
  | feasible (c : Constraint)
  | implies (assumption conclusion : Constraint)

def answer (sig : Signature) : Question → StateM Store (Except QueryError Bool)
  | .feasible c => feasible sig c
  | .implies assumption conclusion => implies sig assumption conclusion

/-- Answers questions one after the other. -/
def answerAll (sig : Signature) (store : Store) : List Question → List (Except QueryError Bool) × Store
  | [] => ([], store)
  | question :: rest =>
    let (outcome, store) := answer sig question store
    let (outcomes, store) := answerAll sig store rest
    (outcome :: outcomes, store)

/-- What simplification makes of a question. -/
inductive Simplified
  | decided (outcome : Bool)
  | left (c : Constraint)

namespace Question

def simplified (sig : Signature) : Question → Simplified
  | .feasible c =>
    if (c.simplify sig).isFalse then .decided false
    else if (c.simplify sig).isTrue then .decided true
    else .left (c.simplify sig)
  | .implies assumption conclusion =>
    if (conclusion.simplify sig).isTrue then .decided true
    else if (denied sig assumption conclusion).isFalse then .decided true
    else .left (denied sig assumption conclusion)

/-- What to conclude from an answer about the constraint that is left. -/
def conclude : Question → StoreConfig → Answer → Except QueryError Bool
  | .feasible _ => StoreConfig.feasibility
  | .implies _ _ => StoreConfig.entailment

/-- The answer of a store that gives these replies to queries. -/
def outcome (sig : Signature) (config : StoreConfig) (reply : Constraint → Answer)
    (question : Question) : Except QueryError Bool :=
  match question.simplified sig with
  | .decided outcome => .ok outcome
  | .left c => question.conclude config (reply c)

end Question

/-- The constraint that the procedure is asked about, unless its verdict is known. -/
def consulted (sig : Signature) (store : Store) (question : Question) : List Constraint :=
  match question.simplified sig with
  | .decided _ => []
  | .left c => if (store.lookup? c).isSome then [] else [c]

/-- The constraints that the procedure is asked about, one after the other. -/
def consultations (sig : Signature) (store : Store) : List Question → List Constraint
  | [] => []
  | question :: rest =>
    store.consulted sig question ++ consultations sig (answer sig question store).2 rest

section Steps

variable {sig : Signature} {config : StoreConfig} {reply : Constraint → Answer} {store : Store}
  {question : Question} {c : Constraint}

/-- A question is decided by simplification, or by what a query for the constraint that is left gives. -/
theorem answer_eq (sig : Signature) (question : Question) (store : Store) :
    answer sig question store =
      match question.simplified sig with
      | .decided outcome => (.ok outcome, store)
      | .left c =>
        (question.conclude (query sig c store).2.config (query sig c store).1,
          (query sig c store).2) := by
  cases question with
  | feasible c =>
    rw [answer, feasible_eq, Question.simplified]
    split
    · rfl
    · split <;> rfl
  | implies assumption conclusion =>
    rw [answer, implies_eq, Question.simplified]
    split
    · rfl
    · split <;> rfl

theorem of_mem_consulted (member : c ∈ store.consulted sig question) :
    question.simplified sig = .left c ∧ store.lookup? c = none ∧ store.consulted sig question = [c] := by
  unfold consulted at member ⊢
  split at member
  · cases member
  · next left =>
    split at member
    · cases member
    · next missing =>
      obtain rfl := List.mem_singleton.mp member
      exact ⟨left, Option.not_isSome_iff_eq_none.mp missing, if_neg missing⟩

private theorem query_of_isSome (known : (store.lookup? c).isSome = true) : (query sig c store).2 = store := by
  obtain ⟨verdict, found⟩ := Option.isSome_iff_exists.mp known
  rw [query_of_lookup found]

/-- The procedure is asked about what is consulted, and about nothing else. -/
theorem solver_answer (sig : Signature) (question : Question) (store : Store) :
    (answer sig question store).2.solver =
      (store.consulted sig question).foldl (fun solver c => (Solver.ask sig c solver).2)
        store.solver := by
  rw [answer_eq, consulted]
  split
  · rfl
  · next c _ =>
    by_cases known : (store.lookup? c).isSome = true
    · rw [if_pos known, query_of_isSome known]
      rfl
    · rw [if_neg known, query_of_not_lookup (Option.not_isSome_iff_eq_none.mp known), remember_solver]
      rfl

/-- What is known stays known. -/
theorem isSome_lookup_query (known : (store.lookup? c).isSome = true) (other : Constraint) :
    ((query sig other store).2.lookup? c).isSome = true := by
  cases missing : store.lookup? other with
  | some verdict =>
    rw [query_of_lookup missing]
    exact known
  | none =>
    rw [query_of_not_lookup missing]
    rcases lookup_remember { store with solver := (Solver.ask sig other store.solver).2 } other c
      (Solver.ask sig other store.solver).1 with before | ⟨_, verdict, _, found⟩
    · exact (congrArg Option.isSome before).trans known
    · exact congrArg Option.isSome found

private theorem isSome_lookup_answer (known : (store.lookup? c).isSome = true) (question : Question) :
    ((answer sig question store).2.lookup? c).isSome = true := by
  rw [answer_eq]
  split
  · exact known
  · exact isSome_lookup_query known _

/-- An answer without error is known from then on. -/
theorem isSome_lookup_of_query (cached : store.config.cached = true) {verdict : Verdict}
    (answered : (query sig c store).1 = .ok verdict) :
    ((query sig c store).2.lookup? c).isSome = true := by
  by_cases known : (store.lookup? c).isSome = true
  · exact isSome_lookup_query known c
  · rw [query_of_not_lookup (Option.not_isSome_iff_eq_none.mp known)] at answered ⊢
    change (Solver.ask sig c store.solver).1 = _ at answered
    simp [answered, remember, lookup?, cached]

theorem Replies.answer (replies : store.Replies sig config reply) (question : Question) :
    (answer sig question store).1 = question.outcome sig config reply ∧
      (answer sig question store).2.Replies sig config reply := by
  rw [answer_eq, Question.outcome]
  split
  · exact ⟨rfl, replies⟩
  · next c _ =>
    have later := replies.query c
    exact ⟨by rw [later.config, replies.replies], later⟩

end Steps

section Runs

variable {sig : Signature} {config : StoreConfig} {reply : Constraint → Answer} {store : Store}
  {c : Constraint}

/-- The answers depend on the replies to queries, and not on what was asked before. -/
theorem Replies.answerAll (replies : store.Replies sig config reply) (questions : List Question) :
    (answerAll sig store questions).1 =
      questions.map fun question => question.outcome sig config reply := by
  induction questions generalizing store with
  | nil => rfl
  | cons question rest ih =>
    obtain ⟨here, later⟩ := replies.answer question
    exact congrArg₂ List.cons here (ih later)

private theorem solver_answerAll (sig : Signature) (store : Store) (questions : List Question) :
    (answerAll sig store questions).2.solver =
      (consultations sig store questions).foldl (fun solver c => (Solver.ask sig c solver).2)
        store.solver := by
  induction questions generalizing store with
  | nil => rfl
  | cons question rest ih =>
    rw [consultations, List.foldl_append, ← solver_answer]
    exact ih (Store.answer sig question store).2

/-- The procedure is not asked about what is known. -/
theorem not_mem_consultations (known : (store.lookup? c).isSome = true) (questions : List Question) :
    c ∉ consultations sig store questions := by
  induction questions generalizing store with
  | nil => exact List.not_mem_nil
  | cons question rest ih =>
    rw [consultations, List.mem_append, not_or]
    refine ⟨fun member => ?_, ih (isSome_lookup_answer known question)⟩
    rw [(of_mem_consulted member).2.1] at known
    cases known

/-- Where answers are remembered, the procedure is asked once about a constraint on which it gives a
verdict, or never. -/
theorem count_consultations_le (cached : config.cached = true) (replies : store.Replies sig config reply)
    {verdict : Verdict} (definite : reply c = .ok verdict) (questions : List Question) :
    (consultations sig store questions).count c ≤ 1 := by
  induction questions generalizing store with
  | nil => exact Nat.zero_le 1
  | cons question rest ih =>
    rw [consultations, List.count_append]
    by_cases asked : c ∈ store.consulted sig question
    · obtain ⟨left, _, alone⟩ := of_mem_consulted asked
      have known : ((Store.answer sig question store).2.lookup? c).isSome = true := by
        rw [answer_eq, left]
        exact isSome_lookup_of_query (replies.config ▸ cached) ((replies.replies c).trans definite)
      rw [alone, List.count_singleton_self,
        List.count_eq_zero_of_not_mem (not_mem_consultations known rest)]
    · rw [List.count_eq_zero_of_not_mem asked, Nat.zero_add]
      exact ih (replies.answer question).2

/-- A store that knows nothing yet and sets no deadline replies what the procedure answers. -/
theorem replies_new {procedure : Procedure} {backend : Signature → Constraint → Answer}
    (computes : procedure.Computes backend) (untimed : config.timeout = none) :
    (new procedure config).Replies sig config (backend sig) := by
  refine ⟨rfl, ⟨backend, computes⟩, fun c => ?_⟩
  have missing : (new procedure config).lookup? c = none := by
    unfold lookup?
    split
    · exact Std.TreeMap.getElem?_emptyc
    · rfl
  obtain ⟨calls, asked⟩ := computes sig c
  rw [query_of_not_lookup missing]
  simp only [new, untimed, Option.map_none, Solver.ask, asked]

/-- What is concluded depends on the policies of the configuration and on nothing else in it. -/
theorem Question.outcome_congr {other : StoreConfig} (unknown : other.onUnknown = config.onUnknown)
    (timeout : other.onTimeout = config.onTimeout) (question : Question) :
    question.outcome sig other reply = question.outcome sig config reply := by
  unfold Question.outcome
  split
  · rfl
  · cases question with
    | feasible c => simp only [conclude, StoreConfig.feasibility, unknown, timeout]
    | implies assumption conclusion => simp only [conclude, StoreConfig.entailment, timeout]

/-- Remembering answers is not seen. A store that remembers answers gives the same answers to the same
questions as one that does not. What it does with its procedure is to ask about the constraints consulted,
and those on which the procedure gives a verdict are not consulted twice. -/
theorem remembering_unseen {procedure : Procedure} {backend : Signature → Constraint → Answer}
    (computes : procedure.Computes backend) (sig : Signature) (config : StoreConfig)
    (questions : List Question) :
    let remembering := new procedure { config with timeout := none, cached := true }
    let forgetful := new procedure { config with timeout := none, cached := false }
    let asked := consultations sig remembering questions
    (answerAll sig remembering questions).1 = (answerAll sig forgetful questions).1 ∧
      (answerAll sig remembering questions).2.solver =
        asked.foldl (fun solver c => (Solver.ask sig c solver).2) remembering.solver ∧
      ∀ c verdict, backend sig c = .ok verdict → asked.count c ≤ 1 := by
  intro remembering forgetful asked
  have first : remembering.Replies sig _ (backend sig) := replies_new computes rfl
  have second : forgetful.Replies sig _ (backend sig) := replies_new computes rfl
  refine ⟨?_, solver_answerAll sig remembering questions, fun c verdict definite =>
    count_consultations_le rfl first definite questions⟩
  rw [first.answerAll, second.answerAll]
  exact List.map_congr_left fun question _ => Question.outcome_congr (by rfl) (by rfl) question

/-- The same question twice, and an implication in between. -/
def repeated : List Question :=
  [.feasible (lessThan 5), .implies (lessThan 5) (lessThan 10), .feasible (lessThan 5)]

/-- The second time the answer is remembered. -/
theorem remembering_unseen_repeated :
    (answerAll .builtin (new .builtin {}) repeated).1 =
        (answerAll .builtin (new .builtin { cached := false }) repeated).1 ∧
      (consultations .builtin (new .builtin {}) repeated).count (lessThan 5) ≤ 1 ∧
      (consultations .builtin (new .builtin { cached := false }) repeated).count (lessThan 5) = 2 := by
  have computes : Procedure.builtin.Computes fun sig c => .ok (c.decideLocally sig) :=
    Procedure.computes_steady _
  obtain ⟨same, _, once⟩ := remembering_unseen computes .builtin {} repeated
  exact ⟨same, once (lessThan 5) _ rfl, by decide +kernel⟩

end Runs

end Reach.Store
