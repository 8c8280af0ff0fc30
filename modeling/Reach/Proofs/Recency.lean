import Mathlib.Data.List.Dedup
import Mathlib.Data.List.DropRight
import Reach.Proofs.Agreement
import Reach.Registry

/-!
A registry holds the modules that were touched last, in the order in which they were touched last, and
as many of them as it has room for. A module is touched when its value is handed out, whether it was
there or had to be compiled; it is compiled exactly when it is not there.
-/

namespace Reach.Registry

variable {α ε : Type}

/-- What a client asks for, with what compiling the module would give. -/
inductive Request (α ε : Type)
  | get (module : String)
  | getOrCompile (module : String) (compiling : Except ε α)

namespace Request

def module : Request α ε → String
  | get module => module
  | getOrCompile module _ => module

/-- What compiling the module gives, if the client lets it be compiled. -/
def compiling? : Request α ε → Option (Except ε α)
  | get _ => none
  | getOrCompile _ compiling => some compiling

def mayCompile (request : Request α ε) : Bool :=
  request.compiling?.isSome

/-- The value that compiling the module gives, if it succeeds. -/
def value? (request : Request α ε) : Option α :=
  request.compiling?.bind Except.toOption

end Request

/-- What is seen of a request: the answer, if there is one, and how often the module was compiled. -/
structure Outcome (α ε : Type) where
  request : Request α ε
  answer : Option (Except ε α)
  compilations : Nat

namespace Outcome

/-- The value that was handed out. -/
def value? (outcome : Outcome α ε) : Option α :=
  outcome.answer.bind Except.toOption

/-- The value that was handed out was there. -/
def Hit (outcome : Outcome α ε) : Prop :=
  outcome.compilations = 0 ∧ outcome.value?.isSome = true

/-- The module, if it was a hit or was compiled with success. -/
def touched? (outcome : Outcome α ε) : Option String :=
  if outcome.compilations = 0 then outcome.value?.map fun _ => outcome.request.module
  else outcome.request.value?.map fun _ => outcome.request.module

/-- The value that compiling the module gave, if it was compiled with success. -/
def compiledValue? (module : String) (outcome : Outcome α ε) : Option α :=
  if outcome.compilations ≠ 0 ∧ outcome.request.module = module then outcome.request.value? else none

end Outcome

/-- Serves a request. Every compilation is counted. -/
def serve (r : Registry α) (request : Request α ε) : Outcome α ε × Registry α :=
  match request with
  | .get module =>
    let (value, r) := r.get? module
    ({ request, answer := value.map .ok, compilations := 0 }, r)
  | .getOrCompile module compiling =>
    let compile : StateM Nat (Except ε α) := do
      modify (· + 1)
      return compiling
    let ((answer, r), compilations) := (r.getOrCompileM module compile).run 0
    ({ request, answer := some answer, compilations }, r)

/-- Serves requests one after the other. -/
def serveAll (r : Registry α) : List (Request α ε) → List (Outcome α ε) × Registry α
  | [] => ([], r)
  | request :: rest =>
    let (outcome, r) := r.serve request
    let (outcomes, r) := r.serveAll rest
    (outcome :: outcomes, r)

/-- What is seen of the requests, one after the other. -/
theorem requests_serveAll (r : Registry α) (requests : List (Request α ε)) :
    (r.serveAll requests).1.map Outcome.request = requests := by
  induction requests generalizing r with
  | nil => rfl
  | cons request rest ih =>
    have own : (r.serve request).1.request = request := by cases request <;> rfl
    exact congrArg₂ List.cons own (ih _)

/-- At most `count` modules, those that were touched last, by the time of their last touch. -/
def recent (count : Nat) (outcomes : List (Outcome α ε)) : List String :=
  (outcomes.filterMap Outcome.touched?).dedup.rtake count

/-- What the last successful compilation of a module gave. -/
def lastCompiled (outcomes : List (Outcome α ε)) (module : String) : Option α :=
  (outcomes.filterMap (Outcome.compiledValue? module)).getLast?

section Keys

variable {r : Registry α} {module other : String} {value : α}

theorem keys_touch : (r.touch module value).cache.keys =
    (r.cache.keys.filter fun present => present ≠ module) ++ [module] := by
  have kept : (r.cache.erase module).keys = r.cache.keys.filter fun present => present ≠ module := by
    simp only [Assoc.keys, Assoc.erase, Assoc.restrict, List.filter_map]
    rfl
  have absent : module ∉ (r.cache.erase module).keys := by simp [kept]
  rw [← kept]
  exact (Assoc.keys_put module value _).trans (if_neg absent)

theorem get?_touch : (r.touch module value).cache.get? other =
    if other = module then some value else r.cache.get? other := by
  rw [touch, Assoc.get?_insert]
  split
  · rfl
  · next differ =>
    rw [Assoc.erase, Assoc.get?_restrict, if_pos (by simpa using differ)]

/-- What is dropped stands at the front. -/
theorem keys_evict : r.evict.cache.keys = r.cache.keys.drop (r.cache.size - r.capacity) := by
  have distinct : r.cache.keys.Nodup := r.cache.distinct
  generalize split : r.cache.size - r.capacity = surplus
  have kept : r.evict.cache.keys = r.cache.keys.filter fun module =>
      !(r.cache.keys.take surplus).contains module := by
    simp only [Assoc.keys, evict, Assoc.restrict, List.filter_map, split]
    rfl
  rw [← List.take_append_drop surplus r.cache.keys] at distinct
  have apart := List.disjoint_of_nodup_append distinct
  rw [kept]
  nth_rewrite 2 [← List.take_append_drop surplus r.cache.keys]
  rw [List.filter_append, List.filter_eq_nil_iff.mpr, List.filter_eq_self.mpr, List.nil_append]
  · intro module later
    simpa using fun early => apart early later
  · intro module early
    simpa using early

private theorem get?_evict (kept : other ∈ r.evict.cache.keys) :
    r.evict.cache.get? other = r.cache.get? other := by
  have found := Assoc.isSome_get?_iff.mpr kept
  rw [evict, Assoc.get?_restrict] at found ⊢
  split
  · rfl
  · next dropped =>
    rw [if_neg dropped] at found
    cases found

end Keys

section Lists

variable {items earlier : List String} {item : String} {count : Nat}

/-- An element that is added at the end moves there. -/
theorem dedup_concat (items : List String) (item : String) :
    (items ++ [item]).dedup = (items.dedup.filter fun present => present ≠ item) ++ [item] := by
  induction items with
  | nil => simp
  | cons first rest ih =>
    by_cases again : first ∈ rest
    · rw [List.cons_append, List.dedup_cons_of_mem (by simp [again]), ih,
        List.dedup_cons_of_mem again]
    · by_cases same : first = item
      · subst same
        rw [List.cons_append, List.dedup_cons_of_mem (by simp), ih, List.dedup_cons_of_notMem again,
          List.filter_cons_of_neg (by simp)]
      · rw [List.cons_append, List.dedup_cons_of_notMem (by simp [again, same]), ih,
          List.dedup_cons_of_notMem again, List.filter_cons_of_pos (by simpa using same),
          List.cons_append]

theorem rtake_of_length_le (few : items.length ≤ count) : items.rtake count = items := by
  rw [List.rtake, Nat.sub_eq_zero_of_le few, List.drop_zero]

private theorem rtake_append (enough : count ≤ items.length) :
    (earlier ++ items).rtake count = items.rtake count := by
  rw [List.rtake, List.rtake, List.length_append, Nat.add_sub_assoc enough, List.drop_append]
  simp

theorem filter_ne_eq_erase (distinct : items.Nodup) (item : String) :
    (items.filter fun present => present ≠ item) = items.erase item := by
  rw [distinct.erase_eq_filter]
  exact List.filter_congr fun present _ => by by_cases same : present = item <;> simp [same]

/-- When an element is taken out, one more of the others may be among the last. -/
theorem rtake_filter (distinct : items.Nodup) (item : String) (count : Nat) :
    (items.filter fun present => present ≠ item).rtake count =
      ((items.rtake (count + 1)).filter fun present => present ≠ item).rtake count := by
  by_cases few : items.length ≤ count + 1
  · rw [rtake_of_length_le few]
  · have long : (items.rtake (count + 1)).length = count + 1 := by
      rw [List.rtake, List.length_drop]
      omega
    have kept : count ≤ ((items.rtake (count + 1)).filter fun present => present ≠ item).length := by
      have last : (items.rtake (count + 1)).Nodup := distinct.sublist (List.drop_sublist _ _)
      rw [filter_ne_eq_erase last, List.length_erase, long]
      split <;> omega
    have split : items = items.take (items.length - (count + 1)) ++ items.rtake (count + 1) :=
      (List.take_append_drop _ items).symm
    nth_rewrite 1 [split]
    rw [List.filter_append, rtake_append kept]

end Lists

section Touching

variable {outcome : Outcome α ε} {outcomes : List (Outcome α ε)} {count : Nat} {module : String}

/-- A module that is touched becomes the most recent one, and the least recent one is forgotten if there
is no more room for it. -/
theorem recent_touch (touched : outcome.touched? = some module) :
    recent (count + 1) (outcomes ++ [outcome]) =
      (((recent (count + 1) outcomes).filter fun present => present ≠ module) ++ [module]).rtake
        (count + 1) := by
  rw [recent, recent, List.filterMap_append, List.filterMap_cons_some touched, List.filterMap_nil,
    dedup_concat, List.rtake_concat_succ, List.rtake_concat_succ, rtake_filter (List.nodup_dedup _)]

private theorem recent_idle (idle : outcome.touched? = none) :
    recent count (outcomes ++ [outcome]) = recent count outcomes := by
  rw [recent, recent, List.filterMap_append, List.filterMap_cons_none idle, List.filterMap_nil,
    List.append_nil]

theorem lastCompiled_concat (outcomes : List (Outcome α ε)) (outcome : Outcome α ε) (module : String) :
    lastCompiled (outcomes ++ [outcome]) module =
      (outcome.compiledValue? module).or (lastCompiled outcomes module) := by
  rw [lastCompiled, lastCompiled, List.filterMap_append]
  cases given : outcome.compiledValue? module with
  | none => simp [given]
  | some value => simp [given]

end Touching

section Serving

variable {r : Registry α} {request : Request α ε} {value : α} {module : String}

/-- What is seen of a request whose module is there. -/
def Request.found (request : Request α ε) (value : α) : Outcome α ε :=
  { request, answer := some (.ok value), compilations := 0 }

/-- What is seen of a request whose module is not there. -/
def Request.missed (request : Request α ε) : Outcome α ε :=
  { request, answer := request.compiling?, compilations := request.mayCompile.toNat }

/-- The registry after a module that was not there was compiled. -/
def file (r : Registry α) (module : String) : Option α → Registry α
  | some value => (r.touch module value).evict
  | none => r

/-- A value that is there is handed out. -/
theorem serve_of_cached (cached : r.cache.get? request.module = some value) :
    r.serve request = (request.found value, r.touch request.module value) := by
  cases request with
  | get module =>
    rw [Request.module] at cached
    simp only [serve, get?, cached]
    rfl
  | getOrCompile module compiling =>
    rw [Request.module] at cached
    simp only [serve, getOrCompileM, cached]
    rfl

/-- A module that is not there is compiled once if it may be. What comes of that is the answer, and a value
is filed. -/
theorem serve_of_absent (absent : r.cache.get? request.module = none) :
    r.serve request = (request.missed, r.file request.module request.value?) := by
  cases request with
  | get module =>
    rw [Request.module] at absent
    simp only [serve, get?, absent]
    rfl
  | getOrCompile module compiling =>
    rw [Request.module] at absent
    cases compiling with
    | ok value =>
      simp only [serve, getOrCompileM, absent]
      rfl
    | error error =>
      simp only [serve, getOrCompileM, absent]
      rfl

theorem hit_found : (request.found value).Hit :=
  ⟨rfl, rfl⟩

theorem not_hit_missed : ¬request.missed.Hit := by
  intro hit
  cases request with
  | get module => cases hit.2
  | getOrCompile module compiling => cases hit.1

private theorem touched?_found : (request.found value).touched? = some request.module :=
  rfl

theorem touched?_missed : request.missed.touched? = request.value?.map fun _ => request.module := by
  cases request <;> rfl

private theorem compiledValue?_found : (request.found value).compiledValue? module = none :=
  if_neg fun given => given.1 rfl

private theorem compiledValue?_missed :
    request.missed.compiledValue? module = if request.module = module then request.value? else none := by
  cases request with
  | get own => exact (if_neg fun given => given.1 rfl).trans (ite_self none).symm
  | getOrCompile own compiling => simp [Request.missed, Outcome.compiledValue?, Request.mayCompile,
      Request.compiling?]

end Serving

/-- What a registry with room for `count` modules holds after these requests were served. -/
structure Remembers (count : Nat) (outcomes : List (Outcome α ε)) (r : Registry α) : Prop where
  capacity : r.capacity = count
  keys : r.cache.keys = recent count outcomes
  values : ∀ module ∈ r.cache.keys, r.cache.get? module = lastCompiled outcomes module

namespace Remembers

variable {count : Nat} {outcomes : List (Outcome α ε)} {r : Registry α} {request : Request α ε}
  {module : String} {value : α}

theorem start (capacity : Nat) :
    Remembers (max capacity 1) ([] : List (Outcome α ε)) (new capacity : Registry α) where
  capacity := rfl
  keys := (List.rtake_nil _).symm
  values := nofun

private theorem mem_recent_iff (remembers : Remembers count outcomes r) :
    module ∈ recent count outcomes ↔ (r.cache.get? module).isSome = true := by
  rw [← remembers.keys, Assoc.isSome_get?_iff]

theorem lastCompiled_eq (remembers : Remembers count outcomes r)
    (cached : r.cache.get? module = some value) : lastCompiled outcomes module = some value := by
  rw [← remembers.values module (Assoc.isSome_get?_iff.mp (by rw [cached]; rfl)), cached]

/-- A value that was there is handed out. -/
theorem hit (remembers : Remembers (count + 1) outcomes r)
    (cached : r.cache.get? request.module = some value) :
    Remembers (count + 1) (outcomes ++ [request.found value]) (r.touch request.module value) where
  capacity := remembers.capacity
  keys := by
    have member : request.module ∈ r.cache.keys := Assoc.isSome_get?_iff.mp (by rw [cached]; rfl)
    have few : r.cache.keys.length ≤ count + 1 := by
      rw [remembers.keys, recent, List.rtake, List.length_drop]
      omega
    have distinct : r.cache.keys.Nodup := r.cache.distinct
    have room : ((r.cache.keys.filter fun present => present ≠ request.module) ++
        [request.module]).length ≤ count + 1 := by
      rw [filter_ne_eq_erase distinct, List.length_append, List.length_erase_of_mem member,
        List.length_singleton]
      omega
    rw [recent_touch touched?_found, ← remembers.keys, keys_touch, rtake_of_length_le room]
  values other member := by
    rw [get?_touch, lastCompiled_concat, compiledValue?_found, Option.none_or]
    split
    · next same =>
      subst same
      exact (remembers.lastCompiled_eq cached).symm
    · next differ =>
      rw [keys_touch] at member
      have kept : other ∈ r.cache.keys := by simpa [differ] using member
      exact remembers.values other kept

/-- A value that compiling gave is filed, and if there is none nothing changes. -/
theorem miss (remembers : Remembers (count + 1) outcomes r) :
    Remembers (count + 1) (outcomes ++ [request.missed]) (r.file request.module request.value?) := by
  have touched : request.missed.touched? = request.value?.map fun _ => request.module := touched?_missed
  have given (module : String) : request.missed.compiledValue? module =
      if request.module = module then request.value? else none := compiledValue?_missed
  cases compiled : request.value? with
  | none =>
    rw [compiled] at touched
    simp only [compiled, ite_self] at given
    refine ⟨remembers.capacity, (recent_idle touched).symm ▸ remembers.keys, fun module member => ?_⟩
    rw [lastCompiled_concat, given, Option.none_or]
    exact remembers.values module member
  | some value =>
    rw [compiled] at touched
    simp only [compiled] at given
    refine ⟨remembers.capacity, ?_, fun other member => ?_⟩
    · rw [recent_touch touched, ← remembers.keys, ← keys_touch, file, keys_evict, List.rtake,
        Assoc.length_keys]
      exact congrArg (fun room => List.drop (_ - room) _) remembers.capacity
    · rw [file, get?_evict member, lastCompiled_concat, get?_touch, given]
      by_cases same : other = request.module
      · rw [if_pos same, if_pos same.symm, Option.some_or]
      · rw [if_neg same, if_neg (Ne.symm same), Option.none_or]
        rw [file, keys_evict, keys_touch] at member
        have kept : other ∈ r.cache.keys := by simpa [same] using List.mem_of_mem_drop member
        exact remembers.values other kept

/-- One request. -/
theorem serve (remembers : Remembers (count + 1) outcomes r) (request : Request α ε) :
    Remembers (count + 1) (outcomes ++ [(r.serve request).1]) (r.serve request).2 := by
  cases cached : r.cache.get? request.module with
  | some value =>
    rw [serve_of_cached cached]
    exact remembers.hit cached
  | none =>
    rw [serve_of_absent cached]
    exact remembers.miss

/-- Any number of requests. -/
theorem serveAll (remembers : Remembers (count + 1) outcomes r) (requests : List (Request α ε)) :
    Remembers (count + 1) (outcomes ++ (r.serveAll requests).1) (r.serveAll requests).2 := by
  induction requests generalizing outcomes r with
  | nil => simpa [Registry.serveAll] using remembers
  | cons request rest ih =>
    have served := ih (remembers.serve request)
    rwa [List.append_assoc, List.singleton_append] at served

end Remembers

/-- The registry after any requests, and what comes of the next one. The modules that it holds are the
last ones that were touched. A request is a hit exactly if its module is among them, and the value is
what the last successful compilation of the module gave. Otherwise the module is compiled, if it may be,
exactly once, and what that gives is the answer. A request that touches no module leaves the registry as
it is. -/
theorem holds_recent (capacity : Nat) (past : List (Request α ε)) (request : Request α ε) :
    let outcomes := ((new capacity : Registry α).serveAll past).1
    let r := ((new capacity : Registry α).serveAll past).2
    let outcome := (r.serve request).1
    let modules := recent (max capacity 1) outcomes
    outcomes.map Outcome.request = past ∧ r.cache.keys = modules ∧
      (outcome.Hit ↔ request.module ∈ modules) ∧
      (outcome.Hit → outcome.value? = lastCompiled outcomes request.module) ∧
      (¬outcome.Hit → outcome.answer = request.compiling?) ∧
      outcome.compilations = (if request.mayCompile = true ∧ request.module ∉ modules then 1 else 0) ∧
      (outcome.touched? = none → (r.serve request).2 = r) := by
  intro outcomes r outcome modules
  have remembers : Remembers (max capacity 1) outcomes r := by
    obtain ⟨count, positive⟩ : ∃ count, max capacity 1 = count + 1 := ⟨max capacity 1 - 1, by omega⟩
    have begun : Remembers (max capacity 1) ([] : List (Outcome α ε)) (new capacity : Registry α) :=
      Remembers.start capacity
    rw [positive] at begun ⊢
    exact begun.serveAll past
  have listed : request.module ∈ modules ↔ (r.cache.get? request.module).isSome = true :=
    remembers.mem_recent_iff
  refine ⟨requests_serveAll _ past, remembers.keys, ?_⟩
  cases cached : r.cache.get? request.module with
  | some value =>
    have among : request.module ∈ modules := listed.mpr (by rw [cached]; rfl)
    have served : outcome = request.found value := congrArg Prod.fst (serve_of_cached cached)
    rw [served, remembers.lastCompiled_eq cached]
    exact ⟨iff_of_true hit_found among, fun _ => rfl, fun miss => absurd hit_found miss,
      (if_neg fun missing => missing.2 among).symm, nofun⟩
  | none =>
    have missing : request.module ∉ modules := fun among => by simp [listed, cached] at among
    have served := serve_of_absent cached
    have seen : outcome = request.missed := congrArg Prod.fst served
    rw [seen, served, touched?_missed]
    refine ⟨iff_of_false not_hit_missed missing, fun hit => absurd hit not_hit_missed, fun _ => rfl, ?_, ?_⟩
    · cases may : request.mayCompile <;> simp [Request.missed, may, missing]
    · intro idle
      rw [Option.map_eq_none_iff.mp idle]
      rfl

end Reach.Registry
