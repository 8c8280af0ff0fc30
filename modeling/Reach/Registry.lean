import Reach.Assoc

/-!
A registry keeps the values that were compiled for the modules used last. Once it holds more than
its capacity, the module that was not used for the longest time is dropped.
-/

namespace Reach

/-- From the least to the most recently used module. -/
structure Registry (α : Type) where
  capacity : Nat
  cache : Assoc String α

namespace Registry

variable {α ε : Type}

def defaultCapacity : Nat :=
  20

/-- Holds at least one module. -/
def new (capacity : Nat) : Registry α :=
  { capacity := max capacity 1, cache := .empty }

def size (r : Registry α) : Nat :=
  r.cache.size

def contains (r : Registry α) (module : String) : Bool :=
  r.cache.contains module

/-- Makes a module the most recently used one, with this value. -/
def touch (r : Registry α) (module : String) (value : α) : Registry α :=
  { r with cache := (r.cache.erase module).insert module value }

/-- Drops the least recently used modules beyond the capacity. -/
def evict (r : Registry α) : Registry α :=
  let dropped := (r.cache.keys).take (r.cache.size - r.capacity)
  { r with cache := r.cache.restrict fun module => !dropped.contains module }

def get? (r : Registry α) (module : String) : Option α × Registry α :=
  match r.cache.get? module with
  | some value => (some value, r.touch module value)
  | none => (none, r)

/-- The value of a module, which is compiled if it is not there. Compiling may have effects, and if it
fails nothing else changes. -/
def getOrCompileM {m : Type → Type} [Monad m] (r : Registry α) (module : String)
    (compile : m (Except ε α)) : m (Except ε α × Registry α) :=
  match r.cache.get? module with
  | some value => return (.ok value, r.touch module value)
  | none => do
    match ← compile with
    | .ok value => return (.ok value, (r.touch module value).evict)
    | .error error => return (.error error, r)

/-- Compiling has no effects, but it is put off until it is known to be needed. -/
def getOrCompile (r : Registry α) (module : String) (compile : Unit → Except ε α) :
    Except ε α × Registry α :=
  r.getOrCompileM (m := ReaderM Unit) module compile ()

end Registry

end Reach
