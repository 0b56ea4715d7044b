import Mathlib.Logic.Basic

/-!
# A reader/writer lock that is not reentrant

A computation of one thread over data guarded by a reader/writer lock. The state
records how the thread holds the lock. A request while the thread holds the lock in
either mode is never granted, and a release needs the mode it releases; both end the
computation with a fault.
-/

namespace AvalancheParallel.RWLock

universe u
variable {σ α : Type u}

/-- How the thread holds the lock. -/
inductive Hold where
  | free
  | shared
  | exclusive
deriving DecidableEq

/-- A request that blocks for ever, or a release of a lock that is not held. -/
inductive Fault where
  | blocked
  | notHeld
deriving DecidableEq, Repr

/-- Computations on the lock and its data. -/
def Locked (σ : Type u) (α : Type u) : Type u := Hold → σ → Except Fault (α × Hold × σ)

namespace Locked

/-- One computation after the other; a fault ends both. -/
def andThen {β : Type u} (first : Locked σ α) (next : α → Locked σ β) : Locked σ β :=
  fun hold data =>
    match first hold data with
    | .error fault => .error fault
    | .ok (result, held, after) => next result held after

/-- Change the mode from one to another; `fault` is what happens in other modes. -/
def transfer (needed after : Hold) (fault : Fault) : Locked σ PUnit := fun hold data =>
  if hold = needed then .ok (.unit, after, data) else .error fault

/-- `Lock`. -/
def lock : Locked σ PUnit := transfer .free .exclusive .blocked

/-- `Unlock`. -/
def unlock : Locked σ PUnit := transfer .exclusive .free .notHeld

/-- `RLock`. -/
def rLock : Locked σ PUnit := transfer .free .shared .blocked

/-- `RUnlock`. -/
def rUnlock : Locked σ PUnit := transfer .shared .free .notHeld

/-- Read and write the data without a look at the lock. -/
def access (body : σ → α × σ) : Locked σ α := fun hold data =>
  .ok ((body data).1, hold, (body data).2)

/-- `Lock`, then the body with a deferred `Unlock`. -/
def withLock (body : Locked σ α) : Locked σ α :=
  lock.andThen fun _ => body.andThen fun result => unlock.andThen fun _ => access fun data =>
    (result, data)

/-- `RLock`, then the body with a deferred `RUnlock`. -/
def withRLock (body : Locked σ α) : Locked σ α :=
  rLock.andThen fun _ => body.andThen fun result => rUnlock.andThen fun _ => access fun data =>
    (result, data)

/-- Started with the lock free, the computation ends with the lock free and never requests
the lock while it holds it. -/
def Disciplined (computation : Locked σ α) (data : σ) : Prop :=
  ∃ result after, computation .free data = .ok (result, .free, after)

/-- An access under the free lock returns and leaves the lock free. -/
theorem withLock_access (body : σ → α × σ) (data : σ) :
    withLock (access body) .free data = .ok ((body data).1, .free, (body data).2) := rfl

/-- An access under the free reading lock returns and leaves the lock free. -/
theorem withRLock_access (body : σ → α × σ) (data : σ) :
    withRLock (access body) .free data = .ok ((body data).1, .free, (body data).2) := rfl

/-- Under the lock, no other request is granted. -/
theorem withLock_withRLock (body : Locked σ α) (data : σ) :
    withLock (withRLock body) .free data = .error .blocked := rfl

end Locked

end AvalancheParallel.RWLock
