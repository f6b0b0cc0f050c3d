import SleepyPenguin.Runtime.Command

-- What Epoll and Kqueue write alike: the fork check, duplication and closing
-- of the members of a family.
namespace SleepyPenguin.Shared

open Foundation

-- `@copies[io] = obj`
def copiesInsert (copies : List (Nat × Nat)) (io obj : Nat) : List (Nat × Nat) :=
  if copies.any (·.1 == io) then copies.map fun pair => if pair.1 == io then (io, obj) else pair
  else copies ++ [(io, obj)]

-- `@copies.delete(io)`
def copiesDelete (copies : List (Nat × Nat)) (io : Nat) : List (Nat × Nat) :=
  copies.filter (·.1 != io)

-- One fresh duplicate of `@io` for every object that was listed. The object
-- is stored as the value; its own `@io` is not assigned.
def listDuplicates (m : Nat) (objects : List Nat) : Method Unit :=
  .each objects fun obj => do
    let io ← .perform (.getIo m)
    let ioDup ← .attempt (.dup io)
    let copies ← .perform .getCopies
    .perform (.setCopies (copiesInsert copies ioDup obj))

-- `retire` is what is done to each old key, `reinit` replaces `@io`.
def check (retire : Nat → Method Unit) (reinit : Nat → Method Unit) (m : Nat) : Method Unit := do
  let pid ← .perform (.getPid m)
  let self ← .perform .self
  if pid = self then pure ()
  else
    let io ← .perform (.getIo m)
    let closed ← .perform (.closed io)
    if closed then pure ()
    else
      let copies ← .perform .getCopies
      .each (copies.map Prod.fst) retire
      .perform (.setCopies [])
      reinit m
      listDuplicates m (copies.map Prod.snd)
      let self ← .perform .self
      .perform (.setPid m self)

def initializeNew (sNew : Method Nat) (m : Nat) : Method Unit := do
  let io ← sNew
  .perform (.setIo m io)
  let self ← .perform .self
  .perform (.setPid m self)
  .perform (.setCopies [(io, m)])

def initializeCopy (check : Nat → Method Unit) (m : Nat) : Method Unit :=
  Method.synchronize do
    check m
    let io ← .perform (.getIo m)
    let closed ← .perform (.closed io)
    if closed then pure ()
    else
      let ioDup ← .attempt (.dup io)
      .perform (.setIo m ioDup)
      let copies ← .perform .getCopies
      .perform (.setCopies (copiesInsert copies ioDup m))

-- dup and clone: the copy starts with the instance variables of the
-- original, and the caller never sees it when `initialize_copy` raises.
def dup (check : Nat → Method Unit) (m : Nat) : Method Nat := do
  let copy ← .perform (.allocate m)
  Prog.rescue (initializeCopy check copy) fun e => do
    .perform .discard
    .raise e
  pure copy

def close (m : Nat) : Method Unit :=
  Method.synchronize do
    let io ← .perform (.getIo m)
    let copies ← .perform .getCopies
    .perform (.setCopies (copiesDelete copies io))
    .attempt (.close io)

def closedP (m : Nat) : Method Bool :=
  Method.synchronize do
    let io ← .perform (.getIo m)
    .perform (.closed io)

theorem key_of_mem_copiesInsert {copies : List (Nat × Nat)} {io obj : Nat} {pair : Nat × Nat}
    (h : pair ∈ copiesInsert copies io obj) : pair ∈ copies ∨ pair.1 = io := by
  unfold copiesInsert at h
  split at h
  · obtain ⟨old, hold, rfl⟩ := List.mem_map.mp h
    split
    · exact Or.inr rfl
    · exact Or.inl hold
  · rcases List.mem_append.mp h with h | h
    · exact Or.inl h
    · exact Or.inr (List.mem_singleton.mp h ▸ rfl)

end SleepyPenguin.Shared
