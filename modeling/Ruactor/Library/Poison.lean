/-!
# A lock that a panic poisons

A body that runs under a guard may panic, which is `none`. Under a read guard that does
nothing to the lock. Under the write guard it poisons the lock, which keeps the value
that the body left behind, and from then on whoever unwraps the lock panics as well.
-/

universe u v

structure PoisonLock (σ : Type u) where
  poisoned : Bool
  value : σ

namespace PoisonLock

variable {σ : Type u} {β : Type v} {l : PoisonLock σ}

def read (l : PoisonLock σ) (body : σ → β) : Option β :=
  if l.poisoned then none else some (body l.value)

def write (l : PoisonLock σ) (body : σ → σ × Option β) : PoisonLock σ × Option β :=
  if l.poisoned then (l, none)
  else (⟨(body l.value).2.isNone, (body l.value).1⟩, (body l.value).2)

theorem read_poisoned (h : l.poisoned = true) (body : σ → β) : l.read body = none :=
  if_pos h

theorem read_clean (h : l.poisoned = false) (body : σ → β) :
    l.read body = some (body l.value) := by
  simp [read, h]

theorem write_poisoned (h : l.poisoned = true) (body : σ → σ × Option β) :
    l.write body = (l, none) :=
  if_pos h

theorem write_clean (h : l.poisoned = false) (body : σ → σ × Option β) : l.write body =
    (⟨(body l.value).2.isNone, (body l.value).1⟩, (body l.value).2) := by
  simp [write, h]

end PoisonLock
