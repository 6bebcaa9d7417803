import SetAssoc.Store.Basic
/-!
# Recorded stores

A store in front of another that passes every call on and writes it down.  The record can be taken
away at any time; taking it leaves the words alone.
-/

namespace SetAssoc

universe u

/-- A store together with the calls made to it since the record was last taken. -/
structure Recorded (μ : Type u) where
  /-- The store that answers. -/
  inner : μ
  /-- The calls, oldest first. -/
  calls : Array Call := #[]

namespace Recorded

variable {μ : Type u}

instance [Store μ] : Store (Recorded μ) where
  read m a :=
    let (v, inner) := Store.read m.inner a
    (v, { inner, calls := m.calls.push (.read a v) })
  write m a v := { inner := Store.write m.inner a v, calls := m.calls.push (.write a v) }

/-- The calls recorded so far, and the store with an empty record. -/
def take (m : Recorded μ) : Array Call × Recorded μ :=
  (m.calls, { m with calls := #[] })

/-- The addresses read, oldest first. -/
def readAddresses (m : Recorded μ) : List UInt32 := m.calls.toList.filterMap Call.readAddress?

/-- The addresses written, oldest first. -/
def writeAddresses (m : Recorded μ) : List UInt32 := m.calls.toList.filterMap Call.writeAddress?

end Recorded

end SetAssoc
