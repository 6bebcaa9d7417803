import SetAssoc.Proofs.Calls
import SetAssoc.Proofs.Recording
/-!
# Data has no say in placement

Where a block is put, and which block has to go for it, is decided by addresses, the policy and the
evictor.  Words, changes and what the store holds have no part in it.  So two caches that are
`Alike`, with the same tags in the same ways and evictors in the same state, remain alike when both
are accessed at the same address, whether to read or to write, and both accesses take the same time.
Along two runs this carries over to everything that placement decides, down to the addresses fetched
from the stores.
-/

namespace SetAssoc

universe u u' v

/-! ## Places -/

/-- What a way shows of its block when words and changes are covered up. -/
def Block.place {n : Nat} (b : Block n) : Bool × UInt32 := (b.valid, b.tag)

/-- The places of a row, in their order. -/
def places {n w : Nat} (row : Vector (Block n) w) : List (Bool × UInt32) :=
  row.toList.map Block.place

section Places

variable {n w : Nat} {row row' : Vector (Block n) w}

theorem place_get_of_places (h : places row = places row') (i : Fin w) :
    (row.get i).place = (row'.get i).place := by
  have hi := congrArg (fun l => l[(i : Nat)]?) h
  simp only [places, List.getElem?_map, getElem?_toList, Option.map_some] at hi
  exact Option.some.inj hi

/-- A search that tests places finds the same in both rows. -/
theorem findFinIdx?_of_places {p : Bool × UInt32 → Bool} (h : places row = places row') :
    (row.findFinIdx? fun b => p b.place) = row'.findFinIdx? fun b => p b.place := by
  have hplace := place_get_of_places h
  ext i
  rw [findFinIdx?_eq_some_iff, findFinIdx?_eq_some_iff]
  simp only [hplace]

theorem findTag_of_places (h : places row = places row') (tag : UInt32) :
    findTag row tag = findTag row' tag := by
  have htag := findFinIdx?_of_places (p := fun x => x.1 && x.2 == tag) h
  have hfree := findFinIdx?_of_places (p := fun x => !x.1) h
  simp only [Block.place] at htag hfree
  rw [findTag, findTag, htag, hfree]

theorem places_setAt (i : Fin w) (b : Block n) :
    places (setAt row i b) = (places row).set i b.place := by
  rw [places, setAt, Vector.toList_set, List.map_set]
  rfl

theorem places_reorder (p : Policy) (h : places row = places row') (i : Fin w) :
    places (p.reorder row i) = places (p.reorder row' i) := by
  cases p with
  | leastRecentlyUsed =>
    show (toFront row.toList i).map Block.place = (toFront row'.toList i).map Block.place
    rw [map_toFront, map_toFront]
    exact congrArg (fun l => toFront l i) h
  | random => exact h

end Places

@[simp] theorem Access.place_leave {n : Nat} (op : Access) (b : Block n) (k : Fin n) :
    (op.leave b k).place = b.place := by
  simp [Block.place]

/-! ## Caches that are alike -/

namespace Cache

variable {g : Geometry} {μ : Type u} {μ' : Type u'} {ν : Type v}

/-- The two caches differ at most in words, in changes, in how often blocks went back and in how
many accesses were reads or writes. -/
structure Alike (c : Cache g μ ν) (c' : Cache g μ' ν) : Prop where
  /-- The policy is the same. -/
  policy : c.policy = c'.policy
  /-- Every set has the same blocks in the same ways. -/
  places : ∀ s, places (c.sets.get s) = places (c'.sets.get s)
  /-- The evictors will decide alike. -/
  evictor : c.evictor = c'.evictor
  /-- As many accesses found their block. -/
  hits : c.counters.hits = c'.counters.hits
  /-- As many did not. -/
  misses : c.counters.misses = c'.counters.misses
  /-- They took as long. -/
  cycles : c.counters.cycles = c'.counters.cycles

theorem Alike.empty (g : Geometry) (policy : Policy) (m : μ) (m' : μ') (e : ν) :
    (empty g policy m e).Alike (empty g policy m' e) where
  policy := rfl
  places _ := rfl
  evictor := rfl
  hits := rfl
  misses := rfl
  cycles := rfl

namespace Alike

variable {c : Cache g μ ν} {c' : Cache g μ' ν}

theorem findTag_home (h : c.Alike c') (a : UInt32) (tag : UInt32) :
    findTag (c.home a) tag = findTag (c'.home a) tag :=
  findTag_of_places (h.places _) tag

/-- Alike caches hold the same blocks. -/
theorem holds_iff (h : c.Alike c') (a : UInt32) : c.Holds a ↔ c'.Holds a := by
  rw [Cache.holds_iff, Cache.holds_iff, ← findTag_hit_iff, ← findTag_hit_iff, h.findTag_home]

theorem replace [Store μ] [Store μ'] (h : c.Alike c') (a : UInt32) (way : Fin g.ways) :
    (c.replace a way).cache.Alike (c'.replace a way).cache where
  policy := h.policy
  places s := by
    rw [sets_replace, sets_replace, get_setAt, get_setAt]
    by_cases hs : s = (g.locate a).index
    · -- whatever words are fetched, the block is put there as the same one
      rw [if_pos hs, if_pos hs, places_setAt, places_setAt, h.places]
      rfl
    · rw [if_neg hs, if_neg hs, h.places]
  evictor := h.evictor
  hits := h.hits
  misses := congrArg (· + 1) h.misses
  cycles := congrArg (· + missCycles) h.cycles

/-- **Settling a block** takes alike caches the same time, uses the same way, and leaves them
alike. -/
theorem settle [Store μ] [Store μ'] [Evictor ν] (h : c.Alike c') (a : UInt32) :
    (c.settle a).way = (c'.settle a).way ∧ (c.settle a).cycles = (c'.settle a).cycles ∧
      (c.settle a).cache.Alike (c'.settle a).cache := by
  have hfound := h.findTag_home a (g.locate a).tag
  have hset : c.sets[(g.locate a).index] = c.home a := rfl
  have hset' : c'.sets[(g.locate a).index] = c'.home a := rfl
  simp only [Cache.settle, hset, hset', hfound]
  cases findTag (c'.home a) (g.locate a).tag with
  | hit way =>
    refine ⟨rfl, rfl, ⟨h.policy, h.places, h.evictor, ?_, h.misses, ?_⟩⟩
    · exact congrArg (· + 1) h.hits
    · exact congrArg (· + hitCycles) h.cycles
  | free way => exact ⟨rfl, rfl, h.replace a way⟩
  | full =>
    have hgone : c.policy.victim c.evictor g.ways_pos = c'.policy.victim c'.evictor g.ways_pos := by
      rw [h.policy, h.evictor]
    simp only [hgone]
    generalize c'.policy.victim c'.evictor g.ways_pos = gone
    have hasked : Alike { c with evictor := gone.2 } { c' with evictor := gone.2 } :=
      ⟨h.policy, h.places, rfl, h.hits, h.misses, h.cycles⟩
    exact ⟨rfl, rfl, hasked.replace a gone.1⟩

theorem servedRow (h : c.Alike c') {op op' : Access} (haddr : op.address = op'.address)
    (way : Fin g.ways) :
    SetAssoc.places (c.servedRow op way) = SetAssoc.places (c'.servedRow op' way) := by
  simp only [Cache.servedRow, ← h.policy, ← haddr]
  apply places_reorder
  rw [places_setAt, places_setAt, Access.place_leave, Access.place_leave, h.places,
    place_get_of_places (h.places _)]

/-- Reading and storing leave alike caches alike. -/
theorem serveAt (h : c.Alike c') {op op' : Access} (haddr : op.address = op'.address)
    (way : Fin g.ways) : (c.serveAt op way).Alike (c'.serveAt op' way) where
  policy := h.policy
  places s := by
    show SetAssoc.places ((setAt c.sets _ (c.servedRow op way)).get s) =
      SetAssoc.places ((setAt c'.sets _ (c'.servedRow op' way)).get s)
    rw [get_setAt, get_setAt, ← haddr]
    by_cases hs : s = (g.locate op.address).index
    · rw [if_pos hs, if_pos hs, h.servedRow haddr]
    · rw [if_neg hs, if_neg hs, h.places]
  evictor := h.evictor
  hits := by
    show (c.counters.served op).hits = (c'.counters.served op').hits
    rw [Counters.hits_served, Counters.hits_served, h.hits]
  misses := by
    show (c.counters.served op).misses = (c'.counters.served op').misses
    rw [Counters.misses_served, Counters.misses_served, h.misses]
  cycles := by
    show (c.counters.served op).cycles = (c'.counters.served op').cycles
    rw [Counters.cycles_served, Counters.cycles_served, h.cycles]

variable [Store μ] [Store μ'] [Evictor ν]

/-- **One access** to one address takes alike caches the same time and leaves them alike. -/
theorem access (h : c.Alike c') {op op' : Access} (haddr : op.address = op'.address) :
    (c.access op).1.cycles = (c'.access op').1.cycles ∧
      (c.access op).2.Alike (c'.access op').2 := by
  obtain ⟨hway, hcycles, hsettled⟩ := h.settle op.address
  rw [access_eq, access_eq, hway, ← haddr]
  refine ⟨?_, hsettled.serveAt haddr _⟩
  show (c.settle op.address).cycles = (c'.settle op'.address).cycles
  rw [hcycles, haddr]

/-- **Runs** through the same addresses take alike caches the same times and leave them alike. -/
theorem run (h : c.Alike c') {ops ops' : List Access}
    (haddr : ops.map Access.address = ops'.map Access.address) :
    (c.run ops).1.map Reply.cycles = (c'.run ops').1.map Reply.cycles ∧
      (c.run ops).2.Alike (c'.run ops').2 := by
  induction ops generalizing c c' ops' with
  | nil =>
    rw [List.map_nil, eq_comm, List.map_eq_nil_iff] at haddr
    subst haddr
    exact ⟨rfl, h⟩
  | cons op ops ih =>
    cases ops' with
    | nil => cases haddr
    | cons op' ops' =>
      rw [List.map_cons, List.map_cons, List.cons.injEq] at haddr
      obtain ⟨hcycles, halike⟩ := h.access haddr.1
      obtain ⟨hrest, hend⟩ := ih halike haddr.2
      rw [run_cons, run_cons, List.map_cons, List.map_cons, hcycles, hrest]
      exact ⟨rfl, hend⟩

end Alike

/-! ## What is fetched -/

/-- The addresses that a cache reads from its store to serve an access, in their order: those that a
record in front of the store shows. -/
def fetchedBy [Store μ] [Evictor ν] (c : Cache g μ ν) (op : Access) : List UInt32 :=
  (c.recorded.access op).2.store.readAddresses

theorem Alike.fetchedBy [Store μ] [Store μ'] [Evictor ν] {c : Cache g μ ν} {c' : Cache g μ' ν}
    (h : c.Alike c') {op op' : Access} (haddr : op.address = op'.address) :
    c.fetchedBy op = c'.fetchedBy op' := by
  have hrecorded : c.recorded.Alike c'.recorded :=
    ⟨h.policy, h.places, h.evictor, h.hits, h.misses, h.cycles⟩
  rw [Cache.fetchedBy, Cache.fetchedBy, readAddresses_access, readAddresses_access, haddr]
  congr 1
  exact if_congr (hrecorded.holds_iff _) rfl rfl

/-- **Data has no say in placement.**  Two fresh caches of one geometry, one policy and one evictor,
in front of any two stores, are accessed at the same addresses, each to read or to write whatever it
will.  After any number of accesses every set has the same blocks in the same ways, and the evictors
are in the same state; every access takes as long in both and fetches the same addresses from the
store; and so both count the same hits, misses and cycles. -/
theorem placement_of_run [Store μ] [Store μ'] [Evictor ν] (g : Geometry) (policy : Policy) (m : μ)
    (m' : μ') (e : ν) {ops ops' : List Access}
    (haddr : ops.map Access.address = ops'.map Access.address) :
    let r := fun n => (Cache.empty g policy m e).run (ops.take n)
    let r' := fun n => (Cache.empty g policy m' e).run (ops'.take n)
    ∀ n,
      (∀ s, places ((r n).2.sets.get s) = places ((r' n).2.sets.get s)) ∧
      (r n).2.evictor = (r' n).2.evictor ∧
      (r n).1.map Reply.cycles = (r' n).1.map Reply.cycles ∧
      (∀ op op', ops[n]? = some op → ops'[n]? = some op' →
        (r n).2.fetchedBy op = (r' n).2.fetchedBy op') ∧
      (r n).2.counters.hits = (r' n).2.counters.hits ∧
      (r n).2.counters.misses = (r' n).2.counters.misses ∧
      (r n).2.counters.cycles = (r' n).2.counters.cycles := by
  intro r r' n
  have htake : (ops.take n).map Access.address = (ops'.take n).map Access.address := by
    rw [List.map_take, List.map_take, haddr]
  obtain ⟨hcycles, halike⟩ := (Alike.empty g policy m m' e).run htake
  refine ⟨halike.places, halike.evictor, hcycles, ?_, halike.hits, halike.misses, halike.cycles⟩
  intro op op' hop hop'
  apply halike.fetchedBy
  have hn := congrArg (fun l => l[n]?) haddr
  simp only [List.getElem?_map, hop, hop', Option.map_some] at hn
  exact Option.some.inj hn

/-- Room for one block: a miss, a hit and a miss, whether the words are read or changed. -/
theorem placement_of_run_changing :
    let c := Cache.empty ⟨1, 0, 3, by decide, by decide, by decide⟩ .random ({} : Memory)
      (⟨[0]⟩ : Rota)
    let c' := Cache.empty ⟨1, 0, 3, by decide, by decide, by decide⟩ .random
      ({ fill := 5 } : Memory) (⟨[0]⟩ : Rota)
    (c.run [.read 0, .read 4, .read 8]).1.map Reply.cycles =
        (c'.run [.write 0 7, .write 4 1, .write 8 2]).1.map Reply.cycles ∧
      (c'.run [.write 0 7, .write 4 1, .write 8 2]).1.map Reply.cycles = [50, 0, 50] := by
  have haddr : [Access.read 0, .read 4, .read 8].map Access.address =
      [Access.write 0 7, .write 4 1, .write 8 2].map Access.address := rfl
  have hplaced := placement_of_run ⟨1, 0, 3, by decide, by decide, by decide⟩ .random ({} : Memory)
    ({ fill := 5 } : Memory) (⟨[0]⟩ : Rota) haddr 3
  exact ⟨hplaced.2.2.1, by cbv⟩

end Cache

end SetAssoc
