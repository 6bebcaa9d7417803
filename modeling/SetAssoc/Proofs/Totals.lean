import SetAssoc.Proofs.Serving
/-!
# Adding up a run

An access finds its block for nothing, or fetches it for a fixed number of cycles, and may send a
changed block back on the way.  Its answer tells which.  Over a run this adds up: the counters of
the cache are moved on by the sums over accesses and answers, in words of 64 bits (`counters_run`),
and show these sums themselves as long as the cycles fit a word (`exact_run`).
-/

namespace SetAssoc

universe u v

/-! ## Sums over accesses and answers -/

/-- The access stores a word. -/
def Access.isWrite : Access → Bool
  | .read _ => false
  | .write .. => true

/-- The event tells of a block that went back to the store. -/
def Event.isWriteBack : Event → Bool
  | .writeBack .. => true
  | _ => false

/-- How many accesses ask for a word. -/
def readsOf (ops : List Access) : Nat := ops.countP fun op => !op.isWrite

/-- How many accesses store a word. -/
def writesOf (ops : List Access) : Nat := ops.countP Access.isWrite

/-- How many answers were free. -/
def hitsOf (rs : List Reply) : Nat := rs.countP fun r => r.cycles = hitCycles

/-- How many answers took a fetch. -/
def missesOf (rs : List Reply) : Nat := rs.countP fun r => r.cycles = missCycles

/-- How many answers tell of a block that went back to the store. -/
def writeBacksOf (rs : List Reply) : Nat := rs.countP fun r => r.events.any Event.isWriteBack

/-- The cycles of all answers together. -/
def cyclesOf (rs : List Reply) : Nat := rs.foldr (fun r n => r.cycles.toNat + n) 0

@[simp] theorem readsOf_append (ops ops' : List Access) :
    readsOf (ops ++ ops') = readsOf ops + readsOf ops' := List.countP_append

@[simp] theorem writesOf_append (ops ops' : List Access) :
    writesOf (ops ++ ops') = writesOf ops + writesOf ops' := List.countP_append

@[simp] theorem hitsOf_append (rs rs' : List Reply) :
    hitsOf (rs ++ rs') = hitsOf rs + hitsOf rs' := List.countP_append

@[simp] theorem missesOf_append (rs rs' : List Reply) :
    missesOf (rs ++ rs') = missesOf rs + missesOf rs' := List.countP_append

@[simp] theorem writeBacksOf_append (rs rs' : List Reply) :
    writeBacksOf (rs ++ rs') = writeBacksOf rs + writeBacksOf rs' := List.countP_append

@[simp] theorem cyclesOf_append (rs rs' : List Reply) :
    cyclesOf (rs ++ rs') = cyclesOf rs + cyclesOf rs' := by
  induction rs with
  | nil => exact (Nat.zero_add _).symm
  | cons r rs ih =>
    show r.cycles.toNat + cyclesOf (rs ++ rs') = r.cycles.toNat + cyclesOf rs + cyclesOf rs'
    rw [ih, Nat.add_assoc]

theorem writesOf_cons (op : Access) (ops : List Access) :
    writesOf (op :: ops) = writesOf [op] + writesOf ops := writesOf_append [op] ops

theorem hitsOf_cons (r : Reply) (rs : List Reply) :
    hitsOf (r :: rs) = hitsOf [r] + hitsOf rs := hitsOf_append [r] rs

theorem missesOf_cons (r : Reply) (rs : List Reply) :
    missesOf (r :: rs) = missesOf [r] + missesOf rs := missesOf_append [r] rs

theorem writeBacksOf_cons (r : Reply) (rs : List Reply) :
    writeBacksOf (r :: rs) = writeBacksOf [r] + writeBacksOf rs := writeBacksOf_append [r] rs

theorem missesOf_le_length (rs : List Reply) : missesOf rs ≤ rs.length := List.countP_le_length

/-- Every access is a read or a write. -/
theorem readsOf_add_writesOf (ops : List Access) : readsOf ops + writesOf ops = ops.length := by
  rw [readsOf, writesOf, List.length_eq_countP_add_countP Access.isWrite, Nat.add_comm]
  congr 2
  funext op
  cases op.isWrite <;> rfl

/-! ## The counters -/

namespace Counters

@[simp] theorem hits_served (k : Counters) (op : Access) : (k.served op).hits = k.hits := by
  cases op <;> rfl

@[simp] theorem misses_served (k : Counters) (op : Access) : (k.served op).misses = k.misses := by
  cases op <;> rfl

@[simp] theorem cycles_served (k : Counters) (op : Access) : (k.served op).cycles = k.cycles := by
  cases op <;> rfl

/-- The counters moved on by the sums over these accesses and these answers. -/
def after (k : Counters) (ops : List Access) (rs : List Reply) : Counters where
  reads := k.reads + .ofNat (readsOf ops)
  writes := k.writes + .ofNat (writesOf ops)
  hits := k.hits + .ofNat (hitsOf rs)
  misses := k.misses + .ofNat (missesOf rs)
  writeBacks := k.writeBacks + .ofNat (writeBacksOf rs)
  cycles := k.cycles + .ofNat (cyclesOf rs)

/-- Words go round as sums do, so parts of a run can be added up on their own. -/
theorem after_append (k : Counters) (ops ops' : List Access) (rs rs' : List Reply) :
    k.after (ops ++ ops') (rs ++ rs') = (k.after ops rs).after ops' rs' := by
  simp only [after, readsOf_append, writesOf_append, hitsOf_append, missesOf_append,
    writeBacksOf_append, cyclesOf_append, UInt64.ofNat_add, UInt64.add_assoc]

/-- The counters show the sums themselves, so none of them has gone round. -/
structure Exact (k : Counters) (ops : List Access) (rs : List Reply) : Prop where
  reads : k.reads.toNat = readsOf ops
  writes : k.writes.toNat = writesOf ops
  hits : k.hits.toNat = hitsOf rs
  misses : k.misses.toNat = missesOf rs
  writeBacks : k.writeBacks.toNat = writeBacksOf rs
  cycles : k.cycles.toNat = cyclesOf rs

end Counters

namespace Cache

variable {g : Geometry} {μ : Type u} {ν : Type v} [Store μ]

/-! ## One access -/

/-- A block goes back exactly if it stood in the way with changes. -/
theorem any_isWriteBack_replace (c : Cache g μ ν) (a : UInt32) (way : Fin g.ways) :
    (c.replace a way).events.any Event.isWriteBack =
      (((c.home a).get way).valid && ((c.home a).get way).dirty) := by
  show List.any ((if ((c.home a).get way).valid && ((c.home a).get way).dirty then _ else []) ++ _)
    Event.isWriteBack = _
  cases ((c.home a).get way).valid && ((c.home a).get way).dirty <;> rfl

variable [Evictor ν]

/-- What the two ways of settling a block take, and how that is entered. -/
theorem Settling.cost {c : Cache g μ ν} {a : UInt32} {s : Settled g μ ν} (hs : c.Settling a s) :
    (c.Holds a ∧ s.cycles = hitCycles ∧ s.events.any Event.isWriteBack = false ∧
        s.cache.counters = c.counters.hit) ∨
      (¬ c.Holds a ∧ s.cycles = missCycles ∧
        s.cache.counters = c.counters.miss (s.events.any Event.isWriteBack)) := by
  cases hs with
  | hit way found =>
    exact Or.inl ⟨holds_of_found found, rfl, rfl, rfl⟩
  | miss way evictor room =>
    refine Or.inr ⟨room.not_holds, rfl, ?_⟩
    rw [any_isWriteBack_replace]
    rfl

/-- **The cost of an access** tells whether its block was there. -/
theorem cycles_access (c : Cache g μ ν) (op : Access) :
    (c.access op).1.cycles = if c.Holds op.address then hitCycles else missCycles := by
  show (c.settle op.address).cycles = _
  rcases (c.settling op.address).cost with ⟨hholds, hcycles, -⟩ | ⟨hholds, hcycles, -⟩
  · rw [hcycles, if_pos hholds]
  · rw [hcycles, if_neg hholds]

/-- An access counts as a hit exactly if its block was there. -/
theorem hitsOf_access (c : Cache g μ ν) (op : Access) :
    hitsOf [(c.access op).1] = if c.Holds op.address then 1 else 0 := by
  rw [hitsOf, List.countP_singleton, cycles_access]
  split <;> rfl

/-- An access counts as a miss exactly if its block was not there. -/
theorem missesOf_access (c : Cache g μ ν) (op : Access) :
    missesOf [(c.access op).1] = if c.Holds op.address then 0 else 1 := by
  rw [missesOf, List.countP_singleton, cycles_access]
  split <;> rfl

/-- Only settling a block can send another one back. -/
theorem writeBacksOf_access (c : Cache g μ ν) (op : Access) :
    writeBacksOf [(c.access op).1] =
      ((c.settle op.address).events.any Event.isWriteBack).toNat := by
  have hchanged : ∀ (p : Prop) [Decidable p] (a : UInt32) (index way : Nat),
      (if p then [] else [Event.changed a index way]).any Event.isWriteBack = false := by
    intro p _ a index way
    split <;> rfl
  have hevents : ∃ changes : List Event, changes.any Event.isWriteBack = false ∧
      (c.access op).1.events = (c.settle op.address).events ++ changes :=
    ⟨_, hchanged _ _ _ _, rfl⟩
  obtain ⟨changes, hquiet, happend⟩ := hevents
  rw [writeBacksOf, List.countP_singleton, happend, List.any_append, hquiet, Bool.or_false]
  cases (c.settle op.address).events.any Event.isWriteBack <;> rfl

/-- **The counters** are moved on by what the answer says. -/
theorem counters_access (c : Cache g μ ν) (op : Access) :
    (c.access op).2.counters = c.counters.after [op] [(c.access op).1] := by
  have hcounters : (c.access op).2.counters = (c.settle op.address).cache.counters.served op := rfl
  have hcost : cyclesOf [(c.access op).1] = (c.access op).1.cycles.toNat := rfl
  rw [hcounters, Counters.after, hitsOf_access, missesOf_access, writeBacksOf_access, hcost,
    cycles_access, UInt64.ofNat_toNat]
  rcases (c.settling op.address).cost with ⟨hholds, -, hnone, hentry⟩ | ⟨hholds, -, hentry⟩
  · rw [hentry, hnone, if_pos hholds, if_pos hholds, if_pos hholds]
    cases op <;> simp [Counters.served, Counters.hit, readsOf, writesOf, Access.isWrite]
  · rw [hentry, if_neg hholds, if_neg hholds, if_neg hholds]
    cases op <;> cases (c.settle _).events.any Event.isWriteBack <;>
      simp [Counters.served, Counters.miss, readsOf, writesOf, Access.isWrite]

/-! ## Runs -/

/-- The cycles of every access in a run, told from what the cache held before it. -/
theorem getElem?_cycles_run (c : Cache g μ ν) (ops : List Access) (k : Nat) :
    (c.run ops).1[k]?.map Reply.cycles = ops[k]?.map fun op =>
      if (c.run (ops.take k)).2.Holds op.address then hitCycles else missCycles := by
  rw [getElem?_run, Option.map_map]
  congr 1
  funext op
  exact cycles_access _ op

/-- An access in a run is free exactly if the cache held its block before. -/
theorem cycles_run_eq_zero_iff (c : Cache g μ ν) (ops : List Access) (k : Nat) :
    (c.run ops).1[k]?.map Reply.cycles = some 0 ↔
      ∃ op, ops[k]? = some op ∧ (c.run (ops.take k)).2.Holds op.address := by
  rw [getElem?_cycles_run, Option.map_eq_some_iff]
  apply exists_congr
  intro op
  apply and_congr_right
  intro _
  by_cases h : (c.run (ops.take k)).2.Holds op.address
  · rw [if_pos h]
    exact ⟨fun _ => h, fun _ => rfl⟩
  · rw [if_neg h]
    exact ⟨fun hcost => absurd hcost (by decide), fun hholds => absurd hholds h⟩

/-- Each miss costs the same, and nothing else costs anything. -/
theorem cyclesOf_run (c : Cache g μ ν) (ops : List Access) :
    cyclesOf (c.run ops).1 = missCycles.toNat * missesOf (c.run ops).1 := by
  induction ops generalizing c with
  | nil => rfl
  | cons op ops ih =>
    rw [run_cons, missesOf_cons, Nat.mul_add, ← ih, missesOf_access]
    show (c.access op).1.cycles.toNat + _ = _
    rw [cycles_access]
    split <;> rfl

/-- Every answer is a hit or a miss. -/
theorem hitsOf_add_missesOf_run (c : Cache g μ ν) (ops : List Access) :
    hitsOf (c.run ops).1 + missesOf (c.run ops).1 = ops.length := by
  induction ops generalizing c with
  | nil => rfl
  | cons op ops ih =>
    have hone : hitsOf [(c.access op).1] + missesOf [(c.access op).1] = 1 := by
      rw [hitsOf_access, missesOf_access]
      split <;> rfl
    have hrest := ih (c.access op).2
    rw [run_cons, List.length_cons, hitsOf_cons, missesOf_cons]
    omega

/-- **The counters of a run** are moved on by the sums over it. -/
theorem counters_run (c : Cache g μ ν) (ops : List Access) :
    (c.run ops).2.counters = c.counters.after ops (c.run ops).1 := by
  induction ops generalizing c with
  | nil => simp [Counters.after, readsOf, writesOf, hitsOf, missesOf, writeBacksOf, cyclesOf]
  | cons op ops ih =>
    have happend := c.counters.after_append [op] ops [(c.access op).1] ((c.access op).2.run ops).1
    rw [List.singleton_append, List.singleton_append] at happend
    rw [run_cons, happend, ← counters_access]
    exact ih _

/-- As long as the cycles of a fresh cache fit a word, its counters are exact. -/
theorem exact_run (g : Geometry) (policy : Policy) (m : μ) (e : ν) {ops : List Access}
    (h : missCycles.toNat * ops.length < UInt64.size) :
    let r := (empty g policy m e).run ops
    r.2.counters.Exact ops r.1 := by
  intro r
  have hlen : r.1.length = ops.length := length_run _ ops
  have hcost : missCycles.toNat = 50 := rfl
  rw [hcost] at h
  have hcycles : cyclesOf r.1 = 50 * missesOf r.1 := cyclesOf_run _ ops
  have hmisses := missesOf_le_length r.1
  have hfits : ∀ n, n ≤ 50 * ops.length → (0 + UInt64.ofNat n).toNat = n := by
    intro n hn
    rw [UInt64.zero_add]
    exact UInt64.toNat_ofNat_of_lt' (by omega)
  have hcounters : r.2.counters = Counters.after {} ops r.1 := counters_run _ ops
  have hsplit := readsOf_add_writesOf ops
  have hhits : hitsOf r.1 ≤ r.1.length := List.countP_le_length
  have hbacks : writeBacksOf r.1 ≤ r.1.length := List.countP_le_length
  rw [hcounters]
  constructor
  · exact hfits _ (by omega)
  · exact hfits _ (by omega)
  · exact hfits _ (by omega)
  · exact hfits _ (by omega)
  · exact hfits _ (by omega)
  · exact hfits _ (by omega)

theorem toNat_counters_run (g : Geometry) (policy : Policy) (m : μ) (e : ν) {ops : List Access}
    (h : missCycles.toNat * ops.length < UInt64.size) :
    let r := (empty g policy m e).run ops
    r.2.counters.misses.toNat = missesOf r.1 ∧ r.2.counters.cycles.toNat = cyclesOf r.1 :=
  ⟨(exact_run g policy m e h).misses, (exact_run g policy m e h).cycles⟩

end Cache

end SetAssoc
