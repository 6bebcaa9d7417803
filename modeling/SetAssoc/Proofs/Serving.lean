import SetAssoc.Cache.Basic
import SetAssoc.Proofs.Rows
import Mathlib.Data.List.Induction
/-!
# What one access does, and what a run is

Serving an access has two stages.  The first, `settle`, leaves the cache as it is or fetches one
block into one way; `Settling` lists both cases, with everything that is known about the way chosen.
The second, `serveAt`, is the same on a hit and on a miss: the word is read or stored, and the row
reordered.  Whatever holds of a cache is carried through an access in these two stages, and through
a run by `run_induction`.
-/

namespace SetAssoc

universe u v

/-- The block after an access to one of its words. -/
def Access.leave {n : Nat} (op : Access) (b : Block n) (k : Fin n) : Block n :=
  match op with
  | .read _ => b
  | .write _ v => b.store k v

namespace Access

variable {n : Nat} (op : Access) (b : Block n) (k : Fin n)

@[simp] theorem valid_leave : (op.leave b k).valid = b.valid := by
  cases op with
  | read a => rfl
  | write a v => exact b.valid_store k v

@[simp] theorem tag_leave : (op.leave b k).tag = b.tag := by
  cases op with
  | read a => rfl
  | write a v => exact b.tag_store k v

end Access

namespace Cache

variable {g : Geometry} {μ : Type u} {ν : Type v}

/-! ## The first stage -/

/-- The set that an address belongs to. -/
abbrev home (c : Cache g μ ν) (a : UInt32) : Vector (Block g.blockWords) g.ways :=
  c.sets.get (g.locate a).index

theorem home_congr (c : Cache g μ ν) {a b : UInt32}
    (h : (g.locate a).index = (g.locate b).index) : c.home a = c.home b := by
  simp only [home, h]

theorem toList_get_empty (g : Geometry) (policy : Policy) (m : μ) (e : ν) (s : Fin g.sets) :
    ((empty g policy m e).sets.get s).toList = List.replicate g.ways {} := by
  simp [empty, Vector.get]

/-- Another row in one place is seen from the addresses that belong there. -/
theorem home_of_sets {c c' : Cache g μ ν} {s : Fin g.sets}
    {row : Vector (Block g.blockWords) g.ways} (hsets : c'.sets = setAt c.sets s row) (a : UInt32) :
    c'.home a = if (g.locate a).index = s then row else c.home a := by
  rw [home, hsets, get_setAt]

/-- The cache holds the block of an address exactly if some block of its set bears its tag. -/
theorem holds_iff (c : Cache g μ ν) (a : UInt32) :
    c.Holds a ↔ ∃ b ∈ (c.home a).toList, b.Bears (g.locate a).tag :=
  exists_get_iff (c.home a) fun b => b.Bears (g.locate a).tag

theorem not_holds_empty (g : Geometry) (policy : Policy) (m : μ) (e : ν) (a : UInt32) :
    ¬ (empty g policy m e).Holds a := by
  rw [holds_iff]
  rintro ⟨b, hb, hvalid, -⟩
  rw [home, toList_get_empty] at hb
  rw [List.eq_of_mem_replicate hb] at hvalid
  cases hvalid

theorem holds_of_found {c : Cache g μ ν} {a : UInt32} {way : Fin g.ways}
    (found : findTag (c.home a) (g.locate a).tag = .hit way) : c.Holds a :=
  (holds_iff c a).mpr (findTag_hit_iff.mp ⟨way, found⟩)

/-- The way into which the block of an address goes when no way holds it, and the evictor after
that decision. -/
inductive Room [Evictor ν] (c : Cache g μ ν) (a : UInt32) : Fin g.ways → ν → Prop
  /-- The first free way, without asking the evictor. -/
  | free (way : Fin g.ways) (found : findTag (c.home a) (g.locate a).tag = .free way) :
      Room c a way c.evictor
  /-- The way that the policy gives up. -/
  | full (found : findTag (c.home a) (g.locate a).tag = .full) :
      Room c a (c.policy.victim c.evictor g.ways_pos).1 (c.policy.victim c.evictor g.ways_pos).2

/-- The store after a way was cleared for the block of an address: a block with changes went back
to it. -/
def vacate [Store μ] (c : Cache g μ ν) (a : UInt32) (way : Fin g.ways) : μ :=
  let old := (c.home a).get way
  if old.valid && old.dirty then writeBack (g.locate a).index old c.store else c.store

section Vacate

variable [Store μ] {c : Cache g μ ν} {a : UInt32} {way : Fin g.ways}

theorem vacate_of_stale (hvalid : ((c.home a).get way).valid = true)
    (hdirty : ((c.home a).get way).dirty = true) :
    c.vacate a way = writeBack (g.locate a).index ((c.home a).get way) c.store := by
  rw [vacate, hvalid, hdirty]
  rfl

theorem vacate_of_fresh
    (h : ((c.home a).get way).valid = true → ((c.home a).get way).dirty = false) :
    c.vacate a way = c.store := by
  have hfresh : ¬ (((c.home a).get way).valid && ((c.home a).get way).dirty) = true := by
    rw [Bool.and_eq_true]
    rintro ⟨hvalid, hdirty⟩
    rw [h hvalid] at hdirty
    cases hdirty
  rw [vacate, if_neg hfresh]

end Vacate

/-- The two ways in which the block of an address gets into the cache. -/
inductive Settling [Store μ] [Evictor ν] (c : Cache g μ ν) (a : UInt32) : Settled g μ ν → Prop
  /-- It is there. -/
  | hit (way : Fin g.ways) (found : findTag (c.home a) (g.locate a).tag = .hit way) :
      Settling c a
        { way
          cycles := hitCycles
          events := [.hit a (g.locate a).index way]
          cache := { c with counters := c.counters.hit } }
  /-- It is fetched. -/
  | miss (way : Fin g.ways) (evictor : ν) (room : c.Room a way evictor) :
      Settling c a ({ c with evictor }.replace a way)

theorem settling [Store μ] [Evictor ν] (c : Cache g μ ν) (a : UInt32) :
    c.Settling a (c.settle a) := by
  have hhome : c.sets[(g.locate a).index] = c.home a := rfl
  simp only [settle, hhome]
  cases found : findTag (c.home a) (g.locate a).tag with
  | hit way => exact .hit way found
  | free way => exact .miss way c.evictor (.free way found)
  | full => exact .miss _ _ (.full found)

namespace Room

variable [Evictor ν] {c : Cache g μ ν} {a : UInt32} {way : Fin g.ways} {evictor : ν}

/-- Room is made only for a block that is not there. -/
theorem not_bears (room : c.Room a way evictor) :
    ∀ b ∈ (c.home a).toList, ¬ b.Bears (g.locate a).tag := by
  intro b hb hbears
  obtain ⟨i, hi⟩ := findTag_hit_iff.mpr ⟨b, hb, hbears⟩
  cases room with
  | free way found => rw [found] at hi; cases hi
  | full found => rw [found] at hi; cases hi

theorem not_holds (room : c.Room a way evictor) : ¬ c.Holds a := by
  rw [holds_iff]
  rintro ⟨b, hb, hbears⟩
  exact room.not_bears b hb hbears

/-- No free way comes before the one that is chosen. -/
theorem valid_before (room : c.Room a way evictor) :
    ∀ j : Fin g.ways, j < way → ((c.home a).get j).valid = true := by
  intro j hj
  cases room with
  | free way found => exact (valid_of_findTag_free found).2 j hj
  | full found => exact valid_of_findTag_full found _ (get_mem_toList _ j)

/-- Room is made in a taken way only where there is no free one. -/
theorem free_iff (room : c.Room a way evictor) :
    ((c.home a).get way).valid = false ↔ ∃ j, ((c.home a).get j).valid = false := by
  refine ⟨fun h => ⟨way, h⟩, ?_⟩
  rintro ⟨j, hj⟩
  cases room with
  | free way found => exact (valid_of_findTag_free found).1
  | full found =>
    rw [valid_of_findTag_full found _ (get_mem_toList _ j)] at hj
    cases hj

/-- So all that stands before it in the row is taken. -/
theorem valid_of_mem_left (room : c.Room a way evictor) {xs ys : List (Block g.blockWords)}
    {b : Block g.blockWords} (hrow : (c.home a).toList = xs ++ b :: ys)
    (hlen : xs.length = (way : Nat)) : ∀ x ∈ xs, x.valid = true := by
  intro x hx
  obtain ⟨j, hj, rfl⟩ := exists_of_mem_left hrow hlen hx
  exact room.valid_before j hj

end Room

section Replace

variable [Store μ] (c : Cache g μ ν) (a : UInt32) (way : Fin g.ways)

@[simp] theorem way_replace : (c.replace a way).way = way := rfl

@[simp] theorem sets_replace : (c.replace a way).cache.sets =
    setAt c.sets (g.locate a).index (setAt (c.home a) way (fetch g a (c.vacate a way)).1) := rfl

@[simp] theorem store_replace :
    (c.replace a way).cache.store = (fetch g a (c.vacate a way)).2 := rfl

@[simp] theorem home_replace :
    (c.replace a way).cache.home a = setAt (c.home a) way (fetch g a (c.vacate a way)).1 := by
  simp [home]

theorem bears_fetch (m : μ) : (fetch g a m).1.Bears (g.locate a).tag := ⟨rfl, rfl⟩

theorem bears_replace : (((c.replace a way).cache.home a).get way).Bears (g.locate a).tag := by
  rw [home_replace]
  simpa using bears_fetch a _

end Replace

/-- After the first stage the block is in the way named. -/
theorem Settling.bears [Store μ] [Evictor ν] {c : Cache g μ ν} {a : UInt32} {s : Settled g μ ν}
    (hs : c.Settling a s) : ((s.cache.home a).get s.way).Bears (g.locate a).tag := by
  cases hs with
  | hit way found => exact bears_of_findTag_hit found
  | miss way evictor room => exact bears_replace { c with evictor } a way

/-! ## The second stage -/

/-- The row after the word was read from one of its ways or stored in it. -/
def servedRow (c : Cache g μ ν) (op : Access) (way : Fin g.ways) :
    Vector (Block g.blockWords) g.ways :=
  let row := c.home op.address
  c.policy.reorder (setAt row way (op.leave (row.get way) (g.locate op.address).offset)) way

/-- The cache with that row. -/
def serveAt (c : Cache g μ ν) (op : Access) (way : Fin g.ways) : Cache g μ ν :=
  { c with
    sets := setAt c.sets (g.locate op.address).index (c.servedRow op way)
    counters := c.counters.served op }

@[simp] theorem home_serveAt (c : Cache g μ ν) (op : Access) (way : Fin g.ways) :
    (c.serveAt op way).home op.address = c.servedRow op way := by
  simp [home, serveAt]

/-- The row before and after, with the way served cut out of it. -/
theorem exists_split_servedRow (c : Cache g μ ν) (op : Access) (way : Fin g.ways) :
    ∃ xs ys, xs.length = (way : Nat) ∧
      (c.home op.address).toList = xs ++ (c.home op.address).get way :: ys ∧
      (c.servedRow op way).toList =
        c.policy.arrange xs (op.leave ((c.home op.address).get way) (g.locate op.address).offset)
          ys := by
  obtain ⟨xs, ys, hlen, hrow, hset⟩ := exists_split (c.home op.address) way
  exact ⟨xs, ys, hlen, hrow, c.policy.toList_reorder (hset _) hlen⟩

theorem access_eq [Store μ] [Evictor ν] (c : Cache g μ ν) (op : Access) :
    (c.access op).2 = (c.settle op.address).cache.serveAt op (c.settle op.address).way := rfl

/-- The answer to an access, told by the way settled on, what that took, and the row with the block
in it. -/
def answer (op : Access) (way : Fin g.ways) (cycles : UInt64) (events : List Event)
    (row : Vector (Block g.blockWords) g.ways) : Reply :=
  let k := (g.locate op.address).offset
  let old := row.get way
  let new := op.leave old k
  { cycles
    word := new.words.get k
    events := events ++ if new.words.get k = old.words.get k then []
      else [.changed op.address (g.locate op.address).index way] }

theorem access_fst [Store μ] [Evictor ν] (c : Cache g μ ν) (op : Access) :
    (c.access op).1 = answer op (c.settle op.address).way (c.settle op.address).cycles
      (c.settle op.address).events ((c.settle op.address).cache.home op.address) := by
  cases op <;> rfl

section Congr

variable {op op' : Access} {way : Fin g.ways}

/-- Accesses to one address that leave the same block are answered the same. -/
theorem answer_congr {row : Vector (Block g.blockWords) g.ways} (haddr : op.address = op'.address)
    (hleave : op.leave (row.get way) (g.locate op.address).offset =
      op'.leave (row.get way) (g.locate op.address).offset) (cycles : UInt64)
    (events : List Event) : answer op way cycles events row = answer op' way cycles events row := by
  simp only [answer]
  rw [← haddr, hleave]

/-- They leave the same row, too. -/
theorem servedRow_congr {c : Cache g μ ν} (haddr : op.address = op'.address)
    (hleave : op.leave ((c.home op.address).get way) (g.locate op.address).offset =
      op'.leave ((c.home op.address).get way) (g.locate op.address).offset) :
    c.servedRow op way = c.servedRow op' way := by
  simp only [servedRow]
  rw [← haddr, hleave]

end Congr

theorem bears_leave {c : Cache g μ ν} {op : Access} {way : Fin g.ways}
    (hway : ((c.home op.address).get way).Bears (g.locate op.address).tag) :
    (op.leave ((c.home op.address).get way) (g.locate op.address).offset).Bears
      (g.locate op.address).tag := by
  rw [Block.Bears, Access.valid_leave, Access.tag_leave]
  exact hway

/-- The row after a block was fetched into a way and served there. -/
theorem toList_servedRow_replace [Store μ] (c : Cache g μ ν) (op : Access) {way : Fin g.ways}
    {xs ys : List (Block g.blockWords)} (hlen : xs.length = (way : Nat))
    (hset : ∀ b, (setAt (c.home op.address) way b).toList = xs ++ b :: ys) :
    ∃ new, new.Bears (g.locate op.address).tag ∧
      ((c.replace op.address way).cache.servedRow op way).toList = c.policy.arrange xs new ys := by
  refine ⟨_, bears_leave (bears_replace c op.address way), c.policy.toList_reorder ?_ hlen⟩
  rw [← hset, home_replace, setAt_setAt]

theorem Settling.rowStep [Store μ] [Evictor ν] {c : Cache g μ ν} {op : Access}
    {s : Settled g μ ν} (hs : c.Settling op.address s) :
    RowStep c.policy (c.policy.victim c.evictor g.ways_pos).1 (g.locate op.address).tag
      (c.home op.address).toList (s.cache.servedRow op s.way).toList := by
  cases hs with
  | hit way found =>
    obtain ⟨xs, ys, hlen, hrow, hset⟩ := exists_split (c.home op.address) way
    have hway := bears_of_findTag_hit found
    -- the first stage changed the counters alone
    show RowStep _ _ _ _ (c.servedRow op way).toList
    rw [servedRow, c.policy.toList_reorder (hset _) hlen, hrow]
    exact .hit xs ys _ _ hway (bears_leave hway)
  | miss way evictor room =>
    obtain ⟨xs, ys, hlen, hrow, hset⟩ := exists_split (c.home op.address) way
    obtain ⟨new, hnew, hrow'⟩ :=
      toList_servedRow_replace { c with evictor } op hlen hset
    rw [way_replace, hrow']
    have habsent := room.not_bears
    have hbefore := room.valid_of_mem_left hrow hlen
    rw [hrow] at habsent ⊢
    cases room with
    | free way found =>
      exact .free xs ys _ new habsent hbefore (valid_of_findTag_free found).1 hnew
    | full found =>
      have hvalid := valid_of_findTag_full found
      rw [hrow] at hvalid
      exact .full xs ys _ new habsent hvalid hlen hnew

/-- **The set that an access belongs to takes one step.** -/
theorem rowStep_access [Store μ] [Evictor ν] (c : Cache g μ ν) (op : Access) :
    RowStep c.policy (c.policy.victim c.evictor g.ways_pos).1 (g.locate op.address).tag
      (c.home op.address).toList ((c.access op).2.home op.address).toList := by
  rw [access_eq, home_serveAt]
  exact (c.settling op.address).rowStep

theorem Settling.sets_of_ne [Store μ] [Evictor ν] {c : Cache g μ ν} {a : UInt32}
    {s : Settled g μ ν} (hs : c.Settling a s) {j : Fin g.sets} (hj : j ≠ (g.locate a).index) :
    s.cache.sets.get j = c.sets.get j := by
  cases hs with
  | hit way found => rfl
  | miss way evictor room => exact get_setAt_of_ne _ hj _

/-- **All other sets stay as they are.** -/
theorem sets_access_of_ne [Store μ] [Evictor ν] (c : Cache g μ ν) {op : Access} {j : Fin g.sets}
    (hj : j ≠ (g.locate op.address).index) : (c.access op).2.sets.get j = c.sets.get j := by
  rw [access_eq, ← (c.settling op.address).sets_of_ne hj]
  exact get_setAt_of_ne _ hj _

@[simp] theorem policy_access [Store μ] [Evictor ν] (c : Cache g μ ν) (op : Access) :
    (c.access op).2.policy = c.policy := by
  have hs := c.settling op.address
  rw [access_eq]
  generalize c.settle op.address = s at hs
  cases hs with
  | hit way found => rfl
  | miss way evictor room => rfl

/-! ## Runs -/

section Run

variable [Store μ] [Evictor ν] (c : Cache g μ ν)

@[simp] theorem run_nil : c.run [] = ([], c) := rfl

theorem run_cons (op : Access) (ops : List Access) :
    c.run (op :: ops) =
      ((c.access op).1 :: ((c.access op).2.run ops).1, ((c.access op).2.run ops).2) := rfl

theorem run_append (past ops : List Access) :
    c.run (past ++ ops) =
      ((c.run past).1 ++ ((c.run past).2.run ops).1, ((c.run past).2.run ops).2) := by
  induction past generalizing c with
  | nil => rfl
  | cons op past ih => simp [run_cons, ih]

theorem run_concat (past : List Access) (op : Access) :
    c.run (past ++ [op]) =
      ((c.run past).1 ++ [((c.run past).2.access op).1], ((c.run past).2.access op).2) :=
  c.run_append past [op]

@[simp] theorem length_run (ops : List Access) : (c.run ops).1.length = ops.length := by
  induction ops generalizing c with
  | nil => rfl
  | cons op ops ih => simp [run_cons, ih]

/-- The answers of a run are those to its accesses, each asked after the ones before it. -/
theorem getElem?_run (ops : List Access) (k : Nat) :
    (c.run ops).1[k]? = ops[k]?.map fun op => ((c.run (ops.take k)).2.access op).1 := by
  induction ops generalizing c k with
  | nil => rfl
  | cons op ops ih =>
    cases k with
    | zero => rfl
    | succ k => exact ih _ k

/-- What holds in the beginning, and after an access if it did before, holds after every run. -/
theorem run_induction {P : List Access → Cache g μ ν → Prop} (hstart : P [] c)
    (hstep : ∀ past c op, P past c → P (past ++ [op]) (access c op).2) (ops : List Access) :
    P ops (c.run ops).2 := by
  induction ops using List.reverseRecOn with
  | nil => exact hstart
  | append_singleton past op ih =>
    rw [run_concat]
    exact hstep past _ op ih

@[simp] theorem policy_run (ops : List Access) : (c.run ops).2.policy = c.policy :=
  c.run_induction (P := fun _ d => d.policy = c.policy) rfl
    (fun _ d op h => (d.policy_access op).trans h) ops

end Run

end Cache

end SetAssoc
