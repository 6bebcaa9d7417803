import SetAssoc.Proofs.Independence
import SetAssoc.Proofs.Recording
import Mathlib
/-!
# Reads that can be left out

A read that finds its block in the way where the policy would put it anyway changes nothing but two
totals: one more read, one more hit (`Idle.access`).  Nothing that follows can tell whether there
was such a read, for no access looks at the totals (`access_idling`).  So any number of them can be
struck out of a run (`run_pick`).

At random every hit is such a read.  Under recency it is every read of the block that its set was
last accessed at: that block stands in front, however many accesses to other sets came in between
(`fronts_run`).
-/

namespace SetAssoc

universe u v

/-! ## Some places of a list -/

section Pick

variable {α : Type u}

/-- What stands in the places that are wanted, in its order. -/
def pick (wanted : Nat → Bool) : List α → List α
  | [] => []
  | x :: xs =>
    let rest := pick (fun k => wanted (k + 1)) xs
    if wanted 0 then x :: rest else rest

theorem pick_cons_of_wanted {wanted : Nat → Bool} (h : wanted 0 = true) (x : α) (xs : List α) :
    pick wanted (x :: xs) = x :: pick (fun k => wanted (k + 1)) xs := if_pos h

theorem pick_cons_of_not {wanted : Nat → Bool} (h : wanted 0 = false) (x : α) (xs : List α) :
    pick wanted (x :: xs) = pick (fun k => wanted (k + 1)) xs :=
  if_neg (by simp [h])

/-- Every place is wanted or not. -/
theorem length_pick_add (struck : Nat → Bool) (xs : List α) :
    (pick (fun k => !struck k) xs).length + (pick struck xs).length = xs.length := by
  induction xs generalizing struck with
  | nil => rfl
  | cons x xs ih =>
    have hrest := ih fun k => struck (k + 1)
    cases h : struck 0 with
    | true =>
      rw [pick_cons_of_wanted h, pick_cons_of_not (by simp [h]), List.length_cons,
        List.length_cons, ← hrest]
      rfl
    | false =>
      rw [pick_cons_of_not h, pick_cons_of_wanted (by simp [h]), List.length_cons,
        List.length_cons, ← hrest]
      exact Nat.add_right_comm ..

end Pick

/-! ## Totals moved on by hits -/

/-- The totals after so many more reads that were hits. -/
def Counters.idle (k : Counters) (n : Nat) : Counters :=
  { k with reads := k.reads + .ofNat n, hits := k.hits + .ofNat n }

@[simp] theorem Counters.idle_zero (k : Counters) : k.idle 0 = k := by
  simp [idle]

theorem Counters.idle_idle (k : Counters) (m n : Nat) : (k.idle m).idle n = k.idle (m + n) := by
  simp only [idle, UInt64.ofNat_add, UInt64.add_assoc]

/-- They can be added before or after all others. -/
theorem Counters.after_idle (k : Counters) (n : Nat) (ops : List Access) (rs : List Reply) :
    (k.idle n).after ops rs = (k.after ops rs).idle n := by
  simp only [after, idle, UInt64.add_assoc, UInt64.add_comm (.ofNat n)]

namespace Cache

variable {g : Geometry} {μ : Type u} {ν : Type v}

/-- The cache with so many more reads that were hits in its totals. -/
def idling (c : Cache g μ ν) (n : Nat) : Cache g μ ν :=
  { c with counters := c.counters.idle n }

@[simp] theorem idling_zero (c : Cache g μ ν) : c.idling 0 = c := by simp [idling]

theorem idling_idling (c : Cache g μ ν) (m n : Nat) : (c.idling m).idling n = c.idling (m + n) := by
  simp only [idling, Counters.idle_idle]

section Idling

variable [Store μ] [Evictor ν]

/-- Settling a block does not look at the totals, whatever they are. -/
theorem settle_with_counters (c : Cache g μ ν) (totals : Counters) (a : UInt32) :
    ∃ totals', ({ c with counters := totals } : Cache g μ ν).settle a =
      { c.settle a with cache := { (c.settle a).cache with counters := totals' } } := by
  have hset : ({ c with counters := totals } : Cache g μ ν).sets[(g.locate a).index] =
      c.sets[(g.locate a).index] := rfl
  simp only [settle, hset]
  cases findTag c.sets[(g.locate a).index] (g.locate a).tag with
  | hit way => exact ⟨_, rfl⟩
  | free way => exact ⟨_, rfl⟩
  | full => exact ⟨_, rfl⟩

/-- **An access** does not look at the totals. -/
theorem access_idling (c : Cache g μ ν) (n : Nat) (op : Access) :
    (c.idling n).access op = ((c.access op).1, (c.access op).2.idling n) := by
  obtain ⟨totals, hsettle⟩ : ∃ totals, (c.idling n).settle op.address = _ :=
    c.settle_with_counters (c.counters.idle n) op.address
  have hanswer : ((c.idling n).access op).1 = (c.access op).1 := by
    rw [access_fst, access_fst, hsettle]
  have hcounters : ((c.idling n).access op).2.counters = (c.access op).2.counters.idle n := by
    rw [counters_access, counters_access, hanswer, ← Counters.after_idle, idling]
  have hrest : ((c.idling n).access op).2 =
      { (c.access op).2 with counters := ((c.idling n).access op).2.counters } := by
    rw [access_eq, hsettle]
    rfl
  rw [hcounters] at hrest
  exact Prod.ext hanswer hrest

/-- **A run** does not look at the totals. -/
theorem run_idling (c : Cache g μ ν) (n : Nat) (ops : List Access) :
    (c.idling n).run ops = ((c.run ops).1, (c.run ops).2.idling n) := by
  induction ops generalizing c with
  | nil => rfl
  | cons op ops ih => rw [run_cons, run_cons, access_idling, ih]

/-! ## Idle reads -/

/-- The access reads from a block that the policy will leave where it is. -/
def Idle (c : Cache g μ ν) (op : Access) : Prop :=
  ∃ a way, op = .read a ∧ findTag (c.home a) (g.locate a).tag = .hit way ∧
    c.policy.reorder (c.home a) way = c.home a

/-- **An idle read** is free, and only the totals tell of it. -/
theorem Idle.access {c : Cache g μ ν} {op : Access} (h : c.Idle op) :
    (c.access op).1.cycles = hitCycles ∧ (c.access op).2 = c.idling 1 := by
  obtain ⟨a, way, rfl, found, hstays⟩ := h
  have hsettle : c.settle a =
      { way
        cycles := hitCycles
        events := [.hit a (g.locate a).index way]
        cache := { c with counters := c.counters.hit } } := by
    have hset : c.sets[(g.locate a).index] = c.home a := rfl
    simp only [settle, hset, found]
  have hrow : c.servedRow (.read a) way = c.home a := by
    show c.policy.reorder (setAt (c.home a) way ((c.home a).get way)) way = c.home a
    rw [setAt_get, hstays]
  refine ⟨congrArg Settled.cycles hsettle, ?_⟩
  have haccess : (c.access (.read a)).2 =
      { c with
        sets := setAt c.sets (g.locate a).index (c.servedRow (.read a) way)
        counters := c.counters.hit.served (.read a) } := by
    rw [access_eq]
    show (c.settle a).cache.serveAt (.read a) (c.settle a).way = _
    rw [hsettle]
    rfl
  have hcounters : c.counters.hit.served (.read a) = c.counters.idle 1 := by
    simp [Counters.hit, Counters.served, Counters.idle, hitCycles]
  rw [haccess, hrow, hcounters, setAt_get]
  rfl

/-- **Idle reads can be struck out of a run.**  The other accesses are answered the same, and the
cache left behind is the same but for the totals. -/
theorem run_pick (c : Cache g μ ν) (struck : Nat → Bool) (ops : List Access)
    (h : ∀ k op, ops[k]? = some op → struck k = true → (c.run (ops.take k)).2.Idle op) :
    let kept := pick (fun k => !struck k) ops
    (c.run kept).1 = pick (fun k => !struck k) (c.run ops).1 ∧
      (c.run ops).2 = (c.run kept).2.idling (pick struck ops).length := by
  intro kept
  induction ops generalizing c struck with
  | nil => exact ⟨rfl, (c.idling_zero).symm⟩
  | cons op ops ih =>
    obtain ⟨hanswers, hcache⟩ := ih (c.access op).2 (fun k => struck (k + 1))
      fun k op' hop' hstruck => h (k + 1) op' hop' hstruck
    cases hfirst : struck 0 with
    | true =>
      have hidle : (c.access op).2 = c.idling 1 := (h 0 op rfl hfirst).access.2
      -- the others run from a cache that is one hit further on, and do not look at that
      have hkept : kept = pick (fun k => !struck (k + 1)) ops :=
        pick_cons_of_not (by simp [hfirst]) ..
      simp only [hidle, run_idling] at hanswers hcache
      rw [hkept, run_cons, pick_cons_of_not (by simp [hfirst]), pick_cons_of_wanted hfirst,
        List.length_cons, Nat.add_comm, ← idling_idling, hidle, run_idling]
      exact ⟨hanswers, hcache⟩
    | false =>
      have hkept : kept = op :: pick (fun k => !struck (k + 1)) ops :=
        pick_cons_of_wanted (by simp [hfirst]) ..
      rw [hkept, run_cons, run_cons, pick_cons_of_wanted (by simp [hfirst]),
        pick_cons_of_not hfirst, hanswers]
      exact ⟨rfl, hcache⟩

/-! ## Which reads are idle -/

/-- Access number `k` of a run is a read that the policy gives no heed to.  Under recency its block
is the one that its set was accessed at before; at random it is any block that is there. -/
def Redundant (c : Cache g μ ν) (ops : List Access) (k : Nat) : Prop :=
  ∃ a, ops[k]? = some (.read a) ∧
    match c.policy with
    | .leastRecentlyUsed =>
      ∃ last, (g.only (g.locate a).index (ops.take k)).getLast? = some last ∧
        g.blockStart last.address = g.blockStart a
    | .random => (c.run ops).1[k]?.map Reply.cycles = some hitCycles

/-- In every set the block that the set was last accessed at stands in front. -/
def Fronts (c : Cache g μ ν) (past : List Access) : Prop :=
  ∀ s last, (g.only s past).getLast? = some last →
    ((c.sets.get s).get ⟨0, g.ways_pos⟩).Bears (g.locate last.address).tag

theorem Fronts.access {c : Cache g μ ν} {past : List Access} (h : c.Fronts past)
    (hp : c.policy = .leastRecentlyUsed) (op : Access) :
    (c.access op).2.Fronts (past ++ [op]) := by
  intro s last hlast
  by_cases hs : (g.locate op.address).index = s
  · subst hs
    rw [Geometry.only_concat_of_eq rfl, List.getLast?_concat, Option.some.injEq] at hlast
    subst hlast
    have hstep := c.rowStep_access op
    rw [hp] at hstep
    obtain ⟨new, rest, hrow, hnew⟩ := hstep.exists_front
    have hget := getElem?_toList ((c.access op).2.home op.address) ⟨0, g.ways_pos⟩
    rw [hrow] at hget
    exact Option.some.inj hget ▸ hnew
  · rw [Geometry.only_concat_of_ne hs] at hlast
    rw [c.sets_access_of_ne (Ne.symm hs)]
    exact h s last hlast

theorem fronts_run (g : Geometry) (m : μ) (e : ν) (ops : List Access) :
    ((empty g .leastRecentlyUsed m e).run ops).2.Fronts ops := by
  have hrun := run_induction (empty g .leastRecentlyUsed m e)
    (P := fun past c => c.policy = .leastRecentlyUsed ∧ c.Fronts past)
  refine (hrun ⟨rfl, fun s last hlast => by cases hlast⟩ ?_ ops).2
  rintro past c op ⟨hp, h⟩
  exact ⟨(c.policy_access op).trans hp, h.access hp op⟩

/-- **Redundant reads are idle.** -/
theorem Redundant.idle {policy : Policy} {m : μ} {e : ν} {ops : List Access} {k : Nat}
    (h : (empty g policy m e).Redundant ops k) {op : Access} (hop : ops[k]? = some op) :
    ((empty g policy m e).run (ops.take k)).2.Idle op := by
  obtain ⟨a, ha, hwhy⟩ := h
  obtain rfl : op = .read a := Option.some.inj (hop.symm.trans ha)
  have hpolicy : ((empty g policy m e).run (ops.take k)).2.policy = policy := policy_run ..
  cases policy with
  | leastRecentlyUsed =>
    obtain ⟨last, hlast, hblock⟩ := hwhy
    obtain ⟨-, htag⟩ := (g.blockStart_eq_iff _ _).mp hblock
    have hfront := fronts_run g m e (ops.take k) _ last hlast
    rw [htag] at hfront
    refine ⟨a, _, rfl, findTag_of_front hfront, ?_⟩
    rw [hpolicy]
    exact Policy.reorder_front ..
  | random =>
    obtain ⟨op, hread, hheld⟩ := (cycles_run_eq_zero_iff _ ops k).mp hwhy
    obtain rfl : op = .read a := Option.some.inj (hread.symm.trans ha)
    obtain ⟨way, found⟩ := findTag_hit_iff.mpr ((holds_iff _ a).mp hheld)
    refine ⟨a, way, rfl, found, ?_⟩
    rw [hpolicy]
    rfl

/-- **Redundant reads can be struck out.**  Strike any number of redundant reads out of a run of a
fresh cache.  All other accesses get the same answers.  In the end the sets hold the same blocks in
the same order, the store is the same and was asked the same, the evictor is in the same state, and
the totals are the same but for those of reads and hits, which fall by the number of reads struck
out. -/
theorem run_of_redundant (g : Geometry) (policy : Policy) (m : μ) (e : ν) (ops : List Access)
    (struck : Nat → Bool)
    (h : ∀ k, struck k = true → (empty g policy m e).Redundant ops k) :
    let fresh := empty g policy m e
    let kept := pick (fun k => !struck k) ops
    let gone := (pick struck ops).length
    let r := fresh.run ops
    let r' := fresh.run kept
    r'.1 = pick (fun k => !struck k) r.1 ∧
    r'.2.sets = r.2.sets ∧
    r'.2.store = r.2.store ∧
    (fresh.recorded.run kept).2.store.calls = (fresh.recorded.run ops).2.store.calls ∧
    r'.2.evictor = r.2.evictor ∧
    r'.2.counters.writes = r.2.counters.writes ∧
    r'.2.counters.misses = r.2.counters.misses ∧
    r'.2.counters.writeBacks = r.2.counters.writeBacks ∧
    r'.2.counters.cycles = r.2.counters.cycles ∧
    r'.2.counters.reads + .ofNat gone = r.2.counters.reads ∧
    r'.2.counters.hits + .ofNat gone = r.2.counters.hits ∧
    kept.length + gone = ops.length := by
  intro fresh kept gone r r'
  have hidle : ∀ k op, ops[k]? = some op → struck k = true → (fresh.run (ops.take k)).2.Idle op :=
    fun k op hop hstruck => (h k hstruck).idle hop
  obtain ⟨hanswers, hcache⟩ := fresh.run_pick struck ops hidle
  -- the same accesses are idle with a record in front of the store
  have hidle' : ∀ k op, ops[k]? = some op → struck k = true →
      (fresh.recorded.run (ops.take k)).2.Idle op := by
    intro k op hop hstruck
    have hsame := hidle k op hop hstruck
    rw [fresh.run_eq_run_recorded] at hsame
    exact hsame
  obtain ⟨-, hrecorded⟩ := fresh.recorded.run_pick struck ops hidle'
  have hr : r.2 = r'.2.idling gone := hcache
  rw [hr, hrecorded]
  exact ⟨hanswers, rfl, rfl, rfl, rfl, rfl, rfl, rfl, rfl, rfl, rfl, length_pick_add struck ops⟩

end Idling

/-- The third access finds its block in front although another set was accessed since.  Without it
the same blocks are left in the same places. -/
theorem run_of_redundant_behind_other_set :
    let fresh := empty ⟨2, 1, 3, by decide, by decide, by decide⟩ .leastRecentlyUsed
      ({} : Memory) (⟨[]⟩ : Rota)
    let r := fresh.run [.write 0 7, .read 8, .read 4, .read 16]
    let r' := fresh.run [.write 0 7, .read 8, .read 16]
    fresh.Redundant [.write 0 7, .read 8, .read 4, .read 16] 2 ∧
      r'.1 = pick (fun k => !(k == 2)) r.1 ∧ r'.2.sets = r.2.sets ∧
      r'.2.counters.cycles = r.2.counters.cycles ∧
      r'.2.counters.hits + 1 = r.2.counters.hits := by
  intro fresh r r'
  have hthird : fresh.Redundant [.write 0 7, .read 8, .read 4, .read 16] 2 :=
    ⟨4, rfl, .write 0 7, rfl, rfl⟩
  have hstruck : ∀ k, (k == 2) = true →
      fresh.Redundant [.write 0 7, .read 8, .read 4, .read 16] k := by
    intro k hk
    rw [eq_of_beq hk]
    exact hthird
  obtain ⟨hanswers, hsets, -, -, -, -, -, -, hcycles, -, hhits, -⟩ :=
    run_of_redundant ⟨2, 1, 3, by decide, by decide, by decide⟩ .leastRecentlyUsed ({} : Memory)
      (⟨[]⟩ : Rota) [.write 0 7, .read 8, .read 4, .read 16] (fun k => k == 2) hstruck
  exact ⟨hthird, hanswers, hsets, hcycles, hhits⟩

end Cache

end SetAssoc
