import SetAssoc.Proofs.Totals
import SetAssoc.Proofs.Traffic
import Mathlib
/-!
# Sets do not meet

All sets of a cache share one memory, and yet under recency each of them is a cache of its own.  An
access to another set leaves the row of a set alone, and in memory it writes to words of its own set
only (`Sound.get_store_access_of_ne`).  An access to the set itself looks at nothing else: neither
which block it finds and which has to go, nor the words that it fetches, depend on more than the row
and the words of memory that belong to the set.  So a cache that serves all accesses and one that
serves those of a single set go on agreeing about that set (`Agree.run`).

What the accesses come to in all is then what the sets come to one by one.
-/

namespace SetAssoc

universe v

/-! ## One set at a time -/

namespace Geometry

variable (g : Geometry)

/-- The accesses that go to one set. -/
def only (s : Fin g.sets) (ops : List Access) : List Access :=
  ops.filter fun op => (g.locate op.address).index = s

/-- The accesses that go to one set, each with its answer in a run through all of them. -/
def answersIn (s : Fin g.sets) (ops : List Access) (rs : List Reply) : List (Access × Reply) :=
  (ops.zip rs).filter fun p => (g.locate p.1.address).index = s

variable {g} {s : Fin g.sets} {op : Access} {ops : List Access} {r : Reply} {rs : List Reply}

theorem only_cons_of_eq (h : (g.locate op.address).index = s) :
    g.only s (op :: ops) = op :: g.only s ops :=
  List.filter_cons_of_pos (by simpa using h)

theorem only_cons_of_ne (h : (g.locate op.address).index ≠ s) :
    g.only s (op :: ops) = g.only s ops :=
  List.filter_cons_of_neg (by simpa using h)

theorem only_concat_of_eq (h : (g.locate op.address).index = s) :
    g.only s (ops ++ [op]) = g.only s ops ++ [op] := by
  simp [only, h]

theorem only_concat_of_ne (h : (g.locate op.address).index ≠ s) :
    g.only s (ops ++ [op]) = g.only s ops := by
  simp [only, h]

theorem answersIn_cons_of_eq (h : (g.locate op.address).index = s) :
    g.answersIn s (op :: ops) (r :: rs) = (op, r) :: g.answersIn s ops rs :=
  List.filter_cons_of_pos (by simpa using h)

theorem answersIn_cons_of_ne (h : (g.locate op.address).index ≠ s) :
    g.answersIn s (op :: ops) (r :: rs) = g.answersIn s ops rs :=
  List.filter_cons_of_neg (by simpa using h)

end Geometry

namespace Cache

variable {g : Geometry} {ν : Type v}

/-! ## What a set sees of memory -/

/-- A block fetched depends on no other words than those of its set. -/
theorem fetch_congr {m m' : Memory} {a : UInt32}
    (h : ∀ x, (g.locate x).index = (g.locate a).index → m.get x = m'.get x) :
    (fetch g a m).1 = (fetch g a m').1 := by
  have hwords : (Store.readAll m (g.wordsFrom (g.blockStart a))).1 =
      (Store.readAll m' (g.wordsFrom (g.blockStart a))).1 := by
    rw [Memory.readAll_eq, Memory.readAll_eq, ← g.wordsOf_locate]
    apply List.map_congr_left
    intro x hx
    apply h
    obtain ⟨i, hi, rfl⟩ := List.mem_map.mp hx
    let word : Location g := ⟨⟨i, List.mem_range.mp hi⟩, (g.locate a).index, (g.locate a).tag⟩
    show (g.locate word.address).index = word.index
    rw [g.locate_address word (g.tag_locate_lt a)]
  simp only [fetch, hwords]

/-- **Memory under other sets is left alone.** -/
theorem Sound.get_store_access_of_ne [Evictor ν] {c : Cache g Memory ν} (hc : c.Sound)
    {op : Access} {x : UInt32} (hx : (g.locate x).index ≠ (g.locate op.address).index) :
    (c.access op).2.store.get x = c.store.get x := by
  have hs := c.settling op.address
  show (c.settle op.address).cache.store.get x = _
  generalize c.settle op.address = s at hs
  cases hs with
  | hit way found => rfl
  | miss way evictor room =>
    show (fetch g op.address (c.vacate op.address way)).2.get x = _
    rw [fetch_memory, hc.get_vacate]
    exact if_neg fun h => hx h.2.1

/-! ## Caches that agree about a set -/

/-- Two caches under recency agree about one set: about its row, and about the words of memory that
belong to it. -/
structure Agree (s : Fin g.sets) (c c' : Cache g Memory ν) : Prop where
  /-- The one evicts by recency. -/
  policy : c.policy = .leastRecentlyUsed
  /-- So does the other. -/
  policy' : c'.policy = .leastRecentlyUsed
  /-- The row is the same. -/
  row : c.sets.get s = c'.sets.get s
  /-- So are the words. -/
  words : ∀ x, (g.locate x).index = s → c.store.get x = c'.store.get x

namespace Agree

variable {s : Fin g.sets} {c c' : Cache g Memory ν}

theorem home (h : Agree s c c') {a : UInt32} (ha : (g.locate a).index = s) :
    c.home a = c'.home a := by
  subst ha
  exact h.row

theorem replace (h : Agree s c c') (hc : c.Sound) (hc' : c'.Sound) {a : UInt32}
    (ha : (g.locate a).index = s) (way : Fin g.ways) :
    (c.replace a way).events = (c'.replace a way).events ∧
      Agree s (c.replace a way).cache (c'.replace a way).cache := by
  have hhome := h.home ha
  have hvacate : ∀ x, (g.locate x).index = (g.locate a).index →
      (c.vacate a way).get x = (c'.vacate a way).get x := by
    intro x hx
    rw [hc.get_vacate, hc'.get_vacate, hhome, h.words x (hx.trans ha)]
  refine ⟨?_, h.policy, h.policy', ?_, ?_⟩
  · have hold : c.sets[(g.locate a).index][way] = c'.sets[(g.locate a).index][way] :=
      congrArg (fun row => row.get way) hhome
    simp only [Cache.replace, hold]
  · rw [sets_replace, sets_replace, ← ha, get_setAt_self, get_setAt_self, hhome,
      fetch_congr hvacate]
  · intro x hx
    rw [store_replace, store_replace, fetch_memory, fetch_memory]
    exact hvacate x (hx.trans ha.symm)

variable [Evictor ν]

/-- **Settling a block of the set** finds or makes room in the same way. -/
theorem settle (h : Agree s c c') (hc : c.Sound) (hc' : c'.Sound) {a : UInt32}
    (ha : (g.locate a).index = s) :
    (c.settle a).way = (c'.settle a).way ∧ (c.settle a).cycles = (c'.settle a).cycles ∧
      (c.settle a).events = (c'.settle a).events ∧
      Agree s (c.settle a).cache (c'.settle a).cache := by
  have hset : c.sets[(g.locate a).index] = c'.sets[(g.locate a).index] := h.home ha
  simp only [Cache.settle, hset]
  cases findTag c'.sets[(g.locate a).index] (g.locate a).tag with
  | hit way => exact ⟨rfl, rfl, rfl, h.policy, h.policy', h.row, h.words⟩
  | free way =>
    obtain ⟨hevents, hagree⟩ := h.replace hc hc' ha way
    exact ⟨rfl, rfl, hevents, hagree⟩
  | full =>
    -- recency names the last way and leaves the evictor as it is
    have hlast : ∀ {d : Cache g Memory ν}, d.policy = .leastRecentlyUsed →
        d.policy.victim d.evictor g.ways_pos =
          (⟨g.ways - 1, Nat.sub_lt g.ways_pos Nat.one_pos⟩, d.evictor) := by
      intro d hd
      rw [hd]
      rfl
    simp only [hlast h.policy, hlast h.policy']
    obtain ⟨hevents, hagree⟩ := h.replace hc hc' ha _
    exact ⟨rfl, rfl, hevents, hagree⟩

/-- **An access to the set** is answered alike, and leaves the caches in agreement. -/
theorem access (h : Agree s c c') (hc : c.Sound) (hc' : c'.Sound) {op : Access}
    (hop : (g.locate op.address).index = s) :
    (c.access op).1 = (c'.access op).1 ∧ Agree s (c.access op).2 (c'.access op).2 := by
  obtain ⟨hway, hcycles, hevents, hsettled⟩ := h.settle hc hc' hop
  have hhome := hsettled.home hop
  rw [access_fst, access_fst, access_eq, access_eq, hway, hcycles, hevents, hhome]
  refine ⟨rfl, hsettled.policy, hsettled.policy', ?_, hsettled.words⟩
  show (setAt _ _ _).get s = (setAt _ _ _).get s
  rw [← hop, get_setAt_self, get_setAt_self, servedRow, servedRow, hhome, hsettled.policy,
    hsettled.policy']

/-- **An access to another set** goes unnoticed. -/
theorem access_of_ne (h : Agree s c c') (hc : c.Sound) {op : Access}
    (hop : (g.locate op.address).index ≠ s) : Agree s (c.access op).2 c' where
  policy := (c.policy_access op).trans h.policy
  policy' := h.policy'
  row := (c.sets_access_of_ne hop.symm).trans h.row
  words := by
    intro x hx
    rw [hc.get_store_access_of_ne (by rw [hx]; exact hop.symm), h.words x hx]

/-- **A run through all accesses** agrees about a set with a run through those of the set. -/
theorem run (h : Agree s c c') (hc : c.Sound) (hc' : c'.Sound) (ops : List Access) :
    g.answersIn s ops (c.run ops).1 = (g.only s ops).zip (c'.run (g.only s ops)).1 ∧
      Agree s (c.run ops).2 (c'.run (g.only s ops)).2 := by
  induction ops generalizing c c' with
  | nil => exact ⟨rfl, h⟩
  | cons op ops ih =>
    by_cases hop : (g.locate op.address).index = s
    · obtain ⟨hanswer, hagree⟩ := h.access hc hc' hop
      obtain ⟨hrest, hend⟩ := ih hagree (hc.access op) (hc'.access op)
      rw [run_cons, Geometry.only_cons_of_eq hop, run_cons, Geometry.answersIn_cons_of_eq hop,
        List.zip_cons_cons, hanswer, hrest]
      exact ⟨rfl, hend⟩
    · obtain ⟨hrest, hend⟩ := ih (h.access_of_ne hc hop) (hc.access op) hc'
      rw [run_cons, Geometry.only_cons_of_ne hop, Geometry.answersIn_cons_of_ne hop]
      exact ⟨hrest, hend⟩

end Agree

end Cache

/-! ## Adding up the sets -/

/-- What is counted in a list is counted in its parts, one for each value of a key. -/
theorem countP_eq_sum {α : Type} {n : Nat} (key : α → Fin n) (p : α → Bool) (l : List α) :
    l.countP p = ∑ k, (l.filter fun x => key x = k).countP p := by
  induction l with
  | nil => simp
  | cons x l ih =>
    have hone : ∀ k, ((x :: l).filter fun y => key y = k).countP p =
        (l.filter fun y => key y = k).countP p + if key x = k then (p x).toNat else 0 := by
      intro k
      by_cases hk : key x = k
      · rw [List.filter_cons_of_pos (by simpa using hk), List.countP_cons, if_pos hk]
        cases p x <;> rfl
      · rw [List.filter_cons_of_neg (by simpa using hk), if_neg hk, Nat.add_zero]
    rw [Finset.sum_congr rfl fun k _ => hone k, Finset.sum_add_distrib, ← ih,
      Finset.sum_ite_eq, if_pos (Finset.mem_univ _), List.countP_cons]
    cases p x <;> rfl

/-- Numbers that add up do so in words, and the words show the sum unless it goes round. -/
theorem ofNat_sum {n : Nat} {total : Nat} {part : Fin n → Nat} (h : total = ∑ k, part k) :
    UInt64.ofNat total = ∑ k, UInt64.ofNat (part k) ∧
      (total < UInt64.size →
        (UInt64.ofNat total).toNat = ∑ k, (UInt64.ofNat (part k)).toNat) := by
  let word : ℕ →+ UInt64 := ⟨⟨UInt64.ofNat, rfl⟩, UInt64.ofNat_add⟩
  refine ⟨?_, ?_⟩
  · rw [h]
    exact map_sum word part Finset.univ
  · intro hfits
    rw [UInt64.toNat_ofNat_of_lt' hfits, h]
    apply Finset.sum_congr rfl
    intro k _
    have hle : part k ≤ total := by
      rw [h]
      exact Finset.single_le_sum (fun _ _ => Nat.zero_le _) (Finset.mem_univ k)
    exact (UInt64.toNat_ofNat_of_lt' (Nat.lt_of_le_of_lt hle hfits)).symm

namespace Geometry

variable (g : Geometry) {ops : List Access} {rs : List Reply}

theorem readsOf_eq_sum (ops : List Access) : readsOf ops = ∑ s, readsOf (g.only s ops) :=
  countP_eq_sum _ _ ops

theorem writesOf_eq_sum (ops : List Access) : writesOf ops = ∑ s, writesOf (g.only s ops) :=
  countP_eq_sum _ _ ops

/-- Answers are counted set by set. -/
theorem countP_answers_eq_sum (p : Reply → Bool) (hlen : rs.length = ops.length) :
    rs.countP p = ∑ s, ((g.answersIn s ops rs).map Prod.snd).countP p := by
  have hsplit := countP_eq_sum (fun q => (g.locate q.1.address).index) (fun q => p q.2)
    (ops.zip rs)
  have hall : rs.countP p = (ops.zip rs).countP fun q => p q.2 := by
    conv_lhs => rw [← List.map_snd_zip (Nat.le_of_eq hlen), List.countP_map]
    rfl
  rw [hall, hsplit]
  apply Finset.sum_congr rfl
  intro s _
  rw [List.countP_map]
  rfl

end Geometry

/-- The six totals that a cache keeps. -/
def Counters.all : List (Counters → UInt64) :=
  [reads, writes, hits, misses, writeBacks, cycles]

theorem Counters.eq_of_forall_all {k l : Counters}
    (h : ∀ total ∈ Counters.all, total k = total l) : k = l := by
  simp only [Counters.all, List.forall_mem_cons] at h
  obtain ⟨hreads, hwrites, hhits, hmisses, hbacks, hcycles, -⟩ := h
  cases k
  cases l
  simp_all

namespace Cache

variable {g : Geometry} {ν : Type v} [Evictor ν]

/-- **A set in a run** through all accesses fares as in a run through its own. -/
theorem agree_run (g : Geometry) (m : Memory) (e : ν) (ops : List Access) (s : Fin g.sets) :
    let fresh := empty g .leastRecentlyUsed m e
    g.answersIn s ops (fresh.run ops).1 = (g.only s ops).zip (fresh.run (g.only s ops)).1 ∧
      Agree s (fresh.run ops).2 (fresh.run (g.only s ops)).2 := by
  intro fresh
  have hsound : fresh.Sound := sound_empty g _ m e
  exact Agree.run ⟨rfl, rfl, rfl, fun _ _ => rfl⟩ hsound hsound ops

/-- Answers in a run are counted by running through the accesses of each set. -/
theorem countP_run_eq_sum (m : Memory) (e : ν) (ops : List Access) (p : Reply → Bool) :
    let fresh := empty g .leastRecentlyUsed m e
    (fresh.run ops).1.countP p = ∑ s, (fresh.run (g.only s ops)).1.countP p := by
  intro fresh
  rw [g.countP_answers_eq_sum p (length_run fresh ops)]
  apply Finset.sum_congr rfl
  intro s _
  have hanswers : g.answersIn s ops (fresh.run ops).1 = _ := (agree_run g m e ops s).1
  rw [hanswers, List.map_snd_zip (Nat.le_of_eq (length_run _ _))]

/-- A counter that shows what accesses and answers come to is the sum over the sets, if what it
shows is. -/
theorem total_eq_sum {m : Memory} {e : ν} {ops : List Access} {total : Counters → UInt64}
    (count : List Access → List Reply → Nat)
    (hword : ∀ ops rs, total (({} : Counters).after ops rs) = .ofNat (count ops rs)) :
    let fresh := empty g .leastRecentlyUsed m e
    count ops (fresh.run ops).1 = ∑ s, count (g.only s ops) (fresh.run (g.only s ops)).1 →
    count ops (fresh.run ops).1 ≤ 50 * ops.length →
    total (fresh.run ops).2.counters = ∑ s, total (fresh.run (g.only s ops)).2.counters ∧
      (50 * ops.length < UInt64.size →
        (total (fresh.run ops).2.counters).toNat =
          ∑ s, (total (fresh.run (g.only s ops)).2.counters).toNat) := by
  intro fresh hsum hle
  have hshown : ∀ ops, total (fresh.run ops).2.counters =
      .ofNat (count ops (fresh.run ops).1) := by
    intro ops
    rw [counters_run]
    exact hword _ _
  obtain ⟨hwords, hnumbers⟩ := ofNat_sum hsum
  simp only [hshown]
  exact ⟨hwords, fun hfits => hnumbers (Nat.lt_of_le_of_lt hle hfits)⟩

/-- **Every counter** of a run is the sum over the sets. -/
theorem totals_run (m : Memory) (e : ν) (ops : List Access) :
    let fresh := empty g .leastRecentlyUsed m e
    ∀ total ∈ Counters.all,
      total (fresh.run ops).2.counters = ∑ s, total (fresh.run (g.only s ops)).2.counters ∧
      (50 * ops.length < UInt64.size →
        (total (fresh.run ops).2.counters).toNat =
          ∑ s, (total (fresh.run (g.only s ops)).2.counters).toNat) := by
  intro fresh
  have hsplit : ∀ p, (fresh.run ops).1.countP p = ∑ s, (fresh.run (g.only s ops)).1.countP p :=
    countP_run_eq_sum m e ops
  have hlen : ∀ p, (fresh.run ops).1.countP p ≤ 50 * ops.length := by
    intro p
    have := List.countP_le_length (p := p) (l := (fresh.run ops).1)
    rw [length_run] at this
    omega
  have haccesses := readsOf_add_writesOf ops
  have hcycles : cyclesOf (fresh.run ops).1 = 50 * missesOf (fresh.run ops).1 := cyclesOf_run _ ops
  simp only [Counters.all, List.forall_mem_cons, List.not_mem_nil, IsEmpty.forall_iff, implies_true,
    and_true]
  refine ⟨?_, ?_, ?_, ?_, ?_, ?_⟩
  · exact total_eq_sum (fun ops _ => readsOf ops) (fun _ _ => UInt64.zero_add _)
      (g.readsOf_eq_sum ops) (by omega)
  · exact total_eq_sum (fun ops _ => writesOf ops) (fun _ _ => UInt64.zero_add _)
      (g.writesOf_eq_sum ops) (by omega)
  · exact total_eq_sum (fun _ => hitsOf) (fun _ _ => UInt64.zero_add _) (hsplit _) (hlen _)
  · exact total_eq_sum (fun _ => missesOf) (fun _ _ => UInt64.zero_add _) (hsplit _) (hlen _)
  · exact total_eq_sum (fun _ => writeBacksOf) (fun _ _ => UInt64.zero_add _) (hsplit _) (hlen _)
  · refine total_eq_sum (fun _ => cyclesOf) (fun _ _ => UInt64.zero_add _) ?_ ?_
    · rw [hcycles, missesOf, hsplit, Finset.mul_sum]
      apply Finset.sum_congr rfl
      intro s _
      exact (cyclesOf_run fresh (g.only s ops)).symm
    · rw [hcycles]
      have := hlen fun r => r.cycles = missCycles
      have := missesOf_le_length (fresh.run ops).1
      rw [length_run] at this
      omega

/-- **Sets are independent under recency.**  A fresh cache serves a list of accesses, and once for
every set another one serves those that go to the set.  Each set then has the same row in both, its
accesses were given the same answers, and all of its words in memory are the same; and each of the
six counters, which are words that go round, is the sum over the sets, also as a number unless it
goes round.  So accesses may change places as long as those to one set keep their order: the answers
stay the same, and so do all rows, all of memory and all counters. -/
theorem sets_independent (g : Geometry) (m : Memory) (e : ν) (ops : List Access) :
    let fresh := empty g .leastRecentlyUsed m e
    let whole := fresh.run ops
    let part := fun s => fresh.run (g.only s ops)
    (∀ s,
      whole.2.sets.get s = (part s).2.sets.get s ∧
      g.answersIn s ops whole.1 = (g.only s ops).zip (part s).1 ∧
      ∀ a, (g.locate a).index = s → whole.2.store.get a = (part s).2.store.get a) ∧
    (∀ total ∈ Counters.all,
      total whole.2.counters = ∑ s, total (part s).2.counters ∧
      (50 * ops.length < UInt64.size →
        (total whole.2.counters).toNat = ∑ s, (total (part s).2.counters).toNat)) ∧
    ∀ ops', (∀ s, g.only s ops' = g.only s ops) →
      let other := fresh.run ops'
      (∀ s, g.answersIn s ops' other.1 = g.answersIn s ops whole.1) ∧
      other.2.sets = whole.2.sets ∧
      (∀ a, other.2.store.get a = whole.2.store.get a) ∧
      other.2.counters = whole.2.counters := by
  intro fresh whole part
  have hagree := agree_run g m e
  refine ⟨?_, totals_run m e ops, ?_⟩
  · intro s
    obtain ⟨hanswers, hend⟩ := hagree ops s
    exact ⟨hend.row, hanswers, hend.words⟩
  · -- either order agrees about a set with the same run through its accesses
    intro ops' honly other
    have hagree' : ∀ s, g.answersIn s ops' other.1 = (g.only s ops).zip (part s).1 ∧
        Agree s other.2 (part s).2 := by
      intro s
      have := hagree ops' s
      rw [honly] at this
      exact this
    refine ⟨?_, ?_, ?_, ?_⟩
    · intro s
      rw [(hagree' s).1]
      exact (hagree ops s).1.symm
    · apply Vector.toList_inj.mp
      rw [toList_eq_map_get, toList_eq_map_get]
      apply List.map_congr_left
      intro s _
      exact (hagree' s).2.row.trans (hagree ops s).2.row.symm
    · intro a
      exact ((hagree' _).2.words a rfl).trans ((hagree ops _).2.words a rfl).symm
    · apply Counters.eq_of_forall_all
      intro total htotal
      rw [(totals_run m e ops' total htotal).1, (totals_run m e ops total htotal).1]
      simp only [honly]

/-- Two sets with room for one block: the accesses to the second one may come first. -/
theorem sets_independent_reordered :
    let g : Geometry := ⟨1, 1, 2, by decide, by decide, by decide⟩
    let fresh := empty g .leastRecentlyUsed ({} : Memory) (⟨[]⟩ : Rota)
    let ops : List Access := [.write 0 7, .write 4 1, .read 8, .read 0]
    let ops' : List Access := [.write 4 1, .write 0 7, .read 8, .read 0]
    (∀ s, g.only s ops' = g.only s ops) ∧
      (fresh.run ops').2.counters = (fresh.run ops).2.counters ∧
      (fresh.run ops).2.counters.writeBacks = 1 := by
  intro g fresh ops ops'
  have honly : ∀ s, g.only s ops' = g.only s ops := by decide
  refine ⟨honly, ?_, by decide +kernel⟩
  exact ((sets_independent g ({} : Memory) (⟨[]⟩ : Rota) ops).2.2 ops' honly).2.2.2

end Cache

end SetAssoc
