import SetAssoc.Proofs.Calls
import SetAssoc.Proofs.Census
import SetAssoc.Proofs.Recording
import SetAssoc.Proofs.Sessions
/-!
# The books of a session

A report is made of the counters of a cache.  Two of its entries nothing counts: the words that
passed between cache and store, which are worked out as so many blocks times the words of a
block.  That all entries tell what really happened takes three facts together: the counters follow
the answers, what the store was asked for can be read off its record, and no word of 64 bits goes
round.  Fewer than `2 ^ 35` accesses are few enough for the last one, as no block has more than
`2 ^ 29` words.
-/

namespace SetAssoc

universe u v

/-! ## Words by the block -/

namespace Geometry

variable (g : Geometry)

/-- The words of fewer than `2 ^ 35` blocks can be told in a word of 64 bits. -/
theorem toNat_mul_blockWords {n : UInt64} (hn : n.toNat < 2 ^ 35) :
    (n * .ofNat g.blockWords).toNat = n.toNat * g.blockWords := by
  have hwords := g.blockWords_le
  have hfits : (UInt64.ofNat g.blockWords).toNat = g.blockWords :=
    UInt64.toNat_ofNat_of_lt' (Nat.lt_of_le_of_lt hwords (by decide))
  have hprod : n.toNat * g.blockWords < 2 ^ 64 :=
    calc n.toNat * g.blockWords
        ≤ n.toNat * 2 ^ 29 := Nat.mul_le_mul_left _ hwords
      _ < 2 ^ 35 * 2 ^ 29 := Nat.mul_lt_mul_of_pos_right hn (by decide)
      _ = 2 ^ 64 := by decide
  rw [UInt64.toNat_mul, hfits, Nat.mod_eq_of_lt hprod]

end Geometry

/-! ## The report on a run -/

/-- The report shows what these accesses and answers come to, the words of the blocks that passed,
and the blocks with changes in the cache, so no entry has gone round. -/
structure Report.Exact {g : Geometry} {μ : Type u} {ν : Type v} (r : Report) (c : Cache g μ ν)
    (ops : List Access) (rs : List Reply) : Prop where
  reads : r.reads.toNat = readsOf ops
  writes : r.writes.toNat = writesOf ops
  hits : r.hits.toNat = hitsOf rs
  misses : r.misses.toNat = missesOf rs
  writeBacks : r.writeBacks.toNat = writeBacksOf rs
  cycles : r.cycles.toNat = cyclesOf rs
  wordsFetched : r.wordsFetched.toNat = missesOf rs * g.blockWords
  wordsWritten : r.wordsWritten.toNat = writeBacksOf rs * g.blockWords
  dirtyLines : r.dirtyLines.toNat = c.dirtyLines

namespace Cache

variable {g : Geometry} {μ : Type u} {ν : Type v} [Store μ] [Evictor ν]

/-- **The report on a run** of fewer than `2 ^ 35` accesses is exact. -/
theorem exact_ofCache (name : String) (policy : Policy) (m : μ) (e : ν) {ops : List Access}
    (hlen : ops.length < 2 ^ 35) :
    let r := (empty g policy m e).run ops
    (Report.ofCache name r.2).Exact r.2 ops r.1 := by
  intro r
  have hcycles : missCycles.toNat * ops.length < UInt64.size := by
    show 50 * ops.length < 2 ^ 64
    omega
  have hexact : r.2.counters.Exact ops r.1 := exact_run g policy m e hcycles
  have hanswers : r.1.length = ops.length := length_run _ ops
  have hmisses : missesOf r.1 ≤ r.1.length := missesOf_le_length r.1
  have hbacks : writeBacksOf r.1 ≤ r.1.length := List.countP_le_length
  have hwrites : writesOf ops ≤ ops.length := List.countP_le_length
  have hchanged : writeBacksOf r.1 + r.2.dirtyLines ≤
      writesOf ops + (empty g policy m e).dirtyLines := writeBacksOf_add_dirtyLines_run _ ops
  rw [dirtyLines_empty] at hchanged
  refine ⟨hexact.reads, hexact.writes, hexact.hits, hexact.misses, hexact.writeBacks,
    hexact.cycles, ?_, ?_, ?_⟩
  · show (r.2.counters.misses * .ofNat g.blockWords).toNat = _
    rw [g.toNat_mul_blockWords (by rw [hexact.misses]; omega), hexact.misses]
  · show (r.2.counters.writeBacks * .ofNat g.blockWords).toNat = _
    rw [g.toNat_mul_blockWords (by rw [hexact.writeBacks]; omega), hexact.writeBacks]
  · -- each of these blocks took a write, so there are not too many
    apply UInt64.toNat_ofNat_of_lt'
    show r.2.dirtyLines < 2 ^ 64
    omega

/-! ## The record of a run -/

/-- **The words read** from the store, as a record in front of it shows them, are those of the
blocks that were missed. -/
theorem length_readAddresses_run_recorded (c : Cache g μ ν) (ops : List Access) :
    (c.recorded.run ops).2.store.readAddresses.length =
      missesOf (c.run ops).1 * g.blockWords := by
  have hanswers := congrArg Prod.fst (c.run_eq_run_recorded ops)
  have hnone : c.recorded.store.readAddresses.length = 0 := rfl
  rw [length_readAddresses_run, hnone, hanswers, Nat.zero_add, Nat.mul_comm]

/-- **The words written** to the store, as a record in front of it shows them, are those of the
blocks that went back. -/
theorem length_writeAddresses_run_recorded (c : Cache g μ ν) (ops : List Access) :
    (c.recorded.run ops).2.store.writeAddresses.length =
      writeBacksOf (c.run ops).1 * g.blockWords := by
  have hanswers := congrArg Prod.fst (c.run_eq_run_recorded ops)
  have hnone : c.recorded.store.writeAddresses.length = 0 := rfl
  rw [length_writeAddresses_run, hnone, hanswers, Nat.zero_add, Nat.mul_comm]

end Cache

namespace Session

/-- **The books of a session.**  A session is asked for traces and single accesses in any order,
fewer than `2 ^ 35` accesses in all, and for a trace in the end, which may be bad.  The report then
tells, in numbers that have not gone round: the reads and the writes among the accesses; hits and
misses, which together are as many; the cycles of all answers, 50 for every miss; the words that the
store was asked for and those it was given, as a record in front of it shows them; and the blocks
with changes that are there.  Every block that went back or has changes took a write of its own.
Every block that went back and every way that is in use took a miss of its own.  Single accesses
that follow leave the report as it is. -/
theorem report_of_requests (config : Config) {g : Geometry} (hg : config.geometry = .ok g)
    (lots : Lots) (requests : List Request) (items : List Trace.Item)
    (hlen : (accessesOf (requests ++ [.trace items])).length < 2 ^ 35) :
    let ops := accessesOf (requests ++ [.trace items])
    let s := (opening config g lots).performAll (requests ++ [.trace items])
    let fresh := Cache.empty s.geometry config.policy ({} : Memory) lots
    let answers := (fresh.run ops).1
    let watched := (fresh.recorded.run ops).2
    let r := s.report
    s.cache = (fresh.run ops).2 ∧
    s.cache = watched.carry Recorded.inner ∧
    r.reads.toNat = readsOf ops ∧
    r.writes.toNat = writesOf ops ∧
    r.hits.toNat = hitsOf answers ∧
    r.misses.toNat = missesOf answers ∧
    r.writeBacks.toNat = writeBacksOf answers ∧
    r.hits.toNat + r.misses.toNat = r.reads.toNat + r.writes.toNat ∧
    r.cycles.toNat = 50 * r.misses.toNat ∧
    r.cycles.toNat = cyclesOf answers ∧
    r.wordsFetched.toNat = r.misses.toNat * s.geometry.blockWords ∧
    r.wordsFetched.toNat = watched.store.readAddresses.length ∧
    r.wordsWritten.toNat = r.writeBacks.toNat * s.geometry.blockWords ∧
    r.wordsWritten.toNat = watched.store.writeAddresses.length ∧
    r.dirtyLines.toNat = s.cache.dirtyLines ∧
    r.writeBacks.toNat + r.dirtyLines.toNat ≤ r.writes.toNat ∧
    s.cache.freeLines ≤ config.ways.toNat * config.sets.toNat ∧
    r.writeBacks.toNat + (config.ways.toNat * config.sets.toNat - s.cache.freeLines) ≤
      r.misses.toNat ∧
    ∀ later : List Access, (s.performAll (later.map .access)).report = r := by
  intro ops s fresh answers watched r
  have hserved : Served config lots s ops := served_performAll hg _
  have hlines : s.geometry.lines = config.ways.toNat * config.sets.toNat := hserved.lines_eq
  have hreport : r = Report.ofCache config.name s.cache := report_performAll_trace hg requests items
  have hexact : r.Exact (fresh.run ops).2 ops answers := by
    rw [hreport, hserved.cache]
    exact Cache.exact_ofCache config.name config.policy ({} : Memory) lots hlen
  have hwatched : (fresh.run ops).2 = watched.carry Recorded.inner :=
    congrArg Prod.snd (fresh.run_eq_run_recorded ops)
  have hanswered : hitsOf answers + missesOf answers = ops.length :=
    fresh.hitsOf_add_missesOf_run ops
  have hsplit : readsOf ops + writesOf ops = ops.length := readsOf_add_writesOf ops
  have hcost : cyclesOf answers = 50 * missesOf answers := fresh.cyclesOf_run ops
  have hchanged : writeBacksOf answers + (fresh.run ops).2.dirtyLines ≤
      writesOf ops + fresh.dirtyLines := fresh.writeBacksOf_add_dirtyLines_run ops
  have hfilled : writeBacksOf answers + fresh.freeLines ≤
      missesOf answers + (fresh.run ops).2.freeLines := fresh.writeBacksOf_add_freeLines_run ops
  have hfree : (fresh.run ops).2.freeLines ≤ s.geometry.lines := Cache.freeLines_le _
  rw [Cache.dirtyLines_empty] at hchanged
  rw [Cache.freeLines_empty] at hfilled
  rw [hexact.reads, hexact.writes, hexact.hits, hexact.misses, hexact.writeBacks, hexact.cycles,
    hexact.wordsFetched, hexact.wordsWritten, hexact.dirtyLines, hserved.cache, ← hlines]
  refine ⟨rfl, hwatched, rfl, rfl, rfl, rfl, rfl, ?_, hcost, rfl, rfl, ?_, rfl, ?_, rfl, hchanged,
    hfree, ?_, ?_⟩
  · rw [hanswered, hsplit]
  · exact (Cache.length_readAddresses_run_recorded fresh ops).symm
  · exact (Cache.length_writeAddresses_run_recorded fresh ops).symm
  · show _ + (s.geometry.lines - (fresh.run ops).2.freeLines) ≤ _
    omega
  · exact report_performAll_access s

/-- Room for one block: a word is changed, and a trace ends at its second line, with that block
gone. -/
theorem report_of_requests_cut_short :
    let config : Config :=
      { name := "one block", ways := 1, sets := 1, blockBytes := 8, policy := .leastRecentlyUsed,
        seed := some 1 }
    let s₀ := opening config ⟨1, 0, 3, by decide, by decide, by decide⟩ (.ofSeed 1)
    let r := (s₀.performAll [.access (.write 0 7),
      .trace [.ok (.read 8), .error (.unreadable .notUtf8), .ok (.read 0)]]).report
    start config 0 = .ok s₀ ∧ r.cycles.toNat = 50 * r.misses.toNat ∧
      r = { name := "one block", reads := 1, writes := 1, misses := 2, writeBacks := 1,
            cycles := 100, wordsFetched := 4, wordsWritten := 2 } := by
  intro config
  have hg : config.geometry = .ok ⟨1, 0, 3, by decide, by decide, by decide⟩ :=
    (Geometry.ofSizes_eq_ok_iff _).mpr ⟨rfl, rfl, rfl⟩
  have hbooks := report_of_requests config hg (.ofSeed 1) [.access (.write 0 7)]
    [.ok (.read 8), .error (.unreadable .notUtf8), .ok (.read 0)] (by decide)
  obtain ⟨-, -, -, -, -, -, -, -, hcycles, -⟩ := hbooks
  exact ⟨start_eq_ok_iff.mpr ⟨_, hg, rfl⟩, hcycles, by cbv⟩

end Session

end SetAssoc
