import SetAssoc.Proofs.Checked
import SetAssoc.Proofs.Invariant
import SetAssoc.Proofs.Traffic
import SetAssoc.Store.Memory
/-!
# No step fails

A cache is a machine once its types are forgotten (`Machine.ofCache`).  From there on both do the
same, and no check of the machine fails: each place that an access goes to is there because the
cache has it, the fields of an address are in range, so are those of a block that is written back
(`Sound`), and no counter is near its end.
-/

namespace SetAssoc

universe u v

open Checked

/-! ## Traffic with the store -/

namespace Machine

variable {μ : Type u} [Store μ] (g : Geometry)

/-- Words of a block are written back to the places that their block has for them. -/
theorem writeBack?_zipIdx {index tag : UInt32} (hi : index.toNat < g.sets)
    (ht : tag.toNat < g.tags) {words : List UInt32} {n : Nat}
    (hn : n + words.length ≤ g.blockWords) (m : μ) :
    writeBack? (.ofGeometry g) index tag (words.zipIdx n) m =
      some (Store.writeAll m
        (((List.range' n words.length).map fun i => g.assemble (.ofNat i) index tag).zip
          words)) := by
  have hwords := g.blockWords_le
  induction words generalizing n m with
  | nil => rfl
  | cons w words ih =>
    rw [List.length_cons] at hn
    have hword : (UInt32.ofNat n).toNat = n :=
      UInt32.toNat_ofNat_of_lt' (show n < 2 ^ 32 by omega)
    rw [List.zipIdx_cons, writeBack?, word?_eq (by omega), Option.bind_some,
      Codec.encode?_eq g (by omega) hi ht, Option.bind_some, ih (by omega), List.length_cons,
      List.range'_succ]
    rfl

/-- Words that lie within the address space are fetched from where they lie. -/
theorem fetch?_range' {start : UInt32} {n k : Nat} (h : start.toNat + 4 * (n + k) ≤ 2 ^ 32)
    (m : μ) :
    fetch? start (List.range' n k) m =
      some (Store.readAll m ((List.range' n k).map fun i => start + 4 * .ofNat i)) := by
  induction k generalizing n m with
  | zero => rfl
  | succ k ih =>
    have hword : (UInt32.ofNat n).toNat = n :=
      UInt32.toNat_ofNat_of_lt' (show n < 2 ^ 32 by omega)
    have hbytes : UInt32.ofNat n <<< UInt32.ofNat 2 = 4 * UInt32.ofNat n := by
      rw [← UInt32.toNat_inj, Geometry.toNat_shiftLeft_ofNat (by decide)
        (show (UInt32.ofNat n).toNat * 4 < 2 ^ 32 by omega), Nat.shiftLeft_eq, UInt32.toNat_mul,
        hword]
      simp only [UInt32.reduceToNat]
      omega
    have hplace : (4 * UInt32.ofNat n).toNat = 4 * n := by
      rw [UInt32.toNat_mul, hword]
      simp only [UInt32.reduceToNat]
      omega
    rw [List.range'_succ, fetch?, word?_eq (by omega), Option.bind_some,
      shiftUp?_eq (by decide) (show (UInt32.ofNat n).toNat * 4 < 2 ^ 32 by omega),
      Option.bind_some, hbytes, add32?_eq (by rw [hplace]; omega), Option.bind_some,
      ih (by omega)]
    rfl

end Machine

/-! ## Rows without types -/

namespace Line

variable {n w : Nat}

/-- A block whose number of words is forgotten. -/
def ofBlock (b : Block n) : Line := ⟨b.valid, b.dirty, b.tag, b.words.toList⟩

/-- A set whose number of ways is forgotten. -/
def ofRow (row : Vector (Block n) w) : List Line := row.toList.map ofBlock

theorem ofBlock_empty : ofBlock ({} : Block n) = free n := by
  simp [ofBlock, free]

/-- Every way is there. -/
theorem getElem?_ofRow (row : Vector (Block n) w) (i : Fin w) :
    (ofRow row)[(i : Nat)]? = some (ofBlock (row.get i)) := by
  rw [ofRow, List.getElem?_map, getElem?_toList, Option.map_some]

theorem set_ofRow (row : Vector (Block n) w) (i : Fin w) (b : Block n) :
    (ofRow row).set i (ofBlock b) = ofRow (setAt row i b) := by
  rw [ofRow, ofRow, setAt, Vector.toList_set, List.map_set]

theorem findIdx?_ofRow (row : Vector (Block n) w) (p : Line → Bool) :
    (ofRow row).findIdx? p = (row.findFinIdx? fun b => p (ofBlock b)).map Fin.val := by
  have hrow : row.toList.findIdx? (p ∘ ofBlock) =
      (row.findFinIdx? (p ∘ ofBlock)).map Fin.val := by
    cases hfound : row.findFinIdx? (p ∘ ofBlock) with
    | none =>
      rw [Vector.findFinIdx?_eq_none_iff] at hfound
      rw [Option.map_none, List.findIdx?_eq_none_iff]
      simpa using hfound
    | some i =>
      obtain ⟨hi, hbefore⟩ := findFinIdx?_eq_some_iff.mp hfound
      rw [Option.map_some, List.findIdx?_eq_some_iff_getElem]
      have hlen : (i : Nat) < row.toList.length := by simp
      refine ⟨hlen, hi, ?_⟩
      intro j hj
      rw [Bool.not_eq_true]
      exact hbefore ⟨j, Nat.lt_trans hj i.isLt⟩ hj
  rw [ofRow, List.findIdx?_map, hrow]
  rfl

/-- Every way can be moved to the front. -/
theorem reorder?_ofRow (p : Policy) (row : Vector (Block n) w) (i : Fin w) :
    ∃ j, p.reorder? (ofRow row) i = some (j, ofRow (p.reorder row i)) := by
  cases p with
  | leastRecentlyUsed =>
    have hlen : (i : Nat) < (ofRow row).length := by simp [ofRow]
    refine ⟨0, (if_pos hlen).trans ?_⟩
    rw [ofRow, ← map_toFront]
    rfl
  | random => exact ⟨i, rfl⟩

/-- Every offset of a block has a word. -/
theorem leave?_ofBlock (b : Block n) (op : Access) (k : Fin n) :
    (ofBlock b).leave? op k = some (ofBlock (op.leave b k), (op.leave b k).words.get k) := by
  have hword : (ofBlock b).words[(k : Nat)]? = some (b.words.get k) := getElem?_toList b.words k
  rw [leave?, hword, Option.map_some]
  cases op with
  | read a => rfl
  | write a v =>
    show some (if b.words.get k = v then _ else _) =
      some (ofBlock (b.store k v), (b.store k v).words.get k)
    by_cases hsame : b.words.get k = v
    · have hstore : b.store k v = b := if_pos hsame
      rw [if_pos hsame, hstore]
    · have hstore : b.store k v = { b with dirty := true, words := setAt b.words k v } :=
        if_neg hsame
      rw [if_neg hsame, hstore, get_setAt_self, ofBlock, ofBlock, setAt, Vector.toList_set]

end Line

/-! ## Counters far from their end -/

namespace Counters

/-- There is room for one more access. -/
structure Roomy (k : Counters) : Prop where
  reads : k.reads.toNat + 1 < 2 ^ 64
  writes : k.writes.toNat + 1 < 2 ^ 64
  hits : k.hits.toNat + 1 < 2 ^ 64
  misses : k.misses.toNat + 1 < 2 ^ 64
  writeBacks : k.writeBacks.toNat + 1 < 2 ^ 64
  cycles : k.cycles.toNat + 50 < 2 ^ 64

variable {k : Counters}

theorem Roomy.hit?_eq (h : k.Roomy) : k.hit? = some k.hit := by
  have hcycles := h.cycles
  rw [hit?, add64?_eq h.hits, Option.bind_some,
    add64?_eq (show k.cycles.toNat + 0 < 2 ^ 64 by omega)]
  rfl

theorem Roomy.miss?_eq (h : k.Roomy) (wroteBack : Bool) :
    k.miss? wroteBack = some (k.miss wroteBack) := by
  rw [miss?, add64?_eq h.misses, Option.bind_some,
    add64?_eq (show k.cycles.toNat + 50 < 2 ^ 64 from h.cycles), Option.bind_some]
  cases wroteBack with
  | false => rfl
  | true =>
    rw [if_pos rfl, add64?_eq h.writeBacks]
    rfl

theorem served?_eq (op : Access) (hreads : k.reads.toNat + 1 < 2 ^ 64)
    (hwrites : k.writes.toNat + 1 < 2 ^ 64) : k.served? op = some (k.served op) := by
  cases op with
  | read a =>
    rw [served?, add64?_eq hreads]
    rfl
  | write a v =>
    rw [served?, add64?_eq hwrites]
    rfl

end Counters

/-! ## Caches without types -/

namespace Machine

open Cache (Room Settling answer)

variable {g : Geometry} {μ : Type u} {ν : Type v}

/-- The machine that a cache is when its types are forgotten. -/
def ofCache (c : Cache g μ ν) : Machine μ ν where
  ways := g.ways
  codec := .ofGeometry g
  policy := c.policy
  sets := c.sets.toList.map Line.ofRow
  store := c.store
  evictor := c.evictor
  counters := c.counters

/-- What settling found or did, when the types are forgotten. -/
def Settled.ofCache (s : Cache.Settled g μ ν) : Settled μ ν where
  way := s.way
  cycles := s.cycles
  events := s.events
  machine := .ofCache s.cache

theorem ofSizes?_eq (g : Geometry) (policy : Policy) (m : μ) (e : ν) :
    ofSizes? g.ways g.sets g.blockBytes policy m e = some (ofCache (Cache.empty g policy m e)) := by
  have hset : Line.ofRow (Vector.replicate g.ways ({} : Block g.blockWords)) =
      List.replicate g.ways (Line.free (g.blockBytes / 4)) := by
    rw [Line.ofRow, Vector.toList_replicate, List.map_replicate, Line.ofBlock_empty,
      ← g.blockWords_eq]
  have hsets : (ofCache (Cache.empty g policy m e)).sets =
      List.replicate g.sets (List.replicate g.ways (Line.free (g.blockBytes / 4))) := by
    rw [← hset]
    simp [ofCache, Cache.empty]
  rw [ofSizes?, Codec.ofSizes?_eq, Option.map_some, ← hsets]
  rfl

/-- Every set is there. -/
theorem getElem?_sets_ofCache (c : Cache g μ ν) (i : Fin g.sets) :
    (ofCache c).sets[(i : Nat)]? = some (Line.ofRow (c.sets.get i)) := by
  rw [ofCache, List.getElem?_map, getElem?_toList, Option.map_some]

theorem set_sets_ofCache (c : Cache g μ ν) (i : Fin g.sets)
    (row : Vector (Block g.blockWords) g.ways) :
    (ofCache c).sets.set i (Line.ofRow row) = (setAt c.sets i row).toList.map Line.ofRow := by
  rw [ofCache, setAt, Vector.toList_set, List.map_set]

section Victim

variable [Evictor ν]

/-- **A way to evict** is always named. -/
theorem victim?_ofCache (c : Cache g μ ν) :
    (ofCache c).victim? = some ((c.policy.victim c.evictor g.ways_pos).1.val,
      (c.policy.victim c.evictor g.ways_pos).2) := by
  obtain ⟨policy, sets, store, evictor, counters⟩ := c
  cases policy with
  | leastRecentlyUsed =>
    show (before? g.ways).map _ = _
    rw [before?_eq g.ways_pos]
    rfl
  | random =>
    show (Evictor.next evictor g.ways).1.map _ = _
    obtain ⟨w, hw, -⟩ := Evictor.next_lt evictor g.ways_pos
    simp only [hw, Option.map_some, Policy.victim, Evictor.pick, Option.get_some]
    rfl

/-- The search that finds the tag. -/
theorem findIdx?_of_found {w n : Nat} {row : Vector (Block n) w} {tag : UInt32} {way : Fin w}
    (found : findTag row tag = .hit way) :
    (Line.ofRow row).findIdx? (fun b => b.valid && b.tag == tag) = some way.val := by
  rw [Line.findIdx?_ofRow]
  show (row.findFinIdx? fun b => b.valid && b.tag == tag).map Fin.val = _
  unfold findTag at found
  split at found
  · next j hj =>
    cases found
    rw [hj, Option.map_some]
  · split at found <;> cases found

/-- The search that does not. -/
theorem findIdx?_of_room {c : Cache g μ ν} {a : UInt32} {way : Fin g.ways} {evictor : ν}
    (room : c.Room a way evictor) :
    (Line.ofRow (c.home a)).findIdx? (fun b => b.valid && b.tag == (g.locate a).tag) = none := by
  rw [List.findIdx?_eq_none_iff, Line.ofRow, List.forall_mem_map]
  intro b hb
  have hnot := room.not_bears b hb
  simpa [Block.Bears, Line.ofBlock] using hnot

/-- A way for a block is always found. -/
theorem room?_ofCache {c : Cache g μ ν} {a : UInt32} {way : Fin g.ways} {evictor : ν}
    (room : c.Room a way evictor) :
    (ofCache c).room? (Line.ofRow (c.home a)) = some (way.val, evictor) := by
  have hrow : (Line.ofRow (c.home a)).findIdx? (fun b => !b.valid) =
      ((c.home a).findFinIdx? fun b => !b.valid).map Fin.val := Line.findIdx?_ofRow _ _
  unfold room?
  cases room with
  | free way found =>
    have hfree : ((c.home a).findFinIdx? fun b => !b.valid) = some way := by
      obtain ⟨hway, hbefore⟩ := valid_of_findTag_free found
      rw [findFinIdx?_eq_some_iff, hway]
      exact ⟨rfl, fun j hj => by rw [hbefore j hj]; rfl⟩
    rw [hrow, hfree]
    rfl
  | full found =>
    have hfull : ((c.home a).findFinIdx? fun b => !b.valid) = none := by
      rw [Vector.findFinIdx?_eq_none_iff]
      have hvalid := valid_of_findTag_full found
      simpa using hvalid
    rw [hrow, hfull]
    exact victim?_ofCache c

end Victim

/-! ## The first stage -/

section Settle

variable [Store μ]

theorem vacate?_ofCache {c : Cache g μ ν} (hc : c.Sound) (a : UInt32) (way : Fin g.ways) :
    let index := (g.locate a).index
    let old := (c.home a).get way
    (ofCache c).vacate? (.ofNat index) way (Line.ofBlock old) =
      some (if old.valid && old.dirty
          then [.writeBack (g.assemble 0 (.ofNat index) old.tag) index way] else [],
        c.vacate a way) := by
  intro index old
  have hindex : (UInt32.ofNat index).toNat = index := g.toNat_ofNat_index index
  unfold vacate? Cache.vacate
  show (if old.valid && old.dirty then _ else _) = some (_, if old.valid && old.dirty then _ else _)
  by_cases hstale : (old.valid && old.dirty) = true
  · have hvalid : old.valid = true := (Bool.and_eq_true_iff.mp hstale).1
    have htag : old.tag.toNat < g.tags := (hc index).tag_lt old (get_mem_toList _ way) hvalid
    have hrange : (UInt32.ofNat index).toNat < g.sets := by
      rw [hindex]
      exact index.isLt
    have hlen : old.words.toList.length = g.blockWords := Vector.length_toList
    rw [if_pos hstale, if_pos hstale, if_pos hstale]
    show ((Codec.ofGeometry g).encode? 0 (.ofNat index) old.tag).bind _ = _
    rw [Codec.encode?_eq g (show (0 : UInt32).toNat < _ from g.blockWords_pos) hrange htag,
      Option.bind_some]
    show (writeBack? (.ofGeometry g) (.ofNat index) old.tag old.words.toList.zipIdx c.store).map
      _ = _
    rw [writeBack?_zipIdx g hrange htag (by omega), hlen, ← List.range_eq_range',
      Option.map_some, hindex]
    rfl
  · rw [if_neg hstale, if_neg hstale, if_neg hstale]
    rfl

theorem fetch?_block (a : UInt32) (n : Nat) (hn : n = g.blockWords) (m : μ) :
    fetch? (g.blockStart a) (List.range n) m =
      some (Store.readAll m (g.wordsFrom (g.blockStart a))) := by
  have hbytes := g.blockWords_mul_four
  have hlast := g.fields_lt (g.tag_locate_lt a) (g.locate a).index.isLt
    (Nat.sub_one_lt_of_lt g.blockBytes_pos)
  rw [g.toNat_tag_locate, g.index_locate, Nat.div_add_mod', ← g.toNat_blockStart] at hlast
  rw [hn, List.range_eq_range', fetch?_range' (by omega), ← List.range_eq_range']
  rfl

theorem replace?_ofCache {c : Cache g μ ν} (hc : c.Sound) (hk : c.counters.Roomy) (a : UInt32)
    (way : Fin g.ways) :
    (ofCache c).replace? a (g.fields a).2.1 (g.fields a).2.2 way =
      some (.ofCache (c.replace a way)) := by
  let old := (c.home a).get way
  have hindex : (g.fields a).2.1.toNat = (g.locate a).index := g.toNat_ofNat_index _
  have hstart : (ofCache c).codec.blockStart a = g.blockStart a := Codec.blockStart_eq g a
  have hcounters : (ofCache c).counters.miss? (old.valid && old.dirty) =
      some (c.counters.miss (old.valid && old.dirty)) := hk.miss?_eq _
  have hlen : (Line.ofBlock old).words.length = g.blockWords := Vector.length_toList
  unfold replace?
  rw [hindex, getElem?_sets_ofCache, Option.bind_some, Line.getElem?_ofRow, Option.bind_some,
    show (g.fields a).2.1 = .ofNat (g.locate a).index from rfl, vacate?_ofCache hc a way,
    Option.bind_some, hstart]
  show (fetch? _ _ _).bind _ = _
  rw [fetch?_block a _ hlen, Option.bind_some]
  show ((ofCache c).counters.miss? (old.valid && old.dirty)).map _ = _
  have hblock : (⟨true, false, (g.fields a).2.2,
      (Store.readAll (c.vacate a way) (g.wordsFrom (g.blockStart a))).1⟩ : Line) =
        Line.ofBlock (Cache.fetch g a (c.vacate a way)).1 := rfl
  rw [hcounters, Option.map_some, hblock, Line.set_ofRow, set_sets_ofCache]
  rfl

variable [Evictor ν]

/-- **The first stage** finds all that it looks for. -/
theorem settle?_ofCache {c : Cache g μ ν} (hc : c.Sound) (hk : c.counters.Roomy) (a : UInt32) :
    (ofCache c).settle? a (g.fields a).2.1 (g.fields a).2.2 = some (.ofCache (c.settle a)) := by
  have hs := c.settling a
  have hindex : (g.fields a).2.1.toNat = (g.locate a).index := g.toNat_ofNat_index _
  generalize c.settle a = s at hs
  unfold settle?
  rw [hindex, getElem?_sets_ofCache, Option.bind_some]
  cases hs with
  | hit way found =>
    rw [show (g.fields a).2.2 = (g.locate a).tag from rfl, findIdx?_of_found found]
    show (c.counters.hit?).map _ = _
    rw [hk.hit?_eq]
    rfl
  | miss way evictor room =>
    rw [show (g.fields a).2.2 = (g.locate a).tag from rfl, findIdx?_of_room room]
    show ((ofCache c).room? (Line.ofRow (c.home a))).bind _ = _
    rw [room?_ofCache room, Option.bind_some]
    exact replace?_ofCache (c := { c with evictor }) hc hk a way

end Settle

/-! ## The second stage -/

/-- **The second stage** finds all that it looks for. -/
theorem serve?_ofCache (s : Cache.Settled g μ ν) (op : Access)
    (hreads : s.cache.counters.reads.toNat + 1 < 2 ^ 64)
    (hwrites : s.cache.counters.writes.toNat + 1 < 2 ^ 64) :
    serve? (.ofCache s) op (g.locate op.address).offset (g.locate op.address).index =
      some (answer op s.way s.cycles s.events (s.cache.home op.address),
        .ofCache (s.cache.serveAt op s.way)) := by
  let old := (s.cache.home op.address).get s.way
  let k := (g.locate op.address).offset
  have hword : (Line.ofBlock old).words[(k : Nat)]? = some (old.words.get k) :=
    getElem?_toList old.words k
  have hcounters : (ofCache s.cache).counters.served? op = some (s.cache.counters.served op) :=
    Counters.served?_eq op hreads hwrites
  obtain ⟨j, hreorder⟩ := Line.reorder?_ofRow s.cache.policy
    (setAt (s.cache.home op.address) s.way (op.leave old k)) s.way
  unfold serve?
  show (Option.bind ((ofCache s.cache).sets[_]?) _) = _
  rw [getElem?_sets_ofCache, Option.bind_some]
  show (Option.bind ((Line.ofRow (s.cache.home op.address))[s.way.val]?) _) = _
  rw [Line.getElem?_ofRow, Option.bind_some, hword, Option.bind_some, Line.leave?_ofBlock,
    Option.bind_some]
  show (Option.bind (s.cache.policy.reorder? ((Line.ofRow (s.cache.home op.address)).set s.way.val
    (Line.ofBlock (op.leave old k))) s.way.val) _) = _
  rw [Line.set_ofRow, hreorder, Option.bind_some]
  show (Option.map _ ((ofCache s.cache).counters.served? op)) = _
  rw [hcounters, Option.map_some]
  show some (answer op s.way s.cycles s.events (s.cache.home op.address), ({ ofCache s.cache with
    sets := (ofCache s.cache).sets.set (g.locate op.address).index
      (Line.ofRow (s.cache.servedRow op s.way))
    counters := s.cache.counters.served op } : Machine μ ν)) = _
  rw [set_sets_ofCache]
  rfl

/-! ## Accesses and runs -/

variable [Store μ] [Evictor ν]

/-- **One access** does what it does without types, and fails nowhere. -/
theorem access?_ofCache {c : Cache g μ ν} (hc : c.Sound) (hk : c.counters.Roomy) (op : Access) :
    (ofCache c).access? op = some ((c.access op).1, .ofCache (c.access op).2) := by
  have hserved : (c.settle op.address).cache.counters.reads = c.counters.reads ∧
      (c.settle op.address).cache.counters.writes = c.counters.writes := by
    rcases (c.settling op.address).cost with ⟨-, -, -, hcounters⟩ | ⟨-, -, hcounters⟩
    · rw [hcounters]
      exact ⟨rfl, rfl⟩
    · rw [hcounters]
      exact ⟨rfl, rfl⟩
  have hdecode : (ofCache c).codec.decode? op.address = some (g.fields op.address) :=
    Codec.decode?_eq g op.address
  rw [access?, hdecode, Option.bind_some]
  show ((ofCache c).settle? op.address (g.fields op.address).2.1 (g.fields op.address).2.2).bind
    (serve? · op (g.fields op.address).1.toNat (g.fields op.address).2.1.toNat) = _
  rw [settle?_ofCache hc hk, Option.bind_some,
    show (g.fields op.address).1.toNat = (g.locate op.address).offset from
      g.toNat_ofNat_offset _,
    show (g.fields op.address).2.1.toNat = (g.locate op.address).index from
      g.toNat_ofNat_index _,
    serve?_ofCache _ op (by rw [hserved.1]; exact hk.reads) (by rw [hserved.2]; exact hk.writes)]
  rfl

/-- After a run that leaves room for the cycles of one more access, there is room everywhere. -/
theorem roomy_run (policy : Policy) (m : μ) (e : ν) {past : List Access}
    (h : 50 * (past.length + 1) < UInt64.size) :
    ((Cache.empty g policy m e).run past).2.counters.Roomy := by
  have hroom : missCycles.toNat * past.length < UInt64.size :=
    show 50 * past.length < UInt64.size by omega
  have hexact := Cache.exact_run g policy m e hroom
  have hlen := (Cache.empty g policy m e).length_run past
  have hsize : UInt64.size = 2 ^ 64 := rfl
  have hcycles := (Cache.empty g policy m e).cyclesOf_run past
  have hsplit := readsOf_add_writesOf past
  have hmisses := missesOf_le_length ((Cache.empty g policy m e).run past).1
  have hhits : hitsOf ((Cache.empty g policy m e).run past).1 ≤ _ := List.countP_le_length
  have hbacks : writeBacksOf ((Cache.empty g policy m e).run past).1 ≤ _ := List.countP_le_length
  rw [show missCycles.toNat = 50 from rfl] at hcycles
  constructor
  · rw [hexact.reads]; omega
  · rw [hexact.writes]; omega
  · rw [hexact.hits]; omega
  · rw [hexact.misses]; omega
  · rw [hexact.writeBacks]; omega
  · rw [hexact.cycles]; omega

/-- **A run** goes on without a fault as long as the cycles fit a word. -/
theorem run?_ofCache (policy : Policy) (m : μ) (e : ν) (past ops : List Access)
    (h : 50 * (past.length + ops.length) < UInt64.size) :
    let c := ((Cache.empty g policy m e).run past).2
    (ofCache c).run? ops = some ((c.run ops).1, .ofCache (c.run ops).2) := by
  intro c
  induction ops generalizing past with
  | nil => rfl
  | cons op ops ih =>
    rw [List.length_cons] at h
    have hroomy : c.counters.Roomy := roomy_run policy m e (by omega)
    have hnext : (c.access op).2 = ((Cache.empty g policy m e).run (past ++ [op])).2 := by
      rw [Cache.run_concat]
    have hrest := ih (past ++ [op]) (by rw [List.length_append, List.length_singleton]; omega)
    rw [← hnext] at hrest
    rw [run?, access?_ofCache (Cache.sound_run g policy m e past) hroomy, Option.bind_some]
    show (Option.map _ ((ofCache (c.access op).2).run? ops)) = _
    rw [hrest]
    rfl

/-- **No access fails.**  Whatever three sizes were accepted, they pass the second check.  The
machine of these sizes, with either policy, any evictor and any store, then serves every access of
any program of less than 2³⁵ accesses: no step of it lacks a place to go to or loses a bit on the
way, and no counter goes round.  It answers what the cache answers, and ends as the cache does. -/
theorem run?_of_sizes {ways sets blockBytes : Nat}
    (hg : Geometry.ofSizes ways sets blockBytes = .ok g) (policy : Policy) (m : μ) (e : ν)
    {ops : List Access} (hops : ops.length < 2 ^ 35) :
    lowZeros blockBytes + lowZeros sets < 32 ∧
      ∃ s, ofSizes? ways sets blockBytes policy m e = some s ∧
        s.run? ops = some (((Cache.empty g policy m e).run ops).1,
          .ofCache ((Cache.empty g policy m e).run ops).2) := by
  obtain ⟨rfl, rfl, rfl⟩ := g.ofSizes_eq_ok_iff.mp hg
  refine ⟨?_, _, ofSizes?_eq g policy m e, ?_⟩
  · rw [Codec.lowZeros_blockBytes, Codec.lowZeros_sets]
    exact g.bits_lt
  · have hsize : UInt64.size = 2 ^ 64 := rfl
    exact run?_ofCache policy m e [] ops (by rw [List.length_nil]; omega)

/-- As many sets as there can be, with one bit left for the tag, and at both ends of the address
space a block that has to make room for the other. -/
theorem run?_one_tag_bit :
    ∃ g : Geometry, Geometry.ofSizes 1 (2 ^ 29) 4 = .ok g ∧
      let ops : List Access := [.write 0xffffffff 0xffffffff, .write 0x7ffffffd 1, .read 0xfffffffc]
      ops.length < 2 ^ 35 ∧ lowZeros 4 + lowZeros (2 ^ 29) < 32 ∧
      ∃ s, ofSizes? 1 (2 ^ 29) 4 .random ({} : Memory) (⟨[5]⟩ : Rota) = some s ∧
        s.run? ops = some (((Cache.empty g .random ({} : Memory) (⟨[5]⟩ : Rota)).run ops).1,
          .ofCache ((Cache.empty g .random ({} : Memory) (⟨[5]⟩ : Rota)).run ops).2) := by
  let g : Geometry := ⟨1, 29, 2, by decide, by decide, by decide⟩
  have hg : Geometry.ofSizes 1 (2 ^ 29) 4 = .ok g := g.ofSizes_eq_ok_iff.mpr ⟨rfl, rfl, rfl⟩
  refine ⟨g, hg, by decide, ?_⟩
  exact run?_of_sizes hg .random ({} : Memory) (⟨[5]⟩ : Rota) (by decide)

end Machine

end SetAssoc
