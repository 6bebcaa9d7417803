import SetAssoc.Proofs.Invariant
import SetAssoc.Proofs.Totals
import SetAssoc.Store.Recorded
import Mathlib
/-!
# Calls to the store

In front of a recorded store, what a cache asks for can be read off the record.  Runs of calls add
to the record in their order, one call for each word.  A hit adds nothing.  A miss adds the writes
of the block that has to go, if that block has changes, and after them the reads of the block that
comes (`Settling.calls`); both go through their block from its first word to its last.
-/

namespace SetAssoc

universe u v

/-- The address that a call goes to. -/
def Call.address : Call → UInt32
  | .read a _ => a
  | .write a _ => a

/-! ## The calls for one block -/

namespace Geometry

variable (g : Geometry)

/-- The calls that write a block of set `index` back: each word to its address, in ascending
order. -/
def writing (index : Fin g.sets) (b : Block g.blockWords) : List Call :=
  (List.finRange g.blockWords).map fun k =>
    .write (g.assemble (.ofNat k.val) (.ofNat index) b.tag) (b.words.get k)

/-- The calls that read the block around an address, in ascending order, when they are answered with
`words`. -/
def reading (a : UInt32) (words : Vector UInt32 g.blockWords) : List Call :=
  (List.finRange g.blockWords).map fun k =>
    .read (g.blockStart a + 4 * .ofNat k.val) (words.get k)

theorem writing_eq (index : Fin g.sets) (b : Block g.blockWords) :
    g.writing index b =
      ((g.wordsOf index b.tag).zip b.words.toList).map fun w => .write w.1 w.2 := by
  rw [wordsOf, ← List.map_coe_finRange_eq_range, List.map_map, toList_eq_map_get b.words,
    List.zip_map', List.map_map]
  rfl

theorem reading_eq (a : UInt32) (words : Vector UInt32 g.blockWords) :
    g.reading a words =
      ((g.wordsFrom (g.blockStart a)).zip words.toList).map fun w => .read w.1 w.2 := by
  rw [wordsFrom, ← List.map_coe_finRange_eq_range, List.map_map, toList_eq_map_get words,
    List.zip_map', List.map_map]
  rfl

/-- Blocks are written back at addresses of whole words. -/
theorem aligned_of_mem_writing {index : Fin g.sets} {b : Block g.blockWords}
    (ht : b.tag.toNat < g.tags) {call : Call} (h : call ∈ g.writing index b) :
    4 ∣ call.address.toNat := by
  obtain ⟨k, -, rfl⟩ := List.mem_map.mp h
  exact Location.four_dvd_toNat_address ⟨k, index, b.tag⟩ ht

/-- Blocks are read at addresses of whole words. -/
theorem aligned_of_mem_reading {a : UInt32} {words : Vector UInt32 g.blockWords} {call : Call}
    (h : call ∈ g.reading a words) : 4 ∣ call.address.toNat := by
  obtain ⟨k, -, rfl⟩ := List.mem_map.mp h
  show 4 ∣ (g.blockStart a + 4 * UInt32.ofNat k).toNat
  rw [← g.address_eq_blockStart_add]
  exact Location.four_dvd_toNat_address ⟨k, _, _⟩ (g.tag_locate_lt a)

/-- Writing a block reads nothing. -/
theorem readAddresses_writing (index : Fin g.sets) (b : Block g.blockWords) :
    (g.writing index b).filterMap Call.readAddress? = [] := by
  rw [List.filterMap_eq_nil_iff]
  intro call hcall
  obtain ⟨k, -, rfl⟩ := List.mem_map.mp hcall
  rfl

theorem readAddresses_reading (a : UInt32) (words : Vector UInt32 g.blockWords) :
    (g.reading a words).filterMap Call.readAddress? = g.wordsFrom (g.blockStart a) := by
  rw [wordsFrom, ← List.map_coe_finRange_eq_range, List.map_map, reading, List.filterMap_map]
  exact congrFun List.filterMap_eq_map' _

theorem writeAddresses_writing (index : Fin g.sets) (b : Block g.blockWords) :
    (g.writing index b).filterMap Call.writeAddress? = g.wordsOf index b.tag := by
  rw [wordsOf, ← List.map_coe_finRange_eq_range, List.map_map, writing, List.filterMap_map]
  exact congrFun List.filterMap_eq_map' _

/-- Reading a block writes nothing. -/
theorem writeAddresses_reading (a : UInt32) (words : Vector UInt32 g.blockWords) :
    (g.reading a words).filterMap Call.writeAddress? = [] := by
  rw [List.filterMap_eq_nil_iff]
  intro call hcall
  obtain ⟨k, -, rfl⟩ := List.mem_map.mp hcall
  rfl

end Geometry

/-! ## Runs of calls -/

namespace Recorded

variable {μ : Type u} [Store μ]

/-- Every word read is recorded with the answer. -/
theorem calls_readAll (m : Recorded μ) (as : List UInt32) :
    (Store.readAll m as).2.calls.toList =
      m.calls.toList ++ (as.zip (Store.readAll m as).1).map fun w => .read w.1 w.2 := by
  induction as generalizing m with
  | nil => exact (List.append_nil _).symm
  | cons a as ih =>
    rw [Store.readAll]
    show (Store.readAll (Store.read m a).2 as).2.calls.toList = _
    rw [ih]
    simp [Store.read]

/-- Every word written is recorded. -/
theorem calls_writeAll (m : Recorded μ) (ws : List (UInt32 × UInt32)) :
    (Store.writeAll m ws).calls.toList =
      m.calls.toList ++ ws.map fun w => .write w.1 w.2 := by
  induction ws generalizing m with
  | nil => exact (List.append_nil _).symm
  | cons w ws ih =>
    show (Store.writeAll (Store.write m w.1 w.2) ws).calls.toList = _
    rw [ih]
    simp [Store.write]

end Recorded

namespace Cache

variable {g : Geometry} {μ : Type u} {ν : Type v} [Store μ]

/-- **What clearing a way asks for:** the words of the block there, if it has changes. -/
theorem calls_vacate (c : Cache g (Recorded μ) ν) (a : UInt32) (way : Fin g.ways) :
    (c.vacate a way).calls.toList = c.store.calls.toList ++
      if ((c.home a).get way).valid && ((c.home a).get way).dirty then
        g.writing (g.locate a).index ((c.home a).get way)
      else [] := by
  simp only [vacate]
  split
  · rw [writeBack, Recorded.calls_writeAll, g.writing_eq]
  · rw [List.append_nil]

/-- **What fetching a block asks for:** its words. -/
theorem calls_fetch (a : UInt32) (m : Recorded μ) :
    (fetch g a m).2.calls.toList = m.calls.toList ++ g.reading a (fetch g a m).1.words := by
  show (Store.readAll m _).2.calls.toList = _
  rw [Recorded.calls_readAll, g.reading_eq]
  rfl

/-- The calls of a miss that fetches the block around an address into a way. -/
def exchange (c : Cache g (Recorded μ) ν) (a : UInt32) (way : Fin g.ways) : List Call :=
  let old := (c.home a).get way
  (if old.valid && old.dirty then g.writing (g.locate a).index old else []) ++
    g.reading a (fetch g a (c.vacate a way)).1.words

theorem calls_replace (c : Cache g (Recorded μ) ν) (a : UInt32) (way : Fin g.ways) :
    (c.replace a way).cache.store.calls.toList = c.store.calls.toList ++ c.exchange a way := by
  rw [store_replace, calls_fetch, calls_vacate, List.append_assoc]
  rfl

/-- An exchange goes to whole words. -/
theorem Sound.aligned_of_mem_exchange {c : Cache g (Recorded μ) ν} (hc : c.Sound) {a : UInt32}
    {way : Fin g.ways} {call : Call} (h : call ∈ c.exchange a way) : 4 ∣ call.address.toNat := by
  simp only [exchange, List.mem_append] at h
  rcases h with h | h
  · split at h
    · next hstale =>
      rw [Bool.and_eq_true] at hstale
      exact g.aligned_of_mem_writing ((hc _).tag_lt _ (get_mem_toList _ way) hstale.1) h
    · cases h
  · exact g.aligned_of_mem_reading h

theorem readAddresses_replace (c : Cache g (Recorded μ) ν) (a : UInt32) (way : Fin g.ways) :
    (c.replace a way).cache.store.readAddresses =
      c.store.readAddresses ++ g.wordsFrom (g.blockStart a) := by
  simp only [Recorded.readAddresses, calls_replace, exchange, List.filterMap_append,
    g.readAddresses_reading]
  split
  · rw [g.readAddresses_writing, List.nil_append]
  · rw [List.filterMap_nil, List.nil_append]

theorem length_writeAddresses_replace (c : Cache g (Recorded μ) ν) (a : UInt32)
    (way : Fin g.ways) :
    (c.replace a way).cache.store.writeAddresses.length = c.store.writeAddresses.length +
      g.blockWords * ((c.replace a way).events.any Event.isWriteBack).toNat := by
  simp only [Recorded.writeAddresses, calls_replace, exchange, List.filterMap_append,
    g.writeAddresses_reading, List.append_nil, any_isWriteBack_replace, List.length_append]
  cases ((c.home a).get way).valid && ((c.home a).get way).dirty with
  | false => rfl
  | true =>
    rw [if_pos rfl, g.writeAddresses_writing, g.length_wordsOf, Bool.toNat_true, Nat.mul_one]

variable [Evictor ν]

/-- **What an access reads** is the block around its address, unless that was there. -/
theorem readAddresses_access (c : Cache g (Recorded μ) ν) (op : Access) :
    (c.access op).2.store.readAddresses = c.store.readAddresses ++
      if c.Holds op.address then [] else g.wordsFrom (g.blockStart op.address) := by
  have hs := c.settling op.address
  show (c.settle op.address).cache.store.readAddresses = _
  generalize c.settle op.address = s at hs
  cases hs with
  | hit way found => rw [if_pos (holds_of_found found), List.append_nil]
  | miss way evictor room =>
    rw [if_neg room.not_holds]
    exact readAddresses_replace { c with evictor } op.address way

/-- **The words fetched** in a run are so many times the misses. -/
theorem length_readAddresses_run (c : Cache g (Recorded μ) ν) (ops : List Access) :
    (c.run ops).2.store.readAddresses.length =
      c.store.readAddresses.length + g.blockWords * missesOf (c.run ops).1 := by
  induction ops generalizing c with
  | nil => rfl
  | cons op ops ih =>
    rw [run_cons, missesOf_cons, ih, readAddresses_access, missesOf_access, List.length_append,
      Nat.mul_add, Nat.add_assoc]
    split
    · rfl
    · rw [Geometry.length_wordsFrom, Nat.mul_one]

/-- **What an access writes** is as many words as a block has, if it sends one back. -/
theorem length_writeAddresses_access (c : Cache g (Recorded μ) ν) (op : Access) :
    (c.access op).2.store.writeAddresses.length =
      c.store.writeAddresses.length + g.blockWords * writeBacksOf [(c.access op).1] := by
  have hs := c.settling op.address
  rw [writeBacksOf_access]
  show (c.settle op.address).cache.store.writeAddresses.length = _
  generalize c.settle op.address = s at hs
  cases hs with
  | hit way found => rfl
  | miss way evictor room => exact length_writeAddresses_replace { c with evictor } op.address way

/-- **The words written back** in a run are so many times the blocks that went back. -/
theorem length_writeAddresses_run (c : Cache g (Recorded μ) ν) (ops : List Access) :
    (c.run ops).2.store.writeAddresses.length =
      c.store.writeAddresses.length + g.blockWords * writeBacksOf (c.run ops).1 := by
  induction ops generalizing c with
  | nil => rfl
  | cons op ops ih =>
    rw [run_cons, writeBacksOf_cons, ih, length_writeAddresses_access, Nat.mul_add, Nat.add_assoc]

/-! ## The calls of an access -/

theorem Settling.calls {c : Cache g (Recorded μ) ν} {a : UInt32} {s : Settled g (Recorded μ) ν}
    (hs : c.Settling a s) :
    (s.cycles = hitCycles ∧ s.cache.store = c.store) ∨
      (s.cycles = missCycles ∧ ∃ way, c.Room a way s.cache.evictor ∧
        s.cache.store.calls.toList = c.store.calls.toList ++ c.exchange a way) := by
  cases hs with
  | hit way found => exact Or.inl ⟨rfl, rfl⟩
  | miss way evictor room =>
    exact Or.inr ⟨rfl, way, room, calls_replace { c with evictor } a way⟩

/-- **What an access asks of the store.**  An access that is free asks for nothing.  Any other takes
50 cycles and exchanges the block in one way for its own: the first free way, or else the one that
the policy gives up.  If the block there has changes, its words are written, in ascending order, to
the words of one block of the same set, which is not the block that comes; then the words of that
one are read, in ascending order.  All calls go to whole words. -/
theorem calls_of_access {c : Cache g (Recorded μ) ν} (hc : c.Reachable) (op : Access) :
    let a := op.address
    let index := (g.locate a).index
    ∃ made : List Call,
      (c.access op).2.store.calls.toList = c.store.calls.toList ++ made ∧
      (∀ call ∈ made, 4 ∣ call.address.toNat) ∧
      (((c.access op).1.cycles = 0 ∧ made = []) ∨
        ((c.access op).1.cycles = 50 ∧ ∃ way, c.Room a way (c.access op).2.evictor ∧
          let old := (c.home a).get way
          made = (if old.valid && old.dirty then g.writing index old else []) ++
            g.reading a (fetch g a (c.vacate a way)).1.words ∧
          (old.valid = true →
            old.tag ≠ (g.locate a).tag ∧
            ∃ start : UInt32, g.blockBytes ∣ start.toNat ∧ (g.locate start).index = index ∧
              ∀ k : Fin g.blockWords,
                (g.assemble (.ofNat k.val) (.ofNat index) old.tag).toNat =
                  start.toNat + 4 * k))) := by
  intro a index
  have hcalls := (c.settling a).calls
  rcases hcalls with ⟨hcycles, hstore⟩ | ⟨hcycles, way, room, hcalls⟩
  · refine ⟨[], ?_, by simp, Or.inl ⟨hcycles, rfl⟩⟩
    rw [List.append_nil, ← hstore]
    rfl
  · refine ⟨c.exchange a way, hcalls, fun call h => hc.sound.aligned_of_mem_exchange h, Or.inr ?_⟩
    refine ⟨hcycles, way, room, rfl, ?_⟩
    intro hvalid
    have hmem : (c.home a).get way ∈ (c.home a).toList := get_mem_toList _ way
    refine ⟨fun htag => room.not_bears _ hmem ⟨hvalid, htag⟩, ?_⟩
    obtain ⟨start, hstart, hindex, -, hwords⟩ :=
      g.exists_start index ((hc.sound index).tag_lt _ hmem hvalid)
    exact ⟨start, hstart, hindex, hwords⟩

/-- Room for one block of two words: the block with the change goes, and the next one comes. -/
theorem calls_of_access_evicting :
    let c := ((empty ⟨1, 0, 3, by decide, by decide, by decide⟩ .leastRecentlyUsed
      ({ inner := {} } : Recorded Memory) (⟨[]⟩ : Rota)).run [.write 0 7]).2
    ∃ made : List Call,
      (c.access (.read 9)).2.store.calls.toList = c.store.calls.toList ++ made ∧
      (∀ call ∈ made, 4 ∣ call.address.toNat) ∧
      made = [.write 0 7, .write 4 0, .read 8 0, .read 12 0] := by
  intro c
  obtain ⟨made, hmade, haligned, -⟩ :=
    calls_of_access (reachable_run _ .leastRecentlyUsed ({ inner := {} } : Recorded Memory)
      (⟨[]⟩ : Rota) [.write 0 7]) (.read 9)
  have hbefore : c.store.calls.toList = [.read 0 0, .read 4 0] := by cbv
  have hafter : (c.access (.read 9)).2.store.calls.toList =
      [.read 0 0, .read 4 0] ++ [.write 0 7, .write 4 0, .read 8 0, .read 12 0] := by cbv
  refine ⟨made, hmade, haligned, ?_⟩
  have hsplit := hmade
  rw [hafter, hbefore] at hsplit
  exact (List.append_cancel_left hsplit).symm

end Cache

end SetAssoc
