import SetAssoc.Proofs.Changes
import SetAssoc.Proofs.Transfers
import Mathlib
/-!
# The history of one block

Of all that passes between a cache and its memory, look at one block alone.  An access does one of
three things to it (`Sound.fate`): it leaves the block where it is, in the cache or out of it; or it
fetches the block; or it evicts the block and writes it back.  A block evicted without changes
leaves no trace, and it need not: memory has its words.

So a history of fetches and write-backs comes about that obeys a protocol (`Obeys`).  Each
write-back ends what a fetch began, and carries a word that was stored in between; each fetch finds
the words that went back last.  What an access keeps for that is written down in `Linked`.
-/

namespace SetAssoc

universe v

/-- What holds at every place of a list holds at every place of the list with one more element, if
it holds there. -/
theorem forall_split_concat {α : Type v} {P : List α → α → Prop} {l : List α} {e : α}
    (h : ∀ past x later, l = past ++ x :: later → P past x) (he : P l e) :
    ∀ past x later, l ++ [e] = past ++ x :: later → P past x := by
  intro past x later hsplit
  rcases List.eq_nil_or_concat' later with rfl | ⟨later, z, rfl⟩
  · obtain ⟨rfl, hlast⟩ := List.append_inj' hsplit rfl
    cases hlast
    exact he
  · rw [← List.cons_append, ← List.append_assoc] at hsplit
    obtain ⟨rfl, -⟩ := List.append_inj' hsplit rfl
    exact h past x later rfl

/-! ## Journals -/

namespace Journal

variable {g : Geometry}

/-- What a journal says of the block around an address. -/
def only (a : UInt32) (j : Journal g) : Journal g := j.filter fun e => e.2.start = g.blockStart a

/-- What was last written back to an address of the block that a journal is about, or what memory
held in the beginning if nothing was. -/
def stored (m : Memory) (j : Journal g) (x : UInt32) : UInt32 :=
  match (j.filterMap fun e => e.2.returned?).getLast? with
  | some words => words.get (g.locate x).offset
  | none => m.get x

theorem stored_concat_fill (m : Memory) (j : Journal g) (n : Nat) (start : UInt32)
    (words : Vector UInt32 g.blockWords) (x : UInt32) :
    stored m (j ++ [(n, .fill start words)]) x = stored m j x := by
  simp [stored, Transfer.returned?]

theorem stored_concat_writeBack (m : Memory) (j : Journal g) (n : Nat) (start : UInt32)
    (words : Vector UInt32 g.blockWords) (x : UInt32) :
    stored m (j ++ [(n, .writeBack start words)]) x = words.get (g.locate x).offset := by
  simp [stored, Transfer.returned?]

theorem only_append_map (a : UInt32) (j : Journal g) (n : Nat) (ts : List (Transfer g)) :
    only a (j ++ ts.map (n, ·)) =
      only a j ++ (ts.filter fun t => t.start = g.blockStart a).map (n, ·) := by
  rw [only, only, List.filter_append, List.filter_map]
  rfl

end Journal

namespace Cache

variable {g : Geometry} {ν : Type v} [Evictor ν]

/-! ## Memory behind a record -/

section Inner

variable {c : Cache g (Recorded Memory) ν}

omit [Evictor ν] in
theorem inner_fetch (a : UInt32) (m : Recorded Memory) : (fetch g a m).2.inner = m.inner := by
  have hcarry := congrArg Prod.snd (fetch_carry (g := g) Recorded.simulates_inner a m)
  rw [fetch_memory] at hcarry
  exact hcarry.symm

omit [Evictor ν] in
theorem get_words_fetch_recorded (m : Recorded Memory) {a x : UInt32}
    (hblock : g.blockStart x = g.blockStart a) :
    (fetch g a m).1.words.get (g.locate x).offset = m.inner.get x := by
  obtain ⟨hindex, htag⟩ := (g.blockStart_eq_iff x a).mp hblock
  have hcarry := congrArg Prod.fst (fetch_carry (g := g) Recorded.simulates_inner a m)
  rw [← get_words_fetch m.inner hindex htag, hcarry]

omit [Evictor ν] in
/-- Memory after a block went back: the words of that block in its place, and all else as it was. -/
theorem Sound.get_inner_vacate (hc : c.Sound) {a v : UInt32} {way : Fin g.ways}
    (hindex : (g.locate v).index = (g.locate a).index)
    (hcovers : c.Covers ((c.home a).get way) v) (hdirty : ((c.home a).get way).dirty = true)
    (x : UInt32) :
    (c.vacate a way).inner.get x =
      if g.blockStart x = g.blockStart v then ((c.home a).get way).words.get (g.locate x).offset
      else c.store.inner.get x := by
  have hsound : (c.carry Recorded.inner).Sound := hc
  have hvacate := hsound.get_vacate a way x
  rw [vacate_carry Recorded.simulates_inner] at hvacate
  refine hvacate.trans ?_
  by_cases hblock : g.blockStart x = g.blockStart v
  · obtain ⟨hx, htag⟩ := (g.blockStart_eq_iff x v).mp hblock
    rw [if_pos hblock]
    exact if_pos ⟨⟨hcovers.2.1, hdirty⟩, hx.trans hindex, htag.trans hcovers.2.2.symm⟩
  · rw [if_neg hblock]
    apply if_neg
    rintro ⟨-, hx, htag⟩
    exact hblock ((g.blockStart_eq_iff x v).mpr ⟨hx.trans hindex.symm, htag.trans hcovers.2.2⟩)

end Inner

/-! ## One access -/

section Fate

variable (c : Cache g (Recorded Memory) ν) (op : Access) (a : UInt32)

/-- The access stored a word of another value, and the block has it. -/
def Leaves (b : Block g.blockWords) : Prop :=
  ∃ x w, op = .write x w ∧ c.Alters op ∧ b.words.get (g.locate x).offset = w

/-- What becomes of the block around an address, and what of it passes. -/
inductive Fate : List (Transfer g) → Prop
  /-- It stays where it is, or it goes unchanged. -/
  | stays (held : (c.access op).2.Holds a → c.Holds a)
      (covers : ∀ b, (c.access op).2.Covers b a →
        c.Covers b a ∨ g.blockStart op.address = g.blockStart a ∧ c.Leaves op b)
      (memory : ∀ x, g.blockStart x = g.blockStart a →
        (c.access op).2.store.inner.get x = c.store.inner.get x) : Fate []
  /-- It is fetched, as memory has it. -/
  | comes (words : Vector UInt32 g.blockWords) (absent : ¬ c.Holds a)
      (present : (c.access op).2.Holds a)
      (found : ∀ x, g.blockStart x = g.blockStart a →
        words.get (g.locate x).offset = c.store.inner.get x)
      (block : g.blockStart op.address = g.blockStart a)
      (covers : ∀ b, (c.access op).2.Covers b a → b.dirty = true → c.Leaves op b)
      (memory : ∀ x, g.blockStart x = g.blockStart a →
        (c.access op).2.store.inner.get x = c.store.inner.get x) :
      Fate [.fill (g.blockStart a) words]
  /-- It goes, and memory gets its words. -/
  | goes (b : Block g.blockWords) (covers : c.Covers b a) (dirty : b.dirty = true)
      (gone : ¬ (c.access op).2.Holds a)
      (memory : ∀ x, g.blockStart x = g.blockStart a →
        (c.access op).2.store.inner.get x = b.words.get (g.locate x).offset) :
      Fate [.writeBack (g.blockStart a) b.words]

variable {c} {op}

/-- The block accessed is left as it was settled, unless a word of another value was stored in
it. -/
theorem Sound.leave_eq_or_leaves (hc : c.Sound) (op : Access) :
    let b := ((c.settle op.address).cache.home op.address).get (c.settle op.address).way
    let after := op.leave b (g.locate op.address).offset
    after = b ∨ c.Leaves op after := by
  intro b after
  have halters := hc.alters_iff op
  cases op with
  | read x => exact .inl rfl
  | write x w =>
    by_cases hsame : b.words.get (g.locate x).offset = w
    · exact .inl (if_pos hsame)
    · refine .inr ⟨x, w, rfl, halters.mpr ⟨x, w, rfl, hsame⟩, ?_⟩
      show ((Access.write x w).leave b (g.locate x).offset).words.get (g.locate x).offset = w
      rw [Access.get_words_leave_write, if_pos rfl]

/-- What is seen of a block after an access to another one. -/
theorem Sound.covers_access_of_ne (hc : c.Sound)
    (hblock : g.blockStart a ≠ g.blockStart op.address) (b : Block g.blockWords) :
    (c.access op).2.Covers b a ↔ (c.settle op.address).cache.Covers b a := by
  have hs := c.settling op.address
  rw [access_eq, (hc.settling hs).covers_serveAt_iff hs.bears, if_neg hblock]

/-- What is seen of the block accessed. -/
theorem Sound.covers_access_of_eq (hc : c.Sound)
    (hblock : g.blockStart a = g.blockStart op.address) (b : Block g.blockWords) :
    (c.access op).2.Covers b a ↔
      b = op.leave (((c.settle op.address).cache.home op.address).get (c.settle op.address).way)
        (g.locate op.address).offset := by
  have hs := c.settling op.address
  rw [access_eq, (hc.settling hs).covers_serveAt_iff hs.bears, if_pos hblock]

variable {way : Fin g.ways} {evictor : ν}

/-- A fetch leaves memory as clearing the way for it did. -/
theorem inner_access_of_replace
    (hsettle : c.settle op.address = Cache.replace { c with evictor } op.address way) :
    (c.access op).2.store.inner = (c.vacate op.address way).inner := by
  show (c.settle op.address).cache.store.inner = _
  rw [hsettle, store_replace, inner_fetch]
  rfl

/-- A block that is not the one fetched stays where it is, as long as it has not to go. -/
theorem Sound.fate_of_ne (hc : c.Sound) (room : c.Room op.address way evictor)
    (hsettle : c.settle op.address = Cache.replace { c with evictor } op.address way)
    (hblock : g.blockStart a ≠ g.blockStart op.address)
    (hmemory : ∀ x, g.blockStart x = g.blockStart a →
      (c.vacate op.address way).inner.get x = c.store.inner.get x) : c.Fate op a [] := by
  have hcovers : ∀ b, (c.access op).2.Covers b a → c.Covers b a := by
    intro b hb
    rw [hc.covers_access_of_ne a hblock, hsettle,
      Sound.covers_replace_iff (c := { c with evictor }) hc room.not_covers, if_neg hblock] at hb
    exact hb.1
  refine .stays ?_ (fun b hb => .inl (hcovers b hb)) ?_
  · rw [holds_iff_covers, holds_iff_covers]
    exact fun ⟨b, hb⟩ => ⟨b, hcovers b hb⟩
  · intro x hx
    rw [inner_access_of_replace hsettle, hmemory x hx]

/-- The block fetched comes as memory has it. -/
theorem Sound.fate_of_eq (hc : c.Sound) (room : c.Room op.address way evictor)
    (hsettle : c.settle op.address = Cache.replace { c with evictor } op.address way)
    (hblock : g.blockStart a = g.blockStart op.address)
    (hmemory : ∀ x, g.blockStart x = g.blockStart a →
      (c.vacate op.address way).inner.get x = c.store.inner.get x) :
    c.Fate op a
      [.fill (g.blockStart op.address) (fetch g op.address (c.vacate op.address way)).1.words] := by
  have hserved := hc.leave_eq_or_leaves op
  rw [← hblock]
  refine .comes _ ?_ ?_ ?_ hblock.symm ?_ ?_
  · rw [c.holds_congr hblock]
    exact room.not_holds
  · exact (hc.holds_access_iff op a).mpr (.inl hblock)
  · intro x hx
    rw [get_words_fetch_recorded _ (hx.trans hblock), hmemory x hx]
  · intro b hb hdirty
    rw [hc.covers_access_of_eq a hblock] at hb
    subst hb
    refine hserved.resolve_left fun hclean => ?_
    -- the block fetched is clean
    rw [hclean, hsettle, way_replace, home_replace, get_setAt_self] at hdirty
    cases hdirty
  · intro x hx
    rw [inner_access_of_replace hsettle, hmemory x hx]

/-- A block evicted with changes goes back to memory. -/
theorem Sound.fate_of_evicted (hc : c.Sound) (room : c.Room op.address way evictor)
    (hsettle : c.settle op.address = Cache.replace { c with evictor } op.address way)
    (hindex : (g.locate a).index = (g.locate op.address).index)
    (hcovers : c.Covers ((c.home op.address).get way) a)
    (hdirty : ((c.home op.address).get way).dirty = true) :
    c.Fate op a [.writeBack (g.blockStart a) ((c.home op.address).get way).words] := by
  have hblock : g.blockStart a ≠ g.blockStart op.address :=
    fun hblock => room.not_covers _ ((c.covers_congr hblock _).mp hcovers)
  refine .goes _ hcovers hdirty ?_ ?_
  · rw [holds_iff_covers]
    rintro ⟨b, hb⟩
    rw [hc.covers_access_of_ne a hblock, hsettle,
      Sound.covers_replace_iff (c := { c with evictor }) hc room.not_covers, if_neg hblock] at hb
    exact hb.2 hindex (hc.eq_of_covers hb.1 hcovers)
  · intro x hx
    rw [inner_access_of_replace hsettle, hc.get_inner_vacate hindex hcovers hdirty, if_pos hx]

/-- A hit moves no block. -/
theorem Sound.fate_of_hit (hc : c.Sound)
    (found : findTag (c.home op.address) (g.locate op.address).tag = .hit way)
    (hway : (c.settle op.address).way = way)
    (hcache : (c.settle op.address).cache = { c with counters := c.counters.hit }) :
    c.Fate op a [] := by
  have hserved := hc.leave_eq_or_leaves op
  rw [hway, hcache] at hserved
  refine .stays ?_ ?_ ?_
  · rw [hc.holds_access_iff, hcache]
    rintro (hblock | hbefore)
    · exact (c.holds_congr hblock).mpr (holds_of_found found)
    · exact hbefore
  · intro b hb
    by_cases hblock : g.blockStart a = g.blockStart op.address
    · rw [hc.covers_access_of_eq a hblock, hway, hcache] at hb
      subst hb
      refine hserved.imp (fun hsame => ?_) fun hleaves => ⟨hblock.symm, hleaves⟩
      rw [hsame, c.covers_congr hblock]
      exact covers_of_bears (bears_of_findTag_hit found)
    · rw [hc.covers_access_of_ne a hblock, hcache] at hb
      exact .inl hb
  · intro x _
    show (c.settle op.address).cache.store.inner.get x = _
    rw [hcache]

/-- **One access and one block.** -/
theorem Sound.fate (hc : c.Sound) (op : Access) (a : UInt32) :
    c.Fate op a ((c.passed op).filter fun t => t.start = g.blockStart a) := by
  have hpassing := (hc.passing op).1
  generalize hsettle : c.settle op.address = s at hpassing
  generalize c.passed op = ts at hpassing
  cases hpassing with
  | hit way found => exact hc.fate_of_hit a found (by rw [hsettle]) (by rw [hsettle])
  | fetched way evictor room fresh =>
    have hvacate : c.vacate op.address way = c.store := vacate_of_fresh fresh
    by_cases hblock : g.blockStart a = g.blockStart op.address
    · have hfate := hc.fate_of_eq a room hsettle hblock fun x _ => by rw [hvacate]
      rw [hvacate] at hfate
      simpa [Transfer.start, hblock] using hfate
    · have hfate := hc.fate_of_ne a room hsettle hblock fun x _ => by rw [hvacate]
      simpa [Transfer.start, Ne.symm hblock] using hfate
  | exchanged way evictor room v hindex hcovers hdirty =>
    -- the block that goes is not the one that comes, and memory is left alone but for that block
    have hne : g.blockStart v ≠ g.blockStart op.address :=
      fun hblock => room.not_covers _ ((c.covers_congr hblock _).mp hcovers)
    have hmemory : ∀ x, g.blockStart x ≠ g.blockStart v →
        (c.vacate op.address way).inner.get x = c.store.inner.get x := by
      intro x hx
      rw [hc.get_inner_vacate hindex hcovers hdirty, if_neg hx]
    by_cases hblock : g.blockStart a = g.blockStart op.address
    · have hfate := hc.fate_of_eq a room hsettle hblock fun x hx =>
        hmemory x fun hv => hne (hv.symm.trans (hx.trans hblock))
      simpa [Transfer.start, hblock, hne] using hfate
    · by_cases hgone : g.blockStart a = g.blockStart v
      · have hfate := hc.fate_of_evicted a room hsettle
          (((g.blockStart_eq_iff a v).mp hgone).1.trans hindex)
          ((c.covers_congr hgone _).mpr hcovers) hdirty
        simpa [Transfer.start, ← hgone, Ne.symm hblock] using hfate
      · have hfate := hc.fate_of_ne a room hsettle hblock fun x hx =>
          hmemory x fun hv => hgone (hx.symm.trans hv)
        simpa [Transfer.start, Ne.symm hblock, Ne.symm hgone] using hfate

end Fate

/-! ## Runs -/

section Run

variable (c : Cache g (Recorded Memory) ν) (ops : List Access) (m : Memory) (a : UInt32)

/-- Access number `k` of a run, or one after it and before number `n`, stored a word of another
value in the block around an address, and these words have it. -/
def StoredBetween (k n : Nat) (words : Vector UInt32 g.blockWords) : Prop :=
  ∃ i x w, k ≤ i ∧ i < n ∧ ops[i]? = some (.write x w) ∧ g.blockStart x = g.blockStart a ∧
    (c.run (ops.take i)).2.Alters (.write x w) ∧ words.get (g.locate x).offset = w

/-- What is so when a block is fetched by access number `n` of a run, and `past` is what passed of
it. -/
structure FetchedAfter (past : Journal g) (n : Nat) (words : Vector UInt32 g.blockWords) :
    Prop where
  /-- The block was not in the cache. -/
  absent : ¬ (c.run (ops.take n)).2.Holds a
  /-- It is now. -/
  present : (c.run (ops.take (n + 1))).2.Holds a
  /-- The words are those that went back last, or else those of the beginning. -/
  recalled : ∀ x, g.blockStart x = g.blockStart a →
    words.get (g.locate x).offset = past.stored m x

/-- What is so when a block is written back by access number `n` of a run, and `past` is what passed
of it. -/
structure ReturnedAfter (past : Journal g) (n : Nat) (words : Vector UInt32 g.blockWords) :
    Prop where
  /-- The block was in the cache. -/
  present : (c.run (ops.take n)).2.Holds a
  /-- It is not any more. -/
  gone : ¬ (c.run (ops.take (n + 1))).2.Holds a
  /-- It was fetched, and nothing of it passed since then.  A word was stored in it meanwhile,
  another one than was there, and goes back now. -/
  since : ∃ earlier k fetched, past = earlier ++ [(k, .fill (g.blockStart a) fetched)] ∧
    c.StoredBetween ops a k n words

/-- What the protocol asks when a block passes. -/
def Obeys (past : Journal g) : Nat × Transfer g → Prop
  | (n, .fill _ words) => c.FetchedAfter ops m a past n words
  | (n, .writeBack _ words) => c.ReturnedAfter ops a past n words

/-- What links a block to its history after `n` accesses of a run. -/
structure Linked (n : Nat) : Prop where
  /-- Memory has the words that went back last. -/
  memory : ∀ x, g.blockStart x = g.blockStart a →
    (c.run (ops.take n)).2.store.inner.get x =
      ((c.journal (ops.take n)).only a).stored m x
  /-- A block in the cache was fetched last, and a word stored in it since then makes it dirty. -/
  held : (c.run (ops.take n)).2.Holds a → ∃ earlier k fetched, k < n ∧
    (c.journal (ops.take n)).only a = earlier ++ [(k, .fill (g.blockStart a) fetched)] ∧
      ∀ b, (c.run (ops.take n)).2.Covers b a → b.dirty = true →
        c.StoredBetween ops a k n b.words
  /-- So far all went by the protocol. -/
  obeys : ∀ past e later, (c.journal (ops.take n)).only a = past ++ e :: later →
    c.Obeys ops m a past e

variable {c} {ops} {a} {m} {n : Nat} {op : Access}

theorem StoredBetween.succ {k : Nat} {words : Vector UInt32 g.blockWords}
    (h : c.StoredBetween ops a k n words) : c.StoredBetween ops a k (n + 1) words := by
  obtain ⟨i, x, w, hk, hn, hrest⟩ := h
  exact ⟨i, x, w, hk, Nat.lt_succ_of_lt hn, hrest⟩

theorem Leaves.storedBetween {b : Block g.blockWords} {k : Nat} (hk : k ≤ n)
    (hop : ops[n]? = some op) (hblock : g.blockStart op.address = g.blockStart a)
    (h : (c.run (ops.take n)).2.Leaves op b) : c.StoredBetween ops a k (n + 1) b.words := by
  obtain ⟨x, w, rfl, halters, hword⟩ := h
  exact ⟨n, x, w, hk, Nat.lt_succ_self n, hop, hblock, halters, hword⟩

/-- **One access** goes by the protocol and keeps the links. -/
theorem Linked.succ (h : c.Linked ops m a n) (hop : ops[n]? = some op)
    (hsound : (c.run (ops.take n)).2.Sound) : c.Linked ops m a (n + 1) := by
  obtain ⟨hlt, hget⟩ := List.getElem?_eq_some_iff.mp hop
  have htake : ops.take (n + 1) = ops.take n ++ [op] := by
    rw [List.take_add_one, hop]
    rfl
  have hrun : (c.run (ops.take (n + 1))).2 = ((c.run (ops.take n)).2.access op).2 := by
    rw [htake, run_concat]
  have hjournal : (c.journal (ops.take (n + 1))).only a = (c.journal (ops.take n)).only a ++
      (((c.run (ops.take n)).2.passed op).filter fun t => t.start = g.blockStart a).map (n, ·) := by
    rw [htake, journal_concat, Journal.only_append_map, List.length_take_of_le (Nat.le_of_lt hlt)]
  have hfate := hsound.fate op a
  generalize (((c.run (ops.take n)).2.passed op).filter fun t => t.start = g.blockStart a) = ts
    at hjournal hfate
  cases hfate with
  | stays held covers memory =>
    rw [List.map_nil, List.append_nil] at hjournal
    refine ⟨?_, ?_, ?_⟩
    · intro x hx
      rw [hrun, hjournal, memory x hx, h.memory x hx]
    · rw [hrun, hjournal]
      intro hafter
      obtain ⟨earlier, k, fetched, hk, hlast, hstored⟩ := h.held (held hafter)
      refine ⟨earlier, k, fetched, Nat.lt_succ_of_lt hk, hlast, ?_⟩
      intro b hb hdirty
      rcases covers b hb with hbefore | ⟨hblock, hleaves⟩
      · exact (hstored b hbefore hdirty).succ
      · exact hleaves.storedBetween (Nat.le_of_lt hk) hop hblock
    · rw [hjournal]
      exact h.obeys
  | comes words absent present found block covers memory =>
    rw [List.map_singleton] at hjournal
    have hrecalled : ∀ x, g.blockStart x = g.blockStart a → words.get (g.locate x).offset =
        ((c.journal (ops.take n)).only a).stored m x := by
      intro x hx
      rw [found x hx, h.memory x hx]
    refine ⟨?_, ?_, ?_⟩
    · intro x hx
      rw [hrun, hjournal, memory x hx, h.memory x hx, Journal.stored_concat_fill]
    · rw [hrun, hjournal]
      intro _
      refine ⟨_, n, words, Nat.lt_succ_self n, rfl, ?_⟩
      intro b hb hdirty
      exact (covers b hb hdirty).storedBetween (Nat.le_refl n) hop block
    · rw [hjournal]
      exact forall_split_concat h.obeys ⟨absent, hrun ▸ present, hrecalled⟩
  | goes b covers dirty gone memory =>
    rw [List.map_singleton] at hjournal
    have hheld := (holds_iff_covers _ a).mpr ⟨b, covers⟩
    obtain ⟨earlier, k, fetched, -, hlast, hstored⟩ := h.held hheld
    refine ⟨?_, ?_, ?_⟩
    · intro x hx
      rw [hrun, hjournal, memory x hx, Journal.stored_concat_writeBack]
    · rw [hrun]
      exact fun hafter => absurd hafter gone
    · rw [hjournal]
      exact forall_split_concat h.obeys
        ⟨hheld, hrun ▸ gone, earlier, k, fetched, hlast, hstored b covers dirty⟩

end Run

/-- **A run** goes by the protocol. -/
theorem linked_run (g : Geometry) (policy : Policy) (m : Memory) (e : ν) (ops : List Access)
    (a : UInt32) {n : Nat} (hn : n ≤ ops.length) :
    (empty g policy ({ inner := m } : Recorded Memory) e).Linked ops m a n := by
  induction n with
  | zero =>
    refine ⟨fun x _ => rfl, ?_, ?_⟩
    · exact fun hholds => absurd hholds (not_holds_empty g policy _ e a)
    · intro past e later hsplit
      cases past <;> cases hsplit
  | succ n ih =>
    have hop : ops[n]? = some ops[n] := List.getElem?_eq_getElem hn
    exact (ih (Nat.le_of_lt hn)).succ hop (sound_run g policy _ e (ops.take n))

/-- **The protocol of a block.**  Whatever is accessed through a fresh cache in front of a recorded
memory, the record is a list of whole blocks that pass, and can be cut into them in this way alone.
What passes of one block obeys the protocol:

* a fetch finds the block out of the cache and puts it there, and it reads the words of the last
  write-back of the block, or those of the beginning if there was none;
* a write-back finds the block in the cache and takes it out, what passed of the block right before
  was a fetch, and it writes a word that an access since then stored in place of another one. -/
theorem protocol_of_run (g : Geometry) (policy : Policy) (m : Memory) (e : ν)
    (ops : List Access) :
    let c := empty g policy ({ inner := m } : Recorded Memory) e
    let record := (c.run ops).2.store.calls.toList
    let journal := c.journal ops
    record = (journal.map Prod.snd).flatMap Transfer.calls ∧
    Transfer.group g record = journal.map Prod.snd ∧
    ∀ a past passing later, journal.only a = past ++ passing :: later →
      c.Obeys ops m a past passing := by
  intro c record journal
  have hrecord : record = (journal.map Prod.snd).flatMap Transfer.calls :=
    calls_run g policy m e ops
  refine ⟨hrecord, ?_, ?_⟩
  · rw [hrecord, Transfer.group_flatMap_calls]
  · intro a
    have hobeys := (linked_run g policy m e ops a (Nat.le_refl _)).obeys
    rw [List.take_length] at hobeys
    exact hobeys

/-- Room for a single word.  Its block is changed, has to go, and comes back. -/
theorem protocol_of_run_changed_block :
    let g : Geometry := ⟨1, 0, 2, by decide, by decide, by decide⟩
    let c := empty g .leastRecentlyUsed ({ inner := {} } : Recorded Memory) (⟨[]⟩ : Rota)
    let ops : List Access := [.write 0 7, .read 4, .read 0]
    (c.journal ops).only 0 = [(0, .fill 0 #v[0]), (1, .writeBack 0 #v[7]), (2, .fill 0 #v[7])] ∧
    c.ReturnedAfter ops 0 [(0, .fill 0 #v[0])] 1 #v[7] ∧
    c.FetchedAfter ops {} 0 [(0, .fill 0 #v[0]), (1, .writeBack 0 #v[7])] 2 #v[7] := by
  intro g c ops
  have hjournal : (c.journal ops).only 0 =
      [(0, .fill 0 #v[0]), (1, .writeBack 0 #v[7]), (2, .fill 0 #v[7])] := by cbv
  have hobeys := (protocol_of_run g .leastRecentlyUsed {} (⟨[]⟩ : Rota) ops).2.2 0
  exact ⟨hjournal, hobeys [(0, .fill 0 #v[0])] (1, .writeBack 0 #v[7]) _ hjournal,
    hobeys [(0, .fill 0 #v[0]), (1, .writeBack 0 #v[7])] (2, .fill 0 #v[7]) [] hjournal⟩

end Cache

end SetAssoc
