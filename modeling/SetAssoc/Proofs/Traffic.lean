import SetAssoc.Proofs.Invariant
/-!
# Whole blocks to and from memory

Between a cache and its memory pass whole blocks, word by word.  Seen from memory, writing a block
back replaces the words at the addresses with the block's index and tag, each by the word of the
block at its offset, and nothing else (`get_writeBack`); clearing a way for another block does so
if the block there has changes (`Sound.get_vacate`).  Seen from the cache, a block fetched holds
at every offset what memory holds at the address with that offset (`get_words_fetch`).
-/

namespace SetAssoc

universe v

theorem wordAddress_wordAddress (a : UInt32) : wordAddress (wordAddress a) = wordAddress a := by
  rw [← UInt32.toNat_inj, Geometry.toNat_wordAddress, Geometry.toNat_wordAddress]
  omega

namespace Location

variable {g : Geometry}

/-- The address of a word lies in the word with that address alone. -/
theorem wordAddress_address_eq_iff (l : Location g) (ht : l.tag.toNat < g.tags) (a : UInt32) :
    wordAddress l.address = wordAddress a ↔ l = g.locate a := by
  rw [← g.locate_eq_iff, g.locate_address l ht]

end Location

/-! ## Runs of calls to a memory -/

namespace Memory

theorem get_congr (m : Memory) {a b : UInt32} (h : wordAddress a = wordAddress b) :
    m.get a = m.get b := by
  rw [get, get, h]

theorem get_wordAddress (m : Memory) (a : UInt32) : m.get (wordAddress a) = m.get a :=
  m.get_congr (wordAddress_wordAddress a)

/-- Reading leaves memory alone, so the words read do not depend on the order. -/
theorem readAll_eq (m : Memory) (as : List UInt32) : Store.readAll m as = (as.map m.get, m) := by
  induction as with
  | nil => rfl
  | cons a as ih =>
    rw [Store.readAll]
    show (m.get a :: (Store.readAll m as).1, (Store.readAll m as).2) = _
    rw [ih]
    rfl

theorem writeAll_cons (m : Memory) (w : UInt32 × UInt32) (ws : List (UInt32 × UInt32)) :
    Store.writeAll m (w :: ws) = Store.writeAll (m.set w.1 w.2) ws := rfl

/-- Words that no write goes to keep what they hold. -/
theorem get_writeAll_of_ne {a : UInt32} {ws : List (UInt32 × UInt32)} (m : Memory)
    (h : ∀ w ∈ ws, wordAddress w.1 ≠ wordAddress a) : (Store.writeAll m ws).get a = m.get a := by
  induction ws generalizing m with
  | nil => rfl
  | cons w ws ih =>
    rw [writeAll_cons, ih _ fun w hw => h w (List.mem_cons_of_mem _ hw), get_set,
      if_neg (h w List.mem_cons_self)]

/-- A word that all writes to it agree on holds that value afterwards, whatever their order. -/
theorem get_writeAll_of_mem {a v : UInt32} {ws : List (UInt32 × UInt32)} (m : Memory)
    (hmem : ∃ w ∈ ws, wordAddress w.1 = wordAddress a)
    (hagree : ∀ w ∈ ws, wordAddress w.1 = wordAddress a → w.2 = v) :
    (Store.writeAll m ws).get a = v := by
  induction ws generalizing m with
  | nil =>
    obtain ⟨w, hw, -⟩ := hmem
    cases hw
  | cons w ws ih =>
    have hagree' : ∀ w ∈ ws, wordAddress w.1 = wordAddress a → w.2 = v :=
      fun w hw => hagree w (List.mem_cons_of_mem _ hw)
    rw [writeAll_cons]
    by_cases hlater : ∃ w ∈ ws, wordAddress w.1 = wordAddress a
    · exact ih _ hlater hagree'
    · -- no later write goes to this word, so the first one does, and stays
      have hlast : ∀ w ∈ ws, wordAddress w.1 ≠ wordAddress a :=
        fun w hw hwa => hlater ⟨w, hw, hwa⟩
      have hfirst : wordAddress w.1 = wordAddress a := by
        obtain ⟨u, hu, hua⟩ := hmem
        rcases List.mem_cons.mp hu with rfl | hu
        · exact hua
        · exact absurd hua (hlast u hu)
      rw [get_writeAll_of_ne _ hlast, get_set, if_pos hfirst]
      exact hagree w List.mem_cons_self hfirst

end Memory

/-! ## Blocks -/

namespace Geometry

variable (g : Geometry)

theorem getElem?_wordsOf (index : Fin g.sets) (tag : UInt32) (k : Fin g.blockWords) :
    (g.wordsOf index tag)[(k : Nat)]? = some (Location.address ⟨k, index, tag⟩) := by
  simp [wordsOf, Location.address]

/-- The words of a block with their addresses. -/
theorem mem_zip_wordsOf {index : Fin g.sets} {tag : UInt32} {words : Vector UInt32 g.blockWords}
    {w : UInt32 × UInt32} :
    w ∈ (g.wordsOf index tag).zip words.toList ↔
      ∃ k : Fin g.blockWords, w = (Location.address ⟨k, index, tag⟩, words.get k) := by
  rw [List.mem_iff_getElem?]
  constructor
  · rintro ⟨i, hi⟩
    rw [List.getElem?_zip_eq_some] at hi
    have hlt : i < g.blockWords := by
      have := (List.getElem?_eq_some_iff.mp hi.2).1
      simpa using this
    refine ⟨⟨i, hlt⟩, ?_⟩
    have haddr := g.getElem?_wordsOf index tag ⟨i, hlt⟩
    have hword : words.toList[i]? = some (words.get ⟨i, hlt⟩) := getElem?_toList words ⟨i, hlt⟩
    apply Prod.ext
    · exact Option.some.inj (hi.1.symm.trans haddr)
    · exact Option.some.inj (hi.2.symm.trans hword)
  · rintro ⟨k, rfl⟩
    refine ⟨k, List.getElem?_zip_eq_some.mpr ⟨g.getElem?_wordsOf index tag k, ?_⟩⟩
    exact getElem?_toList words k

end Geometry

namespace Cache

variable {g : Geometry}

/-- **Writing a block back** changes the words of that block alone. -/
theorem get_writeBack (index : Fin g.sets) (b : Block g.blockWords) (ht : b.tag.toNat < g.tags)
    (m : Memory) (a : UInt32) :
    (writeBack index b m).get a =
      if (g.locate a).index = index ∧ (g.locate a).tag = b.tag then b.words.get (g.locate a).offset
      else m.get a := by
  rw [writeBack]
  split
  · next h =>
    -- the word is one of the block's, and every write to it carries the block's word
    refine Memory.get_writeAll_of_mem m ?_ ?_
    · refine ⟨_, g.mem_zip_wordsOf.mpr ⟨(g.locate a).offset, rfl⟩, ?_⟩
      rw [Location.wordAddress_address_eq_iff _ ht, ← h.1, ← h.2]
    · intro w hw hwa
      obtain ⟨k, rfl⟩ := g.mem_zip_wordsOf.mp hw
      rw [Location.wordAddress_address_eq_iff _ ht] at hwa
      have hk : k = (g.locate a).offset := congrArg Location.offset hwa
      rw [hk]
  · next h =>
    refine Memory.get_writeAll_of_ne m ?_
    intro w hw hwa
    obtain ⟨k, rfl⟩ := g.mem_zip_wordsOf.mp hw
    rw [Location.wordAddress_address_eq_iff _ ht] at hwa
    apply h
    rw [← hwa]
    exact ⟨rfl, rfl⟩

/-- Clearing a way changes memory at words of its own set only, and there by what the row tells. -/
theorem Sound.get_vacate {ν : Type v} {c : Cache g Memory ν} (hc : c.Sound) (a : UInt32)
    (way : Fin g.ways) (x : UInt32) :
    let old := (c.home a).get way
    (c.vacate a way).get x =
      if (old.valid ∧ old.dirty) ∧ (g.locate x).index = (g.locate a).index ∧
          (g.locate x).tag = old.tag then old.words.get (g.locate x).offset
      else c.store.get x := by
  intro old
  by_cases hstale : old.valid = true ∧ old.dirty = true
  · have htag := (hc _).tag_lt old (get_mem_toList _ way) hstale.1
    rw [vacate_of_stale hstale.1 hstale.2, get_writeBack _ _ htag]
    simp only [hstale, and_self, true_and]
  · rw [if_neg fun h => hstale h.1, vacate_of_fresh]
    intro hvalid
    simpa using fun hdirty => hstale ⟨hvalid, hdirty⟩

/-- A way cleared for another block leaves memory alone where no block lies over it. -/
theorem Sound.get_vacate_of_not_holds {ν : Type v} {c : Cache g Memory ν} (hc : c.Sound) (a : UInt32)
    (way : Fin g.ways) {x : UInt32} (hx : ¬ c.Holds x) :
    (c.vacate a way).get x = c.store.get x := by
  rw [hc.get_vacate]
  apply if_neg
  rintro ⟨⟨hvalid, -⟩, hindex, htag⟩
  apply hx
  rw [holds_iff, c.home_congr hindex]
  exact ⟨_, get_mem_toList _ way, hvalid, htag.symm⟩

@[simp] theorem fetch_memory (a : UInt32) (m : Memory) : (fetch g a m).2 = m :=
  congrArg Prod.snd (m.readAll_eq (g.wordsFrom (g.blockStart a)))

/-- A block fetched holds what memory holds, at every address of the block. -/
theorem get_words_fetch (m : Memory) {a b : UInt32}
    (hindex : (g.locate b).index = (g.locate a).index)
    (htag : (g.locate b).tag = (g.locate a).tag) :
    (fetch g a m).1.words.get (g.locate b).offset = m.get b := by
  have hword := g.getElem?_wordsOf (g.locate a).index (g.locate a).tag (g.locate b).offset
  rw [g.wordsOf_locate, ← hindex, ← htag] at hword
  have hread : (Store.readAll m (g.wordsFrom (g.blockStart a))).1[((g.locate b).offset : Nat)]? =
      some (m.get b) := by
    rw [Memory.readAll_eq, List.getElem?_map, hword]
    show some (m.get (g.locate b).address) = _
    rw [g.address_locate, Memory.get_wordAddress]
  apply Option.some.inj
  rw [← getElem?_toList, ← hread]
  rfl

end Cache

end SetAssoc
