import SetAssoc.Proofs.Covering
import SetAssoc.Proofs.Traffic
import Mathlib.Logic.Function.Basic
/-!
# A cache shows its memory

Whoever reads and writes through a cache cannot tell it from the memory behind it.  The flat memory
is what that memory would hold if every write had gone to it at once.  A cache `Mirrors` it: a block
in the cache holds the words of the flat memory, and so does memory itself, except where a block
with changes lies over it.

The exception is what makes the invariant go through.  When a block with changes has to go, its
words go to memory first (`Mirrors.get_vacate`), and a block is without changes only as long as
nothing else than what memory holds was ever stored in it (`Access.leave_of_clean`).
-/

namespace SetAssoc

universe v w

/-! ## The flat memory -/

/-- The words of a flat memory after an access. -/
def Access.onFlat (op : Access) (f : UInt32 → UInt32) : UInt32 → UInt32 :=
  match op with
  | .read _ => f
  | .write a v => Function.update f (wordAddress a) v

/-- What every word of a memory would hold if the accesses went to it directly. -/
def flat (m : Memory) (ops : List Access) : UInt32 → UInt32 :=
  ops.foldl (fun f op => op.onFlat f) m.get

theorem flat_concat (m : Memory) (ops : List Access) (op : Access) :
    flat m (ops ++ [op]) = op.onFlat (flat m ops) := by
  rw [flat, List.foldl_append]
  rfl

namespace Access

variable {n : Nat}

/-- A block that is without changes after an access was so before, and the access changed
nothing. -/
theorem leave_of_clean {op : Access} {b : Block n} {k : Fin n} (h : (op.leave b k).dirty = false) :
    op.leave b k = b := by
  cases op with
  | read a => rfl
  | write a v =>
    rw [leave, Block.store] at h ⊢
    split
    · rfl
    · next hne =>
      rw [if_neg hne] at h
      cases h

theorem get_words_leave_write (a v : UInt32) (b : Block n) (j k : Fin n) :
    ((Access.write a v).leave b k).words.get j = if j = k then v else b.words.get j := by
  rw [leave, Block.store]
  by_cases hjk : j = k
  · subst hjk
    rw [if_pos rfl]
    split
    · next h => exact h
    · exact get_setAt_self b.words j v
  · rw [if_neg hjk]
    split
    · rfl
    · exact get_setAt_of_ne b.words hjk v

end Access

/-! ## The invariant -/

namespace Cache

variable {g : Geometry} {ν : Type v}

/-- The cache and its memory together show a flat memory. -/
structure Mirrors (c : Cache g Memory ν) (f : UInt32 → UInt32) : Prop where
  /-- Blocks in the cache hold its words. -/
  cached : ∀ a b, c.Covers b a → b.words.get (g.locate a).offset = f (wordAddress a)
  /-- So does memory, where no block with changes lies over it. -/
  stored : ∀ a, (∀ b, c.Covers b a → b.dirty = false) → c.store.get a = f (wordAddress a)

theorem mirrors_empty (g : Geometry) (policy : Policy) (m : Memory) (e : ν) :
    (empty g policy m e).Mirrors (flat m []) where
  cached a b hb := absurd ((holds_iff_covers _ a).mpr ⟨b, hb⟩) (not_holds_empty g policy m e a)
  stored a _ := (m.get_wordAddress a).symm

/-! ## The first stage -/

/-- **What the store holds once a way was cleared.**  Where the block that stood there was the only
one with changes, the store is up to date. -/
theorem Mirrors.get_vacate {c : Cache g Memory ν} {f : UInt32 → UInt32} (h : c.Mirrors f)
    (hc : c.Sound) (a : UInt32) (way : Fin g.ways) {x : UInt32}
    (honly : ∀ b, c.Covers b x → b.dirty = true →
      (g.locate x).index = (g.locate a).index ∧ b = (c.home a).get way) :
    (c.vacate a way).get x = f (wordAddress x) := by
  rw [hc.get_vacate]
  split
  · next hin =>
    -- a word of the block that goes: memory gets it from the block
    apply h.cached x
    refine ⟨?_, hin.1.1, hin.2.2.symm⟩
    rw [c.home_congr hin.2.1]
    exact get_mem_toList _ way
  · next hout =>
    apply h.stored x
    intro b hb
    by_contra hclean
    have hdirty : b.dirty = true := by simpa using hclean
    obtain ⟨hindex, rfl⟩ := honly b hb hdirty
    exact hout ⟨⟨hb.2.1, hdirty⟩, hindex, hb.2.2.symm⟩

theorem Mirrors.settling [Evictor ν] {c : Cache g Memory ν} {f : UInt32 → UInt32}
    (h : c.Mirrors f) (hc : c.Sound) {a : UInt32} {s : Settled g Memory ν}
    (hs : c.Settling a s) : s.cache.Mirrors f := by
  cases hs with
  | hit way found => exact ⟨h.cached, h.stored⟩
  | miss way evictor room =>
    have hfresh : ∀ b, ¬ c.Covers b a := fun b hb => room.not_bears b hb.1 hb.2
    have hcovers := Sound.covers_replace_iff (c := { c with evictor }) hc hfresh way
    constructor
    · intro x b hb
      rw [hcovers] at hb
      split at hb
      · next hblock =>
        -- the block fetched: none with changes lay over its words
        obtain ⟨hindex, htag⟩ := (g.blockStart_eq_iff x a).mp hblock
        rw [hb, get_words_fetch _ hindex htag]
        apply h.get_vacate hc a way
        intro b' hb' _
        exact absurd ((c.covers_congr hblock b').mp hb') (hfresh b')
      · exact h.cached x b hb.1
    · intro x hclean
      rw [store_replace, fetch_memory]
      apply h.get_vacate hc a way
      intro b hb hdirty
      by_contra hne
      -- any other block with changes is still where it was
      have hkept : (({ c with evictor } : Cache g Memory ν).replace a way).cache.Covers b x := by
        rw [hcovers, if_neg fun hblock => hfresh b ((c.covers_congr hblock b).mp hb)]
        exact ⟨hb, fun hindex hold => hne ⟨hindex, hold⟩⟩
      rw [hclean b hkept] at hdirty
      cases hdirty

/-! ## The second stage -/

/-- The flat memory after an access, read off the block accessed and the flat memory before. -/
theorem Mirrors.onFlat_eq {c : Cache g Memory ν} {f : UInt32 → UInt32} (h : c.Mirrors f)
    {op : Access} {way : Fin g.ways}
    (hway : ((c.home op.address).get way).Bears (g.locate op.address).tag) (x : UInt32) :
    op.onFlat f (wordAddress x) =
      if g.blockStart x = g.blockStart op.address then
        (op.leave ((c.home op.address).get way) (g.locate op.address).offset).words.get
          (g.locate x).offset
      else f (wordAddress x) := by
  have hold : g.blockStart x = g.blockStart op.address →
      ((c.home op.address).get way).words.get (g.locate x).offset = f (wordAddress x) := by
    intro hblock
    apply h.cached x
    exact (c.covers_congr hblock _).mpr (covers_of_bears hway)
  cases op with
  | read a =>
    split
    · next hblock => exact (hold hblock).symm
    · rfl
  | write a v =>
    show Function.update f (wordAddress a) v (wordAddress x) = _
    rw [Access.address]
    by_cases hblock : g.blockStart x = g.blockStart a
    · obtain ⟨hindex, htag⟩ := (g.blockStart_eq_iff x a).mp hblock
      have hword := g.wordAddress_eq_iff_offset hindex htag
      rw [if_pos hblock, Access.get_words_leave_write]
      by_cases hoffset : (g.locate x).offset = (g.locate a).offset
      · rw [if_pos hoffset, hword.mpr hoffset, Function.update_self]
      · rw [if_neg hoffset, Function.update_of_ne (fun hx => hoffset (hword.mp hx))]
        exact (hold hblock).symm
    · have hne : wordAddress x ≠ wordAddress a := by
        intro hx
        apply hblock
        rw [g.blockStart_eq_iff, (g.locate_eq_iff x a).mpr hx]
        exact ⟨rfl, rfl⟩
      rw [if_neg hblock, Function.update_of_ne hne]

theorem Mirrors.serveAt {c : Cache g Memory ν} {f : UInt32 → UInt32} (h : c.Mirrors f)
    (hc : c.Sound) {op : Access} {way : Fin g.ways}
    (hway : ((c.home op.address).get way).Bears (g.locate op.address).tag) :
    (c.serveAt op way).Mirrors (op.onFlat f) := by
  have hcovers := hc.covers_serveAt_iff hway
  constructor
  · intro x b hb
    rw [hcovers] at hb
    rw [h.onFlat_eq hway]
    split at hb
    · next hblock => rw [if_pos hblock, hb]
    · next hblock =>
      rw [if_neg hblock]
      exact h.cached x b hb
  · intro x hclean
    show c.store.get x = _
    rw [h.onFlat_eq hway]
    split
    · next hblock =>
      -- without changes, the block accessed is as it was before
      have hleft := hclean _ ((hcovers x _).mpr (by rw [if_pos hblock]))
      have hsame := Access.leave_of_clean hleft
      have hold := (c.covers_congr hblock _).mpr (covers_of_bears hway)
      rw [hsame] at hleft ⊢
      rw [h.cached x _ hold]
      apply h.stored x
      intro b hb
      rw [hc.eq_of_covers hb hold]
      exact hleft
    · next hblock =>
      apply h.stored x
      intro b hb
      apply hclean b
      rw [hcovers, if_neg hblock]
      exact hb

/-! ## Accesses and runs -/

section Run

variable [Evictor ν]

theorem Mirrors.access {c : Cache g Memory ν} {f : UInt32 → UInt32} (h : c.Mirrors f)
    (hc : c.Sound) (op : Access) : (c.access op).2.Mirrors (op.onFlat f) := by
  have hs := c.settling op.address
  rw [access_eq]
  exact (h.settling hc hs).serveAt (hc.settling hs) hs.bears

/-- The answer to an access is what the flat memory holds after it. -/
theorem Mirrors.word_access {c : Cache g Memory ν} {f : UInt32 → UInt32} (h : c.Mirrors f)
    (hc : c.Sound) (op : Access) :
    (c.access op).1.word = op.onFlat f (wordAddress op.address) := by
  have hs := c.settling op.address
  rw [(h.settling hc hs).onFlat_eq hs.bears, if_pos rfl]
  rfl

theorem mirrors_run (policy : Policy) (m : Memory) (e : ν) (ops : List Access) :
    ((empty g policy m e).run ops).2.Mirrors (flat m ops) := by
  refine (run_induction (empty g policy m e)
    (P := fun past c => c.Sound ∧ c.Mirrors (flat m past)) ?_ ?_ ops).2
  · exact ⟨sound_empty g policy m e, mirrors_empty g policy m e⟩
  · rintro past c op ⟨hc, h⟩
    rw [flat_concat]
    exact ⟨hc.access op, h.access hc op⟩

/-- The answers of a run, none of which depends on the cache. -/
theorem word_run (policy : Policy) (m : Memory) (e : ν) (ops : List Access) (k : Nat) :
    ((empty g policy m e).run ops).1[k]?.map Reply.word =
      ops[k]?.map fun op => flat m (ops.take k ++ [op]) (wordAddress op.address) := by
  rw [getElem?_run, Option.map_map]
  congr 1
  funext op
  rw [flat_concat]
  exact (mirrors_run policy m e (ops.take k)).word_access (sound_run g policy m e _) op

/-- **A cache is transparent.**  Reads are answered from the flat memory; after any number of
accesses every word is found in the block that covers it, or else in memory; and so all caches in
front of one memory give the same words, whatever their geometry, policy and evictor. -/
theorem transparent {ν' : Type w} [Evictor ν'] (g g' : Geometry) (policy policy' : Policy)
    (m : Memory) (e : ν) (e' : ν') (ops : List Access) :
    (∀ k a, ops[k]? = some (.read a) →
      ((empty g policy m e).run ops).1[k]?.map Reply.word =
        some (flat m (ops.take k) (wordAddress a))) ∧
    (∀ n w, wordAddress w = w →
      let c := ((empty g policy m e).run (ops.take n)).2
      (∀ b, c.Covers b w → b.words.get (g.locate w).offset = flat m (ops.take n) w) ∧
      (¬ c.Holds w → c.store.get w = flat m (ops.take n) w)) ∧
    ((empty g' policy' m e').run ops).1.map Reply.word =
      ((empty g policy m e).run ops).1.map Reply.word := by
  refine ⟨?_, ?_, ?_⟩
  · intro k a hk
    rw [word_run, hk, Option.map_some, flat_concat]
    rfl
  · intro n w hw c
    have h : c.Mirrors (flat m (ops.take n)) := mirrors_run policy m e (ops.take n)
    refine ⟨?_, ?_⟩
    · intro b hb
      rw [h.cached w b hb, hw]
    · intro hholds
      rw [h.stored w, hw]
      intro b hb
      exact absurd ((c.holds_iff_covers w).mpr ⟨b, hb⟩) hholds
  · apply List.ext_getElem?
    intro k
    rw [List.getElem?_map, List.getElem?_map, word_run, word_run]

end Run

/-- Room for a single word: the block written is evicted by another and read again from memory. -/
theorem transparent_through_eviction :
    ((empty ⟨1, 0, 2, by decide, by decide, by decide⟩ .leastRecentlyUsed ({} : Memory)
      (⟨[]⟩ : Rota)).run [.write 1 7, .read 4, .read 2]).1[2]?.map Reply.word = some 7 :=
  (transparent _ ⟨1, 0, 2, by decide, by decide, by decide⟩ _ .random ({} : Memory) _
    (⟨[]⟩ : Rota) [.write 1 7, .read 4, .read 2]).1 2 2 rfl

end Cache

end SetAssoc
