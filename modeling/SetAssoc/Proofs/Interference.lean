import SetAssoc.Proofs.Handover
import SetAssoc.Proofs.Placement
import SetAssoc.Proofs.Residency
import Mathlib
/-!
# Writes behind the cache

Someone may write to the memory behind a cache at any time, between any two accesses.  From then on
a clean block need no longer hold what memory holds, so there are two levels to follow for each
word: the block over it and the memory below.

While a block is in the cache the levels do not touch.  Reads see the first, which accesses alone
change (`Sound.word_read_act`); the second changes by the writes behind alone
(`Sound.get_store_act`).  They meet where the block is fetched, and there the first becomes as the
second, and where it goes with changes, and there the second becomes as the first.  So whatever a
word holds is told by the writes since its block was fetched, those through the cache
(`Stay.word_read`) or those behind it (`Stay.get_store`).
-/

namespace SetAssoc

universe v

/-! ## Actions -/

/-- What can happen to a cache and the memory behind it. -/
inductive Action where
  /-- The cache serves an access. -/
  | access (op : Access)
  /-- A word is written to the memory, past the cache. -/
  | behind (address value : UInt32)
deriving DecidableEq, Repr

namespace Action

/-- The access, if the cache serves one. -/
def access? : Action → Option Access
  | access op => some op
  | behind _ _ => none

/-- What is stored through the cache in the word around an address. -/
def cached? (a : UInt32) : Action → Option UInt32
  | access (.write x v) => if wordAddress x = wordAddress a then some v else none
  | access (.read _) => none
  | behind _ _ => none

/-- What is written behind the cache to the word around an address. -/
def behind? (a : UInt32) : Action → Option UInt32
  | access _ => none
  | behind x v => if wordAddress x = wordAddress a then some v else none

end Action

/-- The last of the values that a history gives. -/
def lastOf (f : Action → Option UInt32) (acts : List Action) : Option UInt32 :=
  (acts.filterMap f).getLast?

theorem getD_lastOf_cons (f : Action → Option UInt32) (act : Action) (acts : List Action)
    (old : UInt32) : (lastOf f (act :: acts)).getD old = (lastOf f acts).getD ((f act).getD old) := by
  cases hact : f act with
  | none => simp [lastOf, hact]
  | some v => simp [lastOf, hact, List.getLast?_cons]

namespace Cache

variable {g : Geometry} {ν : Type v} [Evictor ν]

/-- The cache after an action. -/
def act (c : Cache g Memory ν) : Action → Cache g Memory ν
  | .access op => (c.access op).2
  | .behind a v => c.mapStore fun m => Store.write m a v

/-- The cache after some actions. -/
def after (c : Cache g Memory ν) (acts : List Action) : Cache g Memory ν := acts.foldl act c

@[simp] theorem after_nil (c : Cache g Memory ν) : c.after [] = c := rfl

theorem after_cons (c : Cache g Memory ν) (y : Action) (acts : List Action) :
    c.after (y :: acts) = (c.act y).after acts := rfl

theorem after_append (c : Cache g Memory ν) (past acts : List Action) :
    c.after (past ++ acts) = (c.after past).after acts := List.foldl_append

theorem Sound.act {c : Cache g Memory ν} (hc : c.Sound) (y : Action) : (c.act y).Sound := by
  cases y with
  | access op => exact hc.access op
  | behind a v => exact hc

theorem Sound.after {c : Cache g Memory ν} (hc : c.Sound) (acts : List Action) :
    (c.after acts).Sound := by
  induction acts generalizing c with
  | nil => exact hc
  | cons y acts ih => exact ih (hc.act y)

/-! ## What a read sees -/

/-- A read sees the block over its word. -/
theorem Sound.word_read_of_covers {c : Cache g Memory ν} (hc : c.Sound) {x : UInt32}
    {b : Block g.blockWords} (hb : c.Covers b x) :
    (c.access (.read x)).1.word = b.words.get (g.locate x).offset := by
  have hs := c.settling x
  rw [access_fst]
  show (((c.settle x).cache.home x).get (c.settle x).way).words.get (g.locate x).offset = _
  generalize c.settle x = s at hs
  cases hs with
  | hit way found =>
    rw [hc.eq_of_covers hb (covers_of_bears (bears_of_findTag_hit found))]
  | miss way evictor room => exact absurd hb (room.not_covers b)

/-- Where no block lies over its word, a read sees memory. -/
theorem Sound.word_read_of_not_holds {c : Cache g Memory ν} (hc : c.Sound) {x : UInt32}
    (hx : ¬ c.Holds x) : (c.access (.read x)).1.word = c.store.get x := by
  have hs := c.settling x
  rw [access_fst]
  show (((c.settle x).cache.home x).get (c.settle x).way).words.get (g.locate x).offset = _
  generalize c.settle x = s at hs
  cases hs with
  | hit way found => exact absurd (holds_of_found found) hx
  | miss way evictor room =>
    rw [way_replace, home_replace, get_setAt_self, get_words_fetch _ rfl rfl]
    exact Sound.get_vacate_of_not_holds (c := { c with evictor }) hc x way hx

/-- A block that is there once an access was settled holds what reads saw before. -/
theorem Sound.get_words_of_settling {c : Cache g Memory ν} (hc : c.Sound) {a x : UInt32}
    {s : Settled g Memory ν} (hs : c.Settling a s) {b : Block g.blockWords}
    (hb : s.cache.Covers b x) :
    b.words.get (g.locate x).offset = (c.access (.read x)).1.word := by
  cases hs with
  | hit way found => exact (hc.word_read_of_covers hb).symm
  | miss way evictor room =>
    rw [Sound.covers_replace_iff (c := { c with evictor }) hc room.not_covers way] at hb
    split at hb
    · next hblock =>
      obtain ⟨hindex, htag⟩ := (g.blockStart_eq_iff x a).mp hblock
      have hx : ¬ c.Holds x := fun h => room.not_holds ((c.holds_congr hblock).mp h)
      rw [hb, get_words_fetch _ hindex htag, hc.word_read_of_not_holds hx]
      exact Sound.get_vacate_of_not_holds (c := { c with evictor }) hc a way hx
    · exact (hc.word_read_of_covers hb.1).symm

/-- **The first level.**  Where the block is there afterwards, an access changes what a read sees by
what it stores. -/
theorem Sound.word_read_access {c : Cache g Memory ν} (hc : c.Sound) (op : Access) {x : UInt32}
    (hx : (c.access op).2.Holds x) :
    ((c.access op).2.access (.read x)).1.word =
      (Action.cached? x (.access op)).getD (c.access (.read x)).1.word := by
  have hs := c.settling op.address
  have hsound := hc.settling hs
  obtain ⟨b, hb⟩ := (holds_iff_covers _ x).mp hx
  rw [(hc.access op).word_read_of_covers hb]
  rw [access_eq, hsound.covers_serveAt_iff hs.bears] at hb
  split at hb
  · next hblock =>
    -- the block accessed: what the access leaves of the block that was settled
    have hold := ((c.settle op.address).cache.covers_congr hblock _).mpr (covers_of_bears hs.bears)
    have hword := hc.get_words_of_settling hs hold
    rw [hb]
    cases op with
    | read a => exact hword
    | write a v =>
      obtain ⟨hindex, htag⟩ := (g.blockStart_eq_iff x a).mp hblock
      have hsame := g.wordAddress_eq_iff_offset hindex htag
      rw [Access.get_words_leave_write, hword, Action.cached?, Access.address]
      by_cases hoffset : (g.locate x).offset = (g.locate a).offset
      · rw [if_pos hoffset, if_pos (hsame.mpr hoffset).symm]
        rfl
      · rw [if_neg hoffset, if_neg fun h => hoffset (hsame.mp h.symm)]
        rfl
  · next hblock =>
    -- another block, in which the access stores nothing
    rw [hc.get_words_of_settling hs hb]
    cases op with
    | read a => rfl
    | write a v =>
      have hne : wordAddress a ≠ wordAddress x := by
        intro h
        apply hblock
        rw [g.blockStart_eq_iff, (g.locate_eq_iff x _).mpr h.symm]
        exact ⟨rfl, rfl⟩
      rw [Action.cached?, if_neg hne]
      rfl

/-- The same for all actions: what is written behind a block is not seen. -/
theorem Sound.word_read_act {c : Cache g Memory ν} (hc : c.Sound) (y : Action) {x : UInt32}
    (hbefore : c.Holds x) (hafter : (c.act y).Holds x) :
    ((c.act y).access (.read x)).1.word = (y.cached? x).getD (c.access (.read x)).1.word := by
  cases y with
  | access op => exact hc.word_read_access op hafter
  | behind a v =>
    obtain ⟨b, hb⟩ := (holds_iff_covers c x).mp hbefore
    have hsame : (c.act (.behind a v)).Covers b x := hb
    rw [hc.word_read_of_covers hb]
    exact Sound.word_read_of_covers (c := c.act (.behind a v)) hc hsame

/-! ## What memory holds -/

theorem get_store_behind (c : Cache g Memory ν) (a v x : UInt32) :
    (c.act (.behind a v)).store.get x = ((Action.behind a v).behind? x).getD (c.store.get x) := by
  show (c.store.set a v).get x = _
  rw [Memory.get_set, Action.behind?]
  split <;> rfl

/-- An access leaves memory alone where no block lies over it. -/
theorem Sound.get_store_access_of_not_holds {c : Cache g Memory ν} (hc : c.Sound) (op : Access)
    {x : UInt32} (hx : ¬ c.Holds x) : (c.access op).2.store.get x = c.store.get x := by
  have hs := c.settling op.address
  show (c.settle op.address).cache.store.get x = _
  generalize c.settle op.address = s at hs
  cases hs with
  | hit way found => rfl
  | miss way evictor room =>
    rw [store_replace, fetch_memory]
    exact Sound.get_vacate_of_not_holds (c := { c with evictor }) hc op.address way hx

/-- **The second level.**  Unless the block over a word goes, memory changes there by what is
written behind the cache. -/
theorem Sound.get_store_act {c : Cache g Memory ν} (hc : c.Sound) (y : Action) {x : UInt32}
    (hstays : c.Holds x → (c.act y).Holds x) :
    (c.act y).store.get x = (y.behind? x).getD (c.store.get x) := by
  cases y with
  | access op =>
    by_cases hx : c.Holds x
    · exact hc.get_store_access op hx (hstays hx)
    · exact hc.get_store_access_of_not_holds op hx
  | behind a v => exact c.get_store_behind a v x

/-- **Where the levels meet again.**  A block that goes leaves its words in memory if it has
changes, and nothing otherwise. -/
theorem Sound.get_store_access_of_gone {c : Cache g Memory ν} (hc : c.Sound) {op : Access}
    {x : UInt32} {b : Block g.blockWords} (hb : c.Covers b x)
    (hgone : ¬ (c.access op).2.Holds x) :
    (c.access op).2.store.get x =
      if b.dirty = true then b.words.get (g.locate x).offset else c.store.get x := by
  have hs := c.settling op.address
  have hevicted : c.evicted? op.address = some (g.blockStart x) := by
    by_contra hne
    have hheld : c.Holds x := (holds_iff_covers c x).mpr ⟨b, hb⟩
    exact hgone ((hc.holds_access_iff_evicted op x).mpr (.inr ⟨hheld, hne⟩))
  obtain ⟨hmiss, hindex, hbears⟩ := (hc.evicted?_eq_some_iff op.address x).mp hevicted
  -- so it is the block that stood in the way settled on
  have hold : c.Covers ((c.home op.address).get (c.settle op.address).way) x := by
    refine ⟨?_, hbears⟩
    rw [c.home_congr hindex]
    exact get_mem_toList _ _
  obtain rfl := hc.eq_of_covers hb hold
  show (c.settle op.address).cache.store.get x = _
  generalize c.settle op.address = s at hs hbears
  cases hs with
  | hit way found => exact absurd (holds_of_found found) hmiss
  | miss way evictor room =>
    have hway : ((c.home op.address).get way).Bears (g.locate x).tag := hbears
    rw [store_replace, fetch_memory]
    exact (hc.get_vacate op.address way x).trans
      (if_congr (by simp [hway.1, hindex, hway.2]) rfl rfl)

/-! ## Histories -/

/-- The property holds of the cache now and after each of the actions. -/
def Throughout (c : Cache g Memory ν) (P : Cache g Memory ν → Prop) (acts : List Action) : Prop :=
  ∀ past, past <+: acts → P (c.after past)

section Throughout

variable {c : Cache g Memory ν} {P : Cache g Memory ν → Prop} {y : Action} {acts : List Action}

theorem Throughout.cons (h : c.Throughout P (y :: acts)) : P c ∧ (c.act y).Throughout P acts := by
  refine ⟨h [] List.nil_prefix, fun past hpast => ?_⟩
  exact h (y :: past) ((List.prefix_cons_inj y).mpr hpast)

theorem Throughout.now (h : c.Throughout P acts) : P c := h [] List.nil_prefix

theorem throughout_nil (h : P c) : c.Throughout P [] := by
  intro past hpast
  rw [List.prefix_nil.mp hpast]
  exact h

theorem Throughout.concat (h : c.Throughout P acts) (hlast : P (c.after (acts ++ [y]))) :
    c.Throughout P (acts ++ [y]) := by
  intro past hpast
  rcases List.prefix_concat_iff.mp hpast with rfl | hpast
  · exact hlast
  · exact h past hpast

end Throughout

/-- Along a stay in the cache a read sees what was stored last through the cache. -/
theorem Sound.word_read_after {c : Cache g Memory ν} (hc : c.Sound) {acts : List Action}
    {x : UInt32} (hx : c.Throughout (fun d => d.Holds x) acts) :
    ((c.after acts).access (.read x)).1.word =
      (lastOf (Action.cached? x) acts).getD (c.access (.read x)).1.word := by
  induction acts generalizing c with
  | nil => rfl
  | cons y acts ih =>
    obtain ⟨hnow, hrest⟩ := hx.cons
    rw [after_cons, ih (hc.act y) hrest, hc.word_read_act y hnow hrest.now, getD_lastOf_cons]

/-- Along a stay in the cache, and along one outside it, memory holds what was written last behind
it. -/
theorem Sound.get_store_after {c : Cache g Memory ν} (hc : c.Sound) {acts : List Action}
    {x : UInt32} (hx : c.Throughout (fun d => d.Holds x) acts ∨
      c.Throughout (fun d => ¬ d.Holds x) acts) :
    (c.after acts).store.get x = (lastOf (Action.behind? x) acts).getD (c.store.get x) := by
  induction acts generalizing c with
  | nil => rfl
  | cons y acts ih =>
    have hnow : c.Holds x → (c.act y).Holds x := by
      rcases hx with hx | hx
      · exact fun _ => hx.cons.2.now
      · exact fun h => absurd h hx.now
    have hrest := hx.imp (fun h => h.cons.2) fun h => h.cons.2
    rw [after_cons, ih (hc.act y) hrest, hc.get_store_act y hnow, getD_lastOf_cons]

/-- The history of a block that is in the cache: some access, at a time when the block was not
there, fetched it, and since then it stayed. -/
structure Stay (fresh : Cache g Memory ν) (a : UInt32) (past : List Action) (op : Access)
    (since : List Action) : Prop where
  /-- The access went to the block. -/
  block : g.blockStart op.address = g.blockStart a
  /-- The block was not there. -/
  absent : ¬ (fresh.after past).Holds a
  /-- It is there ever since. -/
  stays : ((fresh.after past).act (.access op)).Throughout (fun d => d.Holds a) since

/-- Every block that is in the cache has such a history. -/
theorem exists_stay (policy : Policy) (m : Memory) (e : ν) (acts : List Action) {a : UInt32}
    (h : ((empty g policy m e).after acts).Holds a) :
    ∃ past op since, acts = past ++ .access op :: since ∧
      (empty g policy m e).Stay a past op since := by
  induction acts using List.reverseRecOn with
  | nil => exact absurd h (not_holds_empty g policy m e a)
  | append_singleton acts y ih =>
    have hsound := (sound_empty g policy m e).after acts
    by_cases hbefore : ((empty g policy m e).after acts).Holds a
    · -- the stay goes on
      obtain ⟨past, op, since, rfl, hstay⟩ := ih hbefore
      refine ⟨past, op, since ++ [y], by simp, hstay.block, hstay.absent, hstay.stays.concat ?_⟩
      rw [← after_cons, ← after_append]
      simpa using h
    · -- a stay begins, and only an access can begin it
      rw [after_append] at h
      cases y with
      | access op =>
        have hblock := (hsound.holds_of_holds_access h).resolve_right hbefore
        exact ⟨acts, op, [], rfl, hblock.symm, hbefore, throughout_nil h⟩
      | behind x v => exact absurd h hbefore

namespace Stay

variable {fresh : Cache g Memory ν} {a : UInt32} {past : List Action} {op : Access}
  {since : List Action}

/-- All addresses of a block have one history. -/
theorem congr (h : fresh.Stay a past op since) {x : UInt32}
    (hblock : g.blockStart x = g.blockStart a) : fresh.Stay x past op since where
  block := h.block.trans hblock.symm
  absent hx := h.absent ((holds_congr _ hblock).mp hx)
  stays past hpast := (holds_congr _ hblock).mpr (h.stays past hpast)

/-- **The first level, since the block was fetched.** -/
theorem word_read (h : fresh.Stay a past op since) (hfresh : fresh.Sound) :
    ((fresh.after (past ++ .access op :: since)).access (.read a)).1.word =
      (lastOf (Action.cached? a) (.access op :: since)).getD ((fresh.after past).store.get a) := by
  have hpast := hfresh.after past
  rw [after_append, after_cons, (hpast.act _).word_read_after h.stays, getD_lastOf_cons]
  congr 1
  rw [← hpast.word_read_of_not_holds h.absent]
  exact hpast.word_read_access op h.stays.now

/-- **The second level, since the block was fetched.** -/
theorem get_store (h : fresh.Stay a past op since) (hfresh : fresh.Sound) :
    (fresh.after (past ++ .access op :: since)).store.get a =
      (lastOf (Action.behind? a) since).getD ((fresh.after past).store.get a) := by
  have hpast := hfresh.after past
  rw [after_append, after_cons, (hpast.act _).get_store_after (.inl h.stays)]
  congr 1
  exact hpast.get_store_access_of_not_holds op h.absent

/-- **The end of a stay.**  The block holds the first level to the last, and only changes are
carried over to the second. -/
theorem of_gone (h : fresh.Stay a past op since) (hfresh : fresh.Sound) {next : Access}
    {b : Block g.blockWords} (hb : (fresh.after (past ++ .access op :: since)).Covers b a)
    (hgone : ¬ ((fresh.after (past ++ .access op :: since)).act (.access next)).Holds a) :
    let gone := (fresh.after (past ++ .access op :: since)).act (.access next)
    let found := (fresh.after past).store.get a
    b.words.get (g.locate a).offset =
      (lastOf (Action.cached? a) (.access op :: since)).getD found ∧
    (b.dirty = false → gone.store.get a = (lastOf (Action.behind? a) since).getD found) ∧
    (b.dirty = true → gone.store.get a = b.words.get (g.locate a).offset) := by
  have hc := hfresh.after (past ++ .access op :: since)
  have hmemory := hc.get_store_access_of_gone hb hgone
  refine ⟨?_, fun hclean => ?_, fun hdirty => ?_⟩
  · rw [← hc.word_read_of_covers hb]
    exact h.word_read hfresh
  · rw [hclean] at hmemory
    exact hmemory.trans (h.get_store hfresh)
  · rw [hdirty] at hmemory
    exact hmemory

end Stay

/-- **While a block is away** what is written behind the cache is all that happens to memory there,
and whatever is settled next in the block fetches it. -/
theorem Sound.refetch {c : Cache g Memory ν} (hc : c.Sound) {away : List Action} {x : UInt32}
    (haway : c.Throughout (fun d => ¬ d.Holds x) away) :
    let back := c.after away
    back.store.get x = (lastOf (Action.behind? x) away).getD (c.store.get x) ∧
    ∀ y, g.blockStart y = g.blockStart x →
      ∃ b, (back.settle y).cache.Covers b x ∧
        b.words.get (g.locate x).offset = back.store.get x := by
  intro back
  have hback : back.Sound := hc.after away
  have habsent : ¬ back.Holds x := haway away (List.prefix_refl away)
  refine ⟨hc.get_store_after (.inr haway), fun y hblock => ?_⟩
  have hs := back.settling y
  have hb := (covers_congr _ hblock.symm _).mpr (covers_of_bears hs.bears)
  refine ⟨_, hb, ?_⟩
  rw [hback.get_words_of_settling hs hb]
  exact hback.word_read_of_not_holds habsent

/-! ## Hits -/

/-- **What is written behind has no say in placement.** -/
theorem Alike.after {c c' : Cache g Memory ν} (h : c.Alike c') (acts : List Action) :
    (c.after acts).Alike (c'.run (acts.filterMap Action.access?)).2 := by
  induction acts generalizing c c' with
  | nil => exact h
  | cons y acts ih =>
    cases y with
    | access op => exact ih (h.access rfl).2
    | behind a v => exact ih ⟨h.policy, h.places, h.evictor, h.hits, h.misses, h.cycles⟩

/-- **Writes behind the cache.**  Whatever happened to a fresh cache and the memory behind it:

* A read of a word that no block lies over is answered from memory.  If a block does, it was fetched
  by some access and stayed since, and the read is answered with what was stored last in the word
  through the cache since then, or else with what memory held when the block was fetched.  So it
  makes no difference what is written behind a block.
* When a block goes, each of its words is the one that a read would have been answered with.  If it
  has no changes, memory holds what was written last behind the block while it was there, or else
  what it held before; if it has, memory holds the words of the block.  As long as the block is away
  what is written behind the cache is added to that, and that is what the next access to the block
  fetches.
* The cache holds the same addresses, and every access takes as long, as if nothing had been written
  behind it. -/
theorem writes_behind (g : Geometry) (policy : Policy) (m : Memory) (e : ν) (acts : List Action)
    (a : UInt32) :
    let fresh := empty g policy m e
    let c := fresh.after acts
    (¬ c.Holds a → (c.access (.read a)).1.word = c.store.get a) ∧
    (c.Holds a → ∃ past op since, acts = past ++ .access op :: since ∧
      fresh.Stay a past op since ∧
      (c.access (.read a)).1.word =
        (lastOf (Action.cached? a) (.access op :: since)).getD
          ((fresh.after past).store.get a)) ∧
    (c.Holds a → ∀ x v,
      ((c.act (.behind x v)).access (.read a)).1.word = (c.access (.read a)).1.word) ∧
    (∀ next b, c.Covers b a →
      let gone := c.act (.access next)
      ¬ gone.Holds a →
      ∃ past op since, acts = past ++ .access op :: since ∧ fresh.Stay a past op since ∧
      ∀ x, g.blockStart x = g.blockStart a →
        let found := (fresh.after past).store.get x
        b.words.get (g.locate x).offset =
          (lastOf (Action.cached? x) (.access op :: since)).getD found ∧
        (b.dirty = false → gone.store.get x = (lastOf (Action.behind? x) since).getD found) ∧
        (b.dirty = true → gone.store.get x = b.words.get (g.locate x).offset) ∧
        ∀ away, gone.Throughout (fun d => ¬ d.Holds a) away →
          let back := gone.after away
          back.store.get x = (lastOf (Action.behind? x) away).getD (gone.store.get x) ∧
          ∀ y, g.blockStart y = g.blockStart a →
            ∃ b', (back.settle y).cache.Covers b' x ∧
              b'.words.get (g.locate x).offset = back.store.get x) ∧
    let plain := (fresh.run (acts.filterMap Action.access?)).2
    (∀ x, c.Holds x ↔ plain.Holds x) ∧
      ∀ op, (c.access op).1.cycles = (plain.access op).1.cycles := by
  intro fresh c
  have hfresh : fresh.Sound := sound_empty g policy m e
  have hc : c.Sound := hfresh.after acts
  have halike : c.Alike (fresh.run (acts.filterMap Action.access?)).2 :=
    (Alike.empty g policy m m e).after acts
  refine ⟨hc.word_read_of_not_holds, ?_, ?_, ?_, halike.holds_iff, fun op => (halike.access rfl).1⟩
  · intro hheld
    obtain ⟨past, op, since, rfl, hstay⟩ := exists_stay policy m e acts hheld
    exact ⟨past, op, since, rfl, hstay, hstay.word_read hfresh⟩
  · intro hheld x v
    exact hc.word_read_act (.behind x v) hheld hheld
  · intro next b hb gone hgone
    have hheld : c.Holds a := (holds_iff_covers c a).mpr ⟨b, hb⟩
    obtain ⟨past, op, since, rfl, hstay⟩ := exists_stay policy m e acts hheld
    refine ⟨past, op, since, rfl, hstay, fun x hblock => ?_⟩
    -- what holds of the block holds at each of its words
    have hbx : c.Covers b x := (c.covers_congr hblock b).mpr hb
    have hgonex : ¬ gone.Holds x := fun h => hgone ((holds_congr _ hblock).mp h)
    obtain ⟨hword, hclean, hdirty⟩ := (hstay.congr hblock).of_gone hfresh hbx hgonex
    refine ⟨hword, hclean, hdirty, fun away haway => ?_⟩
    have hawayx : gone.Throughout (fun d => ¬ d.Holds x) away :=
      fun past hpast h => haway past hpast ((holds_congr _ hblock).mp h)
    obtain ⟨hstore, hfetched⟩ := (hc.act (.access next)).refetch hawayx
    exact ⟨hstore, fun y hy => hfetched y (hy.trans hblock.symm)⟩

/-- Room for a single word.  What is written behind a block is not seen while the block is there;
memory keeps it where the block goes without changes, and loses it where the block goes with some. -/
theorem writes_behind_kept_and_lost :
    let fresh := empty ⟨1, 0, 2, by decide, by decide, by decide⟩ .leastRecentlyUsed ({} : Memory)
      (⟨[]⟩ : Rota)
    let read := fresh.after [.access (.read 0)]
    let written := fresh.after [.access (.write 0 7)]
    ((read.act (.behind 0 5)).access (.read 0)).1.word = (read.access (.read 0)).1.word ∧
      (read.after [.behind 0 5, .access (.read 4)]).store.get 0 = 5 ∧
      ((written.act (.behind 0 5)).access (.read 0)).1.word =
        (written.access (.read 0)).1.word ∧
      (written.after [.behind 0 5, .access (.read 4)]).store.get 0 = 7 := by
  intro fresh read written
  have hread := writes_behind ⟨1, 0, 2, by decide, by decide, by decide⟩ .leastRecentlyUsed
    ({} : Memory) (⟨[]⟩ : Rota) [.access (.read 0)] 0
  have hwritten := writes_behind ⟨1, 0, 2, by decide, by decide, by decide⟩ .leastRecentlyUsed
    ({} : Memory) (⟨[]⟩ : Rota) [.access (.write 0 7)] 0
  exact ⟨hread.2.2.1 (by decide +kernel) 0 5, by decide +kernel,
    hwritten.2.2.1 (by decide +kernel) 0 5, by decide +kernel⟩

end Cache

end SetAssoc
