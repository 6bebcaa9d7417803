import SetAssoc.Proofs.Recency
import SetAssoc.Proofs.Recording
import SetAssoc.Proofs.Rotas
import SetAssoc.Proofs.Totals
/-!
# Slots and scripts

Under the random policy a set is an array of slots.  New blocks go into the slots one after the
other, no block moves, and once all slots are taken a script says which block has to make room.
`Slots` is that machine, for all sets together: it knows neither words nor stores, and it goes
through its script by counting.  A rota goes through the same script by turning it round, so that
the cache follows the machine (`InSlots.access`) as long as it turns its rota exactly when the
machine counts.

Under recency nobody is asked.  A cache can be given any other evictor and will do the same
(`run_withEvictor`).
-/

namespace SetAssoc

universe u v v'

/-! ## First come, first placed -/

section Firsts

variable {α : Type u} [DecidableEq α]

/-- The distinct elements of a history, the one that occurs first first. -/
def firsts (past : List α) : List α := past.reverse.dedup.reverse

example : firsts [1, 2, 1, 3] = [1, 2, 3] := by decide

@[simp] theorem mem_firsts {past : List α} {x : α} : x ∈ firsts past ↔ x ∈ past := by
  rw [firsts, List.mem_reverse, List.mem_dedup, List.mem_reverse]

theorem firsts_concat_of_mem {past : List α} {x : α} (h : x ∈ past) :
    firsts (past ++ [x]) = firsts past := by
  rw [firsts, List.reverse_append, List.reverse_singleton, List.singleton_append,
    List.dedup_cons_of_mem (List.mem_reverse.mpr h)]
  rfl

theorem firsts_concat_of_notMem {past : List α} {x : α} (h : x ∉ past) :
    firsts (past ++ [x]) = firsts past ++ [x] := by
  rw [firsts, List.reverse_append, List.reverse_singleton, List.singleton_append,
    List.dedup_cons_of_notMem (mt List.mem_reverse.mp h), List.reverse_cons]
  rfl

end Firsts

/-! ## Scripts -/

/-- Entry `k` of a script that is gone through again and again, as one of `n` slots.  An empty
script has slot 0 everywhere. -/
def slotAt (script : List Nat) (k n : Nat) : Nat := script.getD (k % script.length) 0 % n

namespace Rota

/-- **A rota goes through its script:** asked for the `k`-th time it names entry `k`, and is turned
round by one entry more. -/
theorem next_rotate (script : List Nat) (k : Nat) {n : Nat} (hn : 0 < n) :
    (⟨script.rotate k⟩ : Rota).next n = (some (slotAt script k n), ⟨script.rotate (k + 1)⟩) := by
  have hslot : named script[k % script.length]? n = some (slotAt script k n) := by
    unfold named slotAt
    rw [List.getD_eq_getElem?_getD]
    cases script[k % script.length]? with
    | none => simp
    | some w => simp [Nat.pos_iff_ne_zero.mp hn]
  rw [next_eq, List.rotate_rotate, head?_rotate, hslot]

end Rota

/-! ## The machine -/

/-- The tags in the slots of a set, as far as these are taken, after an access to the block with tag
`t`.  A block that is there stays where it is.  Any other goes into the next of the `n` slots, or
into the one named if all are taken. -/
def placeTag (n slot : Nat) (row : List UInt32) (t : UInt32) : List UInt32 :=
  if t ∈ row then row
  else if row.length < n then row ++ [t]
  else row.set slot t

/-- Slots for the blocks of every set, and how far the script was gone through. -/
structure Slots (g : Geometry) where
  /-- The tags in the slots of a set, as far as these are taken. -/
  taken : Fin g.sets → List UInt32 := fun _ => []
  /-- How many blocks have made room for another, in all sets together. -/
  evictions : Nat := 0

namespace Slots

variable {g : Geometry}

/-- An access to an address.  The script is gone through by one entry exactly if the block is not
there and all slots of its set are taken. -/
def access (script : List Nat) (m : Slots g) (a : UInt32) : Slots g :=
  let loc := g.locate a
  let row := m.taken loc.index
  { taken := Function.update m.taken loc.index
      (placeTag g.ways (slotAt script m.evictions g.ways) row loc.tag)
    evictions := if loc.tag ∈ row ∨ row.length < g.ways then m.evictions else m.evictions + 1 }

/-- The slots after these accesses, empty in the beginning. -/
def after (g : Geometry) (script : List Nat) (ops : List Access) : Slots g :=
  ops.foldl (fun m op => m.access script op.address) {}

variable {script : List Nat} {m : Slots g} {a : UInt32}

theorem after_concat (ops : List Access) (op : Access) :
    after g script (ops ++ [op]) = (after g script ops).access script op.address := by
  rw [after, List.foldl_append]
  rfl

theorem taken_access_self : (m.access script a).taken (g.locate a).index =
    placeTag g.ways (slotAt script m.evictions g.ways) (m.taken (g.locate a).index)
      (g.locate a).tag :=
  Function.update_self _ _ _

theorem taken_access_of_ne {s : Fin g.sets} (hs : s ≠ (g.locate a).index) :
    (m.access script a).taken s = m.taken s :=
  Function.update_of_ne hs _ _

/-- **The first blocks of a set** take its slots in the order of their first accesses, as long as
there are slots for all of them. -/
theorem taken_after_eq_firsts (script : List Nat) {ops : List Access} {s : Fin g.sets}
    (h : (firsts (g.history s ops)).length ≤ g.ways) :
    (after g script ops).taken s = firsts (g.history s ops) := by
  induction ops using List.reverseRecOn with
  | nil => rfl
  | append_singleton past op ih =>
    rw [after_concat]
    rw [g.history_append] at h ⊢
    by_cases hs : s = (g.locate op.address).index
    · subst hs
      have hone : g.history (g.locate op.address).index [op] = [(g.locate op.address).tag] :=
        g.history_cons_self op []
      rw [hone] at h ⊢
      by_cases hmem : (g.locate op.address).tag ∈ g.history (g.locate op.address).index past
      · rw [firsts_concat_of_mem hmem] at h ⊢
        rw [taken_access_self, ih h, placeTag, if_pos (mem_firsts.mpr hmem)]
      · rw [firsts_concat_of_notMem hmem] at h ⊢
        rw [List.length_append, List.length_singleton] at h
        rw [taken_access_self, ih (by omega), placeTag, if_neg (mt mem_firsts.mp hmem),
          if_pos (by omega)]
    · have hnone : g.history s [op] = [] := g.history_cons_of_ne hs []
      rw [hnone, List.append_nil] at h ⊢
      rw [taken_access_of_ne hs, ih h]

end Slots

/-! ## A row as slots -/

section Row

variable {n tags : Nat} {row row' : List (Block n)} {t : UInt32} {victim : Nat}

/-- **One access at random** moves no tag.  A new one comes after the others, or in the place of the
victim. -/
theorem RowStep.takenTags_random (h : RowStep .random victim t row row') (htidy : Tidy tags row) :
    takenTags row' = placeTag row.length victim (takenTags row) t := by
  rw [placeTag]
  cases h with
  | hit xs ys old new hold hnew =>
    have hmem : t ∈ takenTags (xs ++ old :: ys) := mem_takenTags.mpr ⟨old, by simp, hold⟩
    show takenTags (xs ++ new :: ys) = _
    rw [if_pos hmem, takenTags_append, takenTags_append, takenTags_cons_of_bears hold,
      takenTags_cons_of_bears hnew]
  | free xs ys old new habsent hbefore hold hnew =>
    have hmem : t ∉ takenTags (xs ++ old :: ys) := notMem_takenTags habsent
    -- behind the first free way there are only free ones
    have hbehind : takenTags ys = [] := by
      apply takenTags_eq_nil
      intro y hy
      by_contra hvalid
      have hpacked := (List.pairwise_append.mp htidy.packed).2.1
      rw [(List.pairwise_cons.mp hpacked).1 y hy (by simpa using hvalid)] at hold
      cases hold
    have hrow : takenTags (xs ++ old :: ys) = takenTags xs := by
      rw [takenTags_append, takenTags_cons_of_free hold, hbehind, List.append_nil]
    have hroom : (takenTags (xs ++ old :: ys)).length < (xs ++ old :: ys).length :=
      length_takenTags_lt_iff.mpr ⟨old, by simp, hold⟩
    show takenTags (xs ++ new :: ys) = _
    rw [if_neg hmem, if_pos hroom, hrow, takenTags_append, takenTags_cons_of_bears hnew, hbehind]
  | full xs ys old new habsent hvalid hlen hnew =>
    have hmem : t ∉ takenTags (xs ++ old :: ys) := notMem_takenTags habsent
    have hfull := length_takenTags_of_valid hvalid
    have hxs : (takenTags xs).length = victim := by
      rw [length_takenTags_of_valid fun b hb => hvalid b (List.mem_append_left _ hb), hlen]
    have hold : old.Bears old.tag := ⟨hvalid old (by simp), rfl⟩
    show takenTags (xs ++ new :: ys) = _
    rw [if_neg hmem, if_neg (by omega), takenTags_append, takenTags_append,
      takenTags_cons_of_bears hold, takenTags_cons_of_bears hnew, ← hxs,
      List.set_append_right _ _ (Nat.le_refl _), Nat.sub_self, List.set_cons_zero]

end Row

namespace Cache

variable {g : Geometry} {μ : Type u} {ν : Type v}

/-- **The policy is asked** exactly where a block is not there and all ways are taken. -/
theorem evictor_access [Store μ] [Evictor ν] (c : Cache g μ ν) (op : Access) :
    (c.access op).2.evictor =
      if (g.locate op.address).tag ∈ takenTags (c.home op.address).toList ∨
          (takenTags (c.home op.address).toList).length < g.ways then c.evictor
      else (c.policy.victim c.evictor g.ways_pos).2 := by
  have hs := c.settling op.address
  have hlen : (c.home op.address).toList.length = g.ways := Vector.length_toList
  show (c.settle op.address).cache.evictor = _
  generalize c.settle op.address = s at hs
  cases hs with
  | hit way found =>
    have hmem := (c.holds_iff_mem_takenTags _).mp (holds_of_found found)
    exact (if_pos (Or.inl hmem)).symm
  | miss way evictor room =>
    have habsent : (g.locate op.address).tag ∉ takenTags (c.home op.address).toList :=
      mt (c.holds_iff_mem_takenTags _).mpr room.not_holds
    cases room with
    | free way found =>
      have hroom := length_takenTags_lt_iff.mpr
        ⟨_, get_mem_toList _ way, (valid_of_findTag_free found).1⟩
      rw [hlen] at hroom
      exact (if_pos (Or.inr hroom)).symm
    | full found =>
      have hfull := length_takenTags_of_valid (valid_of_findTag_full found)
      rw [hlen] at hfull
      rw [if_neg (not_or.mpr ⟨habsent, by omega⟩)]
      rfl

/-! ## The cache and the machine -/

/-- The blocks of the cache are in their slots, and its rota has come as far as the script. -/
structure InSlots (c : Cache g μ Rota) (script : List Nat) (m : Slots g) : Prop where
  /-- Evictions are left to the rota. -/
  policy : c.policy = .random
  /-- The ways taken are the slots taken. -/
  tags : ∀ s, takenTags (c.sets.get s).toList = m.taken s
  /-- Each eviction has turned the rota by one entry. -/
  evictor : c.evictor = ⟨script.rotate m.evictions⟩

theorem inSlots_empty (g : Geometry) (m : μ) (script : List Nat) :
    (empty g .random m (⟨script⟩ : Rota)).InSlots script {} where
  policy := rfl
  tags s := by
    rw [toList_get_empty, takenTags_replicate]
  evictor := by
    rw [List.rotate_zero]
    rfl

namespace InSlots

variable {c : Cache g μ Rota} {script : List Nat} {m : Slots g}

/-- The way given up, and the rota afterwards. -/
theorem victim (h : c.InSlots script m) :
    ((c.policy.victim c.evictor g.ways_pos).1 : Nat) = slotAt script m.evictions g.ways ∧
      (c.policy.victim c.evictor g.ways_pos).2 = ⟨script.rotate (m.evictions + 1)⟩ := by
  have hnext := Rota.next_rotate script m.evictions g.ways_pos
  rw [h.policy, h.evictor]
  refine ⟨?_, congrArg Prod.snd hnext⟩
  exact Option.get_of_eq_some _ (congrArg Prod.fst hnext)

/-- **Every access** takes the cache where it takes the slots. -/
theorem access [Store μ] (h : c.InSlots script m) (hc : c.Sound) (op : Access) :
    (c.access op).2.InSlots script (m.access script op.address) where
  policy := (c.policy_access op).trans h.policy
  tags s := by
    by_cases hs : s = (g.locate op.address).index
    · subst hs
      have hstep := c.rowStep_access op
      rw [h.victim.1, h.policy] at hstep
      have htags := hstep.takenTags_random (hc _)
      have hrow : takenTags (c.home op.address).toList = m.taken (g.locate op.address).index :=
        h.tags _
      rw [hrow, Vector.length_toList] at htags
      rw [Slots.taken_access_self]
      exact htags
    · rw [c.sets_access_of_ne hs, Slots.taken_access_of_ne hs, h.tags]
  evictor := by
    have hrow : takenTags (c.home op.address).toList = m.taken (g.locate op.address).index :=
      h.tags _
    rw [evictor_access, hrow, h.victim.2, h.evictor]
    simp only [Slots.access]
    split <;> rfl

end InSlots

theorem inSlots_run [Store μ] (g : Geometry) (m : μ) (script : List Nat) (ops : List Access) :
    ((empty g .random m (⟨script⟩ : Rota)).run ops).2.InSlots script
      (Slots.after g script ops) := by
  refine (run_induction (empty g .random m (⟨script⟩ : Rota))
    (P := fun past c => c.Sound ∧ c.InSlots script (Slots.after g script past)) ?_ ?_ ops).2
  · exact ⟨sound_empty g _ m _, inSlots_empty g m script⟩
  · rintro past c op ⟨hc, h⟩
    rw [Slots.after_concat]
    exact ⟨hc.access op, h.access hc op⟩

/-! ## Another evictor -/

section WithEvictor

variable {ν' : Type v'}

/-- The cache with another evictor. -/
def withEvictor (c : Cache g μ ν) (e : ν') : Cache g μ ν' where
  policy := c.policy
  sets := c.sets
  store := c.store
  evictor := e
  counters := c.counters

/-- What `settle` found or did, with another evictor. -/
def Settled.withEvictor (s : Settled g μ ν) (e : ν') : Settled g μ ν' where
  way := s.way
  cycles := s.cycles
  events := s.events
  cache := s.cache.withEvictor e

variable [Store μ] [Evictor ν] [Evictor ν'] {c : Cache g μ ν}

theorem settle_withEvictor (hp : c.policy = .leastRecentlyUsed) (e : ν') (a : UInt32) :
    (c.withEvictor e).settle a = (c.settle a).withEvictor e := by
  have hp' : (c.withEvictor e).policy = .leastRecentlyUsed := hp
  have hset : (c.withEvictor e).sets[(g.locate a).index] = c.sets[(g.locate a).index] := rfl
  simp only [settle, hset, hp, hp']
  cases findTag c.sets[(g.locate a).index] (g.locate a).tag with
  | hit way => rfl
  | free way => rfl
  | full => rfl

/-- **An access under recency** takes no notice of the evictor. -/
theorem access_withEvictor (hp : c.policy = .leastRecentlyUsed) (e : ν') (op : Access) :
    (c.withEvictor e).access op = ((c.access op).1, (c.access op).2.withEvictor e) := by
  simp only [access, settle_withEvictor hp]
  rfl

/-- **Nor does a run.** -/
theorem run_withEvictor (hp : c.policy = .leastRecentlyUsed) (e : ν') (ops : List Access) :
    (c.withEvictor e).run ops = ((c.run ops).1, (c.run ops).2.withEvictor e) := by
  induction ops generalizing c with
  | nil => rfl
  | cons op ops ih =>
    rw [run_cons, run_cons, access_withEvictor hp, ih ((c.policy_access op).trans hp)]

/-- The evictor is left as it was. -/
theorem evictor_run (hp : c.policy = .leastRecentlyUsed) (ops : List Access) :
    (c.run ops).2.evictor = c.evictor := by
  have hsame : c.run ops = ((c.run ops).1, (c.run ops).2.withEvictor c.evictor) :=
    run_withEvictor hp c.evictor ops
  rw [hsame]
  rfl

end WithEvictor

/-! ## Runs -/

/-- **Slots and scripts.**  A fresh cache under the random policy has a rota of the entries of a
script.  After any number of accesses its sets stand as the slots that have served the same ones:
the tags of the taken ways, in their order, are those in the slots, and no other way is taken.  The
rota has been turned by one entry for each eviction, in whichever set, and by nothing else.  The
next access is free if the slots of its set have its block, and otherwise costs a miss.  And as long
as a set was not asked for more blocks than it has ways, they stand in the order of their first
accesses.  Under recency the evictor stays as it is, and with any other evictor in its place all
answers are the same, and so are all sets, the store and all calls to it, and all counters. -/
theorem slots_of_run {ν' : Type v'} [Store μ] [Evictor ν] [Evictor ν'] (g : Geometry) (m : μ)
    (script : List Nat) (e : ν) (e' : ν') (ops : List Access) :
    (∀ n,
      let r := (empty g .random m (⟨script⟩ : Rota)).run ops
      let c := ((empty g .random m (⟨script⟩ : Rota)).run (ops.take n)).2
      let slots := Slots.after g script (ops.take n)
      (∀ s,
        takenTags (c.sets.get s).toList = slots.taken s ∧
        ∀ b ∈ (c.sets.get s).toList.drop (slots.taken s).length, b.valid = false) ∧
      c.evictor = ⟨script.rotate slots.evictions⟩ ∧
      (∀ op, ops[n]? = some op →
        r.1[n]?.map Reply.cycles =
          some (if (g.locate op.address).tag ∈ slots.taken (g.locate op.address).index then 0
            else 50)) ∧
      ∀ s, (firsts (g.history s (ops.take n))).length ≤ g.ways →
        slots.taken s = firsts (g.history s (ops.take n))) ∧
    let c := empty g .leastRecentlyUsed m e
    let c' := empty g .leastRecentlyUsed m e'
    (c.run ops).2.evictor = e ∧
    (c'.run ops).1 = (c.run ops).1 ∧
    (c'.run ops).2.sets = (c.run ops).2.sets ∧
    (c'.run ops).2.store = (c.run ops).2.store ∧
    (c'.recorded.run ops).2.store.calls = (c.recorded.run ops).2.store.calls ∧
    (c'.run ops).2.counters = (c.run ops).2.counters := by
  refine ⟨?_, ?_⟩
  · intro n r c slots
    have h : c.InSlots script slots := inSlots_run g m script (ops.take n)
    have hc : c.Sound := sound_run g _ m _ (ops.take n)
    refine ⟨?_, h.evictor, ?_, fun s => Slots.taken_after_eq_firsts script⟩
    · intro s
      refine ⟨h.tags s, fun b hb => ?_⟩
      obtain ⟨i, hi⟩ := List.mem_iff_getElem?.mp hb
      rw [List.getElem?_drop, ← h.tags] at hi
      exact (hc s).free_of_length_le hi (Nat.le_add_right _ _)
    · intro op hop
      have hcycles : r.1[n]?.map Reply.cycles =
          ops[n]?.map fun op => if c.Holds op.address then hitCycles else missCycles :=
        getElem?_cycles_run _ ops n
      rw [hcycles, hop, Option.map_some, ← h.tags]
      simp only [holds_iff_mem_takenTags]
      rfl
  · intro c c'
    have hrun : c'.run ops = ((c.run ops).1, (c.run ops).2.withEvictor e') :=
      run_withEvictor (c := c) rfl e' ops
    have hrecorded : c'.recorded.run ops =
        ((c.recorded.run ops).1, (c.recorded.run ops).2.withEvictor e') :=
      run_withEvictor (c := c.recorded) rfl e' ops
    rw [hrun, hrecorded]
    exact ⟨evictor_run rfl ops, rfl, rfl, rfl, rfl, rfl⟩

/-- Two sets of two ways.  Both are full after four accesses; then a block of the first set, one of
the second and another one of the first make room in turn, and the script has come round. -/
theorem slots_of_run_across_sets :
    let g : Geometry := ⟨2, 1, 3, by decide, by decide, by decide⟩
    let ops : List Access :=
      [.read 16, .write 8 7, .read 0, .read 24, .read 32, .write 40 1, .read 48, .read 16]
    let r := (empty g .random ({} : Memory) (⟨[1, 0, 3]⟩ : Rota)).run ops
    let c := fun n => ((empty g .random ({} : Memory) (⟨[1, 0, 3]⟩ : Rota)).run (ops.take n)).2
    takenTags ((c 4).sets.get ⟨0, by decide⟩).toList = [1, 0] ∧
      takenTags ((c 4).sets.get ⟨1, by decide⟩).toList = [0, 1] ∧
      takenTags ((c 7).sets.get ⟨0, by decide⟩).toList = [1, 3] ∧
      takenTags ((c 7).sets.get ⟨1, by decide⟩).toList = [2, 1] ∧
      (c 7).evictor = ⟨[1, 0, 3]⟩ ∧
      r.1[7]?.map Reply.cycles = some 0 := by
  intro g ops r c
  have hslots := (slots_of_run g ({} : Memory) [1, 0, 3] (⟨[]⟩ : Rota) (⟨[]⟩ : Rota) ops).1
  refine ⟨?_, ?_, ?_, ?_, ?_, ?_⟩
  · rw [((hslots 4).1 _).1, (hslots 4).2.2.2 _ (by decide)]
    decide
  · rw [((hslots 4).1 _).1, (hslots 4).2.2.2 _ (by decide)]
    decide
  · rw [((hslots 7).1 _).1]
    decide
  · rw [((hslots 7).1 _).1]
    decide
  · rw [(hslots 7).2.1]
    decide
  · rw [(hslots 7).2.2.1 (.read 16) rfl]
    decide

end Cache

end SetAssoc
