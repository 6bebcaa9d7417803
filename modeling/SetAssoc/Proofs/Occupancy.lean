import SetAssoc.Proofs.Census
import SetAssoc.Proofs.Residency
import SetAssoc.Proofs.Reuse
import Mathlib
/-!
# How full a cache is

No block leaves a set that has a free way.  Until a set is full every block accessed there is still
in it, so the number of ways taken is the number of distinct blocks accessed, and then it is the
number of ways (`Filled.length_eq_min`).  Which blocks these are is up to the policy and the
evictor, but how many is not.

A miss fills a free way or drives out a block, and nothing else does either of these.  Over a run
the misses are therefore as many as the ways taken and the blocks driven out (`evictions`).
-/

namespace SetAssoc

universe u v

/-! ## The tags of one row -/

section Row

variable {n tags : Nat} {row row' : List (Block n)} {p : Policy} {t : UInt32} {victim : Nat}

theorem takenTags_perm (h : row.Perm row') : (takenTags row).Perm (takenTags row') :=
  (h.filter _).map _

theorem countP_valid_eq_length (row : List (Block n)) :
    row.countP (fun b => b.valid) = (takenTags row).length := by
  rw [takenTags, List.length_map, List.countP_eq_length_filter]

/-- A way is taken or free. -/
theorem countP_free_add_length (row : List (Block n)) :
    row.countP (fun b => !b.valid) + (takenTags row).length = row.length := by
  rw [← countP_valid_eq_length, List.length_eq_countP_add_countP (fun b => b.valid), Nat.add_comm]
  congr 1
  exact List.countP_congr fun b _ => by simp

theorem Tidy.nodup_takenTags (h : Tidy tags row) : (takenTags row).Nodup := by
  rw [takenTags, List.Nodup, List.pairwise_map, List.pairwise_filter]
  exact h.distinct.imp fun hne hb hc => hne hb hc

/-- **One access, whatever the policy,** adds its tag to those of the row.  One of them goes if the
tag is new and all ways are taken, and otherwise none. -/
theorem RowStep.takenTags_cases (h : RowStep p victim t row row') :
    (t ∈ takenTags row ∧ (takenTags row').Perm (takenTags row)) ∨
    (t ∉ takenTags row ∧ (takenTags row).length < row.length ∧
      (takenTags row').Perm (t :: takenTags row)) ∨
    (t ∉ takenTags row ∧ (takenTags row).length = row.length ∧
      ∃ gone rest, (takenTags row).Perm (gone :: rest) ∧ (takenTags row').Perm (t :: rest)) := by
  have htags : ∀ (xs ys : List (Block n)) {new : Block n}, new.Bears t →
      (takenTags (p.arrange xs new ys)).Perm (t :: takenTags (xs ++ ys)) := by
    intro xs ys new hnew
    rw [← takenTags_cons_of_bears hnew]
    exact takenTags_perm ((p.perm_arrange xs new ys).trans List.perm_middle)
  cases h with
  | hit xs ys old new hold hnew =>
    refine .inl ⟨mem_takenTags.mpr ⟨old, by simp, hold⟩, (htags xs ys hnew).trans ?_⟩
    rw [← takenTags_cons_of_bears hold]
    exact takenTags_perm List.perm_middle.symm
  | free xs ys old new habsent hbefore hold hnew =>
    have hroom := length_takenTags_lt_iff.mpr ⟨old, (by simp : old ∈ xs ++ old :: ys), hold⟩
    refine .inr (.inl ⟨notMem_takenTags habsent, hroom, ?_⟩)
    have hsame : takenTags (xs ++ old :: ys) = takenTags (xs ++ ys) := by
      rw [takenTags_append, takenTags_append, takenTags_cons_of_free hold]
    rw [hsame]
    exact htags xs ys hnew
  | full xs ys old new habsent hvalid hlen hnew =>
    have hold : old.Bears old.tag := ⟨hvalid old (by simp), rfl⟩
    refine .inr (.inr ⟨notMem_takenTags habsent, length_takenTags_of_valid hvalid, old.tag,
      takenTags (xs ++ ys), ?_, htags xs ys hnew⟩)
    rw [← takenTags_cons_of_bears hold]
    exact takenTags_perm List.perm_middle

/-- The taken ways of a row in terms of the tags accessed so far: all of these while there is a free
way, and only these ever. -/
structure Filled (past : List UInt32) (row : List (Block n)) : Prop where
  /-- No tag occurs twice. -/
  nodup : (takenTags row).Nodup
  /-- Only tags accessed occur. -/
  accessed : ∀ r ∈ takenTags row, r ∈ past
  /-- None of them is missing while a way is free. -/
  kept : (takenTags row).length < row.length → ∀ r ∈ past, r ∈ takenTags row

namespace Filled

variable {past : List UInt32}

/-- **How many ways are taken.** -/
theorem length_eq_min (h : Filled past row) :
    (takenTags row).length = min row.length past.toFinset.card := by
  have hcard : (takenTags row).toFinset.card = (takenTags row).length :=
    List.toFinset_card_of_nodup h.nodup
  have hle := length_takenTags_le row
  have haccessed : (takenTags row).toFinset.card ≤ past.toFinset.card :=
    Finset.card_le_card fun r hr => by simpa using h.accessed r (by simpa using hr)
  rcases Nat.lt_or_eq_of_le hle with hroom | hfull
  · have hkept : past.toFinset.card ≤ (takenTags row).toFinset.card :=
      Finset.card_le_card fun r hr => by simpa using h.kept hroom r (by simpa using hr)
    omega
  · omega

/-- As long as not more tags are accessed than there are ways, the next one is there or finds a free
way. -/
theorem mem_or_length_lt (h : Filled past row)
    (hcard : (past ++ [t]).toFinset.card ≤ row.length) :
    t ∈ takenTags row ∨ (takenTags row).length < row.length := by
  by_contra hnot
  obtain ⟨hnew, hfull⟩ := not_or.mp hnot
  have hnodup : (t :: takenTags row).Nodup := List.nodup_cons.mpr ⟨hnew, h.nodup⟩
  have hall : (t :: takenTags row).toFinset ⊆ (past ++ [t]).toFinset := by
    intro r hr
    rw [List.mem_toFinset, List.mem_cons] at hr
    rw [List.mem_toFinset, List.mem_append, List.mem_singleton]
    exact hr.symm.imp_left (h.accessed r)
  have hle := Finset.card_le_card hall
  rw [List.toFinset_card_of_nodup hnodup, List.length_cons] at hle
  omega

theorem replicate (w : Nat) : Filled [] (List.replicate w ({} : Block n)) := by
  refine ⟨?_, ?_, fun _ _ hr => absurd hr List.not_mem_nil⟩
  · rw [takenTags_replicate]
    exact List.nodup_nil
  · rw [takenTags_replicate]
    exact fun _ hr => absurd hr List.not_mem_nil

/-- One access more. -/
theorem step (h : Filled past row) (hstep : RowStep p victim t row row')
    (hlen : row'.length = row.length) (htidy : Tidy tags row') : Filled (past ++ [t]) row' where
  nodup := htidy.nodup_takenTags
  accessed := by
    intro r hr
    have hcases : r = t ∨ r ∈ takenTags row := by
      rcases hstep.takenTags_cases with ⟨-, hperm⟩ | ⟨-, -, hperm⟩ |
        ⟨-, -, gone, rest, hgone, hperm⟩
      · exact .inr (hperm.mem_iff.mp hr)
      · exact List.mem_cons.mp (hperm.mem_iff.mp hr)
      · refine (List.mem_cons.mp (hperm.mem_iff.mp hr)).imp_right fun hrest => ?_
        exact hgone.mem_iff.mpr (List.mem_cons_of_mem gone hrest)
    rcases hcases with rfl | hold
    · simp
    · exact List.mem_append_left _ (h.accessed r hold)
  kept := by
    intro hroom' r hr
    rw [List.mem_append, List.mem_singleton] at hr
    rcases hstep.takenTags_cases with ⟨hmem, hperm⟩ | ⟨-, hroom, hperm⟩ |
      ⟨-, hfull, gone, rest, hgone, hperm⟩
    · rw [hperm.length_eq, hlen] at hroom'
      rw [hperm.mem_iff]
      rcases hr with hr | rfl
      · exact h.kept hroom' r hr
      · exact hmem
    · rw [hperm.mem_iff, List.mem_cons]
      exact hr.symm.imp_right (h.kept hroom r)
    · -- one tag went and one came, so the row is still full
      have hcount := hgone.length_eq
      have hcount' := hperm.length_eq
      rw [List.length_cons] at hcount hcount'
      omega

end Filled

end Row

namespace Cache

variable {g : Geometry} {μ : Type u} {ν : Type v}

/-! ## Sets and their histories -/

/-- **Every set is filled by what was accessed there.** -/
theorem filled_run [Store μ] [Evictor ν] (g : Geometry) (policy : Policy) (m : μ) (e : ν)
    (ops : List Access) (s : Fin g.sets) :
    Filled (g.history s ops) (((empty g policy m e).run ops).2.sets.get s).toList := by
  refine (run_induction (empty g policy m e) (P := fun past c => c.Sound ∧
    ∀ s, Filled (g.history s past) (c.sets.get s).toList) ?_ ?_ ops).2 s
  · refine ⟨sound_empty g policy m e, fun s => ?_⟩
    rw [toList_get_empty]
    exact Filled.replicate g.ways
  · rintro past c op ⟨hc, h⟩
    refine ⟨hc.access op, fun s => ?_⟩
    rw [g.history_append]
    by_cases hs : s = (g.locate op.address).index
    · subst hs
      rw [g.history_cons_self]
      refine (h _).step (c.rowStep_access op) ?_ (hc.access op _)
      rw [Vector.length_toList, Vector.length_toList]
    · -- neither the row nor its history changes
      have hnone : g.history s [op] = [] := g.history_cons_of_ne hs []
      rw [hnone, List.append_nil, c.sets_access_of_ne hs]
      exact h s

/-- The ways taken in a set are as many as the distinct blocks accessed there, up to the number of
ways. -/
theorem length_takenTags_run [Store μ] [Evictor ν] (g : Geometry) (policy : Policy) (m : μ) (e : ν)
    (ops : List Access) (s : Fin g.sets) :
    (takenTags (((empty g policy m e).run ops).2.sets.get s).toList).length =
      min g.ways (g.blocksIn s ops).card := by
  rw [(filled_run g policy m e ops s).length_eq_min, Vector.length_toList, g.card_blocksIn]

/-- Free ways are counted set by set. -/
theorem freeLines_eq_sum (c : Cache g μ ν) :
    c.freeLines = ∑ s, (g.ways - (takenTags (c.sets.get s).toList).length) := by
  have hrow : ∀ s, (c.sets.get s).toList.countP (fun b => !b.valid) =
      g.ways - (takenTags (c.sets.get s).toList).length := by
    intro s
    exact Nat.eq_sub_of_add_eq ((countP_free_add_length _).trans Vector.length_toList)
  rw [freeLines, blocks, List.countP_flatMap, toList_eq_map_get, List.map_map, Fin.sum_univ_def]
  exact congrArg List.sum (List.map_congr_left fun s _ => hrow s)

/-! ## Misses and evictions -/

section Evictions

variable [Store μ] [Evictor ν]

/-- The blocks that a run drives out, in order, each by its first address. -/
def evictions (c : Cache g μ ν) : List Access → List UInt32
  | [] => []
  | op :: ops => (c.evicted? op.address).toList ++ (c.access op).2.evictions ops

/-- **A miss** fills a free way or drives out a block. -/
theorem missesOf_add_freeLines_access (c : Cache g μ ν) (op : Access) :
    missesOf [(c.access op).1] + (c.access op).2.freeLines =
      c.freeLines + (c.evicted? op.address).toList.length := by
  rw [missesOf_access, freeLines_access]
  have hs := c.settling op.address
  simp only [evicted?]
  generalize c.settle op.address = s at hs
  cases hs with
  | hit way found =>
    rw [if_pos (holds_of_found found), if_pos (.inl (holds_of_found found))]
    exact Nat.zero_add _
  | miss way evictor room =>
    have hcount : (({ c with evictor } : Cache g μ ν).replace op.address way).cache.freeLines +
        (!((c.home op.address).get way).valid).toNat = c.freeLines :=
      freeLines_replace { c with evictor } op.address way
    rw [if_neg room.not_holds, way_replace]
    cases hvalid : ((c.home op.address).get way).valid with
    | false =>
      rw [hvalid] at hcount
      rw [if_pos (.inr rfl), ← hcount]
      exact Nat.add_comm _ _
    | true =>
      have hgoes := not_or.mpr ⟨room.not_holds, Bool.false_ne_true.symm⟩
      rw [hvalid] at hcount
      rw [if_neg hgoes, ← hcount]
      exact Nat.add_comm _ _

theorem missesOf_add_freeLines_run (c : Cache g μ ν) (ops : List Access) :
    missesOf (c.run ops).1 + (c.run ops).2.freeLines = c.freeLines + (c.evictions ops).length := by
  induction ops generalizing c with
  | nil => exact Nat.zero_add _
  | cons op ops ih =>
    have hone := c.missesOf_add_freeLines_access op
    have hrest := ih (c.access op).2
    rw [run_cons, missesOf_cons, evictions, List.length_append]
    show _ + ((c.access op).2.run ops).2.freeLines = _
    omega

/-- **How full a cache is, and what it missed.**  In every set as many ways are taken as distinct
blocks were accessed there, until all are; so the number of free ways depends on nothing but the
addresses.  The misses are as many as the ways taken and the blocks driven out. -/
theorem occupancy_of_run (g : Geometry) (policy : Policy) (m : μ) (e : ν) (ops : List Access) :
    let fresh := empty g policy m e
    let r := fresh.run ops
    (∀ s, (r.2.sets.get s).toList.countP (fun b => b.valid) = min g.ways (g.blocksIn s ops).card) ∧
    r.2.freeLines = ∑ s, (g.ways - min g.ways (g.blocksIn s ops).card) ∧
    missesOf r.1 = g.ways * g.sets - r.2.freeLines + (fresh.evictions ops).length ∧
    r.2.counters.misses =
      .ofNat (g.ways * g.sets - r.2.freeLines + (fresh.evictions ops).length) := by
  intro fresh r
  have hmisses : missesOf r.1 = g.ways * g.sets - r.2.freeLines + (fresh.evictions ops).length := by
    have hbalance : missesOf r.1 + r.2.freeLines = _ := fresh.missesOf_add_freeLines_run ops
    have hall : fresh.freeLines = g.lines := freeLines_empty policy m e
    have hlines : g.lines = g.ways * g.sets := rfl
    have hle : r.2.freeLines ≤ g.lines := freeLines_le r.2
    omega
  refine ⟨?_, ?_, hmisses, ?_⟩
  · intro s
    rw [countP_valid_eq_length]
    exact length_takenTags_run g policy m e ops s
  · rw [freeLines_eq_sum]
    exact Finset.sum_congr rfl fun s _ => by rw [length_takenTags_run]
  · rw [counters_run, ← hmisses]
    exact UInt64.zero_add _

end Evictions

end Cache

end SetAssoc
