import SetAssoc.Proofs.Totals
/-!
# Counting blocks

An access replaces one block of the cache at most and changes one, so any count over all blocks
moves by those two (`countP_replace`, `countP_serveAt`).  For blocks with changes this is a balance:
a block goes back exactly when the count falls, and only a write can raise it, by one.  For free
ways it is another: no block goes back to make room where there is a free way, so a miss pays for a
block that went back or for a way that was filled, and never for both.
-/

namespace SetAssoc

universe u v

theorem countP_setAt {α : Type u} {w : Nat} (p : α → Bool) (row : Vector α w) (i : Fin w) (x : α) :
    (setAt row i x).toList.countP p + (p (row.get i)).toNat =
      row.toList.countP p + (p x).toNat := by
  obtain ⟨xs, ys, -, hrow, hset⟩ := exists_split row i
  have hone : ∀ b, List.countP p (xs ++ b :: ys) = (xs ++ ys).countP p + (p b).toNat := by
    intro b
    rw [List.perm_middle.countP_eq, List.countP_cons]
    cases p b <;> rfl
  rw [hset, hrow, hone, hone]
  omega

namespace Cache

variable {g : Geometry} {μ : Type u} {ν : Type v}

/-- Another row in one place counts as much more as it has more to count. -/
theorem countP_of_sets (p : Block g.blockWords → Bool) {c c' : Cache g μ ν} {s : Fin g.sets}
    {row : Vector (Block g.blockWords) g.ways} (hsets : c'.sets = setAt c.sets s row) :
    c'.blocks.countP p + (c.sets.get s).toList.countP p =
      c.blocks.countP p + row.toList.countP p := by
  obtain ⟨xs, ys, -, hall, hset⟩ := exists_split c.sets s
  rw [blocks, blocks, hsets, hset, hall]
  simp only [List.flatMap_append, List.flatMap_cons, List.countP_append]
  omega

/-- **Fetching a block** takes the one that stood there out of the count and the new one in. -/
theorem countP_replace [Store μ] (p : Block g.blockWords → Bool) (c : Cache g μ ν) (a : UInt32)
    (way : Fin g.ways) :
    (c.replace a way).cache.blocks.countP p + (p ((c.home a).get way)).toNat =
      c.blocks.countP p + (p (fetch g a (c.vacate a way)).1).toNat := by
  have hsets : _ + (c.home a).toList.countP p = _ := countP_of_sets p (sets_replace c a way)
  have hrow := countP_setAt p (c.home a) way (fetch g a (c.vacate a way)).1
  omega

/-- **Serving a block** counts it as the access leaves it, wherever it stands then. -/
theorem countP_serveAt (p : Block g.blockWords → Bool) (c : Cache g μ ν) (op : Access)
    (way : Fin g.ways) :
    let old := (c.home op.address).get way
    (c.serveAt op way).blocks.countP p + (p old).toNat =
      c.blocks.countP p + (p (op.leave old (g.locate op.address).offset)).toNat := by
  intro old
  have hsets : (c.serveAt op way).blocks.countP p + (c.home op.address).toList.countP p =
      c.blocks.countP p + (c.servedRow op way).toList.countP p := countP_of_sets p rfl
  have hrow : _ + (p old).toNat = _ :=
    countP_setAt p (c.home op.address) way (op.leave old (g.locate op.address).offset)
  have hperm : (c.servedRow op way).toList.countP p =
      (setAt (c.home op.address) way
        (op.leave old (g.locate op.address).offset)).toList.countP p := by
    obtain ⟨xs, ys, hlen, -, hset⟩ := exists_split (c.home op.address) way
    rw [servedRow, c.policy.toList_reorder (hset _) hlen, (c.policy.perm_arrange _ _ _).countP_eq,
      hset]
  omega

/-! ## Blocks with changes -/

/-- A write leaves the block it goes to with changes at most; a read leaves it as it is. -/
theorem dirty_leave_le {n : Nat} (op : Access) (b : Block n) (k : Fin n) :
    ((op.leave b k).valid && (op.leave b k).dirty).toNat ≤
      (b.valid && b.dirty).toNat + writesOf [op] := by
  cases op with
  | read a => exact Nat.le_add_right _ _
  | write a v => exact Nat.le_trans (Bool.toNat_le _) (Nat.le_add_left 1 _)

section Step

variable [Store μ] [Evictor ν]

/-- Settling a block sends one back exactly if there is one with changes less. -/
theorem Settling.dirtyLines {c : Cache g μ ν} {a : UInt32} {s : Settled g μ ν}
    (hs : c.Settling a s) :
    s.cache.dirtyLines + (s.events.any Event.isWriteBack).toNat = c.dirtyLines := by
  cases hs with
  | hit way found => rfl
  | miss way evictor room =>
    rw [any_isWriteBack_replace]
    exact countP_replace (fun b => b.valid && b.dirty) { c with evictor } a way

/-- **Blocks with changes:** those that went back and those still there came from writes, one from
each at most. -/
theorem writeBacksOf_add_dirtyLines_access (c : Cache g μ ν) (op : Access) :
    writeBacksOf [(c.access op).1] + (c.access op).2.dirtyLines ≤ writesOf [op] + c.dirtyLines := by
  have hs := c.settling op.address
  have hsettled := hs.dirtyLines
  have hserved := (c.settle op.address).cache.countP_serveAt (fun b => b.valid && b.dirty) op
    (c.settle op.address).way
  have hleft := dirty_leave_le op (((c.settle op.address).cache.home op.address).get
    (c.settle op.address).way) (g.locate op.address).offset
  have hback := c.writeBacksOf_access op
  have hend : (c.access op).2.dirtyLines =
      ((c.settle op.address).cache.serveAt op (c.settle op.address).way).blocks.countP
        fun b => b.valid && b.dirty := rfl
  have hmid : (c.settle op.address).cache.dirtyLines =
      (c.settle op.address).cache.blocks.countP fun b => b.valid && b.dirty := rfl
  simp only at hserved
  omega

theorem writeBacksOf_add_dirtyLines_run (c : Cache g μ ν) (ops : List Access) :
    writeBacksOf (c.run ops).1 + (c.run ops).2.dirtyLines ≤ writesOf ops + c.dirtyLines := by
  induction ops generalizing c with
  | nil => exact Nat.le_refl _
  | cons op ops ih =>
    have hone := c.writeBacksOf_add_dirtyLines_access op
    have hrest := ih (c.access op).2
    rw [run_cons, writeBacksOf_cons, writesOf_cons]
    show _ + ((c.access op).2.run ops).2.dirtyLines ≤ _
    omega

end Step

/-! ## Free ways -/

theorem length_blocks (c : Cache g μ ν) : c.blocks.length = g.lines := by
  have hways : ∀ row ∈ c.sets.toList, row.toList.length = g.ways :=
    fun row _ => Vector.length_toList
  rw [blocks, List.length_flatMap, List.map_congr_left hways, List.map_const',
    List.sum_replicate_nat, Vector.length_toList, Geometry.lines, Nat.mul_comm]

theorem freeLines_le (c : Cache g μ ν) : c.freeLines ≤ g.lines :=
  c.length_blocks ▸ List.countP_le_length

theorem eq_of_mem_blocks_empty {policy : Policy} {m : μ} {e : ν} {b : Block g.blockWords}
    (hb : b ∈ (empty g policy m e).blocks) : b = {} := by
  obtain ⟨row, hrow, hb⟩ := List.mem_flatMap.mp hb
  obtain ⟨s, rfl⟩ := exists_get_of_mem hrow
  rw [toList_get_empty] at hb
  exact List.eq_of_mem_replicate hb

/-- In a fresh cache all ways are free. -/
theorem freeLines_empty (policy : Policy) (m : μ) (e : ν) :
    (empty g policy m e).freeLines = g.lines := by
  rw [← length_blocks (empty g policy m e), freeLines, List.countP_eq_length]
  intro b hb
  rw [eq_of_mem_blocks_empty hb]
  rfl

theorem dirtyLines_empty (policy : Policy) (m : μ) (e : ν) :
    (empty g policy m e).dirtyLines = 0 := by
  rw [dirtyLines, List.countP_eq_zero]
  intro b hb
  rw [eq_of_mem_blocks_empty hb]
  exact Bool.false_ne_true

section Step

variable [Store μ] [Evictor ν]

omit [Evictor ν] in
/-- Fetching a block takes the way it goes into. -/
theorem freeLines_replace (c : Cache g μ ν) (a : UInt32) (way : Fin g.ways) :
    (c.replace a way).cache.freeLines + (!((c.home a).get way).valid).toNat = c.freeLines :=
  countP_replace (fun b => !b.valid) c a way

/-- A miss may fill a free way, or it may send a block back, but never both. -/
theorem Settling.freeLines {c : Cache g μ ν} {a : UInt32} {s : Settled g μ ν}
    (hs : c.Settling a s) :
    c.freeLines + (s.events.any Event.isWriteBack).toNat ≤
      s.cache.freeLines + if c.Holds a then 0 else 1 := by
  cases hs with
  | hit way found =>
    rw [if_pos (holds_of_found found)]
    exact Nat.le_refl _
  | miss way evictor room =>
    -- the old block either was no block or can have gone back
    have hcount : (({ c with evictor } : Cache g μ ν).replace a way).cache.freeLines +
        (!((c.home a).get way).valid).toNat = c.freeLines :=
      freeLines_replace { c with evictor } a way
    have hback : (({ c with evictor } : Cache g μ ν).replace a way).events.any Event.isWriteBack =
        (((c.home a).get way).valid && ((c.home a).get way).dirty) :=
      any_isWriteBack_replace _ a way
    rw [if_neg room.not_holds, hback]
    cases hvalid : ((c.home a).get way).valid with
    | false =>
      rw [hvalid] at hcount
      exact Nat.le_of_eq hcount.symm
    | true =>
      have hone := Bool.toNat_le ((c.home a).get way).dirty
      rw [hvalid] at hcount
      rw [Bool.true_and]
      simp only [Bool.not_true, Bool.toNat_false] at hcount
      omega

/-- Serving a block takes no way and frees none. -/
theorem freeLines_access (c : Cache g μ ν) (op : Access) :
    (c.access op).2.freeLines = (c.settle op.address).cache.freeLines := by
  have hserved : (c.access op).2.freeLines + _ = (c.settle op.address).cache.freeLines + _ :=
    (c.settle op.address).cache.countP_serveAt (fun b => !b.valid) op (c.settle op.address).way
  simpa only [Access.valid_leave, Nat.add_right_cancel_iff] using hserved

/-- **Free ways:** a block that goes back and a way that is filled each take a miss of their own. -/
theorem writeBacksOf_add_freeLines_access (c : Cache g μ ν) (op : Access) :
    writeBacksOf [(c.access op).1] + c.freeLines ≤
      missesOf [(c.access op).1] + (c.access op).2.freeLines := by
  have hsettled := (c.settling op.address).freeLines
  rw [writeBacksOf_access, missesOf_access, freeLines_access]
  omega

theorem writeBacksOf_add_freeLines_run (c : Cache g μ ν) (ops : List Access) :
    writeBacksOf (c.run ops).1 + c.freeLines ≤
      missesOf (c.run ops).1 + (c.run ops).2.freeLines := by
  induction ops generalizing c with
  | nil => exact Nat.le_refl _
  | cons op ops ih =>
    have hone := c.writeBacksOf_add_freeLines_access op
    have hrest := ih (c.access op).2
    rw [run_cons, writeBacksOf_cons, missesOf_cons]
    show _ ≤ _ + ((c.access op).2.run ops).2.freeLines
    omega

end Step

end Cache

end SetAssoc
