import SetAssoc.Proofs.Invariant
import Mathlib.Data.Finset.Card
/-!
# Recency

Under the recency policy the past of a set decides what stands in it: the blocks accessed most
recently, latest first, as many as there are ways.  `recent` is that order without the bound.  One
access moves its tag to the front of `recent` and does the same to the taken ways of the row, and
cutting off after the last way commutes with that (`take_cons_erase_take`), whether the block was
there, went into a free way, or pushed out the last one.

How far down a tag stands in `recent` is the number of distinct tags accessed since, so that what is
still in the cache can also be told without any order (`mem_take_recent_iff`).
-/

namespace SetAssoc

universe u v

/-! ## Most recent first -/

section Recent

variable {α : Type u} [DecidableEq α]

/-- The distinct elements of a history, the one that occurs last first. -/
def recent (past : List α) : List α := past.dedup.reverse

example : recent [1, 2, 1, 3] = [3, 1, 2] := by decide

@[simp] theorem mem_recent {past : List α} {x : α} : x ∈ recent past ↔ x ∈ past := by
  rw [recent, List.mem_reverse, List.mem_dedup]

theorem dedup_concat (past : List α) (x : α) :
    (past ++ [x]).dedup = past.dedup.erase x ++ [x] := by
  induction past with
  | nil => rfl
  | cons y past ih =>
    rw [List.cons_append]
    by_cases hy : y ∈ past
    · rw [List.dedup_cons_of_mem (List.mem_append_left _ hy), List.dedup_cons_of_mem hy, ih]
    · rw [List.dedup_cons_of_notMem hy]
      by_cases hyx : y = x
      · subst hyx
        rw [List.dedup_cons_of_mem (by simp), ih, List.erase_cons_head, List.erase_of_not_mem]
        rwa [List.mem_dedup]
      · rw [List.dedup_cons_of_notMem (by simp [hy, hyx]), ih,
          List.erase_cons_tail (by simpa using hyx)]
        rfl

/-- An access moves its element to the front. -/
theorem recent_concat (past : List α) (x : α) :
    recent (past ++ [x]) = x :: (recent past).erase x := by
  have hnodup : past.dedup.Nodup := List.nodup_dedup past
  rw [recent, recent, dedup_concat, List.reverse_append, hnodup.erase_eq_filter,
    (List.nodup_reverse.mpr hnodup).erase_eq_filter, ← List.filter_reverse]
  rfl

/-- Cutting off the end commutes with moving an element to the front. -/
theorem take_erase_take (l : List α) (x : α) (n : Nat) :
    ((l.take (n + 1)).erase x).take n = (l.erase x).take n := by
  induction l generalizing n with
  | nil => rfl
  | cons y l ih =>
    by_cases hyx : y = x
    · subst hyx
      rw [List.take_succ_cons, List.erase_cons_head, List.erase_cons_head, List.take_take,
        Nat.min_self]
    · have hbeq : ¬ (y == x) = true := by simpa using hyx
      rw [List.take_succ_cons, List.erase_cons_tail hbeq, List.erase_cons_tail hbeq]
      cases n with
      | zero => rfl
      | succ n => rw [List.take_succ_cons, List.take_succ_cons, ih]

theorem take_cons_erase_take (l : List α) (x : α) (n : Nat) :
    (x :: (l.take n).erase x).take n = (x :: l.erase x).take n := by
  cases n with
  | zero => rfl
  | succ n => rw [List.take_succ_cons, List.take_succ_cons, take_erase_take]

/-- **How far down an element stands:** below those that occur after it. -/
theorem mem_take_recent_iff {before since : List α} {x : α} (hx : x ∉ since) (n : Nat) :
    x ∈ (recent (before ++ x :: since)).take n ↔ since.toFinset.card < n := by
  obtain ⟨older, holder⟩ := List.suffix_union_right before (x :: since.dedup)
  -- what occurs after `x` stands above it, and nothing that only occurs before does
  have hsplit : recent (before ++ x :: since) = recent since ++ x :: older.reverse := by
    rw [recent, List.dedup_append, List.dedup_cons_of_notMem hx, ← holder, List.reverse_append,
      List.reverse_cons, List.append_assoc]
    rfl
  have hlen : since.toFinset.card = (recent since).length := by
    rw [List.card_toFinset, recent, List.length_reverse]
  rw [hsplit, hlen]
  constructor
  · intro hmem
    by_contra hle
    rw [List.take_append_of_le_length (Nat.le_of_not_lt hle)] at hmem
    exact hx (mem_recent.mp (List.mem_of_mem_take hmem))
  · intro hlt
    refine List.mem_take_iff_getElem.mpr ⟨(recent since).length, by simp [hlt], ?_⟩
    rw [List.getElem_append_right (Nat.le_refl _)]
    simp

end Recent

/-! ## The tags in a row -/

section TakenTags

variable {n tags : Nat}

/-- The tags of the ways that are taken, in their order. -/
def takenTags (row : List (Block n)) : List UInt32 :=
  (row.filter fun b => b.valid).map Block.tag

@[simp] theorem takenTags_append (xs ys : List (Block n)) :
    takenTags (xs ++ ys) = takenTags xs ++ takenTags ys := by
  simp [takenTags]

theorem takenTags_cons_of_bears {b : Block n} {t : UInt32} (hb : b.Bears t)
    (ys : List (Block n)) : takenTags (b :: ys) = t :: takenTags ys := by
  rw [takenTags, List.filter_cons_of_pos hb.1, List.map_cons, hb.2]
  rfl

theorem takenTags_cons_of_free {b : Block n} (hb : b.valid = false) (ys : List (Block n)) :
    takenTags (b :: ys) = takenTags ys := by
  rw [takenTags, List.filter_cons_of_neg (by simpa using hb)]
  rfl

theorem takenTags_eq_nil {row : List (Block n)} (h : ∀ b ∈ row, b.valid = false) :
    takenTags row = [] := by
  rw [takenTags, List.map_eq_nil_iff, List.filter_eq_nil_iff]
  intro b hb
  simp [h b hb]

theorem takenTags_replicate (w : Nat) : takenTags (List.replicate w ({} : Block n)) = [] := by
  apply takenTags_eq_nil
  intro b hb
  rw [List.eq_of_mem_replicate hb]

theorem length_takenTags_of_valid {row : List (Block n)} (h : ∀ b ∈ row, b.valid = true) :
    (takenTags row).length = row.length := by
  rw [takenTags, List.length_map, List.filter_eq_self.mpr h]

theorem length_takenTags_le (row : List (Block n)) : (takenTags row).length ≤ row.length := by
  rw [takenTags, List.length_map]
  exact List.length_filter_le _ _

theorem length_takenTags_lt_iff {row : List (Block n)} :
    (takenTags row).length < row.length ↔ ∃ b ∈ row, b.valid = false := by
  rw [takenTags, List.length_map, List.length_filter_lt_length_iff_exists]
  simp

theorem mem_takenTags {row : List (Block n)} {t : UInt32} :
    t ∈ takenTags row ↔ ∃ b ∈ row, b.Bears t := by
  simp [takenTags, Block.Bears, and_assoc]

theorem notMem_takenTags {row : List (Block n)} {t : UInt32} (h : ∀ b ∈ row, ¬ b.Bears t) :
    t ∉ takenTags row := by
  rw [mem_takenTags]
  rintro ⟨b, hb, hbears⟩
  exact h b hb hbears

/-- In a tidy row the ways after the taken ones are free. -/
theorem Tidy.free_of_length_le {row : List (Block n)} (h : Tidy tags row) {i : Nat} {b : Block n}
    (hi : row[i]? = some b) (hle : (takenTags row).length ≤ i) : b.valid = false := by
  by_contra hb
  have hvalid : b.valid = true := by simpa using hb
  obtain ⟨hlt, rfl⟩ := List.getElem?_eq_some_iff.mp hi
  -- all ways up to this one are taken, which is one too many
  have hsplit : row = row.take i ++ row[i] :: row.drop (i + 1) := by
    rw [← List.drop_eq_getElem_cons hlt, List.take_append_drop]
  have htidy : Tidy tags (row.take i ++ row[i] :: row.drop (i + 1)) := by
    rw [← hsplit]
    exact h
  have hbefore := htidy.valid_before hvalid
  have hlen : (takenTags row).length = i + (1 + (takenTags (row.drop (i + 1))).length) := by
    conv_lhs => rw [hsplit]
    rw [takenTags_append, takenTags_cons_of_bears ⟨hvalid, rfl⟩, List.length_append,
      length_takenTags_of_valid hbefore, List.length_take, Nat.min_eq_left (Nat.le_of_lt hlt),
      List.length_cons, Nat.add_comm 1]
  omega

/-- **One access under recency** moves its tag to the front of the taken ways, and nothing stays
beyond the last way. -/
theorem RowStep.takenTags_eq {row row' : List (Block n)} {t : UInt32} {w : Nat}
    (h : RowStep .leastRecentlyUsed (w - 1) t row row') (htidy : Tidy tags row)
    (hw : row.length = w) : takenTags row' = (t :: (takenTags row).erase t).take w := by
  cases h with
  | hit xs ys old new hold hnew =>
    have hfront : t ∉ takenTags xs := by
      rw [mem_takenTags]
      rintro ⟨b, hb, hbears⟩
      exact htidy.tag_ne hold.1 b (List.mem_append_left _ hb) hbears.1 (hbears.2.trans hold.2.symm)
    have hlen := length_takenTags_le (xs ++ old :: ys)
    show takenTags (new :: (xs ++ ys)) = _
    rw [takenTags_append, takenTags_cons_of_bears hold, List.length_append] at hlen
    rw [takenTags_cons_of_bears hnew, takenTags_append, takenTags_append,
      takenTags_cons_of_bears hold, List.erase_append_right _ hfront, List.erase_cons_head,
      List.take_of_length_le]
    rw [List.length_cons] at hlen ⊢
    rw [List.length_append]
    omega
  | free xs ys old new habsent hbefore hold hnew =>
    have hmem : t ∉ takenTags (xs ++ old :: ys) := notMem_takenTags habsent
    -- the way held no tag, so none has to go
    have hsame : takenTags (xs ++ old :: ys) = takenTags (xs ++ ys) := by
      rw [takenTags_append, takenTags_append, takenTags_cons_of_free hold]
    have hlen := length_takenTags_le (xs ++ ys)
    show takenTags (new :: (xs ++ ys)) = _
    rw [takenTags_cons_of_bears hnew, List.erase_of_not_mem hmem, hsame, List.take_of_length_le]
    rw [List.length_append, List.length_cons] at hw
    rw [List.length_append] at hlen
    rw [List.length_cons]
    omega
  | full xs ys old new habsent hvalid hlast hnew =>
    have hmem : t ∉ takenTags (xs ++ old :: ys) := notMem_takenTags habsent
    -- the way is the last one, and its tag is the one cut off
    have hys : ys = [] := by
      rw [List.length_append, List.length_cons] at hw
      exact List.eq_nil_of_length_eq_zero (by omega)
    subst hys
    have hxs : (takenTags xs).length = xs.length :=
      length_takenTags_of_valid fun b hb => hvalid b (List.mem_append_left _ hb)
    have hcut : w = (takenTags xs).length + 1 := by
      rw [List.length_append, List.length_singleton] at hw
      omega
    show takenTags (new :: (xs ++ [])) = _
    rw [takenTags_cons_of_bears hnew, List.append_nil, List.erase_of_not_mem hmem,
      takenTags_append, hcut, List.take_succ_cons, List.take_left]

end TakenTags

/-! ## Histories -/

namespace Geometry

variable (g : Geometry)

/-- The tags accessed in one set, oldest first. -/
def history (s : Fin g.sets) (past : List Access) : List UInt32 :=
  (past.filter fun op => (g.locate op.address).index = s).map fun op => (g.locate op.address).tag

@[simp] theorem history_append (s : Fin g.sets) (past ops : List Access) :
    g.history s (past ++ ops) = g.history s past ++ g.history s ops := by
  simp [history]

theorem history_cons_self (op : Access) (ops : List Access) :
    g.history (g.locate op.address).index (op :: ops) =
      (g.locate op.address).tag :: g.history (g.locate op.address).index ops := by
  simp [history]

theorem history_cons_of_ne {s : Fin g.sets} {op : Access} (h : s ≠ (g.locate op.address).index)
    (ops : List Access) : g.history s (op :: ops) = g.history s ops := by
  rw [history, List.filter_cons_of_neg (by simpa using Ne.symm h)]
  rfl

end Geometry

namespace Cache

variable {g : Geometry} {μ : Type u} {ν : Type v}

/-- The cache holds the block of an address exactly if its tag is among those of its set. -/
theorem holds_iff_mem_takenTags (c : Cache g μ ν) (a : UInt32) :
    c.Holds a ↔ (g.locate a).tag ∈ takenTags (c.home a).toList := by
  rw [holds_iff, mem_takenTags]

/-- The taken ways of every set are those accessed most recently. -/
def Follows (c : Cache g μ ν) (past : List Access) : Prop :=
  ∀ s : Fin g.sets, takenTags (c.sets.get s).toList = (recent (g.history s past)).take g.ways

theorem follows_empty (g : Geometry) (policy : Policy) (m : μ) (e : ν) :
    (empty g policy m e).Follows [] := by
  intro s
  rw [toList_get_empty, takenTags_replicate]
  exact List.take_nil.symm

section Step

variable [Store μ] [Evictor ν]

/-- **Every access keeps the sets in order of recency.** -/
theorem Follows.access {c : Cache g μ ν} {past : List Access} (h : c.Follows past) (hc : c.Sound)
    (hp : c.policy = .leastRecentlyUsed) (op : Access) :
    (c.access op).2.Follows (past ++ [op]) := by
  intro s
  rw [g.history_append]
  by_cases hs : s = (g.locate op.address).index
  · subst hs
    have hstep := c.rowStep_access op
    rw [hp] at hstep
    have htags := hstep.takenTags_eq (hc _) Vector.length_toList
    rw [g.history_cons_self]
    show _ = (recent (_ ++ [(g.locate op.address).tag])).take _
    rw [recent_concat, ← take_cons_erase_take, ← h]
    exact htags
  · -- neither the row nor its history changes
    rw [g.history_cons_of_ne hs, c.sets_access_of_ne hs, h]
    exact congrArg (fun l => (recent l).take g.ways) (List.append_nil _).symm

theorem follows_run (g : Geometry) (m : μ) (e : ν) (ops : List Access) :
    ((empty g .leastRecentlyUsed m e).run ops).2.Follows ops := by
  have hrun := run_induction (empty g .leastRecentlyUsed m e)
    (P := fun past c => c.Sound ∧ c.policy = .leastRecentlyUsed ∧ c.Follows past)
  refine (hrun ?_ ?_ ops).2.2
  · exact ⟨sound_empty g _ m e, rfl, follows_empty g _ m e⟩
  · rintro past c op ⟨hc, hp, h⟩
    exact ⟨hc.access op, (c.policy_access op).trans hp, h.access hc hp op⟩

end Step

end Cache

end SetAssoc
