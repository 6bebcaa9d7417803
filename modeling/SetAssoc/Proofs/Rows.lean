import SetAssoc.Cache.Block
import SetAssoc.Policy.Basic
import Mathlib.Data.List.InsertIdx
import Mathlib.Data.List.Pairwise
/-!
# One set as a row of ways

A set is a row of ways, and an access touches one of them: the block there is replaced or changed,
and then the row is reordered.  With the way cut out of the row, `xs ++ b :: ys`, both steps are
equations between lists.  The first puts another block between `xs` and `ys`; the second leaves the
row alone or moves that block in front of `xs`.

`Tidy` collects what every row satisfies at all times, and says under which conditions the two steps
keep it so.
-/

namespace SetAssoc

universe u

/-! ## Places in a row -/

section Place

variable {α : Type u} {w : Nat}

/-- The row with the element in one place replaced. -/
def setAt (row : Vector α w) (i : Fin w) (x : α) : Vector α w := row.set i x i.isLt

/-- What stands in one place of a row, as its list has it. -/
theorem getElem?_toList (row : Vector α w) (i : Fin w) :
    row.toList[(i : Nat)]? = some (row.get i) := by
  have hi : (i : Nat) < row.toList.length := by simp
  exact List.getElem?_eq_getElem hi

@[simp] theorem get_mem_toList (row : Vector α w) (i : Fin w) : row.get i ∈ row.toList :=
  List.mem_of_getElem? (getElem?_toList row i)

/-- A row is what stands in its places, one after the other. -/
theorem toList_eq_map_get (row : Vector α w) : row.toList = (List.finRange w).map row.get := by
  refine List.ext_getElem (by simp) ?_
  intro i hi _
  rw [List.getElem_map, List.getElem_finRange]
  rfl

theorem exists_get_of_mem {row : Vector α w} {x : α} (h : x ∈ row.toList) : ∃ i, row.get i = x := by
  obtain ⟨i, hi, rfl⟩ := List.getElem_of_mem h
  exact ⟨⟨i, by simpa using hi⟩, rfl⟩

theorem exists_get_iff (row : Vector α w) (P : α → Prop) :
    (∃ i, P (row.get i)) ↔ ∃ x ∈ row.toList, P x := by
  constructor
  · rintro ⟨i, hi⟩
    exact ⟨row.get i, get_mem_toList row i, hi⟩
  · rintro ⟨x, hx, hP⟩
    obtain ⟨i, rfl⟩ := exists_get_of_mem hx
    exact ⟨i, hP⟩

theorem get_setAt (row : Vector α w) (i j : Fin w) (x : α) :
    (setAt row i x).get j = if j = i then x else row.get j := by
  apply Option.some.inj
  rw [← getElem?_toList, setAt, Vector.toList_set, List.getElem?_set]
  by_cases hji : j = i
  · subst hji
    simp
  · rw [if_neg hji, if_neg fun h => hji (Fin.ext h.symm), getElem?_toList]

@[simp] theorem get_setAt_self (row : Vector α w) (i : Fin w) (x : α) :
    (setAt row i x).get i = x := by
  rw [get_setAt, if_pos rfl]

theorem get_setAt_of_ne (row : Vector α w) {i j : Fin w} (h : j ≠ i) (x : α) :
    (setAt row i x).get j = row.get j := by
  rw [get_setAt, if_neg h]

/-- Putting back what stands there changes nothing. -/
@[simp] theorem setAt_get (row : Vector α w) (i : Fin w) : setAt row i (row.get i) = row :=
  Vector.set_getElem_self _

@[simp] theorem setAt_setAt (row : Vector α w) (i : Fin w) (x y : α) :
    setAt (setAt row i x) i y = setAt row i y := by
  simp [setAt]

/-! ## Cutting a way out of a row -/

/-- A row around one of its ways, and what becomes of it when another block is put there. -/
theorem exists_split (row : Vector α w) (i : Fin w) :
    ∃ xs ys : List α, xs.length = (i : Nat) ∧ row.toList = xs ++ row.get i :: ys ∧
      ∀ b, (setAt row i b).toList = xs ++ b :: ys := by
  have hi : (i : Nat) < row.toList.length := by simp
  refine ⟨row.toList.take i, row.toList.drop (i + 1), ?_, ?_, ?_⟩
  · rw [List.length_take, Nat.min_eq_left (Nat.le_of_lt hi)]
  · have hget : row.get i = row.toList[(i : Nat)] := rfl
    rw [hget, ← List.drop_eq_getElem_cons hi, List.take_append_drop]
  · intro b
    rw [setAt, Vector.toList_set, List.set_eq_take_append_cons_drop, if_pos hi]

/-- What stands before the way in the row are the ways before it. -/
theorem exists_of_mem_left {row : Vector α w} {i : Fin w} {xs ys : List α} {b x : α}
    (hrow : row.toList = xs ++ b :: ys) (hi : xs.length = (i : Nat)) (hx : x ∈ xs) :
    ∃ j : Fin w, j < i ∧ row.get j = x := by
  obtain ⟨j, hj, rfl⟩ := List.getElem_of_mem hx
  have hji : j < (i : Nat) := hi ▸ hj
  refine ⟨⟨j, Nat.lt_trans hji i.isLt⟩, hji, ?_⟩
  apply Option.some.inj
  rw [← getElem?_toList, hrow, List.getElem?_append_left hj, List.getElem?_eq_getElem hj]

end Place

theorem toFront_append {α : Type u} (xs ys : List α) (b : α) :
    toFront (xs ++ b :: ys) xs.length = b :: (xs ++ ys) := by
  simp [toFront, List.eraseIdx_append_of_length_le]

theorem map_toFront {α β : Type u} (f : α → β) (l : List α) (i : Nat) :
    (toFront l i).map f = toFront (l.map f) i := by
  unfold toFront
  rw [List.getElem?_map]
  cases l[i]? with
  | none => rfl
  | some x => simp [List.eraseIdx_map]

namespace Policy

variable {α : Type u} {w : Nat}

/-- The order of a row after an access to `b`, which stood between `xs` and `ys`. -/
def arrange (p : Policy) (xs : List α) (b : α) (ys : List α) : List α :=
  match p with
  | .leastRecentlyUsed => b :: (xs ++ ys)
  | .random => xs ++ b :: ys

theorem perm_arrange (p : Policy) (xs : List α) (b : α) (ys : List α) :
    (p.arrange xs b ys).Perm (xs ++ b :: ys) := by
  cases p with
  | leastRecentlyUsed => exact List.perm_middle.symm
  | random => exact List.Perm.refl _

theorem mem_arrange {p : Policy} {xs ys : List α} {b x : α} :
    x ∈ p.arrange xs b ys ↔ x = b ∨ x ∈ xs ++ ys := by
  rw [(p.perm_arrange xs b ys).mem_iff, List.perm_middle.mem_iff, List.mem_cons]

/-- Reordering a row, with the way accessed cut out of it. -/
theorem toList_reorder (p : Policy) {row : Vector α w} {i : Fin w} {xs ys : List α} {b : α}
    (hrow : row.toList = xs ++ b :: ys) (hi : xs.length = (i : Nat)) :
    (p.reorder row i).toList = p.arrange xs b ys := by
  cases p with
  | leastRecentlyUsed =>
    have hfront := toFront_append xs ys b
    rw [hi, ← hrow] at hfront
    exact hfront
  | random => exact hrow

/-- What stands in front stays there. -/
theorem reorder_front (p : Policy) (row : Vector α w) (hw : 0 < w) :
    p.reorder row ⟨0, hw⟩ = row := by
  obtain ⟨xs, ys, hlen, hrow, -⟩ := exists_split row ⟨0, hw⟩
  obtain rfl : xs = [] := List.eq_nil_of_length_eq_zero hlen
  apply Vector.toList_inj.mp
  rw [p.toList_reorder hrow rfl, hrow]
  cases p <;> rfl

end Policy

/-! ## Searching a row -/

namespace Block

variable {n : Nat}

/-- The way is taken, by the block with this tag. -/
def Bears (b : Block n) (tag : UInt32) : Prop := b.valid = true ∧ b.tag = tag

instance (b : Block n) (tag : UInt32) : Decidable (b.Bears tag) :=
  inferInstanceAs (Decidable (_ ∧ _))

@[simp] theorem valid_store (b : Block n) (i : Fin n) (v : UInt32) :
    (b.store i v).valid = b.valid := by
  unfold store
  split <;> rfl

@[simp] theorem tag_store (b : Block n) (i : Fin n) (v : UInt32) : (b.store i v).tag = b.tag := by
  unfold store
  split <;> rfl

end Block

section Search

variable {w n : Nat} {row : Vector (Block n) w} {tag : UInt32}

/-- The first position of a row that passes a test. -/
theorem findFinIdx?_eq_some_iff {α : Type u} {row : Vector α w} {p : α → Bool} {i : Fin w} :
    row.findFinIdx? p = some i ↔
      p (row.get i) = true ∧ ∀ j : Fin w, j < i → p (row.get j) = false := by
  obtain ⟨xs, rfl⟩ := row
  simp [Vector.get, Array.findFinIdx?_eq_some_iff]

theorem bears_of_findTag_hit {i : Fin w} (h : findTag row tag = .hit i) :
    (row.get i).Bears tag := by
  unfold findTag at h
  split at h
  · next j hj =>
    cases h
    simpa [Block.Bears] using (findFinIdx?_eq_some_iff.mp hj).1
  · split at h <;> cases h

/-- A row without a free way has only taken ones. -/
theorem valid_of_findTag_full (h : findTag row tag = .full) : ∀ b ∈ row.toList, b.valid = true := by
  unfold findTag at h
  split at h
  · cases h
  · split at h
    · cases h
    · next hfree => simpa using hfree

/-- The free way that is found is the first one. -/
theorem valid_of_findTag_free {i : Fin w} (h : findTag row tag = .free i) :
    (row.get i).valid = false ∧ ∀ j : Fin w, j < i → (row.get j).valid = true := by
  unfold findTag at h
  split at h
  · cases h
  · split at h
    · next j hj =>
      cases h
      simpa using findFinIdx?_eq_some_iff.mp hj
    · cases h

/-- A hit is found exactly where some way bears the tag. -/
theorem findTag_hit_iff : (∃ i, findTag row tag = .hit i) ↔ ∃ b ∈ row.toList, b.Bears tag := by
  constructor
  · rintro ⟨i, h⟩
    exact ⟨row.get i, get_mem_toList row i, bears_of_findTag_hit h⟩
  · rintro ⟨b, hb, hvalid, htag⟩
    unfold findTag
    split
    · next i _ => exact ⟨i, rfl⟩
    · next hnone =>
      have := Vector.findFinIdx?_eq_none_iff.mp hnone b (by simpa using hb)
      simp [hvalid, htag] at this

/-- A block in front is found first. -/
theorem findTag_of_front {hw : 0 < w} (h : (row.get ⟨0, hw⟩).Bears tag) :
    findTag row tag = .hit ⟨0, hw⟩ := by
  have hfirst : row.findFinIdx? (fun b => b.valid && b.tag == tag) = some ⟨0, hw⟩ := by
    rw [findFinIdx?_eq_some_iff]
    refine ⟨by simp [h.1, h.2], ?_⟩
    intro j hj
    exact absurd hj (Nat.not_lt_zero _)
  rw [findTag, hfirst]

end Search

/-! ## One access to a row -/

/-- How an access to the block with a tag changes a row, with the way it uses cut out.  A full row
gives up the way with number `victim`. -/
inductive RowStep {n : Nat} (p : Policy) (victim : Nat) (tag : UInt32) :
    List (Block n) → List (Block n) → Prop
  /-- The block is there. -/
  | hit (xs ys : List (Block n)) (old new : Block n) (hold : old.Bears tag) (hnew : new.Bears tag) :
      RowStep p victim tag (xs ++ old :: ys) (p.arrange xs new ys)
  /-- The block goes into the first free way. -/
  | free (xs ys : List (Block n)) (old new : Block n)
      (habsent : ∀ b ∈ xs ++ old :: ys, ¬ b.Bears tag) (hbefore : ∀ x ∈ xs, x.valid = true)
      (hold : old.valid = false) (hnew : new.Bears tag) :
      RowStep p victim tag (xs ++ old :: ys) (p.arrange xs new ys)
  /-- Another block makes room. -/
  | full (xs ys : List (Block n)) (old new : Block n)
      (habsent : ∀ b ∈ xs ++ old :: ys, ¬ b.Bears tag)
      (hvalid : ∀ b ∈ xs ++ old :: ys, b.valid = true) (hlen : xs.length = victim)
      (hnew : new.Bears tag) : RowStep p victim tag (xs ++ old :: ys) (p.arrange xs new ys)

/-- After an access under recency its block stands in front. -/
theorem RowStep.exists_front {n victim : Nat} {tag : UInt32} {row row' : List (Block n)}
    (h : RowStep .leastRecentlyUsed victim tag row row') :
    ∃ new rest, row' = new :: rest ∧ new.Bears tag := by
  cases h with
  | hit xs ys old new hold hnew => exact ⟨new, xs ++ ys, rfl, hnew⟩
  | free xs ys old new habsent hbefore hold hnew => exact ⟨new, xs ++ ys, rfl, hnew⟩
  | full xs ys old new habsent hvalid hlen hnew => exact ⟨new, xs ++ ys, rfl, hnew⟩

/-! ## Tidy rows -/

/-- What every row satisfies at all times, where so many tags can occur. -/
structure Tidy {n : Nat} (tags : Nat) (row : List (Block n)) : Prop where
  /-- No tag occurs twice. -/
  distinct : row.Pairwise fun b c => b.valid = true → c.valid = true → b.tag ≠ c.tag
  /-- The ways that are taken come first. -/
  packed : row.Pairwise fun b c => c.valid = true → b.valid = true
  /-- Tags are in range. -/
  tag_lt : ∀ b ∈ row, b.valid = true → b.tag.toNat < tags
  /-- Free ways are as they were in the beginning. -/
  blank : ∀ b ∈ row, b.valid = false → b = {}

namespace Tidy

variable {n tags : Nat} {row xs ys : List (Block n)} {old new : Block n}

theorem replicate (tags w : Nat) : Tidy tags (List.replicate w ({} : Block n)) where
  distinct := List.pairwise_replicate.mpr (Or.inr fun h => absurd h Bool.false_ne_true)
  packed := List.pairwise_replicate.mpr (Or.inr fun h => h)
  tag_lt b hb h := by
    rw [List.eq_of_mem_replicate hb] at h
    exact absurd h Bool.false_ne_true
  blank b hb _ := List.eq_of_mem_replicate hb

/-- One tag, one block. -/
theorem eq_of_bears (h : Tidy tags row) {b c : Block n} {t : UInt32} (hb : b ∈ row) (hc : c ∈ row)
    (hbt : b.Bears t) (hct : c.Bears t) : b = c := by
  by_contra hne
  have : Std.Symm fun b c : Block n => b.valid = true → c.valid = true → b.tag ≠ c.tag :=
    ⟨fun b c hbc hc hb => (hbc hb hc).symm⟩
  exact h.distinct.forall hb hc hne hbt.1 hct.1 (hbt.2.trans hct.2.symm)

theorem valid_before (h : Tidy tags (xs ++ old :: ys)) (hold : old.valid = true) :
    ∀ x ∈ xs, x.valid = true := by
  intro x hx
  exact (List.pairwise_append.mp h.packed).2.2 x hx old (by simp) hold

/-- The other blocks of a row bear other tags. -/
theorem tag_ne (h : Tidy tags (xs ++ old :: ys)) (hold : old.valid = true) :
    ∀ c ∈ xs ++ ys, c.valid = true → c.tag ≠ old.tag := by
  obtain ⟨-, hright, hacross⟩ := List.pairwise_append.mp h.distinct
  intro c hc hvalid
  rcases List.mem_append.mp hc with hx | hy
  · exact hacross c hx old (by simp) hvalid hold
  · exact ((List.pairwise_cons.mp hright).1 c hy hold hvalid).symm

/-- Putting a block into the row keeps it tidy, if only free ways come after it and its tag is new
to the others. -/
theorem put (h : Tidy tags (xs ++ old :: ys)) (hnew : new.valid = true)
    (htag : new.tag.toNat < tags) (hbefore : ∀ x ∈ xs, x.valid = true)
    (hne : ∀ c ∈ xs ++ ys, c.valid = true → c.tag ≠ new.tag) : Tidy tags (xs ++ new :: ys) where
  distinct := by
    -- pairs without the new block are pairs of the old row
    obtain ⟨hxs, hys, hacross⟩ := List.pairwise_append.mp h.distinct
    refine List.pairwise_append.mpr ⟨hxs, List.pairwise_cons.mpr ⟨?_, hys.of_cons⟩, ?_⟩
    · intro y hy _ hvalid
      exact (hne y (List.mem_append_right xs hy) hvalid).symm
    · intro x hx c hc hxv hcv
      rcases List.mem_cons.mp hc with rfl | hy
      · exact hne x (List.mem_append_left ys hx) hxv
      · exact hacross x hx c (List.mem_cons_of_mem old hy) hxv hcv
  packed := by
    obtain ⟨hxs, hys, -⟩ := List.pairwise_append.mp h.packed
    refine List.pairwise_append.mpr ⟨hxs, List.pairwise_cons.mpr ⟨?_, hys.of_cons⟩, ?_⟩
    · intro y _ _
      exact hnew
    · intro x hx c _ _
      exact hbefore x hx
  tag_lt := by
    intro b hb hvalid
    rcases List.mem_append.mp hb with hx | hy
    · exact h.tag_lt b (List.mem_append_left _ hx) hvalid
    · rcases List.mem_cons.mp hy with rfl | hy
      · exact htag
      · exact h.tag_lt b (by simp [hy]) hvalid
  blank := by
    intro b hb hvalid
    rcases List.mem_append.mp hb with hx | hy
    · exact h.blank b (List.mem_append_left _ hx) hvalid
    · rcases List.mem_cons.mp hy with rfl | hy
      · rw [hnew] at hvalid
        cases hvalid
      · exact h.blank b (by simp [hy]) hvalid

/-- Moving a taken way to the front keeps the row tidy. -/
theorem front (h : Tidy tags (xs ++ old :: ys)) (hold : old.valid = true) :
    Tidy tags (old :: (xs ++ ys)) where
  distinct := by
    refine List.pairwise_cons.mpr ⟨?_, h.distinct.sublist ?_⟩
    · intro c hc _ hvalid
      exact (h.tag_ne hold c hc hvalid).symm
    · exact (List.sublist_cons_self old ys).append_left xs
  packed := by
    refine List.pairwise_cons.mpr ⟨?_, h.packed.sublist ?_⟩
    · intro c _ _
      exact hold
    · exact (List.sublist_cons_self old ys).append_left xs
  tag_lt b hb := h.tag_lt b (List.perm_middle.mem_iff.mpr hb)
  blank b hb := h.blank b (List.perm_middle.mem_iff.mpr hb)

/-- Either policy keeps the row tidy. -/
theorem arrange (h : Tidy tags (xs ++ old :: ys)) (hold : old.valid = true) (p : Policy) :
    Tidy tags (p.arrange xs old ys) := by
  cases p with
  | leastRecentlyUsed => exact h.front hold
  | random => exact h

end Tidy

end SetAssoc
