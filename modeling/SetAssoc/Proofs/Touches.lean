import SetAssoc.Proofs.Recency
/-!
# Touch after touch

A list of distinct elements is touched again and again, each time at some position.  Under recency
its order is at all times that of its latest touches: first what was touched, the latest first, and
then what was not, as it stood in the beginning (`ordered`).  Another element stands at a position
after every touch, so the touches are told by their elements: one touch moves its element to the
front of the order, wherever it stood (`cons_erase_ordered`).
-/

namespace SetAssoc

universe u

/-- What a touch did. -/
structure Touch (α : Type u) where
  /-- The element that stood at the position touched. -/
  element : α
  /-- The position at which it is said to stand now. -/
  position : Nat
  /-- The list after the touch. -/
  order : List α
deriving DecidableEq, Repr

namespace Policy

variable {α : Type u}

/-- The touches of a list at some positions, one after the other, if something stands at each of
them. -/
def touches? (p : Policy) (l : List α) : List Nat → Option (List (Touch α))
  | [] => some []
  | i :: ways => do
    let element ← l[i]?
    let (position, order) ← p.reorder? l i
    let ts ← p.touches? order ways
    return ⟨element, position, order⟩ :: ts

section Order

variable [DecidableEq α] {l : List α} {x : α}

/-- The order of a list after touches of these elements, the latest one last. -/
def ordered (p : Policy) (l touched : List α) : List α :=
  match p with
  | .leastRecentlyUsed => recent touched ++ l.filter (· ∉ touched)
  | .random => l

@[simp] theorem ordered_nil (p : Policy) (l : List α) : p.ordered l [] = l := by
  cases p with
  | leastRecentlyUsed => simp [ordered, recent]
  | random => rfl

/-- What was not touched before is touched now. -/
theorem erase_filter_notMem (hl : l.Nodup) (touched : List α) (x : α) :
    (l.filter (· ∉ touched)).erase x = l.filter (· ∉ touched ++ [x]) := by
  rw [(hl.filter _).erase_eq_filter, List.filter_filter]
  apply List.filter_congr
  intro y _
  by_cases hy : y = x <;> simp [hy]

/-- **One touch** of an element moves it to the front. -/
theorem cons_erase_ordered (hl : l.Nodup) (touched : List α) (x : α) :
    x :: (ordered .leastRecentlyUsed l touched).erase x =
      ordered .leastRecentlyUsed l (touched ++ [x]) := by
  unfold ordered
  dsimp only
  rw [recent_concat, List.cons_append, ← erase_filter_notMem hl]
  by_cases hx : x ∈ touched
  · -- it is among the elements touched before, and so not among the others
    have hrest : x ∉ l.filter (· ∉ touched) := by simp [hx]
    rw [List.erase_append_left _ (mem_recent.mpr hx), List.erase_of_not_mem hrest]
  · have hfront : x ∉ recent touched := mt mem_recent.mp hx
    rw [List.erase_append_right _ hfront, List.erase_of_not_mem hfront]

theorem toFront_eq_cons_erase (hl : l.Nodup) {i : Nat} (hi : l[i]? = some x) :
    toFront l i = x :: l.erase x := by
  obtain ⟨hlt, rfl⟩ := List.getElem?_eq_some_iff.mp hi
  unfold toFront
  rw [hi, hl.erase_getElem]

/-- **A touch at a position** is a touch of the element that stands there, and says where this one
stands afterwards. -/
theorem reorder?_ordered (p : Policy) {touched : List α} (hl : l.Nodup)
    (hperm : (p.ordered l touched).Perm l) {i : Nat} (hi : (p.ordered l touched)[i]? = some x) :
    ∃ position, p.reorder? (p.ordered l touched) i =
        some (position, p.ordered l (touched ++ [x])) ∧
      (p.ordered l (touched ++ [x]))[position]? = some x ∧
      (p.ordered l (touched ++ [x])).Perm l := by
  cases p with
  | leastRecentlyUsed =>
    have hlt := (List.getElem?_eq_some_iff.mp hi).1
    have hmem := List.mem_of_getElem? hi
    refine ⟨0, ?_, ?_, ?_⟩
    · unfold reorder?
      rw [if_pos hlt, toFront_eq_cons_erase (hperm.nodup_iff.mpr hl) hi, cons_erase_ordered hl]
    · rw [← cons_erase_ordered hl]
      rfl
    · rw [← cons_erase_ordered hl]
      exact (List.perm_cons_erase hmem).symm.trans hperm
  | random => exact ⟨i, rfl, hi, hperm⟩

/-- **Touches in a row.**  Every one of them is a touch of some element, and follows the order that
the touches before it have made. -/
theorem touches?_ordered (p : Policy) (hl : l.Nodup) {ways : List Nat}
    (hways : ∀ i ∈ ways, i < l.length) {touched : List α}
    (hperm : (p.ordered l touched).Perm l) :
    ∃ ts, p.touches? (p.ordered l touched) ways = some ts ∧ ts.length = ways.length ∧
      ∀ k t, ts[k]? = some t →
        t.order = p.ordered l (touched ++ (ts.take (k + 1)).map Touch.element) ∧
        t.order[t.position]? = some t.element ∧ t.order.Perm l := by
  induction ways generalizing touched with
  | nil => exact ⟨[], rfl, rfl, by simp⟩
  | cons i ways ih =>
    have hlt : i < (p.ordered l touched).length := by
      rw [hperm.length_eq]
      exact hways i (List.mem_cons_self ..)
    obtain ⟨x, hx⟩ : ∃ x, (p.ordered l touched)[i]? = some x := ⟨_, List.getElem?_eq_getElem hlt⟩
    obtain ⟨position, hstep, hthere, hperm'⟩ := p.reorder?_ordered hl hperm hx
    obtain ⟨ts, hrun, hlen, hall⟩ := ih (fun j hj => hways j (List.mem_cons_of_mem i hj)) hperm'
    refine ⟨⟨x, position, p.ordered l (touched ++ [x])⟩ :: ts, ?_, ?_, ?_⟩
    · simp [touches?, hx, hstep, hrun]
    · simp [hlen]
    · intro k t ht
      cases k with
      | zero =>
        cases ht
        exact ⟨by simp, hthere, hperm'⟩
      | succ k =>
        obtain ⟨horder, hposition, hsame⟩ := hall k t ht
        refine ⟨?_, hposition, hsame⟩
        rw [horder]
        simp

end Order

/-- **A touch moves its element to the front and keeps the rest in order**, touch after touch.  Of a
list of distinct elements, touched at positions of the list in turn, every touch has an outcome, and
the position it says is where the element just touched now stands.  Under recency the list is then a
permutation of the original: first the elements touched so far, the one touched last first, and
behind them the others in the order they had in the beginning.  Under the random policy the list is
the original. -/
theorem touches_of_ways [DecidableEq α] (p : Policy) {l : List α} (hl : l.Nodup) {ways : List Nat}
    (hways : ∀ i ∈ ways, i < l.length) :
    ∃ ts, p.touches? l ways = some ts ∧ ts.length = ways.length ∧
      ∀ k t, ts[k]? = some t →
        let touched := (ts.take (k + 1)).map Touch.element
        t.order[t.position]? = some t.element ∧
        t.order.Perm l ∧
        (p = .leastRecentlyUsed → t.order = recent touched ++ l.filter (· ∉ touched)) ∧
        (p = .random → t.order = l) := by
  have hstart : p.ordered l [] = l := p.ordered_nil l
  have hperm : (p.ordered l []).Perm l := by rw [hstart]
  obtain ⟨ts, hrun, hlen, hall⟩ := p.touches?_ordered hl hways hperm
  rw [hstart] at hrun
  refine ⟨ts, hrun, hlen, ?_⟩
  intro k t ht touched
  obtain ⟨horder, hposition, hperm⟩ := hall k t ht
  rw [List.nil_append] at horder
  refine ⟨hposition, hperm, ?_, ?_⟩
  · rintro rfl
    exact horder
  · rintro rfl
    exact horder

/-- Position 2 is touched three times and holds another element each time. -/
theorem touches_of_ways_same_place :
    ['a', 'b', 'c', 'd'].Nodup ∧ (∀ i ∈ [2, 2, 3, 2], i < ['a', 'b', 'c', 'd'].length) ∧
      ∃ t, (touches? .leastRecentlyUsed ['a', 'b', 'c', 'd'] [2, 2, 3, 2]).bind (·[3]?) = some t ∧
        t.order = ['c', 'd', 'b', 'a'] ∧ t.order[t.position]? = some 'c' := by
  have hl : ['a', 'b', 'c', 'd'].Nodup := by decide
  have hways : ∀ i ∈ [2, 2, 3, 2], i < ['a', 'b', 'c', 'd'].length := by decide
  obtain ⟨ts, hrun, hlen, hall⟩ := touches_of_ways .leastRecentlyUsed hl hways
  have helements : (touches? .leastRecentlyUsed ['a', 'b', 'c', 'd'] [2, 2, 3, 2]).map
      (List.map Touch.element) = some ['c', 'b', 'd', 'c'] := by decide
  rw [hrun, Option.map_some, Option.some.injEq] at helements
  obtain ⟨t, ht⟩ : ∃ t, ts[3]? = some t := ⟨_, List.getElem?_eq_getElem (by rw [hlen]; decide)⟩
  obtain ⟨hposition, -, horder, -⟩ := hall 3 t ht
  have helement : t.element = 'c' := by
    have h := congrArg (·[3]?) helements
    simpa [ht] using h
  refine ⟨hl, hways, t, by rw [hrun]; exact ht, ?_, by rw [hposition, helement]⟩
  rw [horder rfl, List.map_take, helements]
  decide

end Policy

end SetAssoc
