import SetAssoc.Proofs.Address
import SetAssoc.Proofs.Serving
import SetAssoc.Store.Memory
/-!
# The shape of a cache in use

Every row of a cache stays tidy.  Both stages of an access put a taken block between the ways before
it, which are all taken, and the ways after it, none of which bears its tag: the first stage because
the search found neither that tag nor an earlier free way, the second because the block was there
already.
-/

namespace SetAssoc

universe u v

namespace Cache

variable {g : Geometry} {μ : Type u} {ν : Type v}

/-- Every set is a tidy row. -/
def Sound (c : Cache g μ ν) : Prop := ∀ s : Fin g.sets, Tidy g.tags (c.sets.get s).toList

theorem sound_empty (g : Geometry) (policy : Policy) (m : μ) (e : ν) :
    (empty g policy m e).Sound := by
  intro s
  rw [toList_get_empty]
  exact Tidy.replicate g.tags g.ways

/-- Another row in one place keeps the cache sound, if it is tidy. -/
theorem Sound.of_sets {c c' : Cache g μ ν} (h : c.Sound) {s : Fin g.sets}
    {row : Vector (Block g.blockWords) g.ways} (hsets : c'.sets = setAt c.sets s row)
    (hrow : Tidy g.tags row.toList) : c'.Sound := by
  intro j
  rw [hsets, get_setAt]
  split
  · exact hrow
  · exact h j

theorem Sound.settling [Store μ] [Evictor ν] {c : Cache g μ ν} {a : UInt32} {s : Settled g μ ν}
    (h : c.Sound) (hs : c.Settling a s) : s.cache.Sound := by
  cases hs with
  | hit way found => exact h
  | miss way evictor room =>
    obtain ⟨xs, ys, hlen, hrow, hset⟩ := exists_split (c.home a) way
    have htidy := h (g.locate a).index
    have hfresh := room.not_bears
    rw [hrow] at htidy hfresh
    refine h.of_sets (sets_replace { c with evictor } a way) ?_
    rw [hset]
    refine htidy.put rfl (g.tag_locate_lt a) (room.valid_of_mem_left hrow hlen) ?_
    intro b hb hvalid htag
    apply hfresh b _ ⟨hvalid, htag⟩
    exact List.perm_middle.mem_iff.mpr (List.mem_cons_of_mem _ hb)

theorem Sound.serveAt {c : Cache g μ ν} {op : Access} {way : Fin g.ways} (h : c.Sound)
    (hway : ((c.home op.address).get way).Bears (g.locate op.address).tag) :
    (c.serveAt op way).Sound := by
  obtain ⟨xs, ys, -, hrow, hrow'⟩ := c.exists_split_servedRow op way
  have htidy := h (g.locate op.address).index
  rw [hrow] at htidy
  have hvalid :
      (op.leave ((c.home op.address).get way) (g.locate op.address).offset).valid = true := by
    rw [Access.valid_leave]
    exact hway.1
  refine h.of_sets rfl ?_
  rw [hrow']
  refine (htidy.put hvalid ?_ (htidy.valid_before hway.1) ?_).arrange hvalid c.policy
  · rw [Access.tag_leave, hway.2]
    exact g.tag_locate_lt op.address
  · rw [Access.tag_leave]
    exact htidy.tag_ne hway.1

theorem Sound.access [Store μ] [Evictor ν] {c : Cache g μ ν} (h : c.Sound) (op : Access) :
    (c.access op).2.Sound := by
  have hs := c.settling op.address
  rw [access_eq]
  exact (h.settling hs).serveAt hs.bears

theorem sound_run [Store μ] [Evictor ν] (g : Geometry) (policy : Policy) (m : μ) (e : ν)
    (ops : List Access) : ((empty g policy m e).run ops).2.Sound :=
  run_induction _ (P := fun _ c => c.Sound) (sound_empty g policy m e)
    (fun _ _ op h => h.access op) ops

/-- The caches that can come about: the fresh ones, and what becomes of any by an access, or by
something that happens to the store behind its back. -/
inductive Reachable [Store μ] [Evictor ν] : Cache g μ ν → Prop
  /-- A fresh cache. -/
  | empty (policy : Policy) (m : μ) (e : ν) : Reachable (empty g policy m e)
  /-- A cache after one more access. -/
  | access {c : Cache g μ ν} (h : Reachable c) (op : Access) : Reachable (c.access op).2
  /-- A cache in front of a store that was changed. -/
  | mapStore {c : Cache g μ ν} (h : Reachable c) (f : μ → μ) : Reachable (c.mapStore f)

theorem Reachable.sound [Store μ] [Evictor ν] {c : Cache g μ ν} (h : c.Reachable) : c.Sound := by
  induction h with
  | empty policy m e => exact sound_empty g policy m e
  | access _ op ih => exact ih.access op
  | mapStore _ _ ih => exact ih

theorem reachable_run [Store μ] [Evictor ν] (g : Geometry) (policy : Policy) (m : μ) (e : ν)
    (ops : List Access) : ((Cache.empty g policy m e).run ops).2.Reachable :=
  run_induction _ (P := fun _ c => c.Reachable) (.empty policy m e) (fun _ _ op h => h.access op)
    ops

/-- **The shape of a cache in use.**  Whatever three sizes were accepted and whatever was accessed
since, there are as many sets as asked for, each with as many ways, each with the words of a block,
and every set is tidy. -/
theorem shape_of_run [Store μ] [Evictor ν] {ways sets blockBytes : Nat} {g : Geometry}
    (hg : Geometry.ofSizes ways sets blockBytes = .ok g) (policy : Policy) (m : μ) (e : ν)
    (ops : List Access) :
    let c := ((empty g policy m e).run ops).2
    c.sets.toList.length = sets ∧
    ∀ row ∈ c.sets.toList,
      row.toList.length = ways ∧
      (∀ b ∈ row.toList, b.words.toList.length = blockBytes / 4) ∧
      Tidy (2 ^ (32 - g.offsetBits - g.indexBits)) row.toList := by
  obtain ⟨rfl, rfl, rfl⟩ := g.ofSizes_eq_ok_iff.mp hg
  intro c
  refine ⟨Vector.length_toList, fun row hrow => ⟨Vector.length_toList, fun b _ => ?_, ?_⟩⟩
  · rw [Vector.length_toList, ← g.blockWords_mul_four, Nat.mul_div_cancel _ (by decide)]
  · obtain ⟨s, hs, rfl⟩ := List.getElem_of_mem hrow
    exact sound_run g policy m e ops ⟨s, by simpa using hs⟩

/-- Two ways at random, with a block evicted from behind and fetched again. -/
theorem shape_of_run_at_random :
    ∃ g, Geometry.ofSizes 2 2 8 = .ok g ∧
      let c := ((empty g .random ({} : Memory) (⟨[1]⟩ : Rota)).run
        [.write 0 7, .read 16, .read 32, .write 16 9]).2
      c.sets.toList.length = 2 ∧
      ∀ row ∈ c.sets.toList,
        row.toList.length = 2 ∧ (∀ b ∈ row.toList, b.words.toList.length = 2) ∧
        Tidy (2 ^ 28) row.toList := by
  have hg : Geometry.ofSizes 2 2 8 = .ok ⟨2, 1, 3, by decide, by decide, by decide⟩ := rfl
  exact ⟨_, hg, shape_of_run hg .random ({} : Memory) (⟨[1]⟩ : Rota)
    [.write 0 7, .read 16, .read 32, .write 16 9]⟩

end Cache

end SetAssoc
