import SetAssoc.Address
import SetAssoc.Store.Memory
import Mathlib.Data.List.Nodup
import Mathlib.Tactic.Ring
/-!
# The arithmetic of addresses

An address is a number below `2 ^ 32`, and its three fields are the digits of that number in a mixed
base: bytes of a block, sets, tags.  `toNat_assemble` says so for the shifts of `assemble`, and
everything else about addresses follows from there without looking at a bit again: reading the
fields off and putting them together are inverse to each other on words (`address_locate`,
`locate_address`), and the words of a block are the same ones whether they are counted from its
start or assembled from its index and tag (`wordsOf_locate`).

Before that, `ofSizes_eq_ok_iff` says which geometries there are: one for every three sizes that are
not refused, and no others.
-/

namespace SetAssoc

namespace Geometry

variable (g : Geometry)

/-! ## Sizes -/

/-- **Three sizes have at most one geometry, and every geometry comes from its own three.** -/
theorem ofSizes_eq_ok_iff {ways sets blockBytes : Nat} :
    ofSizes ways sets blockBytes = .ok g ↔
      g.ways = ways ∧ g.sets = sets ∧ g.blockBytes = blockBytes := by
  constructor
  · intro h
    -- every branch but the last one refuses the sizes
    unfold ofSizes at h
    split_ifs at h
    split at h
    · cases h
    · next indexBits hsets =>
      split at h
      · cases h
      · next offsetBits hblock =>
        split_ifs at h
        cases h
        exact ⟨rfl, (eq_pow_of_exponent? hsets).symm, (eq_pow_of_exponent? hblock).symm⟩
  · rintro ⟨rfl, rfl, rfl⟩
    have hways := g.ways_pos
    have hoffset := g.two_le_offsetBits
    have hbits := g.bits_lt
    have hsets : exponent? g.sets = some g.indexBits := exponent?_pow g.indexBits
    have hblock : exponent? g.blockBytes = some g.offsetBits := exponent?_pow g.offsetBits
    simp only [ofSizes, hsets, hblock]
    rw [dif_neg (by omega), dif_neg (by omega), dif_neg (by omega)]

/-! ## The three bases -/

/-- The number of tags that the bits above the index have room for. -/
def tags : Nat := 2 ^ (32 - g.offsetBits - g.indexBits)

theorem tags_mul : g.tags * (g.sets * g.blockBytes) = 2 ^ 32 := by
  have hbits := g.bits_lt
  have hsum : 32 - g.offsetBits - g.indexBits + (g.indexBits + g.offsetBits) = 32 := by omega
  calc g.tags * (g.sets * g.blockBytes)
      = 2 ^ (32 - g.offsetBits - g.indexBits) * (2 ^ g.indexBits * 2 ^ g.offsetBits) := rfl
    _ = 2 ^ (32 - g.offsetBits - g.indexBits + (g.indexBits + g.offsetBits)) := by
        rw [← Nat.pow_add, ← Nat.pow_add]
    _ = 2 ^ 32 := by rw [hsum]

/-- The fields of a location, as one number, stay below `2 ^ 32`. -/
theorem fields_lt {t x k : Nat} (ht : t < g.tags) (hx : x < g.sets) (hk : k < g.blockBytes) :
    (t * g.sets + x) * g.blockBytes + k < 2 ^ 32 := by
  have hline : t * g.sets + x < g.tags * g.sets := by
    calc t * g.sets + x < t * g.sets + g.sets := by omega
      _ = (t + 1) * g.sets := by ring
      _ ≤ g.tags * g.sets := Nat.mul_le_mul_right _ ht
  calc (t * g.sets + x) * g.blockBytes + k
      < (t * g.sets + x) * g.blockBytes + g.blockBytes := by omega
    _ = (t * g.sets + x + 1) * g.blockBytes := by ring
    _ ≤ g.tags * g.sets * g.blockBytes := Nat.mul_le_mul_right _ hline
    _ = 2 ^ 32 := by rw [Nat.mul_assoc, tags_mul]

/-! ## Fields as numbers -/

@[simp] theorem toNat_tag_locate (a : UInt32) :
    (g.locate a).tag.toNat = a.toNat / g.blockBytes / g.sets := by
  have ha := a.toNat_lt
  have hle : a.toNat / g.blockBytes / g.sets ≤ a.toNat :=
    (Nat.div_le_self _ _).trans (Nat.div_le_self _ _)
  rw [locate, UInt32.toNat_ofNat']
  exact Nat.mod_eq_of_lt (by omega)

theorem index_locate (a : UInt32) :
    ((g.locate a).index : Nat) = a.toNat / g.blockBytes % g.sets := rfl

theorem offset_locate (a : UInt32) :
    ((g.locate a).offset : Nat) = a.toNat % g.blockBytes / 4 := rfl

theorem tag_locate_lt (a : UInt32) : (g.locate a).tag.toNat < g.tags := by
  rw [toNat_tag_locate, Nat.div_div_eq_div_mul]
  apply Nat.div_lt_of_lt_mul
  rw [Nat.mul_comm, Nat.mul_comm g.blockBytes, tags_mul]
  exact a.toNat_lt

@[simp] theorem toNat_blockStart (a : UInt32) :
    (g.blockStart a).toNat = a.toNat / g.blockBytes * g.blockBytes := by
  have ha := a.toNat_lt
  have hle : a.toNat / g.blockBytes * g.blockBytes ≤ a.toNat := Nat.div_mul_le_self _ _
  rw [blockStart, UInt32.toNat_ofNat']
  exact Nat.mod_eq_of_lt (by omega)

@[simp] theorem toNat_wordAddress (a : UInt32) :
    (wordAddress a).toNat = a.toNat / 4 * 4 := by
  have hle : a % 4 ≤ a := by
    rw [UInt32.le_iff_toNat_le, UInt32.toNat_mod]
    exact Nat.mod_le _ _
  rw [wordAddress, UInt32.toNat_sub_of_le _ _ hle, UInt32.toNat_mod]
  have := Nat.div_add_mod a.toNat 4
  simp only [UInt32.reduceToNat]
  omega

/-- A shift that loses no bit is a product. -/
theorem toNat_shiftLeft_ofNat {x : UInt32} {k : Nat} (hk : k < 32) (hx : x.toNat * 2 ^ k < 2 ^ 32) :
    (x <<< UInt32.ofNat k).toNat = x.toNat <<< k := by
  have hmod : (UInt32.ofNat k).toNat % 32 = k := by
    rw [UInt32.toNat_ofNat_of_lt' (show k < 2 ^ 32 by omega), Nat.mod_eq_of_lt hk]
  rw [UInt32.toNat_shiftLeft, hmod, Nat.shiftLeft_eq]
  exact Nat.mod_eq_of_lt hx

/-- **Assembling is positional notation.**  Where every field fits its place, no bit of one meets a
bit of another, and none is lost. -/
theorem toNat_assemble {offset index tag : UInt32} (ho : offset.toNat < g.blockWords)
    (hi : index.toNat < g.sets) (ht : tag.toNat < g.tags) :
    (g.assemble offset index tag).toNat =
      (tag.toNat * g.sets + index.toNat) * g.blockBytes + offset.toNat * 4 := by
  have hbits := g.bits_lt
  have hbytes : offset.toNat * 4 < g.blockBytes := by
    have := g.blockWords_mul_four
    omega
  have hlow : index.toNat * g.blockBytes + offset.toNat * 4 < g.sets * g.blockBytes := by
    calc index.toNat * g.blockBytes + offset.toNat * 4
        < index.toNat * g.blockBytes + g.blockBytes := by omega
      _ = (index.toNat + 1) * g.blockBytes := by ring
      _ ≤ g.sets * g.blockBytes := Nat.mul_le_mul_right _ hi
  have hpow : 2 ^ (g.offsetBits + g.indexBits) = g.sets * g.blockBytes := by
    rw [Nat.add_comm, Nat.pow_add]
    rfl
  have hsplit : (tag.toNat * g.sets + index.toNat) * g.blockBytes + offset.toNat * 4 =
      tag.toNat * (g.sets * g.blockBytes) + (index.toNat * g.blockBytes + offset.toNat * 4) := by
    ring
  have hall := hsplit ▸ g.fields_lt ht hi hbytes
  -- each field lands whole above the ones below it, so that `or` is a sum from the right
  have hoffset : (offset <<< 2).toNat = offset.toNat * 4 := by
    rw [← Nat.shiftLeft_eq _ 2]
    exact toNat_shiftLeft_ofNat (k := 2) (by decide) (show offset.toNat * 4 < 2 ^ 32 by omega)
  have hindex : (index <<< UInt32.ofNat g.offsetBits ||| offset <<< 2).toNat =
      index.toNat * g.blockBytes + offset.toNat * 4 := by
    rw [UInt32.toNat_or, hoffset, toNat_shiftLeft_ofNat (by omega)
      (show index.toNat * g.blockBytes < 2 ^ 32 by omega), ← Nat.shiftLeft_add_eq_or_of_lt hbytes,
      Nat.shiftLeft_eq]
    rfl
  rw [assemble, UInt32.or_assoc, UInt32.toNat_or, hindex,
    toNat_shiftLeft_ofNat hbits (by rw [hpow]; omega),
    ← Nat.shiftLeft_add_eq_or_of_lt (hpow ▸ hlow), Nat.shiftLeft_eq, hpow, hsplit]

/-! ## There and back -/

theorem blockWords_le : g.blockWords ≤ 2 ^ 29 := by
  have hbits := g.bits_lt
  exact Nat.pow_le_pow_right (by decide) (by omega)

theorem toNat_ofNat_offset (k : Fin g.blockWords) : (UInt32.ofNat k).toNat = k := by
  have hwords := g.blockWords_le
  exact UInt32.toNat_ofNat_of_lt' (show (k : Nat) < 2 ^ 32 by omega)

theorem toNat_ofNat_index (x : Fin g.sets) : (UInt32.ofNat x).toNat = x := by
  have hbits := g.bits_lt
  have hsets : g.sets ≤ 2 ^ 31 := Nat.pow_le_pow_right (by decide) (by omega)
  exact UInt32.toNat_ofNat_of_lt' (show (x : Nat) < 2 ^ 32 by omega)

end Geometry

namespace Location

variable {g : Geometry}

/-- The address of a word. -/
def address (l : Location g) : UInt32 := g.assemble (.ofNat l.offset) (.ofNat l.index) l.tag

theorem toNat_address (l : Location g) (ht : l.tag.toNat < g.tags) :
    l.address.toNat = (l.tag.toNat * g.sets + l.index) * g.blockBytes + l.offset * 4 := by
  have ho := g.toNat_ofNat_offset l.offset
  have hi := g.toNat_ofNat_index l.index
  have hoffset := l.offset.isLt
  have hindex := l.index.isLt
  rw [address, g.toNat_assemble (by omega) (by omega) ht, ho, hi]

/-- It is the address of a whole word. -/
theorem four_dvd_toNat_address (l : Location g) (ht : l.tag.toNat < g.tags) :
    4 ∣ l.address.toNat := by
  rw [l.toNat_address ht, ← g.blockWords_mul_four, ← Nat.mul_assoc, ← Nat.add_mul]
  exact Nat.dvd_mul_left 4 _

end Location

namespace Geometry

variable (g : Geometry)

/-- The location assembled from a location is that location, if its tag fits. -/
theorem locate_address (l : Location g) (ht : l.tag.toNat < g.tags) :
    g.locate l.address = l := by
  have hword := g.blockWords_mul_four
  have hbytes : (l.offset : Nat) * 4 < g.blockBytes := by omega
  have hnum := l.toNat_address ht
  have hline : l.address.toNat / g.blockBytes = l.tag.toNat * g.sets + l.index := by
    rw [hnum, Nat.add_comm, Nat.add_mul_div_right _ _ g.blockBytes_pos, Nat.div_eq_of_lt hbytes,
      Nat.zero_add]
  have hrest : l.address.toNat % g.blockBytes = l.offset * 4 := by
    rw [hnum, Nat.add_comm, Nat.add_mul_mod_self_right, Nat.mod_eq_of_lt hbytes]
  obtain ⟨offset, index, tag⟩ := l
  simp only [locate, Location.mk.injEq, Fin.ext_iff, hline, hrest]
  refine ⟨by omega, ?_, ?_⟩
  · rw [Nat.add_comm, Nat.add_mul_mod_self_right, Nat.mod_eq_of_lt index.isLt]
  · rw [Nat.add_comm, Nat.add_mul_div_right _ _ g.sets_pos, Nat.div_eq_of_lt index.isLt,
      Nat.zero_add, UInt32.ofNat_toNat]

/-- The address assembled from the location of an address is that of its word. -/
theorem address_locate (a : UInt32) : (g.locate a).address = wordAddress a := by
  have hwhole : a.toNat / g.blockBytes * g.blockBytes =
      a.toNat / g.blockBytes * g.blockWords * 4 := by
    rw [Nat.mul_assoc, g.blockWords_mul_four]
  have hsplit := Nat.div_add_mod' a.toNat g.blockBytes
  rw [← UInt32.toNat_inj, (g.locate a).toNat_address (g.tag_locate_lt a), toNat_wordAddress,
    toNat_tag_locate, index_locate, offset_locate, Nat.div_add_mod']
  omega

/-! ## Words and blocks -/

/-- Two addresses have one location exactly if they lie in one word. -/
theorem locate_eq_iff (a b : UInt32) : g.locate a = g.locate b ↔ wordAddress a = wordAddress b := by
  constructor
  · intro h
    rw [← g.address_locate, ← g.address_locate, h]
  · intro h
    rw [← g.locate_address _ (g.tag_locate_lt a), ← g.locate_address _ (g.tag_locate_lt b),
      g.address_locate, g.address_locate, h]

/-- Two addresses in one block lie in one word exactly if their offsets agree. -/
theorem wordAddress_eq_iff_offset {a b : UInt32} (hindex : (g.locate a).index = (g.locate b).index)
    (htag : (g.locate a).tag = (g.locate b).tag) :
    wordAddress a = wordAddress b ↔ (g.locate a).offset = (g.locate b).offset := by
  rw [← g.locate_eq_iff]
  constructor
  · intro h
    rw [h]
  · intro hoffset
    calc g.locate a = ⟨(g.locate a).offset, (g.locate a).index, (g.locate a).tag⟩ := rfl
      _ = ⟨(g.locate b).offset, (g.locate b).index, (g.locate b).tag⟩ := by
          rw [hoffset, hindex, htag]
      _ = g.locate b := rfl

@[simp] theorem locate_wordAddress (a : UInt32) : g.locate (wordAddress a) = g.locate a := by
  rw [← g.address_locate, g.locate_address _ (g.tag_locate_lt a)]

/-- Index and tag together name a block: they agree exactly for addresses in one block. -/
theorem blockStart_eq_iff (a b : UInt32) :
    g.blockStart a = g.blockStart b ↔
      (g.locate a).index = (g.locate b).index ∧ (g.locate a).tag = (g.locate b).tag := by
  rw [← UInt32.toNat_inj, ← UInt32.toNat_inj (a := (g.locate a).tag), Fin.ext_iff,
    toNat_blockStart, toNat_blockStart, toNat_tag_locate, toNat_tag_locate, index_locate,
    index_locate, Nat.mul_left_inj g.blockBytes_pos.ne']
  constructor
  · intro h
    rw [h]
    exact ⟨rfl, rfl⟩
  · rintro ⟨hindex, htag⟩
    rw [← Nat.div_add_mod' (a.toNat / g.blockBytes) g.sets, htag, hindex, Nat.div_add_mod']

/-- The word of a block at an offset is so many words after the start of the block. -/
theorem address_eq_blockStart_add (a : UInt32) (k : Fin g.blockWords) :
    Location.address ⟨k, (g.locate a).index, (g.locate a).tag⟩ =
      g.blockStart a + 4 * UInt32.ofNat k := by
  let l : Location g := ⟨k, (g.locate a).index, (g.locate a).tag⟩
  have hnum : l.address.toNat = a.toNat / g.blockBytes * g.blockBytes + k * 4 := by
    rw [l.toNat_address (g.tag_locate_lt a)]
    simp only [l, toNat_tag_locate, index_locate, Nat.div_add_mod']
  have hsum := l.address.toNat_lt
  show l.address = g.blockStart a + 4 * UInt32.ofNat k
  rw [← UInt32.toNat_inj, UInt32.toNat_add, UInt32.toNat_mul, toNat_blockStart,
    g.toNat_ofNat_offset k, hnum]
  simp only [UInt32.reduceToNat]
  omega

/-- The words counted from the start of a block are those assembled from its index and tag. -/
theorem wordsOf_locate (a : UInt32) :
    g.wordsOf (g.locate a).index (g.locate a).tag = g.wordsFrom (g.blockStart a) := by
  apply List.map_congr_left
  intro i hi
  exact g.address_eq_blockStart_add a ⟨i, List.mem_range.mp hi⟩

/-- The words of a block lie next to each other, from an address on that the size of a block
divides and that belongs to the block itself. -/
theorem exists_start (index : Fin g.sets) {tag : UInt32} (ht : tag.toNat < g.tags) :
    ∃ start : UInt32, g.blockBytes ∣ start.toNat ∧ (g.locate start).index = index ∧
      (g.locate start).tag = tag ∧
      ∀ k : Fin g.blockWords,
        (g.assemble (.ofNat k) (.ofNat index) tag).toNat = start.toNat + 4 * k := by
  let first : Location g := ⟨⟨0, g.blockWords_pos⟩, index, tag⟩
  have hfirst : first.address.toNat = (tag.toNat * g.sets + index) * g.blockBytes :=
    first.toNat_address ht
  have hloc : g.locate first.address = first := g.locate_address first ht
  refine ⟨first.address, ?_, ?_, ?_, ?_⟩
  · rw [hfirst]
    exact Nat.dvd_mul_left _ _
  · rw [hloc]
  · rw [hloc]
  · intro k
    show (Location.address ⟨k, index, tag⟩).toNat = _
    rw [Location.toNat_address _ ht, hfirst, Nat.mul_comm 4]

end Geometry

end SetAssoc
