import SetAssoc.Proofs.Address
import Mathlib
/-!
# Fields of an address

The sizes of a geometry are powers of two, so its fields lie in an address bit by bit, and masks and
shifts cut them out (`fields_eq`).  Read as three words they name every word of memory once: taking
aligned addresses apart and putting fields in range together are inverse to each other
(`fields_of_sizes`).

`exists_ofSizes_iff` says for which three sizes there is anything to take apart.
-/

namespace SetAssoc

/-! ## Masks -/

/-- The mask of the low bits. -/
theorem toNat_ofNat_mask {k : Nat} (hk : k < 32) :
    (UInt32.ofNat (2 ^ k - 1)).toNat = 2 ^ k - 1 := by
  have hpow : 2 ^ k < 2 ^ 32 := Nat.pow_lt_pow_right (by decide) hk
  exact UInt32.toNat_ofNat_of_lt' (show 2 ^ k - 1 < 2 ^ 32 by omega)

/-- The low bits of a word are its remainder. -/
theorem toNat_and_mask {k : Nat} (hk : k < 32) (a : UInt32) :
    (a &&& .ofNat (2 ^ k - 1)).toNat = a.toNat % 2 ^ k := by
  rw [UInt32.toNat_and, toNat_ofNat_mask hk, Nat.and_two_pow_sub_one_eq_mod]

/-- The other bits are what is left. -/
theorem toNat_and_not_mask {k : Nat} (hk : k < 32) (a : UInt32) :
    (a &&& ~~~.ofNat (2 ^ k - 1)).toNat = a.toNat / 2 ^ k * 2 ^ k := by
  have hpow : 2 ^ k < 2 ^ 32 := Nat.pow_lt_pow_right (by decide) hk
  have hnot : (~~~UInt32.ofNat (2 ^ k - 1)).toNat = 2 ^ 32 - (2 ^ k - 1 + 1) := by
    rw [UInt32.toNat_not, toNat_ofNat_mask hk]
    show 2 ^ 32 - 1 - (2 ^ k - 1) = _
    omega
  apply Nat.eq_of_testBit_eq
  intro i
  rw [UInt32.toNat_and, hnot, Nat.testBit_and, Nat.testBit_two_pow_sub_succ (by omega),
    Nat.testBit_two_pow_sub_one, Nat.testBit_mul_two_pow, Nat.testBit_div_two_pow]
  by_cases hi : i < 32
  · by_cases hki : k ≤ i
    · simp [hi, hki, Nat.not_lt.mpr hki, Nat.sub_add_cancel hki]
    · simp [hki, Nat.lt_of_not_le hki]
  · -- a word has no bit so high
    have hword : a.toNat < 2 ^ i :=
      Nat.lt_of_lt_of_le a.toNat_lt (Nat.pow_le_pow_right (by decide) (Nat.le_of_not_lt hi))
    simp [Nat.testBit_lt_two_pow hword, Nat.sub_add_cancel (show k ≤ i by omega)]

/-- A shift down by less than the width is a quotient. -/
theorem toNat_shiftRight_ofNat {k : Nat} (hk : k < 32) (a : UInt32) :
    (a >>> UInt32.ofNat k).toNat = a.toNat / 2 ^ k := by
  have hmod : (UInt32.ofNat k).toNat % 32 = k := by
    rw [UInt32.toNat_ofNat_of_lt' (show k < 2 ^ 32 by omega), Nat.mod_eq_of_lt hk]
  rw [UInt32.toNat_shiftRight, hmod, Nat.shiftRight_eq_div_pow]

/-- The two low bits of an address select a byte within its word. -/
theorem wordAddress_eq_and (a : UInt32) : wordAddress a = a &&& ~~~3 := by
  have hbits : (a &&& ~~~3).toNat = a.toNat / 4 * 4 := toNat_and_not_mask (k := 2) (by decide) a
  rw [← UInt32.toNat_inj, Geometry.toNat_wordAddress, hbits]

namespace Geometry

/-! ## Sizes -/

/-- **Which sizes have a geometry.** -/
theorem exists_ofSizes_iff {ways sets blockBytes : Nat} :
    (∃ g, ofSizes ways sets blockBytes = .ok g) ↔
      1 ≤ ways ∧ ∃ i j, sets = 2 ^ i ∧ blockBytes = 2 ^ j ∧ 2 ≤ j ∧ i + j ≤ 31 := by
  constructor
  · rintro ⟨g, hg⟩
    obtain ⟨rfl, rfl, rfl⟩ := g.ofSizes_eq_ok_iff.mp hg
    have hbits := g.bits_lt
    exact ⟨g.ways_pos, g.indexBits, g.offsetBits, rfl, rfl, g.two_le_offsetBits, by omega⟩
  · rintro ⟨hways, i, j, rfl, rfl, hj, hij⟩
    let g : Geometry := ⟨ways, i, j, hways, hj, by omega⟩
    exact ⟨g, g.ofSizes_eq_ok_iff.mpr ⟨rfl, rfl, rfl⟩⟩

variable (g : Geometry)

theorem blockWords_eq : g.blockWords = g.blockBytes / 4 := by
  rw [← g.blockWords_mul_four, Nat.mul_div_cancel _ (by decide)]

/-! ## Fields as words -/

/-- The fields of an address: offset, index and tag. -/
def fields (a : UInt32) : UInt32 × UInt32 × UInt32 :=
  (.ofNat (g.locate a).offset, .ofNat (g.locate a).index, (g.locate a).tag)

/-- The address with these fields. -/
def ofFields (f : UInt32 × UInt32 × UInt32) : UInt32 := g.assemble f.1 f.2.1 f.2.2

theorem toNat_fields (a : UInt32) :
    (g.fields a).1.toNat = a.toNat % g.blockBytes / 4 ∧
      (g.fields a).2.1.toNat = a.toNat / g.blockBytes % g.sets ∧
      (g.fields a).2.2.toNat = a.toNat / g.blockBytes / g.sets :=
  ⟨g.toNat_ofNat_offset (g.locate a).offset, g.toNat_ofNat_index (g.locate a).index,
    g.toNat_tag_locate a⟩

/-- **Masks and shifts** cut the fields out of an address. -/
theorem fields_eq (a : UInt32) :
    g.fields a =
      ((a &&& .ofNat g.offsetMask) >>> 2,
        (a >>> .ofNat g.offsetBits) &&& .ofNat g.indexMask,
        (a >>> .ofNat g.offsetBits) >>> .ofNat g.indexBits) := by
  have hbits := g.bits_lt
  have hoffset : g.offsetBits < 32 := by omega
  have hindex : g.indexBits < 32 := by omega
  have hlow : (a &&& .ofNat g.offsetMask).toNat = a.toNat % g.blockBytes :=
    toNat_and_mask hoffset a
  have hline : (a >>> .ofNat g.offsetBits).toNat = a.toNat / g.blockBytes :=
    toNat_shiftRight_ofNat hoffset a
  obtain ⟨ho, hi, ht⟩ := g.toNat_fields a
  refine Prod.ext ?_ (Prod.ext ?_ ?_)
  · rw [← UInt32.toNat_inj, ho, ← hlow]
    exact (toNat_shiftRight_ofNat (k := 2) (by decide) _).symm
  · rw [← UInt32.toNat_inj, hi, ← hline]
    exact (toNat_and_mask hindex _).symm
  · rw [← UInt32.toNat_inj, ht, ← hline]
    exact (toNat_shiftRight_ofNat hindex _).symm

/-- The start of a block is the address without its offset. -/
theorem blockStart_eq_and (a : UInt32) : g.blockStart a = a &&& ~~~.ofNat g.offsetMask := by
  have hbits := g.bits_lt
  have hhigh : (a &&& ~~~.ofNat g.offsetMask).toNat = a.toNat / g.blockBytes * g.blockBytes :=
    toNat_and_not_mask (by omega) a
  rw [← UInt32.toNat_inj, toNat_blockStart, hhigh]

theorem fields_wordAddress (a : UInt32) : g.fields (wordAddress a) = g.fields a := by
  rw [fields, locate_wordAddress, fields]

theorem ofFields_fields (a : UInt32) : g.ofFields (g.fields a) = wordAddress a :=
  g.address_locate a

theorem fields_ofFields {f : UInt32 × UInt32 × UInt32} (ho : f.1.toNat < g.blockWords)
    (hi : f.2.1.toNat < g.sets) (ht : f.2.2.toNat < g.tags) : g.fields (g.ofFields f) = f := by
  let l : Location g := ⟨⟨f.1.toNat, ho⟩, ⟨f.2.1.toNat, hi⟩, f.2.2⟩
  have haddr : g.ofFields f = l.address := by
    simp only [l, ofFields, Location.address, UInt32.ofNat_toNat]
  rw [haddr, fields, g.locate_address l ht]
  simp only [l, UInt32.ofNat_toNat]

theorem blockStart_eq_assemble (a : UInt32) :
    g.blockStart a = g.assemble 0 (g.fields a).2.1 (g.fields a).2.2 := by
  have hfirst := g.address_eq_blockStart_add a ⟨0, g.blockWords_pos⟩
  have hzero : g.blockStart a + 4 * UInt32.ofNat 0 = g.blockStart a := UInt32.add_zero _
  exact (hfirst.trans hzero).symm

theorem fields_snd_eq_iff (a b : UInt32) :
    (g.fields a).2 = (g.fields b).2 ↔ g.blockStart a = g.blockStart b := by
  have hindex : UInt32.ofNat (g.locate a).index = UInt32.ofNat (g.locate b).index ↔
      (g.locate a).index = (g.locate b).index := by
    rw [← UInt32.toNat_inj, g.toNat_ofNat_index, g.toNat_ofNat_index, Fin.ext_iff]
  rw [blockStart_eq_iff, ← hindex, Prod.ext_iff]
  rfl

/-- **Sizes and fields.**  Three sizes have a geometry exactly if there is a way and the others are
powers of two that leave a block at least one word and the tag at least one bit.  Then the aligned
addresses are taken apart, one to one, into the triples of an offset, an index and a tag in range,
and putting together is the inverse on both sides.  The byte within a word does not matter; a block
starts at its offset 0; and index and tag together name a block. -/
theorem fields_of_sizes (ways sets blockBytes : Nat) :
    ((∃ g, ofSizes ways sets blockBytes = .ok g) ↔
      1 ≤ ways ∧ ∃ i j, sets = 2 ^ i ∧ blockBytes = 2 ^ j ∧ 2 ≤ j ∧ i + j ≤ 31) ∧
    ∀ (g : Geometry) (i j : Nat), ofSizes ways sets blockBytes = .ok g → sets = 2 ^ i →
      blockBytes = 2 ^ j →
      let aligned : Set UInt32 := {a | 4 ∣ a.toNat}
      let inRange : Set (UInt32 × UInt32 × UInt32) :=
        {f | f.1.toNat < blockBytes / 4 ∧ f.2.1.toNat < sets ∧ f.2.2.toNat < 2 ^ (32 - i - j)}
      Set.BijOn g.fields aligned inRange ∧
      Set.InvOn g.ofFields g.fields aligned inRange ∧
      ∀ a, g.fields a = g.fields (a &&& ~~~3) ∧
        g.blockStart a = g.assemble 0 (g.fields a).2.1 (g.fields a).2.2 ∧
        ∀ b, (g.fields a).2 = (g.fields b).2 ↔ g.blockStart a = g.blockStart b := by
  refine ⟨exists_ofSizes_iff, ?_⟩
  intro g i j hg hi hj aligned inRange
  obtain ⟨-, rfl, rfl⟩ := g.ofSizes_eq_ok_iff.mp hg
  obtain rfl : g.indexBits = i := Nat.pow_right_injective (Nat.le_refl 2) hi
  obtain rfl : g.offsetBits = j := Nat.pow_right_injective (Nat.le_refl 2) hj
  have htags : g.tags = 2 ^ (32 - g.indexBits - g.offsetBits) := by
    rw [tags, Nat.sub_right_comm]
  have hmem : ∀ f : UInt32 × UInt32 × UInt32, f ∈ inRange ↔
      f.1.toNat < g.blockWords ∧ f.2.1.toNat < g.sets ∧ f.2.2.toNat < g.tags := by
    intro f
    rw [g.blockWords_eq, htags]
    rfl
  have hinv : Set.InvOn g.ofFields g.fields aligned inRange := by
    constructor
    · intro a ha
      have hword : a.toNat / 4 * 4 = a.toNat := Nat.div_mul_cancel ha
      rw [ofFields_fields, ← UInt32.toNat_inj, toNat_wordAddress, hword]
    · intro f hf
      obtain ⟨ho, hx, ht⟩ := (hmem f).mp hf
      exact g.fields_ofFields ho hx ht
  have hinto : Set.MapsTo g.fields aligned inRange := by
    intro a _
    obtain ⟨ho, hx, ht⟩ := g.toNat_fields a
    rw [hmem, ho, hx, ht]
    exact ⟨g.offset_lt a.toNat, Nat.mod_lt _ g.sets_pos, g.toNat_tag_locate a ▸ g.tag_locate_lt a⟩
  have hback : Set.MapsTo g.ofFields inRange aligned := by
    intro f hf
    obtain ⟨ho, hx, ht⟩ := (hmem f).mp hf
    show 4 ∣ (g.assemble f.1 f.2.1 f.2.2).toNat
    rw [g.toNat_assemble ho hx ht, ← g.blockWords_mul_four, ← Nat.mul_assoc, ← Nat.add_mul]
    exact Nat.dvd_mul_left 4 _
  refine ⟨hinv.bijOn hinto hback, hinv, fun a => ⟨?_, g.blockStart_eq_assemble a, ?_⟩⟩
  · rw [← wordAddress_eq_and, fields_wordAddress]
  · exact fun b => g.fields_snd_eq_iff a b

/-- One word to a block and as many sets as there can be: a single bit is left for the tag. -/
theorem fields_of_sizes_one_tag_bit :
    ∃ g, ofSizes 1 (2 ^ 29) 4 = .ok g ∧ g.fields 0xfffffffd = (0, 0x1fffffff, 1) ∧
      g.ofFields (0, 0x1fffffff, 1) = 0xfffffffc ∧
      Set.BijOn g.fields {a | 4 ∣ a.toNat}
        {f | f.1.toNat < 4 / 4 ∧ f.2.1.toNat < 2 ^ 29 ∧ f.2.2.toNat < 2 ^ (32 - 29 - 2)} := by
  let g : Geometry := ⟨1, 29, 2, by decide, by decide, by decide⟩
  have hg : ofSizes 1 (2 ^ 29) 4 = .ok g := g.ofSizes_eq_ok_iff.mpr ⟨rfl, rfl, rfl⟩
  obtain ⟨hbij, -, hall⟩ := (fields_of_sizes 1 (2 ^ 29) 4).2 g 29 2 hg rfl rfl
  refine ⟨g, hg, ?_, by decide, hbij⟩
  rw [(hall 0xfffffffd).1]
  decide

end Geometry

end SetAssoc
