import SetAssoc.Json.Reader
import SetAssoc.Proofs.Grammar
/-!
# Values are read

Each reader takes certain values for something, and leaves what stands behind them (`Takes`).  A
value of no interest is taken as a whole, whatever it holds (`passOver_value`).  A whole number is
taken if there is room for it, since then none of its digits is left over.
-/

namespace SetAssoc.Json

open Value (elementTokens memberTokens)

universe u v

/-! ## Values of no interest -/

namespace Reader

theorem passOver_element (v : Value) (up : List Opened) (ts : List Token) :
    passOver .element up (v.tokens ++ ts) = passOver .value up (v.tokens ++ ts) := by
  cases v <;> simp [Value.tokens, passOver]

mutual

/-- **A value is passed over** up to its end, whatever is open around it. -/
theorem passOver_value : ∀ (v : Value) (up : List Opened) (ts : List Token),
    passOver .value up (v.tokens ++ ts) = passOver .next up ts
  | .null, up, ts | .boolean _, up, ts | .number _, up, ts | .text _, up, ts => by
    simp [Value.tokens, passOver]
  | .array vs, up, ts => by
    show passOver .value up (.openArray :: (elementTokens [] vs ++ ts)) = _
    rw [passOver]
    exact passOver_elements vs up ts
  | .object ms, up, ts => by
    show passOver .value up (.openObject :: (memberTokens [] ms ++ ts)) = _
    rw [passOver]
    exact passOver_members ms up ts

theorem passOver_elements : ∀ (vs : List Value) (up : List Opened) (ts : List Token),
    passOver .element (.array :: up) (elementTokens [] vs ++ ts) = passOver .next up ts
  | [], up, ts => by simp [elementTokens, passOver]
  | v :: vs, up, ts => by
    rw [elementTokens, List.nil_append, List.append_assoc, passOver_element, passOver_value v]
    exact passOver_moreElements vs up ts

theorem passOver_moreElements : ∀ (vs : List Value) (up : List Opened) (ts : List Token),
    passOver .next (.array :: up) (elementTokens [.comma] vs ++ ts) = passOver .next up ts
  | [], up, ts => by simp [elementTokens, passOver]
  | v :: vs, up, ts => by
    show passOver .next (.array :: up) (.comma :: (v.tokens ++ elementTokens [.comma] vs ++ ts)) = _
    rw [passOver, List.append_assoc]
    show passOver .value (.array :: up) _ = _
    rw [passOver_value v]
    exact passOver_moreElements vs up ts

theorem passOver_members : ∀ (ms : List (Option String × Value)) (up : List Opened)
    (ts : List Token),
    passOver .member (.object :: up) (memberTokens [] ms ++ ts) = passOver .next up ts
  | [], up, ts => by simp [memberTokens, passOver]
  | (name, v) :: ms, up, ts => by
    show passOver .member (.object :: up)
      (.text name :: .colon :: (v.tokens ++ memberTokens [.comma] ms ++ ts)) = _
    rw [passOver, List.append_assoc]
    show passOver .value (.object :: up) _ = _
    rw [passOver_value v]
    exact passOver_moreMembers ms up ts

theorem passOver_moreMembers : ∀ (ms : List (Option String × Value)) (up : List Opened)
    (ts : List Token),
    passOver .next (.object :: up) (memberTokens [.comma] ms ++ ts) = passOver .next up ts
  | [], up, ts => by simp [memberTokens, passOver]
  | (name, v) :: ms, up, ts => by
    show passOver .next (.object :: up)
      (.comma :: .text name :: .colon :: (v.tokens ++ memberTokens [.comma] ms ++ ts)) = _
    rw [passOver, List.append_assoc]
    show passOver .value (.object :: up) _ = _
    rw [passOver_value v]
    exact passOver_moreMembers ms up ts

end

/-! ## Values that are read -/

variable {α : Type u} {β : Type v}

/-- The reader takes the value for `a`, and leaves what stands behind it. -/
def Takes (r : Reader α) (v : Value) (a : α) : Prop :=
  ∀ rest, r.run (v.tokens ++ rest) = .ok (a, rest)

theorem takes_ignored (v : Value) : ignored.Takes v () := by
  intro rest
  unfold ignored
  dsimp only
  rw [passOver_value]
  simp [passOver]

/-- A value that is looked at closer. -/
theorem Takes.refine {r : Reader α} {v : Value} {a : α} {f : α → Except Error β} {b : β}
    (h : r.Takes v a) (hf : f a = .ok b) : (r.refine f).Takes v b := by
  intro rest
  unfold Reader.refine
  dsimp only
  rw [h rest]
  dsimp only
  rw [hf]

theorem takes_head_null : head.Takes .null .null := fun _ => rfl

theorem takes_head_text (s : String) : head.Takes (.text (some s)) (.text s) := fun _ => rfl

theorem takes_text (s : String) : text.Takes (.text (some s)) s := (takes_head_text s).refine rfl

/-! ### Whole numbers -/

end Reader

namespace Numeral

theorem ofDigits_cons (m d : Nat) (ds : List Nat) :
    (d :: ds).foldl (fun n d => n * 10 + d) m = ds.foldl (fun n d => n * 10 + d) (m * 10 + d) := rfl

/-- As long as there is room, no digit is left over. -/
theorem absorb_eq {m : Nat} {ds : List Nat}
    (h : ds.foldl (fun n d => n * 10 + d) m < UInt64.size) :
    absorb m ds = (ds.foldl (fun n d => n * 10 + d) m, 0) := by
  induction ds generalizing m with
  | nil => rfl
  | cons d ds ih =>
    -- the digits that follow only make the number greater
    have hle : ∀ (ds : List Nat) (k : Nat), k ≤ ds.foldl (fun n d => n * 10 + d) k := by
      intro ds
      induction ds with
      | nil => exact Nat.le_refl
      | cons d ds ih =>
        intro k
        have := ih (k * 10 + d)
        rw [ofDigits_cons]
        omega
    rw [ofDigits_cons] at h ⊢
    have hroom : m * 10 + d < UInt64.size := Nat.lt_of_le_of_lt (hle ds _) h
    rw [absorb, if_pos hroom, ih h]

/-- The digits printed for a number make it up, and none of them is a leading zero. -/
theorem exists_toDigits (n : Nat) :
    ∃ ds, Nat.toDigits 10 n = ds.map Nat.digitChar ∧ ds ≠ [] ∧ (∀ d ∈ ds, d < 10) ∧
      ofDigits ds = n ∧ (ds.head? = some 0 → ds = [0]) := by
  induction n using Nat.strongRecOn with
  | _ n ih =>
    by_cases hn : n < 10
    · refine ⟨[n], ?_, by simp, by simpa using hn, by simp [ofDigits], by simp⟩
      rw [Nat.toDigits_of_lt_base hn]
      rfl
    · -- the last digit is printed behind those of the rest
      have hlast : n % 10 < 10 := Nat.mod_lt n (by decide)
      obtain ⟨ds, hprint, hne, hds, hvalue, hzero⟩ := ih (n / 10) (by omega)
      have hsplit := Nat.toDigits_append_toDigits (by decide : 1 < 10)
        (Nat.div_pos (Nat.le_of_not_lt hn) (by decide)) hlast
      rw [Nat.div_add_mod, Nat.toDigits_of_lt_base hlast] at hsplit
      refine ⟨ds ++ [n % 10], ?_, by simp, ?_, ?_, ?_⟩
      · rw [← hsplit, hprint, List.map_append]
        rfl
      · intro d hd
        rcases List.mem_append.mp hd with hd | hd
        · exact hds d hd
        · obtain rfl := List.mem_singleton.mp hd
          exact hlast
      · unfold ofDigits at hvalue ⊢
        rw [List.foldl_append, hvalue]
        exact Nat.div_add_mod' n 10
      · -- a leading zero would be all of the rest
        intro hhead
        rw [List.head?_append_of_ne_nil _ hne] at hhead
        rw [hzero hhead] at hvalue
        have : 0 = n / 10 := hvalue
        omega

/-- **The digits of a whole number**, as they are printed. -/
theorem ofNat_whole (n : Nat) :
    DigitsWritten (ofNat n).whole (Nat.toDigits 10 n) ∧ ofDigits (ofNat n).whole = n ∧
      ((ofNat n).whole.head? = some 0 → (ofNat n).whole = [0]) := by
  obtain ⟨ds, hprint, hne, hds, hvalue, hzero⟩ := exists_toDigits n
  have hwhole : (ofNat n).whole = ds := by
    have hdigit : ∀ d ∈ ds, d.digitChar.toNat - '0'.toNat = d := by
      intro d hd
      exact (by decide : ∀ d < 10, d.digitChar.toNat - '0'.toNat = d) d (hds d hd)
    rw [ofNat, hprint, List.map_map]
    exact (List.map_congr_left hdigit).trans (List.map_id ds)
  rw [hwhole]
  exact ⟨⟨hne, hds, hprint⟩, hvalue, hzero⟩

theorem value?_ofNat {n : Nat} (hn : n < UInt64.size) :
    (ofNat n).value? = some (.integer n) := by
  obtain ⟨-, hvalue, -⟩ := ofNat_whole n
  have habsorb : absorb 0 (ofNat n).whole = (n, 0) := by
    unfold ofDigits at hvalue
    rw [absorb_eq (by rw [hvalue]; exact hn), hvalue]
  unfold value?
  rw [habsorb]
  rfl

end Numeral

namespace Reader

theorem takes_head_number {n : Nat} (hn : n < UInt64.size) :
    head.Takes (.number (.ofNat n)) (.number (.integer n)) := by
  intro rest
  show head.run (.number (.ofNat n) :: rest) = _
  unfold head
  dsimp only
  rw [Numeral.value?_ofNat hn]

theorem natBelow_ofNat {bound n : Nat} (h : n < bound) (expected : String) :
    natBelow bound expected (.number (.integer n)) = .ok n := by
  unfold natBelow
  dsimp only
  rw [if_pos ⟨Int.natCast_nonneg n, Int.ofNat_lt.mpr h⟩, Int.toNat_natCast]

theorem takes_word32 (n : UInt32) : word32.Takes (.number (.ofNat n.toNat)) n := by
  have hn : n.toNat < UInt32.size := n.toNat_lt
  refine (takes_head_number (Nat.lt_trans hn (by decide))).refine ?_
  rw [natBelow_ofNat hn]
  exact congrArg Except.ok UInt32.ofNat_toNat

theorem takes_word64 (n : UInt64) : word64.Takes (.number (.ofNat n.toNat)) n := by
  refine (takes_head_number n.toNat_lt).refine ?_
  rw [natBelow_ofNat n.toNat_lt]
  exact congrArg Except.ok UInt64.ofNat_toNat

theorem takes_size64 (n : UInt64) : size64.Takes (.number (.ofNat n.toNat)) n := by
  refine (takes_head_number n.toNat_lt).refine ?_
  rw [natBelow_ofNat n.toNat_lt]
  exact congrArg Except.ok UInt64.ofNat_toNat

theorem takes_word64?_null : word64?.Takes .null none := takes_head_null.refine rfl

theorem takes_word64?_number (n : UInt64) : word64?.Takes (.number (.ofNat n.toNat)) (some n) := by
  refine (takes_head_number n.toNat_lt).refine ?_
  show (natBelow _ _ _).map _ = _
  rw [natBelow_ofNat n.toNat_lt]
  exact congrArg (fun n => Except.ok (some n)) UInt64.ofNat_toNat

/-! ### Names -/

theorem takes_variant_text {names : List (String × α)} {name : String} {a : α}
    (h : names.lookup name = some a) : (variant names).Takes (.text (some name)) a := by
  intro rest
  show (variant names).run (.text (some name) :: rest) = _
  unfold variant ofName
  dsimp only
  rw [h]

theorem takes_variant_object {names : List (String × α)} {name : String} {a : α}
    (h : names.lookup name = some a) : (variant names).Takes (.record [(name, .null)]) a := by
  intro rest
  show (variant names).run
    (.openObject :: .text (some name) :: .colon :: .null :: .closeObject :: rest) = _
  unfold variant ofName
  dsimp only
  rw [h]
  rfl

end Reader

end SetAssoc.Json
