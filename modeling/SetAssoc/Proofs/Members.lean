import SetAssoc.Json.Record
import SetAssoc.Proofs.Lexemes
import SetAssoc.Proofs.Values
/-!
# A record is read from its members

The members of an object fill a draft one by one (`Fills`): a member with the name of a field fills
this field, and any other member is passed over.  All that matters is which values the members with
the name of a field have, and not where these members stand (`Completes.fills`).  The elements of
an array fill the same draft in the order of the fields (`readArray_of_takes`).
-/

namespace SetAssoc.Json

open Value (elementTokens memberTokens named)

universe u v w

namespace Draft

variable {φ : Type u} {V : φ → Type v} [DecidableEq φ] {d : Draft φ V} {f g : φ}

theorem put_self (a : V f) : d.put f a f = some a := dif_pos rfl

theorem put_of_ne (h : f ≠ g) (a : V f) : d.put f a g = d g := dif_neg h

/-- The draft with the values of some fields. -/
def puts (d : Draft φ V) (full : (f : φ) → V f) (fs : List φ) : Draft φ V := fun f =>
  if f ∈ fs then some (full f) else d f

theorem puts_nil (full : (f : φ) → V f) : d.puts full [] = d := by
  funext f
  exact if_neg List.not_mem_nil

theorem puts_of_forall_mem (full : (f : φ) → V f) {fs : List φ} (h : ∀ f, f ∈ fs) :
    d.puts full fs = fun f => some (full f) := by
  funext f
  exact if_pos (h f)

theorem puts_put (full : (f : φ) → V f) (fs : List φ) :
    (d.put f (full f)).puts full fs = d.puts full (f :: fs) := by
  funext g
  unfold puts
  by_cases hg : g ∈ fs
  · rw [if_pos hg, if_pos (List.mem_cons_of_mem f hg)]
  · rw [if_neg hg]
    by_cases hfg : f = g
    · obtain rfl := hfg
      rw [put_self, if_pos (List.mem_cons_self ..)]
    · rw [put_of_ne hfg, if_neg (by simp [hg, Ne.symm hfg])]

end Draft

namespace Format

variable {φ : Type u} {V : φ → Type v} {m : Format φ V}

/-- Every field is known by a name of its own. -/
structure Named (m : Format φ V) : Prop where
  /-- Every field is among the fields. -/
  mem_fields : ∀ f, f ∈ m.fields
  /-- No two fields have one name. -/
  label_injective : Function.Injective m.label

theorem Named.of_nodup (hmem : ∀ f, f ∈ m.fields) (hlabels : (m.fields.map m.label).Nodup) :
    m.Named where
  mem_fields := hmem
  label_injective _ _ h := List.inj_on_of_nodup_map hlabels (hmem _) (hmem _) h

theorem Named.field?_label (h : m.Named) (f : φ) : m.field? (m.label f) = some f := by
  unfold field?
  cases hfind : m.fields.find? fun g => m.label g = m.label f with
  | none =>
    have := List.find?_eq_none.mp hfind f (h.mem_fields f)
    simp at this
  | some g =>
    have hlabel : m.label g = m.label f := by simpa using List.find?_some hfind
    rw [h.label_injective hlabel]

theorem field?_eq_none {name : String} (h : ∀ f, m.label f ≠ name) : m.field? name = none := by
  unfold field?
  rw [List.find?_eq_none]
  intro f _
  simpa using h f

variable [DecidableEq φ] {d d' : Draft φ V}

/-! ## Objects -/

theorem readField_of_takes {f : φ} {v : Value} {a : V f} (h : (m.read f).Takes v a)
    (rest : List Token) : m.readField d f (v.tokens ++ rest) = .ok (d.put f a, rest) := by
  unfold readField
  rw [h rest]

theorem readMember_field (hm : m.Named) {f : φ} (hd : d f = none) {v : Value} {a : V f}
    (h : (m.read f).Takes v a) (rest : List Token) :
    m.readMember d (.text (some (m.label f)) :: .colon :: (v.tokens ++ rest)) =
      .ok (d.put f a, rest) := by
  unfold readMember
  dsimp only
  rw [hm.field?_label]
  simp [hd, readField_of_takes h]

theorem readMember_other {name : String} (h : ∀ f, m.label f ≠ name) (v : Value)
    (rest : List Token) :
    m.readMember d (.text (some name) :: .colon :: (v.tokens ++ rest)) = .ok (d, rest) := by
  unfold readMember
  dsimp only
  rw [field?_eq_none h]
  dsimp only
  rw [Reader.takes_ignored v rest]

theorem readMembers_of_close {ts rest : List Token}
    (h : m.readMember d ts = .ok (d', .closeObject :: rest)) :
    m.readMembers d ts = .ok (d', rest) := by
  rw [readMembers]
  split <;> simp_all

theorem readMembers_of_comma {ts rest : List Token}
    (h : m.readMember d ts = .ok (d', .comma :: rest)) :
    m.readMembers d ts = m.readMembers d' rest := by
  rw [readMembers]
  split <;> simp_all

/-- How members fill a draft. -/
inductive Fills (m : Format φ V) : Draft φ V → List (String × Value) → Draft φ V → Prop
  /-- There is nothing more to fill it with. -/
  | nil (d : Draft φ V) : Fills m d [] d
  /-- A member for a field that has no value yet. -/
  | field {d d' : Draft φ V} {f : φ} {v : Value} {a : V f} {ms : List (String × Value)}
      (hd : d f = none) (hv : (m.read f).Takes v a) (hrest : Fills m (d.put f a) ms d') :
      Fills m d ((m.label f, v) :: ms) d'
  /-- A member with another name. -/
  | other {d d' : Draft φ V} {name : String} {v : Value} {ms : List (String × Value)}
      (hname : ∀ f, m.label f ≠ name) (hrest : Fills m d ms d') : Fills m d ((name, v) :: ms) d'

/-- The first member is read, and the others fill what it leaves. -/
theorem Fills.readMember (hm : m.Named) {name : String} {v : Value} {ms : List (String × Value)}
    (h : Fills m d ((name, v) :: ms) d') :
    ∃ next, Fills m next ms d' ∧ ∀ rest,
      m.readMember d (.text (some name) :: .colon :: (v.tokens ++ rest)) = .ok (next, rest) := by
  cases h with
  | field hd hv hrest => exact ⟨_, hrest, readMember_field hm hd hv⟩
  | other hname hrest => exact ⟨d, hrest, readMember_other hname v⟩

theorem memberTokens_named_cons (name : String) (v : Value) (ms : List (String × Value))
    (rest : List Token) :
    memberTokens [] (named ((name, v) :: ms)) ++ rest =
      .text (some name) :: .colon :: (v.tokens ++ (memberTokens [.comma] (named ms) ++ rest)) := by
  simp [memberTokens, named]

/-- **The members of an object** fill the draft up to the closing brace. -/
theorem Fills.readMembers (hm : m.Named) {name : String} {v : Value} {ms : List (String × Value)}
    (h : Fills m d ((name, v) :: ms) d') (rest : List Token) :
    m.readMembers d (memberTokens [] (named ((name, v) :: ms)) ++ rest) = .ok (d', rest) := by
  induction ms generalizing d name v with
  | nil =>
    obtain ⟨next, hrest, hread⟩ := h.readMember hm
    cases hrest
    rw [memberTokens_named_cons]
    exact readMembers_of_close (hread _)
  | cons second ms ih =>
    obtain ⟨next, hrest, hread⟩ := h.readMember hm
    rw [memberTokens_named_cons]
    exact (readMembers_of_comma (hread _)).trans (ih hrest)

theorem Fills.readObject (hm : m.Named) {ms : List (String × Value)} (h : Fills m .empty ms d')
    (rest : List Token) :
    m.readObject (memberTokens [] (named ms) ++ rest) = .ok (d', rest) := by
  cases ms with
  | nil =>
    cases h
    rfl
  | cons first ms =>
    have hread := h.readMembers hm rest
    rw [memberTokens_named_cons] at hread ⊢
    exact hread

/-! ### What members fill in -/

theorem valuesOf_cons_self (name : String) (v : Value) (ms : List (String × Value)) :
    valuesOf name ((name, v) :: ms) = v :: valuesOf name ms := by
  simp [valuesOf]

theorem valuesOf_cons_of_ne {name name' : String} (h : name' ≠ name) (v : Value)
    (ms : List (String × Value)) : valuesOf name ((name', v) :: ms) = valuesOf name ms := by
  simp [valuesOf, h]

/-- Members that lead from a draft to another one. -/
structure Completes (m : Format φ V) (d : Draft φ V) (ms : List (String × Value))
    (d' : Draft φ V) : Prop where
  /-- A field without a value gets its value from the only member with its name, if there is
  one. -/
  fresh : ∀ f, d f = none →
    List.Forall₂ (fun v a => (m.read f).Takes v a) (valuesOf (m.label f) ms) (d' f).toList
  /-- A field with a value keeps it, and no member has its name. -/
  kept : ∀ f a, d f = some a → d' f = some a ∧ valuesOf (m.label f) ms = []

omit [DecidableEq φ] in
theorem Completes.eq (h : Completes m d [] d') : d' = d := by
  funext f
  cases hf : d f with
  | some a => exact (h.kept f a hf).1
  | none =>
    have := h.fresh f hf
    cases hf' : d' f with
    | none => rfl
    | some a => rw [hf'] at this; cases this

/-- The first member has the name of a field. -/
theorem Completes.field {f : φ} {v : Value} {ms : List (String × Value)}
    (h : Completes m d ((m.label f, v) :: ms) d') (hm : m.Named) :
    ∃ a, d f = none ∧ (m.read f).Takes v a ∧ Completes m (d.put f a) ms d' := by
  have hvalues := valuesOf_cons_self (m.label f) v ms
  cases hf : d f with
  | some a =>
    have hnothing := (h.kept f a hf).2
    rw [hvalues] at hnothing
    cases hnothing
  | none =>
    have hfirst := h.fresh f hf
    rw [hvalues] at hfirst
    cases hf' : d' f with
    | none => rw [hf'] at hfirst; cases hfirst
    | some a =>
      rw [hf'] at hfirst
      obtain ⟨hv, hmore⟩ := List.forall₂_cons.mp hfirst
      refine ⟨a, rfl, hv, ?_, ?_⟩
      · intro g hg
        have hne : f ≠ g := by
          rintro rfl
          rw [Draft.put_self] at hg
          cases hg
        rw [Draft.put_of_ne hne] at hg
        have := h.fresh g hg
        rwa [valuesOf_cons_of_ne (hm.label_injective.ne hne)] at this
      · intro g b hg
        by_cases hne : f = g
        · obtain rfl := hne
          rw [Draft.put_self] at hg
          cases hg
          exact ⟨hf', List.forall₂_nil_right_iff.mp hmore⟩
        · rw [Draft.put_of_ne hne] at hg
          have := h.kept g b hg
          rwa [valuesOf_cons_of_ne (hm.label_injective.ne hne)] at this

omit [DecidableEq φ] in
/-- The first member has the name of no field. -/
theorem Completes.other {name : String} {v : Value} {ms : List (String × Value)}
    (h : Completes m d ((name, v) :: ms) d') (hname : ∀ f, m.label f ≠ name) :
    Completes m d ms d' where
  fresh f hf := by
    have := h.fresh f hf
    rwa [valuesOf_cons_of_ne (hname f).symm] at this
  kept f a hf := by
    have := h.kept f a hf
    rwa [valuesOf_cons_of_ne (hname f).symm] at this

/-- **The order of members does not matter**, nor do members with other names. -/
theorem Completes.fills (hm : m.Named) {ms : List (String × Value)} (h : Completes m d ms d') :
    Fills m d ms d' := by
  induction ms generalizing d with
  | nil =>
    rw [h.eq]
    exact .nil d
  | cons first ms ih =>
    obtain ⟨name, v⟩ := first
    by_cases hname : ∃ f, m.label f = name
    · obtain ⟨f, rfl⟩ := hname
      obtain ⟨a, hd, hv, hrest⟩ := h.field hm
      exact .field hd hv (ih hrest)
    · have hother : ∀ f, m.label f ≠ name := fun f hf => hname ⟨f, hf⟩
      exact .other hother (ih (h.other hother))

/-! ## Arrays -/

theorem readArray_cons {f : φ} {fs : List φ} (hfields : m.fields = f :: fs) {v : Value} {a : V f}
    (h : (m.read f).Takes v a) (rest : List Token) :
    m.readArray (v.tokens ++ rest) = m.readElements (Draft.empty.put f a) fs rest := by
  have hread := readField_of_takes (d := Draft.empty) h rest
  unfold readArray
  split
  · next heq => cases v <;> cases heq
  · rw [hfields]
    dsimp only
    rw [hread]

theorem readElements_of_takes {full : (f : φ) → V f} {fs : List φ} {vs : List Value}
    (h : List.Forall₂ (fun f v => (m.read f).Takes v (full f)) fs vs) (rest : List Token) :
    m.readElements d fs (elementTokens [.comma] vs ++ rest) = .ok (d.puts full fs, rest) := by
  induction h generalizing d with
  | nil =>
    show m.readElements d [] (.closeArray :: rest) = _
    rw [readElements, Draft.puts_nil]
  | @cons f v fs vs hv _ ih =>
    show m.readElements d (f :: fs) (.comma :: (v.tokens ++ elementTokens [.comma] vs ++ rest)) = _
    rw [readElements, List.append_assoc, readField_of_takes hv]
    dsimp only
    rw [ih, Draft.puts_put]

/-- **The elements of an array** are the values of the fields in their order. -/
theorem readArray_of_takes (hm : m.Named) {full : (f : φ) → V f} {vs : List Value}
    (h : List.Forall₂ (fun f v => (m.read f).Takes v (full f)) m.fields vs) (rest : List Token) :
    m.readArray (elementTokens [] vs ++ rest) = .ok (fun f => some (full f), rest) := by
  rw [← Draft.puts_of_forall_mem (d := .empty) full hm.mem_fields]
  cases hfields : m.fields with
  | nil =>
    rw [hfields] at h
    cases h
    rw [Draft.puts_nil]
    rfl
  | cons f fs =>
    rw [hfields] at h
    cases h with
    | @cons _ v _ vs hv hvs =>
      show m.readArray (v.tokens ++ elementTokens [.comma] vs ++ rest) = _
      rw [List.append_assoc, readArray_cons hfields hv, readElements_of_takes hvs, Draft.puts_put]

/-! ## Whole texts -/

variable {α : Type w} {build : Draft φ V → Except φ α} {a : α}

theorem decode_of_read? {v : Value} {text : String} (htext : v.WrittenAs text)
    (h : m.read? build v.tokens = .ok (a, [])) :
    m.decode build text.toUTF8.data.toList = .ok a := by
  unfold decode
  rw [htext.tokens_eq, h]

/-- **An object** is decoded to what is made of the draft that its members complete. -/
theorem decode_record (hm : m.Named) {ms : List (String × Value)} (h : Completes m .empty ms d)
    (hbuild : build d = .ok a) {text : String} (htext : (Value.record ms).WrittenAs text) :
    m.decode build text.toUTF8.data.toList = .ok a := by
  apply decode_of_read? htext
  have hread := (h.fills hm).readObject hm []
  show m.read? build (.openObject :: memberTokens [] (named ms)) = _
  unfold read?
  rw [List.append_nil] at hread
  dsimp only
  rw [hread]
  dsimp only
  rw [hbuild]

/-- **An array** is decoded to what is made of the draft in which its elements are the values of
the fields, in their order. -/
theorem decode_array (hm : m.Named) {full : (f : φ) → V f} {vs : List Value}
    (h : List.Forall₂ (fun f v => (m.read f).Takes v (full f)) m.fields vs)
    (hbuild : build (fun f => some (full f)) = .ok a) {text : String}
    (htext : (Value.array vs).WrittenAs text) :
    m.decode build text.toUTF8.data.toList = .ok a := by
  apply decode_of_read? htext
  have hread := readArray_of_takes hm h []
  show m.read? build (.openArray :: elementTokens [] vs) = _
  unfold read?
  rw [List.append_nil] at hread
  dsimp only
  rw [hread]
  dsimp only
  rw [hbuild]

end Format

end SetAssoc.Json
