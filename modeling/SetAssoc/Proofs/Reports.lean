import SetAssoc.Proofs.Layouts
import SetAssoc.Proofs.Members
import SetAssoc.Report
/-!
# A report is read as it was written

Whatever its name and its numbers are, a report is read back from both of its layouts, and from any
other text for the same members, in any order and among members with other names
(`decode_layouts`).
-/

namespace SetAssoc.Report

open Json (Scalar Value valueMembers valuesOf)

theorem named_format : format.Named :=
  .of_nodup (fun f => by cases f <;> decide) (by decide)

/-- The value of a field, as it is read. -/
def value (r : Report) : (f : Field) → f.Value
  | .name => r.name
  | .reads => r.reads
  | .writes => r.writes
  | .hits => r.hits
  | .misses => r.misses
  | .writeBacks => r.writeBacks
  | .cycles => r.cycles
  | .wordsFetched => r.wordsFetched
  | .wordsWritten => r.wordsWritten
  | .dirtyLines => r.dirtyLines

theorem takes_get (r : Report) (f : Field) :
    (format.read f).Takes (r.get f).toValue (r.value f) := by
  cases f with
  | name => exact Json.Reader.takes_text r.name
  | _ => exact Json.Reader.takes_word64 _

theorem build_value (r : Report) : build (fun f => some (r.value f)) = .ok r := rfl

/-- **One member for each field** makes up the report. -/
theorem completes_of_valuesOf {r : Report} {ms : List (String × Value)}
    (h : ∀ f : Field, valuesOf f.label ms = [(r.get f).toValue]) :
    Json.Format.Completes format .empty ms fun f => some (r.value f) where
  fresh f _ := by
    show List.Forall₂ _ (valuesOf f.label ms) [r.value f]
    rw [h f]
    exact .cons (r.takes_get f) .nil
  kept _ _ hf := by cases hf

theorem valuesOf_members (r : Report) (f : Field) :
    valuesOf f.label (valueMembers r.members) = [(r.get f).toValue] := by
  cases f <;> simp [valuesOf, valueMembers, members, Field.all, Field.label]

/-- The order of the members, and members with other names, do not matter. -/
theorem valuesOf_of_perm {r : Report} {ms others : List (String × Value)}
    (hms : ms.Perm (valueMembers r.members ++ others))
    (hothers : ∀ m ∈ others, ∀ f : Field, m.1 ≠ f.label) (f : Field) :
    valuesOf f.label ms = [(r.get f).toValue] := by
  have hnone : valuesOf f.label others = [] := by
    unfold valuesOf
    rw [List.map_eq_nil_iff, List.filter_eq_nil_iff]
    intro m hm
    simpa using hothers m hm f
  have hperm : (valuesOf f.label ms).Perm (valuesOf f.label (valueMembers r.members ++ others)) :=
    (hms.filter _).map _
  have happend : valuesOf f.label (valueMembers r.members ++ others) =
      valuesOf f.label (valueMembers r.members) ++ valuesOf f.label others := by
    simp [valuesOf]
  rw [happend, valuesOf_members, hnone, List.append_nil] at hperm
  exact List.perm_singleton.mp hperm

/-- **A report is read as it was written**: without white space, with a line for each member, or in
any other way, with its members in any order and among members with other names. -/
theorem decode_layouts (r : Report) :
    decode r.compact.toUTF8.data.toList = .ok r ∧
      decode r.pretty.toUTF8.data.toList = .ok r ∧
      ∀ (ms others : List (String × Value)) (text : String),
        ms.Perm (valueMembers r.members ++ others) →
        (∀ m ∈ others, ∀ f : Field, m.1 ≠ f.label) →
        (Value.record ms).WrittenAs text → decode text.toUTF8.data.toList = .ok r := by
  have hmembers := completes_of_valuesOf r.valuesOf_members
  refine ⟨?_, ?_, ?_⟩
  · exact Json.Format.decode_record named_format hmembers r.build_value
      (Json.writtenAs_compact r.members)
  · exact Json.Format.decode_record named_format hmembers r.build_value
      (Json.writtenAs_pretty r.members)
  · intro ms others text hms hothers htext
    have hany := completes_of_valuesOf (valuesOf_of_perm hms hothers)
    exact Json.Format.decode_record named_format hany r.build_value htext

/-- The members come backwards, behind one that no report has. -/
theorem decode_layouts_backwards :
    decode ("\x7b\"runs\":1,\"dirty_lines\":1,\"memory_writes\":0,\"memory_reads\":16," ++
      "\"cycles\":105,\"write_backs\":0,\"misses\":1,\"hits\":2,\"writes\":1,\"reads\":2," ++
      "\"name\":\"L1 \\\"data\\\"\"\x7d").toUTF8.data.toList =
        .ok { name := "L1 \"data\"", reads := 2, writes := 1, hits := 2, misses := 1,
              cycles := 105, wordsFetched := 16, dirtyLines := 1 } := by
  let r : Report :=
    { name := "L1 \"data\"", reads := 2, writes := 1, hits := 2, misses := 1,
      cycles := 105, wordsFetched := 16, dirtyLines := 1 }
  have hperm : (valueMembers (("runs", Scalar.count 1) :: r.members.reverse)).Perm
      (valueMembers r.members ++ [("runs", .number (.ofNat 1))]) := by
    have hreverse := (List.reverse_perm r.members).map fun m => (m.1, m.2.toValue)
    exact (hreverse.cons _).trans (List.perm_append_singleton _ _).symm
  have hother : ∀ m ∈ [("runs", Value.number (.ofNat 1))], ∀ f : Field, m.1 ≠ f.label := by
    intro m hm f
    obtain rfl := List.mem_singleton.mp hm
    cases f <;> decide
  refine (decode_layouts r).2.2 _ _ _ hperm hother ?_
  -- the text is what is printed for these members
  have htext := Json.writtenAs_compact (("runs", .count 1) :: r.members.reverse)
  exact Eq.mpr (congrArg (Value.record _).WrittenAs (by decide +kernel)) htext
end SetAssoc.Report
