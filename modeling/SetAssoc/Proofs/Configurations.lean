import SetAssoc.Config
import SetAssoc.Proofs.Layouts
import SetAssoc.Proofs.Members
/-!
# A configuration in all its spellings

A configuration is written as an object or as an array.  The members of an object come in any
order, among members with other names, and those that would only say what is so without them may be
left out; an array has all values in the order of the fields.  A policy is called by either of its
names, as a text or as the only member of an object.  All of these are read as the same
configuration (`decode_spellings`).
-/

namespace SetAssoc.Config

open Json (Draft Spells Value space_nil space_singleton valuesOf written_number
  written_quoted)

/-! ## The spellings -/

/-- The names of a policy. -/
def namesOf : Policy → List String
  | .leastRecentlyUsed => ["LeastRecentlyUsed", "lru"]
  | .random => ["Random", "random"]

/-- The values for which a JSON value of a field stands. -/
inductive Spelled : (f : Field) → f.Value → Value → Prop
  /-- A name is a text. -/
  | name (s : String) : Spelled .name s (.text (some s))
  /-- The number of blocks in a set is a number. -/
  | ways (n : UInt64) : Spelled .ways n (.number (.ofNat n.toNat))
  /-- The number of sets is a number. -/
  | sets (n : UInt32) : Spelled .sets n (.number (.ofNat n.toNat))
  /-- The size of a block is a number. -/
  | blockBytes (n : UInt32) : Spelled .blockBytes n (.number (.ofNat n.toNat))
  /-- A policy is one of its names. -/
  | policy {p : Policy} {name : String} (h : name ∈ namesOf p) :
      Spelled .policy p (.text (some name))
  /-- A policy is an object with a member of that name. -/
  | policyObject {p : Policy} {name : String} (h : name ∈ namesOf p) :
      Spelled .policy p (.record [(name, .null)])
  /-- There is no seed. -/
  | noSeed : Spelled .seed none .null
  /-- A seed is a number. -/
  | seed (n : UInt64) : Spelled .seed (some n) (.number (.ofNat n.toNat))

/-- The value of a field that is left out.  The sizes cannot be left out. -/
def Field.default? : (f : Field) → Option f.Value
  | .name => some "cache"
  | .ways => none
  | .sets => none
  | .blockBytes => none
  | .policy => some .leastRecentlyUsed
  | .seed => some none

/-- The value of a field. -/
def value (c : Config) : (f : Field) → f.Value
  | .name => c.name
  | .ways => c.ways
  | .sets => c.sets
  | .blockBytes => c.blockBytes
  | .policy => c.policy
  | .seed => c.seed

/-- An object for the configuration: each field has one member with its value, or is left out where
that makes no difference. -/
def HasMembers (c : Config) (ms : List (String × Value)) : Prop :=
  ∀ f : Field, (∃ w, valuesOf f.label ms = [w] ∧ Spelled f (c.value f) w) ∨
    (valuesOf f.label ms = [] ∧ f.default? = some (c.value f))

/-- An array for the configuration: the values of all fields in their order. -/
def HasElements (c : Config) (ws : List Value) : Prop :=
  List.Forall₂ (fun (f : Field) w => Spelled f (c.value f) w)
    [.name, .ways, .sets, .blockBytes, .policy, .seed] ws

/-! ## How they are read -/

theorem named_format : format.Named :=
  .of_nodup (fun f => by cases f <;> decide) (by decide)

theorem lookup_policyNames {p : Policy} {name : String} (h : name ∈ namesOf p) :
    policyNames.lookup name = some p := by
  have hall : ∀ p : Policy, ∀ name ∈ namesOf p, policyNames.lookup name = some p := by
    intro p
    cases p <;> decide
  exact hall p name h

/-- **A spelling** is read as the value for which it stands. -/
theorem takes_of_spelled {f : Field} {v : f.Value} {w : Value} (h : Spelled f v w) :
    (format.read f).Takes w v := by
  cases h with
  | name s => exact Json.Reader.takes_text s
  | ways n => exact Json.Reader.takes_size64 n
  | sets n => exact Json.Reader.takes_word32 n
  | blockBytes n => exact Json.Reader.takes_word32 n
  | policy h => exact Json.Reader.takes_variant_text (lookup_policyNames h)
  | policyObject h => exact Json.Reader.takes_variant_object (lookup_policyNames h)
  | noSeed => exact Json.Reader.takes_word64?_null
  | seed n => exact Json.Reader.takes_word64?_number n

/-- The draft that the members of an object fill. -/
def given (c : Config) (ms : List (String × Value)) : Draft Field Field.Value := fun f =>
  if valuesOf f.label ms = [] then none else some (c.value f)

theorem completes_given {c : Config} {ms : List (String × Value)} (h : c.HasMembers ms) :
    Json.Format.Completes format .empty ms (c.given ms) where
  fresh f _ := by
    unfold given
    obtain ⟨w, hvalues, hw⟩ | ⟨hvalues, -⟩ := h f
    · show List.Forall₂ _ (valuesOf f.label ms) _
      rw [hvalues, if_neg (List.cons_ne_nil w [])]
      exact .cons (takes_of_spelled hw) .nil
    · show List.Forall₂ _ (valuesOf f.label ms) _
      rw [if_pos hvalues, hvalues]
      exact .nil
  kept _ _ hf := by cases hf

/-- What is left out is known anyway. -/
theorem given_or_default {c : Config} {ms : List (String × Value)} (h : c.HasMembers ms)
    (f : Field) : (c.given ms f).or f.default? = some (c.value f) := by
  unfold given
  obtain ⟨w, hvalues, -⟩ | ⟨hvalues, hdefault⟩ := h f
  · rw [hvalues, if_neg (List.cons_ne_nil w [])]
    rfl
  · rw [if_pos hvalues]
    exact hdefault

/-- **A draft is completed** by the values of the fields that are left out. -/
theorem build_of_or_default {c : Config} {d : Draft Field Field.Value}
    (h : ∀ f : Field, (d f).or f.default? = some (c.value f)) : build d = .ok c := by
  have hname : (d .name).getD "cache" = c.name :=
    Option.some.inj (Option.or_some.symm.trans (h .name))
  have hpolicy : (d .policy).getD .leastRecentlyUsed = c.policy :=
    Option.some.inj (Option.or_some.symm.trans (h .policy))
  have hseed : (d .seed).getD none = c.seed :=
    Option.some.inj (Option.or_some.symm.trans (h .seed))
  have hways : d .ways = some c.ways := Option.or_none.symm.trans (h .ways)
  have hsets : d .sets = some c.sets := Option.or_none.symm.trans (h .sets)
  have hbytes : d .blockBytes = some c.blockBytes := Option.or_none.symm.trans (h .blockBytes)
  unfold build Draft.need
  rw [hname, hpolicy, hseed, hways, hsets, hbytes]
  rfl

theorem build_value (c : Config) : build (fun f => some (c.value f)) = .ok c := rfl

/-- **All spellings are read alike**: an object for a configuration, with its members in any order
and among members with other names, and an array for it. -/
theorem decode_spellings (c : Config) {ms : List (String × Value)} {ws : List Value}
    {text arrayText : String} (hms : c.HasMembers ms) (htext : (Value.record ms).WrittenAs text)
    (hws : c.HasElements ws) (harray : (Value.array ws).WrittenAs arrayText) :
    decode text.toUTF8.data.toList = .ok c ∧ decode arrayText.toUTF8.data.toList = .ok c := by
  constructor
  · exact Json.Format.decode_record named_format (completes_given hms)
      (build_of_or_default (given_or_default hms)) htext
  · exact Json.Format.decode_array named_format (hws.imp fun _ _ hw => takes_of_spelled hw)
      c.build_value harray

/-- The object has a nested member with another name, and neither a name nor a seed. -/
theorem decode_spellings_nested :
    decode ("\x7b\"set_count\": 4, \"tags\": [null, \x7b\x7d], \"way_count\":2," ++
      "\"replacement_policy\":\x7b\"Random\":null\x7d,\"block_size_in_bytes\":8\x7d"
        ).toUTF8.data.toList =
          .ok { name := "cache", ways := 2, sets := 4, blockBytes := 8, policy := .random,
                seed := none } ∧
      decode "[\"cache\",2,4,8,\"random\",null]".toUTF8.data.toList =
          .ok { name := "cache", ways := 2, sets := 4, blockBytes := 8, policy := .random,
                seed := none } := by
  let ms : List (String × Value) :=
    [("set_count", .number (.ofNat 4)), ("tags", .array [.null, .object []]),
      ("way_count", .number (.ofNat 2)), ("replacement_policy", .record [("Random", .null)]),
      ("block_size_in_bytes", .number (.ofNat 8))]
  let ws : List Value :=
    [.text (some "cache"), .number (.ofNat 2), .number (.ofNat 4), .number (.ofNat 8),
      .text (some "random"), .null]
  have hobject : Spells (Value.record ms).tokens _ :=
    .token .openObject <|
    .token (written_quoted "set_count") <| .token .colon <| .space space_singleton <|
      .token (written_number 4) <| .token .comma <| .space space_singleton <|
    .token (written_quoted "tags") <| .token .colon <| .space space_singleton <|
      .token .openArray <| .token .null <| .token .comma <| .space space_singleton <|
      .token .openObject <| .token .closeObject <| .token .closeArray <|
      .token .comma <| .space space_singleton <|
    .token (written_quoted "way_count") <| .token .colon <|
      .token (written_number 2) <| .token .comma <|
    .token (written_quoted "replacement_policy") <| .token .colon <|
      .token .openObject <| .token (written_quoted "Random") <| .token .colon <| .token .null <|
      .token .closeObject <| .token .comma <|
    .token (written_quoted "block_size_in_bytes") <| .token .colon <|
      .token (written_number 8) <| .token .closeObject <| .nil space_nil
  have harray : Spells (Value.array ws).tokens _ :=
    .token .openArray <| .token (written_quoted "cache") <| .token .comma <|
    .token (written_number 2) <| .token .comma <| .token (written_number 4) <| .token .comma <|
    .token (written_number 8) <| .token .comma <|
    .token (written_quoted "random") <| .token .comma <| .token .null <|
    .token .closeArray <| .nil space_nil
  have hms : HasMembers { name := "cache", ways := 2, sets := 4, blockBytes := 8,
                          policy := .random, seed := none } ms := by
    intro f
    cases f with
    | name => exact .inr ⟨rfl, rfl⟩
    | ways => exact .inl ⟨_, rfl, .ways 2⟩
    | sets => exact .inl ⟨_, rfl, .sets 4⟩
    | blockBytes => exact .inl ⟨_, rfl, .blockBytes 8⟩
    | policy => exact .inl ⟨_, rfl, .policyObject (by decide)⟩
    | seed => exact .inr ⟨rfl, rfl⟩
  have hws : HasElements { name := "cache", ways := 2, sets := 4, blockBytes := 8,
                           policy := .random, seed := none } ws :=
    .cons (.name _) (.cons (.ways 2) (.cons (.sets 4) (.cons (.blockBytes 8)
      (.cons (.policy (by decide)) (.cons .noSeed .nil)))))
  exact decode_spellings _ hms (Eq.mpr (congrArg (Spells _) (by decide +kernel)) hobject) hws
    (Eq.mpr (congrArg (Spells _) (by decide +kernel)) harray)

end SetAssoc.Config
