import SetAssoc.Policy.Evictor
import Mathlib.Data.List.Rotate
/-!
# Rotas go round

A rota is asked again and again, each time about a set of its own size.  Whatever it is asked, it is
turned round by one entry (`next_eq`), so that at the `k`-th time entry `k` of its script stands in
front, counted round the script.  This holds of questions about sets without ways as well, which
have no answer and yet use an entry up.
-/

namespace SetAssoc.Rota

/-- The way that the entry in front names in a set of `n` ways.  Nothing in front names way 0, and an
entry names no way where there is none. -/
def named (front? : Option Nat) (n : Nat) : Option Nat :=
  match front? with
  | none => some 0
  | some w => if n = 0 then none else some (w % n)

/-- The answers of a rota that is asked about sets of these sizes in turn, and the rota afterwards. -/
def answers (s : Rota) : List Nat → List (Option Nat) × Rota
  | [] => ([], s)
  | n :: counts =>
    let (w?, s) := s.next n
    let (ws, s) := s.answers counts
    (w? :: ws, s)

/-- **One question:** the entry in front answers it, and goes to the end. -/
theorem next_eq (s : Rota) (n : Nat) :
    s.next n = (named s.entries.head? n, ⟨s.entries.rotate 1⟩) := by
  obtain ⟨entries⟩ := s
  cases entries with
  | nil => rfl
  | cons w rest =>
    unfold next named
    simp

/-- **Many questions:** before the `k`-th one the rota has been turned round by `k` entries. -/
theorem answers_eq (script counts : List Nat) :
    (⟨script⟩ : Rota).answers counts =
      (counts.mapIdx fun k n => named (script.rotate k).head? n,
        ⟨script.rotate counts.length⟩) := by
  induction counts generalizing script with
  | nil => simp [answers]
  | cons n counts ih =>
    -- the other questions are put to the script turned by one
    have hturn (k : Nat) : (script.rotate 1).rotate k = script.rotate (k + 1) := by
      rw [List.rotate_rotate, Nat.add_comm]
    unfold answers
    rw [next_eq]
    dsimp only
    rw [ih]
    simp [hturn, List.mapIdx_cons]

/-- The entry that `k` turns bring to the front. -/
theorem head?_rotate (script : List Nat) (k : Nat) :
    (script.rotate k).head? = script[k % script.length]? := by
  cases script with
  | nil => simp
  | cons w rest =>
    have hlt : k % (w :: rest).length < (w :: rest).length := Nat.mod_lt k (Nat.succ_pos _)
    rw [← List.rotate_mod, List.head?_rotate hlt]

/-- **A script is gone through again and again.**  Whatever sizes a rota is asked about in turn, sets
without ways among them, each question has its answer, and afterwards the script is the one from the
beginning, turned round by the number of questions: nothing is lost and nothing doubled.  Without a
script every answer is way 0.  With one, question `k` is answered by entry `k` counted round it,
reduced to the size asked about, and has no answer exactly if there are no ways. -/
theorem answers_of_script (s : Rota) (counts : List Nat) :
    (s.answers counts).1.length = counts.length ∧
    (s.answers counts).2.entries = s.entries.rotate (counts.length % s.entries.length) ∧
    (s.answers counts).2.entries.Perm s.entries ∧
    ∀ k n, counts[k]? = some n →
      (s.entries = [] → (s.answers counts).1[k]? = some (some 0)) ∧
      (s.entries ≠ [] → ∃ w, s.entries[k % s.entries.length]? = some w ∧
        (s.answers counts).1[k]? = some (if n = 0 then none else some (w % n))) := by
  obtain ⟨script⟩ := s
  have hall := answers_eq script counts
  refine ⟨by simp [hall], ?_, ?_, ?_⟩
  · rw [hall, List.rotate_mod]
  · rw [hall]
    exact List.rotate_perm script _
  · intro k n hk
    have hanswer : ((⟨script⟩ : Rota).answers counts).1[k]? =
        some (named script[k % script.length]? n) := by
      rw [hall, List.getElem?_mapIdx, hk, Option.map_some, head?_rotate]
    constructor
    · rintro rfl
      exact hanswer
    · intro hne
      have hlt : k % script.length < script.length :=
        Nat.mod_lt k (List.length_pos_iff.mpr hne)
      refine ⟨script[k % script.length], List.getElem?_eq_getElem hlt, ?_⟩
      rw [hanswer, List.getElem?_eq_getElem hlt]
      rfl

/-- The second question has no answer, and the third one goes on behind the entry it used up. -/
theorem answers_of_script_without_ways :
    (⟨[5, 3, 6]⟩ : Rota).answers [2, 0, 4, 4] =
      ([some 1, none, some 2, some 1], ⟨[3, 6, 5]⟩) := by
  obtain ⟨hlen, hentries, -, hanswers⟩ := answers_of_script ⟨[5, 3, 6]⟩ [2, 0, 4, 4]
  refine Prod.ext ?_ (congrArg Rota.mk hentries)
  have hne : [5, 3, 6] ≠ ([] : List Nat) := by simp
  apply List.ext_getElem?
  intro k
  match k with
  | 0 => obtain ⟨w, hw, h⟩ := (hanswers 0 2 rfl).2 hne; cases hw; exact h
  | 1 => obtain ⟨w, hw, h⟩ := (hanswers 1 0 rfl).2 hne; cases hw; exact h
  | 2 => obtain ⟨w, hw, h⟩ := (hanswers 2 4 rfl).2 hne; cases hw; exact h
  | 3 => obtain ⟨w, hw, h⟩ := (hanswers 3 4 rfl).2 hne; cases hw; exact h
  | k + 4 =>
    rw [List.getElem?_eq_none (by rw [hlen]; simp), List.getElem?_eq_none (by simp)]

end SetAssoc.Rota
