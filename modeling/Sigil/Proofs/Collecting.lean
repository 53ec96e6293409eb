import Sigil.Arguments
import Mathlib.Data.List.Induction
import Mathlib.Data.List.Nodup
import Mathlib.Data.List.Perm.Subperm

/-! # Collecting arguments

    What inserting pairs one after the other amounts to.  A name keeps the
    place of its first pair and has the value of its last one, and pairs
    whose names differ are collected as they stand.  Arguments that are the
    same have the same entries, if not in the same order
    (`Arguments.mem_of_same`).

    The inductions go from the last pair, which is the one inserted last. -/

namespace Sigil.Arguments

@[ext] theorem ext {as bs : Arguments} (h : as.entries = bs.entries) : as = bs := by
  obtain ⟨es, _⟩ := as
  obtain ⟨fs, _⟩ := bs
  cases h
  rfl

theorem ofList_concat (entries : List (String × Value)) (key : String) (v : Value) :
    ofList (entries ++ [(key, v)]) = (ofList entries).insert key v := by
  simp [ofList]

/-- The names stand in the order in which they first came. -/
theorem keys_ofList (entries : List (String × Value)) :
    (ofList entries).keys = (entries.map Prod.fst).eraseDups := by
  induction entries using List.reverseRecOn with
  | nil => rfl
  | append_singleton entries e ih =>
    rw [ofList_concat, keys_insert, ih, List.map_append, List.eraseDups_append]
    by_cases h : e.1 ∈ entries.map Prod.fst
    · rw [if_pos (List.mem_eraseDups.2 h)]
      have hgone : (List.map Prod.fst [e]).removeAll (entries.map Prod.fst) = [] := by
        simpa [List.removeAll] using h
      rw [hgone, List.eraseDups_nil, List.append_nil]
    · rw [if_neg (fun hm => h (List.mem_eraseDups.1 hm))]
      have hstays : (List.map Prod.fst [e]).removeAll (entries.map Prod.fst) = [e.1] := by
        simpa [List.removeAll] using h
      rw [hstays]
      rfl

/-- Under a name stands the value that came with it last. -/
theorem get?_ofList (entries : List (String × Value)) (key : String) :
    (ofList entries).get? key = entries.reverse.lookup key := by
  induction entries using List.reverseRecOn with
  | nil => rfl
  | append_singleton entries e ih =>
    rw [ofList_concat, get?_insert, ih, List.reverse_concat, List.lookup_cons]
    by_cases h : key = e.1
    · simp [h]
    · have hne : (key == e.1) = false := by simpa using h
      rw [if_neg h, hne]

theorem putIn_of_notMem {key : String} {v : Value} {es : List (String × Value)}
    (h : key ∉ es.map Prod.fst) : putIn key v es = es ++ [(key, v)] := by
  induction es with
  | nil => rfl
  | cons e es ih =>
    rw [List.map_cons, List.mem_cons, not_or] at h
    rw [putIn, if_neg (Ne.symm h.1), ih h.2, List.cons_append]

theorem entries_ofList {entries : List (String × Value)}
    (h : (entries.map Prod.fst).Nodup) : (ofList entries).entries = entries := by
  induction entries using List.reverseRecOn with
  | nil => rfl
  | append_singleton entries e ih =>
    rw [List.map_append, List.nodup_append] at h
    have hnew : e.1 ∉ entries.map Prod.fst := by
      intro hmem
      exact h.2.2 e.1 hmem e.1 (List.mem_singleton.2 rfl) rfl
    rw [ofList_concat]
    show putIn e.1 e.2 (ofList entries).entries = _
    rw [ih h.1, putIn_of_notMem hnew]

/-- Arguments are collected from their own entries. -/
theorem ofList_entries (as : Arguments) : ofList as.entries = as :=
  ext (entries_ofList as.nodup)

/-! ### Entries -/

theorem mem_putIn {key : String} {v : Value} {es : List (String × Value)}
    {e : String × Value} (h : e ∈ putIn key v es) : e = (key, v) ∨ e ∈ es := by
  induction es with
  | nil => exact Or.inl (List.mem_singleton.1 h)
  | cons e' es ih =>
    rw [putIn] at h
    split at h
    · rcases List.mem_cons.1 h with he | he
      · exact Or.inl he
      · exact Or.inr (List.mem_cons_of_mem e' he)
    · rcases List.mem_cons.1 h with he | he
      · exact Or.inr (he ▸ List.mem_cons_self)
      · exact (ih he).imp_right (List.mem_cons_of_mem e')

/-- Nothing is collected that was not among the pairs. -/
theorem mem_of_mem_ofList {entries : List (String × Value)} {e : String × Value}
    (h : e ∈ (ofList entries).entries) : e ∈ entries := by
  induction entries using List.reverseRecOn with
  | nil => exact h
  | append_singleton entries e' ih =>
    rw [ofList_concat] at h
    rcases mem_putIn h with he | he
    · exact List.mem_append_right entries (List.mem_singleton.2 he)
    · exact List.mem_append_left [e'] (ih he)

theorem mem_of_lookup_eq_some {key : String} {v : Value} {es : List (String × Value)}
    (h : es.lookup key = some v) : (key, v) ∈ es := by
  obtain ⟨before, after, rfl, -⟩ := List.lookup_eq_some_iff.1 h
  exact List.mem_append_right before List.mem_cons_self

theorem lookup_of_mem {key : String} {v : Value} {es : List (String × Value)}
    (hnodup : (es.map Prod.fst).Nodup) (h : (key, v) ∈ es) : es.lookup key = some v := by
  obtain ⟨before, after, rfl⟩ := List.append_of_mem h
  refine List.lookup_eq_some_iff.2 ⟨before, after, rfl, fun e he => ?_⟩
  -- the name does not come before its own place
  rw [List.map_append, List.map_cons] at hnodup
  have hdisjoint := (List.nodup_append.1 hnodup).2.2 e.1 (List.mem_map_of_mem he) key
    List.mem_cons_self
  exact bne_iff_ne.2 (Ne.symm hdisjoint)

theorem same_self (as : Arguments) : as.same as = true := by
  rw [same, Bool.and_eq_true, beq_iff_eq, List.all_eq_true]
  refine ⟨rfl, fun e he => beq_iff_eq.2 ?_⟩
  exact lookup_of_mem as.nodup he

/-- Arguments that are the same have the same entries: each of `as` is among those
of `bs`, and no name leaves room for a further one. -/
theorem perm_of_same {as bs : Arguments} (h : as.same bs = true) :
    as.entries.Perm bs.entries := by
  rw [same, Bool.and_eq_true, beq_iff_eq, List.all_eq_true] at h
  obtain ⟨hsize, hfound⟩ := h
  have hsub : as.entries ⊆ bs.entries := by
    intro e he
    exact mem_of_lookup_eq_some (beq_iff_eq.1 (hfound e he))
  have hnodup : as.entries.Nodup := List.Nodup.of_map Prod.fst as.nodup
  exact (hnodup.subperm hsub).perm_of_length_le (Nat.le_of_eq hsize.symm)

theorem mem_of_same {as bs : Arguments} (h : as.same bs = true) {e : String × Value}
    (he : e ∈ bs.entries) : e ∈ as.entries :=
  (perm_of_same h).mem_iff.2 he

end Sigil.Arguments
