import Sigil.Value

/-! # Named arguments

    The arguments of a symbol: values under names, each name at most once,
    in the order in which the names first came.  Setting a name that is
    there replaces its value and leaves it where it stands.

    Two sets of arguments are the *same* when each name has the same value
    in both; the order does not count for that.

    Key definitions: `Arguments`, `Arguments.insert`, `Arguments.same`.
    Key theorem: `Arguments.get?_insert`. -/

namespace Sigil

/-- Named values in order, each name once. -/
structure Arguments where
  /-- The names with their values, in the order of the names' first use. -/
  entries : List (String × Value)
  nodup : (entries.map Prod.fst).Nodup
  deriving DecidableEq

namespace Arguments

/-! ### Entries -/

/-- The entries with `value` under `key`: at the place of the key if it is
there, else at the end. -/
def putIn (key : String) (value : Value) : List (String × Value) → List (String × Value)
  | [] => [(key, value)]
  | e :: es => if e.1 = key then (key, value) :: es else e :: putIn key value es

/-- Put `value` under `key` as `putIn` does, and hand out the value that stood there. -/
def exchangeIn (key : String) (value : Value) :
    List (String × Value) → Option Value × List (String × Value)
  | [] => (none, [(key, value)])
  | e :: es =>
    if e.1 = key then (some e.2, (key, value) :: es)
    else
      let found := exchangeIn key value es
      (found.1, e :: found.2)

/-- Putting keeps the names and their order, but for a new name at the end. -/
theorem keys_putIn (key : String) (value : Value) (es : List (String × Value)) :
    (putIn key value es).map Prod.fst
      = if key ∈ es.map Prod.fst then es.map Prod.fst else es.map Prod.fst ++ [key] := by
  induction es with
  | nil => simp [putIn]
  | cons e es ih =>
    rw [putIn]
    split
    · next h => subst h; simp
    · next h =>
      rw [List.map_cons, ih]
      by_cases hk : key ∈ es.map Prod.fst <;> simp [hk, Ne.symm h]

theorem nodup_keys_putIn (key : String) (value : Value) {es : List (String × Value)}
    (h : (es.map Prod.fst).Nodup) : ((putIn key value es).map Prod.fst).Nodup := by
  rw [keys_putIn]
  split
  · exact h
  · next hk =>
    refine List.nodup_append.2 ⟨h, by simp, ?_⟩
    rintro a ha b hb rfl
    exact hk (List.mem_singleton.1 hb ▸ ha)

theorem lookup_cons_eq (key : String) (e : String × Value) (es : List (String × Value)) :
    (e :: es).lookup key = if key = e.1 then some e.2 else es.lookup key := by
  rw [List.lookup_cons]
  by_cases h : key = e.1
  · rw [if_pos h, beq_iff_eq.2 h]
  · rw [if_neg h, beq_eq_false_iff_ne.2 h]

theorem lookup_putIn (key other : String) (value : Value) (es : List (String × Value)) :
    (putIn key value es).lookup other
      = if other = key then some value else es.lookup other := by
  induction es with
  | nil => rw [putIn, lookup_cons_eq]
  | cons e es ih =>
    rw [putIn]
    split
    · next h =>
      subst h
      rw [lookup_cons_eq, lookup_cons_eq]
      by_cases ho : other = e.1
      · rw [if_pos ho, if_pos ho]
      · rw [if_neg ho, if_neg ho, if_neg ho]
    · next h =>
      rw [lookup_cons_eq, lookup_cons_eq, ih]
      by_cases ho : other = e.1
      · subst ho
        rw [if_pos rfl, if_neg h, if_pos rfl]
      · rw [if_neg ho, if_neg ho]

/-- An exchange is a look-up before a change. -/
theorem exchangeIn_eq (key : String) (value : Value) (es : List (String × Value)) :
    exchangeIn key value es = (es.lookup key, putIn key value es) := by
  induction es with
  | nil => rfl
  | cons e es ih =>
    rw [exchangeIn, lookup_cons_eq, putIn]
    by_cases h : e.1 = key
    · rw [if_pos h, if_pos h, if_pos h.symm]
    · rw [if_neg h, if_neg h, if_neg (Ne.symm h), ih]

/-! ### Operations -/

/-- No arguments. -/
def empty : Arguments :=
  ⟨[], by simp⟩

/-- The arguments with `value` under `key`. -/
def insert (as : Arguments) (key : String) (value : Value) : Arguments :=
  ⟨putIn key value as.entries, nodup_keys_putIn key value as.nodup⟩

/-- The value under `key`. -/
def get? (as : Arguments) (key : String) : Option Value :=
  as.entries.lookup key

/-- Insert, and tell which value was replaced. -/
def exchange (as : Arguments) (key : String) (value : Value) : Option Value × Arguments :=
  ((exchangeIn key value as.entries).1,
    ⟨(exchangeIn key value as.entries).2, by
      rw [exchangeIn_eq]
      exact nodup_keys_putIn key value as.nodup⟩)

/-- Is there a value under `key`? -/
def contains (as : Arguments) (key : String) : Bool :=
  (as.get? key).isSome

/-- The names in order. -/
def keys (as : Arguments) : List String :=
  as.entries.map Prod.fst

/-- The number of arguments. -/
def size (as : Arguments) : Nat :=
  as.entries.length

/-- Are there no arguments? -/
def isEmpty (as : Arguments) : Bool :=
  as.entries.isEmpty

/-- The arguments that result from inserting pairs one after the other. -/
def ofList (pairs : List (String × Value)) : Arguments :=
  pairs.foldl (fun as p => as.insert p.1 p.2) empty

/-- Do `as` and `bs` have the same names, with the same value under each?
As many names, and each value of `as` found in `bs`, is enough, because no
name comes twice. -/
def same (as bs : Arguments) : Bool :=
  as.size == bs.size && as.entries.all fun e => bs.get? e.1 == some e.2

/-! ### What the operations do -/

/-- An inserted value is found under its name, and nothing else changes. -/
theorem get?_insert (as : Arguments) (key other : String) (value : Value) :
    (as.insert key value).get? other
      = if other = key then some value else as.get? other :=
  lookup_putIn key other value as.entries

/-- What is replaced is what was found before, and what comes of it is an insertion. -/
theorem exchange_eq (as : Arguments) (key : String) (value : Value) :
    as.exchange key value = (as.get? key, as.insert key value) := by
  unfold exchange insert get?
  simp only [exchangeIn_eq]

theorem keys_insert (as : Arguments) (key : String) (value : Value) :
    (as.insert key value).keys
      = if key ∈ as.keys then as.keys else as.keys ++ [key] :=
  keys_putIn key value as.entries

end Arguments

end Sigil
