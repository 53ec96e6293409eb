import Sigil.Expr
import Sigil.Proofs.Collecting
import Mathlib.Data.Finset.Card

/-! # Arguments as a map

    Arguments keep two things: a value for each name, and the order in
    which the names first came.  Inserting, looking up and telling the
    names apart do what they do for a map that remembers this order
    (`Arguments.Collects`, `Arguments.Replaces`).

    Sameness forgets the order and nothing else.  It is decided by a test
    that goes one way only, from the names of the first arguments to the
    second; because no name comes twice, the test is nevertheless agreement
    on every name (`Arguments.same_iff_get?`), and expressions are the same
    when they become one expression as soon as all arguments are put in the
    order of their names (`Expr.same_iff_sorted`). -/

namespace Sigil

namespace Arguments

/-! ### What has been inserted -/

/-- The arguments hold what the pairs say, inserted one after the other into nothing. -/
structure Collects (as : Arguments) (pairs : List (String × Value)) : Prop where
  distinct : as.keys.Nodup
  /-- The names stand in the order in which they first came. -/
  order : as.keys = (pairs.map Prod.fst).eraseDups
  /-- Under a name stands the value that came with it last. -/
  last : ∀ key, as.get? key = pairs.reverse.lookup key
  size : as.size = (pairs.map Prod.fst).toFinset.card

/-- What comes of inserting `value` under `key`: the value that stood there is handed out,
and no other name has another value or another place. -/
structure Replaces (as : Arguments) (key : String) (value : Value)
    (result : Option Value × Arguments) : Prop where
  old : result.1 = as.get? key
  value : result.2.get? key = some value
  others : ∀ other, other ≠ key → result.2.get? other = as.get? other
  /-- The names keep their places; a new one comes last. -/
  places : ∀ (i : Nat) (name : String), as.keys[i]? = some name →
    result.2.keys[i]? = some name

theorem collects_ofList (pairs : List (String × Value)) : (ofList pairs).Collects pairs where
  distinct := (ofList pairs).nodup
  order := keys_ofList pairs
  last := get?_ofList pairs
  size := by
    have hnodup : (ofList pairs).keys.Nodup := (ofList pairs).nodup
    have hnames : (pairs.map Prod.fst).toFinset = (ofList pairs).keys.toFinset := by
      ext name
      rw [List.mem_toFinset, List.mem_toFinset, keys_ofList, List.mem_eraseDups]
    rw [hnames, List.toFinset_card_of_nodup hnodup]
    unfold size keys
    rw [List.length_map]

theorem replaces_exchange (as : Arguments) (key : String) (value : Value) :
    as.Replaces key value (as.exchange key value) := by
  rw [exchange_eq]
  refine ⟨rfl, ?_, ?_, ?_⟩
  · show (as.insert key value).get? key = some value
    rw [get?_insert, if_pos rfl]
  · intro other hother
    show (as.insert key value).get? other = as.get? other
    rw [get?_insert, if_neg hother]
  · intro i name hname
    show (as.insert key value).keys[i]? = some name
    rw [keys_insert]
    split
    · exact hname
    · rw [List.getElem?_append_left (List.getElem?_eq_some_iff.1 hname).1]
      exact hname

/-- Exchanging one pair after the other collects them. -/
theorem foldl_exchange (pairs : List (String × Value)) :
    pairs.foldl (fun as p => (as.exchange p.1 p.2).2) empty = ofList pairs := by
  unfold ofList
  congr 1
  funext as p
  rw [exchange_eq]

/-! ### Sameness -/

section Same

variable {as bs : Arguments}

theorem get?_eq_some_iff {key : String} {v : Value} :
    as.get? key = some v ↔ (key, v) ∈ as.entries := by
  unfold get?
  constructor
  · exact mem_of_lookup_eq_some
  · exact lookup_of_mem as.nodup

/-- Entries in another order are found under the same names. -/
theorem get?_eq_of_perm (h : as.entries.Perm bs.entries) (key : String) :
    as.get? key = bs.get? key := by
  apply Option.ext
  intro v
  rw [get?_eq_some_iff, get?_eq_some_iff]
  exact h.mem_iff

theorem perm_of_get?_eq (h : ∀ key, as.get? key = bs.get? key) :
    as.entries.Perm bs.entries := by
  have hnodup : as.entries.Nodup := List.Nodup.of_map Prod.fst as.nodup
  have hnodup' : bs.entries.Nodup := List.Nodup.of_map Prod.fst bs.nodup
  rw [List.perm_ext_iff_of_nodup hnodup hnodup']
  rintro ⟨key, v⟩
  rw [← get?_eq_some_iff, ← get?_eq_some_iff, h]

/-- The test for sameness succeeds on the same entries in any order. -/
theorem same_iff_perm : as.same bs = true ↔ as.entries.Perm bs.entries := by
  constructor
  · exact perm_of_same
  · intro h
    rw [same, Bool.and_eq_true, beq_iff_eq, List.all_eq_true]
    refine ⟨h.length_eq, ?_⟩
    intro e he
    rw [beq_iff_eq, get?_eq_some_iff]
    exact h.mem_iff.1 he

/-- Arguments are the same when they agree on every name. -/
theorem same_iff_get? : as.same bs = true ↔ ∀ key, as.get? key = bs.get? key := by
  rw [same_iff_perm]
  constructor
  · exact get?_eq_of_perm
  · exact perm_of_get?_eq

theorem same_equivalence : Equivalence fun as bs : Arguments => as.same bs = true where
  refl as := as.same_self
  symm := by
    intro as bs h
    rw [same_iff_perm] at h ⊢
    exact h.symm
  trans := by
    intro as bs cs h h'
    rw [same_iff_perm] at h h' ⊢
    exact h.trans h'

end Same

/-! ### The order of names -/

/-- The arguments in the order of their names, code point by code point. -/
def sorted (as : Arguments) : Arguments where
  entries := as.entries.mergeSort fun e f => decide (e.1 ≤ f.1)
  nodup := ((List.mergeSort_perm _ _).map Prod.fst).nodup_iff.2 as.nodup

theorem perm_sorted (as : Arguments) : as.sorted.entries.Perm as.entries :=
  List.mergeSort_perm _ _

theorem pairwise_sorted (as : Arguments) :
    as.sorted.entries.Pairwise fun e f => e.1 ≤ f.1 := by
  have hsorted : as.sorted.entries.Pairwise fun e f => decide (e.1 ≤ f.1) = true := by
    apply List.pairwise_mergeSort
    · intro e f g hef hfg
      rw [decide_eq_true_eq] at hef hfg ⊢
      exact String.le_trans hef hfg
    · intro e f
      rw [Bool.or_eq_true, decide_eq_true_eq, decide_eq_true_eq]
      exact String.le_total e.1 f.1
  apply hsorted.imp
  intro e f h
  exact of_decide_eq_true h

/-- There is one order of names, and an entry is known by its name; so the same entries are
put in order in one way only. -/
theorem same_iff_sorted {as bs : Arguments} : as.same bs = true ↔ as.sorted = bs.sorted := by
  rw [same_iff_perm]
  constructor
  · intro h
    have hperm : as.sorted.entries.Perm bs.sorted.entries :=
      as.perm_sorted.trans (h.trans bs.perm_sorted.symm)
    apply ext
    apply List.Perm.eq_of_pairwise _ as.pairwise_sorted bs.pairwise_sorted hperm
    intro e f he hf hle hge
    have hkey : e.1 = f.1 := String.le_antisymm hle hge
    have hf' : (e.1, f.2) ∈ as.sorted.entries := by
      rw [hkey]
      exact hperm.mem_iff.2 hf
    have hvalue := get?_eq_some_iff.2 hf'
    rw [get?_eq_some_iff.2 he] at hvalue
    exact Prod.ext hkey (Option.some.inj hvalue)
  · intro h
    have hperm := as.perm_sorted
    rw [h] at hperm
    exact hperm.symm.trans bs.perm_sorted

end Arguments

namespace Expr

/-- The expression with the arguments of every symbol in the order of their names. -/
def sorted : Expr → Expr
  | .call s as => .call s as.sorted
  | .binary c l r => .binary c l.sorted r.sorted
  | .unary c x => .unary c x.sorted

/-- Expressions are the same when putting all arguments in order makes them equal. -/
theorem same_iff_sorted {x y : Expr} : x.same y = true ↔ x.sorted = y.sorted := by
  induction x generalizing y with
  | call s as =>
    cases y with
    | call t bs =>
      rw [same, Bool.and_eq_true, beq_iff_eq, Arguments.same_iff_sorted, sorted, sorted,
        call.injEq]
    | binary | unary => exact iff_of_false nofun nofun
  | binary c l r ihl ihr =>
    cases y with
    | binary d l' r' =>
      rw [same, Bool.and_eq_true, Bool.and_eq_true, beq_iff_eq, ihl, ihr, sorted, sorted,
        binary.injEq, and_assoc]
    | call | unary => exact iff_of_false nofun nofun
  | unary c x ih =>
    cases y with
    | unary d y => rw [same, Bool.and_eq_true, beq_iff_eq, ih, sorted, sorted, unary.injEq]
    | call | binary => exact iff_of_false nofun nofun

end Expr

/-- Arguments are a map that remembers the order in which its names first came: inserting
pairs into nothing, at once or one after the other, collects them, and each insertion hands
out the value that it replaces and leaves the other names alone.  Sameness is agreement on
every name; it is an equivalence, does not depend on the order, and carries over to
expressions, which are the same when they are equal up to the order of arguments. -/
theorem Arguments.insertion_is_exact :
    (∀ pairs, pairs.foldl (fun as p => (as.exchange p.1 p.2).2) empty = ofList pairs ∧
      (ofList pairs).Collects pairs ∧
      ∀ key value, (ofList pairs).Replaces key value ((ofList pairs).exchange key value)) ∧
    (∀ as bs : Arguments, as.same bs = true ↔ ∀ key, as.get? key = bs.get? key) ∧
    (Equivalence fun as bs : Arguments => as.same bs = true) ∧
    (∀ as bs : Arguments, as.same bs = true ↔ as.entries.Perm bs.entries) ∧
    ∀ x y : Expr, x.same y = true ↔ x.sorted = y.sorted := by
  refine ⟨?_, ?_, same_equivalence, ?_, ?_⟩
  · intro pairs
    refine ⟨foldl_exchange pairs, collects_ofList pairs, ?_⟩
    intro key value
    exact replaces_exchange (ofList pairs) key value
  · intro as bs
    exact same_iff_get?
  · intro as bs
    exact same_iff_perm
  · intro x y
    exact Expr.same_iff_sorted

end Sigil
