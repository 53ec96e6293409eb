import Sigil.Proofs.Yaml.Scalars

/-! # Documents in their lines

    With every line ended, a document is a row of lines that shows where
    it is over: its first line tells the form, the column of a line tells
    which of the open lists and records goes on, and there a dash tells
    items from fields.  So documents whose lines begin the same characters
    are the same, with the same characters behind.

    * `shows_of_textual`: wherever a document stands.
    * `lines_inj`: of a whole text.

    Numbers are left out.  A text of digits that is too long for a number
    is written as the number itself would be. -/

namespace Sigil.Doc

/-- The items of a list, or the documents of a record's fields. -/
def parts : Doc → List Doc
  | .text _ | .number _ => []
  | .list ds => ds
  | .record fs => fs.map Prod.snd

/-- The document is made of texts, lists and records. -/
inductive Textual : Doc → Prop where
  | text (s : String) : Textual (.text s)
  | list {ds : List Doc} (items : ∀ d ∈ ds, Textual d) : Textual (.list ds)
  | record {fs : List (String × Doc)} (values : ∀ f ∈ fs, Textual f.2) : Textual (.record fs)

theorem Textual.items {ds : List Doc} (h : Textual (.list ds)) : ∀ d ∈ ds, d.Textual := by
  cases h with
  | list items => exact items

theorem Textual.values {fs : List (String × Doc)} (h : Textual (.record fs)) :
    ∀ f ∈ fs, f.2.Textual := by
  cases h with
  | record values => exact values

namespace Yaml

theorem toList_spaces (n : Nat) : (spaces n).toList = blanks n :=
  String.toList_ofList

/-! ### Rows -/

/-- Entries, each on lines of its own that begin in a column. -/
def rows (column : Nat) (entries : List String) : List Char :=
  entries.flatMap fun entry => blanks column ++ ended entry.toList

theorem stacked_ne_nil (column : Nat) {entry : String} (h : entry.toList ≠ [])
    (rest : List String) : (stacked column (entry :: rest)).toList ≠ [] := by
  cases rest with
  | nil => exact h
  | cons next rest =>
    obtain ⟨more, hmore⟩ := prefix_ended entry.toList []
    rw [stacked, String.toList_append, String.toList_append, toList_lineEnded,
      ← List.append_nil (ended entry.toList), ← hmore]
    simp [h]

/-- What is stacked is a row of lines, but for the blanks before the first. -/
theorem blanks_stacked (column : Nat) {entries : List String} (hne : entries ≠ [])
    (h : ∀ entry ∈ entries, entry.toList ≠ []) :
    blanks column ++ ended (stacked column entries).toList = rows column entries := by
  induction entries with
  | nil => exact absurd rfl hne
  | cons entry rest ih =>
    cases rest with
    | nil => simp [stacked, rows]
    | cons next rest =>
      obtain ⟨-, hrest⟩ := List.forall_mem_cons.1 h
      have hnext : (stacked column (next :: rest)).toList ≠ [] :=
        stacked_ne_nil column (hrest next List.mem_cons_self) rest
      rw [stacked, String.toList_append, String.toList_append, ended_append _ hnext,
        toList_lineEnded, toList_spaces, List.append_assoc, ih (List.cons_ne_nil _ _) hrest]
      simp [rows]

theorem items_ne_nil (column : Nat) (ds : List Doc) :
    ∀ entry ∈ items column ds, entry.toList ≠ [] := by
  induction ds with
  | nil => exact nofun
  | cons d ds ih => exact List.forall_mem_cons.2 ⟨by simp, ih⟩

theorem fields_ne_nil (column : Nat) (fs : List (String × Doc)) :
    ∀ entry ∈ fields column fs, entry.toList ≠ [] := by
  induction fs with
  | nil => exact nofun
  | cons f fs ih =>
    refine List.forall_mem_cons.2 ⟨?_, ih⟩
    split <;> simp

/-! ### Nodes -/

/-- A node with its last line ended. -/
def nodeLines (column : Nat) (before : Before) (d : Doc) : List Char :=
  ended (node column before d).toList

/-- What a document below an entry of `column` is without what leads to it: inline, or rows of
items or fields. -/
inductive Body (column inner : Nat) : Doc → Bool → List Char → Prop where
  | text (s : String) : Body column inner (.text s) true (ended (scalar (column + 2) s).toList)
  | noItems : Body column inner (.list []) true ['[', ']', '\n']
  | noFields : Body column inner (.record []) true ['{', '}', '\n']
  | list {ds : List Doc} (ne : ds ≠ []) :
      Body column inner (.list ds) false (rows inner (items inner ds))
  | record {fs : List (String × Doc)} (ne : fs ≠ []) :
      Body column inner (.record fs) false (rows (column + 2) (fields (column + 2) fs))

theorem items_eq_nil_iff {column : Nat} {ds : List Doc} : items column ds = [] ↔ ds = [] := by
  cases ds <;> simp [items]

theorem fields_eq_nil_iff {column : Nat} {fs : List (String × Doc)} :
    fields column fs = [] ↔ fs = [] := by
  cases fs <;> simp [fields]

theorem blanks_items (column : Nat) {ds : List Doc} (h : ds ≠ []) :
    blanks column ++ ended (stacked column (items column ds)).toList
      = rows column (items column ds) :=
  blanks_stacked column (mt items_eq_nil_iff.1 h) (items_ne_nil column ds)

theorem blanks_fields (column : Nat) {fs : List (String × Doc)} (h : fs ≠ []) :
    blanks column ++ ended (stacked column (fields column fs)).toList
      = rows column (fields column fs) :=
  blanks_stacked column (mt fields_eq_nil_iff.1 h) (fields_ne_nil column fs)

theorem stacked_items_ne_nil (column : Nat) {ds : List Doc} (h : ds ≠ []) :
    (stacked column (items column ds)).toList ≠ [] := by
  cases ds with
  | nil => exact absurd rfl h
  | cons d ds => exact stacked_ne_nil column (items_ne_nil column (d :: ds) _ List.mem_cons_self) _

theorem stacked_fields_ne_nil (column : Nat) {fs : List (String × Doc)} (h : fs ≠ []) :
    (stacked column (fields column fs)).toList ≠ [] := by
  cases fs with
  | nil => exact absurd rfl h
  | cons f fs =>
    exact stacked_ne_nil column (fields_ne_nil column (f :: fs) _ List.mem_cons_self) _

theorem node_ne_nil (column : Nat) (before : Before) {d : Doc} (h : d.Textual) :
    (node column before d).toList ≠ [] := by
  cases h with
  | text s =>
    rw [node, String.toList_append]
    exact List.append_ne_nil_of_right_ne_nil _ (scalar_ne_nil _ s)
  | @list ds _ =>
    by_cases hne : ds = []
    · simp [node, hne]
    · simp only [node, List.isEmpty_iff, hne, if_false, String.toList_append]
      exact List.append_ne_nil_of_right_ne_nil _ (stacked_items_ne_nil _ hne)
  | @record fs _ =>
    by_cases hne : fs = []
    · simp [node, hne]
    · simp only [node, List.isEmpty_iff, hne, if_false, String.toList_append]
      exact List.append_ne_nil_of_right_ne_nil _ (stacked_fields_ne_nil _ hne)

/-- Behind a key an inline document follows a blank, and rows a line feed. -/
theorem body_of_key (column : Nat) {d : Doc} (h : d.Textual) :
    ∃ inline cs, Body column column d inline cs
      ∧ nodeLines column .key d = (if inline then ' ' else '\n') :: cs := by
  cases h with
  | text s =>
    refine ⟨true, _, .text s, ?_⟩
    rw [nodeLines, node, String.toList_append, ended_append _ (scalar_ne_nil _ s)]
    rfl
  | @list ds _ =>
    by_cases hne : ds = []
    · subst hne
      exact ⟨true, _, .noItems, by simp [nodeLines, node, Before.gap, ended, isBreak]⟩
    · refine ⟨false, _, .list hne, ?_⟩
      simp only [nodeLines, node, if_true, List.isEmpty_iff, hne, if_false, Before.turn,
        String.toList_append, toList_spaces]
      rw [ended_append _ (stacked_items_ne_nil column hne), List.append_assoc,
        blanks_items column hne]
      rfl
  | @record fs _ =>
    by_cases hne : fs = []
    · subst hne
      exact ⟨true, _, .noFields, by simp [nodeLines, node, Before.gap, ended, isBreak]⟩
    · refine ⟨false, _, .record hne, ?_⟩
      simp only [nodeLines, node, List.isEmpty_iff, hne, if_false, Before.turn,
        String.toList_append, toList_spaces]
      rw [ended_append _ (stacked_fields_ne_nil _ hne), List.append_assoc, blanks_fields _ hne]
      rfl

/-- Behind a sign everything follows at once; rows lack the blanks before the first line. -/
theorem body_of_sign (column : Nat) {d : Doc} (h : d.Textual) :
    ∃ inline cs, Body column (column + 2) d inline cs
      ∧ blanks (column + 2) ++ nodeLines column .sign d
        = (if inline then blanks (column + 2) else []) ++ cs := by
  cases h with
  | text s =>
    refine ⟨true, _, .text s, ?_⟩
    rw [nodeLines, node, String.toList_append]
    rfl
  | @list ds _ =>
    by_cases hne : ds = []
    · subst hne
      exact ⟨true, _, .noItems, by simp [nodeLines, node, Before.gap, ended, isBreak]⟩
    · refine ⟨false, _, .list hne, ?_⟩
      simp only [nodeLines, node, reduceCtorEq, List.isEmpty_iff, hne, if_false, Before.turn,
        String.toList_append]
      exact blanks_items _ hne
  | @record fs _ =>
    by_cases hne : fs = []
    · subst hne
      exact ⟨true, _, .noFields, by simp [nodeLines, node, Before.gap, ended, isBreak]⟩
    · refine ⟨false, _, .record hne, ?_⟩
      simp only [nodeLines, node, List.isEmpty_iff, hne, if_false, Before.turn,
        String.toList_append]
      exact blanks_fields _ hne

/-! ### Keys -/

/-- A key that stands on a line with its value is no block. -/
theorem style_ne_block {key : String} (h : isSimpleKey key = true) : style key ≠ .block := by
  rw [isSimpleKey, Bool.and_eq_true, Bool.not_eq_true'] at h
  have hfeed : key.toList.contains '\n' = false := by
    rw [← Bool.not_eq_true, List.contains_iff_mem]
    intro hmem
    exact absurd rfl (List.any_eq_false.1 h.2 _ hmem)
  unfold style
  simp only [hfeed, Bool.false_eq_true, if_false]
  split_ifs <;> decide

/-- A key that stands on a line with its value is written alike in every column. -/
theorem scalar_of_isSimpleKey {key : String} (h : isSimpleKey key = true) (column column' : Nat) :
    scalar column key = scalar column' key := by
  have hbreak : key.toList.any isBreak = false := by
    rw [isSimpleKey, Bool.and_eq_true, Bool.not_eq_true'] at h
    exact h.2
  have hlast : key.toList.getLast?.any isBreak = false := by
    cases hlast : key.toList.getLast? with
    | none => rfl
    | some c =>
      simpa using List.any_eq_false.1 hbreak c (List.mem_of_getLast? hlast)
  unfold scalar
  cases hstyle : style key with
  | plain | double => rfl
  | single =>
    simp only [singleQuoted, indented_of_unbroken hbreak, hlast]
    rfl
  | block => exact absurd hstyle (style_ne_block h)

/-! ### Entries -/

/-- A field with its last line ended. -/
def fieldLines (column : Nat) (f : String × Doc) : List Char :=
  if isSimpleKey f.1 then
    (scalar (column + 2) f.1).toList ++ ':' :: nodeLines column .key f.2
  else
    '?' :: ' ' :: (ended (scalar (column + 2) f.1).toList
      ++ (blanks column ++ ':' :: ' ' :: nodeLines column .sign f.2))

theorem rows_items_cons (column : Nat) {d : Doc} (h : d.Textual) (ds : List Doc) :
    rows column (items column (d :: ds))
      = blanks column
        ++ '-' :: ' ' :: (nodeLines column .sign d ++ rows column (items column ds)) := by
  have hentry : ended ("- " ++ node column .sign d).toList
      = '-' :: ' ' :: nodeLines column .sign d := by
    rw [String.toList_append, ended_append _ (node_ne_nil column .sign h)]
    rfl
  rw [items, rows, List.flatMap_cons, hentry, List.append_assoc]
  rfl

theorem rows_fields_cons (column : Nat) {f : String × Doc} (h : f.2.Textual)
    (fs : List (String × Doc)) :
    rows column (fields column (f :: fs))
      = blanks column ++ (fieldLines column f ++ rows column (fields column fs)) := by
  rw [fields, rows, List.flatMap_cons, List.append_assoc]
  congr 2
  unfold fieldLines
  split_ifs
  · rw [String.toList_append, ended_append _ (node_ne_nil column .key h)]
    simp [nodeLines]
  · rw [String.toList_append, ended_append _ (node_ne_nil column .sign h)]
    simp only [String.toList_append, toList_lineEnded, toList_spaces, List.append_assoc]
    rw [ended_append _ (scalar_ne_nil _ f.1)]
    simp [nodeLines]

/-- How a field begins: with no blank, no bracket, and no sign of an item. -/
structure BeginsField (c : Char) (cs : List Char) : Prop where
  blank : c ≠ ' '
  unbroken : isBreak c = false
  bracket : c ≠ '[' ∧ c ≠ '{'
  noItem : c = '-' → ∀ rest, (cs ++ rest).head? ≠ some ' '

theorem exists_cons_of_fieldLines (column : Nat) (f : String × Doc) :
    ∃ c cs, fieldLines column f = c :: cs ∧ BeginsField c cs := by
  unfold fieldLines
  split_ifs
  · obtain ⟨c, cs, hcs, -, hopens⟩ := (isScalar_scalar (column + 2) f.1).exists_cons
    rw [hcs]
    refine ⟨c, _, rfl, hopens.blank, hopens.unbroken, hopens.bracket, ?_⟩
    intro hc rest
    have hhead := hopens.head?_ne (.inr hc) (':' :: nodeLines column .key f.2 ++ rest)
    rwa [← List.append_assoc] at hhead
  · exact ⟨'?', _, rfl, by decide, rfl, by decide, nofun⟩

/-! ### What follows an entry -/

theorem below_blanks (column : Nat) {c : Char} (hc : c ≠ ' ') (hbreak : isBreak c = false)
    (rest : List Char) : Below (column + 1) (blanks column ++ c :: rest) :=
  .inr ⟨column, c, rest, Nat.lt_succ_self column, hc, hbreak, rfl⟩

/-- Nothing follows, or a line that begins in `column` or before it, and not an item there. -/
structure Follows (column : Nat) (cs : List Char) : Prop where
  below : Below (column + 1) cs
  noItem : ∀ rest, cs ≠ blanks column ++ '-' :: ' ' :: rest

theorem Below.follows {column : Nat} {cs : List Char} (h : Below column cs) :
    Follows column cs :=
  ⟨h.mono (Nat.le_succ column), fun _ => h.ne_blanks '-' _⟩

theorem below_items {column : Nat} {ds : List Doc} (hds : ∀ d ∈ ds, d.Textual)
    {rest : List Char} (h : Below (column + 1) rest) :
    Below (column + 1) (rows column (items column ds) ++ rest) := by
  cases ds with
  | nil => exact h
  | cons d ds =>
    rw [rows_items_cons column (hds d List.mem_cons_self), List.append_assoc]
    exact below_blanks column (by decide) rfl _

theorem follows_fields {column : Nat} {fs : List (String × Doc)}
    (hfs : ∀ f ∈ fs, f.2.Textual) {rest : List Char} (h : Below column rest) :
    Follows column (rows column (fields column fs) ++ rest) := by
  cases fs with
  | nil => exact h.follows
  | cons f fs =>
    obtain ⟨c, cs, hcs, hc⟩ := exists_cons_of_fieldLines column f
    rw [rows_fields_cons column (hfs f List.mem_cons_self), hcs, List.append_assoc,
      List.append_assoc]
    refine ⟨below_blanks column hc.blank hc.unbroken _, ?_⟩
    intro more heq
    obtain ⟨-, rfl, hmore⟩ := blanks_cancel hc.blank (by decide) heq
    exact hc.noItem rfl _ (congrArg List.head? hmore)

/-- What may follow an entry of `column`: behind a key also a line in that column. -/
def Ends (column : Nat) : Before → List Char → Prop
  | .key => Follows column
  | .sign => Below (column + 1)

/-- The lines of the document show it, wherever they stand. -/
def Shows (d : Doc) : Prop :=
  ∀ column before {e rest rest'}, e.Textual → Ends column before rest →
    Ends column before rest' →
    nodeLines column before d ++ rest = nodeLines column before e ++ rest' →
    d = e ∧ rest = rest'

/-! ### Rows show their entries -/

theorem items_cancel {column : Nat} {ds es : List Doc} (hds : ∀ d ∈ ds, d.Textual)
    (hes : ∀ e ∈ es, e.Textual) (hshows : ∀ d ∈ ds, Shows d) {rest rest' : List Char}
    (hrest : Follows column rest) (hrest' : Follows column rest')
    (h : rows column (items column ds) ++ rest = rows column (items column es) ++ rest') :
    ds = es ∧ rest = rest' := by
  induction ds generalizing es with
  | nil =>
    cases es with
    | nil => exact ⟨rfl, h⟩
    | cons e es =>
      -- what follows the list would be one more item
      rw [rows_items_cons column (hes e List.mem_cons_self), List.append_assoc] at h
      exact absurd h (hrest.noItem _)
  | cons d ds ih =>
    obtain ⟨hd, hmore⟩ := List.forall_mem_cons.1 hds
    obtain ⟨hshow, hshowMore⟩ := List.forall_mem_cons.1 hshows
    cases es with
    | nil =>
      rw [rows_items_cons column hd, List.append_assoc] at h
      exact absurd h.symm (hrest'.noItem _)
    | cons e es =>
      obtain ⟨he, hmore'⟩ := List.forall_mem_cons.1 hes
      rw [rows_items_cons column hd, rows_items_cons column he] at h
      simp only [List.append_assoc, List.append_cancel_left_eq, List.cons_append,
        List.cons.injEq, true_and] at h
      obtain ⟨rfl, htail⟩ := hshow column .sign he (below_items hmore hrest.below)
        (below_items hmore' hrest'.below) h
      obtain ⟨rfl, hrests⟩ := ih hmore hmore' hshowMore htail
      exact ⟨rfl, hrests⟩

/-- Behind a simple key stands a colon, and then a blank or the end of the line. -/
theorem closes_colon (column : Nat) {d : Doc} (h : d.Textual) (rest : List Char) :
    Closes (':' :: (nodeLines column .key d ++ rest)) := by
  obtain ⟨inline, cs, -, hlines⟩ := body_of_key column h
  rw [hlines]
  cases inline with
  | false => exact .colonFeed _
  | true => exact .colonBlank _

/-- A key and the document under it can be read off the lines of a field. -/
theorem field_cancel {column : Nat} {f g : String × Doc} (hf : f.2.Textual) (hg : g.2.Textual)
    (hshow : Shows f.2) {rest rest' : List Char} (hrest : Follows column rest)
    (hrest' : Follows column rest')
    (h : fieldLines column f ++ rest = fieldLines column g ++ rest') : f = g ∧ rest = rest' := by
  unfold fieldLines at h
  split_ifs at h with hkey hkey' hkey'
  · -- each key ends at the colon before its value
    simp only [List.append_assoc, List.cons_append] at h
    have hstyle := (isScalar_scalar _ f.1).style_eq (isScalar_scalar _ g.1)
      (List.prefix_append _ _) (List.prefix_append _ _) h
    obtain ⟨hname, htail⟩ := (isScalar_scalar _ f.1).inline_cancel (style_ne_block hkey)
      (hstyle ▸ isScalar_scalar _ g.1) (closes_colon column hf rest) (closes_colon column hg rest')
      h
    obtain ⟨hvalue, hrests⟩ := hshow column .key hg hrest hrest' (List.cons.inj htail).2
    exact ⟨Prod.ext (String.toList_inj.1 hname) hvalue, hrests⟩
  · -- no scalar begins as a key on lines of its own does
    rw [List.append_assoc] at h
    exact absurd h (ne_sign_of_scalar (List.prefix_append _ _) (.inl rfl) _)
  · rw [List.append_assoc] at h
    exact absurd h.symm (ne_sign_of_scalar (List.prefix_append _ _) (.inl rfl) _)
  · -- the line of the colon is indented by less than the lines of a block
    simp only [List.append_assoc, List.cons_append, List.cons.injEq, true_and] at h
    have hcolon (more : List Char) : Below (column + 2) (blanks column ++ ':' :: more) :=
      (below_blanks column (by decide) rfl more).mono (Nat.le_succ _)
    obtain ⟨hname, htail⟩ := scalar_cancel (hcolon _) (hcolon _) h
    rw [List.append_cancel_left_eq] at htail
    obtain ⟨hvalue, hrests⟩ := hshow column .sign hg hrest.below hrest'.below
      (List.cons.inj (List.cons.inj htail).2).2
    exact ⟨Prod.ext hname hvalue, hrests⟩

theorem fields_cancel {column : Nat} {fs gs : List (String × Doc)}
    (hfs : ∀ f ∈ fs, f.2.Textual) (hgs : ∀ g ∈ gs, g.2.Textual) (hshows : ∀ f ∈ fs, Shows f.2)
    {rest rest' : List Char} (hrest : Below column rest) (hrest' : Below column rest')
    (h : rows column (fields column fs) ++ rest = rows column (fields column gs) ++ rest') :
    fs = gs ∧ rest = rest' := by
  induction fs generalizing gs with
  | nil =>
    cases gs with
    | nil => exact ⟨rfl, h⟩
    | cons g gs =>
      obtain ⟨c, cs, hcs, -⟩ := exists_cons_of_fieldLines column g
      rw [rows_fields_cons column (hgs g List.mem_cons_self), hcs, List.append_assoc] at h
      exact absurd h (hrest.ne_blanks c _)
  | cons f fs ih =>
    obtain ⟨hf, hmore⟩ := List.forall_mem_cons.1 hfs
    obtain ⟨hshow, hshowMore⟩ := List.forall_mem_cons.1 hshows
    cases gs with
    | nil =>
      obtain ⟨c, cs, hcs, -⟩ := exists_cons_of_fieldLines column f
      rw [rows_fields_cons column hf, hcs, List.append_assoc] at h
      exact absurd h.symm (hrest'.ne_blanks c _)
    | cons g gs =>
      obtain ⟨hg, hmore'⟩ := List.forall_mem_cons.1 hgs
      rw [rows_fields_cons column hf, rows_fields_cons column hg] at h
      simp only [List.append_assoc, List.append_cancel_left_eq] at h
      obtain ⟨rfl, htail⟩ := field_cancel hf hg hshow (follows_fields hmore hrest)
        (follows_fields hmore' hrest') h
      obtain ⟨rfl, hrests⟩ := ih hmore hmore' hshowMore htail
      exact ⟨rfl, hrests⟩

/-! ### Bodies show their documents -/

theorem Body.inline_cancel {column inner : Nat} {d e : Doc} {cs ds : List Char}
    (hd : Body column inner d true cs) (he : Body column inner e true ds)
    {rest rest' : List Char} (hrest : Below (column + 2) rest) (hrest' : Below (column + 2) rest')
    (h : cs ++ rest = ds ++ rest') : d = e ∧ rest = rest' := by
  cases hd with
  | text s =>
    cases he with
    | text t =>
      obtain ⟨rfl, hrests⟩ := scalar_cancel hrest hrest' h
      exact ⟨rfl, hrests⟩
    | noItems => exact absurd h (ne_bracket_of_scalar (prefix_ended _ _) (.inl rfl) _)
    | noFields => exact absurd h (ne_bracket_of_scalar (prefix_ended _ _) (.inr rfl) _)
  | noItems =>
    cases he with
    | text t => exact absurd h.symm (ne_bracket_of_scalar (prefix_ended _ _) (.inl rfl) _)
    | noItems => exact ⟨rfl, List.append_cancel_left h⟩
    | noFields => cases h
  | noFields =>
    cases he with
    | text t => exact absurd h.symm (ne_bracket_of_scalar (prefix_ended _ _) (.inr rfl) _)
    | noItems => cases h
    | noFields => exact ⟨rfl, List.append_cancel_left h⟩

/-- Rows of items are no rows of fields. -/
theorem items_ne_fields {column inner : Nat} {d : Doc} (hd : d.Textual) (ds : List Doc)
    {f : String × Doc} (hf : f.2.Textual) (fs : List (String × Doc)) (rest rest' : List Char) :
    rows inner (items inner (d :: ds)) ++ rest
      ≠ rows column (fields column (f :: fs)) ++ rest' := by
  obtain ⟨c, cs, hcs, hc⟩ := exists_cons_of_fieldLines column f
  rw [rows_items_cons inner hd, rows_fields_cons column hf, hcs]
  simp only [List.append_assoc, List.cons_append]
  intro h
  obtain ⟨-, rfl, htail⟩ := blanks_cancel (by decide) hc.blank h
  exact hc.noItem rfl _ (congrArg List.head? htail).symm

theorem Body.rows_cancel {column inner : Nat} {d e : Doc} {cs ds : List Char} (htd : d.Textual)
    (hte : e.Textual) (hshows : ∀ x ∈ d.parts, Shows x) (hd : Body column inner d false cs)
    (he : Body column inner e false ds) {rest rest' : List Char} (hrest : Follows inner rest)
    (hrest' : Follows inner rest') (hbelow : Below (column + 2) rest)
    (hbelow' : Below (column + 2) rest') (h : cs ++ rest = ds ++ rest') :
    d = e ∧ rest = rest' := by
  cases hd with
  | @list ds ne =>
    cases he with
    | @list es _ =>
      obtain ⟨rfl, hrests⟩ := items_cancel htd.items hte.items hshows hrest hrest' h
      exact ⟨rfl, hrests⟩
    | @record gs ne' =>
      obtain ⟨d, ds, rfl⟩ := List.exists_cons_of_ne_nil ne
      obtain ⟨g, gs, rfl⟩ := List.exists_cons_of_ne_nil ne'
      exact absurd h (items_ne_fields (htd.items d List.mem_cons_self) ds
        (hte.values g List.mem_cons_self) gs _ _)
  | @record fs ne =>
    cases he with
    | @list es ne' =>
      obtain ⟨f, fs, rfl⟩ := List.exists_cons_of_ne_nil ne
      obtain ⟨e, es, rfl⟩ := List.exists_cons_of_ne_nil ne'
      exact absurd h.symm (items_ne_fields (hte.items e List.mem_cons_self) es
        (htd.values f List.mem_cons_self) fs _ _)
    | @record gs _ =>
      have hshows (f : String × Doc) (hf : f ∈ fs) : Shows f.2 :=
        hshows f.2 (List.mem_map_of_mem hf)
      obtain ⟨rfl, hrests⟩ := fields_cancel htd.values hte.values hshows hbelow hbelow' h
      exact ⟨rfl, hrests⟩

/-- A text is no field: nothing stands behind it on its line. -/
theorem scalar_ne_field (column column' : Nat) (s : String) {f : String × Doc}
    (hf : f.2.Textual) (rest rest' : List Char) :
    ended (scalar column s).toList ++ rest ≠ fieldLines column' f ++ rest' := by
  intro h
  unfold fieldLines at h
  split_ifs at h with hkey
  · rw [List.append_assoc, scalar_of_isSimpleKey hkey _ column] at h
    have hstyle := (isScalar_scalar _ s).style_eq (isScalar_scalar _ f.1) (prefix_ended _ _)
      (List.prefix_append _ _) h
    have hblock : style s ≠ .block := hstyle ▸ style_ne_block hkey
    rw [(isScalar_scalar _ s).ended_inline hblock, List.append_assoc] at h
    obtain ⟨-, htail⟩ := (isScalar_scalar _ s).inline_cancel hblock
      (hstyle ▸ isScalar_scalar _ f.1) (.feed rest) (closes_colon column' hf rest') h
    cases htail
  · exact absurd h (ne_sign_of_scalar (prefix_ended _ _) (.inl rfl) _)

/-- Behind a sign an inline document is no rows. -/
theorem Body.inline_ne_rows {column : Nat} {d e : Doc} {cs ds : List Char} (hte : e.Textual)
    (hd : Body column (column + 2) d true cs) (he : Body column (column + 2) e false ds)
    (rest rest' : List Char) : blanks (column + 2) ++ (cs ++ rest) ≠ ds ++ rest' := by
  cases he with
  | list ne =>
    obtain ⟨e, es, rfl⟩ := List.exists_cons_of_ne_nil ne
    rw [rows_items_cons _ (hte.items e List.mem_cons_self), List.append_assoc, ne_eq,
      List.append_cancel_left_eq]
    cases hd with
    | text s => exact ne_sign_of_scalar (prefix_ended _ _) (.inr rfl) _
    | noItems => exact nofun
    | noFields => exact nofun
  | record ne =>
    obtain ⟨f, fs, rfl⟩ := List.exists_cons_of_ne_nil ne
    have hf := hte.values f List.mem_cons_self
    rw [rows_fields_cons _ hf, List.append_assoc, ne_eq, List.append_cancel_left_eq,
      List.append_assoc]
    cases hd with
    | text s => exact scalar_ne_field _ _ s hf _ _
    | noItems =>
      obtain ⟨c, cs, hcs, hc⟩ := exists_cons_of_fieldLines (column + 2) f
      rw [hcs]
      intro h
      exact hc.bracket.1 (List.cons.inj h).1.symm
    | noFields =>
      obtain ⟨c, cs, hcs, hc⟩ := exists_cons_of_fieldLines (column + 2) f
      rw [hcs]
      intro h
      exact hc.bracket.2 (List.cons.inj h).1.symm

/-! ### Documents -/

theorem shows_of_parts {d : Doc} (hd : d.Textual) (hparts : ∀ x ∈ d.parts, Shows x) :
    Shows d := by
  intro column before e rest rest' he hrest hrest' h
  cases before with
  | key =>
    obtain ⟨inline, cs, hbody, hlines⟩ := body_of_key column hd
    obtain ⟨inline', cs', hbody', hlines'⟩ := body_of_key column he
    have hbelow := hrest.below.mono (Nat.le_succ (column + 1))
    have hbelow' := hrest'.below.mono (Nat.le_succ (column + 1))
    rw [hlines, hlines'] at h
    obtain ⟨hhead, htail⟩ := List.cons.inj h
    cases inline <;> cases inline'
    · exact hbody.rows_cancel hd he hparts hbody' hrest hrest' hbelow hbelow' htail
    · cases hhead
    · cases hhead
    · exact hbody.inline_cancel hbody' hbelow hbelow' htail
  | sign =>
    obtain ⟨inline, cs, hbody, hlines⟩ := body_of_sign column hd
    obtain ⟨inline', cs', hbody', hlines'⟩ := body_of_sign column he
    have hbelow : Below (column + 2) rest := hrest.mono (Nat.le_succ _)
    have hbelow' : Below (column + 2) rest' := hrest'.mono (Nat.le_succ _)
    -- the blanks before the first line make the rows whole
    have hblanks := congrArg (blanks (column + 2) ++ ·) h
    simp only [← List.append_assoc] at hblanks
    rw [hlines, hlines'] at hblanks
    cases inline <;> cases inline' <;>
      simp only [Bool.false_eq_true, if_false, if_true, List.nil_append, List.append_assoc]
        at hblanks
    · exact hbody.rows_cancel hd he hparts hbody' hbelow.follows hbelow'.follows hbelow hbelow'
        hblanks
    · exact absurd hblanks.symm (hbody'.inline_ne_rows hd hbody rest' rest)
    · exact absurd hblanks (hbody.inline_ne_rows he hbody' rest rest')
    · exact hbody.inline_cancel hbody' hbelow hbelow' (List.append_cancel_left hblanks)

/-- By induction on the document, its lines show it. -/
theorem shows_of_textual {d : Doc} (h : d.Textual) : Shows d := by
  induction h with
  | text s => exact shows_of_parts (.text s) nofun
  | list items ih => exact shows_of_parts (.list items) ih
  | record values ih =>
    refine shows_of_parts (.record values) ?_
    intro x hx
    obtain ⟨f, hf, rfl⟩ := List.mem_map.1 hx
    exact ih f hf

/-- With its last line ended, a YAML text shows the fields. -/
theorem lines_inj {fs gs : List (String × Doc)} (hfs : (Doc.record fs).Textual)
    (hgs : (Doc.record gs).Textual) (hne : fs ≠ []) (hne' : gs ≠ [])
    (h : lineEnded (stacked 0 (fields 0 fs)) = lineEnded (stacked 0 (fields 0 gs))) :
    fs = gs := by
  have hrows : rows 0 (fields 0 fs) ++ [] = rows 0 (fields 0 gs) ++ [] := by
    rw [← blanks_fields 0 hne, ← blanks_fields 0 hne', ← toList_lineEnded, ← toList_lineEnded, h]
  have hshows (f : String × Doc) (hf : f ∈ fs) : Shows f.2 := shows_of_textual (hfs.values f hf)
  exact (fields_cancel hfs.values hgs.values hshows (.inl rfl) (.inl rfl) hrows).1

end Yaml

end Sigil.Doc
