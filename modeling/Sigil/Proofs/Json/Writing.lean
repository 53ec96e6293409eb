import Mathlib.Data.List.Forall2
import Mathlib.Tactic.SplitIfs
import Sigil.Doc.Json
import Sigil.Proofs.Json.Reading

/-! # What is written is JSON

    Both layouts of a document are JSON texts that stand for it, so a
    document can be told from its text (`Json.compact_inj`).  The text on
    one line holds no control, whatever the texts in the document do, and
    therefore no line feed (`Json.controlFree_compact`). -/

namespace Sigil.Doc.Json

/-! ### Texts -/

theorem ofCode?_control (n : Fin 0x20) :
    ofCode? ['0', '0', hexDigit (n / 16), hexDigit n] = some (Char.ofNat n) := by
  revert n
  decide

theorem denote_escaped (c : Char) {cs ds : List Char} (h : Denote cs ds) :
    Denote (escaped c ++ cs) (c :: ds) := by
  unfold escaped
  split_ifs with hquote hslash h08 h0c hfeed hreturn htab hcontrol
  · subst hquote
    exact .sign rfl h
  · subst hslash
    exact .sign rfl h
  · subst h08
    exact .sign rfl h
  · subst h0c
    exact .sign rfl h
  · subst hfeed
    exact .sign rfl h
  · subst hreturn
    exact .sign rfl h
  · subst htab
    exact .sign rfl h
  · have hcode := ofCode?_control ⟨c.toNat, hcontrol⟩
    rw [Char.ofNat_toNat] at hcode
    exact .code rfl hcode h
  · refine .plain ?_ h
    simp only [isUnescaped, Bool.and_eq_true, decide_eq_true_eq, bne_iff_ne]
    exact ⟨⟨Nat.le_of_not_lt hcontrol, hquote⟩, hslash⟩

theorem denote_flatMap_escaped (cs : List Char) : Denote (cs.flatMap escaped) cs := by
  induction cs with
  | nil => exact .nil
  | cons c cs ih =>
    rw [List.flatMap_cons]
    exact denote_escaped c ih

theorem isText_quoted (s : String) : IsText (quoted s).toList s := by
  have hchars : (quoted s).toList = '"' :: (s.toList.flatMap escaped ++ ['"']) := by
    simp [quoted]
  rw [hchars]
  exact ⟨denote_flatMap_escaped s.toList⟩

/-! ### Parts between brackets -/

/-- Parts with commas between them, each behind `gap`, and `trail` after the last. -/
def listed (gap trail : List Char) : List String → List Char
  | [] => []
  | [part] => gap ++ (part.toList ++ trail)
  | part :: next :: rest => gap ++ part.toList ++ ',' :: listed gap trail (next :: rest)

theorem toList_intercalate_comma (parts : List String) :
    (String.intercalate "," parts).toList = listed [] [] parts := by
  induction parts with
  | nil => rfl
  | cons part rest ih =>
    cases rest with
    | nil => simp [listed]
    | cons next rest =>
      rw [String.intercalate_cons_cons, String.toList_append, ih]
      simp [listed]

theorem toList_intercalate_indented (indent closing : String) {parts : List String}
    (h : parts ≠ []) :
    ("\n" ++ String.intercalate ",\n" (parts.map fun part => indent ++ part) ++ "\n"
        ++ closing).toList
      = listed ('\n' :: indent.toList) ('\n' :: closing.toList) parts := by
  induction parts with
  | nil => exact absurd rfl h
  | cons part rest ih =>
    cases rest with
    | nil => simp [listed]
    | cons next rest =>
      have hrest := ih (List.cons_ne_nil _ _)
      simp only [String.toList_append, List.map_cons] at hrest
      simp only [List.map_cons, String.intercalate_cons_cons, listed, ← hrest, String.toList_append]
      simp

/-- A row is made of its parts by `one` and `cons`, and blanks may surround a part. -/
theorem row_listed {α : Type} {Part : List Char → α → Prop} {Row : List Char → List α → Prop}
    (one : ∀ {cs a}, Part cs a → Row cs [a])
    (cons : ∀ {cs cs' a as}, Part cs a → Row cs' as → Row (cs ++ ',' :: cs') (a :: as))
    (blanks : ∀ {gap cs trail a}, gap.all isBlank = true → Part cs a → trail.all isBlank = true →
      Part (gap ++ (cs ++ trail)) a)
    {gap trail : List Char} (hgap : gap.all isBlank = true) (htrail : trail.all isBlank = true)
    {parts : List String} {as : List α} (h : List.Forall₂ (fun s a => Part s.toList a) parts as)
    (hne : parts ≠ []) : Row (listed gap trail parts) as := by
  induction h with
  | nil => exact absurd rfl hne
  | @cons part a rest as hpart hrest ih =>
    cases hrest with
    | nil => exact one (blanks hgap hpart htrail)
    | @cons next b rest bs hnext hmore =>
      have hbefore : Part (gap ++ (part.toList ++ [])) a := blanks hgap hpart rfl
      rw [List.append_nil] at hbefore
      exact cons hbefore (ih (List.cons_ne_nil _ _))

theorem all_isBlank_append {gap gap' : List Char} (h : gap.all isBlank = true)
    (h' : gap'.all isBlank = true) : (gap ++ gap').all isBlank = true := by
  rw [List.all_append, h, h']
  rfl

theorem IsElement.blanks {gap cs trail : List Char} {d : Doc} (hgap : gap.all isBlank = true)
    (h : IsElement cs d) (htrail : trail.all isBlank = true) :
    IsElement (gap ++ (cs ++ trail)) d := by
  obtain ⟨blank, value, blank'⟩ := h
  have helement := IsElement.mk (all_isBlank_append hgap blank) value
    (all_isBlank_append blank' htrail)
  simpa only [List.append_assoc] using helement

theorem IsField.blanks {gap cs trail : List Char} {f : String × Doc}
    (hgap : gap.all isBlank = true) (h : IsField cs f) (htrail : trail.all isBlank = true) :
    IsField (gap ++ (cs ++ trail)) f := by
  obtain ⟨blank, text, blank', element⟩ := h
  have helement : IsElement ([] ++ (_ ++ trail)) _ := element.blanks rfl htrail
  have hfield := IsField.mk (all_isBlank_append hgap blank) text blank' helement
  simpa only [List.append_assoc, List.cons_append, List.nil_append] using hfield

theorem isElement_of_isValue {cs : List Char} {d : Doc} (h : IsValue cs d) : IsElement cs d := by
  have helement : IsElement ([] ++ (cs ++ [])) d := .mk rfl h rfl
  rw [List.append_nil] at helement
  exact helement

/-- A field with `gap` behind its colon. -/
theorem isField_quoted (key : String) (gap : List Char) (hgap : gap.all isBlank = true)
    {s : String} {d : Doc} (h : IsValue s.toList d) :
    IsField ((quoted key).toList ++ ':' :: (gap ++ s.toList)) (key, d) := by
  have helement : IsElement (gap ++ (s.toList ++ [])) d := (isElement_of_isValue h).blanks hgap rfl
  rw [List.append_nil] at helement
  have hfield : IsField ([] ++ (_ ++ ([] ++ ':' :: _))) _ :=
    .mk rfl (isText_quoted key) rfl helement
  simpa only [List.nil_append] using hfield

theorem isValue_list {gap trail : List Char} (hgap : gap.all isBlank = true)
    (htrail : trail.all isBlank = true) {parts : List String} {ds : List Doc}
    (h : List.Forall₂ (fun s d => IsValue s.toList d) parts ds) :
    IsValue ('[' :: (listed gap trail parts ++ [']'])) (.list ds) := by
  by_cases hne : parts = []
  · subst hne
    cases h
    have hnone : IsValue ('[' :: ([] ++ [']'])) (.list []) := .noItems rfl
    exact hnone
  · exact .list (row_listed .one .cons IsElement.blanks hgap htrail
      (h.imp fun _ _ => isElement_of_isValue) hne)

theorem isValue_record {gap trail : List Char} (hgap : gap.all isBlank = true)
    (htrail : trail.all isBlank = true) {parts : List String} {fs : List (String × Doc)}
    (h : List.Forall₂ (fun s f => IsField s.toList f) parts fs) :
    IsValue ('{' :: (listed gap trail parts ++ ['}'])) (.record fs) := by
  by_cases hne : parts = []
  · subst hne
    cases h
    have hnone : IsValue ('{' :: ([] ++ ['}'])) (.record []) := .noFields rfl
    exact hnone
  · exact .record (row_listed .one .cons IsField.blanks hgap htrail h hne)

/-! ### On one line -/

mutual

theorem isValue_compact : (d : Doc) → IsValue (compact d).toList d
  | .text s => .text (isText_quoted s)
  | .number n => .number n
  | .list ds => by
    have hchars : (compact (.list ds)).toList
        = '[' :: (listed [] [] (compactItems ds) ++ [']']) := by
      simp [compact, ← toList_intercalate_comma]
    rw [hchars]
    exact isValue_list rfl rfl (isValue_compactItems ds)
  | .record fs => by
    have hchars : (compact (.record fs)).toList
        = '{' :: (listed [] [] (compactFields fs) ++ ['}']) := by
      simp [compact, ← toList_intercalate_comma]
    rw [hchars]
    exact isValue_record rfl rfl (isField_compactFields fs)

theorem isValue_compactItems :
    (ds : List Doc) → List.Forall₂ (fun s d => IsValue s.toList d) (compactItems ds) ds
  | [] => .nil
  | d :: ds => .cons (isValue_compact d) (isValue_compactItems ds)

theorem isField_compactFields : (fs : List (String × Doc)) →
    List.Forall₂ (fun s f => IsField s.toList f) (compactFields fs) fs
  | [] => .nil
  | (key, d) :: fs => by
    refine .cons ?_ (isField_compactFields fs)
    have hfield := isField_quoted key [] rfl (isValue_compact d)
    simpa using hfield

end

/-! ### Over several lines -/

theorem all_isBlank_indentation (level : Nat) :
    ('\n' :: (indentation level).toList).all isBlank = true := by
  simp [indentation, isBlank]

theorem toList_spread (level : Nat) (opening closing : String) (parts : List String) :
    (spread level opening closing parts).toList
      = opening.toList ++ (listed ('\n' :: (indentation (level + 1)).toList)
        ('\n' :: (indentation level).toList) parts ++ closing.toList) := by
  rw [spread]
  split_ifs with hempty
  · rw [List.isEmpty_iff.1 hempty, String.toList_append]
    rfl
  · rw [← toList_intercalate_indented (indentation (level + 1)) (indentation level)
      (mt List.isEmpty_iff.2 hempty)]
    simp only [String.toList_append, List.append_assoc]

mutual

theorem isValue_pretty (level : Nat) : (d : Doc) → IsValue (pretty level d).toList d
  | .text s => .text (isText_quoted s)
  | .number n => .number n
  | .list ds => by
    rw [pretty, toList_spread]
    exact isValue_list (all_isBlank_indentation _) (all_isBlank_indentation _)
      (isValue_prettyItems (level + 1) ds)
  | .record fs => by
    rw [pretty, toList_spread]
    exact isValue_record (all_isBlank_indentation _) (all_isBlank_indentation _)
      (isField_prettyFields (level + 1) fs)

theorem isValue_prettyItems (level : Nat) :
    (ds : List Doc) → List.Forall₂ (fun s d => IsValue s.toList d) (prettyItems level ds) ds
  | [] => .nil
  | d :: ds => .cons (isValue_pretty level d) (isValue_prettyItems level ds)

theorem isField_prettyFields (level : Nat) : (fs : List (String × Doc)) →
    List.Forall₂ (fun s f => IsField s.toList f) (prettyFields level fs) fs
  | [] => .nil
  | (key, d) :: fs => by
    refine .cons ?_ (isField_prettyFields level fs)
    have hfield := isField_quoted key [' '] rfl (isValue_pretty level d)
    simpa using hfield

end

/-! ### Documents from their texts -/

/-- The text on one line stands for its document, and for no other. -/
theorem isElement_compact_iff {d e : Doc} : IsElement (compact d).toList e ↔ e = d := by
  have hcompact := isElement_of_isValue (isValue_compact d)
  constructor
  · intro h
    exact isElement_unique h hcompact
  · rintro rfl
    exact hcompact

/-- The text over several lines stands for its document, and for no other. -/
theorem isElement_pretty_iff {level : Nat} {d e : Doc} :
    IsElement (pretty level d).toList e ↔ e = d := by
  have hpretty := isElement_of_isValue (isValue_pretty level d)
  constructor
  · intro h
    exact isElement_unique h hpretty
  · rintro rfl
    exact hpretty

theorem compact_inj {d e : Doc} : compact d = compact e ↔ d = e := by
  constructor
  · intro h
    exact isElement_compact_iff.1 (h ▸ isElement_of_isValue (isValue_compact d))
  · rintro rfl
    rfl

/-! ### No controls on one line -/

/-- None of the characters is a control below U+0020. -/
def ControlFree (cs : List Char) : Prop :=
  ∀ c ∈ cs, 0x20 ≤ c.toNat

instance (cs : List Char) : Decidable (ControlFree cs) :=
  List.decidableBAll (fun c : Char => 0x20 ≤ c.toNat) cs

theorem ControlFree.append {cs ds : List Char} (hc : ControlFree cs) (hd : ControlFree ds) :
    ControlFree (cs ++ ds) :=
  List.forall_mem_append.2 ⟨hc, hd⟩

theorem controlFree_singleton {c : Char} (h : 0x20 ≤ c.toNat) : ControlFree [c] :=
  List.forall_mem_singleton.2 h

/-- A line feed is a control. -/
theorem ControlFree.notMem_feed {cs : List Char} (h : ControlFree cs) : '\n' ∉ cs := by
  intro hfeed
  have hle := h '\n' hfeed
  exact absurd hle (by decide)

theorem toNat_hexDigit (n : Nat) : 0x20 ≤ (hexDigit n).toNat := by
  have hall : ∀ m : Fin 16, 0x20 ≤ (Nat.digitChar m).toNat := by decide
  exact hall ⟨n % 16, Nat.mod_lt n (by omega)⟩

theorem controlFree_escaped (c : Char) : ControlFree (escaped c) := by
  unfold escaped
  split_ifs with hquote hslash h08 h0c hfeed hreturn htab hcontrol
  iterate 7 exact by decide
  · -- the only escape that depends on the character
    have hhead : ControlFree ['\\', 'u', '0', '0'] := by decide
    have hfirst := controlFree_singleton (toNat_hexDigit (c.toNat / 16))
    have hsecond := controlFree_singleton (toNat_hexDigit c.toNat)
    exact hhead.append (hfirst.append hsecond)
  · exact controlFree_singleton (Nat.le_of_not_lt hcontrol)

theorem controlFree_quoted (s : String) : ControlFree (quoted s).toList := by
  have hquote : ControlFree "\"".toList := by decide
  have hinner : ControlFree (s.toList.flatMap escaped) := by
    intro c hc
    obtain ⟨d, -, hd⟩ := List.mem_flatMap.1 hc
    exact controlFree_escaped d c hd
  rw [quoted, String.toList_append, String.toList_append]
  rw [← String.toList_ofList (l := s.toList.flatMap escaped)] at hinner
  exact (hquote.append hinner).append hquote

theorem controlFree_listed {parts : List String}
    (h : ∀ part ∈ parts, ControlFree part.toList) : ControlFree (listed [] [] parts) := by
  have hcomma : ControlFree [','] := controlFree_singleton (by decide)
  induction parts with
  | nil => exact nofun
  | cons part rest ih =>
    obtain ⟨hpart, hrest⟩ := List.forall_mem_cons.1 h
    cases rest with
    | nil => simpa [listed] using hpart
    | cons next rest =>
      have hmore := hcomma.append (ih hrest)
      simpa [listed] using hpart.append hmore

/-- Parts with commas between them, in brackets. -/
theorem controlFree_bracketed {opening closing : String} {parts : List String}
    (ho : ControlFree opening.toList) (hc : ControlFree closing.toList)
    (h : ∀ part ∈ parts, ControlFree part.toList) :
    ControlFree (opening ++ String.intercalate "," parts ++ closing).toList := by
  rw [String.toList_append, String.toList_append, toList_intercalate_comma]
  exact (ho.append (controlFree_listed h)).append hc

mutual

/-- The text on one line holds no control. -/
theorem controlFree_compact : (d : Doc) → ControlFree (compact d).toList
  | .text s => controlFree_quoted s
  | .number n => by
    intro c hc
    rw [compact, Nat.toList_repr] at hc
    have hdigit : c.isDigit = true := Nat.isDigit_of_mem_toDigits (by omega) (by omega) hc
    simp only [Char.isDigit, Bool.and_eq_true, decide_eq_true_eq, ge_iff_le,
      UInt32.le_iff_toNat_le] at hdigit
    exact Nat.le_trans (by decide) hdigit.1
  | .list ds =>
    controlFree_bracketed (controlFree_singleton (by decide)) (controlFree_singleton (by decide))
      (controlFree_compactItems ds)
  | .record fs =>
    controlFree_bracketed (controlFree_singleton (by decide)) (controlFree_singleton (by decide))
      (controlFree_compactFields fs)

theorem controlFree_compactItems :
    (ds : List Doc) → ∀ part ∈ compactItems ds, ControlFree part.toList
  | [] => nofun
  | d :: ds => List.forall_mem_cons.2 ⟨controlFree_compact d, controlFree_compactItems ds⟩

theorem controlFree_compactFields :
    (fs : List (String × Doc)) → ∀ part ∈ compactFields fs, ControlFree part.toList
  | [] => nofun
  | (key, d) :: fs => by
    refine List.forall_mem_cons.2 ⟨?_, controlFree_compactFields fs⟩
    have hcolon : ControlFree [':'] := controlFree_singleton (by decide)
    rw [String.toList_append, String.toList_append]
    exact ((controlFree_quoted key).append hcolon).append (controlFree_compact d)

end

end Sigil.Doc.Json
