import Sigil.Doc.Json.Read

/-! # A JSON text stands for one document

    The reader follows the grammar: whatever the grammar makes of some
    characters, the reader makes of them, from every place where a document
    may begin.  So no text stands for two documents
    (`Json.isElement_unique`). -/

namespace Sigil.Doc.Json

/-- No numeral goes on with the characters. -/
def EndsNumeral (cs : List Char) : Prop :=
  ∀ c ∈ cs.head?, c.isDigit = false

theorem endsNumeral_nil : EndsNumeral [] := nofun

theorem endsNumeral_cons {c : Char} (h : c.isDigit = false) (cs : List Char) :
    EndsNumeral (c :: cs) := by
  intro d hd
  obtain rfl := Option.some.inj hd
  exact h

theorem isDigit_of_isBlank {c : Char} (h : isBlank c = true) : c.isDigit = false := by
  simp only [isBlank, Bool.or_eq_true, beq_iff_eq] at h
  rcases h with ((rfl | rfl) | rfl) | rfl <;> rfl

theorem EndsNumeral.blanks {gap cs : List Char} (hgap : gap.all isBlank = true)
    (h : EndsNumeral cs) : EndsNumeral (gap ++ cs) := by
  cases gap with
  | nil => exact h
  | cons c gap =>
    rw [List.all_cons, Bool.and_eq_true] at hgap
    exact endsNumeral_cons (isDigit_of_isBlank hgap.1) _

namespace Reader

theorem result?_cons (r : Reader) (c : Char) (cs : List Char) :
    r.result? (c :: cs) = (r.step c).bind fun r' => r'.result? cs := rfl

theorem result?_of_step {r r' : Reader} {c : Char} (h : r.step c = some r') (cs : List Char) :
    r.result? (c :: cs) = r'.result? cs := by
  rw [result?_cons, h, Option.bind_some]

/-! ### Blanks -/

/-- Are blanks passed over at the place? -/
def skips : Place → Bool
  | .quoted .. | .numeral _ => false
  | _ => true

theorem step_blank {frames : List Frame} {place : Place} (h : skips place = true) {c : Char}
    (hc : isBlank c = true) : step ⟨frames, place⟩ c = some ⟨frames, place⟩ := by
  cases place with
  | quoted => cases h
  | numeral => cases h
  | behind d =>
    show after frames d c = _
    unfold after
    rw [if_pos hc]
  | _ => simp only [step, hc, if_true]

theorem result?_blanks {frames : List Frame} {place : Place} (h : skips place = true)
    {gap : List Char} (hgap : gap.all isBlank = true) (cs : List Char) :
    result? ⟨frames, place⟩ (gap ++ cs) = result? ⟨frames, place⟩ cs := by
  induction gap with
  | nil => rfl
  | cons c gap ih =>
    rw [List.all_cons, Bool.and_eq_true] at hgap
    rw [List.cons_append, result?_of_step (step_blank h hgap.1)]
    exact ih hgap.2

/-! ### Texts -/

variable {frames frames' : List Frame} {role : Role}

theorem result?_denote {cs ds : List Char} (h : Denote cs ds) (done rest : List Char) :
    result? ⟨frames, .quoted role done .none⟩ (cs ++ rest)
      = result? ⟨frames, .quoted role (ds.reverse ++ done) .none⟩ rest := by
  induction h generalizing done with
  | nil => rfl
  | @plain c cs ds unescaped _ ih =>
    have hne : c ≠ '"' ∧ c ≠ '\\' := by
      simp only [isUnescaped, Bool.and_eq_true, bne_iff_ne] at unescaped
      exact ⟨unescaped.1.2, unescaped.2⟩
    have hstep : step ⟨frames, .quoted role done .none⟩ c
        = some ⟨frames, .quoted role (c :: done) .none⟩ := by
      simp only [step, quotedStep, hne.1, hne.2, unescaped, if_false, if_true, Option.map_some]
    rw [List.cons_append, result?_of_step hstep, ih, List.reverse_cons, List.append_assoc]
    rfl
  | @sign sign c cs ds meaning _ ih =>
    have hne : sign ≠ 'u' := by
      rintro rfl
      cases meaning
    have hopen : step ⟨frames, .quoted role done .none⟩ '\\'
        = some ⟨frames, .quoted role done .opened⟩ := rfl
    have hclose : step ⟨frames, .quoted role done .opened⟩ sign
        = some ⟨frames, .quoted role (c :: done) .none⟩ := by
      simp only [step, quotedStep, hne, meaning, if_false, Option.map_some]
    rw [List.cons_append, List.cons_append, result?_of_step hopen, result?_of_step hclose, ih,
      List.reverse_cons, List.append_assoc]
    rfl
  | @code digits c cs ds four meaning _ ih =>
    obtain ⟨d₁, d₂, d₃, d₄, rfl⟩ : ∃ d₁ d₂ d₃ d₄, digits = [d₁, d₂, d₃, d₄] := by
      match digits, four with
      | [d₁, d₂, d₃, d₄], _ => exact ⟨d₁, d₂, d₃, d₄, rfl⟩
    have hopen : step ⟨frames, .quoted role done .none⟩ '\\'
        = some ⟨frames, .quoted role done .opened⟩ := rfl
    have hcode : step ⟨frames, .quoted role done .opened⟩ 'u'
        = some ⟨frames, .quoted role done (.code [])⟩ := rfl
    have hclose : step ⟨frames, .quoted role done (.code [d₁, d₂, d₃])⟩ d₄
        = some ⟨frames, .quoted role (c :: done) .none⟩ := by
      show Option.map _ ((ofCode? [d₁, d₂, d₃, d₄]).map _) = _
      rw [meaning]
      rfl
    calc _ = result? ⟨frames, .quoted role done (.code [d₁, d₂, d₃])⟩ (d₄ :: (cs ++ rest)) := rfl
      _ = result? ⟨frames, .quoted role (c :: done) .none⟩ (cs ++ rest) :=
        result?_of_step hclose _
      _ = _ := by
        rw [ih, List.reverse_cons, List.append_assoc]
        rfl

/-- A text is read at once from every place that takes its opening quote. -/
theorem result?_text {r : Reader} (hopen : r.step '"' = some ⟨frames, .quoted role [] .none⟩)
    {cs : List Char} {s : String} (h : IsText cs s) (rest : List Char) :
    r.result? (cs ++ rest) = result? ⟨frames, role.close s⟩ rest := by
  obtain ⟨inner⟩ := h
  rw [List.cons_append, List.append_assoc, result?_of_step hopen, result?_denote inner,
    List.append_nil]
  have hclose : step ⟨frames, .quoted role s.toList.reverse .none⟩ '"'
      = some ⟨frames, role.close s⟩ := by
    show some (Reader.mk frames (role.close (String.ofList s.toList.reverse.reverse))) = _
    rw [List.reverse_reverse, String.ofList_toList]
  exact result?_of_step hclose rest

/-! ### Numbers -/

theorem begin?_digit {c : Char} (h : c.isDigit = true) :
    begin? c = some (.numeral (c.toNat - '0'.toNat)) := by
  have hne : c ≠ '"' ∧ c ≠ '[' ∧ c ≠ '{' := by
    refine ⟨?_, ?_, ?_⟩ <;> rintro rfl <;> cases h
  simp only [begin?, hne.1, hne.2.1, hne.2.2, h, if_false, if_true]

theorem step_numeral {n : Nat} (hn : n ≠ 0) {m : Nat} (hm : m < 10) :
    step ⟨frames, .numeral n⟩ m.digitChar = some ⟨frames, .numeral (10 * n + m)⟩ := by
  have hdigit : m.digitChar.isDigit = true := by simpa using hm
  have hvalue : m.digitChar.toNat - '0'.toNat = m := Nat.toNat_digitChar_sub_48_of_lt_ten hm
  simp only [step, hdigit, hn, hvalue, if_true, if_false]

theorem result?_digits (n : Nat) (rest : List Char) :
    result? ⟨frames, .element⟩ (Nat.toDigits 10 n ++ rest)
      = result? ⟨frames, .numeral n⟩ rest := by
  induction n using Nat.strongRecOn generalizing rest with
  | ind n ih =>
    rcases Nat.lt_or_ge n 10 with hlt | hge
    · have hdigit : n.digitChar.isDigit = true := by simpa using hlt
      have hblank : isBlank n.digitChar = false := by
        rw [← Bool.not_eq_true]
        intro hblank
        rw [isDigit_of_isBlank hblank] at hdigit
        cases hdigit
      have hvalue : n.digitChar.toNat - '0'.toNat = n :=
        Nat.toNat_digitChar_sub_48_of_lt_ten hlt
      have hstep : step ⟨frames, .element⟩ n.digitChar = some ⟨frames, .numeral n⟩ := by
        simp only [step, hblank, begin?_digit hdigit, hvalue, Bool.false_eq_true, if_false,
          Option.map_some]
      rw [Nat.toDigits_of_lt_base hlt]
      exact result?_of_step hstep rest
    · -- the last digit goes on with the numeral of the others
      have hlt : n / 10 < n := by omega
      rw [Nat.toDigits_of_base_le (by omega) hge, List.append_assoc, ih _ hlt]
      have hne : n / 10 ≠ 0 := by omega
      have hstep : step ⟨frames, .numeral (n / 10)⟩ (n % 10).digitChar
          = some ⟨frames, .numeral (10 * (n / 10) + n % 10)⟩ :=
        step_numeral hne (Nat.mod_lt n (by omega))
      rw [Nat.div_add_mod] at hstep
      exact result?_of_step hstep rest

theorem result?_numeral (n : Nat) {rest : List Char} (h : EndsNumeral rest) :
    result? ⟨frames, .numeral n⟩ rest = result? ⟨frames, .behind (.number n)⟩ rest := by
  cases rest with
  | nil => cases frames <;> rfl
  | cons c rest =>
    have hc : c.isDigit = false := h c rfl
    have hstep : step ⟨frames, .numeral n⟩ c = step ⟨frames, .behind (.number n)⟩ c := by
      simp only [step, hc, Bool.false_eq_true, if_false]
    rw [result?_cons, result?_cons, hstep]

/-! ### Documents -/

/-- A value begins with a character that is no blank and does not end a list. -/
theorem exists_cons_of_isValue {cs : List Char} {d : Doc} (h : IsValue cs d) :
    ∃ c cs', cs = c :: cs' ∧ isBlank c = false ∧ c ≠ ']' := by
  cases h with
  | text text =>
    obtain ⟨inner⟩ := text
    exact ⟨_, _, rfl, rfl, nofun⟩
  | number n =>
    rw [Nat.repr_eq_ofList_toDigits, String.toList_ofList]
    cases hdigits : Nat.toDigits 10 n with
    | nil => exact absurd hdigits Nat.toDigits_ne_nil
    | cons c cs' =>
      have hmem : c ∈ Nat.toDigits 10 n := by
        rw [hdigits]
        exact List.mem_cons_self
      have hdigit : c.isDigit = true :=
        Nat.isDigit_of_mem_toDigits (by decide) (by decide) hmem
      refine ⟨c, cs', rfl, ?_, ?_⟩
      · rw [← Bool.not_eq_true]
        intro hblank
        rw [isDigit_of_isBlank hblank] at hdigit
        cases hdigit
      · rintro rfl
        cases hdigit
  | _ => exact ⟨_, _, rfl, rfl, nofun⟩

/-- Behind the opening of a list the first item is read as the others are. -/
theorem result?_opened {cs : List Char} {d : Doc} (h : IsElement cs d) (rest : List Char) :
    result? ⟨frames, .opened⟩ (cs ++ rest)
      = result? ⟨.list [] :: frames, .element⟩ (cs ++ rest) := by
  obtain ⟨blank, value, -⟩ := h
  obtain ⟨c, cs', rfl, hblank, hne⟩ := exists_cons_of_isValue value
  rw [List.append_assoc, result?_blanks rfl blank, result?_blanks rfl blank, List.cons_append,
    List.cons_append, result?_cons, result?_cons]
  have hopened : step ⟨frames, .opened⟩ c
      = (begin? c).map fun place => ⟨.list [] :: frames, place⟩ := by
    simp only [step, hblank, hne, Bool.false_eq_true, if_false]
  have helement : step ⟨.list [] :: frames, .element⟩ c
      = (begin? c).map fun place => ⟨.list [] :: frames, place⟩ := by
    simp only [step, hblank, Bool.false_eq_true, if_false]
  rw [hopened, helement]

theorem result?_opened_items {cs : List Char} {ds : List Doc} (h : AreItems cs ds)
    (rest : List Char) :
    result? ⟨frames, .opened⟩ (cs ++ rest)
      = result? ⟨.list [] :: frames, .element⟩ (cs ++ rest) := by
  cases h with
  | one element => exact result?_opened element rest
  | cons element more =>
    rw [List.append_assoc]
    exact result?_opened element _

end Reader

/-! ### The reader follows the grammar

    What each part of the grammar does to the reader, and below, form by
    form, that it does. -/

open Reader

/-- Where a document has to begin, the characters are read as `d`. -/
def Reads (cs : List Char) (d : Doc) : Prop :=
  ∀ frames rest, EndsNumeral rest →
    result? ⟨frames, .element⟩ (cs ++ rest) = result? ⟨frames, .behind d⟩ rest

/-- The characters complete a list that is open with `ds`. -/
def ReadsItems (cs : List Char) (ds : List Doc) : Prop :=
  ∀ frames items rest,
    result? ⟨.list items :: frames, .element⟩ (cs ++ ']' :: rest)
      = result? ⟨frames, .behind (.list (items.reverse ++ ds))⟩ rest

/-- Where a field has to begin, the characters are read as `f`. -/
def ReadsField (cs : List Char) (f : String × Doc) : Prop :=
  ∀ frames fields closable rest, EndsNumeral rest →
    result? ⟨frames, .field fields closable⟩ (cs ++ rest)
      = result? ⟨.record fields f.1 :: frames, .behind f.2⟩ rest

/-- The characters complete a record that is open with `fs`. -/
def ReadsFields (cs : List Char) (fs : List (String × Doc)) : Prop :=
  ∀ frames fields closable rest,
    result? ⟨frames, .field fields closable⟩ (cs ++ '}' :: rest)
      = result? ⟨frames, .behind (.record (fields.reverse ++ fs))⟩ rest

section Forms

variable {cs cs' gap before behind : List Char} {d : Doc} {ds : List Doc}
  {f : String × Doc} {fs : List (String × Doc)}

theorem reads_text {s : String} (h : IsText cs s) : Reads cs (.text s) := by
  intro frames rest _
  have hopen : step ⟨frames, .element⟩ '"' = some ⟨frames, .quoted .value [] .none⟩ := rfl
  exact result?_text hopen h rest

theorem reads_number (n : Nat) : Reads n.repr.toList (.number n) := by
  intro frames rest hrest
  rw [Nat.repr_eq_ofList_toDigits, String.toList_ofList, result?_digits, result?_numeral n hrest]

theorem reads_noItems (hgap : gap.all isBlank = true) :
    Reads ('[' :: (gap ++ [']'])) (.list []) := by
  intro frames rest _
  calc _ = result? ⟨frames, .opened⟩ (gap ++ [']'] ++ rest) := rfl
    _ = result? ⟨frames, .opened⟩ (']' :: rest) := by
      rw [List.append_assoc]
      exact result?_blanks rfl hgap _
    _ = _ := rfl

theorem reads_list (h : AreItems cs ds) (ih : ReadsItems cs ds) :
    Reads ('[' :: (cs ++ [']'])) (.list ds) := by
  intro frames rest _
  calc _ = result? ⟨frames, .opened⟩ (cs ++ [']'] ++ rest) := rfl
    _ = result? ⟨frames, .opened⟩ (cs ++ ']' :: rest) := by
      rw [List.append_assoc]
      rfl
    _ = result? ⟨.list [] :: frames, .element⟩ (cs ++ ']' :: rest) := result?_opened_items h _
    _ = _ := ih frames [] rest

theorem reads_noFields (hgap : gap.all isBlank = true) :
    Reads ('{' :: (gap ++ ['}'])) (.record []) := by
  intro frames rest _
  calc _ = result? ⟨frames, .field [] true⟩ (gap ++ ['}'] ++ rest) := rfl
    _ = result? ⟨frames, .field [] true⟩ ('}' :: rest) := by
      rw [List.append_assoc]
      exact result?_blanks rfl hgap _
    _ = _ := rfl

theorem reads_record (ih : ReadsFields cs fs) : Reads ('{' :: (cs ++ ['}'])) (.record fs) := by
  intro frames rest _
  calc _ = result? ⟨frames, .field [] true⟩ (cs ++ ['}'] ++ rest) := rfl
    _ = result? ⟨frames, .field [] true⟩ (cs ++ '}' :: rest) := by
      rw [List.append_assoc]
      rfl
    _ = _ := ih frames [] true rest

theorem reads_element (hbefore : before.all isBlank = true) (ih : Reads cs d)
    (hbehind : behind.all isBlank = true) : Reads (before ++ (cs ++ behind)) d := by
  intro frames rest hrest
  rw [List.append_assoc, result?_blanks rfl hbefore, List.append_assoc,
    ih frames _ (hrest.blanks hbehind), result?_blanks rfl hbehind]

theorem readsItems_one (ih : Reads cs d) : ReadsItems cs [d] := by
  intro frames items rest
  have hstep : step ⟨.list items :: frames, .behind d⟩ ']'
      = some ⟨frames, .behind (.list (d :: items).reverse)⟩ := rfl
  rw [ih _ _ (endsNumeral_cons rfl _), result?_of_step hstep, List.reverse_cons]

theorem readsItems_cons (ih : Reads cs d) (ih' : ReadsItems cs' ds) :
    ReadsItems (cs ++ ',' :: cs') (d :: ds) := by
  intro frames items rest
  have hstep : step ⟨.list items :: frames, .behind d⟩ ','
      = some ⟨.list (d :: items) :: frames, .element⟩ := rfl
  rw [List.append_assoc, List.cons_append, ih _ _ (endsNumeral_cons rfl _),
    result?_of_step hstep, ih', List.reverse_cons, List.append_assoc]
  rfl

theorem readsField {name : List Char} {key : String} (hbefore : before.all isBlank = true)
    (h : IsText name key) (hbehind : behind.all isBlank = true) (ih : Reads cs d) :
    ReadsField (before ++ (name ++ (behind ++ ':' :: cs))) (key, d) := by
  intro frames fields closable rest hrest
  have hopen : step ⟨frames, .field fields closable⟩ '"'
      = some ⟨frames, .quoted (.key fields) [] .none⟩ := rfl
  have hcolon : step ⟨frames, .named fields key⟩ ':'
      = some ⟨.record fields key :: frames, .element⟩ := rfl
  calc _ = result? ⟨frames, .field fields closable⟩
          (before ++ (name ++ (behind ++ ':' :: (cs ++ rest)))) := by simp
    _ = result? ⟨frames, .named fields key⟩ (behind ++ ':' :: (cs ++ rest)) := by
      rw [result?_blanks rfl hbefore]
      exact result?_text hopen h _
    _ = result? ⟨.record fields key :: frames, .element⟩ (cs ++ rest) := by
      rw [result?_blanks rfl hbehind, result?_of_step hcolon]
    _ = _ := ih _ _ hrest

theorem readsFields_one (ih : ReadsField cs f) : ReadsFields cs [f] := by
  intro frames fields closable rest
  have hstep : step ⟨.record fields f.1 :: frames, .behind f.2⟩ '}'
      = some ⟨frames, .behind (.record (f :: fields).reverse)⟩ := rfl
  rw [ih _ _ _ _ (endsNumeral_cons rfl _), result?_of_step hstep, List.reverse_cons]

theorem readsFields_cons (ih : ReadsField cs f) (ih' : ReadsFields cs' fs) :
    ReadsFields (cs ++ ',' :: cs') (f :: fs) := by
  intro frames fields closable rest
  have hstep : step ⟨.record fields f.1 :: frames, .behind f.2⟩ ','
      = some ⟨frames, .field (f :: fields) false⟩ := rfl
  rw [List.append_assoc, List.cons_append, ih _ _ _ _ (endsNumeral_cons rfl _),
    result?_of_step hstep, ih', List.reverse_cons, List.append_assoc]
  rfl

/-- By induction on the grammar, one lemma above for each of its forms. -/
theorem reads_of_isElement (h : IsElement cs d) : Reads cs d :=
  @IsElement.rec (fun cs d _ => Reads cs d) (fun cs d _ => Reads cs d)
    (fun cs ds _ => ReadsItems cs ds) (fun cs f _ => ReadsField cs f)
    (fun cs fs _ => ReadsFields cs fs)
    (fun text => reads_text text) reads_number (fun blank => reads_noItems blank)
    (fun items ih => reads_list items ih) (fun blank => reads_noFields blank)
    (fun _ ih => reads_record ih)
    (fun blank _ blank' ih => reads_element blank ih blank')
    (fun _ ih => readsItems_one ih) (fun _ _ ih ih' => readsItems_cons ih ih')
    (fun blank text blank' _ ih => readsField blank text blank' ih)
    (fun _ ih => readsFields_one ih) (fun _ _ ih ih' => readsFields_cons ih ih')
    cs d h

end Forms

/-- What the grammar makes of a text, the reader makes of it. -/
theorem read?_of_isElement {cs : List Char} {d : Doc} (h : IsElement cs d) :
    read? cs = some d := by
  have hread := reads_of_isElement h [] [] endsNumeral_nil
  rw [List.append_nil] at hread
  exact hread

/-- A JSON text stands for one document. -/
theorem isElement_unique {cs : List Char} {d e : Doc} (hd : IsElement cs d)
    (he : IsElement cs e) : d = e := by
  have hread := read?_of_isElement hd
  rw [read?_of_isElement he] at hread
  exact (Option.some.inj hread).symm

end Sigil.Doc.Json
