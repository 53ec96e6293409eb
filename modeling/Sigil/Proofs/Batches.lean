import Sigil.Batch
import Sigil.Proofs.Language
import Sigil.Proofs.Trimming

/-! # Batches line by line

    A batch is what its lines are one by one (`Batch.process_line_by_line`).
    Every line that is not passed over has one record, with the number of
    the line, and the record tells what the line is when it is read by
    itself, with the blanks around it; a line that is passed over is no
    expression.  So the records of a text are those of its first lines and
    then those of the others, with their numbers raised.

    The lines are meant as they stand between the line feeds.  A batch is cut
    into lines without their carriage returns, and without an empty stretch
    behind the last line feed; what is trimmed and passed over makes up for
    that (`Batch.entries_eq`). -/

namespace Sigil

/-! ### What is passed over -/

namespace Text

theorem head?_dropEndBlanks {cs : List Char} (hcs : ∀ c ∈ cs.head?, isBlank c = false) :
    (dropEndBlanks cs).head? = cs.head? := by
  obtain ⟨blanks, hblanks, happ⟩ := dropEndBlanks_append cs
  cases hdrop : dropEndBlanks cs with
  | cons c rest =>
    rw [happ, hdrop]
    rfl
  | nil =>
    rw [hdrop, List.nil_append] at happ
    cases cs with
    | nil => rfl
    | cons c cs =>
      have hc := hcs c rfl
      rw [← happ, List.all_cons, hc] at hblanks
      cases hblanks

/-- The first character of a trimmed text is the first that is no blank. -/
theorem head?_dropBlanks (cs : List Char) :
    (dropBlanks cs).head? = (cs.dropWhile isBlank).head? :=
  head?_dropEndBlanks (head?_dropWhile cs)

/-- One more blank at the end is trimmed with the others. -/
theorem dropBlanks_concat (cs : List Char) {c : Char} (hc : isBlank c = true) :
    dropBlanks (cs ++ [c]) = dropBlanks cs := by
  have hend : ∀ ds : List Char, dropEndBlanks (ds ++ [c]) = dropEndBlanks ds := by
    intro ds
    rw [dropEndBlanks, List.reverse_concat, List.dropWhile_cons_of_pos hc, dropEndBlanks]
  rw [dropBlanks, List.dropWhile_append, dropBlanks]
  split
  · next hblank =>
    rw [List.isEmpty_iff.1 hblank, List.dropWhile_cons_of_pos hc, List.dropWhile_nil]
  · exact hend _

/-- A carriage return at the end of a line is trimmed with the blanks there. -/
theorem dropBlanks_dropReturn (line : List Char) :
    dropBlanks (dropReturn line) = dropBlanks line := by
  unfold dropReturn
  split
  · next hreturn =>
    obtain ⟨init, rfl⟩ := List.getLast?_eq_some_iff.1 hreturn
    rw [List.dropLast_concat, dropBlanks_concat init (by decide)]
  · rfl

end Text

namespace Batch

/-- The line holds nothing but blanks, or begins with `#` after blanks. -/
def PassedOver (line : String) : Prop :=
  ∃ gap : List Char, gap.all Text.isBlank = true ∧
    (line.toList = gap ∨ ∃ rest, line.toList = gap ++ '#' :: rest)

theorem isSkipped_trim_iff {line : String} :
    isSkipped (Text.trim line) = true ↔ PassedOver line := by
  rw [isSkipped, Text.trim, String.toList_ofList, Text.head?_dropBlanks]
  constructor
  · intro h
    have happ := List.takeWhile_append_dropWhile (p := Text.isBlank) (l := line.toList)
    refine ⟨line.toList.takeWhile Text.isBlank, List.all_takeWhile, ?_⟩
    cases hrest : line.toList.dropWhile Text.isBlank with
    | nil =>
      rw [hrest, List.append_nil] at happ
      exact .inl happ.symm
    | cons c rest =>
      rw [hrest] at h happ
      obtain rfl : c = '#' := by simpa using h
      exact .inr ⟨rest, happ.symm⟩
  · rintro ⟨gap, hgap, hline | ⟨rest, hline⟩⟩
    · have hnil : (gap ++ []).dropWhile Text.isBlank = [] :=
        Text.dropWhile_append_of_stop hgap (by simp)
      rw [List.append_nil] at hnil
      rw [hline, hnil]
      rfl
    · rw [hline, Text.dropWhile_append_of_stop hgap]
      · rfl
      · intro c hc
        obtain rfl : '#' = c := by simpa using hc
        decide

/-- What is passed over is no expression. -/
theorem PassedOver.parse_ne_ok {line : String} (h : PassedOver line) (x : Expr) :
    Expr.parse line ≠ .ok x := by
  intro hparse
  obtain ⟨tokens, htokens, -, hsentence⟩ := Expr.parse_eq_ok_iff.1 hparse
  have hlexemes : Token.lexemesFrom 0 line.toList = .ok (tokens.map (·.lexeme)) := by
    rw [Token.lexemesFrom, show Token.readFrom 0 line.toList = .ok tokens from htokens]
    rfl
  obtain ⟨gap, hgap, hline | ⟨rest, hline⟩⟩ := h
  · have hempty := Token.lexemesFrom_blanks_append hgap 0 []
    rw [List.append_nil, ← hline, hlexemes, Token.lexemesFrom_nil] at hempty
    rw [Except.ok.inj hempty] at hsentence
    have hstart := Reading.advance_start_iff.2 hsentence
    cases hstart
  · have hstuck : Lexeme.scan ('#' :: rest) = none := rfl
    rw [hline, Token.lexemesFrom_blanks_append hgap, Token.lexemesFrom_stuck rfl hstuck]
      at hlexemes
    cases hlexemes

/-! ### Entries -/

/-- Lines that are the same without the blanks around them have the same entries. -/
theorem entriesFrom_congr {lines lines' : List String}
    (h : lines.map Text.trim = lines'.map Text.trim) (n : Nat) :
    entriesFrom n lines = entriesFrom n lines' := by
  induction lines generalizing lines' n with
  | nil =>
    rw [List.map_nil] at h
    rw [List.map_eq_nil_iff.1 h.symm]
  | cons line lines ih =>
    cases lines' with
    | nil => cases h
    | cons line' lines' =>
      obtain ⟨hline, hrest⟩ := List.cons.inj h
      rw [entriesFrom, entriesFrom, hline, ih hrest]

theorem entriesFrom_append (n : Nat) (lines more : List String) :
    entriesFrom n (lines ++ more)
      = entriesFrom n lines ++ entriesFrom (n + lines.length) more := by
  induction lines generalizing n with
  | nil => rfl
  | cons line lines ih =>
    have hnumber : n + (line :: lines).length = n + 1 + lines.length := by
      rw [List.length_cons]
      omega
    rw [List.cons_append, entriesFrom, entriesFrom, ih, hnumber]
    split <;> rfl

/-- The entries of a batch are those of the stretches between its line feeds. -/
theorem entries_eq (text : String) : entries text = entriesFrom 1 (Text.lines text) := by
  have hne := Text.lineSplit_ne_nil text.toList
  have hlast := List.getLast?_eq_some_getLast hne
  have hsplit := List.dropLast_append_getLast hne
  rw [entries, Text.terminatedLines, hlast, Text.lines]
  generalize (Text.lineSplit text.toList).getLast hne = last at hsplit
  generalize (Text.lineSplit text.toList).dropLast = init at hsplit
  -- a carriage return goes with the blanks around the line
  have htrim : ((init.map Text.dropReturn).map String.ofList).map Text.trim
      = (init.map String.ofList).map Text.trim := by
    rw [List.map_map, List.map_map, List.map_map]
    refine List.map_congr_left fun line _ => ?_
    show Text.trim (String.ofList (Text.dropReturn line)) = Text.trim (String.ofList line)
    rw [Text.trim, String.toList_ofList, Text.dropBlanks_dropReturn, Text.trim,
      String.toList_ofList]
  rw [← hsplit, List.map_append, List.map_append, entriesFrom_append, entriesFrom_append,
    entriesFrom_congr htrim, List.length_map, List.length_map, List.length_map]
  -- and an empty stretch at the end is passed over
  cases last with
  | nil => rfl
  | cons c cs => rfl

/-- The entry as it is when `n` lines come before the text. -/
def Entry.below (n : Nat) (e : Entry) : Entry :=
  { e with line := e.line + n }

theorem entriesFrom_add (m n : Nat) (lines : List String) :
    entriesFrom (m + n) lines = (entriesFrom m lines).map (Entry.below n) := by
  induction lines generalizing m with
  | nil => rfl
  | cons line lines ih =>
    have hnumber : m + n + 1 = m + 1 + n := by omega
    rw [entriesFrom, entriesFrom, hnumber, ih]
    split <;> rfl

theorem mem_entriesFrom {e : Entry} {n : Nat} {lines : List String} :
    e ∈ entriesFrom n lines ↔ ∃ i line, lines[i]? = some line ∧ ¬ PassedOver line ∧
      e = ⟨n + i, Text.trim line⟩ := by
  induction lines generalizing n with
  | nil => simp [entriesFrom]
  | cons line lines ih =>
    have hcases : (∃ i line', (line :: lines)[i]? = some line' ∧ ¬ PassedOver line' ∧
          e = ⟨n + i, Text.trim line'⟩)
        ↔ ¬ PassedOver line ∧ e = ⟨n, Text.trim line⟩ ∨ e ∈ entriesFrom (n + 1) lines := by
      rw [ih]
      constructor
      · rintro ⟨i, line', hline, hpassed, rfl⟩
        cases i with
        | zero =>
          cases hline
          exact .inl ⟨hpassed, rfl⟩
        | succ i => exact .inr ⟨i, line', hline, hpassed, by rw [Nat.add_right_comm]; rfl⟩
      · rintro (⟨hpassed, rfl⟩ | ⟨i, line', hline, hpassed, rfl⟩)
        · exact ⟨0, line, rfl, hpassed, rfl⟩
        · exact ⟨i + 1, line', hline, hpassed, by rw [Nat.add_right_comm]; rfl⟩
    rw [hcases, entriesFrom]
    by_cases hpassed : PassedOver line
    · simp [isSkipped_trim_iff.2 hpassed, hpassed]
    · simp [mt isSkipped_trim_iff.1 hpassed, hpassed]

theorem entriesFrom_sorted (n : Nat) (lines : List String) :
    (entriesFrom n lines).Pairwise (·.line < ·.line) := by
  induction lines generalizing n with
  | nil => exact .nil
  | cons line lines ih =>
    rw [entriesFrom]
    split
    · exact ih (n + 1)
    · refine .cons ?_ (ih (n + 1))
      intro e he
      obtain ⟨i, line', -, -, rfl⟩ := mem_entriesFrom.1 he
      show n < n + 1 + i
      omega

/-! ### Records -/

namespace Record

/-- The record as it is when `n` lines come before the text. -/
def below (n : Nat) (r : Record) : Record :=
  { r with entry := r.entry.below n }

/-- The record tells what `line` is when it is read by itself; `number` is the number
of the line. -/
structure Tells (r : Record) (number : Nat) (line : String) : Prop where
  entry : r.entry = ⟨number, Text.trim line⟩
  success : ∀ x, Expr.parse line = .ok x →
    r.outcome = .ok x ∧
    r.toDoc = .record
      [("line", .number number), ("expression", .text (Text.trim line)),
        ("status", .text "success"), ("parsed_result", x.toDoc),
        ("executed_result", .text x.trace)]
  failure : ∀ refusal, Expr.parse line = .error refusal →
    (∃ span, r.outcome = .error ⟨refusal.fault, span⟩) ∧
    r.toDoc = .record
      [("line", .number number), ("expression", .text (Text.trim line)),
        ("status", .text "error"),
        ("error_kind", .text (refusal.diagnose (.inline line)).kind.name),
        ("message", .text (refusal.diagnose (.inline line)).sentence)]

end Record

/-- An entry is read as its line is: the blanks around it change neither the
expression nor the fault. -/
theorem Entry.process_tells (number : Nat) (line : String) :
    (Entry.process ⟨number, Text.trim line⟩).Tells number line := by
  refine ⟨rfl, ?_, ?_⟩
  · intro x hx
    have htrim := Expr.parse_trim_of_ok hx
    refine ⟨htrim, ?_⟩
    rw [Record.toDoc, Entry.process, htrim]
    rfl
  · intro refusal hrefusal
    obtain ⟨span, htrim⟩ := Expr.parse_trim_of_error hrefusal
    refine ⟨⟨span, htrim⟩, ?_⟩
    rw [Record.toDoc, Entry.process, htrim]
    rfl

theorem mem_process {text : String} {r : Record} :
    r ∈ process text ↔ ∃ i line, (Text.lines text)[i]? = some line ∧ ¬ PassedOver line ∧
      r = Entry.process ⟨i + 1, Text.trim line⟩ := by
  rw [process, entries_eq, List.mem_map]
  constructor
  · rintro ⟨e, he, rfl⟩
    obtain ⟨i, line, hline, hpassed, rfl⟩ := mem_entriesFrom.1 he
    exact ⟨i, line, hline, hpassed, by rw [Nat.add_comm]⟩
  · rintro ⟨i, line, hline, hpassed, rfl⟩
    exact ⟨⟨i + 1, Text.trim line⟩,
      mem_entriesFrom.2 ⟨i, line, hline, hpassed, by rw [Nat.add_comm]⟩, rfl⟩

theorem process_sorted (text : String) :
    (process text).Pairwise (·.entry.line < ·.entry.line) :=
  List.pairwise_map.2 (entriesFrom_sorted 1 (Text.terminatedLines text))

theorem process_append (text more : String) :
    process (text ++ "\n" ++ more)
      = process text ++ (process more).map (Record.below (text.toList.count '\n' + 1)) := by
  rw [process, process, process, entries_eq, entries_eq, entries_eq, Text.lines_append,
    entriesFrom_append, Text.length_lines, entriesFrom_add, List.map_append, List.map_map,
    List.map_map]
  rfl

/-! ### Line by line -/

/-- The lines of a text are the stretches between its line feeds, and a batch is what
they are one by one: with rising numbers, one record for each line that is not passed
over and none for another, and no expression passed over.  What stands on a line has
no part in the records of the others. -/
theorem process_line_by_line (text : String) :
    "\n".intercalate (Text.lines text) = text ∧
    (∀ line ∈ Text.lines text, '\n' ∉ line.toList) ∧
    (process text).Pairwise (·.entry.line < ·.entry.line) ∧
    (∀ r ∈ process text, ∃ i line, (Text.lines text)[i]? = some line ∧
      ¬ PassedOver line ∧ r.Tells (i + 1) line) ∧
    (∀ i line, (Text.lines text)[i]? = some line → ¬ PassedOver line →
      ∃ r ∈ process text, r.Tells (i + 1) line ∧
        ∀ r' ∈ process text, r'.entry.line = i + 1 → r' = r) ∧
    (∀ line, PassedOver line → ∀ x, Expr.parse line ≠ .ok x) ∧
    ∀ more, process (text ++ "\n" ++ more)
      = process text ++ (process more).map (Record.below (text.toList.count '\n' + 1)) := by
  refine ⟨Text.intercalate_lines text, fun line hline => Text.not_mem_of_mem_lines hline,
    process_sorted text, ?_, ?_, fun line hline => hline.parse_ne_ok, process_append text⟩
  · intro r hr
    obtain ⟨i, line, hline, hpassed, rfl⟩ := mem_process.1 hr
    exact ⟨i, line, hline, hpassed, Entry.process_tells (i + 1) line⟩
  · intro i line hline hpassed
    refine ⟨_, mem_process.2 ⟨i, line, hline, hpassed, rfl⟩,
      Entry.process_tells (i + 1) line, ?_⟩
    intro r' hr' hnumber
    obtain ⟨j, line', hline', hpassed', rfl⟩ := mem_process.1 hr'
    obtain rfl : j = i := Nat.succ.inj hnumber
    rw [hline] at hline'
    rw [Option.some.inj hline']

example : (process "# note\n\n \tΔΑ1\r\nΔΑ1 ∧").map (fun r => (r.entry.line, r.isSuccess))
    = [(3, true), (4, false)] := by decide +kernel

end Batch

end Sigil
