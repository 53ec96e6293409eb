/-! # Lines of a text

    A line ends at a line feed.  A text with `n` line feeds has `n + 1`
    lines, the last of which may be empty; nothing but the line feeds is
    lost.

    Where a line feed is the end of a line and not the beginning of the
    next, the empty stretch after the last one is no line
    (`terminatedLines`). -/

namespace Sigil.Text

/-- The stretches of `cs` between line feeds, in order. -/
def lineSplit : List Char → List (List Char)
  | [] => [[]]
  | c :: cs =>
    if c = '\n' then [] :: lineSplit cs
    else
      match lineSplit cs with
      | [] => [[c]]
      | line :: rest => (c :: line) :: rest

/-- The lines of a text, in order. -/
def lines (s : String) : List String :=
  (lineSplit s.toList).map String.ofList

/-- A line without the carriage return at its end. -/
def dropReturn (line : List Char) : List Char :=
  if line.getLast? = some '\r' then line.dropLast else line

/-- The lines of a text that line feeds end, and what is left after the last
line feed, unless it is empty.  A carriage return before a line feed belongs
to the end of the line. -/
def terminatedLines (s : String) : List String :=
  let stretches := lineSplit s.toList
  let last := stretches.getLast?.getD []
  (stretches.dropLast.map dropReturn ++ if last.isEmpty then [] else [last]).map String.ofList

theorem lineSplit_ne_nil (cs : List Char) : lineSplit cs ≠ [] := by
  cases cs with
  | nil => simp [lineSplit]
  | cons c cs =>
    rw [lineSplit]
    split
    · simp
    · split <;> simp

/-- There is one line more than there are line feeds. -/
theorem length_lineSplit (cs : List Char) :
    (lineSplit cs).length = cs.count '\n' + 1 := by
  induction cs with
  | nil => rfl
  | cons c cs ih =>
    rw [lineSplit]
    split
    · next h => subst h; simp [ih]
    · next h =>
      rw [List.count_cons_of_ne h]
      split
      · next h' => exact absurd h' (lineSplit_ne_nil cs)
      · next h' => rw [h'] at ih; simpa using ih

/-- A line feed ends the lines before it and begins those after it. -/
theorem lineSplit_append (cs ds : List Char) :
    lineSplit (cs ++ '\n' :: ds) = lineSplit cs ++ lineSplit ds := by
  induction cs with
  | nil => simp [lineSplit]
  | cons c cs ih =>
    rw [List.cons_append, lineSplit, lineSplit, ih]
    split
    · rfl
    · cases hsplit : lineSplit cs with
      | nil => exact absurd hsplit (lineSplit_ne_nil cs)
      | cons line rest => rfl

/-- The lines with the line feeds between them are the text. -/
theorem intercalate_lineSplit (cs : List Char) : ['\n'].intercalate (lineSplit cs) = cs := by
  induction cs with
  | nil => rfl
  | cons c cs ih =>
    rw [lineSplit]
    cases hsplit : lineSplit cs with
    | nil => exact absurd hsplit (lineSplit_ne_nil cs)
    | cons line rest =>
      rw [hsplit] at ih
      split
      · next hc => rw [List.intercalate_cons_cons, ih, hc]; rfl
      · cases rest with
        | nil => simpa using ih
        | cons next rest =>
          rw [List.intercalate_cons_cons] at ih ⊢
          show c :: _ = _
          rw [← ih]
          rfl

/-- No line holds a line feed. -/
theorem not_mem_of_mem_lineSplit {cs line : List Char} (h : line ∈ lineSplit cs) :
    '\n' ∉ line := by
  induction cs generalizing line with
  | nil => simp [lineSplit] at h; simp [h]
  | cons c cs ih =>
    rw [lineSplit] at h
    split at h
    · rcases List.mem_cons.1 h with rfl | h
      · simp
      · exact ih h
    · next hc =>
      split at h
      · next h' => exact absurd h' (lineSplit_ne_nil cs)
      · next first rest h' =>
        rcases List.mem_cons.1 h with rfl | h
        · have := @ih first (by rw [h']; exact List.mem_cons_self)
          simp [this, Ne.symm hc]
        · exact ih (by rw [h']; exact List.mem_cons_of_mem _ h)

theorem lines_append (s t : String) : lines (s ++ "\n" ++ t) = lines s ++ lines t := by
  have happ : (s ++ "\n" ++ t).toList = s.toList ++ '\n' :: t.toList := by
    simp [String.toList_append]
  rw [lines, happ, lineSplit_append, List.map_append]
  rfl

theorem length_lines (s : String) : (lines s).length = s.toList.count '\n' + 1 := by
  rw [lines, List.length_map, length_lineSplit]

theorem intercalate_lines (s : String) : "\n".intercalate (lines s) = s := by
  apply String.toList_inj.1
  rw [String.toList_intercalate, lines, List.map_map]
  have hid : String.toList ∘ String.ofList = id := funext fun _ => String.toList_ofList
  rw [hid, List.map_id]
  exact intercalate_lineSplit s.toList

theorem not_mem_of_mem_lines {s line : String} (h : line ∈ lines s) : '\n' ∉ line.toList := by
  obtain ⟨cs, hcs, rfl⟩ := List.mem_map.1 h
  rw [String.toList_ofList]
  exact not_mem_of_mem_lineSplit hcs

theorem lineSplit_of_notMem {cs : List Char} (h : '\n' ∉ cs) : lineSplit cs = [cs] := by
  induction cs with
  | nil => rfl
  | cons c cs ih =>
    have hc : c ≠ '\n' := fun hfeed => h (hfeed ▸ List.mem_cons_self)
    have hcs : '\n' ∉ cs := fun hfeed => h (List.mem_cons_of_mem c hfeed)
    rw [lineSplit, if_neg hc, ih hcs]

/-- What was put together line by line falls apart into these lines, and nothing stands
behind the last line feed. -/
theorem lines_join {parts : List String} (h : ∀ part ∈ parts, '\n' ∉ part.toList) :
    lines (String.join (parts.map (· ++ "\n"))) = parts ++ [""] := by
  induction parts with
  | nil => rfl
  | cons part parts ih =>
    obtain ⟨hpart, hrest⟩ := List.forall_mem_cons.1 h
    have hfirst : lines part = [part] := by
      rw [lines, lineSplit_of_notMem hpart, List.map_singleton, String.ofList_toList]
    rw [List.map_cons, String.join_cons, lines_append, hfirst, ih hrest]
    rfl

end Sigil.Text
