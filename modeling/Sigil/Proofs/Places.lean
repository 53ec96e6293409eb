import Sigil.Proofs.Segmentation
import Mathlib.Logic.Relation

/-! # Where the tokens of a text stand

    A token has a span, and the span is what the token says it is: the
    bytes of the text from its start to its stop are those of its lexeme,
    the spans follow one another, and what lies outside of all of them is
    blank (`Token.Exact`).

    Reading goes from place to place.  `Token.Passes` is one such step,
    over a blank or over a lexeme; every place that is reached lies between
    two characters, and every step leads further on. -/

namespace Sigil

open Grammar

namespace Text

/-! ### Bytes and characters -/

/-- The width of characters is the number of bytes of their text. -/
theorem utf8ByteSize_ofList (cs : List Char) : (String.ofList cs).utf8ByteSize = width cs := by
  induction cs with
  | nil => rfl
  | cons c cs ih =>
    rw [String.ofList_cons, String.utf8ByteSize_append, String.utf8ByteSize_singleton, ih,
      width_cons]

theorem size_ofList (cs : List Char) : (String.ofList cs).toByteArray.size = width cs := by
  rw [String.size_toByteArray, utf8ByteSize_ofList]

/-- The place behind the first characters of a text lies between two characters. -/
theorem isValid_width {text : String} {before after : List Char}
    (h : text.toList = before ++ after) : (String.Pos.Raw.mk (width before)).IsValid text := by
  rw [String.Pos.Raw.isValid_iff_exists_append]
  refine ⟨String.ofList before, String.ofList after, ?_, ?_⟩
  · rw [← String.ofList_append, ← h, String.ofList_toList]
  · rw [String.rawEndPos, utf8ByteSize_ofList]

/-- The bytes of a stretch of a text are those of the characters in it. -/
theorem extract_width {text : String} {before word after : List Char}
    (h : text.toList = before ++ (word ++ after)) :
    text.toByteArray.extract (width before) (width before + width word)
      = (String.ofList word).toByteArray := by
  have htext : text = String.ofList before ++ (String.ofList word ++ String.ofList after) := by
    rw [← String.ofList_append, ← String.ofList_append, ← h, String.ofList_toList]
  rw [htext, String.toByteArray_append, String.toByteArray_append, ← size_ofList before,
    ← Nat.add_zero (String.ofList before).toByteArray.size, Nat.add_assoc,
    ByteArray.extract_append_size_add]
  exact ByteArray.extract_append_eq_left (by rw [Nat.zero_add, size_ofList])

/-- A place in a text has only one beginning of the text before it. -/
theorem append_inj_of_width {as bs cs ds : List Char} (h : as ++ bs = cs ++ ds)
    (hwidth : width as = width cs) : as = cs ∧ bs = ds := by
  rcases List.append_eq_append_iff.1 h with ⟨es, rfl, rfl⟩ | ⟨es, rfl, rfl⟩
  · -- what is between the two places has no width, so there is nothing
    cases es with
    | nil => simp
    | cons e es =>
      have hpos := width_pos (List.cons_ne_nil e es)
      rw [width_append] at hwidth
      omega
  · cases es with
    | nil => simp
    | cons e es =>
      have hpos := width_pos (List.cons_ne_nil e es)
      rw [width_append] at hwidth
      omega

end Text

namespace Token

open Lexeme

/-! ### Spans -/

/-- Each token of a text has its characters in the text, and its span says where. -/
theorem Cut.exists_split {start : Nat} {cs : List Char} {tokens : List Token}
    (h : Cut start cs tokens) {t : Token} (ht : t ∈ tokens) :
    ∃ before after, cs = before ++ (t.lexeme.chars ++ after) ∧
      t.span.start = start + Text.width before ∧
      t.span.stop = start + Text.width before + Text.width t.lexeme.chars ∧
      t.lexeme.Valid ∧ t.lexeme.Stops after := by
  induction h with
  | nil => cases ht
  | @blank start c hc cs tokens rest ih =>
    obtain ⟨before, after, rfl, hstart, hstop, hlexeme⟩ := ih ht
    refine ⟨c :: before, after, rfl, ?_, ?_, hlexeme⟩
    · rw [hstart, Text.width_cons, Nat.add_assoc]
    · rw [hstop, Text.width_cons, Nat.add_assoc start]
  | @cons start l cs tokens valid stops rest ih =>
    rcases List.mem_cons.1 ht with rfl | ht
    · exact ⟨[], cs, rfl, rfl, rfl, valid, stops⟩
    · obtain ⟨before, after, rfl, hstart, hstop, hlexeme⟩ := ih ht
      refine ⟨l.chars ++ before, after, (List.append_assoc ..).symm, ?_, ?_, hlexeme⟩
      · rw [hstart, Text.width_append, Nat.add_assoc]
      · rw [hstop, Text.width_append, Nat.add_assoc start]

theorem Cut.start_le {start : Nat} {cs : List Char} {tokens : List Token}
    (h : Cut start cs tokens) {t : Token} (ht : t ∈ tokens) : start ≤ t.span.start := by
  obtain ⟨before, after, -, hstart, -⟩ := h.exists_split ht
  rw [hstart]
  exact Nat.le_add_right _ _

/-- The spans follow one another. -/
theorem Cut.pairwise {start : Nat} {cs : List Char} {tokens : List Token}
    (h : Cut start cs tokens) : tokens.Pairwise fun t u => t.span.stop ≤ u.span.start := by
  induction h with
  | nil => exact .nil
  | blank hc rest ih => exact ih
  | cons valid stops rest ih => exact .cons (fun u hu => rest.start_le hu) ih

/-- What lies in no span is blank. -/
theorem Cut.isBlank {start : Nat} {cs : List Char} {tokens : List Token}
    (h : Cut start cs tokens) {before after : List Char} {c : Char}
    (hcs : cs = before ++ c :: after)
    (hout : ∀ t ∈ tokens, ¬ (t.span.start ≤ start + Text.width before ∧
      start + Text.width before < t.span.stop)) : Text.isBlank c = true := by
  induction h generalizing before with
  | nil => exact absurd hcs (by simp)
  | @blank start d hd cs tokens rest ih =>
    cases before with
    | nil =>
      obtain rfl : d = c := (List.cons.inj hcs).1
      exact hd
    | cons e before =>
      obtain ⟨rfl, htail⟩ := List.cons.inj hcs
      apply ih htail
      intro t ht
      have hplace := hout t ht
      rwa [Text.width_cons, ← Nat.add_assoc] at hplace
  | @cons start l cs tokens valid stops rest ih =>
    obtain ⟨hfirst, hrest⟩ := List.forall_mem_cons.1 hout
    rcases List.append_eq_append_iff.1 hcs with ⟨es, rfl, htail⟩ | ⟨es, hchars, -⟩
    · -- the place is behind the lexeme
      apply ih htail
      intro t ht
      have hplace := hrest t ht
      rwa [Text.width_append, ← Nat.add_assoc] at hplace
    · -- the place is before the end of the lexeme, and so in its span
      cases es with
      | nil =>
        rw [List.append_nil] at hchars
        subst hchars
        have htail : cs = [] ++ c :: after := by simpa using hcs
        apply ih htail
        intro t ht
        exact hrest t ht
      | cons e es =>
        have hpos := Text.width_pos (List.cons_ne_nil e es)
        refine absurd ⟨Nat.le_add_right _ _, ?_⟩ hfirst
        show start + Text.width before < start + Text.width l.chars
        rw [hchars, Text.width_append]
        omega

/-! ### Passing through a text -/

/-- One step through a text, from a byte and the characters behind it to the next such
place: over a blank, or over the lexeme that stands there. -/
inductive Passes : Nat × List Char → Nat × List Char → Prop where
  | blank {start : Nat} {c : Char} {cs : List Char} (hc : Text.isBlank c = true) :
      Passes (start, c :: cs) (start + c.utf8Size, cs)
  | lexeme {start : Nat} {c : Char} {cs rest : List Char} {l : Lexeme}
      (hc : Text.isBlank c = false) (hscan : scan (c :: cs) = some (l, rest)) :
      Passes (start, c :: cs) (start + Text.width l.chars, rest)

/-- A step passes over some of the characters. -/
theorem Passes.exists_append {p q : Nat × List Char} (h : Passes p q) :
    ∃ passed, passed ≠ [] ∧ p.2 = passed ++ q.2 ∧ q.1 = p.1 + Text.width passed := by
  cases h with
  | @blank start c cs hc => exact ⟨[c], List.cons_ne_nil _ _, rfl, rfl⟩
  | lexeme hc hscan => exact ⟨_, chars_ne_nil_of_scan hscan, scan_append hscan, rfl⟩

theorem Passes.start_lt {p q : Nat × List Char} (h : Passes p q) : p.1 < q.1 := by
  obtain ⟨passed, hne, -, hstart⟩ := h.exists_append
  have hpos := Text.width_pos hne
  omega

theorem Passes.length_lt {p q : Nat × List Char} (h : Passes p q) :
    q.2.length < p.2.length := by
  obtain ⟨passed, hne, happ, -⟩ := h.exists_append
  have hpos := List.length_pos_iff.2 hne
  rw [happ, List.length_append]
  omega

/-- There is no endless way through a text. -/
theorem wellFounded_passes : WellFounded fun q p => Passes p q := by
  apply Subrelation.wf (r := fun q p : Nat × List Char => q.2.length < p.2.length)
  · intro q p h
    exact h.length_lt
  · exact InvImage.wf (fun p : Nat × List Char => p.2.length) Nat.lt_wfRel.wf

/-- What a step passes over belongs to what is read, and reading goes on behind it. -/
theorem Passes.readFrom_eq {p q : Nat × List Char} (h : Passes p q) :
    ∃ passed, readFrom p.1 p.2 = (readFrom q.1 q.2).map (passed ++ ·) := by
  cases h with
  | @blank start c cs hc =>
    refine ⟨[], ?_⟩
    show readFrom start (c :: cs) = _
    rw [readFrom_blank hc]
    cases readFrom (start + c.utf8Size) cs <;> rfl
  | @lexeme start c cs rest l hc hscan =>
    obtain ⟨happ, hvalid, hstops⟩ := scan_eq_some_iff.1 hscan
    refine ⟨[⟨l, ⟨start, start + Text.width l.chars⟩⟩], ?_⟩
    show readFrom start (c :: cs) = _
    rw [happ, readFrom_chars_append hvalid hstops]
    rfl

open Relation in
/-- A place that is reached lies behind the first characters of the text, and what is read
behind it decides what is read of the text. -/
theorem readAll_of_reached {text : String} {p : Nat × List Char}
    (h : ReflTransGen Passes (0, text.toList) p) :
    (∃ before, text.toList = before ++ p.2 ∧ p.1 = Text.width before) ∧
      ∃ passed, readAll text = (readFrom p.1 p.2).map (passed ++ ·) := by
  induction h with
  | refl =>
    refine ⟨⟨[], rfl, rfl⟩, [], ?_⟩
    show readFrom 0 text.toList = _
    cases readFrom 0 text.toList <;> rfl
  | @tail p q _ hstep ih =>
    obtain ⟨⟨before, htext, hstart⟩, passed, hread⟩ := ih
    obtain ⟨between, -, happ, hnext⟩ := hstep.exists_append
    obtain ⟨more, hmore⟩ := hstep.readFrom_eq
    refine ⟨⟨before ++ between, ?_, ?_⟩, passed ++ more, ?_⟩
    · rw [htext, happ, List.append_assoc]
    · rw [hnext, hstart, Text.width_append]
    · rw [hread, hmore]
      cases readFrom q.1 q.2 with
      | error r => rfl
      | ok tokens =>
        show Except.ok (passed ++ (more ++ tokens)) = Except.ok ((passed ++ more) ++ tokens)
        rw [List.append_assoc]

/-- Where no step is possible, the text is at its end or is refused. -/
theorem passes_or_halts (start : Nat) (cs : List Char) :
    (∃ q, Passes (start, cs) q) ∨ (cs = [] ∧ readFrom start cs = .ok []) ∨
      ∃ c ds, cs = c :: ds ∧ readFrom start cs = .error (unscannable start c ds) := by
  cases cs with
  | nil =>
    refine .inr (.inl ⟨rfl, ?_⟩)
    rw [readFrom]
  | cons c ds =>
    cases hc : Text.isBlank c with
    | true => exact .inl ⟨_, .blank hc⟩
    | false =>
      cases hscan : scan (c :: ds) with
      | some found => exact .inl ⟨_, .lexeme hc hscan⟩
      | none => exact .inr (.inr ⟨c, ds, rfl, readFrom_stuck hc hscan start⟩)

/-! ### Exactness -/

/-- The tokens are exactly the words of the text. -/
structure Exact (text : String) (tokens : List Token) : Prop where
  nonempty : ∀ t ∈ tokens, t.span.start < t.span.stop
  ordered : tokens.Pairwise fun t u => t.span.stop ≤ u.span.start
  /-- The ends of a span lie between two characters. -/
  between : ∀ t ∈ tokens, (String.Pos.Raw.mk t.span.start).IsValid text ∧
    (String.Pos.Raw.mk t.span.stop).IsValid text
  /-- The bytes in a span are those of the lexeme. -/
  bytes : ∀ t ∈ tokens, text.toByteArray.extract t.span.start t.span.stop
    = t.lexeme.text.toByteArray
  /-- A character that lies in no span is blank. -/
  blank : ∀ before c after, text.toList = before ++ c :: after →
    (∀ t ∈ tokens, ¬ (t.span.start ≤ Text.width before ∧ Text.width before < t.span.stop)) →
    Text.isBlank c = true
  word : ∀ t ∈ tokens, IsWord t.lexeme.kind t.lexeme.chars
  /-- Where a token begins, every word is of its class and none is longer. -/
  longest : ∀ t ∈ tokens, ∀ before after, text.toList = before ++ after →
    Text.width before = t.span.start → ∀ kind word, IsWord kind word → word <+: after →
    kind = t.lexeme.kind ∧ word.length ≤ t.lexeme.chars.length

theorem Cut.exact {text : String} {tokens : List Token} (h : Cut 0 text.toList tokens) :
    Exact text tokens where
  nonempty t ht := by
    obtain ⟨before, after, -, hstart, hstop, hvalid, -⟩ := h.exists_split ht
    have hpos := Text.width_pos hvalid.chars_ne_nil
    omega
  ordered := h.pairwise
  between t ht := by
    obtain ⟨before, after, htext, hstart, hstop, -⟩ := h.exists_split ht
    rw [Nat.zero_add] at hstart hstop
    rw [← Text.width_append] at hstop
    rw [hstart, hstop]
    have hbehind : text.toList = (before ++ t.lexeme.chars) ++ after := by
      rw [htext, List.append_assoc]
    exact ⟨Text.isValid_width htext, Text.isValid_width hbehind⟩
  bytes t ht := by
    obtain ⟨before, after, htext, hstart, hstop, -⟩ := h.exists_split ht
    rw [Nat.zero_add] at hstart hstop
    rw [hstart, hstop]
    exact Text.extract_width htext
  blank before c after htext hout := by
    apply h.isBlank htext
    intro t ht
    rw [Nat.zero_add]
    exact hout t ht
  word t ht := by
    obtain ⟨before, after, -, -, -, hvalid, -⟩ := h.exists_split ht
    exact isWord_iff.2 ⟨t.lexeme, hvalid, rfl, rfl⟩
  longest t ht before after htext hplace kind word hword hprefix := by
    obtain ⟨before', after', htext', hstart, -, hvalid, hstops⟩ := h.exists_split ht
    rw [Nat.zero_add, ← hplace] at hstart
    -- the place of the token is the one that is asked about
    obtain ⟨-, rfl⟩ := Text.append_inj_of_width (htext.symm.trans htext') hstart
    exact longest hvalid hstops hword hprefix

/-! ### The places of tokens -/

theorem Cut.stop_le {start : Nat} {cs : List Char} {tokens : List Token}
    (h : Cut start cs tokens) {t : Token} (ht : t ∈ tokens) :
    t.span.stop ≤ start + Text.width cs := by
  obtain ⟨before, after, rfl, -, hstop, -⟩ := h.exists_split ht
  rw [hstop, Text.width_append, Text.width_append]
  omega

/-- Where the token with the index `k` begins, or the end of a text of `length` bytes
when there is no such token. -/
def placeAt (length : Nat) (tokens : List Token) (k : Nat) : Nat :=
  (tokens[k]?.map (·.span.start)).getD length

theorem placeAt_of_lt (length : Nat) {tokens : List Token} {k : Nat} (hk : k < tokens.length) :
    placeAt length tokens k = tokens[k].span.start := by
  rw [placeAt, List.getElem?_eq_getElem hk]
  rfl

theorem placeAt_length (length : Nat) (tokens : List Token) :
    placeAt length tokens tokens.length = length := by
  rw [placeAt, List.getElem?_eq_none (Nat.le_refl _)]
  rfl

/-- Tokens that come later begin later, and the text ends behind all of them. -/
theorem placeAt_lt {text : String} {tokens : List Token} (h : Cut 0 text.toList tokens) {i j : Nat}
    (hij : i < j) (hj : j ≤ tokens.length) :
    placeAt (Text.width text.toList) tokens i < placeAt (Text.width text.toList) tokens j := by
  have hi : i < tokens.length := by omega
  have hnonempty := h.exact.nonempty _ (List.getElem_mem hi)
  rw [placeAt_of_lt _ hi]
  rcases Nat.lt_or_eq_of_le hj with hlt | rfl
  · have hordered := List.pairwise_iff_getElem.1 h.pairwise i j hi hlt hij
    rw [placeAt_of_lt _ hlt]
    omega
  · have hstop := h.stop_le (List.getElem_mem hi)
    rw [placeAt_length]
    omega

theorem placeAt_le {text : String} {tokens : List Token} (h : Cut 0 text.toList tokens) {k : Nat}
    (hk : k ≤ tokens.length) :
    placeAt (Text.width text.toList) tokens k ≤ Text.width text.toList := by
  have hend := placeAt_length (Text.width text.toList) tokens
  rcases Nat.lt_or_eq_of_le hk with hlt | rfl
  · have hlt' := placeAt_lt h hlt (Nat.le_refl _)
    omega
  · omega

/-- The token with the index `k` is the first that ends behind its own beginning, and no
token ends behind the end of the text. -/
theorem findIdx_placeAt {text : String} {tokens : List Token}
    (h : Cut 0 text.toList tokens) {k : Nat} (hk : k ≤ tokens.length) :
    tokens.findIdx (fun t => placeAt (Text.width text.toList) tokens k < t.span.stop) = k := by
  rcases Nat.lt_or_eq_of_le hk with hlt | rfl
  · rw [placeAt_of_lt _ hlt]
    apply (List.findIdx_eq hlt).2
    refine ⟨decide_eq_true (h.exact.nonempty _ (List.getElem_mem hlt)), ?_⟩
    intro j hj
    have hordered := List.pairwise_iff_getElem.1 h.pairwise j k (by omega) hlt hj
    exact decide_eq_false (by omega)
  · rw [placeAt_length]
    apply List.findIdx_eq_length.2
    intro t ht
    have hstop := h.stop_le ht
    exact decide_eq_false (by omega)

open Relation in
/-- A text is cut into tokens exactly when it can be segmented at all, and then the tokens
are exactly its words.  On its way reading only comes to places between two characters;
every step leads further on, there is no endless way, and the only ends are that of the
text and a place where no word begins. -/
theorem reading_is_exact (text : String) :
    ((∃ tokens, readAll text = .ok tokens) ↔ Segmentable text.toList) ∧
    (∀ tokens, readAll text = .ok tokens → Exact text tokens) ∧
    (WellFounded fun q p => Passes p q) ∧
    ∀ p, ReflTransGen Passes (0, text.toList) p →
      (String.Pos.Raw.mk p.1).IsValid text ∧
      (∃ before, text.toList = before ++ p.2 ∧ p.1 = Text.width before) ∧
      (∀ q, Passes p q → p.1 < q.1) ∧
      ((∃ q, Passes p q) ∨ (p.2 = [] ∧ ∃ tokens, readAll text = .ok tokens) ∨
        ∃ c cs, p.2 = c :: cs ∧ readAll text = .error (unscannable p.1 c cs)) := by
  refine ⟨?_, fun tokens h => (cut_of_readFrom h).exact, wellFounded_passes, ?_⟩
  · rw [segmentable_iff]
    constructor
    · rintro ⟨tokens, h⟩
      exact ⟨_, (cut_of_readFrom h).spells⟩
    · rintro ⟨ls, h⟩
      obtain ⟨tokens, hread, -⟩ := lexemes_readAll_iff.2 h
      exact ⟨tokens, hread⟩
  · rintro ⟨start, cs⟩ hp
    obtain ⟨⟨before, htext, hstart⟩, passed, hread⟩ := readAll_of_reached hp
    refine ⟨?_, ⟨before, htext, hstart⟩, fun q hq => hq.start_lt, ?_⟩
    · rw [hstart]
      exact Text.isValid_width htext
    · rcases passes_or_halts start cs with hstep | ⟨hnil, hend⟩ | ⟨c, ds, hcons, hend⟩
      · exact .inl hstep
      · refine .inr (.inl ⟨hnil, passed, ?_⟩)
        rw [hread, hend]
        show Except.ok (passed ++ []) = _
        rw [List.append_nil]
      · refine .inr (.inr ⟨c, ds, hcons, ?_⟩)
        rw [hread, hend]
        rfl

end Token

end Sigil
