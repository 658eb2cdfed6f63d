import SourceOptimizer.Proofs.Evaluation
import SourceOptimizer.Proofs.ProperValues
import SourceOptimizer.Proofs.QuotedText
import SourceOptimizer.Proofs.Spelling

/-! The text of a value is scanned as the tokens of its spelling. -/
namespace SourceOptimizer

open Number Token
open Value (choiceNames lexemes proper properAll properPairs)
open Text (Visible quoted quotedBytes)

variable {p p' : Place} {cs rest r : List Char} {ps : List Lexeme} {c d o : Char} {w t : String} {v : Value} {l : Layout}
  {x : Float} {n : Int} {pss : List (List Lexeme)} {ts : List String}

/-- The characters are read as the lexemes of a spelling, up to the rest or until they break off. -/
def Lexes (ps : List Lexeme) (p : Place) (cs : List Char) (p' : Place) (rest : List Char) : Prop :=
  ∀ fuel, ∃ st, Follows ps (lexRest fuel p cs) st ∧ ∀ ts, st = some ts → ∃ fuel', ts = lexRest fuel' p' rest

namespace Lexes

theorem nil (p : Place) (cs : List Char) : Lexes [] p cs p cs := fun fuel =>
  ⟨_, .done, fun _ h => ⟨fuel, (Option.some.inj h).symm⟩⟩

theorem append {a b : List Lexeme} {p'' : Place} {mid : List Char} (ha : Lexes a p cs p' mid)
    (hb : Lexes b p' mid p'' rest) : Lexes (a ++ b) p cs p'' rest := by
  intro fuel
  obtain ⟨st, hst, hrest⟩ := ha fuel
  cases st with
  | none => exact ⟨none, hst.append_none, fun _ h => by cases h⟩
  | some ts =>
    obtain ⟨fuel', rfl⟩ := hrest ts rfl
    obtain ⟨st', hst', hrest'⟩ := hb fuel'
    exact ⟨st', hst.append hst', hrest'⟩

theorem blank (h : Lexes ps p cs p' rest) :
    Lexes ps p (' ' :: cs) p' rest := by
  intro fuel
  have heq : lexRest fuel p (' ' :: cs) = lexRest fuel p cs := by
    cases fuel with
    | zero => rw [lexRest, lexRest]
    | succ fuel =>
      rw [lexRest, lexRest, List.dropWhile_cons_of_pos (by rfl)]
  rw [heq]
  exact h fuel

theorem single {a : Lexeme}
    (h : ∀ fuel, (∃ cause l, lexRest (fuel + 1) p cs = [⟨.bad cause, l⟩]) ∨
      ∃ k, a.Is k ∧ lexRest (fuel + 1) p cs = ⟨k, p.line⟩ :: lexRest fuel p' rest) :
    Lexes [a] p cs p' rest := by
  intro fuel
  cases fuel with
  | zero =>
    exact ⟨none, .broken, fun _ h => by cases h⟩
  | succ fuel =>
    rcases h fuel with ⟨cause, l, heq⟩ | ⟨k, hk, heq⟩
    · rw [heq]
      exact ⟨none, .broken, fun _ h => by cases h⟩
    · rw [heq]
      exact ⟨_, .next hk .done, fun _ h => ⟨fuel, (Option.some.inj h).symm⟩⟩

end Lexes

/-- Characters that begin neither a comment nor a line nor a continuation. -/
def Begins (c : Char) : Prop := isBlankChar c = false ∧ c ≠ '#' ∧ c ≠ '\n' ∧ c ≠ '\\'

/-- A text that is read as the lexemes of a spelling wherever it stands. -/
structure Spells (ps : List Lexeme) (t : String) : Prop where
  lexes : ∀ p {rest : List Char}, Stops rest → Lexes ps p (t.toList ++ rest) p rest
  visible : Text.Visible t.toList

/-- The text of a value, which does not begin with a blank. -/
structure SpellsValue (ps : List Lexeme) (t : String) : Prop extends Spells ps t where
  first : ∃ c cs, t.toList = c :: cs ∧ Begins c

theorem lexRest_cons (fuel : Nat) (p : Place) (r : List Char) (hc : Begins c) :
    lexRest (fuel + 1) p (c :: r) =
      match stringStart (c :: r) with
      | some (marks, q) =>
        match quotedBody q with
        | none => [⟨.bad .token, p.line⟩]
        | some (body, r) =>
          ⟨.string (stringToken marks body), p.line⟩ ::
            lexRest fuel { p with line := p.line + countNewlines body } r
      | none =>
        if isWordStart c then
          match wordOf (c :: r.takeWhile isWordRest) with
          | none => [⟨.bad .token, p.line⟩]
          | some w => ⟨w, p.line⟩ :: lexRest fuel p (r.dropWhile isWordRest)
        else if c.isDigit || (c == '.' && (r.head?.map Char.isDigit).getD false) then
          match number (c :: r) with
          | none => [⟨.bad .token, p.line⟩]
          | some (v, r) => ⟨.number v, p.line⟩ :: lexRest fuel p r
        else match signs.find? fun s => s.toList.isPrefixOf (c :: r) with
          | none => [⟨.bad .token, p.line⟩]
          | some s =>
            match bracketsAfter p.brackets s with
            | none => [⟨.bad .token, p.line⟩]
            | some open_ =>
              if maxBrackets ≤ open_.length then [⟨.bad .token, p.line⟩]
              else ⟨.sign s, p.line⟩ ::
                lexRest fuel { p with brackets := open_ } ((c :: r).drop s.length) := by
  obtain ⟨h1, h2, h3, h4⟩ := hc
  rw [lexRest, List.dropWhile_cons_of_neg (by simp [h1])]
  split
  · cases ‹_›
  · exact absurd (List.cons.inj ‹c :: r = _›).1 h2
  · exact absurd (List.cons.inj ‹c :: r = _›).1 h3
  · exact absurd (List.cons.inj ‹c :: r = _›).1 h4
  · obtain ⟨rfl, rfl⟩ := List.cons.inj ‹c :: r = _›
    rfl

/-! ## Signs -/

def spellingSigns : List Char := ['(', ')', '[', ']', '\x7b', '\x7d', ',', ':', '-', '+', '|']

def openSigns : List Char := [':', '-', '+', '|']

theorem find_sign (hc : c ∈ spellingSigns)
    (hr : c ∈ openSigns → ∀ d r', r = d :: r' → d ≠ '=' ∧ d ≠ '>') :
    signs.find? (fun s => s.toList.isPrefixOf (c :: r)) = some (String.singleton c) := by
  simp only [spellingSigns, List.mem_cons, List.not_mem_nil, or_false] at hc
  cases r with
  | nil =>
    rcases hc with rfl | rfl | rfl | rfl | rfl | rfl | rfl | rfl | rfl | rfl | rfl <;>
      simp [signs, List.find?, List.isPrefixOf]
  | cons d r =>
    have h1 (ho : c ∈ openSigns) : ('=' == d) = false := by simp [Ne.symm (hr ho d r rfl).1]
    have h2 (ho : c ∈ openSigns) : ('>' == d) = false := by simp [Ne.symm (hr ho d r rfl).2]
    rcases hc with rfl | rfl | rfl | rfl | rfl | rfl | rfl | rfl | rfl | rfl | rfl
    all_goals first
      | simp [signs, List.find?, List.isPrefixOf]; done
      | simp [signs, List.find?, List.isPrefixOf, h1 (by decide), h2 (by decide)]

theorem sign_facts (hc : c ∈ spellingSigns) : Begins c ∧ isQuote c = false ∧
    c.toLower ∉ ['b', 'u', 'r', 'f'] ∧ isWordStart c = false ∧ c.isDigit = false ∧ c ≠ '.' := by
  simp only [spellingSigns, List.mem_cons, List.not_mem_nil, or_false] at hc
  rcases hc with rfl | rfl | rfl | rfl | rfl | rfl | rfl | rfl | rfl | rfl | rfl <;>
    exact ⟨⟨rfl, by decide, by decide, by decide⟩, rfl, by decide, rfl, rfl, by decide⟩

theorem stringStart_none (r : List Char) (hq : isQuote c = false) (h : c.toLower ∉ ['b', 'u', 'r', 'f']) :
    stringStart (c :: r) = none := by
  simp only [List.mem_cons, List.not_mem_nil, or_false, not_or] at h
  cases r with
  | nil => simp [stringStart, hq]
  | cons b r =>
    cases r with
    | nil => simp [stringStart, hq, h]
    | cons q r => simp [stringStart, hq, h]

theorem lexes_sign (hc : c ∈ spellingSigns) (p : Place) {open_ : List Char}
    (hr : c ∈ openSigns → ∀ d r', r = d :: r' → d ≠ '=' ∧ d ≠ '>') (hb : bracketsAfter p.brackets (String.singleton c) = some open_) :
    Lexes [.sign (String.singleton c)] p (c :: r) { p with brackets := open_ } r := by
  obtain ⟨h1, h2, h3, h4, h5, h6⟩ := sign_facts hc
  apply Lexes.single
  intro fuel
  rw [lexRest_cons fuel p r h1, stringStart_none r h2 h3, find_sign hc hr]
  simp only [h4, h5, h6, Bool.false_eq_true, ↓reduceIte, beq_iff_eq, hb, Bool.false_or,
    Bool.and_eq_true, false_and]
  split
  · exact .inl ⟨_, _, rfl⟩
  · refine .inr ⟨_, rfl, ?_⟩
    simp

/-! ## Words -/

def plainWord (w : String) : Bool :=
  match w.toList with
  | a :: b :: c :: cs => isWordStart a && (b :: c :: cs).all isWordRest && (a :: b :: c :: cs).all (·.toNat < 0x80)
  | _ => false

theorem isQuote_of_isWordRest (h : isWordRest c = true) : isQuote c = false := by
  rw [Bool.eq_false_iff]
  intro hc
  simp only [isQuote, Bool.or_eq_true, beq_iff_eq] at hc
  rcases hc with rfl | rfl <;> exact absurd h (by decide)

theorem isWordStart_begins (h : isWordStart c = true) : Begins c ∧ isQuote c = false := by
  refine ⟨⟨?_, ?_, ?_, ?_⟩, ?_⟩
  · rw [Bool.eq_false_iff]
    intro hc
    simp only [isBlankChar, Bool.or_eq_true, beq_iff_eq] at hc
    rcases hc with (rfl | rfl) | rfl <;> exact absurd h (by decide)
  · rintro rfl
    exact absurd h (by decide)
  · rintro rfl
    exact absurd h (by decide)
  · rintro rfl
    exact absurd h (by decide)
  · exact isQuote_of_isWordRest (by rw [isWordRest, h]; rfl)

theorem delimiter_ends (h : c ∈ delimiters) : isWordRest c = false ∧ isQuote c = false := by
  simp only [delimiters, List.mem_cons, List.not_mem_nil, or_false] at h
  rcases h with rfl | rfl | rfl | rfl | rfl | rfl | rfl | rfl | rfl | rfl <;> exact ⟨rfl, rfl⟩

theorem isQuote_of_stops (h : Stops rest) : ∀ c r, rest = c :: r → isQuote c = false := by
  obtain ⟨c, r, rfl, hc⟩ := h
  rintro c' r' heq
  cases heq
  exact (delimiter_ends hc).2

theorem takeWhile_word (hcs : cs.all isWordRest = true) (hr : Stops rest) :
    (cs ++ rest).takeWhile isWordRest = cs ∧ (cs ++ rest).dropWhile isWordRest = rest := by
  obtain ⟨c, r, rfl, hc⟩ := hr
  have hc := (delimiter_ends hc).1
  rw [List.all_eq_true] at hcs
  rw [List.takeWhile_append_of_pos hcs, List.dropWhile_append_of_pos hcs,
    List.takeWhile_cons_of_neg (by simp [hc]), List.dropWhile_cons_of_neg (by simp [hc])]
  simp

theorem isDigit_visible (h : c.isDigit = true) : 0x20 ≤ c.toNat := by
  rw [Char.isDigit, Bool.and_eq_true, decide_eq_true_eq, ge_iff_le, UInt32.le_iff_toNat_le] at h
  exact Nat.le_trans (by decide) h.1

theorem isWordRest_visible (h : isWordRest c = true) : 0x20 ≤ c.toNat := by
  rw [isWordRest, isWordStart, Bool.or_eq_true, Bool.or_eq_true, Bool.or_eq_true] at h
  rcases h with ((h | h) | h) | h
  · rw [Char.isAlpha, Char.isUpper, Char.isLower] at h
    simp only [Bool.or_eq_true, Bool.and_eq_true, decide_eq_true_eq, ge_iff_le, UInt32.le_iff_toNat_le] at h
    rcases h with h | h
    · exact Nat.le_trans (by decide) h.1
    · exact Nat.le_trans (by decide) h.1
  · rw [beq_iff_eq.mp h]
    decide
  · exact Nat.le_trans (by decide) (of_decide_eq_true h)
  · exact isDigit_visible h

theorem spells_word (hw : plainWord w = true) : SpellsValue [.word w] w := by
  rw [plainWord] at hw
  split at hw
  case h_2 => cases hw
  case h_1 a b c cs heq =>
    simp only [Bool.and_eq_true] at hw
    obtain ⟨⟨ha, hall⟩, hplain⟩ := hw
    have hrest := List.all_eq_true.mp hall
    obtain ⟨hbegin, haq⟩ := isWordStart_begins ha
    refine ⟨⟨fun p rest hr => ?_, ?_⟩, a, _, heq, hbegin⟩
    · obtain ⟨ht, hd⟩ := takeWhile_word hall hr
      have hs : stringStart (a :: (b :: c :: cs ++ rest)) = none := by
        simp [stringStart, haq, isQuote_of_isWordRest (hrest b (by simp)), isQuote_of_isWordRest (hrest c (by simp))]
      have hword : wordOf (a :: (b :: c :: cs)) = some (.word w) := by
        rw [wordOf, if_pos hplain, ← heq, String.ofList_toList]
      apply Lexes.single
      intro fuel
      rw [heq, List.cons_append, lexRest_cons fuel p _ hbegin, hs, ht, hd, hword]
      simp only [ha, ↓reduceIte]
      exact .inr ⟨_, rfl, rfl⟩
    · rw [heq]
      exact Visible.cons (isWordRest_visible (by rw [isWordRest, ha]; rfl)) fun d hd => isWordRest_visible (hrest d hd)

/-! ## Numbers -/

theorem digit_facts (h : c.isDigit = true) : Begins c ∧ isQuote c = false ∧
    c.toLower ∉ ['b', 'u', 'r', 'f'] ∧ isWordStart c = false := by
  have all : ∀ d : Fin 10, (isBlankChar (Nat.digitChar d) = false ∧ Nat.digitChar d ≠ '#' ∧ Nat.digitChar d ≠ '\n' ∧
      Nat.digitChar d ≠ '\\') ∧ isQuote (Nat.digitChar d) = false ∧
      (Nat.digitChar d).toLower ∉ ['b', 'u', 'r', 'f'] ∧ isWordStart (Nat.digitChar d) = false := by decide
  have hc := digitChar_of_isDigit h
  have hlt : c.toNat - 48 < 10 := by
    have hx := @Nat.isDigit_digitChar (c.toNat - 48)
    rw [hc, h] at hx
    simpa using hx.symm
  have := all ⟨_, hlt⟩
  rwa [hc] at this

theorem lexes_number {ok : Value → Prop} (hok : ok v) (p : Place)
    (hd : ∃ d ds, cs = d :: ds ∧ d.isDigit = true) (hn : number (cs ++ rest) = some (v, rest)) :
    Lexes [.number ok] p (cs ++ rest) p rest := by
  obtain ⟨d, ds, rfl, hdigit⟩ := hd
  obtain ⟨h1, h2, h3, h4⟩ := digit_facts hdigit
  rw [List.cons_append] at hn ⊢
  apply Lexes.single
  intro fuel
  rw [lexRest_cons fuel p _ h1, stringStart_none _ h2 h3, hn]
  simp only [h4, hdigit, Bool.false_eq_true, ↓reduceIte, Bool.true_or]
  exact .inr ⟨_, ⟨v, rfl, hok⟩, rfl⟩

theorem Written.head_isDigit {w : Written} (hw : w.Sound) : ∃ d ds, w.text = d :: ds ∧ d.isDigit = true := by
  have hd := hw.whole
  cases hwhole : w.whole with
  | nil => exact absurd hwhole hw.whole_ne
  | cons d ds =>
    rw [hwhole] at hd
    exact ⟨d, _, by rw [Written.text, hwhole, List.cons_append], hd d List.mem_cons_self⟩

theorem show_head (hf : isFinite x = true) (hs : isNegative x = false) :
    ∃ d ds, (l.show x).toList = d :: ds ∧ d.isDigit = true := by
  obtain ⟨w, hw⟩ := written_shows l hf hs
  rw [hw.text]
  exact Written.head_isDigit hw.sound

/-! ## Literals -/

theorem begins_of_isQuote (h : isQuote c = true) : Begins c := by
  simp only [isQuote, Bool.or_eq_true, beq_iff_eq] at h
  rcases h with rfl | rfl <;> exact ⟨rfl, by decide, by decide, by decide⟩

theorem countNewlines_eq_zero (h : '\n' ∉ cs) : countNewlines cs = 0 := List.count_eq_zero.mpr h

theorem lexes_text {s : Text} (hs : ∀ c ∈ s, c < 0x110000) (p : Place) (hr : Stops rest) :
    Lexes [.text s] p ((quoted s).toList ++ rest) p rest := by
  obtain ⟨body, h1, h2, h3, h4⟩ := Text.quoted_literal hs (isQuote_of_stops hr)
  obtain ⟨cs, htext⟩ : ∃ cs, (quoted s).toList ++ rest = Char.ofNat (Text.quoteFor s) :: cs :=
    ⟨_, by rw [quoted, String.toList_ofList]; rfl⟩
  apply Lexes.single
  intro fuel
  rw [htext] at h1 h2 ⊢
  rw [lexRest_cons fuel p _ (begins_of_isQuote (Text.isQuote_of_quote (Text.quoteFor_cases s))), h1]
  simp only [h2, countNewlines_eq_zero h3]
  exact .inr ⟨_, ⟨body, rfl, h4⟩, rfl⟩

theorem lexes_bytes {bs : List Nat} (hs : ∀ c ∈ bs, c < 0x100) (p : Place) (hr : Stops rest) :
    Lexes [.bytes bs] p ((quotedBytes bs).toList ++ rest) p rest := by
  obtain ⟨body, q, h1, h2, h3, h4, h5⟩ := Text.quotedBytes_literal hs (isQuote_of_stops hr)
  obtain ⟨cs, htext⟩ : ∃ cs, (quotedBytes bs).toList ++ rest = 'b' :: cs :=
    ⟨_, by rw [quotedBytes, String.toList_ofList]; rfl⟩
  apply Lexes.single
  intro fuel
  rw [htext] at h1 ⊢
  rw [lexRest_cons fuel p _ ⟨rfl, by decide, by decide, by decide⟩, h1]
  simp only [h2, countNewlines_eq_zero h3]
  exact .inr ⟨_, ⟨body, rfl, h4, h5⟩, rfl⟩

/-! ## Functions -/

theorem lexes_foreign (p p' : Place) (hd : d ≠ '<' ∧ d ≠ '=') (cs rest : List Char) :
    Lexes [.foreign] p ('<' :: d :: cs) p' rest := by
  have hfind : signs.find? (fun s => s.toList.isPrefixOf ('<' :: d :: cs)) = some "<" := by
    have h1 : ('<' == d) = false := by simp [Ne.symm hd.1]
    have h2 : ('=' == d) = false := by simp [Ne.symm hd.2]
    simp [signs, List.find?, List.isPrefixOf, h1, h2]
  intro fuel
  refine ⟨none, ?_, fun _ h => by cases h⟩
  cases fuel with
  | zero =>
    exact .broken
  | succ fuel =>
    rw [lexRest_cons fuel p _ ⟨rfl, by decide, by decide, by decide⟩,
      stringStart_none _ (by decide) (by decide), hfind]
    simp only [show isWordStart '<' = false from rfl, show '<'.isDigit = false from rfl, Bool.false_eq_true,
      ↓reduceIte, show ('<' == '.') = false from rfl, Bool.false_and, Bool.or_self,
      show bracketsAfter p.brackets "<" = some p.brackets from rfl]
    split
    · exact .broken
    · exact .foreign

/-! ## Texts of values -/

theorem stops_cons (h : c ∈ delimiters) (r : List Char) : Stops (c :: r) := ⟨c, r, rfl, h⟩

theorem lexes_comma (p : Place) (r : List Char) : Lexes [.sign ","] p (',' :: r) p r :=
  lexes_sign (c := ',') (by decide) p (fun h => absurd h (by decide)) rfl

theorem lexes_open (hc : c ∈ openSigns) (p : Place) (hd : d ≠ '=' ∧ d ≠ '>') (r : List Char) :
    Lexes [.sign (String.singleton c)] p (c :: d :: r) p (d :: r) := by
  have hs : c ∈ spellingSigns := by
    simp only [openSigns, List.mem_cons, List.not_mem_nil, or_false] at hc
    rcases hc with rfl | rfl | rfl | rfl <;> decide
  have hb : bracketsAfter p.brackets (String.singleton c) = some p.brackets := by
    simp only [openSigns, List.mem_cons, List.not_mem_nil, or_false] at hc
    rcases hc with rfl | rfl | rfl | rfl <;> rfl
  refine lexes_sign hs p (fun _ d' r' heq => ?_) hb
  cases heq
  exact hd

theorem lexes_brackets (hoc : (o, c) ∈ [('(', ')'), ('[', ']'), ('\x7b', '\x7d')])
    (p : Place) (rest : List Char) (h : ∀ p, Lexes ps p (cs ++ c :: rest) p (c :: rest)) :
    Lexes (.sign (String.singleton o) :: ps ++ [.sign (String.singleton c)]) p (o :: cs ++ c :: rest) p rest := by
  simp only [List.mem_cons, Prod.mk.injEq, List.not_mem_nil, or_false] at hoc
  have hopen : Lexes [.sign (String.singleton o)] p (o :: (cs ++ c :: rest))
      { p with brackets := o :: p.brackets } (cs ++ c :: rest) := by
    rcases hoc with ⟨rfl, rfl⟩ | ⟨rfl, rfl⟩ | ⟨rfl, rfl⟩ <;>
      exact lexes_sign (by decide) p (fun h => absurd h (by decide)) rfl
  have hclose : Lexes [.sign (String.singleton c)] { p with brackets := o :: p.brackets } (c :: rest) p rest := by
    rcases hoc with ⟨rfl, rfl⟩ | ⟨rfl, rfl⟩ | ⟨rfl, rfl⟩ <;>
      exact lexes_sign (by decide) { p with brackets := _ :: p.brackets } (fun h => absurd h (by decide)) rfl
  exact (hopen.append (h _)).append hclose

theorem isFinite_of_not (hn : isNaN x = false) (hi : isInf x = false) : isFinite x = true := by
  rw [Bool.eq_false_iff, Ne, isNaN_iff] at hn
  rw [Bool.eq_false_iff, Ne, isInf_iff] at hi
  rw [isFinite_iff]
  omega

theorem show_begins (l : Layout) (hn : isNaN x = false) (hs : isNegative x = false) :
    ∃ d ds, (l.show x).toList = d :: ds ∧ (d = 'i' ∨ d.isDigit = true) := by
  cases hi : isInf x with
  | true => exact ⟨'i', ['n', 'f'], by simp [Layout.show, hn, hi, hs], .inl rfl⟩
  | false =>
    obtain ⟨d, ds, hd, hdigit⟩ := show_head (l := l) (isFinite_of_not hn hi) hs
    exact ⟨d, ds, hd, .inr hdigit⟩

theorem show_eq (l : Layout) (hn : isNaN x = false) :
    l.show x = (if isNegative x then "-" else "") ++ l.show (absolute x) := by
  have hm := magnitude_absolute hn
  have hn' := isNaN_absolute hn
  have hi : isInf (absolute x) = isInf x := by rw [Bool.eq_iff_iff, isInf_iff, isInf_iff, hm]
  have hz : isZero (absolute x) = isZero x := by rw [Bool.eq_iff_iff, isZero_iff, isZero_iff, hm]
  have hs := isNegative_absolute hn
  have ha : absolute (absolute x) = absolute x := absolute_of_nonnegative hn' hs
  simp only [Layout.show, hn, hn', hi, hz, hs, ha, Bool.false_eq_true, ↓reduceIte, String.empty_append]
  cases isInf x with
  | true => rfl
  | false => cases isZero x <;> rfl

theorem show_first (l : Layout) (x : Float) : ∃ d ds, (l.show x).toList = d :: ds ∧ Begins d ∧ (d ≠ '=' ∧ d ≠ '>') ∧
    (isNegative x = true → isNaN x = false → d = '-') := by
  cases hn : isNaN x with
  | true =>
    exact ⟨'n', ['a', 'n'], by simp [Layout.show, hn], ⟨rfl, by decide⟩, by decide, fun _ h => by cases h⟩
  | false =>
    rw [show_eq l hn]
    cases hs : isNegative x with
    | true => exact ⟨'-', (l.show (absolute x)).toList, by simp, ⟨rfl, by decide⟩, by decide, fun _ _ => rfl⟩
    | false =>
      obtain ⟨d, ds, hd, hc⟩ := show_begins l (isNaN_absolute hn) (isNegative_absolute hn)
      refine ⟨d, ds, by simp [hd], ?_, ?_, fun h => by cases h⟩
      · rcases hc with rfl | hc
        · exact ⟨rfl, by decide⟩
        · exact (digit_facts hc).1
      · constructor <;> rintro rfl <;> exact absurd hc (by decide)

theorem lexes_show (suffix : String) (ok : Float → Value → Prop)
    (hnan : plainWord ("nan" ++ suffix) = true) (hinf : plainWord ("inf" ++ suffix) = true) (hr : Stops rest)
    (hnum : ∀ x, isFinite x = true → isNegative x = false →
      ∃ v, number ((l.show x).toList ++ (suffix.toList ++ rest)) = some (v, rest) ∧ ok x v)
    (p : Place) (x : Float) :
    Lexes (numberLexemes suffix ok x) p ((l.show x).toList ++ (suffix.toList ++ rest)) p rest := by
  cases hn : isNaN x with
  | true =>
    have htext : (l.show x).toList ++ (suffix.toList ++ rest) = ("nan" ++ suffix).toList ++ rest := by
      simp [Layout.show, hn]
    rw [htext, numberLexemes, if_pos hn]
    exact (spells_word hnan).lexes p hr
  | false =>
    have habs : Lexes [if isInf x then .word ("inf" ++ suffix) else .number (ok (absolute x))] p
        ((l.show (absolute x)).toList ++ (suffix.toList ++ rest)) p rest := by
      have hm := magnitude_absolute hn
      have hs := isNegative_absolute hn
      cases hi : isInf x with
      | true =>
        have hia : isInf (absolute x) = true := by rwa [isInf_iff, hm, ← isInf_iff]
        have hna := isNaN_absolute hn
        have htext : (l.show (absolute x)).toList ++ (suffix.toList ++ rest) = ("inf" ++ suffix).toList ++ rest := by
          simp [Layout.show, hna, hia, hs]
        rw [htext]
        exact (spells_word hinf).lexes p hr
      | false =>
        have hf : isFinite (absolute x) = true := by
          rw [isFinite_iff, hm, ← isFinite_iff]
          exact isFinite_of_not hn hi
        obtain ⟨v, hv, hok⟩ := hnum _ hf hs
        obtain ⟨d, ds, hd, hdigit⟩ := show_head (l := l) hf hs
        rw [← List.append_assoc] at hv ⊢
        exact lexes_number hok p ⟨d, _, by rw [hd, List.cons_append], hdigit⟩ hv
    rw [numberLexemes, hn, show_eq l hn]
    cases hs : isNegative x with
    | false =>
      exact habs
    | true =>
      simp only [Bool.false_eq_true, ↓reduceIte, String.toList_append]
      obtain ⟨d, ds, hd, -, hne, -⟩ := show_first l (absolute x)
      rw [hd, List.cons_append] at habs ⊢
      exact (lexes_open (c := '-') (by decide) p hne _).append habs

theorem repr_digits (k : Nat) : ∃ d ds, (Nat.repr k).toList = d :: ds ∧ ∀ c ∈ d :: ds, c.isDigit = true := by
  rw [Nat.repr_eq_ofList_toDigits, String.toList_ofList]
  cases hds : Nat.toDigits 10 k with
  | nil => exact absurd hds Nat.toDigits_ne_nil
  | cons d ds => exact ⟨d, ds, rfl, fun c hc => Nat.isDigit_of_mem_toDigits (by decide) (by decide) (hds ▸ hc)⟩

theorem spells_int (h : showInt n = .ok t) : SpellsValue (Value.int n).lexemes t := by
  simp only [showInt] at h
  split at h
  · cases h
  split at h
  · cases h
  case isFalse hlen =>
    cases h
    obtain ⟨d, ds, hd, hdigits⟩ := repr_digits n.natAbs
    have hdigit := hdigits d List.mem_cons_self
    have hv : Visible (Nat.repr n.natAbs).toList := fun c hc => isDigit_visible (hdigits c (hd ▸ hc))
    have hlex (ok : Value → Prop) (hok : ok (.int n.natAbs)) (p : Place) {rest : List Char} (hr : Stops rest) :=
      lexes_number hok p ⟨d, ds, hd, hdigit⟩ (number_repr (Nat.le_of_not_lt hlen) hr)
    rw [lexemes]
    split
    case isTrue hneg =>
      refine ⟨⟨fun p rest hr => ?_, ?_⟩, '-', (Nat.repr n.natAbs).toList, by simp, ⟨rfl, by decide⟩⟩
      · have hne : d ≠ '=' ∧ d ≠ '>' := by
          constructor <;> rintro rfl <;> exact absurd hdigit (by decide)
        have hsign := lexes_open (c := '-') (by decide) p hne (ds ++ rest)
        have := hlex (· = .int n.natAbs) rfl p hr
        rw [String.toList_append]
        rw [hd] at this ⊢
        exact hsign.append this
      · rw [String.toList_append]
        exact Visible.append (by simp [Visible]) hv
    case isFalse hpos =>
      have hlex := hlex (· = .int n) (by rw [Int.natAbs_of_nonneg (Int.not_lt.mp hpos)])
      exact ⟨⟨fun p _ hr => hlex p hr, hv⟩, d, ds, hd, (digit_facts hdigit).1⟩

theorem Written.visible {w : Written} (hw : w.Sound) : Visible w.text := by
  refine Visible.append (fun c hc => isDigit_visible (hw.whole c hc)) (Visible.append ?_ ?_)
  · rw [Written.fractionText]
    have hd := hw.fraction
    split
    case h_1 f hf =>
      rw [hf] at hd
      exact Visible.cons (by decide) fun c hc => isDigit_visible (hd c hc)
    case h_2 => simp [Visible]
  · rw [Written.exponentText]
    split
    case h_1 negative ds he =>
      refine Visible.cons (by decide) (Visible.cons ?_ fun c hc => isDigit_visible ((hw.exponent _ _ he).2 c hc))
      split <;> decide
    case h_2 => simp [Visible]

theorem visible_show (l : Layout) (x : Float) : Visible (l.show x).toList := by
  cases hn : isNaN x with
  | true =>
    have htext : l.show x = "nan" := by simp [Layout.show, hn]
    rw [htext]
    exact (spells_word (by decide)).visible
  | false =>
    have habs : Visible (l.show (absolute x)).toList := by
      cases hi : isInf (absolute x) with
      | true =>
        have htext : l.show (absolute x) = "inf" := by
          simp [Layout.show, isNaN_absolute hn, hi, isNegative_absolute hn]
        rw [htext]
        exact (spells_word (by decide)).visible
      | false =>
        obtain ⟨w, hw⟩ := written_shows l (isFinite_of_not (isNaN_absolute hn) hi) (isNegative_absolute hn)
        rw [hw.text]
        exact Written.visible hw.sound
    rw [show_eq l hn, String.toList_append]
    refine Visible.append ?_ habs
    split <;> simp [Visible]

theorem spells_float (x : Float) : SpellsValue (Value.float x).lexemes (showFloat x) := by
  obtain ⟨d, ds, hd, hb, -⟩ := show_first plainLayout x
  refine ⟨⟨fun p rest hr => ?_, visible_show plainLayout x⟩, d, ds, hd, hb⟩
  exact lexes_show "" (fun x v => v = .float x) (by decide) (by decide) hr
    (fun x hf hs => ⟨_, number_plain hf hs hr, rfl⟩) p x

theorem lexes_real (re : Float) (p : Place) (hr : Stops rest) :
    Lexes (numberLexemes "" RealPart re) p ((partLayout.show re).toList ++ rest) p rest :=
  lexes_show "" RealPart (by decide) (by decide) hr (fun x hf hs => number_real_part hf hs hr) p re

theorem lexes_imaginary (im : Float) (p : Place) (hr : Stops rest) :
    Lexes (numberLexemes "j" (fun x v => v = .complex 0.0 x) im) p ((partLayout.show im).toList ++ 'j' :: rest) p
      rest :=
  lexes_show "j" (fun x v => v = .complex 0.0 x) (by decide) (by decide) hr
    (fun x hf hs => ⟨_, number_imaginary_part hf hs hr, rfl⟩) p im

theorem visible_complex (re im : Float) : Visible (showComplex re im).toList := by
  have hre := visible_show partLayout re
  have him := visible_show partLayout im
  rw [showComplex]
  split
  · rw [String.toList_append]
    exact him.append (by simp [Visible])
  · simp only [String.toList_append]
    refine ((((Visible.append ?_ hre).append ?_).append him).append ?_)
    · simp [Visible]
    · split <;> simp [Visible]
    · simp [Visible]

theorem complex_first (re im : Float) : ∃ c cs, (showComplex re im).toList = c :: cs ∧ Begins c := by
  rw [showComplex]
  split
  · obtain ⟨d, ds, hd, hb, -⟩ := show_first partLayout im
    exact ⟨d, ds ++ ['j'], by simp [hd], hb⟩
  · exact ⟨'(', _, by simp only [String.toList_append, List.append_assoc]; rfl, ⟨rfl, by decide⟩⟩

theorem spells_complex (re im : Float) : SpellsValue (Value.complex re im).lexemes (showComplex re im) := by
  refine ⟨⟨fun p rest hr => ?_, visible_complex re im⟩, complex_first re im⟩
  rw [lexemes, complexLexemes, showComplex]
  split
  case isTrue =>
    rw [String.toList_append, List.append_assoc]
    exact lexes_imaginary im p hr
  case isFalse =>
    obtain ⟨d, ds, hd, -, hne, h3⟩ := show_first partLayout im
    have hsum (p : Place) : Lexes (numberLexemes "" RealPart re ++
        ((if isNaN im || !isNegative im then [.sign "+"] else []) ++
          numberLexemes "j" (fun x v => v = .complex 0.0 x) im)) p
        ((partLayout.show re).toList ++ (if isNaN im || !isNegative im then "+" else "").toList ++
          (partLayout.show im).toList ++ ['j'] ++ ')' :: rest) p (')' :: rest) := by
      have him := lexes_imaginary im p (stops_cons (by decide : ')' ∈ delimiters) rest)
      rw [hd] at him
      split
      case isTrue hsign =>
        have hplus := lexes_open (c := '+') (by decide) p hne (ds ++ 'j' :: ')' :: rest)
        have hre := lexes_real re p (stops_cons (by decide : '+' ∈ delimiters) (d :: ds ++ 'j' :: ')' :: rest))
        have := hre.append (hplus.append him)
        rw [hd]
        simpa using this
      case isFalse hsign =>
        simp only [Bool.or_eq_true, Bool.not_eq_true', not_or, Bool.not_eq_true, Bool.not_eq_false] at hsign
        obtain rfl := h3 hsign.2 hsign.1
        have hre := lexes_real re p (stops_cons (by decide : '-' ∈ delimiters) (ds ++ 'j' :: ')' :: rest))
        have := hre.append him
        rw [hd]
        simpa using this
    have := lexes_brackets (o := '(') (by decide) p rest hsum
    simpa using this

theorem spells_separated (s sep : String) (hstop : ∀ rest, Stops (sep.toList ++ rest)) (hv : Visible sep.toList)
    (hsep : ∀ {ps p p' cs rest}, Lexes ps p cs p' rest → Lexes (.sign s :: ps) p (sep.toList ++ cs) p' rest)
    (h : List.Forall₂ Spells pss ts) :
    Spells (separated s pss) (sep.intercalate ts) := by
  induction h with
  | nil => exact ⟨fun p _ _ => Lexes.nil p _, by simp [Visible]⟩
  | @cons ps t pss ts hhead htail ih =>
    cases htail with
    | nil =>
      exact hhead
    | cons hnext hrest =>
      rw [separated, String.intercalate_cons_cons]
      · constructor
        · intro p rest hr
          rw [String.toList_append, String.toList_append, List.append_assoc, List.append_assoc]
          exact (hhead.lexes p (hstop _)).append (hsep (ih.lexes p hr))
        · rw [String.toList_append, String.toList_append]
          exact (hhead.visible.append hv).append ih.visible
      · simp

theorem spells_commas (h : List.Forall₂ Spells pss ts) :
    Spells (separated "," pss) (", ".intercalate ts) :=
  spells_separated "," ", " (fun rest => stops_cons (by decide : ',' ∈ delimiters) (' ' :: rest))
    (by simp [Visible]) (fun {_ p _ cs _} h => (lexes_comma p (' ' :: cs)).append h.blank) h

theorem spells_choice {names : List String} (h : ∀ n ∈ names, plainWord n = true) :
    Spells (separated "|" (names.map fun n => [.word n])) (" | ".intercalate names) := by
  refine spells_separated "|" " | " (fun rest => stops_cons (by decide : ' ' ∈ delimiters) ('|' :: ' ' :: rest))
    (by simp [Visible]) (fun {_ p _ cs _} h => ?_) ?_
  · exact ((lexes_open (c := '|') (by decide) p (d := ' ') (by decide) cs).append h.blank).blank
  · induction names with
    | nil => exact .nil
    | cons n names ih => exact .cons (spells_word (h n (by simp))).toSpells (ih fun m hm => h m (by simp [hm]))

theorem plainWord_of_choice {n : String} (h : choiceNames.contains n = true) : plainWord n = true := by
  have hall : choiceNames.all plainWord = true := by decide +kernel
  exact List.all_eq_true.mp hall n (by simpa using h)

theorem spells_brackets (hoc : (o, c) ∈ [('(', ')'), ('[', ']'), ('\x7b', '\x7d')])
    (h : Spells ps t) :
    SpellsValue (.sign (String.singleton o) :: ps ++ [.sign (String.singleton c)])
      (String.singleton o ++ t ++ String.singleton c) := by
  have hc : c ∈ delimiters ∧ 0x20 ≤ o.toNat ∧ 0x20 ≤ c.toNat ∧ Begins o := by
    simp only [List.mem_cons, Prod.mk.injEq, List.not_mem_nil, or_false] at hoc
    rcases hoc with ⟨rfl, rfl⟩ | ⟨rfl, rfl⟩ | ⟨rfl, rfl⟩ <;> exact ⟨by decide, by decide, by decide, rfl, by decide⟩
  refine ⟨⟨fun p rest hr => ?_, ?_⟩, o, t.toList ++ [c], by simp, hc.2.2.2⟩
  · have := lexes_brackets hoc p rest fun p => h.lexes p (stops_cons hc.1 rest)
    simpa using this
  · simp only [String.toList_append, String.toList_singleton, List.cons_append]
    exact Visible.cons hc.2.1 (h.visible.append (Visible.cons hc.2.2.1 (by simp [Visible])))

theorem spells_call (hw : plainWord w = true) (h : Spells ps t) :
    SpellsValue (.word w :: .sign "(" :: ps ++ [.sign ")"]) (w ++ "(" ++ t ++ ")") := by
  have hargs := spells_brackets (o := '(') (c := ')') (by decide) h
  obtain ⟨c, cs, hcs, hc⟩ := (spells_word hw).first
  refine ⟨⟨fun p rest hr => ?_, ?_⟩, c, cs ++ '(' :: t.toList ++ [')'], by simp [hcs], hc⟩
  · have hword := (spells_word hw).lexes p (stops_cons (by decide : '(' ∈ delimiters) (t.toList ++ ')' :: rest))
    have hargs := hargs.lexes p hr
    simp only [String.toList_append, List.append_assoc] at hargs ⊢
    exact hword.append hargs
  · have := (spells_word hw).visible.append hargs.visible
    simpa using this

theorem spells_single (h : Spells ps t) :
    SpellsValue (.sign "(" :: ps ++ [.sign ",", .sign ")"]) ("(" ++ t ++ ",)") := by
  have hbody : Spells (ps ++ [.sign ","]) (t ++ ",") := by
    constructor
    · intro p rest hr
      rw [String.toList_append, List.append_assoc]
      exact (h.lexes p (stops_cons (by decide : ',' ∈ delimiters) rest)).append (lexes_comma p rest)
    · rw [String.toList_append]
      exact h.visible.append (by simp [Visible])
  have := spells_brackets (o := '(') (c := ')') (by decide) hbody
  have htext : "(" ++ t ++ ",)" = String.singleton '(' ++ (t ++ ",") ++ String.singleton ')' := by
    apply String.toList_injective
    simp
  rw [htext]
  simpa using this

theorem spells_entry {qs : List Lexeme} {k v : String} (hk : Spells ps k) (hv : Spells qs v) :
    Spells (ps ++ .sign ":" :: qs) (k ++ ": " ++ v) := by
  constructor
  · intro p rest hr
    have hcolon := lexes_open (c := ':') (by decide) p (d := ' ') (by decide) (v.toList ++ rest)
    have := (hk.lexes p (stops_cons (by decide : ':' ∈ delimiters) (' ' :: (v.toList ++ rest)))).append
      (hcolon.append (hv.lexes p hr).blank)
    simpa using this
  · rw [String.toList_append, String.toList_append]
    exact (hk.visible.append (by simp [Visible])).append hv.visible

theorem spells_foreign (ht : t.toList = '<' :: d :: cs)
    (hd : d ≠ '<' ∧ d ≠ '=') (hv : Visible t.toList) : SpellsValue [.foreign] t :=
  ⟨⟨fun p rest _ => by rw [ht]; exact lexes_foreign p p hd _ rest, hv⟩, '<', _, ht, rfl, by decide⟩

theorem spells_builtin {name : String} (hv : Visible name.toList) :
    SpellsValue (Value.builtin name).lexemes (Value.showBuiltin name) := by
  rw [lexemes, Value.showBuiltin]
  split
  · refine spells_foreign (d := 'c') (by simp only [toString, String.toList_append]; rfl) (by decide) ?_
    simp only [toString, String.toList_append]
    exact Visible.append (Visible.append (by simp [Visible]) hv) (by simp [Visible])
  · refine spells_foreign (d := 'b') (by simp only [toString, String.toList_append]; rfl) (by decide) ?_
    simp only [toString, String.toList_append]
    exact Visible.append (Visible.append (by simp [Visible]) hv) (by simp [Visible])

mutual

theorem spells_repr : (v : Value) → v.proper = true → {t : String} → v.repr = .ok t → SpellsValue v.lexemes t
  | .none, _, _, ht => by
    cases ht
    exact spells_word (by decide)
  | .ellipsis, _, _, ht => by
    cases ht
    exact spells_word (by decide)
  | .notImplemented, _, _, ht => by
    cases ht
    exact spells_word (by decide)
  | .bool b, _, _, ht => by
    cases ht
    exact spells_word (by cases b <;> decide)
  | .int n, _, _, ht => spells_int ht
  | .float x, _, _, ht => by
    cases ht
    exact spells_float x
  | .complex re im, _, _, ht => by
    cases ht
    exact spells_complex re im
  | .str s, hv, _, ht => by
    cases ht
    simp only [proper, List.all_eq_true, decide_eq_true_eq] at hv
    exact ⟨⟨fun p _ hr => lexes_text hv p hr, Text.visible_quoted hv⟩, _, _, String.toList_ofList,
      begins_of_isQuote (Text.isQuote_of_quote (Text.quoteFor_cases s))⟩
  | .bytes bs, hv, _, ht => by
    cases ht
    simp only [proper, List.all_eq_true, decide_eq_true_eq] at hv
    exact ⟨⟨fun p _ hr => lexes_bytes hv p hr, Text.visible_quotedBytes hv⟩, _, _, String.toList_ofList, rfl, by decide⟩
  | .tuple [], _, _, ht => by
    cases ht
    exact spells_brackets (o := '(') (c := ')') (by decide) (spells_commas .nil)
  | .tuple [x], hv, _, ht => by
    obtain ⟨t, hx, ⟨⟩⟩ := bind_eq_ok.mp ht
    simp only [proper, properAll, Bool.and_true] at hv
    exact spells_single (spells_repr x hv hx).toSpells
  | .tuple (x :: y :: xs), hv, _, ht => by
    obtain ⟨ts, hxs, ⟨⟩⟩ := bind_eq_ok.mp ht
    exact spells_brackets (o := '(') (c := ')') (by decide) (spells_commas (spells_reprAll (x :: y :: xs) hv hxs))
  | .list xs, hv, _, ht => by
    obtain ⟨ts, hxs, ⟨⟩⟩ := bind_eq_ok.mp ht
    exact spells_brackets (o := '[') (c := ']') (by decide) (spells_commas (spells_reprAll xs hv hxs))
  | .setOf [], _, _, ht => by
    cases ht
    exact spells_call (w := "set") (by decide) (spells_commas .nil)
  | .setOf (x :: xs), hv, _, ht => by
    obtain ⟨ts, hxs, ⟨⟩⟩ := bind_eq_ok.mp ht
    simp only [proper, Bool.and_eq_true] at hv
    exact spells_brackets (o := '\x7b') (c := '\x7d') (by decide)
      (spells_commas (spells_reprAll (x :: xs) hv.1.1 hxs))
  | .frozen [], _, _, ht => by
    cases ht
    exact spells_call (w := "frozenset") (by decide) (spells_commas .nil)
  | .frozen (x :: xs), hv, _, ht => by
    obtain ⟨ts, hxs, ⟨⟩⟩ := bind_eq_ok.mp ht
    simp only [proper, Bool.and_eq_true] at hv
    have hset := spells_brackets (o := '\x7b') (c := '\x7d') (by decide)
      (spells_commas (spells_reprAll (x :: xs) hv.1.1 hxs))
    have hcall := spells_call (w := "frozenset") (by decide) hset.toSpells
    have htext : "frozenset(\x7b" ++ ", ".intercalate ts ++ "\x7d)" =
        "frozenset" ++ "(" ++ (String.singleton '\x7b' ++ ", ".intercalate ts ++ String.singleton '\x7d') ++ ")" := by
      rw [show "frozenset(\x7b" = "frozenset" ++ "(" ++ String.singleton '\x7b' from rfl,
        show "\x7d)" = String.singleton '\x7d' ++ ")" from rfl]
      simp only [String.append_assoc]
    rw [htext]
    simpa [lexemes] using hcall
  | .dict kvs, hv, _, ht => by
    obtain ⟨ts, hxs, ⟨⟩⟩ := bind_eq_ok.mp ht
    simp only [proper, Bool.and_eq_true] at hv
    exact spells_brackets (o := '\x7b') (c := '\x7d') (by decide) (spells_commas (spells_reprPairs kvs hv.1.1 hxs))
  | .union names, hv, _, ht => by
    cases ht
    simp only [proper, Bool.and_eq_true, decide_eq_true_eq, List.all_eq_true] at hv
    have hall := fun n hn => plainWord_of_choice (hv.2 n hn)
    refine ⟨spells_choice hall, ?_⟩
    match names, hv with
    | n :: m :: names, _ =>
      obtain ⟨c, cs, hc, hb⟩ := (spells_word (hall n (by simp))).first
      rw [String.intercalate_cons_cons, String.toList_append, String.toList_append, hc]
      exact ⟨c, _, rfl, hb⟩
  | .builtin name, hv, _, ht => by
    cases ht
    simp only [proper, List.all_eq_true, decide_eq_true_eq] at hv
    exact spells_builtin hv
  | .method _, _, _, ht => by
    cases ht
    exact spells_foreign (d := 'b') rfl (by decide) (by simp [Visible, Value.showMethod])

theorem spells_reprAll : (xs : List Value) → properAll xs = true → {ts : List String} →
    Value.reprAll xs = .ok ts → List.Forall₂ Spells (Value.lexemesAll xs) ts
  | [], _, _, ht => by
    cases ht
    exact .nil
  | x :: xs, hv, _, ht => by
    obtain ⟨t, hx, ht⟩ := bind_eq_ok.mp ht
    obtain ⟨ts, hxs, ⟨⟩⟩ := bind_eq_ok.mp ht
    simp only [properAll, Bool.and_eq_true] at hv
    exact .cons (spells_repr x hv.1 hx).toSpells (spells_reprAll xs hv.2 hxs)

theorem spells_reprPairs : (kvs : List (Value × Value)) → properPairs kvs = true → {ts : List String} →
    Value.reprPairs kvs = .ok ts → List.Forall₂ Spells (Value.lexemesPairs kvs) ts
  | [], _, _, ht => by
    cases ht
    exact .nil
  | (k, v) :: kvs, hv, _, ht => by
    obtain ⟨a, hk, ht⟩ := bind_eq_ok.mp ht
    obtain ⟨b, hval, ht⟩ := bind_eq_ok.mp ht
    obtain ⟨ts, hkvs, ⟨⟩⟩ := bind_eq_ok.mp ht
    simp only [properPairs, Bool.and_eq_true] at hv
    exact .cons (spells_entry (spells_repr k hv.1.1 hk).toSpells (spells_repr v hv.1.2 hval).toSpells)
      (spells_reprPairs kvs hv.2 hkvs)

end

/-! ## Whole texts -/

theorem unifyNewlines_of_visible (h : Visible cs) : unifyNewlines cs = cs := by
  induction cs with
  | nil => rfl
  | cons c cs ih =>
    have hc := h c List.mem_cons_self
    rw [unifyNewlines, ih fun d hd => h d (List.mem_cons_of_mem _ hd)]
    · rintro d rfl
      exact absurd hc (by decide)
    · rintro rfl
      exact absurd hc (by decide)

theorem measure_begins (hc : Begins c) (cs : List Char) :
    Token.measure 0 0 none 0 (c :: cs) = (0, 0, 0, c :: cs) := by
  have hblank (d : Char) (hd : isBlankChar d = true ∨ d = '\\') (ds : List Char) : c :: cs = d :: ds → False := by
    intro heq
    cases heq
    rcases hd with hd | rfl
    · rw [hc.1] at hd
      cases hd
    · exact hc.2.2.2 rfl
  rw [Token.measure]
  · simp
  · exact fun ds => hblank ' ' (.inl rfl) ds
  · exact fun ds => hblank '\t' (.inl rfl) ds
  · exact fun ds => hblank '\x0c' (.inl rfl) ds
  · exact fun ds => hblank '\\' (.inr rfl) _

theorem lexLine_begins (fuel line : Nat) (hc : Begins c) (cs : List Char) :
    lexLine (fuel + 1) ⟨line, [], [(0, 0)]⟩ (c :: cs) = lexRest fuel ⟨line, [], [(0, 0)]⟩ (c :: cs) := by
  rw [lexLine, measure_begins hc]
  simp only [Nat.add_zero]
  split
  · cases ‹c :: cs = []›
  · exact absurd (List.cons.inj ‹c :: cs = _›).1 hc.2.2.1
  · exact absurd (List.cons.inj ‹c :: cs = _›).1 hc.2.1
  · rfl

theorem follows_scan (hv : v.proper = true) (ht : v.repr = .ok t) :
    ∃ st, Follows v.lexemes (scanFrom 1 t.toList) st ∧
      ∀ ts, st = some ts → ∃ k l ts', ts = ⟨k, l⟩ :: ts' ∧ (k = .newline ∨ ∃ cause, k = .bad cause) := by
  obtain ⟨⟨hlex, hvis⟩, c, cs, hc, hb⟩ := spells_repr v hv ht
  have hend : endWithNewline t.toList = t.toList ++ ['\n'] := by
    have hlast : t.toList.getLast? ≠ some '\n' := fun h => hvis.newline (List.mem_of_getLast? h)
    rw [endWithNewline, if_neg]
    simp [hlast, String.toList_eq_nil_iff, show t ≠ "" by rintro rfl; cases hc]
  have hzero : (t.toList ++ ['\n']).contains '\x00' = false := by
    rw [Bool.eq_false_iff, Ne, List.contains_iff_mem, List.mem_append]
    rintro (h | h)
    · exact absurd (hvis _ h) (by decide)
    · exact absurd h (by decide)
  have htext : t.toList ++ ['\n'] = c :: (cs ++ ['\n']) := by rw [hc, List.cons_append]
  have hscan : ∃ fuel, scanFrom 1 t.toList = lexRest fuel ⟨1, [], [(0, 0)]⟩ (t.toList ++ ['\n']) := by
    simp only [scanFrom, unifyNewlines_of_visible hvis, hend, hzero, Bool.false_eq_true, ↓reduceIte]
    exact ⟨2 * (t.toList ++ ['\n']).length + 1, by rw [htext, lexLine_begins _ _ hb]⟩
  obtain ⟨fuel, hscan⟩ := hscan
  obtain ⟨st, hst, hrest⟩ := hlex ⟨1, [], [(0, 0)]⟩ (stops_cons (by decide : '\n' ∈ delimiters) []) fuel
  refine ⟨st, hscan ▸ hst, fun ts hts => ?_⟩
  obtain ⟨fuel', rfl⟩ := hrest ts hts
  cases fuel' with
  | zero => exact ⟨_, _, _, by rw [lexRest], .inr ⟨_, rfl⟩⟩
  | succ fuel' => exact ⟨_, _, _, rfl, .inl rfl⟩

end SourceOptimizer
