import SourceOptimizer.Grammar.FormattedText
import Mathlib

/-! Texts and byte strings as literals. A literal ends at its own quote, since every other quote of its kind
stands after a backslash, and its escapes give back what it was written from. -/
namespace SourceOptimizer.Text
open Grammar
open Token (isQuote oneLineString quotedBody stringStart)

variable {width c d n code : Nat} {as bs cs rest : List Char} {bytes : Bool} {f : Nat → List Char} {s : Text}

/-! ## Printable characters -/

theorem runBetween_spec {runs : Array Nat} (fuel : Nat) {lo hi i : Nat}
    (h : runBetween width runs c fuel lo hi = some i) :
    i < hi ∧ runs.getD (width * i) 0 ≤ c ∧ c ≤ runs.getD (width * i + 1) 0 := by
  induction fuel generalizing lo hi with
  | zero => cases h
  | succ fuel ih =>
    rw [runBetween] at h
    split at h
    case isFalse => cases h
    case isTrue hlt =>
      dsimp only at h
      split at h
      case isTrue =>
        obtain ⟨h1, h2⟩ := ih h
        exact ⟨by omega, h2⟩
      case isFalse hc =>
        split at h
        case isTrue => exact ih h
        case isFalse hc' =>
          cases h
          exact ⟨by omega, by omega, by omega⟩

def runsValid : List Nat → Bool
  | first :: last :: rest => (last < 0xd800 || 0xdfff < first) && last < 0x110000 && runsValid rest
  | _ => true

theorem getD_of_runsValid {runs : List Nat} (h : runsValid runs = true) (i : Nat) (hi : 2 * i + 1 < runs.length) :
    (runs.getD (2 * i + 1) 0 < 0xd800 ∨ 0xdfff < runs.getD (2 * i) 0) ∧ runs.getD (2 * i + 1) 0 < 0x110000 := by
  induction i generalizing runs with
  | zero =>
    match runs, hi with
    | first :: last :: rest, _ =>
      simp only [runsValid, Bool.and_eq_true, Bool.or_eq_true, decide_eq_true_eq] at h
      exact h.1
  | succ i ih =>
    match runs, hi with
    | first :: last :: rest, hi =>
      simp only [runsValid, Bool.and_eq_true] at h
      have hlen : 2 * i + 1 < rest.length := by
        simp only [List.length_cons] at hi
        omega
      exact ih h.2 hlen

theorem runsValid_printableRuns : runsValid printableRuns.toList = true := by decide +kernel

theorem isPrintable_spec (h : isPrintable c = true) : 0x20 ≤ c ∧ c.isValidChar := by
  rw [isPrintable] at h
  split at h
  case isTrue hlt =>
    have hge : 0x20 ≤ c := by simpa using h
    exact ⟨hge, .inl (by omega)⟩
  case isFalse hge =>
    rw [inRuns, Option.isSome_iff_exists] at h
    obtain ⟨i, hi⟩ := h
    obtain ⟨h1, h2, h3⟩ := runBetween_spec _ hi
    have ht := getD_of_runsValid runsValid_printableRuns i (by rw [Array.length_toList]; omega)
    simp only [Array.getD_eq_getD_getElem?, ← Array.getElem?_toList, ← List.getD_eq_getElem?_getD] at h2 h3
    refine ⟨by omega, ?_⟩
    rcases ht.1 with h | h
    · exact .inl (by omega)
    · exact .inr ⟨by omega, by omega⟩

theorem toNat_ofNat (h : c.isValidChar) : (Char.ofNat c).toNat = c := by
  rw [Char.ofNat, dif_pos h]
  rfl

/-! ## Hexadecimal digits -/

theorem hexValue?_hexDigit (h : d < 16) : hexValue? (hexDigit d) = some d := by
  have all : ∀ d : Fin 16, hexValue? (hexDigit d) = some d.val := by decide
  exact all ⟨d, h⟩

theorem hexDigit_plain (h : d < 16) :
    hexDigit d ≠ '\\' ∧ 0x20 ≤ (hexDigit d).toNat ∧ hexDigit d ≠ '\'' ∧ hexDigit d ≠ '"' ∧ (hexDigit d).toNat < 0x80 := by
  have all : ∀ d : Fin 16, hexDigit d ≠ '\\' ∧ 0x20 ≤ (hexDigit d).toNat ∧ hexDigit d ≠ '\'' ∧ hexDigit d ≠ '"' ∧
      (hexDigit d).toNat < 0x80 := by decide
  exact all ⟨d, h⟩

theorem hexPadded_succ (width n : Nat) : hexPadded (width + 1) n = hexPadded width (n / 16) ++ [hexDigit (n % 16)] := by
  simp only [hexPadded, List.range_succ_eq_map, List.reverse_cons, List.map_append, List.map_map, List.map_cons,
    List.map_nil, Nat.pow_eq, ← List.map_reverse]
  congr 1
  · apply List.map_congr_left
    intro i _
    simp only [Function.comp, Nat.pow_succ, Nat.div_div_eq_div_mul, Nat.mul_comm]
  · simp

theorem length_hexPadded (width n : Nat) : (hexPadded width n).length = width := by simp [hexPadded]

theorem mem_hexPadded {c : Char} (h : c ∈ hexPadded width n) : ∃ d < 16, c = hexDigit d := by
  obtain ⟨i, -, rfl⟩ := List.mem_map.mp h
  exact ⟨_, Nat.mod_lt _ (by decide), rfl⟩

theorem foldlM_hexPadded (width n : Nat) :
    (hexPadded width n).foldlM (fun n c => (hexValue? c).map (n * 16 + ·)) 0 = some (n % 16 ^ width) := by
  induction width generalizing n with
  | zero => simp [hexPadded, Nat.mod_one]
  | succ width ih =>
    rw [hexPadded_succ, List.foldlM_append, ih]
    simp only [Option.bind_eq_bind, Option.bind_some, List.foldlM_cons, List.foldlM_nil,
      hexValue?_hexDigit (Nat.mod_lt n (by decide : 0 < 16)), Option.map_some]
    congr 1
    rw [Nat.pow_succ, Nat.mul_comm (16 ^ width) 16, Nat.mod_mul]
    omega

theorem hexNumber?_hexPadded (h : n < 16 ^ width) (tail : List Char) :
    hexNumber? width (hexPadded width n ++ tail) = some n := by
  have ht : (hexPadded width n ++ tail).take width = hexPadded width n := by
    rw [List.take_append_of_le_length (Nat.le_of_eq (length_hexPadded width n).symm),
      List.take_of_length_le (Nat.le_of_eq (length_hexPadded width n))]
  rw [hexNumber?, ht]
  simp only [length_hexPadded, Nat.lt_irrefl, ↓reduceIte, foldlM_hexPadded, Nat.mod_eq_of_lt h]

/-! ## Pieces of literals -/

def Visible (cs : List Char) : Prop := ∀ c ∈ cs, 0x20 ≤ c.toNat

theorem Visible.append (ha : Visible as) (hb : Visible bs) : Visible (as ++ bs) := by
  intro c hc
  rcases List.mem_append.mp hc with hc | hc
  · exact ha c hc
  · exact hb c hc

theorem Visible.cons {a : Char} (ha : 0x20 ≤ a.toNat) (hb : Visible bs) : Visible (a :: bs) := by
  intro c hc
  rcases List.mem_cons.mp hc with rfl | hc
  · exact ha
  · exact hb c hc

theorem Visible.newline (h : Visible cs) : '\n' ∉ cs := fun hc => absurd (h _ hc) (by decide)

/-- A piece of the body of a literal in quotes `q`: it ends neither the literal nor the line, and it stands for
`codes`. -/
structure Piece (q : Char) (bytes : Bool) (cs : List Char) (codes : List Nat) : Prop where
  inert : ∀ tail, Token.oneLineString q (cs ++ tail) = (Token.oneLineString q tail).map fun (b, r) => (cs ++ b, r)
  reads : ∀ tail, Grammar.unescapeWith bytes 0 (cs ++ tail) = (Grammar.unescapeWith bytes 0 tail).map (codes ++ ·)
  visible : Visible cs

theorem letterEscape?_visible {e : Char} (h : letterEscape? e = some code) : 0x20 ≤ e.toNat ∧ e.toNat < 0x80 := by
  unfold letterEscape? at h
  split at h <;> first | decide | cases h

theorem escapeHidden_cases (c : Nat) :
    (∃ e, letterEscape? e = some c ∧ escapeHidden c = ['\\', e]) ∨ escapeHidden c = escapeNumber c := by
  unfold escapeHidden
  split
  next h => exact .inl ⟨_, by rw [beq_iff_eq.mp h]; rfl, rfl⟩
  · split
    next h => exact .inl ⟨_, by rw [beq_iff_eq.mp h]; rfl, rfl⟩
    · split
      next h => exact .inl ⟨_, by rw [beq_iff_eq.mp h]; rfl, rfl⟩
      · exact .inr rfl

namespace Piece

theorem nil (q : Char) (bytes : Bool) : Piece q bytes [] [] := by
  constructor <;> simp [Visible]

theorem append {q : Char} {xs ys : List Nat} (ha : Piece q bytes as xs)
    (hb : Piece q bytes bs ys) : Piece q bytes (as ++ bs) (xs ++ ys) := by
  constructor
  · intro tail
    rw [List.append_assoc, ha.inert, hb.inert, Option.map_map]
    simp [Function.comp_def]
  · intro tail
    rw [List.append_assoc, ha.reads, hb.reads, Option.map_map]
    simp [Function.comp_def]
  · exact ha.visible.append hb.visible

theorem flatMap {q : Char} {s : List Nat}
    (h : ∀ c ∈ s, Piece q bytes (f c) [c]) : Piece q bytes (s.flatMap f) s := by
  induction s with
  | nil => exact nil q bytes
  | cons c s ih =>
    exact append (h c List.mem_cons_self) (ih fun c hc => h c (List.mem_cons_of_mem _ hc))

theorem char {q : Char} (bytes : Bool) {c : Char} (h1 : c ≠ '\\') (h2 : 0x20 ≤ c.toNat) (h3 : c ≠ q) :
    Piece q bytes [c] [c.toNat] := by
  constructor
  · intro tail
    rw [List.singleton_append, Token.oneLineString.eq_4]
    · simp [h3]
    · rintro rfl
      exact absurd h2 (by decide)
    · rintro c' cs rfl
      exact absurd rfl h1
  · intro tail
    rw [List.singleton_append, unescapeWith.eq_5]
    · simp
    · rintro rfl
      exact absurd rfl h1
    · rintro c' cs rfl
      exact absurd rfl h1
  · exact Visible.cons h2 (by simp [Visible])

theorem escape {q : Char} (bytes : Bool) {c : Char}
    (hc : 0x20 ≤ c.toNat) (hcs : ∀ d ∈ cs, d ≠ '\\' ∧ 0x20 ≤ d.toNat ∧ d ≠ q)
    (h : ∀ tail, escapeOf bytes c (cs ++ tail) = some ([code], cs.length + 1)) :
    Piece q bytes ('\\' :: c :: cs) [code] := by
  constructor
  · intro tail
    have hin : ∀ ds : List Char, (∀ d ∈ ds, d ≠ '\\' ∧ 0x20 ≤ d.toNat ∧ d ≠ q) →
        oneLineString q (ds ++ tail) = (oneLineString q tail).map fun (b, r) => (ds ++ b, r) := by
      intro ds hds
      induction ds with
      | nil => simp
      | cons d ds ih =>
        obtain ⟨h1, h2, h3⟩ := hds d List.mem_cons_self
        have hd := (char (q := q) bytes h1 h2 h3).inert (ds ++ tail)
        rw [List.singleton_append] at hd
        rw [List.cons_append, hd, ih fun d hd => hds d (List.mem_cons_of_mem _ hd), Option.map_map]
        simp [Function.comp_def]
    show oneLineString q ('\\' :: c :: (cs ++ tail)) = _
    rw [oneLineString, hin cs hcs, Option.map_map]
    simp [Function.comp_def]
  · intro tail
    have hskip : ∀ (ds : List Char) (n : Nat), ds.length = n →
        unescapeWith bytes n (ds ++ tail) = unescapeWith bytes 0 tail := by
      intro ds
      induction ds with
      | nil => rintro n rfl; rfl
      | cons d ds ih =>
        rintro n rfl
        rw [List.length_cons, List.cons_append]
        exact ih _ rfl
    show unescapeWith bytes 0 ('\\' :: c :: (cs ++ tail)) = _
    rw [unescapeWith, h]
    simp only [Option.bind_eq_bind, Option.bind_some]
    have := hskip (c :: cs) (cs.length + 1) rfl
    rw [List.cons_append] at this
    rw [this]
    cases unescapeWith bytes 0 tail <;> rfl
  · exact Visible.cons (by decide) (Visible.cons hc fun d hd => (hcs d hd).2.1)

theorem hexPadded_plain {q : Char} (hq : q = '\'' ∨ q = '"') :
    ∀ d ∈ hexPadded width n, d ≠ '\\' ∧ 0x20 ≤ d.toNat ∧ d ≠ q := by
  intro d hd
  obtain ⟨k, hk, rfl⟩ := mem_hexPadded hd
  obtain ⟨h1, h2, h3, h4, -⟩ := hexDigit_plain hk
  rcases hq with rfl | rfl
  · exact ⟨h1, h2, h3⟩
  · exact ⟨h1, h2, h4⟩

theorem number {q : Char} (hq : q = '\'' ∨ q = '"') (hc : c < 0x110000)
    (hb : bytes = true → c < 0x100) : Piece q bytes (escapeNumber c) [c] := by
  rw [escapeNumber]
  split
  case isTrue h =>
    refine escape bytes (by decide) (hexPadded_plain hq) fun tail => ?_
    simp [escapeOf, letterEscape?, isOctal, length_hexPadded,
      hexNumber?_hexPadded (show c < 16 ^ 2 by omega)]
  case isFalse h =>
    have hbytes : bytes = false := by
      cases bytes with
      | true => exact absurd (hb rfl) h
      | false => rfl
    subst hbytes
    split
    case isTrue h' =>
      refine escape false (by decide) (hexPadded_plain hq) fun tail => ?_
      simp [escapeOf, letterEscape?, isOctal, length_hexPadded,
        hexNumber?_hexPadded (show c < 16 ^ 4 by omega)]
    case isFalse h' =>
      refine escape false (by decide) (hexPadded_plain hq) fun tail => ?_
      simp [escapeOf, letterEscape?, isOctal, length_hexPadded,
        hexNumber?_hexPadded (show c < 16 ^ 8 by omega), hc]

theorem letter {q c : Char} (bytes : Bool) (h : letterEscape? c = some code) :
    Piece q bytes ['\\', c] [code] := by
  have hn : c ≠ '\n' := by
    rintro rfl
    cases h
  refine escape bytes (letterEscape?_visible h).1 (by simp) fun tail => ?_
  simp [escapeOf, hn, h]

theorem hidden {q : Char} (hq : q = '\'' ∨ q = '"') (hc : c < 0x110000)
    (hb : bytes = true → c < 0x100) : Piece q bytes (escapeHidden c) [c] := by
  rcases escapeHidden_cases c with ⟨e, he, heq⟩ | heq <;> rw [heq]
  · exact letter bytes he
  · exact number hq hc hb

theorem quote {q : Nat} (hq : q = 0x27 ∨ q = 0x22) (bytes : Bool) (h : c = q ∨ c = 0x5c) :
    Piece (Char.ofNat q) bytes ['\\', Char.ofNat c] [c] := by
  apply letter
  rcases h with rfl | rfl
  · rcases hq with rfl | rfl <;> rfl
  · rfl

theorem shown {q : Nat} (hq : q = 0x27 ∨ q = 0x22) (bytes : Bool) (h : 0x20 ≤ c) (hv : c.isValidChar)
    (hne : ¬ (c = q ∨ c = 0x5c)) : Piece (Char.ofNat q) bytes [Char.ofNat c] [c] := by
  have hc : (Char.ofNat c).toNat = c := toNat_ofNat hv
  have hqn : (Char.ofNat q).toNat = q := by rcases hq with rfl | rfl <;> rfl
  have hp := char (q := Char.ofNat q) bytes (c := Char.ofNat c) ?_ ?_ ?_
  · rwa [hc] at hp
  · intro heq
    exact hne (.inr (by rw [← hc, heq]; rfl))
  · rwa [hc]
  · intro heq
    exact hne (.inl (by rw [← hc, heq, hqn]))

theorem quote_eq {q : Nat} (hq : q = 0x27 ∨ q = 0x22) : Char.ofNat q = '\'' ∨ Char.ofNat q = '"' := by
  rcases hq with rfl | rfl
  · exact .inl rfl
  · exact .inr rfl

theorem quoteChar {q : Nat} (hq : q = 0x27 ∨ q = 0x22) (hc : c < 0x110000) :
    Piece (Char.ofNat q) false (Text.quoteChar q c) [c] := by
  rw [Text.quoteChar]
  split
  case isTrue h => exact quote hq false (by simpa using h)
  case isFalse h =>
    split
    case isTrue hp =>
      obtain ⟨h1, h2⟩ := isPrintable_spec hp
      exact shown hq false h1 h2 (by simpa using h)
    case isFalse => exact hidden (quote_eq hq) hc (by simp)

theorem quoteByte {q : Nat} (hq : q = 0x27 ∨ q = 0x22) (hc : c < 0x100) :
    Piece (Char.ofNat q) true (Text.quoteByte q c) [c] := by
  rw [Text.quoteByte]
  split
  case isTrue h => exact quote hq true (by simpa using h)
  case isFalse h =>
    split
    case isTrue hp =>
      have hp : 0x20 ≤ c ∧ c < 0x7f := by simpa using hp
      exact shown hq true hp.1 (.inl (by omega)) (by simpa using h)
    case isFalse => exact hidden (quote_eq hq) (by omega) fun _ => hc

end Piece

/-! ## Literals -/

theorem quoteFor_cases (s : List Nat) : quoteFor s = 0x27 ∨ quoteFor s = 0x22 := by
  rw [quoteFor]
  split
  · exact .inr rfl
  · exact .inl rfl

theorem oneLineString_quote {q : Char} (hq : isQuote q = true) : oneLineString q (q :: rest) = some ([], rest) := by
  rw [Token.oneLineString.eq_4]
  · simp
  · rintro rfl
    cases hq
  · rintro c cs rfl
    cases hq

theorem Piece.literal {q : Char} {body : List Char} {codes : List Nat} (h : Piece q bytes body codes) (hq : isQuote q = true)
    (hr : ∀ c r, rest = c :: r → isQuote c = false) :
    quotedBody (q :: (body ++ q :: rest)) = some (body, rest) ∧ '\n' ∉ body ∧ unescape bytes false body = some codes := by
  refine ⟨?_, h.visible.newline, ?_⟩
  · have hlong : [q, q].isPrefixOf (body ++ q :: rest) = false := by
      cases body with
      | cons c body =>
        have hc : q ≠ c := by
          rintro rfl
          have := h.inert [q]
          simp [oneLineString_quote hq] at this
        simp [List.isPrefixOf, hc]
      | nil =>
        cases rest with
        | nil => simp
        | cons c rest =>
          have hc : q ≠ c := by
            rintro rfl
            cases (hr q rest rfl).symm.trans hq
          simp [List.isPrefixOf, hc]
    rw [quotedBody]
    simp only [hlong, Bool.false_eq_true, ↓reduceIte, h.inert, oneLineString_quote hq]
    simp
  · have := h.reads []
    rw [List.append_nil] at this
    simp [unescape, this, unescapeWith]

theorem isQuote_of_quote {q : Nat} (hq : q = 0x27 ∨ q = 0x22) : isQuote (Char.ofNat q) = true := by
  rcases hq with rfl | rfl <;> rfl

theorem quoted_literal (hs : ∀ c ∈ s, c < 0x110000)
    (hr : ∀ c r, rest = c :: r → isQuote c = false) :
    ∃ body, stringStart ((quoted s).toList ++ rest) = some ([], (quoted s).toList ++ rest) ∧
      quotedBody ((quoted s).toList ++ rest) = some (body, rest) ∧ '\n' ∉ body ∧
      unescape false false body = some s := by
  have hq := quoteFor_cases s
  have hquote := isQuote_of_quote hq
  obtain ⟨hbody, hline, hcodes⟩ := (Piece.flatMap fun c hc => Piece.quoteChar hq (hs c hc)).literal hquote hr
  have htext : (quoted s).toList ++ rest =
      Char.ofNat (quoteFor s) :: (s.flatMap (quoteChar (quoteFor s)) ++ Char.ofNat (quoteFor s) :: rest) := by
    simp [quoted]
  rw [htext]
  refine ⟨_, ?_, hbody, hline, hcodes⟩
  cases hb : s.flatMap (quoteChar (quoteFor s)) ++ Char.ofNat (quoteFor s) :: rest with
  | nil => simp [stringStart, hquote]
  | cons b r => simp [stringStart, hquote]

theorem visible_quote {q : Nat} (hq : q = 0x27 ∨ q = 0x22) : Visible [Char.ofNat q] := by
  rcases hq with rfl | rfl <;> exact Visible.cons (by decide) (by simp [Visible])

theorem visible_quoted (hs : ∀ c ∈ s, c < 0x110000) : Visible (quoted s).toList := by
  have hq := quoteFor_cases s
  have hp := (Piece.flatMap fun c hc => Piece.quoteChar hq (hs c hc)).visible
  rw [quoted, String.toList_ofList]
  exact ((visible_quote hq).append hp).append (visible_quote hq)

theorem escapeNumber_plain (c : Nat) : ∀ d ∈ escapeNumber c, d.toNat < 0x80 := by
  have hmark {mark : Char} (hm : mark.toNat < 0x80) (width : Nat) :
      ∀ d ∈ ['\\', mark] ++ hexPadded width c, d.toNat < 0x80 := by
    intro d hd
    rcases List.mem_append.mp hd with hd | hd
    · rcases List.mem_cons.mp hd with rfl | hd
      · decide
      · rw [List.mem_singleton.mp hd]
        exact hm
    · obtain ⟨k, hk, rfl⟩ := mem_hexPadded hd
      exact (hexDigit_plain hk).2.2.2.2
  rw [escapeNumber]
  split
  · exact hmark (by decide) 2
  · split
    · exact hmark (by decide) 4
    · exact hmark (by decide) 8

theorem escapeHidden_plain : ∀ d ∈ escapeHidden c, d.toNat < 0x80 := by
  rcases escapeHidden_cases c with ⟨e, he, heq⟩ | heq <;> rw [heq]
  · simpa using (letterEscape?_visible he).2
  · exact escapeNumber_plain c

theorem quoteByte_plain {q : Nat} (hq : q = 0x27 ∨ q = 0x22) :
    ∀ d ∈ quoteByte q c, d.toNat < 0x80 := by
  intro d hd
  rw [quoteByte] at hd
  split at hd
  case isTrue h =>
    have hc : c < 0x80 := by
      simp only [Bool.or_eq_true, beq_iff_eq] at h
      omega
    rcases List.mem_cons.mp hd with rfl | hd
    · decide
    · rw [List.mem_singleton.mp hd, toNat_ofNat (.inl (by omega))]
      exact hc
  case isFalse =>
    split at hd
    case isTrue hp =>
      have hp : 0x20 ≤ c ∧ c < 0x7f := by simpa using hp
      rw [List.mem_singleton.mp hd, toNat_ofNat (.inl (by omega))]
      omega
    case isFalse => exact escapeHidden_plain d hd

theorem visible_quotedBytes {bs : List Nat} (hs : ∀ c ∈ bs, c < 0x100) : Visible (quotedBytes bs).toList := by
  have hq := quoteFor_cases bs
  have hp := (Piece.flatMap fun c hc => Piece.quoteByte hq (hs c hc)).visible
  rw [quotedBytes, String.toList_ofList]
  exact Visible.cons (by decide) (((visible_quote hq).append hp).append (visible_quote hq))

theorem quotedBytes_literal {bs : List Nat} (hs : ∀ c ∈ bs, c < 0x100)
    (hr : ∀ c r, rest = c :: r → isQuote c = false) :
    ∃ body q, stringStart ((quotedBytes bs).toList ++ rest) = some (['b'], q) ∧
      quotedBody q = some (body, rest) ∧ '\n' ∉ body ∧ (body.all fun c => c.toNat < 0x80) = true ∧
      unescape true false body = some bs := by
  have hq := quoteFor_cases bs
  have hquote := isQuote_of_quote hq
  obtain ⟨hbody, hline, hcodes⟩ := (Piece.flatMap fun c hc => Piece.quoteByte hq (hs c hc)).literal hquote hr
  have htext : (quotedBytes bs).toList ++ rest = 'b' :: Char.ofNat (quoteFor bs) ::
      (bs.flatMap (quoteByte (quoteFor bs)) ++ Char.ofNat (quoteFor bs) :: rest) := by
    simp [quotedBytes]
  rw [htext]
  refine ⟨_, _, ?_, hbody, hline, ?_, hcodes⟩
  · simp [stringStart, hquote, show isQuote 'b' = false from rfl, show 'b'.toLower = 'b' from rfl]
  · rw [List.all_eq_true]
    intro d hd
    obtain ⟨c, -, hd⟩ := List.mem_flatMap.mp hd
    simpa using quoteByte_plain hq d hd

end SourceOptimizer.Text
