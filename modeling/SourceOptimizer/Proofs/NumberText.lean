import SourceOptimizer.Proofs.ShortestDigits
import SourceOptimizer.Token.Number

/-! Numbers as they are written and read again. Every layout of a double is a decimal of digits, a fraction and
an exponent, and the number at the beginning of a text that begins with such a decimal is what it stands for. -/
namespace SourceOptimizer.Token

open Number

variable {c : Char} {rest ds cs whole : List Char} {w : Written} {d : Digits} {x : Float} {n : Nat}

/-! ## Ends of numbers -/

/-- Characters that a number or a word may stand before in the text of a value. -/
def delimiters : List Char := [',', ')', ']', '\x7d', ':', '\n', ' ', '+', '-', '(']

def Stops (rest : List Char) : Prop := ∃ c r, rest = c :: r ∧ c ∈ delimiters

theorem delimiter_facts (h : c ∈ delimiters) :
    c.isDigit = false ∧ c ≠ '_' ∧ c ≠ '.' ∧ c ≠ 'e' ∧ c ≠ 'E' ∧ c ≠ 'j' ∧ c ≠ 'J' ∧ c ≠ 'x' ∧ c ≠ 'X' ∧ c ≠ 'o' ∧
      c ≠ 'O' ∧ c ≠ 'b' ∧ c ≠ 'B' ∧ Text.isAsciiLetter c.toNat = false ∧ c.toNat < 0x80 := by
  simp only [delimiters, List.mem_cons, List.not_mem_nil, or_false] at h
  rcases h with rfl | rfl | rfl | rfl | rfl | rfl | rfl | rfl | rfl | rfl <;> decide

theorem numberEnds_of_stops (h : Stops rest) : numberEnds rest = true := by
  obtain ⟨c, r, rfl, hc⟩ := h
  obtain ⟨h1, h2, -, -, -, -, -, -, -, -, -, -, -, h3, h4⟩ := delimiter_facts hc
  simp [numberEnds, h1, h2, h3, h4]

def EndsDigits (rest : List Char) : Prop := ∀ c r, rest = c :: r → c.isDigit = false ∧ c ≠ '_'

theorem endsDigits_cons (r : List Char) (h : c.isDigit = false) (hu : c ≠ '_') : EndsDigits (c :: r) := by
  rintro c' r' ⟨⟩
  exact ⟨h, hu⟩

/-! ## Digits -/

theorem isDigit_ne_underscore (h : c.isDigit = true) : c ≠ '_' := by
  rintro rfl
  revert h
  decide

theorem takeDigits_append (hd : ∀ c ∈ ds, c.isDigit = true) (hr : EndsDigits rest) :
    takeDigits Char.isDigit (ds ++ rest) = some (ds, rest) := by
  induction ds with
  | nil =>
    cases rest with
    | nil => rfl
    | cons c r =>
      obtain ⟨h1, h2⟩ := hr c r rfl
      rw [List.nil_append, takeDigits.eq_3]
      · simp [h1]
      · rintro c' cs' rfl
        exact absurd rfl h2
      · rintro rfl
        exact absurd rfl h2
  | cons d ds ih =>
    have h1 := hd d List.mem_cons_self
    have h2 := isDigit_ne_underscore h1
    have h3 := ih fun c hc => hd c (List.mem_cons_of_mem d hc)
    rw [List.cons_append, takeDigits.eq_3]
    · simp [h1, h3]
    · rintro c' cs' rfl
      exact absurd rfl h2
    · rintro rfl
      exact absurd rfl h2

theorem letterValue?_of_isDigit (h : c.isDigit = true) : Value.letterValue? c = some (c.toNat - 48) := by
  have h' : '0' ≤ c ∧ c ≤ '9' := by simpa [Char.isDigit, Char.le_def] using h
  simp [Value.letterValue?, h'.1, h'.2]

theorem natIn_eq (h : ∀ c ∈ cs, c.isDigit = true) : natIn 10 cs = Nat.ofDigitChars 10 cs 0 := by
  suffices key : ∀ n, cs.foldl (fun n c => n * 10 + (Value.letterValue? c).getD 0) n = Nat.ofDigitChars 10 cs n from
    key 0
  induction cs with
  | nil => intro n; rfl
  | cons c cs ih =>
    intro n
    rw [List.foldl_cons, letterValue?_of_isDigit (h c List.mem_cons_self), Nat.ofDigitChars_cons, Nat.mul_comm]
    exact ih (fun c hc => h c (List.mem_cons_of_mem _ hc)) _

/-! ## Written decimals -/

/-- A decimal as it is written: digits, a fraction after a point, an exponent with its sign. -/
structure Written where
  whole : List Char
  fraction : Option (List Char) := none
  exponent : Option (Bool × List Char) := none

namespace Written

def fractionText (w : Written) : List Char :=
  match w.fraction with
  | some f => '.' :: f
  | none => []

def exponentText (w : Written) : List Char :=
  match w.exponent with
  | some (negative, ds) => 'e' :: (if negative then '-' else '+') :: ds
  | none => []

def text (w : Written) : List Char := w.whole ++ (w.fractionText ++ w.exponentText)

def power? (w : Written) : Option Int :=
  w.exponent.map fun (negative, ds) => if negative then -(Nat.ofDigitChars 10 ds 0 : Int) else Nat.ofDigitChars 10 ds 0

def digits (w : Written) : List Char := w.whole ++ w.fraction.getD []

/-- The unit of the last digit, as a power of ten. -/
def unit (w : Written) : Int := w.power?.getD 0 - (w.fraction.getD []).length

def value (w : Written) : ℚ := Nat.ofDigitChars 10 w.digits 0 * 10 ^ w.unit

def real (w : Written) : Float := ofDecimal false (Nat.ofDigitChars 10 w.digits 0) w.unit

structure Sound (w : Written) : Prop where
  whole_ne : w.whole ≠ []
  whole : ∀ c ∈ w.whole, c.isDigit = true
  fraction_ne : w.fraction ≠ some []
  fraction : ∀ c ∈ w.fraction.getD [], c.isDigit = true
  exponent : ∀ negative ds, w.exponent = some (negative, ds) → ds ≠ [] ∧ ∀ c ∈ ds, c.isDigit = true

theorem exponent_eq (hw : w.Sound) (hr : EndsDigits rest)
    (he : ∀ c r, rest = c :: r → c ≠ 'e' ∧ c ≠ 'E') :
    Token.exponent (w.exponentText ++ rest) = some (w.power?, rest) := by
  cases hx : w.exponent with
  | none =>
    rw [exponentText, power?, hx, List.nil_append]
    cases rest with
    | nil => rfl
    | cons c r =>
      obtain ⟨h1, h2⟩ := he c r rfl
      simp [Token.exponent, h1, h2]
  | some e =>
    obtain ⟨negative, ds⟩ := e
    obtain ⟨hne, hd⟩ := hw.exponent negative ds hx
    rw [exponentText, power?, hx]
    cases ds with
    | nil => exact absurd rfl hne
    | cons d ds =>
      have hd1 := hd d List.mem_cons_self
      have ht := takeDigits_append hd hr
      rw [List.cons_append] at ht
      have hn := natIn_eq hd
      cases negative <;> simp [Token.exponent, hd1, ht, hn]

def close (whole fraction : List Char) (hasPoint : Bool) (e : Option Int) (rest : List Char) :
    Option (Value × List Char) :=
  let real : Unit → Float := fun _ =>
    Number.ofDecimal false (natIn 10 (whole ++ fraction)) (e.getD 0 - fraction.length)
  match rest with
  | c :: r =>
    if c == 'j' || c == 'J' then (if numberEnds r then some (.complex 0.0 (real ()), r) else none)
    else decimalTail.finish whole real hasPoint e rest
  | [] => decimalTail.finish whole real hasPoint e rest

theorem decimalTail_whole (h : ∀ r, rest ≠ '.' :: r) :
    decimalTail whole rest = (Token.exponent rest).bind fun (e, r) => close whole [] false e r := by
  cases rest with
  | nil => rfl
  | cons c r =>
    rw [decimalTail]
    · simp only
      rfl
    · exact h

theorem decimalTail_point {d : Char} (h : d.isDigit = true) :
    decimalTail whole ('.' :: d :: rest) = (takeDigits Char.isDigit (d :: rest)).bind fun (ds, r) =>
      (Token.exponent r).bind fun (e, r) => close whole ds true e r := by
  rw [decimalTail]
  simp only [h, ↓reduceIte]
  cases takeDigits Char.isDigit (d :: rest) <;> rfl

theorem exponentText_ne_point (hp : ∀ r, rest ≠ '.' :: r) (r : List Char) :
    w.exponentText ++ rest ≠ '.' :: r := by
  cases hx : w.exponent with
  | none =>
    rw [exponentText, hx, List.nil_append]
    exact hp r
  | some e =>
    rw [exponentText, hx]
    simp

theorem endsDigits_exponentText (hr : EndsDigits rest) :
    EndsDigits (w.exponentText ++ rest) := by
  cases hx : w.exponent with
  | none =>
    rw [exponentText, hx, List.nil_append]
    exact hr
  | some e =>
    rw [exponentText, hx]
    exact endsDigits_cons _ (by decide) (by decide)

theorem endsDigits_fractionText (hr : EndsDigits rest) :
    EndsDigits (w.fractionText ++ rest) := by
  cases hx : w.fraction with
  | none =>
    rw [fractionText, hx, List.nil_append]
    exact hr
  | some e =>
    rw [fractionText, hx]
    exact endsDigits_cons _ (by decide) (by decide)

theorem decimalTail_eq (hw : w.Sound) (hr : EndsDigits rest)
    (he : ∀ c r, rest = c :: r → c ≠ 'e' ∧ c ≠ 'E') (hp : ∀ r, rest ≠ '.' :: r) :
    decimalTail w.whole (w.fractionText ++ (w.exponentText ++ rest)) =
      close w.whole (w.fraction.getD []) w.fraction.isSome w.power? rest := by
  have hx := exponent_eq hw hr he
  cases hf : w.fraction with
  | none =>
    rw [fractionText, hf, List.nil_append, decimalTail_whole (exponentText_ne_point hp), hx]
    rfl
  | some f =>
    have hd := hw.fraction
    rw [hf] at hd
    have ht := takeDigits_append hd (endsDigits_exponentText (w := w) hr)
    cases f with
    | nil => exact absurd hf hw.fraction_ne
    | cons d ds =>
      rw [fractionText, hf]
      show decimalTail w.whole ('.' :: d :: (ds ++ (w.exponentText ++ rest))) = _
      rw [decimalTail_point (hd d List.mem_cons_self)]
      rw [Option.getD_some, List.cons_append] at ht
      rw [ht, Option.bind_some]
      dsimp only
      rw [hx]
      rfl

def baseMarks : List Char := ['x', 'X', 'o', 'O', 'b', 'B']

theorem number_of_takeDigits (h : ∀ c r, cs = '0' :: c :: r → c ∉ baseMarks) :
    number cs = (takeDigits Char.isDigit cs).bind fun (ds, r) => decimalTail ds r := by
  rw [number.eq_def]
  split
  case h_1 c r =>
    have hc := h c r rfl
    simp only [baseMarks, List.mem_cons, List.not_mem_nil, or_false, not_or] at hc
    obtain ⟨h1, h2, h3, h4, h5, h6⟩ := hc
    simp only [h1, h2, h3, h4, h5, h6, beq_iff_eq, Bool.or_eq_true, or_self, ↓reduceIte]
    cases takeDigits Char.isDigit ('0' :: c :: r) <;> rfl
  case h_2 => cases takeDigits Char.isDigit cs <;> rfl

theorem isDigit_not_baseMark (h : c.isDigit = true) : c ∉ baseMarks := by
  intro hc
  simp only [baseMarks, List.mem_cons, List.not_mem_nil, or_false] at hc
  rcases hc with rfl | rfl | rfl | rfl | rfl | rfl <;> revert h <;> decide

structure Follows (rest : List Char) : Prop where
  digit : EndsDigits rest
  exponent : ∀ c r, rest = c :: r → c ≠ 'e' ∧ c ≠ 'E'
  point : ∀ r, rest ≠ '.' :: r
  mark : ∀ c r, rest = c :: r → c ∉ baseMarks

theorem head_not_mark (hw : w.Sound) (hr : Follows rest) {d : Char}
    {r : List Char} (h : w.text ++ rest = d :: c :: r) : c ∉ baseMarks := by
  have hwhole := hw.whole
  rw [text, List.append_assoc] at h
  cases hds : w.whole with
  | nil => exact absurd hds hw.whole_ne
  | cons d' ds =>
    rw [hds] at h hwhole
    obtain ⟨-, h⟩ := List.cons.inj h
    cases ds with
    | cons c' ds =>
      obtain ⟨rfl, -⟩ := List.cons.inj h
      exact isDigit_not_baseMark (hwhole c' (by simp))
    | nil =>
      rw [fractionText, exponentText] at h
      cases hf : w.fraction with
      | some f =>
        rw [hf] at h
        cases h
        decide
      | none =>
        cases hx : w.exponent with
        | some e =>
          rw [hf, hx] at h
          cases h
          decide
        | none =>
          rw [hf, hx] at h
          exact hr.mark c r h

theorem number_eq (hw : w.Sound) (hr : Follows rest) :
    number (w.text ++ rest) = close w.whole (w.fraction.getD []) w.fraction.isSome w.power? rest := by
  have ht : takeDigits Char.isDigit (w.text ++ rest) = some (w.whole, w.fractionText ++ (w.exponentText ++ rest)) := by
    rw [text, List.append_assoc, List.append_assoc]
    exact takeDigits_append hw.whole (endsDigits_fractionText (endsDigits_exponentText hr.digit))
  rw [number_of_takeDigits fun c r h => head_not_mark hw hr h, ht]
  exact decimalTail_eq hw hr.digit hr.exponent hr.point

theorem follows_cons (r : List Char) (hd : c.isDigit = false ∧ c ≠ '_') (he : c ≠ 'e' ∧ c ≠ 'E') (hp : c ≠ '.')
    (hm : c ∉ baseMarks) : Follows (c :: r) := by
  constructor
  · exact endsDigits_cons r hd.1 hd.2
  · rintro c' r' ⟨⟩
    exact he
  · rintro r' ⟨⟩
    exact hp rfl
  · rintro c' r' ⟨⟩
    exact hm

theorem follows_of_stops (h : Stops rest) : Follows rest := by
  obtain ⟨c, r, rfl, hc⟩ := h
  obtain ⟨h1, h2, h3, h4, h5, -, -, h6, h7, h8, h9, h10, h11, -, -⟩ := delimiter_facts hc
  exact follows_cons r ⟨h1, h2⟩ ⟨h4, h5⟩ h3 (by simp [baseMarks, h6, h7, h8, h9, h10, h11])

theorem follows_imaginary (rest : List Char) : Follows ('j' :: rest) :=
  follows_cons rest (by decide) (by decide) (by decide) (by decide)

theorem digits_isDigit (hw : w.Sound) : ∀ c ∈ w.digits, c.isDigit = true := by
  intro c hc
  rcases List.mem_append.mp hc with h | h
  · exact hw.whole c h
  · exact hw.fraction c h

theorem real_eq (hw : w.Sound) :
    ofDecimal false (natIn 10 (w.whole ++ w.fraction.getD [])) (w.power?.getD 0 - (w.fraction.getD []).length) =
      w.real := by
  have hd := natIn_eq (digits_isDigit hw)
  rw [digits] at hd
  rw [hd]
  rfl

theorem number_imaginary (hw : w.Sound) (hr : Stops rest) :
    number (w.text ++ 'j' :: rest) = some (.complex 0.0 w.real, rest) := by
  rw [number_eq hw (follows_imaginary rest), close]
  simp only [BEq.rfl, Bool.true_or, ↓reduceIte, numberEnds_of_stops hr, real_eq hw]

theorem number_real (hw : w.Sound) (hp : (w.fraction.isSome || w.exponent.isSome) = true) (hr : Stops rest) :
    number (w.text ++ rest) = some (.float w.real, rest) := by
  rw [number_eq hw (follows_of_stops hr)]
  have hends := numberEnds_of_stops hr
  obtain ⟨c, r, rfl, hc⟩ := hr
  obtain ⟨-, -, -, -, -, h1, h2, -⟩ := delimiter_facts hc
  have hp' : (w.fraction.isSome || w.power?.isSome) = true := by rwa [power?, Option.isSome_map]
  simp only [close, h1, h2, beq_iff_eq, Bool.or_eq_true, or_self, ↓reduceIte, decimalTail.finish, hends, hp',
    Bool.not_true, Bool.false_eq_true, real_eq hw]

theorem number_whole (hne : ds ≠ []) (hd : ∀ c ∈ ds, c.isDigit = true)
    (hz : ds.head? = some '0' → Nat.ofDigitChars 10 ds 0 = 0) (hlen : ds.length ≤ maxDigits) (hr : Stops rest) :
    number (ds ++ rest) = some (.int (Nat.ofDigitChars 10 ds 0), rest) := by
  have hw : Sound ⟨ds, none, none⟩ := ⟨hne, hd, by simp, by simp, by simp⟩
  have h := number_eq hw (follows_of_stops hr)
  have hends := numberEnds_of_stops hr
  obtain ⟨c, r, rfl, hc⟩ := hr
  obtain ⟨-, -, -, -, -, h1, h2, -⟩ := delimiter_facts hc
  have htext : text ⟨ds, none, none⟩ = ds := by simp [text, fractionText, exponentText]
  rw [htext] at h
  rw [h]
  simp only [close, h1, h2, beq_iff_eq, Bool.or_eq_true, or_self, ↓reduceIte, decimalTail.finish, hends,
    Bool.not_true, Bool.false_eq_true, natIn_eq hd, power?, Option.map_none, Option.isSome_none, Bool.or_self]
  have hnot : ¬ ((ds.head? == some '0' && Nat.ofDigitChars 10 ds 0 != 0) = true ∨ maxDigits < ds.length) := by
    rintro (h | h)
    · simp at h
      exact h.2 (hz h.1)
    · omega
  simpa using hnot

end Written

open Written (fractionText power?)

/-! ## Layouts -/

/-- A decimal that writes digits in a layout. -/
structure Written.Of (w : Written) (l : Layout) (d : Digits) : Prop where
  sound : w.Sound
  text : (l.write d).toList = w.text
  value : w.value = d.value
  point : l.keepsPoint = true → (w.fraction.isSome || w.exponent.isSome) = true
  whole : (w.fraction.isSome || w.exponent.isSome) = false →
    w.whole.head? ≠ some '0' ∧ (w.whole.length : Int) ≤ l.greatestPoint

theorem isDigit_chars (h : d.Spells x) : ∀ c ∈ d.chars, c.isDigit = true := by
  intro c hc
  obtain ⟨n, hn, rfl⟩ := List.mem_map.mp hc
  rw [Nat.isDigit_digitChar, decide_eq_true_eq]
  exact h.digit n hn

theorem chars_ne_nil (h : d.Spells x) : d.chars ≠ [] := by
  obtain ⟨a, rest, ha, -⟩ := h.head
  simp [Digits.chars, ha]

theorem head_chars (h : d.Spells x) : d.chars.head? ≠ some '0' := by
  obtain ⟨a, rest, ha, hne⟩ := h.head
  simp [Digits.chars, ha, Nat.digitChar_eq_zero, hne]

def exponentDigits (e : Int) : List Char :=
  if (Nat.repr e.natAbs).length < 2 then '0' :: Nat.toDigits 10 e.natAbs else Nat.toDigits 10 e.natAbs

theorem toList_exponentText (e : Int) :
    (exponentText e).toList = (if decide (e < 0) = true then '-' else '+') :: exponentDigits e := by
  simp only [exponentText, exponentDigits, Nat.repr_eq_ofList_toDigits]
  split <;> split <;> simp_all

theorem ofDigitChars_exponentDigits (e : Int) : Nat.ofDigitChars 10 (exponentDigits e) 0 = e.natAbs := by
  rw [exponentDigits]
  split
  · rw [Nat.ofDigitChars_cons]
    exact Nat.ofDigitChars_ten_toDigits
  · exact Nat.ofDigitChars_ten_toDigits

theorem isDigit_exponentDigits (e : Int) : exponentDigits e ≠ [] ∧ ∀ c ∈ exponentDigits e, c.isDigit = true := by
  have hd : ∀ c ∈ Nat.toDigits 10 e.natAbs, c.isDigit = true := fun c hc =>
    Nat.isDigit_of_mem_toDigits (by decide) (by decide) hc
  rw [exponentDigits]
  split
  · refine ⟨by simp, fun c hc => ?_⟩
    rcases List.mem_cons.mp hc with rfl | hc
    · rfl
    · exact hd c hc
  · exact ⟨Nat.toDigits_ne_nil, hd⟩

theorem length_chars (d : Digits) : d.chars.length = d.digits.length := by simp [Digits.chars]

theorem take_append_drop_chars (d : Digits) (k : Nat) :
    (d.digits.take k).map Nat.digitChar ++ (d.digits.drop k).map Nat.digitChar = d.chars := by
  rw [← List.map_append, List.take_append_drop, Digits.chars]

section Cases
variable {l : Layout} (h : d.Spells x)
include h

section Positional
variable (hr : l.leastPoint ≤ d.point ∧ d.point ≤ l.greatestPoint)
include hr

theorem written_small (hp : d.point ≤ 0) :
    Written.Of ⟨['0'], some (List.replicate (-d.point).toNat '0' ++ d.chars), none⟩ l d where
  sound := by
    refine ⟨by simp, by simp, ?_, ?_, by simp⟩
    · simp [chars_ne_nil h]
    · intro c hc
      rcases List.mem_append.mp hc with hc | hc
      · rw [List.eq_of_mem_replicate hc]
        rfl
      · exact isDigit_chars h c hc
  text := by
    simp [Layout.write, hr, hp, Written.text, fractionText, Written.exponentText, zeros, digitsText,
      Digits.chars]
  value := by
    have hn : Nat.ofDigitChars 10 ('0' :: (List.replicate (-d.point).toNat '0' ++ d.chars)) 0 =
        Nat.ofDigitChars 10 d.chars 0 := by
      rw [Nat.ofDigitChars_cons, Nat.ofDigitChars_append, Nat.ofDigitChars_replicate_zero]
      rfl
    rw [Written.value, Written.digits, Digits.value]
    congr 2
    simp [Written.unit, power?, length_chars]
    omega
  point _ := rfl
  whole hw := by simp at hw

theorem written_whole (hp : ¬ d.point ≤ 0) (hn : (d.digits.length : Int) ≤ d.point) :
    Written.Of ⟨d.chars ++ List.replicate (d.point - d.digits.length).toNat '0',
      if l.keepsPoint then some ['0'] else none, none⟩ l d where
  sound := by
    refine ⟨by simp [chars_ne_nil h], ?_, ?_, ?_, by simp⟩
    · intro c hc
      rcases List.mem_append.mp hc with hc | hc
      · exact isDigit_chars h c hc
      · rw [List.eq_of_mem_replicate hc]
        rfl
    · split <;> simp
    · split <;> simp
  text := by
    cases hk : l.keepsPoint <;>
      simp [Layout.write, hr, hp, hn, hk, Written.text, fractionText, Written.exponentText, zeros, digitsText,
        Digits.chars]
  value := by
    have hN : Nat.ofDigitChars 10 (d.chars ++ List.replicate (d.point - d.digits.length).toNat '0') 0 =
        10 ^ (d.point - d.digits.length).toNat * Nat.ofDigitChars 10 d.chars 0 := by
      rw [Nat.ofDigitChars_append, Nat.ofDigitChars_replicate_zero]
    have hpow : (10 : ℚ) ^ (d.point - d.digits.length) = 10 ^ (d.point - d.digits.length).toNat := by
      rw [← zpow_natCast, Int.toNat_of_nonneg (by omega)]
    rw [Written.value, Written.digits, Digits.value, hpow]
    cases l.keepsPoint with
    | true =>
      have hN' : Nat.ofDigitChars 10 (d.chars ++ List.replicate (d.point - d.digits.length).toNat '0' ++ ['0']) 0 =
          10 * (10 ^ (d.point - d.digits.length).toNat * Nat.ofDigitChars 10 d.chars 0) := by
        rw [Nat.ofDigitChars_append, hN]
        rfl
      simp only [↓reduceIte, Option.getD_some, hN', Written.unit, power?, Option.map_none, Option.getD_none,
        List.length_singleton]
      push_cast
      ring
    | false =>
      simp only [Bool.false_eq_true, ↓reduceIte, Option.getD_none, List.append_nil, hN, Written.unit, power?,
        Option.map_none, List.length_nil]
      simp
      ring
  point hk := by simp [hk]
  whole hw := by
    have hk : l.keepsPoint = false := by
      cases hk : l.keepsPoint with
      | true => simp [hk] at hw
      | false => rfl
    refine ⟨?_, ?_⟩
    · rw [List.head?_append_of_ne_nil _ (chars_ne_nil h)]
      exact head_chars h
    · simp [length_chars]
      omega

theorem written_mixed (hp : ¬ d.point ≤ 0) (hn : ¬ (d.digits.length : Int) ≤ d.point) :
    Written.Of ⟨(d.digits.take d.point.toNat).map Nat.digitChar,
      some ((d.digits.drop d.point.toNat).map Nat.digitChar), none⟩ l d where
  sound := by
    have hd := isDigit_chars h
    rw [← take_append_drop_chars d d.point.toNat] at hd
    refine ⟨?_, fun c hc => hd c (List.mem_append_left _ hc), ?_, fun c hc => hd c (List.mem_append_right _ hc),
      by simp⟩
    · intro hnil
      have := congrArg List.length hnil
      rw [List.length_map, List.length_take, List.length_nil] at this
      omega
    · intro hnil
      have := congrArg List.length (Option.some.inj hnil)
      rw [List.length_map, List.length_drop, List.length_nil] at this
      omega
  text := by
    simp [Layout.write, hr, hp, hn, Written.text, fractionText, Written.exponentText, digitsText]
  value := by
    rw [Written.value, Written.digits, Option.getD_some, take_append_drop_chars, Digits.value]
    congr 2
    simp [Written.unit, power?]
    omega
  point _ := rfl
  whole hw := by simp at hw

end Positional

def decimals (d : Digits) : Option (List Char) :=
  if (d.digits.drop 1).isEmpty then none else some ((d.digits.drop 1).map Nat.digitChar)

theorem written_exponent (hr : ¬ (l.leastPoint ≤ d.point ∧ d.point ≤ l.greatestPoint)) :
    Written.Of ⟨(d.digits.take 1).map Nat.digitChar, decimals d,
      some (decide (d.point - 1 < 0), exponentDigits (d.point - 1))⟩ l d where
  sound := by
    have hd := isDigit_chars h
    rw [← take_append_drop_chars d 1] at hd
    obtain ⟨a, rest, ha, -⟩ := h.head
    refine ⟨by simp [ha], fun c hc => hd c (List.mem_append_left _ hc), ?_, ?_, ?_⟩
    · unfold decimals
      split
      · simp
      · simp_all
    · intro c hc
      unfold decimals at hc
      split at hc
      · simp at hc
      · exact hd c (List.mem_append_right _ hc)
    · rintro negative ds heq
      obtain ⟨-, rfl⟩ := Prod.mk.inj (Option.some.inj heq)
      exact isDigit_exponentDigits _
  text := by
    have hr' : (decide (l.leastPoint ≤ d.point) && decide (d.point ≤ l.greatestPoint)) = false := by
      simpa [Bool.and_eq_false_iff] using hr
    have hrest : (if (d.digits.drop 1).isEmpty = true then "" else "." ++ digitsText (d.digits.drop 1)).toList =
        fractionText ⟨(d.digits.take 1).map Nat.digitChar, decimals d,
          some (decide (d.point - 1 < 0), exponentDigits (d.point - 1))⟩ := by
      rw [decimals]
      cases d.digits.drop 1 with
      | nil => rfl
      | cons a rest => simp [fractionText, digitsText]
    simp only [Layout.write, hr', Bool.false_eq_true, ↓reduceIte, String.toList_append, hrest, toList_exponentText]
    simp [Written.text, Written.exponentText, digitsText]
  value := by
    have hdig : (d.digits.take 1).map Nat.digitChar ++ (decimals d).getD [] = d.chars := by
      rw [← take_append_drop_chars d 1, decimals]
      cases d.digits.drop 1 <;> rfl
    have hlen : ((decimals d).getD []).length = d.digits.length - 1 := by
      rw [← List.length_drop, decimals]
      cases d.digits.drop 1 <;> simp
    obtain ⟨a, rest, ha, -⟩ := h.head
    have hpos : 1 ≤ d.digits.length := by simp [ha]
    rw [Written.value, Written.digits, hdig, Digits.value]
    congr 2
    simp only [Written.unit, power?, hlen, Option.map_some, Option.getD_some, ofDigitChars_exponentDigits,
      decide_eq_true_eq]
    split <;> omega
  point _ := by simp
  whole hw := by simp at hw

end Cases

theorem written_of (l : Layout) (h : d.Spells x) : ∃ w : Written, w.Of l d := by
  by_cases hr : l.leastPoint ≤ d.point ∧ d.point ≤ l.greatestPoint
  · by_cases hp : d.point ≤ 0
    · exact ⟨_, written_small h hr hp⟩
    · by_cases hn : (d.digits.length : Int) ≤ d.point
      · exact ⟨_, written_whole h hr hp hn⟩
      · exact ⟨_, written_mixed h hr hp hn⟩
  · exact ⟨_, written_exponent h hr⟩

def WholeOf (x : Float) (n : Nat) : Prop := ofInt? n = some x ∧ (ofInt? (-n)).map unsigned = some (unsigned (negate x))

structure Written.Shows (w : Written) (l : Layout) (x : Float) : Prop where
  sound : w.Sound
  text : (l.show x).toList = w.text
  real : w.real = x
  point : l.keepsPoint = true → (w.fraction.isSome || w.exponent.isSome) = true
  whole : (w.fraction.isSome || w.exponent.isSome) = false →
    (w.whole.head? = some '0' → Nat.ofDigitChars 10 w.whole 0 = 0) ∧ (w.whole.length : Int) ≤ max 1 l.greatestPoint ∧
      WholeOf x (Nat.ofDigitChars 10 w.whole 0)

theorem eq_zero_of_isZero (hz : isZero x = true) (hs : isNegative x = false) : x = 0.0 := by
  refine ext_sign (hs.trans rfl) ?_
  rw [(isZero_iff x).mp hz]
  rfl

theorem ofInt?_neg (hf : isFinite x = true) (hz : isZero x = false) (hs : isNegative x = false)
    (h : (roundingOf x).Contains n) : ofInt? (-n) = some (negate x) := by
  have hn := isNaN_of_isFinite hf
  have hm := magnitude_negate hn
  have hneg : isNegative (negate x) = true := by rw [isNegative_negate hn, hs]; rfl
  have hf' : isFinite (negate x) = true := by rwa [isFinite_iff, hm, ← isFinite_iff]
  have hz' : isZero (negate x) = false := by
    rw [Bool.eq_false_iff, Ne, isZero_iff, hm, ← isZero_iff, hz]
    decide
  have hr := roundingOf_negate hn
  have := ofInt?_of_contains hf' hz' (hr ▸ h)
  rwa [hneg, if_pos rfl] at this

theorem wholeOf_zero : WholeOf 0.0 0 := by
  have h : ofInt? 0 = some 0.0 := by
    rfl
  refine ⟨h, ?_⟩
  rfl

theorem written_shows (l : Layout) (hf : isFinite x = true) (hs : isNegative x = false) :
    ∃ w : Written, w.Shows l x := by
  have hn := isNaN_of_isFinite hf
  have hi := isInf_of_isFinite hf
  cases hz : isZero x with
  | true =>
    obtain rfl := eq_zero_of_isZero hz hs
    refine ⟨⟨['0'], if l.keepsPoint then some ['0'] else none, none⟩, ?_, ?_, ?_, ?_, ?_⟩
    · refine ⟨by simp, by simp, ?_, ?_, by simp⟩ <;> split <;> simp
    · cases hk : l.keepsPoint <;> simp [Layout.show, hn, hs, hi, hz, hk, Written.text, fractionText,
        Written.exponentText]
    · cases l.keepsPoint <;> rfl
    · intro hk
      simp [hk]
    · intro _
      exact ⟨fun _ => rfl, by simp, wholeOf_zero⟩
  | false =>
    have hsp := shortest_spells hf hz
    obtain ⟨w, hw⟩ := written_of l hsp
    have hc := hsp.contains
    rw [← hw.value] at hc
    refine ⟨w, hw.sound, ?_, ?_, hw.point, ?_⟩
    · rw [← hw.text]
      simp [Layout.show, hn, hs, hi, hz, absolute_of_nonnegative hn hs]
    · exact ofDecimal_of_contains hf hz hs hc
    · intro hp
      obtain ⟨h1, h2⟩ := hw.whole hp
      have hv : w.value = (Nat.ofDigitChars 10 w.whole 0 : Nat) := by
        simp only [Bool.or_eq_false_iff, Option.isSome_eq_false_iff, Option.isNone_iff_eq_none] at hp
        simp [Written.value, Written.digits, Written.unit, power?, hp.1, hp.2]
      rw [hv] at hc
      refine ⟨fun h => absurd h h1, by omega, ?_, ?_⟩
      · have := ofInt?_of_contains hf hz hc
        rwa [hs, if_neg (by decide)] at this
      · rw [ofInt?_neg hf hz hs hc]
        rfl

section Shown
variable (hf : isFinite x = true) (hs : isNegative x = false) (hr : Stops rest)
include hf hs hr

theorem number_plain : number ((plainLayout.show x).toList ++ rest) = some (.float x, rest) := by
  obtain ⟨w, hw⟩ := written_shows plainLayout hf hs
  rw [hw.text, Written.number_real hw.sound (hw.point rfl) hr, hw.real]

theorem number_imaginary_part : number ((partLayout.show x).toList ++ 'j' :: rest) = some (.complex 0.0 x, rest) := by
  obtain ⟨w, hw⟩ := written_shows partLayout hf hs
  rw [hw.text, Written.number_imaginary hw.sound hr, hw.real]

theorem number_real_part : ∃ v, number ((partLayout.show x).toList ++ rest) = some (v, rest) ∧
      (v = .float x ∨ ∃ n : Nat, v = .int n ∧ WholeOf x n) := by
  obtain ⟨w, hw⟩ := written_shows partLayout hf hs
  rw [hw.text]
  cases hp : w.fraction.isSome || w.exponent.isSome with
  | true => exact ⟨_, Written.number_real hw.sound hp hr, .inl (by rw [hw.real])⟩
  | false =>
    obtain ⟨h1, h2, h3⟩ := hw.whole hp
    have htext : w.text = w.whole := by
      simp only [Bool.or_eq_false_iff, Option.isSome_eq_false_iff, Option.isNone_iff_eq_none] at hp
      simp [Written.text, fractionText, Written.exponentText, hp.1, hp.2]
    rw [htext]
    refine ⟨_, Written.number_whole hw.sound.whole_ne hw.sound.whole h1 ?_ hr, .inr ⟨_, rfl, h3⟩⟩
    have : max 1 partLayout.greatestPoint = 16 := rfl
    rw [maxDigits]
    omega

end Shown

theorem number_repr (hlen : n.repr.length ≤ maxDigits) (hr : Stops rest) :
    number (n.repr.toList ++ rest) = some (.int n, rest) := by
  have hd : ∀ c ∈ Nat.toDigits 10 n, c.isDigit = true := fun c hc =>
    Nat.isDigit_of_mem_toDigits (by decide) (by decide) hc
  rw [Nat.repr_eq_ofList_toDigits, String.length_ofList] at hlen
  rw [Nat.repr_eq_ofList_toDigits, String.toList_ofList]
  have h := Written.number_whole Nat.toDigits_ne_nil hd ?_ hlen hr
  · rw [h, Nat.ofDigitChars_ten_toDigits]
  · intro hz
    rw [Nat.ofDigitChars_ten_toDigits]
    by_contra hne
    obtain ⟨d, cs, hd0, -, hcs⟩ := toDigits_head (Nat.pos_of_ne_zero hne)
    rw [hcs, List.head?_cons, Option.some.injEq, Nat.digitChar_eq_zero] at hz
    omega

end SourceOptimizer.Token
